import NemoSwap.Pool.Instructions

set_option relaxedAutoImplicit false
set_option autoImplicit false

/-!
# The instructions of the program

The program stores configs, fee tiers and pools. An instruction reads and changes some of these
accounts: an administrative instruction a config, a fee tier or the record of a pool, most others
one pool, and `two_hop_swap` two of them.

## Main definitions

* `NemoSwap.Program` — the accounts.
* `NemoSwap.twoHopSwap` — the handler of `two_hop_swap` on its two pools.
* `NemoSwap.Instruction`, `NemoSwap.Program.step` — one instruction with its accounts and
  arguments, and its effect.
* `NemoSwap.Program.run` — the accounts after a list of instructions.

## Implementation notes

The address of a pool and of a fee tier is derived from seeds, and is identified with them. The
account of a config has an address of its own. A constraint that an account belongs to a config,
or that a signer is one of its authorities, is checked on the stored config.
-/

namespace NemoSwap

/-! ## Configs and fee tiers -/

/-- `WhirlpoolsConfig`. -/
structure WhirlpoolsConfig where
  feeAuthority : Pubkey
  collectProtocolFeesAuthority : Pubkey
  rewardEmissionsSuperAuthority : Pubkey
  poolCreatorAuthority : Pubkey
  defaultProtocolFeeRate : ℕ
  deriving DecidableEq

/-- `update_default_protocol_fee_rate`. -/
def WhirlpoolsConfig.updateDefaultProtocolFeeRate (self : WhirlpoolsConfig)
    (defaultProtocolFeeRate : ℕ) : Res WhirlpoolsConfig :=
  if defaultProtocolFeeRate > maxProtocolFeeRate then err .ProtocolFeeRateMaxExceeded
  else return { self with defaultProtocolFeeRate }

/-- `FeeTier`. -/
structure FeeTier where
  whirlpoolsConfig : Pubkey
  tickSpacing : ℕ
  defaultFeeRate : ℕ
  deriving DecidableEq

/-- `update_default_fee_rate`. -/
def FeeTier.updateDefaultFeeRate (self : FeeTier) (defaultFeeRate : ℕ) : Res FeeTier :=
  if defaultFeeRate > maxFeeRate then err .FeeRateMaxExceeded
  else return { self with defaultFeeRate }

/-- `FeeTier::initialize`. -/
def FeeTier.initializeFeeTier (whirlpoolsConfig : Pubkey) (tickSpacing defaultFeeRate : ℕ) :
    Res FeeTier :=
  let self : FeeTier := { whirlpoolsConfig, tickSpacing, defaultFeeRate := 0 }
  self.updateDefaultFeeRate defaultFeeRate

/-! ## Two-hop swaps -/

/-- The arguments of `two_hop_swap`, with its tick arrays, the clock and the balances of the
trader's token accounts when each of the legs is paid. -/
structure TwoHopArgs where
  amount : UInt64
  otherAmountThreshold : UInt64
  amountSpecifiedIsInput : Bool
  aToBOne : Bool
  aToBTwo : Bool
  sqrtPriceLimitOne : BitVec 128
  sqrtPriceLimitTwo : BitVec 128
  arrayOne0 : ℤ
  arrayOne1 : ℤ
  arrayOne2 : ℤ
  arrayTwo0 : ℤ
  arrayTwo1 : ℤ
  arrayTwo2 : ℤ
  clock : Int64
  fundsOne : OwnerFunds
  fundsTwo : OwnerFunds

namespace TwoHopArgs

/-- The call of `swap` in pool one. -/
def legOne (args : TwoHopArgs) (amount : UInt64) : Pool.SwapArgs :=
  ⟨args.arrayOne0, args.arrayOne1, args.arrayOne2, amount, args.sqrtPriceLimitOne,
    args.amountSpecifiedIsInput, args.aToBOne⟩

/-- The call of `swap` in pool two. -/
def legTwo (args : TwoHopArgs) (amount : UInt64) : Pool.SwapArgs :=
  ⟨args.arrayTwo0, args.arrayTwo1, args.arrayTwo2, amount, args.sqrtPriceLimitTwo,
    args.amountSpecifiedIsInput, args.aToBTwo⟩

end TwoHopArgs

/-- The two calls of `swap`: from pool one to pool two if the input is specified, and from pool
two to pool one if the output is. The amount of the second call is a `u64` result of the first. -/
def computeTwoHop (one two : Pool) (args : TwoHopArgs) (timestamp : ℕ) :
    Res ((PostSwapUpdate × SwapTickSequence) × PostSwapUpdate × SwapTickSequence) :=
  if args.amountSpecifiedIsInput then do
    let swapCalcOne ← one.computeSwapUpdate (args.legOne args.amount) timestamp
    let swapTwoInputAmount :=
      if args.aToBOne then swapCalcOne.1.amountB else swapCalcOne.1.amountA
    let swapCalcTwo ←
      two.computeSwapUpdate (args.legTwo (UInt64.ofNat swapTwoInputAmount)) timestamp
    return (swapCalcOne, swapCalcTwo)
  else do
    let swapCalcTwo ← two.computeSwapUpdate (args.legTwo args.amount) timestamp
    let swapOneOutputAmount :=
      if args.aToBTwo then swapCalcTwo.1.amountA else swapCalcTwo.1.amountB
    let swapCalcOne ←
      one.computeSwapUpdate (args.legOne (UInt64.ofNat swapOneOutputAmount)) timestamp
    return (swapCalcOne, swapCalcTwo)

/-- The check of `other_amount_threshold` in `two_hop_swap`. -/
def checkTwoHopThreshold (args : TwoHopArgs) (swapUpdateOne swapUpdateTwo : PostSwapUpdate) :
    Res Unit :=
  if args.amountSpecifiedIsInput then
    let outputAmount :=
      if args.aToBTwo then swapUpdateTwo.amountB else swapUpdateTwo.amountA
    if args.otherAmountThreshold.toNat > outputAmount then err .AmountOutBelowMinimum else .ok ()
  else
    let inputAmount :=
      if args.aToBOne then swapUpdateOne.amountA else swapUpdateOne.amountB
    if args.otherAmountThreshold.toNat < inputAmount then err .AmountInAboveMaximum else .ok ()

/-- The handler of `two_hop_swap`, for two different pools. -/
def twoHopSwap (one two : Pool) (args : TwoHopArgs) : Res (Pool × Pool) := do
  let timestamp ← toTimestampU64 args.clock
  let swapOneOutputMint :=
    if args.aToBOne then one.whirlpool.tokenMintB else one.whirlpool.tokenMintA
  let swapTwoInputMint :=
    if args.aToBTwo then two.whirlpool.tokenMintA else two.whirlpool.tokenMintB
  if swapOneOutputMint ≠ swapTwoInputMint then err .InvalidIntermediaryMint
  else do
    let ((swapUpdateOne, sequenceOne), swapUpdateTwo, sequenceTwo) ←
      computeTwoHop one two args timestamp
    checkTwoHopThreshold args swapUpdateOne swapUpdateTwo
    let one ← one.updateAndSwapWhirlpool swapUpdateOne sequenceOne args.aToBOne timestamp
      args.fundsOne
    let two ← two.updateAndSwapWhirlpool swapUpdateTwo sequenceTwo args.aToBTwo timestamp
      args.fundsTwo
    return (one, two)

/-! ## The accounts -/

/-- The seeds of the address of a fee tier. -/
structure FeeTierKey where
  whirlpoolsConfig : Pubkey
  tickSpacing : ℕ
  deriving DecidableEq

/-- The accounts of the program. -/
structure Program where
  configs : Pubkey → Option WhirlpoolsConfig
  feeTiers : FeeTierKey → Option FeeTier
  pools : PoolKey → Option Pool

/-- The instructions, with their accounts and arguments. A `signer` is the account that an
instruction requires to be an authority. -/
inductive Instruction
  | initializeConfig (config feeAuthority collectProtocolFeesAuthority
      rewardEmissionsSuperAuthority poolCreatorAuthority : Pubkey)
      (defaultProtocolFeeRate : UInt16)
  | setFeeAuthority (config signer newAuthority : Pubkey)
  | setCollectProtocolFeesAuthority (config signer newAuthority : Pubkey)
  | setRewardEmissionsSuperAuthority (config signer newAuthority : Pubkey)
  | setPoolCreatorAuthority (config signer newAuthority : Pubkey)
  | setDefaultProtocolFeeRate (config signer : Pubkey) (defaultProtocolFeeRate : UInt16)
  | initializeFeeTier (config signer : Pubkey) (tickSpacing defaultFeeRate : UInt16)
  | setDefaultFeeRate (config signer : Pubkey) (feeTier : FeeTierKey) (defaultFeeRate : UInt16)
  | initializePool (config tokenMintA tokenMintB : Pubkey) (feeTier : FeeTierKey)
      (tickSpacing : UInt16) (initialSqrtPrice : BitVec 128)
  | onPool (pool : PoolKey) (signer : Pubkey) (op : PoolOp)
  | twoHopSwap (one two : PoolKey) (args : TwoHopArgs)

namespace Program

/-- No account exists. -/
def empty : Program := ⟨fun _ => none, fun _ => none, fun _ => none⟩

/-- The account of a config. -/
def getConfig (program : Program) (config : Pubkey) : Res WhirlpoolsConfig :=
  match program.configs config with
  | some account => .ok account
  | none => .error .constraint

/-- The account of a fee tier. -/
def getFeeTier (program : Program) (feeTier : FeeTierKey) : Res FeeTier :=
  match program.feeTiers feeTier with
  | some account => .ok account
  | none => .error .constraint

/-- The accounts of a pool. -/
def getPool (program : Program) (pool : PoolKey) : Res Pool :=
  match program.pools pool with
  | some accounts => .ok accounts
  | none => .error .constraint

/-- Store a config. -/
def setConfig (program : Program) (config : Pubkey) (account : WhirlpoolsConfig) : Program :=
  { program with configs := Function.update program.configs config (some account) }

/-- Store a fee tier. -/
def setFeeTier (program : Program) (feeTier : FeeTierKey) (account : FeeTier) : Program :=
  { program with feeTiers := Function.update program.feeTiers feeTier (some account) }

/-- Store a pool. -/
def setPool (program : Program) (pool : PoolKey) (accounts : Pool) : Program :=
  { program with pools := Function.update program.pools pool (some accounts) }

/-! ## Administration -/

/-- `initialize_config`: the account must be new. -/
def initializeConfig (program : Program) (config feeAuthority collectProtocolFeesAuthority
    rewardEmissionsSuperAuthority poolCreatorAuthority : Pubkey)
    (defaultProtocolFeeRate : ℕ) : Res Program :=
  if (program.configs config).isSome then .error .constraint
  else do
    let account : WhirlpoolsConfig :=
      { feeAuthority, collectProtocolFeesAuthority, rewardEmissionsSuperAuthority
        poolCreatorAuthority, defaultProtocolFeeRate := 0 }
    let account ← account.updateDefaultProtocolFeeRate defaultProtocolFeeRate
    return program.setConfig config account

/-- The instructions that change a config, which one of its authorities must sign. -/
def updateConfig (program : Program) (config signer : Pubkey)
    (authority : WhirlpoolsConfig → Pubkey) (f : WhirlpoolsConfig → Res WhirlpoolsConfig) :
    Res Program := do
  let account ← program.getConfig config
  if signer ≠ authority account then .error .constraint
  else do
    let account ← f account
    return program.setConfig config account

/-- `set_fee_authority`. -/
def setFeeAuthority (program : Program) (config signer newAuthority : Pubkey) : Res Program :=
  program.updateConfig config signer WhirlpoolsConfig.feeAuthority fun account =>
    .ok { account with feeAuthority := newAuthority }

/-- `set_collect_protocol_fees_authority`. -/
def setCollectProtocolFeesAuthority (program : Program) (config signer newAuthority : Pubkey) :
    Res Program :=
  program.updateConfig config signer WhirlpoolsConfig.collectProtocolFeesAuthority fun account =>
    .ok { account with collectProtocolFeesAuthority := newAuthority }

/-- `set_reward_emissions_super_authority`. -/
def setRewardEmissionsSuperAuthority (program : Program) (config signer newAuthority : Pubkey) :
    Res Program :=
  program.updateConfig config signer WhirlpoolsConfig.rewardEmissionsSuperAuthority fun account =>
    .ok { account with rewardEmissionsSuperAuthority := newAuthority }

/-- `set_pool_creator_authority`. -/
def setPoolCreatorAuthority (program : Program) (config signer newAuthority : Pubkey) :
    Res Program :=
  program.updateConfig config signer WhirlpoolsConfig.poolCreatorAuthority fun account =>
    .ok { account with poolCreatorAuthority := newAuthority }

/-- `set_default_protocol_fee_rate`. -/
def setDefaultProtocolFeeRate (program : Program) (config signer : Pubkey)
    (defaultProtocolFeeRate : ℕ) : Res Program :=
  program.updateConfig config signer WhirlpoolsConfig.feeAuthority fun account =>
    account.updateDefaultProtocolFeeRate defaultProtocolFeeRate

/-- `initialize_fee_tier`: the account must be new. -/
def initializeFeeTier (program : Program) (config signer : Pubkey)
    (tickSpacing defaultFeeRate : ℕ) : Res Program := do
  let account ← program.getConfig config
  if signer ≠ account.feeAuthority then .error .constraint
  else if (program.feeTiers ⟨config, tickSpacing⟩).isSome then .error .constraint
  else do
    let feeTier ← FeeTier.initializeFeeTier config tickSpacing defaultFeeRate
    return program.setFeeTier ⟨config, tickSpacing⟩ feeTier

/-- `set_default_fee_rate`: the fee tier must belong to the config. -/
def setDefaultFeeRate (program : Program) (config signer : Pubkey) (feeTier : FeeTierKey)
    (defaultFeeRate : ℕ) : Res Program := do
  let account ← program.getConfig config
  let tier ← program.getFeeTier feeTier
  if tier.whirlpoolsConfig ≠ config then .error .constraint
  else if signer ≠ account.feeAuthority then .error .constraint
  else do
    let tier ← tier.updateDefaultFeeRate defaultFeeRate
    return program.setFeeTier feeTier tier

/-- `initialize_pool`: the account must be new, and the fee tier must belong to the config. -/
def initializePool (program : Program) (config tokenMintA tokenMintB : Pubkey)
    (feeTier : FeeTierKey) (tickSpacing initialSqrtPrice : ℕ) : Res Program := do
  let account ← program.getConfig config
  let tier ← program.getFeeTier feeTier
  if (program.pools ⟨config, tokenMintA, tokenMintB, tickSpacing⟩).isSome then .error .constraint
  else if tier.whirlpoolsConfig ≠ config then .error .constraint
  else do
    let whirlpool ← Whirlpool.initializeWhirlpool config account.defaultProtocolFeeRate
      account.rewardEmissionsSuperAuthority tickSpacing initialSqrtPrice tier.defaultFeeRate
      tokenMintA tokenMintB
    return program.setPool ⟨config, tokenMintA, tokenMintB, tickSpacing⟩ (Pool.new whirlpool)

/-! ## Pools -/

/-- The authority of a reward. -/
def rewardAuthority (whirlpool : Whirlpool) (index : ℕ) : Option Pubkey :=
  if h : index < numRewards then some (whirlpool.rewardInfos ⟨index, h⟩).authority else none

/-- Whether a signer may call an instruction on a pool. A leg of `two_hop_swap` is not an
instruction of its own. -/
def authorized (config : WhirlpoolsConfig) (whirlpool : Whirlpool) (signer : Pubkey) :
    PoolOp → Bool
  | .setFeeRate _ => decide (signer = config.feeAuthority)
  | .setProtocolFeeRate _ => decide (signer = config.feeAuthority)
  | .setEnableFlag _ => decide (signer = config.poolCreatorAuthority)
  | .collectProtocolFees _ => decide (signer = config.collectProtocolFeesAuthority)
  | .initializeReward index _ _ => decide (some signer = rewardAuthority whirlpool index)
  | .setRewardEmissions index _ _ _ => decide (some signer = rewardAuthority whirlpool index)
  | .setRewardAuthority index _ =>
    decide (some signer = rewardAuthority whirlpool index) ||
      decide (signer = config.rewardEmissionsSuperAuthority)
  | .twoHopLeg _ _ _ => false
  | _ => true

/-- An instruction on one pool. -/
def onPool (program : Program) (key : PoolKey) (signer : Pubkey) (op : PoolOp) : Res Program := do
  let pool ← program.getPool key
  let config ← program.getConfig pool.whirlpool.whirlpoolsConfig
  if authorized config pool.whirlpool signer op then do
    let pool ← pool.step op
    return program.setPool key pool
  else .error .constraint

/-- `two_hop_swap`. -/
def twoHopSwap (program : Program) (one two : PoolKey) (args : TwoHopArgs) : Res Program := do
  let poolOne ← program.getPool one
  let poolTwo ← program.getPool two
  if one = two then err .DuplicateTwoHopPool
  else do
    let (poolOne, poolTwo) ← NemoSwap.twoHopSwap poolOne poolTwo args
    return (program.setPool one poolOne).setPool two poolTwo

/-- The effect of an instruction on the accounts. -/
def step (program : Program) : Instruction → Res Program
  | .initializeConfig config fee collect reward creator rate =>
    program.initializeConfig config fee collect reward creator rate.toNat
  | .setFeeAuthority config signer authority => program.setFeeAuthority config signer authority
  | .setCollectProtocolFeesAuthority config signer authority =>
    program.setCollectProtocolFeesAuthority config signer authority
  | .setRewardEmissionsSuperAuthority config signer authority =>
    program.setRewardEmissionsSuperAuthority config signer authority
  | .setPoolCreatorAuthority config signer authority =>
    program.setPoolCreatorAuthority config signer authority
  | .setDefaultProtocolFeeRate config signer rate =>
    program.setDefaultProtocolFeeRate config signer rate.toNat
  | .initializeFeeTier config signer spacing rate =>
    program.initializeFeeTier config signer spacing.toNat rate.toNat
  | .setDefaultFeeRate config signer feeTier rate =>
    program.setDefaultFeeRate config signer feeTier rate.toNat
  | .initializePool config mintA mintB feeTier spacing price =>
    program.initializePool config mintA mintB feeTier spacing.toNat price.toNat
  | .onPool key signer op => program.onPool key signer op
  | .twoHopSwap one two args => program.twoHopSwap one two args

/-- A failed instruction changes nothing. -/
def next (program : Program) (instruction : Instruction) : Program :=
  match program.step instruction with
  | .ok program' => program'
  | .error _ => program

/-- The accounts after a list of instructions. -/
def run (program : Program) (instructions : List Instruction) : Program :=
  instructions.foldl next program

end Program

end NemoSwap
