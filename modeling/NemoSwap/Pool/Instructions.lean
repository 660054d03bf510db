import NemoSwap.Manager.LiquidityManager
import NemoSwap.Manager.SwapManager

set_option relaxedAutoImplicit false
set_option autoImplicit false

/-!
# The instructions of one pool

A `Pool` is everything the program stores for one pool: the pool's record, its tick arrays by
start index, its positions by key, and the balances of its two vaults. The handlers of the
instructions that read or change it are functions from a pool to a pool; a handler that fails
leaves the pool as it was, since a failed Solana instruction has no effect.

## Main definitions

* `NemoSwap.Pool` — the state.
* `NemoSwap.Pool.increaseLiquidity`, `decreaseLiquidity`, `swapHandler`, … — the handlers.
* `NemoSwap.PoolOp`, `NemoSwap.Pool.step` — one instruction with its arguments, and its effect.

## Implementation notes

Data of accounts that the program only reads, such as the balances of the trader's token
accounts, the position's token account and the clock, are arguments of the instruction. An
account constraint on keys is expressed by the lookup: a tick array or position of another pool
is not found in this one. The vaults are created with the pool and no other instruction creates
them, so a vault is identified with its balance. The mint of a position has no freeze authority, so
its token account is never frozen; the rent that is returned when accounts are closed is left out.
-/

namespace NemoSwap

/-- The accounts of one pool. -/
structure Pool where
  whirlpool : Whirlpool
  tickArrays : ℤ → Option TickArray
  positions : Finset Pubkey
  position : Pubkey → Position
  vaultA : ℕ
  vaultB : ℕ

/-! ## Token transfers -/

/-- The balances of the owner's accounts for token A and token B. -/
structure OwnerFunds where
  balanceA : UInt64
  balanceB : UInt64

/-- `transfer_from_owner_to_vault`: the vault's balance afterwards. -/
def transferFromOwnerToVault (ownerBalance : UInt64) (vault amount : ℕ) : Res ℕ :=
  if ownerBalance.toNat < amount then .error .ownerFunds
  else if vault + amount < 2 ^ 64 then .ok (vault + amount)
  else .error .tokenOverflow

/-- `transfer_from_vault_to_owner`: the vault's balance afterwards. -/
def transferFromVaultToOwner (ownerBalance : UInt64) (vault amount : ℕ) : Res ℕ :=
  if vault < amount then .error .vaultFunds
  else if ownerBalance.toNat + amount < 2 ^ 64 then .ok (vault - amount)
  else .error .tokenOverflow

/-- `to_timestamp_u64`. -/
def toTimestampU64 (t : Int64) : Res ℕ :=
  if t.toInt < 0 then err .InvalidTimestampConversion else .ok t.toInt.toNat

/-! ## Position authority -/

/-- The token account that proves the ownership of a position, and the signer. -/
structure PositionAuthority where
  mint : Pubkey
  owner : Pubkey
  amount : UInt64
  delegate : Option Pubkey
  delegatedAmount : UInt64
  closeAuthority : Option Pubkey
  authority : Pubkey
  isSigner : Bool

/-- `validate_owner`. -/
def validateOwner (expectedOwner owner : Pubkey) (isSigner : Bool) : Res Unit :=
  if expectedOwner ≠ owner ∨ isSigner = false then err .MissingOrInvalidDelegate else .ok ()

/-- `verify_position_authority`. -/
def verifyPositionAuthority (auth : PositionAuthority) : Res Unit :=
  if auth.delegate = some auth.authority then do
    validateOwner auth.authority auth.authority auth.isSigner
    if auth.delegatedAmount ≠ 1 then err .InvalidPositionTokenAmount else .ok ()
  else validateOwner auth.owner auth.authority auth.isSigner

/-- The token program's check that its expected authority has signed. -/
def checkTokenAuthority (expected : Pubkey) (auth : PositionAuthority) : Res Unit :=
  if expected ≠ auth.authority ∨ auth.isSigner = false then .error .tokenProgram else .ok ()

/-- The token program's `burn_checked` of one token: by the delegate, who uses up his allowance,
or by the owner of the token account. -/
def burnChecked (auth : PositionAuthority) : Res PositionAuthority :=
  if auth.amount = 0 then .error .tokenProgram
  else if auth.delegate = some auth.authority then do
    checkTokenAuthority auth.authority auth
    if auth.delegatedAmount = 0 then .error .tokenProgram
    else return { auth with
      amount := auth.amount - 1
      delegatedAmount := auth.delegatedAmount - 1
      delegate := if auth.delegatedAmount = 1 then none else auth.delegate }
  else do
    checkTokenAuthority auth.owner auth
    return { auth with amount := auth.amount - 1 }

/-- The token program's `close_account`, of an empty token account: by its close authority, which
is its owner unless another key was set. A delegate has no part in it. -/
def closeAccount (auth : PositionAuthority) : Res Unit :=
  if auth.amount ≠ 0 then .error .tokenProgram
  else checkTokenAuthority (auth.closeAuthority.getD auth.owner) auth

/-- `burn_and_close_user_position_token`. -/
def burnAndCloseUserPositionToken (auth : PositionAuthority) : Res Unit := do
  let auth ← burnChecked auth
  closeAccount auth

namespace Pool

/-- The position with a key, if it belongs to this pool. -/
def getPosition (pool : Pool) (key : Pubkey) : Res Position :=
  if key ∈ pool.positions then .ok (pool.position key) else .error .constraint

/-- The position with a key, after the constraints on its token account. -/
def getOwnedPosition (pool : Pool) (key : Pubkey) (auth : PositionAuthority) : Res Position := do
  let position ← pool.getPosition key
  if auth.mint = position.positionMint ∧ auth.amount = 1 then do
    verifyPositionAuthority auth
    return position
  else .error .constraint

/-- The tick array with a start index. -/
def getTickArray (pool : Pool) (start : ℤ) : Res TickArray :=
  match pool.tickArrays start with
  | some array => .ok array
  | none => .error .constraint

/-- Store a position. -/
def setPosition (pool : Pool) (key : Pubkey) (position : Position) : Pool :=
  { pool with position := Function.update pool.position key position }

/-- The position that has been stored. -/
@[simp] lemma setPosition_self (pool : Pool) (key : Pubkey) (position : Position) :
    (pool.setPosition key position).position key = position :=
  Function.update_self _ _ _

/-- All other positions stay. -/
lemma setPosition_of_ne (pool : Pool) {key k : Pubkey} (position : Position) (h : k ≠ key) :
    (pool.setPosition key position).position k = pool.position k :=
  Function.update_of_ne h _ _

/-- Store a tick array under a start index. -/
def setTickArray (pool : Pool) (start : ℤ) (array : TickArray) : Pool :=
  { pool with tickArrays := Function.update pool.tickArrays start (some array) }

/-! ## Positions -/

/-- `open_position` and `open_position_with_metadata`: the position account must be new. -/
def openPosition (pool : Pool) (key mint : Pubkey) (tickLowerIndex tickUpperIndex : ℤ) :
    Res Pool :=
  if key ∈ pool.positions then .error .constraint
  else do
    pool.whirlpool.requireEnabled
    let position ← Position.default.openPosition pool.whirlpool.tickSpacing mint tickLowerIndex
      tickUpperIndex
    return { (pool.setPosition key position) with positions := insert key pool.positions }

/-- `close_position`. -/
def closePosition (pool : Pool) (key : Pubkey) (auth : PositionAuthority) : Res Pool := do
  let position ← pool.getOwnedPosition key auth
  if !position.isPositionEmpty then err .ClosePositionNotEmpty
  else do
    pool.whirlpool.requireEnabled
    burnAndCloseUserPositionToken auth
    return { pool with positions := pool.positions.erase key }

/-- `sync_modify_liquidity_values`: the position, both tick arrays in turn, and the pool. -/
def syncModifyLiquidityValues (pool : Pool) (key : Pubkey) (arrayLower arrayUpper : ℤ)
    (update : ModifyLiquidityUpdate) (rewardLastUpdatedTimestamp : ℕ) : Res Pool := do
  let position := pool.position key
  let pool := pool.setPosition key (position.update update.positionUpdate)
  let tickArrayLower ← pool.getTickArray arrayLower
  let tickArrayLower ← tickArrayLower.updateTick position.tickLowerIndex
    pool.whirlpool.tickSpacing update.tickLowerUpdate
  let pool := pool.setTickArray arrayLower tickArrayLower
  let tickArrayUpper ← pool.getTickArray arrayUpper
  let tickArrayUpper ← tickArrayUpper.updateTick position.tickUpperIndex
    pool.whirlpool.tickSpacing update.tickUpperUpdate
  let pool := pool.setTickArray arrayUpper tickArrayUpper
  let whirlpool := pool.whirlpool.updateRewardsAndLiquidity update.rewardInfos
    update.whirlpoolLiquidity rewardLastUpdatedTimestamp
  return { pool with whirlpool }

/-- The lines that `increase_liquidity` and `decrease_liquidity` share: the pool after the change
of liquidity, before the transfers, and the token amounts. -/
def modifyLiquidity (pool : Pool) (key : Pubkey) (auth : PositionAuthority)
    (arrayLower arrayUpper : ℤ) (liquidityAmount : BitVec 128) (positive : Bool)
    (clock : Int64) : Res (Pool × ℕ × ℕ) := do
  let position ← pool.getOwnedPosition key auth
  let tickArrayLower ← pool.getTickArray arrayLower
  let tickArrayUpper ← pool.getTickArray arrayUpper
  pool.whirlpool.requireEnabled
  if liquidityAmount.toNat = 0 then err .LiquidityZero
  else do
    let liquidityDelta ← convertToLiquidityDelta liquidityAmount.toNat positive
    let timestamp ← toTimestampU64 clock
    let update ← calculateModifyLiquidity pool.whirlpool position tickArrayLower tickArrayUpper
      liquidityDelta timestamp
    let pool ← pool.syncModifyLiquidityValues key arrayLower arrayUpper update timestamp
    let (deltaA, deltaB) ← calculateLiquidityTokenDeltas pool.whirlpool.tickCurrentIndex
      pool.whirlpool.sqrtPrice (pool.position key) liquidityDelta
    return (pool, deltaA, deltaB)

/-- `increase_liquidity`. -/
def increaseLiquidity (pool : Pool) (key : Pubkey) (auth : PositionAuthority)
    (arrayLower arrayUpper : ℤ) (liquidityAmount : BitVec 128) (tokenMaxA tokenMaxB : UInt64)
    (clock : Int64) (funds : OwnerFunds) : Res Pool := do
  let (pool, deltaA, deltaB) ←
    pool.modifyLiquidity key auth arrayLower arrayUpper liquidityAmount true clock
  if deltaA > tokenMaxA.toNat then err .TokenMaxExceeded
  else if deltaB > tokenMaxB.toNat then err .TokenMaxExceeded
  else do
    let vaultA ← transferFromOwnerToVault funds.balanceA pool.vaultA deltaA
    let vaultB ← transferFromOwnerToVault funds.balanceB pool.vaultB deltaB
    return { pool with vaultA, vaultB }

/-- `decrease_liquidity`. -/
def decreaseLiquidity (pool : Pool) (key : Pubkey) (auth : PositionAuthority)
    (arrayLower arrayUpper : ℤ) (liquidityAmount : BitVec 128) (tokenMinA tokenMinB : UInt64)
    (clock : Int64) (funds : OwnerFunds) : Res Pool := do
  let (pool, deltaA, deltaB) ←
    pool.modifyLiquidity key auth arrayLower arrayUpper liquidityAmount false clock
  if deltaA < tokenMinA.toNat then err .TokenMinSubceeded
  else if deltaB < tokenMinB.toNat then err .TokenMinSubceeded
  else do
    let vaultA ← transferFromVaultToOwner funds.balanceA pool.vaultA deltaA
    let vaultB ← transferFromVaultToOwner funds.balanceB pool.vaultB deltaB
    return { pool with vaultA, vaultB }

/-- `update_fees_and_rewards`. -/
def updateFeesAndRewards (pool : Pool) (key : Pubkey) (arrayLower arrayUpper : ℤ)
    (clock : Int64) : Res Pool := do
  let position ← pool.getPosition key
  let tickArrayLower ← pool.getTickArray arrayLower
  let tickArrayUpper ← pool.getTickArray arrayUpper
  let timestamp ← toTimestampU64 clock
  let (positionUpdate, rewardInfos) ← calculateFeeAndRewardGrowths pool.whirlpool position
    tickArrayLower tickArrayUpper timestamp
  let whirlpool := pool.whirlpool.updateRewards rewardInfos timestamp
  return { (pool.setPosition key (position.update positionUpdate)) with whirlpool }

/-! ## Collecting -/

/-- `collect_fees`. -/
def collectFees (pool : Pool) (key : Pubkey) (auth : PositionAuthority) (funds : OwnerFunds) :
    Res Pool := do
  let position ← pool.getOwnedPosition key auth
  let pool := pool.setPosition key position.resetFeesOwed
  let vaultA ← transferFromVaultToOwner funds.balanceA pool.vaultA position.feeOwedA
  let vaultB ← transferFromVaultToOwner funds.balanceB pool.vaultB position.feeOwedB
  return { pool with vaultA, vaultB }

/-- `collect_protocol_fees`. -/
def collectProtocolFees (pool : Pool) (funds : OwnerFunds) : Res Pool := do
  let vaultA ← transferFromVaultToOwner funds.balanceA pool.vaultA pool.whirlpool.protocolFeeOwedA
  let vaultB ← transferFromVaultToOwner funds.balanceB pool.vaultB pool.whirlpool.protocolFeeOwedB
  return { pool with whirlpool := pool.whirlpool.resetProtocolFeesOwed, vaultA, vaultB }

/-- `calculate_collect_reward`: the amount to transfer and the amount still owed. -/
def calculateCollectReward (amountOwed vaultAmount : ℕ) : ℕ × ℕ :=
  if amountOwed > vaultAmount then (vaultAmount, amountOwed - vaultAmount) else (amountOwed, 0)

/-- `collect_reward`, for a reward vault with the given balance. The vault of a reward that is
not initialized is the default key, which is no token account. -/
def collectReward (pool : Pool) (key : Pubkey) (auth : PositionAuthority) (index : ℕ)
    (rewardVault rewardOwner : UInt64) : Res Pool := do
  let position ← pool.getOwnedPosition key auth
  if h : index < numRewards then
    if (pool.whirlpool.rewardInfos ⟨index, h⟩).vault = 0 then .error .constraint
    else do
      let (transferAmount, updatedAmountOwed) := calculateCollectReward
        (position.rewardInfos ⟨index, h⟩).amountOwed rewardVault.toNat
      let _ ← transferFromVaultToOwner rewardOwner rewardVault.toNat transferAmount
      return pool.setPosition key (position.updateRewardOwed ⟨index, h⟩ updatedAmountOwed)
  else .error .panicked

/-! ## Swaps -/

/-- The start indices of the arrays of a swap: an account given twice is borrowed once. -/
def sequenceKeys (array0 array1 array2 : ℤ) : List ℤ :=
  array0 :: ((if array1 = array0 then [] else [array1]) ++
    if array2 = array0 ∨ array2 = array1 then [] else [array2])

/-- `SwapTickSequence::new` on the accounts of this pool. -/
def loadSequence (pool : Pool) (array0 array1 array2 : ℤ) : Res SwapTickSequence := do
  let _ ← pool.getTickArray array0
  let _ ← pool.getTickArray array1
  let _ ← pool.getTickArray array2
  (sequenceKeys array0 array1 array2).mapM pool.getTickArray

/-- Store the arrays of a swap. -/
def storeSequence (pool : Pool) (sequence : SwapTickSequence) : Pool :=
  sequence.foldl (fun pool array => pool.setTickArray array.startTickIndex array) pool

/-- The arguments of a swap in one pool. -/
structure SwapArgs where
  array0 : ℤ
  array1 : ℤ
  array2 : ℤ
  amount : UInt64
  sqrtPriceLimit : BitVec 128
  amountSpecifiedIsInput : Bool
  aToB : Bool

/-- The call of `swap` on the accounts of this pool. -/
def computeSwapUpdate (pool : Pool) (args : SwapArgs) (timestamp : ℕ) :
    Res (PostSwapUpdate × SwapTickSequence) := do
  let sequence ← pool.loadSequence args.array0 args.array1 args.array2
  swap pool.whirlpool sequence args.amount.toNat args.sqrtPriceLimit.toNat
    args.amountSpecifiedIsInput args.aToB timestamp

/-- `update_and_swap_whirlpool`, with the tick arrays of the swap. -/
def updateAndSwapWhirlpool (pool : Pool) (swapUpdate : PostSwapUpdate)
    (sequence : SwapTickSequence) (isTokenFeeInA : Bool) (rewardLastUpdatedTimestamp : ℕ)
    (funds : OwnerFunds) : Res Pool := do
  let whirlpool := pool.whirlpool.updateAfterSwap swapUpdate.nextLiquidity
    swapUpdate.nextTickIndex swapUpdate.nextSqrtPrice swapUpdate.nextFeeGrowthGlobal
    swapUpdate.nextRewardInfos swapUpdate.nextProtocolFee isTokenFeeInA rewardLastUpdatedTimestamp
  let pool := { (pool.storeSequence sequence) with whirlpool }
  if isTokenFeeInA then do
    let vaultA ← transferFromOwnerToVault funds.balanceA pool.vaultA swapUpdate.amountA
    let vaultB ← transferFromVaultToOwner funds.balanceB pool.vaultB swapUpdate.amountB
    return { pool with vaultA, vaultB }
  else do
    let vaultB ← transferFromOwnerToVault funds.balanceB pool.vaultB swapUpdate.amountB
    let vaultA ← transferFromVaultToOwner funds.balanceA pool.vaultA swapUpdate.amountA
    return { pool with vaultA, vaultB }

/-- A swap in this pool without the checks of the instruction around it: the call of `swap`, and
its effect. It is what a leg of `two_hop_swap` does, and what `swap` does after its checks. -/
def swapLeg (pool : Pool) (args : SwapArgs) (clock : Int64) (funds : OwnerFunds) : Res Pool := do
  let timestamp ← toTimestampU64 clock
  let (swapUpdate, sequence) ← pool.computeSwapUpdate args timestamp
  pool.updateAndSwapWhirlpool swapUpdate sequence args.aToB timestamp funds

/-- The check of `other_amount_threshold` in `swap`. -/
def checkThreshold (args : SwapArgs) (otherAmountThreshold : UInt64)
    (swapUpdate : PostSwapUpdate) : Res Unit :=
  if args.amountSpecifiedIsInput then
    if (args.aToB = true ∧ otherAmountThreshold.toNat > swapUpdate.amountB) ∨
        (args.aToB = false ∧ otherAmountThreshold.toNat > swapUpdate.amountA) then
      err .AmountOutBelowMinimum
    else .ok ()
  else
    if (args.aToB = true ∧ otherAmountThreshold.toNat < swapUpdate.amountA) ∨
        (args.aToB = false ∧ otherAmountThreshold.toNat < swapUpdate.amountB) then
      err .AmountInAboveMaximum
    else .ok ()

/-- The handler of `swap`. -/
def swapHandler (pool : Pool) (args : SwapArgs) (otherAmountThreshold : UInt64) (clock : Int64)
    (funds : OwnerFunds) : Res Pool := do
  pool.whirlpool.requireEnabled
  let timestamp ← toTimestampU64 clock
  let (swapUpdate, sequence) ← pool.computeSwapUpdate args timestamp
  checkThreshold args otherAmountThreshold swapUpdate
  pool.updateAndSwapWhirlpool swapUpdate sequence args.aToB timestamp funds

/-! ## Tick arrays, rates and rewards -/

/-- `initialize_tick_array`: the account of the start index must be new. -/
def initializeTickArray (pool : Pool) (startTickIndex : ℤ) : Res Pool :=
  if (pool.tickArrays startTickIndex).isSome then .error .constraint
  else do
    let array ← TickArray.default.initializeArray pool.whirlpool.tickSpacing startTickIndex
    return pool.setTickArray startTickIndex array

/-- `set_fee_rate`. -/
def setFeeRate (pool : Pool) (feeRate : ℕ) : Res Pool := do
  let whirlpool ← pool.whirlpool.updateFeeRate feeRate
  return { pool with whirlpool }

/-- `set_protocol_fee_rate`. -/
def setProtocolFeeRate (pool : Pool) (protocolFeeRate : ℕ) : Res Pool := do
  let whirlpool ← pool.whirlpool.updateProtocolFeeRate protocolFeeRate
  return { pool with whirlpool }

/-- `set_enable_flag`. -/
def setEnableFlag (pool : Pool) (isEnabled : Bool) : Pool :=
  { pool with whirlpool := pool.whirlpool.setEnableFlag isEnabled }

/-- `initialize_reward`, after the check of the reward's authority. -/
def initializeReward (pool : Pool) (index : ℕ) (mint vault : Pubkey) : Res Pool := do
  let whirlpool ← pool.whirlpool.initializeReward index mint vault
  return { pool with whirlpool }

/-- `DAY_IN_SECONDS`. -/
def dayInSeconds : ℕ := 60 * 60 * 24

/-- `set_reward_emissions`, after the check of the reward's authority. As for `collect_reward`,
the reward must have a vault. -/
def setRewardEmissions (pool : Pool) (index : ℕ) (emissionsPerSecondX64 : BitVec 128)
    (rewardVault : UInt64) (clock : Int64) : Res Pool :=
  if h : index < numRewards then
    if (pool.whirlpool.rewardInfos ⟨index, h⟩).vault = 0 then .error .constraint
    else do
      let emissionsPerDay ← checkedMulShiftRight dayInSeconds emissionsPerSecondX64.toNat
      if rewardVault.toNat < emissionsPerDay then err .RewardVaultAmountInsufficient
      else do
        let timestamp ← toTimestampU64 clock
        let nextRewardInfos ← nextWhirlpoolRewardInfos pool.whirlpool timestamp
        let whirlpool ← pool.whirlpool.updateEmissions index nextRewardInfos timestamp
          emissionsPerSecondX64.toNat
        return { pool with whirlpool }
  else .error .panicked

/-- `set_reward_authority` and `set_reward_authority_by_super_authority`, after the check of the
authority. -/
def setRewardAuthority (pool : Pool) (index : ℕ) (authority : Pubkey) : Res Pool := do
  let whirlpool ← pool.whirlpool.updateRewardAuthority index authority
  return { pool with whirlpool }

end Pool

/-! ## One instruction -/

/-- The instructions on one pool, with their arguments. -/
inductive PoolOp
  | openPosition (key mint : Pubkey) (tickLowerIndex tickUpperIndex : ℤ)
  | closePosition (key : Pubkey) (auth : PositionAuthority)
  | increaseLiquidity (key : Pubkey) (auth : PositionAuthority) (arrayLower arrayUpper : ℤ)
      (liquidityAmount : BitVec 128) (tokenMaxA tokenMaxB : UInt64) (clock : Int64)
      (funds : OwnerFunds)
  | decreaseLiquidity (key : Pubkey) (auth : PositionAuthority) (arrayLower arrayUpper : ℤ)
      (liquidityAmount : BitVec 128) (tokenMinA tokenMinB : UInt64) (clock : Int64)
      (funds : OwnerFunds)
  | updateFeesAndRewards (key : Pubkey) (arrayLower arrayUpper : ℤ) (clock : Int64)
  | collectFees (key : Pubkey) (auth : PositionAuthority) (funds : OwnerFunds)
  | collectProtocolFees (funds : OwnerFunds)
  | collectReward (key : Pubkey) (auth : PositionAuthority) (index : ℕ)
      (rewardVault rewardOwner : UInt64)
  | swap (args : Pool.SwapArgs) (otherAmountThreshold : UInt64) (clock : Int64)
      (funds : OwnerFunds)
  | twoHopLeg (args : Pool.SwapArgs) (clock : Int64) (funds : OwnerFunds)
  | initializeTickArray (startTickIndex : ℤ)
  | setFeeRate (feeRate : ℕ)
  | setProtocolFeeRate (protocolFeeRate : ℕ)
  | setEnableFlag (isEnabled : Bool)
  | initializeReward (index : ℕ) (mint vault : Pubkey)
  | setRewardEmissions (index : ℕ) (emissionsPerSecondX64 : BitVec 128) (rewardVault : UInt64)
      (clock : Int64)
  | setRewardAuthority (index : ℕ) (authority : Pubkey)

/-- The effect of an instruction on a pool. -/
def Pool.step (pool : Pool) : PoolOp → Res Pool
  | .openPosition key mint lo hi => pool.openPosition key mint lo hi
  | .closePosition key auth => pool.closePosition key auth
  | .increaseLiquidity key auth lo hi amount maxA maxB clock funds =>
    pool.increaseLiquidity key auth lo hi amount maxA maxB clock funds
  | .decreaseLiquidity key auth lo hi amount minA minB clock funds =>
    pool.decreaseLiquidity key auth lo hi amount minA minB clock funds
  | .updateFeesAndRewards key lo hi clock => pool.updateFeesAndRewards key lo hi clock
  | .collectFees key auth funds => pool.collectFees key auth funds
  | .collectProtocolFees funds => pool.collectProtocolFees funds
  | .collectReward key auth index vault owner => pool.collectReward key auth index vault owner
  | .swap args threshold clock funds => pool.swapHandler args threshold clock funds
  | .twoHopLeg args clock funds => pool.swapLeg args clock funds
  | .initializeTickArray start => pool.initializeTickArray start
  | .setFeeRate rate => pool.setFeeRate rate
  | .setProtocolFeeRate rate => pool.setProtocolFeeRate rate
  | .setEnableFlag flag => .ok (pool.setEnableFlag flag)
  | .initializeReward index mint vault => pool.initializeReward index mint vault
  | .setRewardEmissions index emissions vault clock =>
    pool.setRewardEmissions index emissions vault clock
  | .setRewardAuthority index authority => pool.setRewardAuthority index authority

/-- A new pool: no tick arrays, no positions, empty vaults. -/
def Pool.new (whirlpool : Whirlpool) : Pool :=
  { whirlpool, tickArrays := fun _ => none, positions := ∅, position := fun _ => Position.default
    vaultA := 0, vaultB := 0 }

end NemoSwap
