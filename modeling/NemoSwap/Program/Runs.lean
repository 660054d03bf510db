import NemoSwap.Manager.SwapCapacity
import NemoSwap.Pool.History
import NemoSwap.Program.Instructions

set_option relaxedAutoImplicit false
set_option autoImplicit false

/-!
# Runs of the program

Every instruction leaves a pool as it was, creates it, or takes one step in it: a leg of
`two_hop_swap` is a step in each of its two pools. So what holds along every run of a pool holds
along every run of the program.

## Main definitions

* `NemoSwap.TwoHop` — a two-hop swap that succeeds, with its two legs.
* `NemoSwap.Instruction.writes` — whether an instruction changes a pool.
* `NemoSwap.Program.PoolStep` — what an instruction does to the accounts of one pool.

## Main results

* `NemoSwap.twoHopSwap_eq_ok` — the inversion of a two-hop swap.
* `NemoSwap.Program.step_poolStep` — the inversion of an instruction, for each pool.
* `NemoSwap.Program.run_reachable` — a run of the program is a run of each of its pools.
-/

namespace NemoSwap

/-! ## The legs of a two-hop swap -/

namespace TwoHopArgs

/-- The amount of the leg in pool one. -/
def amountOne (args : TwoHopArgs) (updateTwo : PostSwapUpdate) : UInt64 :=
  if args.amountSpecifiedIsInput then args.amount
  else UInt64.ofNat (updateTwo.amountIn args.aToBTwo)

/-- The amount of the leg in pool two. -/
def amountTwo (args : TwoHopArgs) (updateOne : PostSwapUpdate) : UInt64 :=
  if args.amountSpecifiedIsInput then UInt64.ofNat (updateOne.amountOut args.aToBOne)
  else args.amount

end TwoHopArgs

/-- A two-hop swap that succeeds: the results of its legs and the pools afterwards. -/
structure TwoHop (one two : Pool) (args : TwoHopArgs) (timestamp : ℕ)
    (updateOne updateTwo : PostSwapUpdate) (sequenceOne sequenceTwo : SwapTickSequence)
    (one' two' : Pool) : Prop where
  clock : toTimestampU64 args.clock = .ok timestamp
  mints : (if args.aToBOne then one.whirlpool.tokenMintB else one.whirlpool.tokenMintA) =
    if args.aToBTwo then two.whirlpool.tokenMintA else two.whirlpool.tokenMintB
  legOne : one.computeSwapUpdate (args.legOne (args.amountOne updateTwo)) timestamp =
    .ok (updateOne, sequenceOne)
  legTwo : two.computeSwapUpdate (args.legTwo (args.amountTwo updateOne)) timestamp =
    .ok (updateTwo, sequenceTwo)
  threshold : checkTwoHopThreshold args updateOne updateTwo = .ok ()
  payOne : one.updateAndSwapWhirlpool updateOne sequenceOne args.aToBOne timestamp args.fundsOne =
    .ok one'
  payTwo : two.updateAndSwapWhirlpool updateTwo sequenceTwo args.aToBTwo timestamp args.fundsTwo =
    .ok two'

/-- The two calls of `swap`, in either order. -/
lemma computeTwoHop_eq_ok {one two : Pool} {args : TwoHopArgs} {timestamp : ℕ}
    {updateOne updateTwo : PostSwapUpdate} {sequenceOne sequenceTwo : SwapTickSequence}
    (h : computeTwoHop one two args timestamp =
      .ok ((updateOne, sequenceOne), updateTwo, sequenceTwo)) :
    one.computeSwapUpdate (args.legOne (args.amountOne updateTwo)) timestamp =
        .ok (updateOne, sequenceOne) ∧
      two.computeSwapUpdate (args.legTwo (args.amountTwo updateOne)) timestamp =
        .ok (updateTwo, sequenceTwo) := by
  unfold computeTwoHop at h
  unfold TwoHopArgs.amountOne TwoHopArgs.amountTwo
  by_cases hin : args.amountSpecifiedIsInput = true
  · rw [if_pos hin] at h
    rw [if_pos hin, if_pos hin]
    simp only [Res.bind_eq_ok, Res.pure_eq_ok, Except.ok.injEq, Prod.mk.injEq] at h
    obtain ⟨_, h1, _, h2, rfl, rfl⟩ := h
    exact ⟨h1, h2⟩
  · rw [if_neg hin] at h
    rw [if_neg hin, if_neg hin]
    simp only [Res.bind_eq_ok, Res.pure_eq_ok, Except.ok.injEq, Prod.mk.injEq] at h
    obtain ⟨_, h2, _, h1, rfl, rfl⟩ := h
    exact ⟨h1, h2⟩

/-- **The inversion of a two-hop swap.** -/
theorem twoHopSwap_eq_ok {one two one' two' : Pool} {args : TwoHopArgs}
    (h : twoHopSwap one two args = .ok (one', two')) :
    ∃ timestamp updateOne updateTwo sequenceOne sequenceTwo,
      TwoHop one two args timestamp updateOne updateTwo sequenceOne sequenceTwo one' two' := by
  unfold twoHopSwap at h
  rw [Res.bind_eq_ok] at h
  obtain ⟨timestamp, htime, h⟩ := h
  rw [ite_err_eq_ok, not_not, Res.bind_eq_ok] at h
  obtain ⟨hmints, ⟨⟨updateOne, sequenceOne⟩, updateTwo, sequenceTwo⟩, hcalc, h⟩ := h
  simp only [Res.bind_eq_ok, Res.pure_eq_ok, Except.ok.injEq, Prod.mk.injEq] at h
  obtain ⟨_, hcheck, _, hone, _, htwo, rfl, rfl⟩ := h
  obtain ⟨h1, h2⟩ := computeTwoHop_eq_ok hcalc
  exact ⟨timestamp, updateOne, updateTwo, sequenceOne, sequenceTwo,
    { clock := htime, mints := hmints, legOne := h1, legTwo := h2, threshold := hcheck,
      payOne := hone, payTwo := htwo }⟩

section TwoHop

variable {one two one' two' : Pool} {args : TwoHopArgs} {timestamp : ℕ}
  {updateOne updateTwo : PostSwapUpdate} {sequenceOne sequenceTwo : SwapTickSequence}

/-- The first leg of a two-hop swap, as a step in its pool. -/
lemma TwoHop.swapLeg_one
    (h : TwoHop one two args timestamp updateOne updateTwo sequenceOne sequenceTwo one' two') :
    one.swapLeg (args.legOne (args.amountOne updateTwo)) args.clock args.fundsOne = .ok one' := by
  unfold Pool.swapLeg
  rw [h.clock, Res.ok_bind, h.legOne, Res.ok_bind]
  exact h.payOne

/-- The second leg of a two-hop swap, as a step in its pool. -/
lemma TwoHop.swapLeg_two
    (h : TwoHop one two args timestamp updateOne updateTwo sequenceOne sequenceTwo one' two') :
    two.swapLeg (args.legTwo (args.amountTwo updateOne)) args.clock args.fundsTwo = .ok two' := by
  unfold Pool.swapLeg
  rw [h.clock, Res.ok_bind, h.legTwo, Res.ok_bind]
  exact h.payTwo

end TwoHop

/-- Whether an instruction creates or changes the pool with a key. -/
def Instruction.writes (key : PoolKey) : Instruction → Bool
  | .initializePool config mintA mintB _ spacing _ =>
    decide (key = ⟨config, mintA, mintB, spacing.toNat⟩)
  | .onPool k _ _ => decide (key = k)
  | .twoHopSwap one two _ => decide (key = one) || decide (key = two)
  | _ => false

namespace Program

variable {program program' : Program} {key : PoolKey}

/-! ## Accounts -/

/-- A config can be loaded exactly if the account exists. -/
lemma getConfig_eq_ok {config : Pubkey} {account : WhirlpoolsConfig} :
    program.getConfig config = .ok account ↔ program.configs config = some account := by
  unfold getConfig
  cases program.configs config <;> simp

/-- A fee tier can be loaded exactly if the account exists. -/
lemma getFeeTier_eq_ok {feeTier : FeeTierKey} {tier : FeeTier} :
    program.getFeeTier feeTier = .ok tier ↔ program.feeTiers feeTier = some tier := by
  unfold getFeeTier
  cases program.feeTiers feeTier <;> simp

/-- A pool can be loaded exactly if the account exists. -/
lemma getPool_eq_ok {pool : Pool} :
    program.getPool key = .ok pool ↔ program.pools key = some pool := by
  unfold getPool
  cases program.pools key <;> simp

/-- Storing a config leaves the pools alone. -/
@[simp] lemma setConfig_pools (config : Pubkey) (account : WhirlpoolsConfig) :
    (program.setConfig config account).pools = program.pools := rfl

/-- Storing a config leaves the fee tiers alone. -/
@[simp] lemma setConfig_feeTiers (config : Pubkey) (account : WhirlpoolsConfig) :
    (program.setConfig config account).feeTiers = program.feeTiers := rfl

/-- Storing a fee tier leaves the pools alone. -/
@[simp] lemma setFeeTier_pools (feeTier : FeeTierKey) (tier : FeeTier) :
    (program.setFeeTier feeTier tier).pools = program.pools := rfl

/-- Storing a fee tier leaves the configs alone. -/
@[simp] lemma setFeeTier_configs (feeTier : FeeTierKey) (tier : FeeTier) :
    (program.setFeeTier feeTier tier).configs = program.configs := rfl

/-- Storing a pool leaves the configs alone. -/
@[simp] lemma setPool_configs (key : PoolKey) (pool : Pool) :
    (program.setPool key pool).configs = program.configs := rfl

/-- Storing a pool leaves the fee tiers alone. -/
@[simp] lemma setPool_feeTiers (key : PoolKey) (pool : Pool) :
    (program.setPool key pool).feeTiers = program.feeTiers := rfl

/-- The pool that has been stored. -/
@[simp] lemma setPool_self (pool : Pool) : (program.setPool key pool).pools key = some pool :=
  Function.update_self _ _ _

/-- All other pools stay. -/
lemma setPool_of_ne {k : PoolKey} (pool : Pool) (h : k ≠ key) :
    (program.setPool key pool).pools k = program.pools k :=
  Function.update_of_ne h _ _

/-! ## What an instruction does to a pool -/

/-- What an instruction does to the accounts of the pool with a key. -/
inductive PoolStep (program : Program) (key : PoolKey) : Instruction → Option Pool → Prop
  | other {instruction : Instruction} (untouched : instruction.writes key = false) :
      PoolStep program key instruction (program.pools key)
  | created {feeTier : FeeTierKey} {spacing : UInt16} {price : BitVec 128}
      {account : WhirlpoolsConfig} {tier : FeeTier} {whirlpool : Whirlpool}
      (spacing_eq : key.tickSpacing = spacing.toNat) (fresh : program.pools key = none)
      (config : program.configs key.whirlpoolsConfig = some account)
      (feeTier_eq : program.feeTiers feeTier = some tier)
      (ofConfig : tier.whirlpoolsConfig = key.whirlpoolsConfig)
      (initialized : Whirlpool.initializeWhirlpool key.whirlpoolsConfig
        account.defaultProtocolFeeRate account.rewardEmissionsSuperAuthority key.tickSpacing
        price.toNat tier.defaultFeeRate key.tokenMintA key.tokenMintB = .ok whirlpool) :
      PoolStep program key (.initializePool key.whirlpoolsConfig key.tokenMintA key.tokenMintB
        feeTier spacing price) (some (Pool.new whirlpool))
  | onPool {pool pool' : Pool} {signer : Pubkey} {op : PoolOp}
      (pool_eq : program.pools key = some pool) (noLeg : ∀ a c f, op ≠ .twoHopLeg a c f)
      (step : pool.step op = .ok pool') : PoolStep program key (.onPool key signer op) (some pool')
  | legOne {pool pool' : Pool} {two : PoolKey} {args : TwoHopArgs} {amount : UInt64}
      (pool_eq : program.pools key = some pool)
      (step : pool.step (.twoHopLeg (args.legOne amount) args.clock args.fundsOne) = .ok pool') :
      PoolStep program key (.twoHopSwap key two args) (some pool')
  | legTwo {pool pool' : Pool} {one : PoolKey} {args : TwoHopArgs} {amount : UInt64}
      (pool_eq : program.pools key = some pool)
      (step : pool.step (.twoHopLeg (args.legTwo amount) args.clock args.fundsTwo) = .ok pool') :
      PoolStep program key (.twoHopSwap one key args) (some pool')

/-- Instructions that leave all pools alone. -/
lemma PoolStep.of_pools_eq {instruction : Instruction} (h : program'.pools = program.pools)
    (huntouched : instruction.writes key = false) :
    PoolStep program key instruction (program'.pools key) := by
  rw [h]
  exact .other huntouched

/-- The inversion of an update of a config: the signer is the authority that it asks for. -/
theorem updateConfig_eq_ok {config signer : Pubkey} {authority : WhirlpoolsConfig → Pubkey}
    {f : WhirlpoolsConfig → Res WhirlpoolsConfig}
    (h : program.updateConfig config signer authority f = .ok program') :
    ∃ account account', program.configs config = some account ∧ signer = authority account ∧
      f account = .ok account' ∧ program' = program.setConfig config account' := by
  unfold updateConfig at h
  rw [Res.bind_eq_ok] at h
  obtain ⟨account, haccount, h⟩ := h
  rw [getConfig_eq_ok] at haccount
  rw [ite_error_eq_ok, not_not, Res.bind_eq_ok] at h
  obtain ⟨hs, account', hf, h⟩ := h
  rw [Res.pure_eq_ok, Except.ok.injEq] at h
  exact ⟨account, account', haccount, hs, hf, h.symm⟩

/-- The inversion of `initialize_config`: the account is new. -/
theorem initializeConfig_eq_ok {config fee collect reward creator : Pubkey} {rate : ℕ}
    (h : program.initializeConfig config fee collect reward creator rate = .ok program') :
    program.configs config = none ∧ ∃ account, account.feeAuthority = fee ∧
      program' = program.setConfig config account := by
  unfold initializeConfig WhirlpoolsConfig.updateDefaultProtocolFeeRate at h
  rw [ite_error_eq_ok, Res.bind_eq_ok] at h
  obtain ⟨hnew, account, haccount, h⟩ := h
  rw [ite_err_eq_ok, Res.pure_eq_ok, Except.ok.injEq] at haccount
  rw [Res.pure_eq_ok, Except.ok.injEq] at h
  obtain ⟨-, rfl⟩ := haccount
  exact ⟨by simpa using hnew, _, rfl, h.symm⟩

/-- The inversion of `initialize_fee_tier`: the fee authority signs, and the account is new. -/
theorem initializeFeeTier_eq_ok {config signer : Pubkey} {spacing rate : ℕ}
    (h : program.initializeFeeTier config signer spacing rate = .ok program') :
    ∃ account, program.configs config = some account ∧ signer = account.feeAuthority ∧
      program.feeTiers ⟨config, spacing⟩ = none ∧ rate ≤ maxFeeRate ∧
      program' = program.setFeeTier ⟨config, spacing⟩ ⟨config, spacing, rate⟩ := by
  unfold initializeFeeTier FeeTier.initializeFeeTier FeeTier.updateDefaultFeeRate at h
  rw [Res.bind_eq_ok] at h
  obtain ⟨account, haccount, h⟩ := h
  rw [getConfig_eq_ok] at haccount
  rw [ite_error_eq_ok, not_not, ite_error_eq_ok, Res.bind_eq_ok] at h
  obtain ⟨hs, hnew, tier, htier, h⟩ := h
  rw [ite_err_eq_ok, Res.pure_eq_ok, Except.ok.injEq] at htier
  rw [Res.pure_eq_ok, Except.ok.injEq] at h
  obtain ⟨hrate, rfl⟩ := htier
  exact ⟨account, haccount, hs, by simpa using hnew, not_lt.1 hrate, h.symm⟩

/-- The inversion of `set_default_fee_rate`: the fee authority of the tier's config signs. -/
theorem setDefaultFeeRate_eq_ok {config signer : Pubkey} {feeTier : FeeTierKey} {rate : ℕ}
    (h : program.setDefaultFeeRate config signer feeTier rate = .ok program') :
    ∃ account tier, program.configs config = some account ∧ signer = account.feeAuthority ∧
      program.feeTiers feeTier = some tier ∧ tier.whirlpoolsConfig = config ∧ rate ≤ maxFeeRate ∧
      program' = program.setFeeTier feeTier { tier with defaultFeeRate := rate } := by
  unfold setDefaultFeeRate FeeTier.updateDefaultFeeRate at h
  simp only [Res.bind_eq_ok] at h
  obtain ⟨account, haccount, tier, htier, h⟩ := h
  rw [getConfig_eq_ok] at haccount
  rw [getFeeTier_eq_ok] at htier
  rw [ite_error_eq_ok, not_not, ite_error_eq_ok, not_not, Res.bind_eq_ok] at h
  obtain ⟨hc, hs, _, hrate, h⟩ := h
  rw [ite_err_eq_ok, Res.pure_eq_ok, Except.ok.injEq] at hrate
  rw [Res.pure_eq_ok, Except.ok.injEq] at h
  obtain ⟨hrate, rfl⟩ := hrate
  exact ⟨account, tier, haccount, hs, htier, hc, not_lt.1 hrate, h.symm⟩

/-- The inversion of `initialize_pool`: the config and one of its fee tiers exist, and the account
is new. -/
theorem initializePool_eq_ok {config mintA mintB : Pubkey} {feeTier : FeeTierKey}
    {spacing price : ℕ}
    (h : program.initializePool config mintA mintB feeTier spacing price = .ok program') :
    ∃ account tier whirlpool, program.configs config = some account ∧
      program.feeTiers feeTier = some tier ∧ tier.whirlpoolsConfig = config ∧
      program.pools ⟨config, mintA, mintB, spacing⟩ = none ∧
      Whirlpool.initializeWhirlpool config account.defaultProtocolFeeRate
        account.rewardEmissionsSuperAuthority spacing price tier.defaultFeeRate mintA mintB =
          .ok whirlpool ∧
      program' = program.setPool ⟨config, mintA, mintB, spacing⟩ (Pool.new whirlpool) := by
  unfold initializePool at h
  simp only [Res.bind_eq_ok] at h
  obtain ⟨account, haccount, tier, htier, h⟩ := h
  rw [getConfig_eq_ok] at haccount
  rw [getFeeTier_eq_ok] at htier
  rw [ite_error_eq_ok, ite_error_eq_ok, not_not, Res.bind_eq_ok] at h
  obtain ⟨hnew, hc, whirlpool, hw, h⟩ := h
  rw [Res.pure_eq_ok, Except.ok.injEq] at h
  exact ⟨account, tier, whirlpool, haccount, htier, hc, by simpa using hnew, hw, h.symm⟩

/-- The inversion of an instruction on a pool: the pool and its config exist, the signer is
accepted, and the pool takes the step. -/
theorem onPool_eq_ok {signer : Pubkey} {op : PoolOp}
    (h : program.onPool key signer op = .ok program') :
    ∃ pool pool' config, program.pools key = some pool ∧
      program.configs pool.whirlpool.whirlpoolsConfig = some config ∧
      authorized config pool.whirlpool signer op = true ∧ pool.step op = .ok pool' ∧
      program' = program.setPool key pool' := by
  unfold onPool at h
  simp only [Res.bind_eq_ok] at h
  obtain ⟨pool, hpool, config, hconfig, h⟩ := h
  rw [getPool_eq_ok] at hpool
  rw [getConfig_eq_ok] at hconfig
  split_ifs at h with hauth
  rw [Res.bind_eq_ok] at h
  obtain ⟨pool', hstep, h⟩ := h
  rw [Res.pure_eq_ok, Except.ok.injEq] at h
  exact ⟨pool, pool', config, hpool, hconfig, hauth, hstep, h.symm⟩

/-- The inversion of `two_hop_swap` on its accounts: two different pools that exist. -/
theorem twoHopSwap_eq_ok {one two : PoolKey} {args : TwoHopArgs}
    (h : program.twoHopSwap one two args = .ok program') :
    ∃ poolOne poolTwo poolOne' poolTwo', program.pools one = some poolOne ∧
      program.pools two = some poolTwo ∧ one ≠ two ∧
      NemoSwap.twoHopSwap poolOne poolTwo args = .ok (poolOne', poolTwo') ∧
      program' = (program.setPool one poolOne').setPool two poolTwo' := by
  unfold twoHopSwap at h
  simp only [Res.bind_eq_ok] at h
  obtain ⟨poolOne, h1, poolTwo, h2, h⟩ := h
  rw [getPool_eq_ok] at h1 h2
  rw [ite_err_eq_ok, Res.bind_eq_ok] at h
  obtain ⟨hne, ⟨poolOne', poolTwo'⟩, hswap, h⟩ := h
  rw [Res.pure_eq_ok, Except.ok.injEq] at h
  exact ⟨poolOne, poolTwo, poolOne', poolTwo', h1, h2, hne, hswap, h.symm⟩

/-- **The inversion of an instruction, for each pool.**

**Proof sketch.** One case for each instruction. A pool is created at its own address, which was
free; `two_hop_swap` is a step in either of its pools, which are different. -/
theorem step_poolStep {instruction : Instruction} (h : program.step instruction = .ok program')
    (key : PoolKey) : PoolStep program key instruction (program'.pools key) := by
  cases instruction with
  | initializeConfig =>
    obtain ⟨-, account, -, rfl⟩ := initializeConfig_eq_ok h
    exact .of_pools_eq rfl rfl
  | setFeeAuthority =>
    obtain ⟨_, _, -, -, -, rfl⟩ := updateConfig_eq_ok h
    exact .of_pools_eq rfl rfl
  | setCollectProtocolFeesAuthority =>
    obtain ⟨_, _, -, -, -, rfl⟩ := updateConfig_eq_ok h
    exact .of_pools_eq rfl rfl
  | setRewardEmissionsSuperAuthority =>
    obtain ⟨_, _, -, -, -, rfl⟩ := updateConfig_eq_ok h
    exact .of_pools_eq rfl rfl
  | setPoolCreatorAuthority =>
    obtain ⟨_, _, -, -, -, rfl⟩ := updateConfig_eq_ok h
    exact .of_pools_eq rfl rfl
  | setDefaultProtocolFeeRate =>
    obtain ⟨_, _, -, -, -, rfl⟩ := updateConfig_eq_ok h
    exact .of_pools_eq rfl rfl
  | initializeFeeTier =>
    obtain ⟨_, -, -, -, -, rfl⟩ := initializeFeeTier_eq_ok h
    exact .of_pools_eq rfl rfl
  | setDefaultFeeRate =>
    obtain ⟨_, _, -, -, -, -, -, rfl⟩ := setDefaultFeeRate_eq_ok h
    exact .of_pools_eq rfl rfl
  | initializePool config mintA mintB feeTier spacing price =>
    obtain ⟨account, tier, whirlpool, hconfig, htier, hc, hnew, hw, rfl⟩ := initializePool_eq_ok h
    rcases eq_or_ne key ⟨config, mintA, mintB, spacing.toNat⟩ with rfl | hne
    · rw [setPool_self]
      exact .created rfl hnew hconfig htier hc hw
    · rw [setPool_of_ne _ hne]
      exact .other (decide_eq_false hne)
  | onPool k signer op =>
    obtain ⟨pool, pool', config, hpool, -, hauth, hstep, rfl⟩ := onPool_eq_ok h
    rcases eq_or_ne key k with rfl | hne
    · rw [setPool_self]
      exact .onPool hpool (fun a c f hop => by simp [hop, authorized] at hauth) hstep
    · rw [setPool_of_ne _ hne]
      exact .other (decide_eq_false hne)
  | twoHopSwap one two args =>
    obtain ⟨poolOne, poolTwo, poolOne', poolTwo', h1, h2, hne, hswap, rfl⟩ := twoHopSwap_eq_ok h
    obtain ⟨_, _, _, _, _, hhop⟩ := NemoSwap.twoHopSwap_eq_ok hswap
    rcases eq_or_ne key two with rfl | hne2
    · rw [setPool_self]
      exact .legTwo h2 hhop.swapLeg_two
    · rw [setPool_of_ne _ hne2]
      rcases eq_or_ne key one with rfl | hne1
      · rw [setPool_self]
        exact .legOne h1 hhop.swapLeg_one
      · rw [setPool_of_ne _ hne1]
        exact .other (by simp [Instruction.writes, hne1, hne2])

/-! ## Runs -/

/-- An empty run changes nothing. -/
@[simp] lemma run_nil (program : Program) : program.run [] = program := rfl

/-- The first instruction of a run. -/
@[simp] lemma run_cons (program : Program) (instruction : Instruction)
    (instructions : List Instruction) :
    program.run (instruction :: instructions) = (program.next instruction).run instructions := rfl

/-- After an instruction that succeeds the accounts are its result. -/
lemma next_eq_of_ok {instruction : Instruction} (h : program.step instruction = .ok program') :
    program.next instruction = program' := by
  unfold next
  rw [h]

/-- After an instruction that fails the accounts are as before. -/
lemma next_eq_of_error {instruction : Instruction} {e : Failure}
    (h : program.step instruction = .error e) : program.next instruction = program := by
  unfold next
  rw [h]

/-- **The induction on a run.** -/
theorem run_induction (Inv : Program → Prop)
    (hstep : ∀ program program' instruction, Inv program →
      program.step instruction = .ok program' → Inv program') :
    ∀ (instructions : List Instruction) (program : Program), Inv program →
      Inv (program.run instructions)
  | [], _, h => h
  | instruction :: rest, program, h => by
    rw [run_cons]
    refine run_induction Inv hstep rest _ ?_
    cases hs : program.step instruction with
    | error e => rwa [next_eq_of_error hs]
    | ok program' =>
      rw [next_eq_of_ok hs]
      exact hstep _ _ _ h hs

/-- **A run of the program is a run of each of its pools.**

**Proof sketch.** What an instruction does to a pool is to leave it, to create it or to take a step
in it, and each keeps reachability; the induction on runs does the rest. -/
theorem run_reachable (instructions : List Instruction) (key : PoolKey) (hkey : key.tickSpacing ≠ 0)
    {pool : Pool} (h : (empty.run instructions).pools key = some pool) : Reachable pool := by
  have hinv : ∀ pool, (empty.run instructions).pools key = some pool → Reachable pool := by
    refine run_induction (fun p => ∀ pool, p.pools key = some pool → Reachable pool)
      (fun program program' instruction hprogram hstep pool hpool => ?_) instructions empty
      (fun pool hpool => by cases hpool)
    have hcases := step_poolStep hstep key
    rw [hpool] at hcases
    generalize hres : some pool = res at hcases
    cases hcases with
    | other _ => exact hprogram pool hres.symm
    | created _ _ _ _ _ hw =>
      cases hres
      refine ⟨_, [], ⟨?_, _, _, _, _, _, _, _, _, hw⟩, rfl⟩
      have hseeds := congrArg PoolKey.tickSpacing (Whirlpool.initializeWhirlpool_seeds hw).1
      exact fun h0 => hkey (hseeds.symm.trans h0)
    | onPool hp _ hs =>
      cases hres
      exact (hprogram _ hp).step hs
    | legOne hp hs =>
      cases hres
      exact (hprogram _ hp).step hs
    | legTwo hp hs =>
      cases hres
      exact (hprogram _ hp).step hs
  exact hinv pool h

end Program

/-! ## The places of a run -/

/-- An empty list has no place in it. -/
lemma forall_split_nil {α : Type} {p : List α → α → Prop} :
    (∀ before x after, ([] : List α) = before ++ x :: after → p before x) ↔ True := by
  simp

/-- What holds at every place of a list, with the part before it, holds at its head and at every
place of its tail. -/
theorem forall_split_cons {α : Type} {p : List α → α → Prop} {x : α} {xs : List α} :
    (∀ before y after, x :: xs = before ++ y :: after → p before y) ↔
      p [] x ∧ ∀ before y after, xs = before ++ y :: after → p (x :: before) y := by
  constructor
  · intro h
    refine ⟨h [] x xs rfl, ?_⟩
    rintro before y after rfl
    exact h (x :: before) y after rfl
  · rintro ⟨hx, hxs⟩ before y after he
    cases before with
    | nil =>
      obtain ⟨rfl, -⟩ := List.cons.inj he
      exact hx
    | cons z before =>
      obtain ⟨rfl, rfl⟩ := List.cons.inj he
      exact hxs before y after rfl

/-! ## A run -/

/-- The keys of two pools that share the token `2`. -/
def sampleKeyOne : PoolKey := ⟨1, 1, 2, 64⟩

def sampleKeyTwo : PoolKey := ⟨1, 2, 3, 64⟩

/-- A config and a fee tier are created, and two pools at price one, and both are filled. -/
def sampleInstructions : List Instruction :=
  [.initializeConfig 1 10 11 12 13 300, .initializeFeeTier 1 10 64 3000,
    .initializePool 1 1 2 ⟨1, 64⟩ 64 18446744073709551616,
    .initializePool 1 2 3 ⟨1, 64⟩ 64 18446744073709551616] ++
  sampleOps.map (Instruction.onPool sampleKeyOne 3) ++
  sampleOps.map (Instruction.onPool sampleKeyTwo 3)

/-- A two-hop swap that sells `100000` of token `1` for token `3`, with price limits that it does
not reach. -/
def sampleHop : TwoHopArgs :=
  { amount := 100000, otherAmountThreshold := 0, amountSpecifiedIsInput := true
    aToBOne := true, aToBTwo := true
    sqrtPriceLimitOne := 4295048016, sqrtPriceLimitTwo := 4295048016
    arrayOne0 := 0, arrayOne1 := -5632, arrayOne2 := -5632
    arrayTwo0 := 0, arrayTwo1 := -5632, arrayTwo2 := -5632
    clock := 5, fundsOne := sampleFunds, fundsTwo := sampleFunds }

end NemoSwap
