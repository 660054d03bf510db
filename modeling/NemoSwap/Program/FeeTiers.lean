import NemoSwap.Pool.Market
import NemoSwap.Program.Runs

set_option relaxedAutoImplicit false
set_option autoImplicit false

/-!
# Fee tiers

The fee authority of a config initializes its fee tiers, one for each tick spacing. A pool may be
created by anyone, with any fee tier of its config and any tick spacing: `initialize_pool` does
not compare the two.

## Main definitions

* `NemoSwap.Program.FeeTierOpened` — the fee authority has initialized a fee tier.
* `NemoSwap.Program.PoolOpened` — a pool was created, at the default fee rate of a fee tier.

## Main results

* `NemoSwap.Program.feeTier_opened` — every fee tier was initialized by the fee authority, and
  holds the spacing of its address.
* `NemoSwap.Program.pool_feeTier` — when `initialize_pool` is given fee tiers of the tick spacing
  of the pool, every pool uses a fee tier of its own spacing.
* `NemoSwap.Program.pool_without_feeTier` — a pool with a tick spacing of zero.
-/

namespace NemoSwap

/-! ## Initialization of a pool -/

/-- `initialize` succeeds exactly if the mints are in order, the price is in range and the two
rates are at most their maxima: a price in range has a tick. -/
lemma Whirlpool.initializeWhirlpool_iff {config authority mintA mintB : Pubkey}
    {protocolRate spacing price rate : ℕ} :
    (∃ w, initializeWhirlpool config protocolRate authority spacing price rate mintA mintB =
      .ok w) ↔
      mintA < mintB ∧ (minSqrtPriceX64 ≤ price ∧ price ≤ maxSqrtPriceX64) ∧ rate ≤ maxFeeRate ∧
        protocolRate ≤ maxProtocolFeeRate := by
  constructor
  · rintro ⟨w, hw⟩
    obtain ⟨hmints, hprice, hrate, hprotocol, -⟩ := initializeWhirlpool_eq_ok.1 hw
    exact ⟨hmints, hprice, hrate, hprotocol⟩
  · rintro ⟨hmints, hprice, hrate, hprotocol⟩
    obtain ⟨tick, htick, -⟩ := tickIndexFromSqrtPrice_spec hprice.1 hprice.2
    exact ⟨_, initializeWhirlpool_eq_ok.2 ⟨hmints, hprice, hrate, hprotocol, tick, htick, rfl⟩⟩

namespace Program

variable {program program' : Program}

/-! ## Fee tiers -/

/-- What an instruction does to a fee tier. -/
inductive FeeTierStep (program : Program) (key : FeeTierKey) : Instruction → Option FeeTier → Prop
  | other {instruction : Instruction} :
      FeeTierStep program key instruction (program.feeTiers key)
  | opened {spacing rate : UInt16} {account : WhirlpoolsConfig}
      (spacing_eq : spacing.toNat = key.tickSpacing)
      (config : program.configs key.whirlpoolsConfig = some account) :
      FeeTierStep program key
        (.initializeFeeTier key.whirlpoolsConfig account.feeAuthority spacing rate)
        (some ⟨key.whirlpoolsConfig, key.tickSpacing, rate.toNat⟩)
  | rated {config signer : Pubkey} {rate : UInt16} {tier : FeeTier}
      (tier_eq : program.feeTiers key = some tier) :
      FeeTierStep program key (.setDefaultFeeRate config signer key rate)
        (some { tier with defaultFeeRate := rate.toNat })

/-- Instructions that leave all fee tiers alone. -/
lemma FeeTierStep.of_feeTiers_eq {key : FeeTierKey} {instruction : Instruction}
    (h : program'.feeTiers = program.feeTiers) :
    FeeTierStep program key instruction (program'.feeTiers key) := by
  rw [h]
  exact .other

/-- The fee tier that has been stored. -/
lemma setFeeTier_self (key : FeeTierKey) (tier : FeeTier) :
    (program.setFeeTier key tier).feeTiers key = some tier :=
  Function.update_self _ _ _

/-- All other fee tiers stay. -/
lemma setFeeTier_of_ne {key k : FeeTierKey} (tier : FeeTier) (h : k ≠ key) :
    (program.setFeeTier key tier).feeTiers k = program.feeTiers k :=
  Function.update_of_ne h _ _

/-- **The inversion of an instruction, for each fee tier.**

**Proof sketch.** One case for each instruction. Two of them store a fee tier, at their own
address. -/
theorem step_feeTierStep {instruction : Instruction} (h : program.step instruction = .ok program')
    (key : FeeTierKey) : FeeTierStep program key instruction (program'.feeTiers key) := by
  cases instruction with
  | initializeConfig =>
    obtain ⟨-, account, -, rfl⟩ := initializeConfig_eq_ok h
    exact .of_feeTiers_eq rfl
  | setFeeAuthority =>
    obtain ⟨_, _, -, -, -, rfl⟩ := updateConfig_eq_ok h
    exact .of_feeTiers_eq rfl
  | setCollectProtocolFeesAuthority =>
    obtain ⟨_, _, -, -, -, rfl⟩ := updateConfig_eq_ok h
    exact .of_feeTiers_eq rfl
  | setRewardEmissionsSuperAuthority =>
    obtain ⟨_, _, -, -, -, rfl⟩ := updateConfig_eq_ok h
    exact .of_feeTiers_eq rfl
  | setPoolCreatorAuthority =>
    obtain ⟨_, _, -, -, -, rfl⟩ := updateConfig_eq_ok h
    exact .of_feeTiers_eq rfl
  | setDefaultProtocolFeeRate =>
    obtain ⟨_, _, -, -, -, rfl⟩ := updateConfig_eq_ok h
    exact .of_feeTiers_eq rfl
  | initializeFeeTier config signer spacing rate =>
    obtain ⟨account, hconfig, rfl, -, -, rfl⟩ := initializeFeeTier_eq_ok h
    rcases eq_or_ne key ⟨config, spacing.toNat⟩ with rfl | hne
    · rw [setFeeTier_self]
      exact .opened rfl hconfig
    · rw [setFeeTier_of_ne _ hne]
      exact .other
  | setDefaultFeeRate config signer k rate =>
    obtain ⟨_, tier, -, -, htier, -, -, rfl⟩ := setDefaultFeeRate_eq_ok h
    rcases eq_or_ne key k with rfl | hne
    · rw [setFeeTier_self]
      exact .rated htier
    · rw [setFeeTier_of_ne _ hne]
      exact .other
  | initializePool =>
    obtain ⟨_, _, _, -, -, -, -, -, rfl⟩ := initializePool_eq_ok h
    exact .of_feeTiers_eq rfl
  | onPool =>
    obtain ⟨_, _, _, -, -, -, -, rfl⟩ := onPool_eq_ok h
    exact .of_feeTiers_eq rfl
  | twoHopSwap =>
    obtain ⟨_, _, _, _, -, -, -, -, rfl⟩ := twoHopSwap_eq_ok h
    exact .of_feeTiers_eq rfl

/-! ## What a run has done -/

/-- In the run, the fee authority of the config has initialized the fee tier. -/
def FeeTierOpened (instructions : List Instruction) (key : FeeTierKey) : Prop :=
  ∃ before spacing rate after account program', spacing.toNat = key.tickSpacing ∧
    (empty.run before).configs key.whirlpoolsConfig = some account ∧
    instructions = before ++
      .initializeFeeTier key.whirlpoolsConfig account.feeAuthority spacing rate :: after ∧
    (empty.run before).step
      (.initializeFeeTier key.whirlpoolsConfig account.feeAuthority spacing rate) = .ok program'

/-- In the run, the pool was created with a fee tier that holds the tick spacing of the pool, was
initialized before, and gave the pool its fee rate. -/
def PoolOpened (instructions : List Instruction) (key : PoolKey) : Prop :=
  ∃ before feeTier spacing price after program' tier pool,
    instructions = before ++ .initializePool key.whirlpoolsConfig key.tokenMintA key.tokenMintB
      feeTier spacing price :: after ∧
    (empty.run before).step (.initializePool key.whirlpoolsConfig key.tokenMintA key.tokenMintB
      feeTier spacing price) = .ok program' ∧
    (empty.run before).pools key = none ∧ program'.pools key = some pool ∧
    (empty.run before).feeTiers feeTier = some tier ∧
    tier.whirlpoolsConfig = key.whirlpoolsConfig ∧ tier.tickSpacing = key.tickSpacing ∧
    pool.whirlpool.feeRate = tier.defaultFeeRate ∧
    FeeTierOpened before ⟨key.whirlpoolsConfig, key.tickSpacing⟩

/-- A fee tier that was initialized in a run was so in its continuations. -/
lemma FeeTierOpened.append {instructions : List Instruction} {key : FeeTierKey}
    (h : FeeTierOpened instructions key) (rest : List Instruction) :
    FeeTierOpened (instructions ++ rest) key := by
  obtain ⟨before, spacing, rate, after, account, program', hs, hc, rfl, hstep⟩ := h
  exact ⟨before, spacing, rate, after ++ rest, account, program', hs, hc, by simp, hstep⟩

/-- A pool that was created in a run was so in its continuations. -/
lemma PoolOpened.append {instructions : List Instruction} {key : PoolKey}
    (h : PoolOpened instructions key) (rest : List Instruction) :
    PoolOpened (instructions ++ rest) key := by
  obtain ⟨before, feeTier, spacing, price, after, program', tier, pool, rfl, h⟩ := h
  exact ⟨before, feeTier, spacing, price, after ++ rest, program', tier, pool, by simp, h⟩

/-- The last instruction of a run. -/
lemma run_concat (instructions : List Instruction) (instruction : Instruction) :
    program.run (instructions ++ [instruction]) = (program.run instructions).next instruction := by
  unfold run
  rw [List.foldl_append]
  rfl

/-! ## Fee tiers of a run -/

/-- **Every fee tier was initialized by the fee authority of its config**, and holds the config
and the spacing of its address.

**Proof sketch.** Induction on the run from its end. The last instruction leaves the fee tier alone,
changes its rate, or initializes it, which is then the witness. -/
theorem feeTier_opened (instructions : List Instruction) : ∀ {key : FeeTierKey} {tier : FeeTier},
    (empty.run instructions).feeTiers key = some tier →
      tier.whirlpoolsConfig = key.whirlpoolsConfig ∧ tier.tickSpacing = key.tickSpacing ∧
        FeeTierOpened instructions key := by
  induction instructions using List.reverseRecOn with
  | nil =>
    intro key tier h
    cases h
  | append_singleton before instruction ih =>
    intro key tier h
    rw [run_concat] at h
    cases hs : (empty.run before).step instruction with
    | error e =>
      rw [next_eq_of_error hs] at h
      obtain ⟨h1, h2, h3⟩ := ih h
      exact ⟨h1, h2, h3.append _⟩
    | ok program' =>
      rw [next_eq_of_ok hs] at h
      have hcases := step_feeTierStep hs key
      rw [h] at hcases
      generalize hres : some tier = res at hcases
      cases hcases with
      | other =>
        obtain ⟨h1, h2, h3⟩ := ih hres.symm
        exact ⟨h1, h2, h3.append _⟩
      | opened hspacing hconfig =>
        cases hres
        exact ⟨rfl, rfl, before, _, _, [], _, program', hspacing, hconfig, rfl, hs⟩
      | rated htier =>
        cases hres
        obtain ⟨h1, h2, h3⟩ := ih htier
        exact ⟨h1, h2, h3.append _⟩

/-! ## Pools of a run -/

/-- The checks of `initialize_pool`: the config and the fee tier exist, the fee tier is one of the
config, the address of the pool is free, the mints are in order, the price is in range, and the
rates that the pool takes over are at most their maxima. -/
def poolChecks (program : Program) (config tokenMintA tokenMintB : Pubkey) (feeTier : FeeTierKey)
    (tickSpacing initialSqrtPrice : ℕ) : Bool :=
  match program.configs config, program.feeTiers feeTier with
  | some account, some tier =>
    (program.pools ⟨config, tokenMintA, tokenMintB, tickSpacing⟩).isNone &&
      decide (tier.whirlpoolsConfig = config ∧ tokenMintA < tokenMintB ∧
        (minSqrtPriceX64 ≤ initialSqrtPrice ∧ initialSqrtPrice ≤ maxSqrtPriceX64) ∧
        tier.defaultFeeRate ≤ maxFeeRate ∧ account.defaultProtocolFeeRate ≤ maxProtocolFeeRate)
  | _, _ => false

/-- **The instruction `initialize_pool` succeeds exactly if its checks pass.** The tick spacing of
the fee tier is not among them.

**Proof sketch.** The config and the fee tier are looked up, and what is left is a check of the
address and the checks of `initializeWhirlpool_iff`. -/
theorem initializePool_iff {config mintA mintB : Pubkey} {feeTier : FeeTierKey}
    {spacing price : ℕ} :
    (∃ program', program.initializePool config mintA mintB feeTier spacing price = .ok program') ↔
      program.poolChecks config mintA mintB feeTier spacing price = true := by
  constructor
  · rintro ⟨program', h⟩
    obtain ⟨account, tier, w, hconfig, htier, hof, hnew, hw, -⟩ := initializePool_eq_ok h
    have hchecks := Whirlpool.initializeWhirlpool_iff.1 ⟨w, hw⟩
    simp [poolChecks, hconfig, htier, hnew, hof, hchecks]
  · intro h
    unfold poolChecks at h
    split at h
    · next account tier hconfig htier =>
      rw [Bool.and_eq_true, Option.isNone_iff_eq_none, decide_eq_true_eq] at h
      obtain ⟨hnew, hof, hchecks⟩ := h
      obtain ⟨w, hw⟩ := Whirlpool.initializeWhirlpool_iff.2 hchecks
      refine ⟨program.setPool ⟨config, mintA, mintB, spacing⟩ (Pool.new w), ?_⟩
      unfold initializePool
      rw [getConfig_eq_ok.2 hconfig, Res.ok_bind, getFeeTier_eq_ok.2 htier, Res.ok_bind, hnew,
        if_neg (by simp), if_neg (not_not.2 hof), hw]
      rfl
    · cases h

/-- Every `initialize_pool` of the run that passes its checks is given a fee tier of the tick
spacing of the pool. -/
def MatchingFeeTiers (instructions : List Instruction) : Prop :=
  ∀ before config mintA mintB feeTier spacing price after,
    instructions =
      before ++ Instruction.initializePool config mintA mintB feeTier spacing price :: after →
    (empty.run before).poolChecks config mintA mintB feeTier spacing.toNat price.toNat = true →
      feeTier.tickSpacing = spacing.toNat

/-- The condition on a run holds of its beginning. -/
lemma MatchingFeeTiers.of_append {instructions rest : List Instruction}
    (h : MatchingFeeTiers (instructions ++ rest)) : MatchingFeeTiers instructions := by
  rintro before config mintA mintB feeTier spacing price after rfl
  apply h before config mintA mintB feeTier spacing price (after ++ rest)
  rw [List.append_assoc, List.cons_append]

/-- Every pool of a run has the seeds of its address, and was created with a fee tier of its
spacing.

**Proof sketch.** Induction on the run from its end. A pool that the last instruction creates has
passed the checks of `initialize_pool`, so the condition gives it a fee tier of its spacing, which
the fee authority has initialized; any other pool keeps its seeds. -/
theorem pool_opened (instructions : List Instruction) (hmatch : MatchingFeeTiers instructions) :
    ∀ {key : PoolKey} {pool : Pool}, (empty.run instructions).pools key = some pool →
      pool.whirlpool.seeds = key ∧ PoolOpened instructions key := by
  induction instructions using List.reverseRecOn with
  | nil =>
    intro key pool h
    cases h
  | append_singleton before instruction ih =>
    intro key pool h
    have hbefore : MatchingFeeTiers before := hmatch.of_append
    rw [run_concat] at h
    cases hs : (empty.run before).step instruction with
    | error e =>
      rw [next_eq_of_error hs] at h
      obtain ⟨h1, h2⟩ := ih hbefore h
      exact ⟨h1, h2.append _⟩
    | ok program' =>
      rw [next_eq_of_ok hs] at h
      have hcases := step_poolStep hs key
      rw [h] at hcases
      generalize hres : some pool = res at hcases
      cases hcases with
      | other _ =>
        obtain ⟨h1, h2⟩ := ih hbefore hres.symm
        exact ⟨h1, h2.append _⟩
      | onPool hp _ hstep =>
        cases hres
        obtain ⟨h1, h2⟩ := ih hbefore hp
        exact ⟨(Pool.step_seeds hstep).trans h1, h2.append _⟩
      | legOne hp hstep =>
        cases hres
        obtain ⟨h1, h2⟩ := ih hbefore hp
        exact ⟨(Pool.step_seeds hstep).trans h1, h2.append _⟩
      | legTwo hp hstep =>
        cases hres
        obtain ⟨h1, h2⟩ := ih hbefore hp
        exact ⟨(Pool.step_seeds hstep).trans h1, h2.append _⟩
      | @created feeTier spacing price account tier whirlpool hspacing hnew hconfig htier hof hw =>
        cases hres
        obtain ⟨hseeds, hrate⟩ := Whirlpool.initializeWhirlpool_seeds hw
        obtain ⟨hc, ht, hopened⟩ := feeTier_opened before htier
        have hsame := hmatch before _ _ _ _ _ _ [] rfl (initializePool_iff.1 ⟨_, hs⟩)
        have hkey : feeTier = ⟨key.whirlpoolsConfig, key.tickSpacing⟩ := by
          cases feeTier
          rw [FeeTierKey.mk.injEq]
          exact ⟨hc.symm.trans hof, hsame.trans hspacing.symm⟩
        refine ⟨hseeds, before, feeTier, spacing, price, [], program', tier, _, rfl, hs, hnew, h,
          htier, hof, ?_, hrate, hkey ▸ hopened⟩
        rw [ht, hsame, hspacing]

/-- **Every pool uses a fee tier of its own spacing**, in every run where each `initialize_pool`
that passes its checks is given a fee tier of the tick spacing of its pool: the record of a pool
has the config and the spacing of its address, the fee authority of the config has initialized a
fee tier of that spacing, and the pool was created at its default fee rate. -/
theorem pool_feeTier (instructions : List Instruction) (hmatch : MatchingFeeTiers instructions)
    {key : PoolKey} {pool : Pool} (hpool : (empty.run instructions).pools key = some pool) :
    pool.whirlpool.whirlpoolsConfig = key.whirlpoolsConfig ∧
      pool.whirlpool.tickSpacing = key.tickSpacing ∧
      FeeTierOpened instructions
        ⟨pool.whirlpool.whirlpoolsConfig, pool.whirlpool.tickSpacing⟩ ∧
      PoolOpened instructions key := by
  obtain ⟨rfl, hopened⟩ := pool_opened instructions hmatch hpool
  refine ⟨rfl, rfl, ?_, hopened⟩
  obtain ⟨before, _, _, _, _, _, _, _, rfl, -, -, -, -, -, -, -, htier⟩ := hopened
  exact htier.append _

/-- The sample run, with an `initialize_pool` of another tick spacing and its mints in the wrong
order. -/
def sampleOrdered : List Instruction :=
  sampleInstructions ++ [.initializePool 1 2 1 ⟨1, 64⟩ 32 18446744073709551616]

/-- Pool one of the sample run has a fee tier of its spacing, whatever the rejected
`initialize_pool` is given. -/
theorem pool_feeTier_sample : ∃ pool,
    (empty.run sampleOrdered).pools sampleKeyOne = some pool ∧
      PoolOpened sampleOrdered sampleKeyOne := by
  have hsome : ((empty.run sampleOrdered).pools sampleKeyOne).isSome = true := by
    decide +kernel
  obtain ⟨pool, hpool⟩ := Option.isSome_iff_exists.1 hsome
  have hmatch : MatchingFeeTiers sampleOrdered := by
    intro before config mintA mintB feeTier spacing price after he hchecks
    obtain ⟨program', hprogram⟩ := initializePool_iff.2 hchecks
    obtain ⟨_, _, w, -, -, -, -, hw, -⟩ := initializePool_eq_ok hprogram
    have hmints := (Whirlpool.initializeWhirlpool_iff.1 ⟨w, hw⟩).1
    have hmem : Instruction.initializePool config mintA mintB feeTier spacing price ∈
        sampleOrdered := by simp [he]
    simp [sampleOrdered, sampleInstructions, sampleOps] at hmem
    rcases hmem with ⟨-, -, -, rfl, rfl, -⟩ | ⟨-, -, -, rfl, rfl, -⟩ | ⟨-, rfl, rfl, -⟩
    · rfl
    · rfl
    · exact absurd hmints (by decide)
  exact ⟨pool, hpool, (pool_feeTier sampleOrdered hmatch hpool).2.2.2⟩

/-- A config, its only fee tier, which has a spacing of `64`, and a pool with a spacing of `0`. -/
def sampleZeroSpacing : List Instruction :=
  [.initializeConfig 1 10 11 12 13 300, .initializeFeeTier 1 10 64 3000,
    .initializePool 1 1 2 ⟨1, 64⟩ 0 18446744073709551616]

/-- **A pool of a tick spacing that the fee authority has not opened**, at the fee rate of a fee
tier of another spacing. -/
theorem pool_without_feeTier : ∃ pool,
    (empty.run sampleZeroSpacing).pools ⟨1, 1, 2, 0⟩ = some pool ∧
      pool.whirlpool.tickSpacing = 0 ∧ pool.whirlpool.feeRate = 3000 ∧
      (empty.run sampleZeroSpacing).feeTiers ⟨1, 0⟩ = none ∧
      ¬FeeTierOpened sampleZeroSpacing ⟨1, 0⟩ := by
  have hrun : ((empty.run sampleZeroSpacing).pools ⟨1, 1, 2, 0⟩).map
      (fun p => (p.whirlpool.tickSpacing, p.whirlpool.feeRate)) = some (0, 3000) := by
    decide +kernel
  have hnone : (empty.run sampleZeroSpacing).feeTiers ⟨1, 0⟩ = none := by decide +kernel
  obtain ⟨pool, hpool, hp⟩ := Option.map_eq_some_iff.1 hrun
  rw [Prod.mk.injEq] at hp
  refine ⟨pool, hpool, hp.1, hp.2, hnone, ?_⟩
  rintro ⟨before, spacing, rate, after, account, program', hs, -, he, -⟩
  have hmem : Instruction.initializeFeeTier 1 account.feeAuthority spacing rate ∈
      sampleZeroSpacing := by
    rw [he]
    simp
  simp only [sampleZeroSpacing, List.mem_cons, reduceCtorEq, Instruction.initializeFeeTier.injEq,
    List.not_mem_nil, or_false, false_or] at hmem
  obtain ⟨-, -, rfl, -⟩ := hmem
  cases hs

end Program

end NemoSwap
