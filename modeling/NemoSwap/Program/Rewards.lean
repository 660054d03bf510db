import NemoSwap.Program.Governance

set_option relaxedAutoImplicit false
set_option autoImplicit false

/-!
# The rewards of a pool

A pool has three rewards, which are initialized one after the other. Once initialized, a reward
keeps its mint and its vault, whatever instructions are run: what its positions are owed of it is
owed in one token and paid from one vault.

## Main definitions

* `NemoSwap.Whirlpool.RewardsInOrder` — the initialized rewards come first.
* `NemoSwap.Whirlpool.RewardsExtend` — no reward is replaced, and a new one comes after the others.

## Main results

* `NemoSwap.Pool.step_rewards` — what one instruction does to the rewards.
* `NemoSwap.Reachable.rewards_kept` — the rewards of a pool in a run.
-/

namespace NemoSwap

/-! ## Order -/

namespace Whirlpool

variable {w w' : Whirlpool}

/-- The initialized rewards come first. -/
def RewardsInOrder (w : Whirlpool) : Prop :=
  ∀ i j, i ≤ j → (w.rewardInfos j).initialized = true → (w.rewardInfos i).initialized = true

/-- Rewards that exist keep their mint and their vault, and a new one comes after all others. -/
structure RewardsExtend (w w' : Whirlpool) : Prop where
  mint : ∀ i, (w.rewardInfos i).initialized = true →
    (w'.rewardInfos i).mint = (w.rewardInfos i).mint
  vault : ∀ i, (w.rewardInfos i).initialized = true →
    (w'.rewardInfos i).vault = (w.rewardInfos i).vault
  new : ∀ i, (w'.rewardInfos i).initialized = true → (w.rewardInfos i).initialized = true ∨
    ∀ j < i, (w.rewardInfos j).initialized = true

/-- Rewards whose mints and vaults stay are extended. -/
lemma RewardsExtend.of_same (hmint : ∀ i, (w'.rewardInfos i).mint = (w.rewardInfos i).mint)
    (hvault : ∀ i, (w'.rewardInfos i).vault = (w.rewardInfos i).vault) : w.RewardsExtend w' := by
  refine ⟨fun i _ => hmint i, fun i _ => hvault i, fun i hi => .inl ?_⟩
  unfold WhirlpoolRewardInfo.initialized at hi ⊢
  rwa [hmint i] at hi

/-- An initialized reward stays initialized. -/
theorem RewardsExtend.initialized (h : w.RewardsExtend w') {i : Fin numRewards}
    (hi : (w.rewardInfos i).initialized = true) : (w'.rewardInfos i).initialized = true := by
  have hmint := h.mint i hi
  unfold WhirlpoolRewardInfo.initialized at hi ⊢
  rwa [hmint]

/-- Rewards that are extended stay in order. -/
lemma RewardsExtend.inOrder (h : w.RewardsExtend w') (hw : w.RewardsInOrder) :
    w'.RewardsInOrder := by
  intro i j hij hj
  rcases h.new j hj with hold | hbefore
  · exact h.initialized (hw i j hij hold)
  · rcases hij.lt_or_eq with hlt | rfl
    · exact h.initialized (hbefore i hlt)
    · exact hj

/-- The reward that comes next. -/
lemma lowestUninitialized_eq_some {i : Fin numRewards} :
    w.lowestUninitialized = some i ↔
      (w.rewardInfos i).initialized = false ∧ ∀ j < i, (w.rewardInfos j).initialized = true := by
  unfold lowestUninitialized
  rw [List.find?_eq_some_iff_getElem, Bool.not_eq_true']
  refine and_congr_right fun _ => ⟨?_, fun h => ?_⟩
  · rintro ⟨k, hk, hki, hbefore⟩ j hj
    rw [List.getElem_finRange] at hki
    subst hki
    have hj' := hbefore j.val hj
    simpa using hj'
  · refine ⟨i.val, by simp, by simp, fun k hk => ?_⟩
    simpa using h ⟨k, hk.trans i.isLt⟩ hk

/-- **`initialize_reward` takes the next reward.**

**Proof sketch.** The source looks for the first reward that is not initialized and compares its
index. -/
theorem initializeReward_eq_ok {index : ℕ} {mint vault : Pubkey} :
    w.initializeReward index mint vault = .ok w' ↔ ∃ i : Fin numRewards, i.val = index ∧
      w.lowestUninitialized = some i ∧
      w' = w.updateReward i fun info => { info with mint, vault } := by
  unfold initializeReward
  split_ifs with hi
  · cases hl : w.lowestUninitialized with
    | none => simp
    | some i =>
      simp only [ite_err_eq_ok, not_not, Res.pure_eq_ok, Except.ok.injEq, Option.some.injEq]
      constructor
      · rintro ⟨rfl, rfl⟩
        exact ⟨_, rfl, rfl, rfl⟩
      · rintro ⟨j, rfl, rfl, rfl⟩
        exact ⟨rfl, rfl⟩
  · refine ⟨fun h => absurd h (by simp), ?_⟩
    rintro ⟨i, rfl, -⟩
    exact absurd i.isLt hi

/-- `initialize_reward` extends the rewards: it fills the first free slot.

**Proof sketch.** Only the slot of the index changes. It was free, and all slots before it were not,
so the initialized rewards still come first. -/
lemma RewardsExtend.of_initializeReward {index : ℕ} {mint vault : Pubkey}
    (h : w.initializeReward index mint vault = .ok w') : w.RewardsExtend w' := by
  obtain ⟨i, -, hlowest, rfl⟩ := initializeReward_eq_ok.1 h
  obtain ⟨hnew, hbefore⟩ := lowestUninitialized_eq_some.1 hlowest
  have hother : ∀ j ≠ i, ((w.updateReward i fun info => { info with mint, vault }).rewardInfos j) =
      w.rewardInfos j := fun j hj => Function.update_of_ne hj _ _
  have hne : ∀ j, (w.rewardInfos j).initialized = true → j ≠ i := by
    rintro j hj rfl
    rw [hnew] at hj
    exact absurd hj Bool.false_ne_true
  refine ⟨fun j hj => by rw [hother j (hne j hj)], fun j hj => by rw [hother j (hne j hj)],
    fun j hj => ?_⟩
  rcases eq_or_ne j i with rfl | hji
  · exact .inr hbefore
  · rw [hother j hji] at hj
    exact .inl hj

/-- A change of a reward that keeps its mint and its vault keeps all of them. -/
lemma updateReward_same (w : Whirlpool) (i j : Fin numRewards)
    (f : WhirlpoolRewardInfo → WhirlpoolRewardInfo)
    (hf : ∀ info, (f info).mint = info.mint ∧ (f info).vault = info.vault) :
    ((w.updateReward i f).rewardInfos j).mint = (w.rewardInfos j).mint ∧
      ((w.updateReward i f).rewardInfos j).vault = (w.rewardInfos j).vault := by
  unfold updateReward
  dsimp only
  rcases eq_or_ne j i with rfl | hji
  · rw [Function.update_self]
    exact hf _
  · rw [Function.update_of_ne hji]
    exact ⟨rfl, rfl⟩

/-- Settings that agree have the same rewards. -/
lemma RewardsExtend.of_settings
    (h : ∀ i, (w'.rewardInfos i).settings = (w.rewardInfos i).settings) : w.RewardsExtend w' :=
  .of_same (fun i => congrArg Prod.fst (h i)) fun i => congrArg (fun s => s.2.1) (h i)

end Whirlpool

/-! ## One instruction -/

namespace Pool

variable {pool pool' : Pool} {earned : Earnings} {op : PoolOp}

/-- **One instruction replaces no reward**, and initializes at most the next one.

**Proof sketch.** Without an authority the settings of the rewards are kept. Of the instructions of
the authorities only `initialize_reward` changes a mint or a vault, in the first free slot. -/
theorem step_rewards (hs : pool.Sound earned) (hb : pool.Backed earned)
    (h : pool.step op = .ok pool') : pool.whirlpool.RewardsExtend pool'.whirlpool := by
  by_cases hadmin : op.administers = false
  · have hsettings := (step_settings hs hb hadmin h).1
    exact .of_settings fun i => congrFun (congrArg Settings.rewards hsettings) i
  -- the instructions of the authorities
  cases op with
  | setFeeRate rate =>
    change pool.setFeeRate rate = .ok pool' at h
    unfold setFeeRate Whirlpool.updateFeeRate at h
    simp only [Res.bind_eq_ok, ite_err_eq_ok, Res.pure_eq_ok, Except.ok.injEq] at h
    obtain ⟨_, ⟨-, rfl⟩, rfl⟩ := h
    exact .of_same (fun _ => rfl) fun _ => rfl
  | setProtocolFeeRate rate =>
    change pool.setProtocolFeeRate rate = .ok pool' at h
    unfold setProtocolFeeRate Whirlpool.updateProtocolFeeRate at h
    simp only [Res.bind_eq_ok, ite_err_eq_ok, Res.pure_eq_ok, Except.ok.injEq] at h
    obtain ⟨_, ⟨-, rfl⟩, rfl⟩ := h
    exact .of_same (fun _ => rfl) fun _ => rfl
  | setEnableFlag flag =>
    obtain rfl := Except.ok.inj h
    exact .of_same (fun _ => rfl) fun _ => rfl
  | collectProtocolFees funds =>
    change pool.collectProtocolFees funds = .ok pool' at h
    unfold collectProtocolFees at h
    simp only [Res.bind_eq_ok, Res.pure_eq_ok, Except.ok.injEq] at h
    obtain ⟨_, -, _, -, rfl⟩ := h
    exact .of_same (fun _ => rfl) fun _ => rfl
  | initializeReward index mint vault =>
    change pool.initializeReward index mint vault = .ok pool' at h
    unfold initializeReward at h
    simp only [Res.bind_eq_ok, Res.pure_eq_ok, Except.ok.injEq] at h
    obtain ⟨w, hw, rfl⟩ := h
    exact .of_initializeReward hw
  | setRewardEmissions index emissions vault clock =>
    change pool.setRewardEmissions index emissions vault clock = .ok pool' at h
    unfold setRewardEmissions at h
    split_ifs at h with hi hv
    unfold Whirlpool.updateEmissions at h
    simp only [Res.bind_eq_ok, ite_err_eq_ok, dif_pos hi, Res.pure_eq_ok, Except.ok.injEq] at h
    obtain ⟨_, -, -, timestamp, -, infos, hinfos, _, rfl, rfl⟩ := h
    have hsettings := nextWhirlpoolRewardInfos_settings hinfos
    have hsame := fun j =>
      (pool.whirlpool.updateRewards infos timestamp).updateReward_same ⟨index, hi⟩ j
        (fun info => { info with emissionsPerSecondX64 := emissions.toNat }) fun _ => ⟨rfl, rfl⟩
    exact .of_same (fun j => (hsame j).1.trans (congrArg Prod.fst (hsettings j)))
      fun j => (hsame j).2.trans (congrArg (fun s => s.2.1) (hsettings j))
  | setRewardAuthority index authority =>
    change pool.setRewardAuthority index authority = .ok pool' at h
    unfold setRewardAuthority Whirlpool.updateRewardAuthority at h
    rw [Res.bind_eq_ok] at h
    obtain ⟨w, hw, h⟩ := h
    obtain rfl := Except.ok.inj h
    split_ifs at hw with hi
    · obtain rfl := Except.ok.inj hw
      have hsame := fun j => pool.whirlpool.updateReward_same ⟨index, hi⟩ j
        (fun info => { info with authority }) fun _ => ⟨rfl, rfl⟩
      exact .of_same (fun j => (hsame j).1) fun j => (hsame j).2
    · exact absurd hw (err_ne_ok _ _)
  | _ => exact absurd rfl hadmin

end Pool

/-! ## Runs -/

/-- A new pool has no rewards. -/
lemma Initialized.rewardsInOrder {w : Whirlpool} (h : Initialized w) : w.RewardsInOrder := by
  obtain ⟨-, config, protocolRate, authority, spacing, price, rate, mintA, mintB, h⟩ := h
  obtain ⟨-, -, -, -, tick, -, rfl⟩ := Whirlpool.initializeWhirlpool_eq_ok.1 h
  intro i j _ hj
  exact absurd hj Bool.false_ne_true

/-- The rewards of a pool with its rewards in order, in a run. -/
lemma Reachable.run_rewards {pool : Pool} (h : Reachable pool)
    (hin : pool.whirlpool.RewardsInOrder) (ops : List PoolOp) :
    (pool.run ops).whirlpool.RewardsInOrder ∧
      ∀ i, (pool.whirlpool.rewardInfos i).initialized = true →
        ((pool.run ops).whirlpool.rewardInfos i).initialized = true ∧
        ((pool.run ops).whirlpool.rewardInfos i).mint = (pool.whirlpool.rewardInfos i).mint ∧
        ((pool.run ops).whirlpool.rewardInfos i).vault = (pool.whirlpool.rewardInfos i).vault := by
  induction ops generalizing pool with
  | nil => exact ⟨hin, fun i hi => ⟨hi, rfl, rfl⟩⟩
  | cons op ops ih =>
    rcases pool.run_cons op ops with ⟨-, hrun⟩ | ⟨pool₁, hstep, -, hrun⟩
    · rw [hrun]
      exact ih h hin
    · rw [hrun]
      obtain ⟨s, rfl, hs⟩ := h.invariant
      have hext := Pool.step_rewards hs.sound hs.backed hstep
      obtain ⟨hin', hkept⟩ := ih (h.step hstep) (hext.inOrder hin)
      refine ⟨hin', fun i hi => ?_⟩
      obtain ⟨hi', hmint, hvault⟩ := hkept i (hext.initialized hi)
      exact ⟨hi', hmint.trans (hext.mint i hi), hvault.trans (hext.vault i hi)⟩

/-- **The rewards of a pool in a run.** In a reachable pool the initialized rewards come first, and
`initialize_reward` succeeds exactly for the first of the others. In every run that follows, an
initialized reward stays initialized and keeps its mint and its vault.

**Proof sketch.** The order of the rewards is an invariant, by `run_rewards` from a new pool, which
has none. The equivalence is `initializeReward_eq_ok`, and the last part `run_rewards` from the
pool. -/
theorem Reachable.rewards_kept {pool : Pool} (h : Reachable pool) (ops : List PoolOp) :
    pool.whirlpool.RewardsInOrder ∧
      (∀ index mint vault, (∃ pool', pool.step (.initializeReward index mint vault) = .ok pool') ↔
        index < numRewards ∧
          ∀ i, (pool.whirlpool.rewardInfos i).initialized = true ↔ i.val < index) ∧
      ∀ i, (pool.whirlpool.rewardInfos i).initialized = true →
        ((pool.run ops).whirlpool.rewardInfos i).initialized = true ∧
        ((pool.run ops).whirlpool.rewardInfos i).mint = (pool.whirlpool.rewardInfos i).mint ∧
        ((pool.run ops).whirlpool.rewardInfos i).vault = (pool.whirlpool.rewardInfos i).vault := by
  have hin : pool.whirlpool.RewardsInOrder := by
    obtain ⟨w, before, hw, rfl⟩ := h
    exact (Reachable.run_rewards ⟨w, [], hw, rfl⟩ hw.rewardsInOrder before).1
  refine ⟨hin, fun index mint vault => ?_, (h.run_rewards hin ops).2⟩
  change (∃ pool', pool.initializeReward index mint vault = .ok pool') ↔ _
  unfold Pool.initializeReward
  simp only [Res.bind_eq_ok, Whirlpool.initializeReward_eq_ok, Res.pure_eq_ok, Except.ok.injEq]
  constructor
  · rintro ⟨_, w, ⟨i, rfl, hlowest, -⟩, -⟩
    obtain ⟨hnew, hbefore⟩ := Whirlpool.lowestUninitialized_eq_some.1 hlowest
    refine ⟨i.isLt, fun j => ⟨fun hj => ?_, fun hj => hbefore j hj⟩⟩
    by_contra hle
    have hi := hin i j (not_lt.1 hle) hj
    rw [hnew] at hi
    exact absurd hi Bool.false_ne_true
  · rintro ⟨hlt, hall⟩
    refine ⟨_, _, ⟨⟨index, hlt⟩, rfl, Whirlpool.lowestUninitialized_eq_some.2 ⟨?_, fun j hj => ?_⟩,
      rfl⟩, rfl⟩
    · have hself := (hall ⟨index, hlt⟩).not.2 (lt_irrefl _)
      simpa using hself
    · exact (hall j).2 hj

/-- The sample pool with one reward. -/
def sampleRewarded : Pool := samplePool.next (.initializeReward 0 7 8)

/-- The second reward can be initialized, and the first one keeps its vault when it is asked for
again. -/
theorem Reachable.rewards_kept_sampleRewarded :
    (∃ pool', sampleRewarded.step (.initializeReward 1 9 10) = .ok pool') ∧
      ((sampleRewarded.run [.initializeReward 1 9 10, .initializeReward 0 11 12]).whirlpool.rewardInfos
        0).vault = 8 := by
  have hreachable : Reachable sampleRewarded :=
    samplePool_reachable.step (Pool.step_eq_next (by decide +kernel))
  obtain ⟨-, hnext, hkept⟩ :=
    hreachable.rewards_kept [.initializeReward 1 9 10, .initializeReward 0 11 12]
  refine ⟨(hnext 1 9 10).2 (by decide +kernel), ?_⟩
  rw [(hkept 0 (by decide +kernel)).2.2]
  decide +kernel

end NemoSwap
