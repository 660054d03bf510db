import NemoSwap.Pool.History

set_option relaxedAutoImplicit false
set_option autoImplicit false

/-!
# Growth inside a range, and rewards

The growth inside a range whose two ticks stay initialized increases by exactly the increments of
the global growth that were made while the current tick was in the range. Weighted with liquidity
and summed over the positions these increments are what a reward has emitted, so no more can be
credited.

## Main definitions

* `NemoSwap.Pool.growthsInside` — what the source computes for a range of ticks.

## Main results

* `NemoSwap.growth_inside_run` — the growth inside a range is the growth made in range.
* `NemoSwap.growth_inside_uninitialized` — a tick that is emptied forgets its growth.
* `NemoSwap.rewards_le_emissions` — what is credited of a reward was emitted.
-/

namespace NemoSwap

namespace Pool

variable {pool pool' : Pool} {earned : Earnings} {op : PoolOp} {key : Pubkey} {lo hi : ℤ}

/-! ## What the source computes -/

/-- What `next_fee_growths_inside` and `next_reward_growths_inside` return for a range. -/
def growthsInside (pool : Pool) (lo hi : ℤ) : Channel → Growth
  | .fee .A => (nextFeeGrowthsInside pool.whirlpool.tickCurrentIndex (pool.ticks lo) lo
      (pool.ticks hi) hi pool.whirlpool.feeGrowthGlobalA pool.whirlpool.feeGrowthGlobalB).1
  | .fee .B => (nextFeeGrowthsInside pool.whirlpool.tickCurrentIndex (pool.ticks lo) lo
      (pool.ticks hi) hi pool.whirlpool.feeGrowthGlobalA pool.whirlpool.feeGrowthGlobalB).2
  | .reward i => nextRewardGrowthsInside pool.whirlpool.tickCurrentIndex (pool.ticks lo) lo
      (pool.ticks hi) hi pool.whirlpool.rewardInfos i

/-- In a sound pool the growths that the program computes for a range are those inside it. -/
lemma Sound.growthsInside_eq (hs : pool.Sound earned) (lo hi : ℤ) (ch : Channel) :
    pool.growthsInside lo hi ch = pool.inside ch lo hi := by
  have hfee := pool.nextFeeGrowthsInside_eq lo hi
  rcases ch with X | i
  · cases X
    · exact congrArg Prod.fst hfee
    · exact congrArg Prod.snd hfee
  · exact congrFun (pool.nextRewardGrowthsInside_eq hs.rewardsBlank lo hi) i

/-! ## Changes of liquidity -/

/-- **A change of liquidity leaves the growth inside every range as it is none of whose ends it
empties**, also where it initializes one.

**Proof sketch.** The growth below a tick that is initialized afterwards is kept, also where the
change has initialized it. A tick that is not initialized afterwards was not before, and has no
growth below it in both. -/
theorem Resized.inside_of_kept (hs : pool.Sound earned) {delta : ℤ}
    (h : Resized pool pool' key delta) (ch : Channel)
    (hlo : (pool.ticks lo).initialized = true → (pool'.ticks lo).initialized = true)
    (hhi : (pool.ticks hi).initialized = true → (pool'.ticks hi).initialized = true) :
    pool'.inside ch lo hi = pool.inside ch lo hi := by
  obtain ⟨h1, h2, -⟩ := h.whirlpool_eq
  have hbelow : ∀ t, ((pool.ticks t).initialized = true → (pool'.ticks t).initialized = true) →
      Outside.below (pool'.ticks t).initialized ((pool'.ticks t).growthOutside ch)
          (pool.whirlpool.growthGlobal ch) pool.whirlpool.tickCurrentIndex t =
        Outside.below (pool.ticks t).initialized ((pool.ticks t).growthOutside ch)
          (pool.whirlpool.growthGlobal ch) pool.whirlpool.tickCurrentIndex t := fun t ht => by
    cases h' : (pool'.ticks t).initialized with
    | true =>
      rw [← h']
      exact h.below hs ch h'
    | false =>
      -- a tick without liquidity before and after
      cases h0 : (pool.ticks t).initialized with
      | true => exact absurd ((ht h0).symm.trans h') (by simp)
      | false => rfl
  unfold Pool.inside rangeInside
  rw [h1, h2, hbelow lo hlo, hbelow hi hhi]

/-- What a change of liquidity does to the growth inside a range, compared with the growth at the
time of the instruction. -/
theorem Updated.growthsInside (hs : pool.Sound earned)
    {infos : Fin numRewards → WhirlpoolRewardInfo} {timestamp : ℕ} {delta : ℤ}
    (h : Updated pool pool' key infos timestamp delta) (ch : Channel)
    (hlo : (pool.ticks lo).initialized = true → (pool'.ticks lo).initialized = true)
    (hhi : (pool.ticks hi).initialized = true → (pool'.ticks hi).initialized = true) :
    pool'.growthsInside lo hi ch = (pool.accrue infos timestamp).growthsInside lo hi ch := by
  have hacc := hs.accrue h.rewards
  rw [(h.sound hs).growthsInside_eq, hacc.growthsInside_eq]
  exact h.resized.inside_of_kept (hacc.settle key) ch hlo hhi

/-! ## One instruction -/

/-- **An instruction adds what it logs to the growth inside a range**, if the ticks of the range
are initialized before and after.

**Proof sketch.** By the effect of the instruction. A quiet step and one for another position do not
change the growth; an update adds the rewards, and a trade the rewards and the fees that it logs. -/
theorem inside_step (hs : pool.Sound earned) (hb : pool.Backed earned)
    (h : pool.step op = .ok pool') (hle : lo ≤ hi) (hlo : (pool.ticks lo).initialized = true)
    (hhi : (pool.ticks hi).initialized = true) (hlo' : (pool'.ticks lo).initialized = true)
    (hhi' : (pool'.ticks hi).initialized = true) (ch : Channel) :
    pool'.inside ch lo hi = pool.inside ch lo hi +
      BitVec.ofNat 128 (Outside.recorded (pool.growthLog op ch) lo hi) := by
  have hquiet : ∀ {pool pool' : Pool}, pool.Quiet pool' →
      pool'.inside ch lo hi = pool.inside ch lo hi := fun hq => by
    unfold inside
    rw [hq.ticks, hq.growthGlobal, hq.tickCurrentIndex]
  rcases step_effect hs hb h with ⟨hclock, -, -, hq⟩ |
    ⟨clock, infos, timestamp, hclock, ht, -, htrade, hr, hq⟩ |
    ⟨clock, key, infos, timestamp, delta, hclock, ht, -, htrade, hu⟩ |
    ⟨clock, args, infos, timestamp, t, hclock, ht, -, htrade, htr⟩
  · have hlog : pool.growthLog op = fun _ _ => 0 := by
      unfold growthLog
      rw [accrual_none hclock]
    rw [hlog, hquiet hq]
    simp
  · rw [growthLog_of_accrual (accrual_some hclock ht hr) htrade, hquiet hq,
      pool.inside_accrue infos timestamp ch hle hlo hhi]
  · rw [growthLog_of_accrual (accrual_some hclock ht hu.rewards) htrade,
      ← pool.inside_accrue infos timestamp ch hle hlo hhi]
    exact hu.resized.inside ((hs.accrue hu.rewards).settle key) ch hlo' hhi'
  · rw [growthLog_of_trade (accrual_some hclock ht htr.rewards) htrade htr.observed]
    exact htr.inside ch hle hlo hhi

/-! ## Rewards owed -/

/-- What a position is owed of a reward. -/
def rewardOwed (pool : Pool) (key : Pubkey) (i : Fin numRewards) : ℕ :=
  ((pool.position key).rewardInfos i).amountOwed

/-- An update adds the credit of a reward to what its position is owed, and nothing to what
another is owed.

**Proof sketch.** What is stored of the position is its settlement with another liquidity, and
settling adds the credit. -/
theorem Updated.rewardOwed {infos : Fin numRewards → WhirlpoolRewardInfo} {timestamp : ℕ}
    {delta : ℤ} (h : Updated pool pool' key infos timestamp delta) (hupd : op.updated = some key)
    (i : Fin numRewards) :
    pool'.rewardOwed key i = wrappingAdd 64 (pool.rewardOwed key i) (pool.credit op pool' i) ∧
      ∀ k, k ≠ key → pool'.rewardOwed k i = pool.rewardOwed k i := by
  have hpos := h.resized.position
  unfold Pool.settle at hpos
  refine ⟨?_, fun k hne => ?_⟩
  · have hkey := congrFun hpos key
    rw [Function.update_self, setPosition_self] at hkey
    unfold Pool.rewardOwed credit
    rw [hupd]
    simp only
    rw [hkey]
    rfl
  · have hk := congrFun hpos k
    rw [Function.update_of_ne hne, setPosition_of_ne _ _ hne] at hk
    unfold Pool.rewardOwed
    rw [hk]
    rfl

/-- A handler that computes a new record changes no position. -/
lemma position_setRecord {x : Res Whirlpool}
    (h : (x >>= fun whirlpool => pure { pool with whirlpool }) = .ok pool') :
    pool'.position = pool.position := by
  rw [Res.bind_eq_ok] at h
  obtain ⟨w, -, h⟩ := h
  obtain rfl := Except.ok.inj h
  rfl

/-- Without an update no position is owed more of a reward than before.

**Proof sketch.** One case for each instruction. Most do not touch what positions are owed, a new
position is owed nothing, and collecting a reward only takes from it. -/
theorem rewardOwed_le (hs : pool.Sound earned) (hb : pool.Backed earned) (hupd : op.updated = none)
    (h : pool.step op = .ok pool') (k : Pubkey) (i : Fin numRewards) :
    pool'.rewardOwed k i ≤ pool.rewardOwed k i := by
  have hsame : ∀ {pool' : Pool}, pool'.position = pool.position →
      pool'.rewardOwed k i ≤ pool.rewardOwed k i := fun he => by
    unfold rewardOwed
    rw [he]
  have hset : ∀ {pool' : Pool} {key : Pubkey} {position : Position},
      pool'.position = (pool.setPosition key position).position →
      (position.rewardInfos i).amountOwed ≤ pool.rewardOwed key i →
      pool'.rewardOwed k i ≤ pool.rewardOwed k i := fun {pool' key position} he hle => by
    unfold rewardOwed at hle ⊢
    rw [he]
    rcases eq_or_ne k key with rfl | hne
    · rwa [setPosition_self]
    · rw [setPosition_of_ne _ _ hne]
  cases op with
  | openPosition key mint lo hi =>
    change pool.openPosition key mint lo hi = .ok pool' at h
    unfold Pool.openPosition at h
    split_ifs at h
    simp only [Res.bind_eq_ok] at h
    obtain ⟨-, -, position, hp, h⟩ := h
    obtain ⟨-, -, -, rfl⟩ := Position.openPosition_eq_ok hs.spacing hp
    rw [Res.pure_eq_ok, Except.ok.injEq] at h
    subst h
    exact hset rfl (Nat.zero_le _)
  | closePosition key auth =>
    change pool.closePosition key auth = .ok pool' at h
    obtain ⟨_, -, -, -, -, rfl⟩ := closePosition_eq_ok.1 h
    exact hsame rfl
  | collectFees key auth funds =>
    change pool.collectFees key auth funds = .ok pool' at h
    unfold Pool.collectFees at h
    simp only [Res.bind_eq_ok] at h
    obtain ⟨position, hp, vaultA, -, vaultB, -, h⟩ := h
    obtain ⟨-, rfl⟩ := getOwnedPosition_eq_ok hp
    obtain rfl := Except.ok.inj h
    exact hset rfl le_rfl
  | collectProtocolFees funds =>
    change pool.collectProtocolFees funds = .ok pool' at h
    unfold Pool.collectProtocolFees at h
    simp only [Res.bind_eq_ok] at h
    obtain ⟨vaultA, -, vaultB, -, h⟩ := h
    obtain rfl := Except.ok.inj h
    exact hsame rfl
  | collectReward key auth index vault owner =>
    change pool.collectReward key auth index vault owner = .ok pool' at h
    unfold Pool.collectReward at h
    rw [Res.bind_eq_ok] at h
    obtain ⟨position, hp, h⟩ := h
    obtain ⟨-, rfl⟩ := getOwnedPosition_eq_ok hp
    split_ifs at h with hi hv
    rw [Res.bind_eq_ok] at h
    obtain ⟨-, -, h⟩ := h
    obtain rfl := Except.ok.inj h
    refine hset rfl ?_
    unfold Pool.rewardOwed Position.updateRewardOwed calculateCollectReward
    rcases eq_or_ne i ⟨index, hi⟩ with rfl | hne
    · simp only [Function.update_self]
      split_ifs
      · exact Nat.sub_le _ _
      · exact Nat.zero_le _
    · simp only [Function.update_of_ne hne]
      exact le_rfl
  | swap args threshold clock funds =>
    obtain ⟨infos, timestamp, t, -, htr⟩ := swapLeg_eq_ok hs hb (swapHandler_eq_ok h).2
    exact hsame htr.position
  | twoHopLeg args clock funds =>
    obtain ⟨infos, timestamp, t, -, htr⟩ := swapLeg_eq_ok hs hb h
    exact hsame htr.position
  | initializeTickArray start =>
    change pool.initializeTickArray start = .ok pool' at h
    unfold Pool.initializeTickArray at h
    split_ifs at h
    rw [Res.bind_eq_ok] at h
    obtain ⟨array, -, h⟩ := h
    obtain rfl := Except.ok.inj h
    exact hsame rfl
  | setFeeRate rate => exact hsame (position_setRecord h)
  | setProtocolFeeRate rate => exact hsame (position_setRecord h)
  | setEnableFlag flag =>
    obtain rfl := Except.ok.inj h
    exact hsame rfl
  | initializeReward index mint vault => exact hsame (position_setRecord h)
  | setRewardAuthority index authority => exact hsame (position_setRecord h)
  | setRewardEmissions index emissions vault clock =>
    change pool.setRewardEmissions index emissions vault clock = .ok pool' at h
    unfold Pool.setRewardEmissions at h
    split_ifs at h with hi hv
    rw [Res.bind_eq_ok] at h
    obtain ⟨perDay, -, h⟩ := h
    rw [ite_err_eq_ok] at h
    simp only [Res.bind_eq_ok] at h
    obtain ⟨-, timestamp, -, infos, -, w, -, h⟩ := h
    obtain rfl := Except.ok.inj h
    exact hsame rfl
  | increaseLiquidity => cases hupd
  | decreaseLiquidity => cases hupd
  | updateFeesAndRewards => cases hupd

end Pool

/-! ## Runs -/

namespace History

variable {s : History} {lo hi : ℤ}

/-- The growth inside a range and the logged growth after one instruction. -/
lemma Invariant.inside_next (h : s.Invariant) (op : PoolOp) (hle : lo ≤ hi)
    (hlo : (s.pool.ticks lo).initialized = true) (hhi : (s.pool.ticks hi).initialized = true)
    (hlo' : ((s.next op).pool.ticks lo).initialized = true)
    (hhi' : ((s.next op).pool.ticks hi).initialized = true) (ch : Channel) :
    ∃ x, Outside.recorded ((s.next op).grown ch) lo hi = Outside.recorded (s.grown ch) lo hi + x ∧
      (s.next op).pool.inside ch lo hi = s.pool.inside ch lo hi + BitVec.ofNat 128 x := by
  rcases hstep : s.pool.step op with e | pool'
  · have hnext : s.next op = s := by
      unfold History.next
      rw [hstep]
    rw [hnext]
    exact ⟨0, rfl, (add_zero _).symm⟩
  · have hnext : s.next op = s.extend op pool' := by
      unfold History.next
      rw [hstep]
    rw [hnext] at hlo' hhi' ⊢
    exact ⟨Outside.recorded (s.pool.growthLog op ch) lo hi, Outside.recorded_add _ _ lo hi,
      Pool.inside_step h.sound h.backed hstep hle hlo hhi hlo' hhi' ch⟩

/-- **The growth inside a range and the logged growth after a run** that keeps the ticks of the
range initialized. -/
theorem Invariant.inside_run (hle : lo ≤ hi) (ch : Channel) : ∀ (ops : List PoolOp) {s : History},
    s.Invariant →
    (∀ mid, mid <+: ops → ((s.run mid).pool.ticks lo).initialized = true ∧
      ((s.run mid).pool.ticks hi).initialized = true) →
    ∃ x, Outside.recorded ((s.run ops).grown ch) lo hi = Outside.recorded (s.grown ch) lo hi + x ∧
      (s.run ops).pool.inside ch lo hi = s.pool.inside ch lo hi + BitVec.ofNat 128 x
  | [], _, _, _ => ⟨0, rfl, (add_zero _).symm⟩
  | op :: ops, s, h, hinit => by
    obtain ⟨hlo, hhi⟩ := hinit [] List.nil_prefix
    obtain ⟨hlo', hhi'⟩ := hinit [op] (List.prefix_append [op] ops)
    obtain ⟨x, hx, hinside⟩ := h.inside_next op hle hlo hhi hlo' hhi' ch
    obtain ⟨y, hy, hinside'⟩ := Invariant.inside_run hle ch ops (h.next op) fun mid hmid =>
      hinit (op :: mid) (List.cons_prefix_cons.2 ⟨rfl, hmid⟩)
    refine ⟨x + y, ?_, ?_⟩
    · change Outside.recorded (((s.next op).run ops).grown ch) lo hi = _
      rw [hy, hx, add_assoc]
    · change ((s.next op).run ops).pool.inside ch lo hi = _
      rw [hinside', hinside, BitVec.ofNat_add, add_assoc]

end History

/-- **Growth inside is the growth made in range.** From any point of a run on, as long as both ticks
of a range stay initialized, the growths inside it increase by exactly the increments of the global
growths that were made while the current tick was in the range. And at a change of liquidity the
growth inside a range does not change, if the change empties none of its ends, also where it
initializes one.

**Proof sketch.** The first part is `inside_run` for the history of the run, whose state has the
growth of the pool. The second part is about the update of one position, which keeps the growth
inside by `growthsInside`. -/
theorem growth_inside_run {w : Whirlpool} (hw : Initialized w) (ops : List PoolOp) {lo hi : ℤ}
    (hle : lo ≤ hi) (ch : Channel) :
    (∀ more, (∀ mid, mid <+: more →
        (((Pool.new w).run (ops ++ mid)).ticks lo).initialized = true ∧
          (((Pool.new w).run (ops ++ mid)).ticks hi).initialized = true) →
      Outside.recorded (((History.new w).run ops).grown ch) lo hi ≤
          Outside.recorded (((History.new w).run (ops ++ more)).grown ch) lo hi ∧
        ((Pool.new w).run (ops ++ more)).growthsInside lo hi ch -
            ((Pool.new w).run ops).growthsInside lo hi ch =
          BitVec.ofNat 128 (Outside.recorded (((History.new w).run (ops ++ more)).grown ch) lo hi -
            Outside.recorded (((History.new w).run ops).grown ch) lo hi)) ∧
    ∀ op key pool', op.updated = some key → ((Pool.new w).run ops).step op = .ok pool' →
      ∃ infos timestamp, ((Pool.new w).run ops).accrual op = some (infos, timestamp) ∧
        (((((Pool.new w).run ops).ticks lo).initialized = true →
            (pool'.ticks lo).initialized = true) →
          ((((Pool.new w).run ops).ticks hi).initialized = true →
            (pool'.ticks hi).initialized = true) →
          pool'.growthsInside lo hi ch =
            (((Pool.new w).run ops).accrue infos timestamp).growthsInside lo hi ch) := by
  have hpool : ∀ ops, ((History.new w).run ops).pool = (Pool.new w).run ops := fun ops =>
    History.run_pool ops (History.new w)
  have happend : ∀ mid, (History.new w).run (ops ++ mid) = ((History.new w).run ops).run mid :=
    fun mid => List.foldl_append
  have hinv := (History.new_invariant hw).run ops
  refine ⟨fun more hinit => ?_, fun op key pool' hupd hstep => ?_⟩
  · have hinit' : ∀ mid, mid <+: more →
        ((((History.new w).run ops).run mid).pool.ticks lo).initialized = true ∧
          ((((History.new w).run ops).run mid).pool.ticks hi).initialized = true := fun mid hmid => by
      rw [← happend, hpool]
      exact hinit mid hmid
    obtain ⟨x, hx, hinside⟩ := History.Invariant.inside_run hle ch more hinv hinit'
    have hinv' := hinv.run more
    rw [← hpool, ← hpool, hinv.sound.growthsInside_eq, happend, hinv'.sound.growthsInside_eq, hx,
      hinside, Nat.add_sub_cancel_left, add_sub_cancel_left]
    exact ⟨Nat.le_add_right _ _, rfl⟩
  · rw [← hpool] at hstep ⊢
    obtain ⟨clock, infos, timestamp, delta, hclock, ht, hu⟩ :=
      Pool.step_updated hinv.sound hinv.backed hupd hstep
    exact ⟨infos, timestamp, Pool.accrual_some hclock ht hu.rewards, fun hlo hhi =>
      hu.growthsInside hinv.sound ch hlo hhi⟩

/-- A swap in the sample run adds its fees to the growth inside the range of the position. -/
theorem growth_inside_run_sampleSwap :
    ((Pool.new sampleRecord).run (sampleOps ++ [sampleSwap])).growthsInside (-128) 128 (.fee .A) -
        ((Pool.new sampleRecord).run sampleOps).growthsInside (-128) 128 (.fee .A) =
      BitVec.ofNat 128 (Outside.recorded
        (((History.new sampleRecord).run (sampleOps ++ [sampleSwap])).grown (.fee .A)) (-128) 128 -
          Outside.recorded (((History.new sampleRecord).run sampleOps).grown (.fee .A))
            (-128) 128) := by
  refine ((growth_inside_run sampleRecord_initialized sampleOps (by decide) (.fee .A)).1
    [sampleSwap] fun mid hmid => ?_).2
  rcases List.prefix_concat_iff.1 (show mid <+: [] ++ [sampleSwap] from hmid) with rfl | hnil
  · exact ⟨by decide +kernel, by decide +kernel⟩
  · rw [List.prefix_nil.1 hnil]
    exact ⟨by decide +kernel, by decide +kernel⟩

/-- The sample position is emptied. -/
def sampleWithdrawal : PoolOp :=
  .decreaseLiquidity 1 sampleAuth (-5632) 0 1000000000 0 0 5 sampleFunds

/-- **A tick that is emptied forgets its growth**: the withdrawal of the only position on a range
un-initializes both ticks, and changes the growth inside. -/
theorem growth_inside_uninitialized :
    (((Pool.new sampleRecord).run (sampleOps ++ [sampleSwap])).step sampleWithdrawal).map
        (fun pool' => ((pool'.ticks (-128)).initialized, (pool'.ticks 128).initialized,
          pool'.growthsInside (-128) 128 (.fee .A))) = .ok (false, false, 0) ∧
      (((Pool.new sampleRecord).run (sampleOps ++ [sampleSwap])).ticks (-128)).initialized = true ∧
      (((Pool.new sampleRecord).run (sampleOps ++ [sampleSwap])).ticks 128).initialized = true ∧
      ((Pool.new sampleRecord).run (sampleOps ++ [sampleSwap])).growthsInside (-128) 128 (.fee .A) =
        5368002525449 :=
  ⟨by decide +kernel, by decide +kernel, by decide +kernel, by decide +kernel⟩

/-- **Rewards never exceed emissions.** After every run the total credited of a reward is at most
what it has emitted while the pool had liquidity, rounded down. What is credited is what an update
adds to the amounts owed to positions, and no other instruction adds to them.

**Proof sketch.** The bound on what has been credited is part of the invariant of a history, and is
an integer, so it may be rounded down. An update credits what the history counts, and the other
instructions credit nothing by `rewardOwed_le`. -/
theorem rewards_le_emissions {w : Whirlpool} (hw : Initialized w) (ops : List PoolOp)
    (i : Fin numRewards) :
    ((History.new w).run ops).credited i ≤ ((History.new w).run ops).emitted i / 2 ^ 64 ∧
    ∀ op pool', ((Pool.new w).run ops).step op = .ok pool' → ∀ k,
      (op.updated = some k → pool'.rewardOwed k i =
        wrappingAdd 64 (((Pool.new w).run ops).rewardOwed k i)
          (((Pool.new w).run ops).credit op pool' i)) ∧
      (op.updated ≠ some k → pool'.rewardOwed k i ≤ ((Pool.new w).run ops).rewardOwed k i) := by
  have hinv := (History.new_invariant hw).run ops
  have hpool : ((History.new w).run ops).pool = (Pool.new w).run ops :=
    History.run_pool ops (History.new w)
  refine ⟨?_, fun op pool' hstep k => ?_⟩
  · have hle := hinv.rewards i
    have hearned := ((History.new w).run ops).pool.ranges.total_nonneg
      (w := fun k => (((History.new w).run ops).earned k (.reward i) : ℚ))
      fun _ _ => Nat.cast_nonneg _
    rw [Nat.le_div_iff_mul_le (by positivity)]
    have hcast : ((((History.new w).run ops).credited i * 2 ^ 64 : ℕ) : ℚ) ≤
        ((History.new w).run ops).emitted i := by
      push_cast
      linarith
    exact_mod_cast hcast
  · rw [← hpool] at hstep ⊢
    rcases hupd : op.updated with _ | key
    · exact ⟨fun h => (nomatch h),
        fun _ => Pool.rewardOwed_le hinv.sound hinv.backed hupd hstep k i⟩
    · obtain ⟨-, infos, timestamp, delta, -, -, hu⟩ :=
        Pool.step_updated hinv.sound hinv.backed hupd hstep
      obtain ⟨hkey, hother⟩ := hu.rewardOwed hupd i
      refine ⟨fun h => ?_, fun h => (hother k fun he => h (he ▸ rfl)).le⟩
      rw [Option.some.injEq] at h
      subst h
      exact hkey

/-- A reward of ten units per second in the sample pool, and an update a hundred seconds later. -/
def sampleRewardOps : List PoolOp :=
  sampleOps ++ [.initializeReward 0 7 8, .setRewardEmissions 0 (10 * 2 ^ 64) 1000000 0,
    .updateFeesAndRewards 1 (-5632) 0 100]

/-- The sample position is credited with 999 of the 1000 units that the reward has emitted. -/
theorem rewards_le_emissions_sample :
    ((History.new sampleRecord).run sampleRewardOps).credited 0 = 999 ∧
      ((History.new sampleRecord).run sampleRewardOps).emitted 0 / 2 ^ 64 = 1000 ∧
      ((History.new sampleRecord).run sampleRewardOps).credited 0 ≤
        ((History.new sampleRecord).run sampleRewardOps).emitted 0 / 2 ^ 64 :=
  ⟨by decide +kernel, by decide +kernel,
    (rewards_le_emissions sampleRecord_initialized sampleRewardOps 0).1⟩

end NemoSwap
