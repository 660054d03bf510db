import NemoSwap.Pool.Invariant

set_option relaxedAutoImplicit false
set_option autoImplicit false

/-!
# Accruing rewards and settling positions

The two elementary steps that instructions begin with. Accruing lets the rewards grow up to the
current time. Settling credits a position with what it has earned and moves its checkpoints. Both
keep the invariant of the pool, and neither adds to its obligations.

## Main definitions

* `NemoSwap.Pool.accrue`, `NemoSwap.Pool.rewardLog` — rewards grow, and the log of their growth.
* `NemoSwap.Earnings.add` — earnings after the growth of a log.
* `NemoSwap.Position.settle`, `NemoSwap.Pool.settle` — a position is credited.

## Main results

* `NemoSwap.Pool.Sound.accrue`, `NemoSwap.Pool.Sound.settle` — the invariant is kept.
* `NemoSwap.Pool.obligations_settle_le` — settling only turns earned fees into owed fees.
* `NemoSwap.nextPositionModifyLiquidityUpdate_eq_ok` — the source's update of a position settles
  it and changes its liquidity.
-/

namespace NemoSwap

/-! ## Amounts -/

/-- A credit is at most the exact amount. -/
lemma owedDelta_mul_le (l : ℕ) (x : Growth) : owedDelta l x * 2 ^ 64 ≤ l * x.toNat := by
  unfold owedDelta
  split
  · next amount h =>
    obtain ⟨-, rfl⟩ := checkedMulShiftRightRoundUpIf_eq_ok.1 h
    exact roundDiv_false_mul_le _ _
  · simp

/-- Without an overflow of the product a credit is the exact amount, rounded down, and the
default for failures is not used. -/
theorem owedDelta_of_lt {l : ℕ} {x : Growth} (h : l * x.toNat < 2 ^ 128) :
    checkedMulShiftRight l x.toNat = .ok (l * x.toNat / 2 ^ 64) ∧
      owedDelta l x = l * x.toNat / 2 ^ 64 := by
  have hok : checkedMulShiftRight l x.toNat = .ok (l * x.toNat / 2 ^ 64) := by
    refine checkedMulShiftRightRoundUpIf_eq_ok.2 ?_
    rw [roundDiv_false]
    exact ⟨by omega, rfl⟩
  refine ⟨hok, ?_⟩
  unfold owedDelta
  rw [hok]

/-- Without growth there is no credit. -/
@[simp] lemma owedDelta_zero (l : ℕ) : owedDelta l 0 = 0 := by
  rw [(owedDelta_of_lt (by simp)).2]
  simp

/-- Without liquidity there is no credit. -/
@[simp] lemma owedDelta_zero_left (x : Growth) : owedDelta 0 x = 0 := by
  rw [(owedDelta_of_lt (by simp)).2]
  simp

/-- The growth of a reward over a time, times the liquidity, is at most what was emitted. -/
lemma rewardGrowthDelta_mul_le (dt emissions l : ℕ) :
    rewardGrowthDelta dt emissions l * l ≤ dt * emissions ∧
      rewardGrowthDelta dt emissions l < 2 ^ 128 := by
  unfold rewardGrowthDelta
  split
  · next growth h =>
    obtain ⟨-, hlt, rfl⟩ := checkedMulDivRoundUpIf_eq_ok.1 h
    rw [roundDiv_false]
    exact ⟨Nat.div_mul_le_self _ _, lt_of_le_of_lt (Nat.div_le_self _ _) hlt⟩
  · simp

/-- **The inversion of `next_whirlpool_reward_infos`.**

**Proof sketch.** By whether the reward is initialized. If so, its growth is what is emitted in the
time that has passed, divided by the liquidity; if the division fails to fit, or without liquidity
or time, it does not grow. -/
theorem nextWhirlpoolRewardInfos_eq_ok {w : Whirlpool} {timestamp : ℕ}
    {infos : Fin numRewards → WhirlpoolRewardInfo}
    (h : nextWhirlpoolRewardInfos w timestamp = .ok infos) :
    w.rewardLastUpdatedTimestamp ≤ timestamp ∧ ∀ i,
      (infos i).initialized = (w.rewardInfos i).initialized ∧
      (infos i).emissionsPerSecondX64 = (w.rewardInfos i).emissionsPerSecondX64 ∧
      ((infos i).growthGlobalX64 - (w.rewardInfos i).growthGlobalX64).toNat * w.liquidity ≤
        (timestamp - w.rewardLastUpdatedTimestamp) * (w.rewardInfos i).emissionsPerSecondX64 ∧
      ((w.rewardInfos i).initialized = false ∨ w.liquidity = 0 →
        (infos i).growthGlobalX64 = (w.rewardInfos i).growthGlobalX64) := by
  unfold nextWhirlpoolRewardInfos at h
  simp only at h
  rw [ite_err_eq_ok] at h
  obtain ⟨hle, h⟩ := h
  refine ⟨not_lt.1 hle, fun i => ?_⟩
  split_ifs at h with hz
  · rw [Except.ok.injEq] at h
    subst h
    simp
  · rw [Except.ok.injEq] at h
    subst h
    rw [not_or] at hz
    simp only
    cases hi : (w.rewardInfos i).initialized with
    | false =>
      rw [Bool.not_false, if_pos rfl]
      simp [hi]
    | true =>
      rw [Bool.not_true, if_neg (by simp)]
      obtain ⟨h1, h2⟩ := rewardGrowthDelta_mul_le (timestamp - w.rewardLastUpdatedTimestamp)
        (w.rewardInfos i).emissionsPerSecondX64 w.liquidity
      refine ⟨hi, rfl, ?_, ?_⟩
      · rw [add_sub_cancel_left, BitVec.toNat_ofNat, Nat.mod_eq_of_lt h2]
        exact h1
      · rintro (hf | h0)
        · cases hf
        · exact absurd h0 hz.1

/-! ## Earnings -/

/-- The earnings after the growth of a log. -/
def Earnings.add (earned : Earnings) (pool : Pool) (log : Channel → ℤ → ℕ) : Earnings :=
  fun k ch => earned k ch + Outside.recorded (log ch) (pool.position k).tickLowerIndex
    (pool.position k).tickUpperIndex

/-- The earnings after a position was settled. -/
def Earnings.clear (earned : Earnings) (key : Pubkey) : Earnings :=
  Function.update earned key fun _ => 0

namespace Pool

/-! ## Accruing rewards -/

/-- The rewards have grown up to a time. -/
def accrue (pool : Pool) (infos : Fin numRewards → WhirlpoolRewardInfo) (timestamp : ℕ) : Pool :=
  { pool with whirlpool := pool.whirlpool.updateRewards infos timestamp }

/-- The log of the growth of the rewards: all of it happens at the pool's tick. -/
def rewardLog (pool : Pool) (infos : Fin numRewards → WhirlpoolRewardInfo) : Channel → ℤ → ℕ
  | .fee _ => fun _ => 0
  | .reward i => Outside.record (fun _ => 0) pool.whirlpool.tickCurrentIndex
      ((infos i).growthGlobalX64 - (pool.whirlpool.rewardInfos i).growthGlobalX64).toNat

variable {pool : Pool} {earned : Earnings} {infos : Fin numRewards → WhirlpoolRewardInfo}
  {timestamp : ℕ}

/-- Accruing adds the growth of the rewards to the ranges that contain the pool's tick.

**Proof sketch.** Fees do not accrue. A reward accrues to its global growth, which is an increment
at the tick of the pool, and `inside_grow` says for which ranges it counts. -/
theorem inside_accrue (pool : Pool) (infos : Fin numRewards → WhirlpoolRewardInfo)
    (timestamp : ℕ) (ch : Channel) {lo hi : ℤ} (hle : lo ≤ hi)
    (hlo : (pool.ticks lo).initialized = true) (hhi : (pool.ticks hi).initialized = true) :
    (pool.accrue infos timestamp).inside ch lo hi =
      pool.inside ch lo hi + BitVec.ofNat 128 (Outside.recorded (pool.rewardLog infos ch) lo hi) := by
  change rangeInside pool.ticks ((pool.accrue infos timestamp).whirlpool.growthGlobal ch)
    pool.whirlpool.tickCurrentIndex ch lo hi = _
  unfold inside
  cases ch with
  | fee X =>
    have hg : (pool.accrue infos timestamp).whirlpool.growthGlobal (.fee X) =
        pool.whirlpool.growthGlobal (.fee X) := by cases X <;> rfl
    rw [hg, rewardLog, Outside.recorded_zero]
    simp
  | reward i =>
    have hg : (pool.accrue infos timestamp).whirlpool.growthGlobal (.reward i) =
        pool.whirlpool.growthGlobal (.reward i) +
          ((infos i).growthGlobalX64 - (pool.whirlpool.rewardInfos i).growthGlobalX64) := by
      change (infos i).growthGlobalX64 = (pool.whirlpool.rewardInfos i).growthGlobalX64 + _
      ring
    unfold rangeInside
    rw [hg, hlo, hhi, Outside.inside_grow hle, rewardLog, Outside.recorded_record,
      Outside.recorded_zero, zero_add]
    congr 1
    split_ifs
    · rw [BitVec.ofNat_toNat, BitVec.setWidth_eq]
    · rfl

/-- **Accruing keeps the invariant.**

**Proof sketch.** Only the rewards of the record change. One that is not initialized stays without
growth. The growth inside a range grows by what is logged for it, and this is what its position has
earned in addition. -/
theorem Sound.accrue (h : pool.Sound earned)
    (hinfos : nextWhirlpoolRewardInfos pool.whirlpool timestamp = .ok infos) :
    (pool.accrue infos timestamp).Sound (earned.add pool (pool.rewardLog infos)) := by
  obtain ⟨-, hspec⟩ := nextWhirlpoolRewardInfos_eq_ok hinfos
  refine ⟨h.spacing, h.wellPlaced, h.price, h.feeRate, h.protocolFeeRate, h.liquidity_lt,
    h.position_lt, h.onUsableTicks, h.books, ?_, ?_⟩
  · intro i hi
    obtain ⟨h1, -, -, h4⟩ := hspec i
    change (infos i).initialized = false at hi
    change (infos i).growthGlobalX64 = 0 ∧ _
    rw [h1] at hi
    rw [h4 (Or.inl hi)]
    exact h.rewardsBlank i hi
  · intro k hk h0 ch
    have hle := (h.onUsableTicks k hk).2.2.le
    have hold := h.checkpoints k hk h0 ch
    change (pool.accrue infos timestamp).inside ch (pool.position k).tickLowerIndex
      (pool.position k).tickUpperIndex - (pool.position k).growthCheckpoint ch = _
    rw [pool.inside_accrue infos timestamp ch hle (h.books.lower_initialized hk h0)
      (h.books.upper_initialized hk h0), Earnings.add, BitVec.ofNat_add, ← hold]
    ring

/-- Accruing does not touch the obligations. -/
theorem obligations_accrue (pool : Pool) (earned : Earnings)
    (infos : Fin numRewards → WhirlpoolRewardInfo) (timestamp : ℕ) (X : Token) :
    (pool.accrue infos timestamp).obligations (earned.add pool (pool.rewardLog infos)) X =
      pool.obligations earned X := by
  have hfees : (pool.accrue infos timestamp).feesEarned (earned.add pool (pool.rewardLog infos)) X =
      pool.feesEarned earned X := by
    unfold feesEarned Earnings.add rewardLog
    simp only [Outside.recorded_zero, add_zero]
    rfl
  have hp : (pool.accrue infos timestamp).whirlpool.protocolFeeOwed X =
      pool.whirlpool.protocolFeeOwed X := by cases X <;> rfl
  unfold obligations
  rw [hfees, hp]
  rfl

end Pool

/-! ## Settling a position -/

/-- The position is credited with its earnings, and its checkpoints are moved. -/
def Position.settle (position : Position) (inside : Channel → Growth) : Position :=
  { position with
    feeGrowthCheckpointA := inside (.fee .A)
    feeOwedA := wrappingAdd 64 position.feeOwedA
      (owedDelta position.liquidity (inside (.fee .A) - position.feeGrowthCheckpointA))
    feeGrowthCheckpointB := inside (.fee .B)
    feeOwedB := wrappingAdd 64 position.feeOwedB
      (owedDelta position.liquidity (inside (.fee .B) - position.feeGrowthCheckpointB))
    rewardInfos := fun i =>
      { growthInsideCheckpoint := inside (.reward i)
        amountOwed := wrappingAdd 64 (position.rewardInfos i).amountOwed
          (owedDelta position.liquidity
            (inside (.reward i) - (position.rewardInfos i).growthInsideCheckpoint)) } }

/-- Settling moves the checkpoint to the growth inside the range. -/
lemma Position.settle_growthCheckpoint (position : Position) (inside : Channel → Growth)
    (ch : Channel) : (position.settle inside).growthCheckpoint ch = inside ch := by
  rcases ch with X | i
  · cases X <;> rfl
  · rfl

/-- Settling adds the fees of the growth since the checkpoint. -/
lemma Position.settle_feeOwed (position : Position) (inside : Channel → Growth) (X : Token) :
    (position.settle inside).feeOwed X = wrappingAdd 64 (position.feeOwed X)
      (owedDelta position.liquidity (inside (.fee X) - position.growthCheckpoint (.fee X))) := by
  cases X <;> rfl

/-- **The source's update of a position settles it and changes its liquidity.** -/
theorem nextPositionModifyLiquidityUpdate_eq_ok {position : Position} {delta : ℤ}
    {inside : Channel → Growth} {update : PositionUpdate}
    (h : nextPositionModifyLiquidityUpdate position delta (inside (.fee .A)) (inside (.fee .B))
      (fun i => inside (.reward i)) = .ok update) :
    addLiquidityDelta position.liquidity delta = .ok update.liquidity ∧
      position.update update = { position.settle inside with liquidity := update.liquidity } := by
  unfold nextPositionModifyLiquidityUpdate at h
  simp only [Res.bind_eq_ok, Res.pure_eq_ok, Except.ok.injEq] at h
  obtain ⟨l, hl, rfl⟩ := h
  exact ⟨hl, rfl⟩

namespace Pool

variable {pool : Pool} {earned : Earnings} {key : Pubkey}

/-- The growth inside the range of a position. -/
def insidePosition (pool : Pool) (key : Pubkey) (ch : Channel) : Growth :=
  pool.inside ch (pool.position key).tickLowerIndex (pool.position key).tickUpperIndex

/-- The pool after a position was settled. -/
def settle (pool : Pool) (key : Pubkey) : Pool :=
  pool.setPosition key ((pool.position key).settle (pool.insidePosition key))

/-- A change of a position that keeps its range and liquidity does not change the ranges. -/
theorem ranges_setPosition {position : Position}
    (h1 : position.tickLowerIndex = (pool.position key).tickLowerIndex)
    (h2 : position.tickUpperIndex = (pool.position key).tickUpperIndex)
    (h3 : position.liquidity = (pool.position key).liquidity) :
    (pool.setPosition key position).ranges = pool.ranges := by
  have hfield : ∀ {β : Type} (f : Position → β), f position = f (pool.position key) →
      (fun k => f ((pool.setPosition key position).position k)) =
        fun k => f (pool.position k) := fun f hf => funext fun k => by
    rcases eq_or_ne k key with rfl | hne
    · rw [setPosition_self, hf]
    · rw [setPosition_of_ne _ _ hne]
  unfold ranges
  rw [hfield Position.tickLowerIndex h1, hfield Position.tickUpperIndex h2,
    hfield Position.liquidity h3]
  rfl

/-- Settling leaves the ranges alone. -/
lemma ranges_settle (pool : Pool) (key : Pubkey) : (pool.settle key).ranges = pool.ranges :=
  ranges_setPosition rfl rfl rfl

/-- The fees owed after a change of one position. -/
theorem feesOwed_setPosition (position : Position) (hk : key ∈ pool.positions) (X : Token) :
    (pool.setPosition key position).feesOwed X + (pool.position key).feeOwed X =
      pool.feesOwed X + position.feeOwed X := by
  unfold feesOwed setPosition
  simp only
  rw [← Finset.add_sum_erase _ _ hk, ← Finset.add_sum_erase pool.positions _ hk,
    Function.update_self]
  have hrest : ∑ k ∈ pool.positions.erase key,
      (Function.update pool.position key position k).feeOwed X =
        ∑ k ∈ pool.positions.erase key, (pool.position k).feeOwed X :=
    Finset.sum_congr rfl fun k hk => by rw [Function.update_of_ne (Finset.ne_of_mem_erase hk)]
  rw [hrest]
  ring

/-- **Settling a position keeps the invariant.**

**Proof sketch.** Settling changes only what the position is owed and its checkpoints, and its
earnings are cleared, so they are again the growth since the checkpoint. -/
theorem Sound.settle (h : pool.Sound earned) (key : Pubkey) :
    (pool.settle key).Sound (earned.clear key) := by
  have hpos : ∀ k, ((pool.settle key).position k).tickLowerIndex =
      (pool.position k).tickLowerIndex ∧ ((pool.settle key).position k).tickUpperIndex =
        (pool.position k).tickUpperIndex ∧
      ((pool.settle key).position k).liquidity = (pool.position k).liquidity := fun k => by
    unfold Pool.settle
    rcases eq_or_ne k key with rfl | hne
    · rw [setPosition_self]
      exact ⟨rfl, rfl, rfl⟩
    · rw [setPosition_of_ne _ _ hne]
      exact ⟨rfl, rfl, rfl⟩
  refine ⟨h.spacing, h.wellPlaced, h.price, h.feeRate, h.protocolFeeRate, h.liquidity_lt,
    fun k hk => ?_, fun k hk => ?_, ?_, h.rewardsBlank, fun k hk h0 ch => ?_⟩
  · rw [(hpos k).2.2]
    exact h.position_lt k hk
  · rw [(hpos k).1, (hpos k).2.1]
    exact h.onUsableTicks k hk
  · rw [ranges_settle]
    exact h.books
  · rw [(hpos k).1, (hpos k).2.1]
    rw [(hpos k).2.2] at h0
    change pool.inside ch _ _ - _ = _
    unfold Earnings.clear Pool.settle
    rcases eq_or_ne k key with rfl | hne
    · rw [setPosition_self, Position.settle_growthCheckpoint, insidePosition, sub_self,
        Function.update_self]
      rfl
    · rw [setPosition_of_ne _ _ hne, Function.update_of_ne hne]
      exact h.checkpoints k hk h0 ch

/-- The growth inside a position's range is at most what it has earned. -/
theorem Sound.owedDelta_le (h : pool.Sound earned) (hk : key ∈ pool.positions) (ch : Channel) :
    owedDelta (pool.position key).liquidity
        (pool.insidePosition key ch - (pool.position key).growthCheckpoint ch) * 2 ^ 64 ≤
      (pool.position key).liquidity * earned key ch := by
  rcases eq_or_ne (pool.position key).liquidity 0 with h0 | h0
  · have := owedDelta_mul_le (pool.position key).liquidity
      (pool.insidePosition key ch - (pool.position key).growthCheckpoint ch)
    rw [h0, zero_mul] at this ⊢
    exact this
  · refine (owedDelta_mul_le _ _).trans (Nat.mul_le_mul_left _ ?_)
    rw [insidePosition, h.checkpoints key hk h0 ch, BitVec.toNat_ofNat]
    exact Nat.mod_le _ _

/-- Clearing the earnings of a position in a total. -/
theorem total_clear (hk : key ∈ pool.positions) (ch : Channel) :
    pool.ranges.total (fun k => (earned.clear key k ch : ℚ)) +
        (pool.position key).liquidity * earned key ch =
      pool.ranges.total fun k => (earned k ch : ℚ) := by
  unfold Ranges.total Earnings.clear
  simp only
  rw [← Finset.add_sum_erase pool.ranges.keys _ hk,
    ← Finset.add_sum_erase pool.ranges.keys (fun k => (pool.ranges.size k : ℚ) * earned k ch) hk,
    Function.update_self]
  have hrest : ∑ k ∈ pool.ranges.keys.erase key, (pool.ranges.size k : ℚ) *
      ((Function.update earned key fun _ => 0) k ch : ℕ) =
        ∑ k ∈ pool.ranges.keys.erase key, (pool.ranges.size k : ℚ) * earned k ch :=
    Finset.sum_congr rfl fun k hk => by rw [Function.update_of_ne (Finset.ne_of_mem_erase hk)]
  rw [hrest]
  simp only [Nat.cast_zero, mul_zero, zero_add]
  exact add_comm _ _

/-- **Settling only turns earned fees into owed fees.**

**Proof sketch.** The position is credited with its earnings rounded down, and the wrapped sum is at
most the sum. What was counted as earned is now counted as owed, and no more. -/
theorem obligations_settle_le (h : pool.Sound earned) (hk : key ∈ pool.positions) (X : Token) :
    (pool.settle key).obligations (earned.clear key) X ≤ pool.obligations earned X := by
  have howed := pool.feesOwed_setPosition ((pool.position key).settle (pool.insidePosition key))
    hk X
  rw [Position.settle_feeOwed] at howed
  have hwrap := wrappingAdd_le 64 ((pool.position key).feeOwed X)
    (owedDelta (pool.position key).liquidity (pool.insidePosition key (.fee X) -
      (pool.position key).growthCheckpoint (.fee X)))
  have hcredit := h.owedDelta_le hk (.fee X)
  have htotal : pool.ranges.total (fun k => (earned.clear key k (.fee X) : ℚ)) + _ = _ :=
    total_clear hk (.fee X)
  obtain ⟨x, hx⟩ : ∃ x, owedDelta (pool.position key).liquidity (pool.insidePosition key (.fee X) -
      (pool.position key).growthCheckpoint (.fee X)) = x := ⟨_, rfl⟩
  rw [hx] at howed hwrap hcredit
  have h1 : ((pool.settle key).feesOwed X : ℚ) ≤ pool.feesOwed X + x := by
    have : (pool.settle key).feesOwed X ≤ pool.feesOwed X + x := by
      unfold Pool.settle
      omega
    exact_mod_cast this
  have h2 : (pool.settle key).feesEarned (earned.clear key) X + x ≤ pool.feesEarned earned X := by
    unfold feesEarned
    rw [ranges_settle, ← htotal, add_div, add_le_add_iff_left, le_div_iff₀ (by positivity)]
    exact_mod_cast hcredit
  unfold obligations
  rw [ranges_settle]
  change (pool.whirlpool.protocolFeeOwed X : ℚ) + _ + _ +
    reserve pool.ranges X pool.whirlpool.sqrtPrice ≤ _
  linarith

end Pool

end NemoSwap
