import NemoSwap.Pool.Settlement

set_option relaxedAutoImplicit false
set_option autoImplicit false

/-!
# Changing the liquidity of a position

`increase_liquidity` and `decrease_liquidity` accrue the rewards, settle the position, and then
resize it: the liquidity of the position, of its two ticks and of the pool change together. The
tokens that change hands cover, or are covered by, the exact change of the reserves.

## Main definitions

* `NemoSwap.TickResized`, `NemoSwap.Pool.Resized` — the effect on a tick, and on the pool.
* `NemoSwap.tokenAmount` — a pair of amounts by token.

## Main results

* `NemoSwap.TickResized.below` — initializing a tick leaves the growth below it unchanged.
* `NemoSwap.Pool.Resized.sound` — resizing keeps the invariant.
* `NemoSwap.Pool.Resized.obligations` — resizing changes the obligations by the exact value.
* `NemoSwap.calculateLiquidityTokenDeltas_eq_ok`, `NemoSwap.le_rangeDelta`,
  `NemoSwap.rangeDelta_le` — the token amounts, and that they round in favour of the pool.
-/

namespace NemoSwap

/-- The amount of a token in a pair of amounts. -/
def tokenAmount (amounts : ℕ × ℕ) : Token → ℕ
  | .A => amounts.1
  | .B => amounts.2

/-! ## Token amounts -/

/-- The rounded amount of a token that a liquidity is worth on a range. -/
def rangeDelta (X : Token) (lower upper : ℤ) (p liquidity : ℕ) (roundUp : Bool) : ℕ :=
  match X with
  | .A => deltaA (rangePrice lower upper p) (tickPrice upper) liquidity roundUp
  | .B => deltaB (tickPrice lower) (rangePrice lower upper p) liquidity roundUp

section RangeDelta

variable {lo hi : ℤ} {p l : ℕ} {X : Token}

/-- A tick of the tick range has a positive price of at most the maximal one. -/
theorem tickPrice_bounds (hlo : minTickIndex ≤ lo) (hhi : lo ≤ maxTickIndex) :
    0 < tickPrice lo ∧ tickPrice lo < 2 ^ 128 := by
  unfold minTickIndex at hlo
  unfold maxTickIndex at hhi
  exact ⟨tickPrice_pos (by omega) (by omega),
    (tickPrice_le_max (by omega) (by omega)).trans_lt (maxSqrtPriceX64_lt.trans (by norm_num))⟩

/-- The prices of two ticks within the bounds are in the order of the ticks. -/
lemma tickPrice_le_of_le (hlo : minTickIndex ≤ lo) (hle : lo ≤ hi) (hhi : hi ≤ maxTickIndex) :
    tickPrice lo ≤ tickPrice hi := by
  unfold minTickIndex at hlo
  unfold maxTickIndex at hhi
  exact tickPrice_le (by omega) hle (by omega)

/-- What a range costs, rounded up, is at least its exact holding. -/
theorem le_rangeDelta (hlo : minTickIndex ≤ lo) (hlt : lo < hi) (hhi : hi ≤ maxTickIndex) :
    (l : ℚ) * holding X lo hi p ≤ rangeDelta X lo hi p l true := by
  have hle := tickPrice_le_of_le hlo hlt.le hhi
  cases X with
  | A => exact le_deltaA (rangePrice_pos hlo hlt hhi) (Ranges.clamp_le_upper _ hle)
  | B => exact le_deltaB (Ranges.lower_le_clamp _ _ _)

/-- What a range yields, rounded down, is at most its exact holding. -/
theorem rangeDelta_le (hlo : minTickIndex ≤ lo) (hlt : lo < hi) (hhi : hi ≤ maxTickIndex) :
    (rangeDelta X lo hi p l false : ℚ) ≤ l * holding X lo hi p := by
  have hle := tickPrice_le_of_le hlo hlt.le hhi
  cases X with
  | A => exact deltaA_le (rangePrice_pos hlo hlt hhi) (Ranges.clamp_le_upper _ hle)
  | B => exact deltaB_le (Ranges.lower_le_clamp _ _ _)

/-- Where the price and tick of a pool stand relative to a range. -/
theorem PriceAt.rangePrice_eq {c : ℤ} (h : PriceAt c p) (hlo : minTickIndex ≤ lo) (hlt : lo < hi)
    (hhi : hi ≤ maxTickIndex) : rangePrice lo hi p =
      if c < lo then tickPrice lo else if c < hi then p else tickPrice hi := by
  have hle := tickPrice_le_of_le hlo hlt.le hhi
  have hc1 := h.tick_min
  have hc2 := h.tick_max
  unfold minTickIndex at hlo hc1
  unfold maxTickIndex at hhi hc2
  unfold rangePrice
  split_ifs with h1 h2
  · exact Ranges.clamp_of_le_lower
      (h.upper.trans (tickPrice_le (by omega) (by omega) (by omega)))
  · exact Ranges.clamp_of_le ((tickPrice_le (by omega) (by omega) (by omega)).trans h.lower)
      (h.upper.trans (tickPrice_le (by omega) (by omega) (by omega)))
  · exact Ranges.clamp_of_upper_le hle
      ((tickPrice_le (by omega) (by omega) (by omega)).trans h.lower)

end RangeDelta

section Amounts

variable {p q l m : ℕ} {r : Bool}

/-- An amount of token A that is returned is the rounded exact one. -/
lemma getAmountDeltaA_eq (hpq : p ≤ q) (hq : q < 2 ^ 128) (hl : l < 2 ^ 128)
    (h : getAmountDeltaA p q l r = .ok m) : m = deltaA p q l r := by
  have := (getAmountDeltaA_eq_ok (hpq.trans_lt hq) hq hl h).2.1
  rwa [min_eq_left hpq, max_eq_right hpq] at this

/-- An amount of token B that is returned is the rounded exact one. -/
lemma getAmountDeltaB_eq (hpq : p ≤ q) (h : getAmountDeltaB p q l r = .ok m) :
    m = deltaB p q l r := by
  have := (getAmountDeltaB_eq_ok.1 h).1
  rwa [min_eq_left hpq, max_eq_right hpq] at this

end Amounts

/-- **The token amounts of a change of liquidity** are the rounded amounts of its range at the
current price.

**Proof sketch.** By the place of the tick index: below the range, inside it or above it. In each
case the price clamped to the range is the one that the code uses, and one of the tokens may not be
needed. -/
theorem calculateLiquidityTokenDeltas_eq_ok {c : ℤ} {p : ℕ} {position : Position} {delta : ℤ}
    {amounts : ℕ × ℕ} (hprice : PriceAt c p) (hlo : minTickIndex ≤ position.tickLowerIndex)
    (hlt : position.tickLowerIndex < position.tickUpperIndex)
    (hhi : position.tickUpperIndex ≤ maxTickIndex) (hdelta : delta.natAbs < 2 ^ 128)
    (h : calculateLiquidityTokenDeltas c p position delta = .ok amounts) (X : Token) :
    tokenAmount amounts X = rangeDelta X position.tickLowerIndex position.tickUpperIndex p
      delta.natAbs (decide (delta > 0)) := by
  obtain ⟨-, hlolt⟩ := tickPrice_bounds hlo (hlt.le.trans hhi)
  obtain ⟨-, hhilt⟩ := tickPrice_bounds (hlo.trans hlt.le) hhi
  have hle := tickPrice_le_of_le hlo hlt.le hhi
  have hrange := hprice.rangePrice_eq hlo hlt hhi
  have hplt := hprice.lt
  unfold calculateLiquidityTokenDeltas at h
  rw [ite_err_eq_ok, sqrtPriceFromTickIndex_eq (hlt.le.trans hhi),
    sqrtPriceFromTickIndex_eq hhi] at h
  obtain ⟨-, h⟩ := h
  simp only [Res.ok_bind] at h
  rcases lt_or_ge c position.tickLowerIndex with hcl | hcl
  · -- the range lies right of the price, and holds token A only
    rw [if_pos hcl] at hrange
    rw [if_pos hcl, Res.bind_eq_ok] at h
    obtain ⟨m, hm, h⟩ := h
    rw [Res.pure_eq_ok, Except.ok.injEq] at h
    subst h
    cases X with
    | A =>
      rw [tokenAmount, rangeDelta, hrange]
      exact getAmountDeltaA_eq hle hhilt hdelta hm
    | B => rw [tokenAmount, rangeDelta, hrange, deltaB_self]
  · rw [if_neg (not_lt.2 hcl)] at h hrange
    rcases lt_or_ge c position.tickUpperIndex with hch | hch
    · -- the range contains the price
      rw [if_pos hch] at hrange h
      have hp1 : tickPrice position.tickLowerIndex ≤ p := by
        rw [← hrange]
        exact Ranges.lower_le_clamp _ _ _
      have hp2 : p ≤ tickPrice position.tickUpperIndex := by
        rw [← hrange]
        exact Ranges.clamp_le_upper _ hle
      rw [Res.bind_eq_ok] at h
      obtain ⟨m, hm, h⟩ := h
      rw [Res.bind_eq_ok] at h
      obtain ⟨m', hm', h⟩ := h
      rw [Res.pure_eq_ok, Except.ok.injEq] at h
      subst h
      cases X with
      | A =>
        rw [tokenAmount, rangeDelta, hrange]
        exact getAmountDeltaA_eq hp2 hhilt hdelta hm
      | B =>
        rw [tokenAmount, rangeDelta, hrange]
        exact getAmountDeltaB_eq hp1 hm'
    · -- the range lies left of the price, and holds token B only
      rw [if_neg (not_lt.2 hch)] at hrange h
      rw [Res.bind_eq_ok] at h
      obtain ⟨m, hm, h⟩ := h
      rw [Res.pure_eq_ok, Except.ok.injEq] at h
      subst h
      cases X with
      | A => rw [tokenAmount, rangeDelta, hrange, deltaA_self]
      | B =>
        rw [tokenAmount, rangeDelta, hrange]
        exact getAmountDeltaB_eq hle hm

/-! ## Resizing a tick -/

/-- The effect of a change of liquidity on a tick. -/
structure TickResized (global : Channel → Growth) (c t delta netDelta : ℤ) (tick tick' : Tick) :
    Prop where
  gross : (tick'.liquidityGross : ℤ) = tick.liquidityGross + delta
  empty : tick'.liquidityGross = 0 → tick' = Tick.default
  initialized : tick'.liquidityGross ≠ 0 → tick'.initialized = true
  net : tick'.liquidityGross ≠ 0 → tick'.liquidityNet = tick.liquidityNet + netDelta
  outside : tick'.liquidityGross ≠ 0 → ∀ ch, tick'.growthOutside ch =
    if tick.liquidityGross = 0 then (if t ≤ c then global ch else 0) else tick.growthOutside ch

/-- The inversion of `next_tick_modify_liquidity_update`.

**Proof sketch.** By whether the new gross liquidity is zero, and whether the old one was: the tick
is cleared, or it is initialized with the global growths on its far side, or it keeps its
growths. -/
theorem nextTickModifyLiquidityUpdate_eq_ok {tick tick' : Tick} {t c delta : ℤ}
    {global : Channel → Growth} {infos : Fin numRewards → WhirlpoolRewardInfo} {upper : Bool}
    (hinfos : ∀ i, (infos i).growthGlobalX64 = global (.reward i)) (hdelta : delta ≠ 0)
    (h : nextTickModifyLiquidityUpdate tick t c (global (.fee .A)) (global (.fee .B)) infos delta
      upper = .ok tick') :
    TickResized global c t delta (if upper then -delta else delta) tick tick' := by
  unfold nextTickModifyLiquidityUpdate at h
  rw [if_neg hdelta, Res.bind_eq_ok] at h
  obtain ⟨gross, hgross, h⟩ := h
  have hg := addLiquidityDelta_eq_ok hgross
  rcases eq_or_ne gross 0 with h0 | h0
  · rw [if_pos h0, Res.pure_eq_ok, Except.ok.injEq] at h
    subst h
    have hd : Tick.default.liquidityGross = 0 := rfl
    exact ⟨by rw [hd, ← hg, h0], fun _ => rfl, fun hne => absurd hd hne, fun hne => absurd hd hne,
      fun hne => absurd hd hne⟩
  · rw [if_neg h0, Res.bind_eq_ok] at h
    obtain ⟨net, hnet, h⟩ := h
    rw [Res.pure_eq_ok, Except.ok.injEq] at h
    subst h
    refine ⟨hg, fun he => absurd he h0, fun _ => rfl, fun _ => ?_, fun _ ch => ?_⟩
    · rw [okOr_eq_ok] at hnet
      unfold checkedSubI128 checkedAddI128 at hnet
      cases upper with
      | true =>
        simp only [if_true] at hnet ⊢
        split_ifs at hnet
        exact (Option.some.inj hnet).symm
      | false =>
        simp only [Bool.false_eq_true, if_false] at hnet ⊢
        split_ifs at hnet
        exact (Option.some.inj hnet).symm
    · rcases ch with X | i
      · cases X <;>
          · unfold Tick.growthOutside
            simp only [ge_iff_le]
            split_ifs <;> rfl
      · unfold Tick.growthOutside WhirlpoolRewardInfo.toRewardGrowths
        simp only [ge_iff_le]
        split_ifs
        · exact hinfos i
        · rfl
        · rfl

/-- **Initializing a tick leaves the growth below it unchanged**, and so does every other change of
its liquidity that does not empty it. -/
theorem TickResized.below {global : Channel → Growth} {c t delta netDelta : ℤ} {tick tick' : Tick}
    (h : TickResized global c t delta netDelta tick tick')
    (hinit : tick.initialized = true ↔ 0 < tick.liquidityGross)
    (hinit' : tick'.initialized = true) (ch : Channel) :
    Outside.below tick'.initialized (tick'.growthOutside ch) (global ch) c t =
      Outside.below tick.initialized (tick.growthOutside ch) (global ch) c t := by
  have hne : tick'.liquidityGross ≠ 0 := fun h0 => by
    rw [h.empty h0] at hinit'
    cases hinit'
  rw [hinit', h.outside hne ch]
  rcases Nat.eq_zero_or_pos tick.liquidityGross with h0 | h0
  · have hno : tick.initialized = false := by
      rw [← Bool.not_eq_true, hinit]
      omega
    rw [if_pos h0, hno]
    exact Outside.below_mark _ _ _ _
  · rw [if_neg h0.ne', hinit.2 h0]

/-! ## Resizing a position -/

namespace Pool

/-- The position has no earnings since its last update. -/
def Settled (pool : Pool) (earned : Earnings) (key : Pubkey) : Prop :=
  ∀ ch, earned key ch = 0 ∧ pool.insidePosition key ch = (pool.position key).growthCheckpoint ch

/-- The effect of a change of a position's liquidity, but for the vaults. -/
structure Resized (pool pool' : Pool) (key : Pubkey) (delta : ℤ) : Prop where
  positions : pool'.positions = pool.positions
  position : pool'.position = Function.update pool.position key
    { pool.position key with liquidity := (pool'.position key).liquidity }
  liquidity : ((pool'.position key).liquidity : ℤ) = (pool.position key).liquidity + delta
  liquidity_lt : (pool.position key).liquidity < 2 ^ 128 →
    (pool'.position key).liquidity < 2 ^ 128
  whirlpool : pool'.whirlpool = { pool.whirlpool with liquidity := pool'.whirlpool.liquidity }
  active : (pool'.whirlpool.liquidity : ℤ) = pool.whirlpool.liquidity +
    if pool.ranges.Contains key pool.whirlpool.tickCurrentIndex then delta else 0
  active_lt : pool.whirlpool.liquidity < 2 ^ 128 → pool'.whirlpool.liquidity < 2 ^ 128
  wellPlaced : TickMap.WellPlaced pool'.tickArrays pool.whirlpool.tickSpacing
  lower : TickResized pool.whirlpool.growthGlobal pool.whirlpool.tickCurrentIndex
    (pool.position key).tickLowerIndex delta delta (pool.ticks (pool.position key).tickLowerIndex)
    (pool'.ticks (pool.position key).tickLowerIndex)
  upper : TickResized pool.whirlpool.growthGlobal pool.whirlpool.tickCurrentIndex
    (pool.position key).tickUpperIndex delta (-delta)
    (pool.ticks (pool.position key).tickUpperIndex)
    (pool'.ticks (pool.position key).tickUpperIndex)
  other : ∀ t, t ≠ (pool.position key).tickLowerIndex → t ≠ (pool.position key).tickUpperIndex →
    pool'.ticks t = pool.ticks t

variable {pool pool' : Pool} {earned : Earnings} {key : Pubkey} {delta : ℤ}

/-- The ranges after a position was resized.

**Proof sketch.** Keys and ends of the ranges are fields of the positions that do not change; the
size of the key is the new liquidity. -/
theorem Resized.ranges (h : Resized pool pool' key delta) :
    pool'.ranges = pool.ranges.setSize key (pool'.position key).liquidity := by
  have hpos := h.position
  have hfield : ∀ {β : Type} (f : Position → β), (∀ l, f { pool.position key with liquidity := l } =
      f (pool.position key)) → (fun k => f (pool'.position k)) = fun k => f (pool.position k) :=
    fun f hf => funext fun k => by
      rcases eq_or_ne k key with rfl | hne
      · rw [hpos, Function.update_self, hf]
      · rw [hpos, Function.update_of_ne hne]
  unfold Pool.ranges Ranges.setSize
  rw [h.positions, hfield Position.tickLowerIndex fun _ => rfl,
    hfield Position.tickUpperIndex fun _ => rfl]
  congr 1
  funext k
  rcases eq_or_ne k key with rfl | hne
  · rw [Function.update_self]
  · rw [Function.update_of_ne hne, hpos, Function.update_of_ne hne]

/-- A total after a position was resized. -/
theorem Resized.total {M : Type} [CommRing M] (h : Resized pool pool' key delta)
    (hk : key ∈ pool.positions) (w : Pubkey → M) :
    pool'.ranges.total w = pool.ranges.total w + (delta : M) * w key := by
  have h1 := pool.ranges.total_setSize w hk (pool'.position key).liquidity
  have h2 : ((pool'.position key).liquidity : M) = (pool.position key).liquidity + (delta : M) := by
    have := congrArg (fun z : ℤ => (z : M)) h.liquidity
    push_cast at this
    exact this
  rw [← h.ranges, h2] at h1
  change _ + ((pool.position key).liquidity : M) * w key = _ at h1
  linear_combination h1

/-- What starts or ends at a tick, and what is active, after a position was resized.

**Proof sketch.** Each of them is a total over the ranges, in which only the size of the key has
changed. -/
lemma Resized.points (h : Resized pool pool' key delta) (hk : key ∈ pool.positions) (t : ℤ) :
    ((pool'.ranges.startsAt t : ℤ) = pool.ranges.startsAt t +
        if (pool.position key).tickLowerIndex = t then delta else 0) ∧
      ((pool'.ranges.endsAt t : ℤ) = pool.ranges.endsAt t +
        if (pool.position key).tickUpperIndex = t then delta else 0) ∧
      ((pool'.ranges.active t : ℤ) = pool.ranges.active t +
        if pool.ranges.Contains key t then delta else 0) := by
  have hlo : pool'.ranges.lower = pool.ranges.lower := by rw [h.ranges]; rfl
  have hhi : pool'.ranges.upper = pool.ranges.upper := by rw [h.ranges]; rfl
  have hact : pool'.ranges.total (fun k => if pool'.ranges.Contains k t then (1 : ℤ) else 0) =
      pool'.ranges.total fun k => if pool.ranges.Contains k t then (1 : ℤ) else 0 :=
    congrArg _ (funext fun k => if_congr (by unfold Ranges.Contains; rw [hlo, hhi]) rfl rfl)
  unfold Ranges.startsAt Ranges.endsAt Ranges.active
  simp only [Ranges.natCast_total, Nat.cast_ite, Nat.cast_one, Nat.cast_zero]
  rw [hact, h.total hk, h.total hk, h.total hk, hlo, hhi]
  refine ⟨?_, ?_, ?_⟩ <;> congr 1
  · change delta * (if (pool.position key).tickLowerIndex = t then 1 else 0) = _
    rw [mul_ite, mul_one, mul_zero]
  · change delta * (if (pool.position key).tickUpperIndex = t then 1 else 0) = _
    rw [mul_ite, mul_one, mul_zero]
  · rw [Int.cast_id, mul_ite, mul_one, mul_zero]

/-- The growth below a tick that stays or becomes initialized does not change. -/
theorem Resized.below (hs : pool.Sound earned) (h : Resized pool pool' key delta) (ch : Channel)
    {t : ℤ} (ht : (pool'.ticks t).initialized = true) :
    Outside.below (pool'.ticks t).initialized ((pool'.ticks t).growthOutside ch)
        (pool.whirlpool.growthGlobal ch) pool.whirlpool.tickCurrentIndex t =
      Outside.below (pool.ticks t).initialized ((pool.ticks t).growthOutside ch)
        (pool.whirlpool.growthGlobal ch) pool.whirlpool.tickCurrentIndex t := by
  have hinit : (pool.ticks t).initialized = true ↔ 0 < (pool.ticks t).liquidityGross := by
    rw [hs.books.initialized, hs.books.gross]
  rcases eq_or_ne t (pool.position key).tickLowerIndex with rfl | h1
  · exact h.lower.below hinit ht ch
  · rcases eq_or_ne t (pool.position key).tickUpperIndex with rfl | h2
    · exact h.upper.below hinit ht ch
    · rw [h.other t h1 h2]

/-- The global growth does not change.

**Proof sketch.** Only the liquidity of the record is replaced. -/
theorem Resized.whirlpool_eq (h : Resized pool pool' key delta) :
    pool'.whirlpool.growthGlobal = pool.whirlpool.growthGlobal ∧
      pool'.whirlpool.tickCurrentIndex = pool.whirlpool.tickCurrentIndex ∧
      pool'.whirlpool.tickSpacing = pool.whirlpool.tickSpacing ∧
      pool'.whirlpool.sqrtPrice = pool.whirlpool.sqrtPrice ∧
      pool'.whirlpool.rewardInfos = pool.whirlpool.rewardInfos ∧
      pool'.whirlpool.protocolFeeOwed = pool.whirlpool.protocolFeeOwed := by
  have hw := h.whirlpool
  refine ⟨?_, ?_, ?_, ?_, ?_, ?_⟩
  · funext ch
    rw [hw]
    rcases ch with X | i
    · cases X <;> rfl
    · rfl
  · rw [hw]
  · rw [hw]
  · rw [hw]
  · rw [hw]
  · funext X
    rw [hw]
    cases X <;> rfl

/-- **Initializing a tick does not change the growth inside the ranges that end there**: a change
of liquidity leaves the growth inside every range as it is whose ends are initialized
afterwards. -/
theorem Resized.inside (hs : pool.Sound earned) (h : Resized pool pool' key delta) (ch : Channel)
    {lo hi : ℤ} (hlo : (pool'.ticks lo).initialized = true)
    (hhi : (pool'.ticks hi).initialized = true) :
    pool'.inside ch lo hi = pool.inside ch lo hi := by
  obtain ⟨h1, h2, -⟩ := h.whirlpool_eq
  unfold Pool.inside rangeInside
  rw [h1, h2, h.below hs ch hlo, h.below hs ch hhi]

/-- One tick of the books after a position was resized.

**Proof sketch.** The gross and net liquidity change by what the key adds to them. A tick whose
gross liquidity becomes zero is emptied, and the totals at it are then zero too; otherwise it is
initialized. -/
theorem TickResized.books {global : Channel → Growth} {c t delta netDelta : ℤ} {tick tick' : Tick}
    {R R' : Ranges Pubkey ℤ} (h : TickResized global c t delta netDelta tick tick')
    (hnet : tick.liquidityNet = R.net t) (hgross : tick.liquidityGross = R.gross t)
    (hnet' : R'.net t = R.net t + netDelta) (hgross' : (R'.gross t : ℤ) = R.gross t + delta) :
    tick'.liquidityNet = R'.net t ∧ tick'.liquidityGross = R'.gross t ∧
      (tick'.initialized = true ↔ 0 < R'.gross t) ∧
      (tick'.initialized = false → tick' = Tick.default) := by
  have hg : tick'.liquidityGross = R'.gross t := by
    have := h.gross
    omega
  rcases Nat.eq_zero_or_pos tick'.liquidityGross with h0 | h0
  · have hd := h.empty h0
    rw [hd]
    refine ⟨?_, ?_, ?_, fun _ => rfl⟩
    · rw [R'.net_eq_zero (by omega)]
      rfl
    · rw [← hg, h0]
      rfl
    · rw [← hg, h0]
      simp [Tick.default]
  · refine ⟨?_, hg, ?_, fun hf => ?_⟩
    · rw [h.net h0.ne', hnet, hnet']
    · rw [← hg]
      exact iff_of_true (h.initialized h0.ne') h0
    · rw [h.initialized h0.ne'] at hf
      cases hf

/-- Resizing keeps the books.

**Proof sketch.** The gross and the net liquidity of a tick change by the liquidity of the bounds
that the position has there, and the active liquidity changes if the position contains the tick
index. -/
theorem Resized.books (hs : pool.Sound earned) (hk : key ∈ pool.positions)
    (h : Resized pool pool' key delta) : Books pool'.ranges pool'.ticks
      pool'.whirlpool.tickCurrentIndex pool'.whirlpool.liquidity := by
  have hlt := (hs.onUsableTicks key hk).2.2
  have hpts := h.points hk
  have htick : ∀ t, (pool'.ticks t).liquidityNet = pool'.ranges.net t ∧
      (pool'.ticks t).liquidityGross = pool'.ranges.gross t ∧
      ((pool'.ticks t).initialized = true ↔ 0 < pool'.ranges.gross t) ∧
      ((pool'.ticks t).initialized = false → pool'.ticks t = Tick.default) := fun t => by
    obtain ⟨h1, h2, -⟩ := hpts t
    rcases eq_or_ne t (pool.position key).tickLowerIndex with rfl | hlo
    · rw [if_pos rfl] at h1
      rw [if_neg hlt.ne'] at h2
      refine TickResized.books h.lower (hs.books.net _) (hs.books.gross _) ?_ ?_
      · unfold Ranges.net
        omega
      · unfold Ranges.gross
        push_cast
        omega
    · rw [if_neg hlo.symm] at h1
      rcases eq_or_ne t (pool.position key).tickUpperIndex with rfl | hhi
      · rw [if_pos rfl] at h2
        refine TickResized.books h.upper (hs.books.net _) (hs.books.gross _) ?_ ?_
        · unfold Ranges.net
          omega
        · unfold Ranges.gross
          push_cast
          omega
      · rw [if_neg hhi.symm] at h2
        have hn : pool'.ranges.net t = pool.ranges.net t := by
          unfold Ranges.net
          omega
        have hg : pool'.ranges.gross t = pool.ranges.gross t := by
          unfold Ranges.gross
          omega
        rw [h.other t hlo hhi, hn, hg]
        exact ⟨hs.books.net t, hs.books.gross t, hs.books.initialized t, hs.books.blank t⟩
  refine ⟨?_, fun t => (htick t).1, fun t => (htick t).2.1, fun t => (htick t).2.2.1,
    fun t => (htick t).2.2.2⟩
  have h1 := h.active
  have h2 := (hpts pool.whirlpool.tickCurrentIndex).2.2
  have h3 := hs.books.active
  rw [h.whirlpool_eq.2.1]
  omega

/-- **Resizing a settled position keeps the invariant.**

**Proof sketch.** Only the two ticks of the position and its own liquidity change. A tick that is
initialized takes the global growth as growth below it, or zero, by the convention of its side, so
no other range sees a different growth inside it; the position itself has just been settled. -/
theorem Resized.sound (hs : pool.Sound earned) (hk : key ∈ pool.positions)
    (hset : pool.Settled earned key) (h : Resized pool pool' key delta) : pool'.Sound earned := by
  obtain ⟨hw1, hw2, hw3, hw4, hw5, -⟩ := h.whirlpool_eq
  have hbooks := h.books hs hk
  have hkey : ∀ k, (pool'.position k).tickLowerIndex = (pool.position k).tickLowerIndex ∧
      (pool'.position k).tickUpperIndex = (pool.position k).tickUpperIndex ∧
      (∀ ch, (pool'.position k).growthCheckpoint ch = (pool.position k).growthCheckpoint ch) ∧
      (k ≠ key → (pool'.position k).liquidity = (pool.position k).liquidity) := fun k => by
    have hpos := h.position
    rcases eq_or_ne k key with rfl | hne
    · rw [hpos, Function.update_self]
      refine ⟨rfl, rfl, fun ch => ?_, fun hne => absurd rfl hne⟩
      rcases ch with X | i
      · cases X <;> rfl
      · rfl
    · rw [hpos, Function.update_of_ne hne]
      exact ⟨rfl, rfl, fun _ => rfl, fun _ => rfl⟩
  have husable : ∀ k ∈ pool'.positions,
      UsableTick pool'.whirlpool.tickSpacing (pool'.position k).tickLowerIndex ∧
      UsableTick pool'.whirlpool.tickSpacing (pool'.position k).tickUpperIndex ∧
      (pool'.position k).tickLowerIndex < (pool'.position k).tickUpperIndex := fun k hk' => by
    rw [hw3, (hkey k).1, (hkey k).2.1]
    exact hs.onUsableTicks k (h.positions ▸ hk')
  refine ⟨hw3 ▸ hs.spacing, hw3 ▸ h.wellPlaced, by rw [hw2, hw4]; exact hs.price, ?_, ?_,
    h.active_lt hs.liquidity_lt, fun k hk' => ?_, husable, hbooks, ?_, fun k hk' h0 ch => ?_⟩
  · rw [h.whirlpool]
    exact hs.feeRate
  · rw [h.whirlpool]
    exact hs.protocolFeeRate
  · rcases eq_or_ne k key with rfl | hne
    · exact h.liquidity_lt (hs.position_lt k hk)
    · rw [(hkey k).2.2.2 hne]
      exact hs.position_lt k (h.positions ▸ hk')
  · intro i hi
    rw [hw5] at hi ⊢
    obtain ⟨h1, h2⟩ := hs.rewardsBlank i hi
    have hg : pool.whirlpool.growthGlobal (.reward i) = 0 := h1
    refine ⟨h1, fun t => ?_⟩
    -- a tick that was initialized takes over a global growth of zero
    have htick : ∀ {delta netDelta : ℤ}, TickResized pool.whirlpool.growthGlobal
        pool.whirlpool.tickCurrentIndex t delta netDelta (pool.ticks t) (pool'.ticks t) →
        (pool'.ticks t).rewardGrowthsOutside i = 0 := fun hr => by
      rcases Nat.eq_zero_or_pos (pool'.ticks t).liquidityGross with h0 | h0
      · rw [hr.empty h0]
        rfl
      · have := hr.outside h0.ne' (.reward i)
        change (pool'.ticks t).rewardGrowthsOutside i = _ at this
        rw [this, hg]
        change (if _ then _ else (pool.ticks t).rewardGrowthsOutside i) = 0
        rw [h2 t]
        split_ifs <;> rfl
    rcases eq_or_ne t (pool.position key).tickLowerIndex with rfl | hlo
    · exact htick h.lower
    · rcases eq_or_ne t (pool.position key).tickUpperIndex with rfl | hhi
      · exact htick h.upper
      · rw [h.other t hlo hhi]
        exact h2 t
  · have hlo := hbooks.lower_initialized hk' h0
    have hhi := hbooks.upper_initialized hk' h0
    change (pool'.ticks (pool'.position k).tickLowerIndex).initialized = true at hlo
    change (pool'.ticks (pool'.position k).tickUpperIndex).initialized = true at hhi
    rw [h.inside hs ch hlo hhi, (hkey k).1, (hkey k).2.1, (hkey k).2.2.1 ch]
    rcases eq_or_ne k key with rfl | hne
    · obtain ⟨h1, h2⟩ := hset ch
      rw [h1, ← h2, insidePosition, sub_self]
      rfl
    · rw [(hkey k).2.2.2 hne] at h0
      exact hs.checkpoints k (h.positions ▸ hk') h0 ch

/-- **Resizing a settled position changes the obligations by the exact value of the liquidity.**

**Proof sketch.** The reserve changes by the value of the liquidity in the range of the position.
What is owed stays, and what has been earned stays, since the position has earned nothing since it
was settled. -/
theorem Resized.obligations (hk : key ∈ pool.positions) (hset : pool.Settled earned key)
    (h : Resized pool pool' key delta) (X : Token) :
    pool'.obligations earned X = pool.obligations earned X +
      delta * holding X (pool.position key).tickLowerIndex (pool.position key).tickUpperIndex
        pool.whirlpool.sqrtPrice := by
  obtain ⟨-, -, -, hw4, -, hw6⟩ := h.whirlpool_eq
  have hlo : pool'.ranges.lower = pool.ranges.lower := by rw [h.ranges]; rfl
  have hhi : pool'.ranges.upper = pool.ranges.upper := by rw [h.ranges]; rfl
  have hfees : pool'.feesEarned earned X = pool.feesEarned earned X := by
    unfold feesEarned
    rw [h.total hk, (hset (.fee X)).1]
    simp
  have howed : pool'.feesOwed X = pool.feesOwed X := by
    unfold feesOwed
    rw [h.positions]
    refine Finset.sum_congr rfl fun k _ => ?_
    have hpos := h.position
    rcases eq_or_ne k key with rfl | hne
    · rw [hpos, Function.update_self]
      cases X <;> rfl
    · rw [hpos, Function.update_of_ne hne]
  have hres : reserve pool'.ranges X pool.whirlpool.sqrtPrice =
      reserve pool.ranges X pool.whirlpool.sqrtPrice + delta *
        holding X (pool.position key).tickLowerIndex (pool.position key).tickUpperIndex
          pool.whirlpool.sqrtPrice := by
    unfold reserve
    rw [hlo, hhi, h.total hk]
    rfl
  unfold Pool.obligations
  rw [hfees, howed, hw4, hw6, hres]
  ring

end Pool

end NemoSwap
