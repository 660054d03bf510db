import NemoSwap.Manager.SwapManager
import NemoSwap.Math.TickBounds
import NemoSwap.Util.TickMap

set_option relaxedAutoImplicit false
set_option autoImplicit false

/-!
# What one iteration of the swap loop does

The body of the loop is inverted once: the search finds a tick ahead, the step of `swap_math.rs`
keeps its contract, and the tick index moves in one of three ways. Everything that holds of a
whole swap is derived from this inversion by induction on the iterations.

## Main definitions

* `NemoSwap.PriceAt` — the relation between the price and the tick index of a pool. After a
  crossing to the left the price is that of the next tick.
* `NemoSwap.SwapState.WellFormed` — the invariant of the loop that does not mention positions.
* `NemoSwap.TickMove`, `NemoSwap.StepResult` — what an iteration does.

## Main results

* `NemoSwap.swapStep_cases` — the inversion of an iteration.
* `NemoSwap.StepResult.wellFormed` — an iteration keeps the invariant.
* `NemoSwap.swapLoop_invariant` — the induction on the iterations.
* `NemoSwap.swapStep_tick`, `NemoSwap.swapStep_next_tick` — the tick index after an iteration.
-/

namespace NemoSwap

/-- The relation between a pool's tick index and its price. -/
structure PriceAt (c : ℤ) (p : ℕ) : Prop where
  min_le : minSqrtPriceX64 ≤ p
  le_max : p ≤ maxSqrtPriceX64
  lower : tickPrice c ≤ p
  upper : p ≤ tickPrice (c + 1)
  tick_min : minTickIndex - 1 ≤ c
  tick_max : c ≤ maxTickIndex

/-- The price at which an iteration stops at the latest. -/
def stepTarget (limit : ℕ) (aToB : Bool) (n : ℤ) : ℕ :=
  if aToB then max limit (tickPrice n) else min limit (tickPrice n)

/-- The tick index after an iteration that reached the tick `n`. -/
def crossedIndex (aToB : Bool) (n : ℤ) : ℤ := if aToB then n - 1 else n

/-- A tick after its crossing. -/
def crossedTick (w : Whirlpool) (infos : Fin numRewards → WhirlpoolRewardInfo) (aToB : Bool)
    (g : Growth) (tick : Tick) : Tick :=
  nextTickCrossUpdate tick (if aToB then g else w.feeGrowthGlobalA)
    (if aToB then w.feeGrowthGlobalB else g) infos

/-- The change of the active liquidity at a crossing. -/
def crossedNet (aToB : Bool) (tick : Tick) : ℤ :=
  if aToB then negI128 tick.liquidityNet else tick.liquidityNet

/-- The ticks of the pool during a swap. -/
def SwapState.ticks (s : SwapState) (base : TickMap) (ts : ℕ) : ℤ → Tick :=
  (base.store s.swapTickSequence).tick ts

variable {w : Whirlpool} {infos : Fin numRewards → WhirlpoolRewardInfo} {base : TickMap}
  {limit amount : ℕ} {input aToB : Bool} {s s' : SwapState}

/-- The invariant of the loop that does not mention positions. -/
structure SwapState.WellFormed (w : Whirlpool) (base : TickMap) (limit amount : ℕ) (aToB : Bool)
    (s : SwapState) : Prop where
  price : PriceAt s.currTickIndex s.currSqrtPrice
  toward : Toward aToB s.currSqrtPrice limit
  liquidity_lt : s.currLiquidity < 2 ^ 128
  remaining_le : s.amountRemaining ≤ amount
  nodup : (s.swapTickSequence.map TickArray.startTickIndex).Nodup
  wellPlaced : (base.store s.swapTickSequence).WellPlaced w.tickSpacing
  usable : ∀ t, (s.ticks base w.tickSpacing t).initialized = true → UsableTick w.tickSpacing t

/-- The arguments of a swap that the loop does not change. -/
structure SwapBounds (w : Whirlpool) (limit amount : ℕ) : Prop where
  feeRate_lt : w.feeRate < feeRateMulValue
  min_le : minSqrtPriceX64 ≤ limit
  le_max : limit ≤ maxSqrtPriceX64
  amount_lt : amount < 2 ^ 64

/-- The three ways in which an iteration ends: it crosses an initialized tick, it passes a tick
that is not initialized, or it stops short of the tick. -/
inductive TickMove (w : Whirlpool) (infos : Fin numRewards → WhirlpoolRewardInfo) (base : TickMap)
    (aToB : Bool) (n : ℤ) (s s' : SwapState) : Prop
  | cross (reached : s'.currSqrtPrice = tickPrice n)
      (initialized : (s.ticks base w.tickSpacing n).initialized = true)
      (liquidity : addLiquidityDelta s.currLiquidity
        (crossedNet aToB (s.ticks base w.tickSpacing n)) = .ok s'.currLiquidity)
      (ticks : s'.ticks base w.tickSpacing = Function.update (s.ticks base w.tickSpacing) n
        (crossedTick w infos aToB s'.currFeeGrowthGlobalInput (s.ticks base w.tickSpacing n)))
      (nodup : (s'.swapTickSequence.map TickArray.startTickIndex).Nodup)
      (wellPlaced : (base.store s'.swapTickSequence).WellPlaced w.tickSpacing)
      (tick : s'.currTickIndex = crossedIndex aToB n)
  | pass (reached : s'.currSqrtPrice = tickPrice n)
      (initialized : (s.ticks base w.tickSpacing n).initialized = false)
      (liquidity : s'.currLiquidity = s.currLiquidity)
      (ticks : s'.swapTickSequence = s.swapTickSequence)
      (tick : s'.currTickIndex = crossedIndex aToB n)
  | stop (short : s'.currSqrtPrice ≠ tickPrice n)
      (liquidity : s'.currLiquidity = s.currLiquidity)
      (ticks : s'.swapTickSequence = s.swapTickSequence)
      (tick : (s'.currSqrtPrice ≠ s.currSqrtPrice ∧
          tickIndexFromSqrtPrice s'.currSqrtPrice = .ok s'.currTickIndex) ∨
        (s'.currSqrtPrice = s.currSqrtPrice ∧ s'.currTickIndex = s.currTickIndex))

/-- What an iteration does: the tick it finds, the step towards it, and the move. -/
structure StepResult (w : Whirlpool) (infos : Fin numRewards → WhirlpoolRewardInfo)
    (base : TickMap) (limit : ℕ) (input aToB : Bool) (n : ℤ) (comp : SwapStepComputation)
    (s s' : SwapState) : Prop where
  search : TickMap.SearchResult (s.ticks base w.tickSpacing) aToB s.currTickIndex n
  contract : StepContract s.amountRemaining s.currLiquidity s.currSqrtPrice
    (stepTarget limit aToB n) input aToB comp
  amounts : nextAmounts input s.amountRemaining s.amountCalculated comp =
    .ok (s'.amountRemaining, s'.amountCalculated)
  fees : calculateFees comp.feeAmount w.protocolFeeRate s.currLiquidity s.currProtocolFee
    s.currFeeGrowthGlobalInput = .ok (s'.currProtocolFee, s'.currFeeGrowthGlobalInput)
  price : s'.currSqrtPrice = comp.nextPrice
  move : TickMove w infos base aToB n s s'

/-! ## Prices and ticks -/

/-- A price at a tick is positive. -/
lemma PriceAt.pos {c : ℤ} {p : ℕ} (h : PriceAt c p) : 0 < p :=
  lt_of_lt_of_le (by norm_num [minSqrtPriceX64]) h.min_le

/-- A price at a tick fits in 128 bits. -/
lemma PriceAt.lt {c : ℤ} {p : ℕ} (h : PriceAt c p) : p < 2 ^ 128 :=
  lt_of_le_of_lt h.le_max (by norm_num [maxSqrtPriceX64])

/-- While the limit is not reached, the search may start from the tick index.

**Proof sketch.** By the direction. The limit lies beyond the price, so the price is not at the end
of the price range. Prices of ticks are monotone, so the tick index is not at the end of the tick
range. -/
theorem PriceAt.searchStart {c : ℤ} {p : ℕ} (h : PriceAt c p) (hmin : minSqrtPriceX64 ≤ limit)
    (hmax : limit ≤ maxSqrtPriceX64) (ht : Toward aToB p limit) (hne : limit ≠ p) :
    TickMap.SearchStart aToB c := by
  have h1 := h.tick_min
  have h2 := h.tick_max
  unfold TickMap.SearchStart
  unfold minTickIndex maxTickIndex at *
  cases aToB with
  | true =>
    rw [toward_true] at ht
    rw [if_pos rfl]
    have hlt : tickPrice (-443636) < tickPrice (c + 1) := by
      rw [tickPrice_min]
      exact lt_of_le_of_lt hmin (lt_of_lt_of_le (lt_of_le_of_ne ht hne) h.upper)
    have := le_of_tickPrice_lt (by norm_num) (by omega) hlt
    omega
  | false =>
    rw [toward_false] at ht
    rw [if_neg (by simp)]
    have hlt : tickPrice c < tickPrice 443636 := by
      rw [tickPrice_max]
      exact lt_of_le_of_lt h.lower (lt_of_lt_of_le (lt_of_le_of_ne ht hne.symm) hmax)
    have := le_of_tickPrice_lt (by omega) (by norm_num) hlt
    omega

/-- The price of the next tick, and the target of the step. -/
lemma getNextSqrtPrices_eq {n : ℤ} (hn : n ≤ maxTickIndex) :
    getNextSqrtPrices n limit aToB = .ok (tickPrice n, stepTarget limit aToB n) := by
  unfold getNextSqrtPrices
  rw [sqrtPriceFromTickIndex_eq hn]
  rfl

/-- The target of a step is the limit or the price of the tick. -/
theorem stepTarget_choice (limit : ℕ) (aToB : Bool) (n : ℤ) :
    stepTarget limit aToB n = limit ∨ stepTarget limit aToB n = tickPrice n := by
  unfold stepTarget
  cases aToB
  · exact min_choice limit (tickPrice n)
  · exact max_choice limit (tickPrice n)

/-- The target of a step lies ahead of the price, and not beyond the limit.

**Proof sketch.** By the direction. The next tick is on the far side of the current one, and so is
its price, because prices are monotone; the target is the nearer one of this price and the limit. -/
theorem stepTarget_toward {c n : ℤ} {p : ℕ} {T : ℤ → Tick} (h : PriceAt c p)
    (hs : TickMap.SearchResult T aToB c n) (ht : Toward aToB p limit) :
    Toward aToB p (stepTarget limit aToB n) ∧ Toward aToB (stepTarget limit aToB n) limit ∧
      Toward aToB (stepTarget limit aToB n) (tickPrice n) := by
  have h1 := h.tick_min
  have h2 := h.tick_max
  have h3 := hs.lower
  have h4 := hs.upper
  unfold minTickIndex maxTickIndex at *
  unfold stepTarget
  cases aToB with
  | true =>
    obtain ⟨hle, -⟩ := hs.left rfl
    rw [toward_true] at ht
    rw [if_pos rfl, toward_true, toward_true, toward_true]
    exact ⟨max_le ht ((tickPrice_le (by omega) hle (by omega)).trans h.lower), le_max_left _ _,
      le_max_right _ _⟩
  | false =>
    obtain ⟨hlt, -⟩ := hs.right rfl
    rw [toward_false] at ht
    rw [if_neg (by simp), toward_false, toward_false, toward_false]
    exact ⟨le_min ht (h.upper.trans (tickPrice_le (by omega) (by omega) (by omega))),
      min_le_left _ _, min_le_right _ _⟩

/-! ## The inversion of an iteration -/

/-- What an iteration computed, one line of the source after the other. -/
theorem swapStep_eq_ok (h : swapStep w infos limit input aToB s = .ok s') :
    ∃ j n q comp, s.swapTickSequence.getNextInitializedTickIndex s.currTickIndex w.tickSpacing aToB
        s.currArrayIndex = .ok (j, n) ∧
      sqrtPriceFromTickIndex n = .ok q ∧
      computeSwap s.amountRemaining w.feeRate s.currLiquidity s.currSqrtPrice
        (if aToB then max limit q else min limit q) input aToB = .ok comp ∧
      nextAmounts input s.amountRemaining s.amountCalculated comp =
        .ok (s'.amountRemaining, s'.amountCalculated) ∧
      calculateFees comp.feeAmount w.protocolFeeRate s.currLiquidity s.currProtocolFee
        s.currFeeGrowthGlobalInput = .ok (s'.currProtocolFee, s'.currFeeGrowthGlobalInput) ∧
      s'.currSqrtPrice = comp.nextPrice ∧
      advance w infos aToB j n q comp.nextPrice s'.currFeeGrowthGlobalInput s =
        .ok (s'.currLiquidity, s'.swapTickSequence, s'.currArrayIndex, s'.currTickIndex) := by
  unfold swapStep getNextSqrtPrices at h
  simp only [Res.bind_eq_ok, Res.pure_eq_ok, Except.ok.injEq, Prod.exists, Prod.mk.injEq] at h
  obtain ⟨j, n, hsearch, price, target, ⟨q, hq, rfl, rfl⟩, comp, hcomp, rem, calc', hamounts, prot,
    growth, hfees, liq, seq, array, tick, hadv, rfl⟩ := h
  exact ⟨j, n, q, comp, hsearch, hq, hcomp, hamounts, hfees, rfl, hadv⟩

/-- The inversion of a crossing.

**Proof sketch.** An initialized tick can be read from its array, so the lookup does not fail on one;
a tick that is not initialized is passed without an update. -/
lemma crossTick_eq_ok {j : ℕ} {n : ℤ} {l l' : ℕ} {g : Growth} {seq seq' : SwapTickSequence}
    (hts : w.tickSpacing ≠ 0) (hwp : (base.store seq).WellPlaced w.tickSpacing)
    (hnd : (seq.map TickArray.startTickIndex).Nodup)
    (hus : ∀ t, ((base.store seq).tick w.tickSpacing t).initialized = true →
      UsableTick w.tickSpacing t)
    (hfound : ((base.store seq).tick w.tickSpacing n).initialized = true →
      ∃ array, seq[j]? = some array ∧ array.Holds w.tickSpacing n)
    (h : crossTick w infos aToB j n l g seq = .ok (l', seq')) :
    (((base.store seq).tick w.tickSpacing n).initialized = true ∧
        addLiquidityDelta l (crossedNet aToB ((base.store seq).tick w.tickSpacing n)) = .ok l' ∧
        seq.updateTick j n w.tickSpacing
          (crossedTick w infos aToB g ((base.store seq).tick w.tickSpacing n)) = .ok seq') ∨
      (((base.store seq).tick w.tickSpacing n).initialized = false ∧ l' = l ∧ seq' = seq) := by
  have hload : (base.store seq).Loads seq := TickMap.loads_store hnd
  unfold crossTick at h
  split at h
  · next e he =>
    rw [Except.ok.injEq, Prod.mk.injEq] at h
    refine Or.inr ⟨?_, h.1.symm, h.2.symm⟩
    -- an initialized tick can be read, so the lookup does not fail on one
    by_contra hcon
    rw [Bool.not_eq_false] at hcon
    obtain ⟨array, ha, hh⟩ := hfound hcon
    obtain ⟨tick, htick⟩ := TickMap.exists_getTick_eq_ok hts ha hh (hus n hcon)
    rw [htick] at he
    cases he
  · cases h
  · next tick htick =>
    obtain rfl := TickMap.getTick_eq_ok hwp hload htick
    cases hinit : ((base.store seq).tick w.tickSpacing n).initialized with
    | false =>
      rw [hinit, if_neg (by simp), Except.ok.injEq, Prod.mk.injEq] at h
      exact Or.inr ⟨rfl, h.1.symm, h.2.symm⟩
    | true =>
      rw [hinit, if_pos rfl] at h
      refine Or.inl ⟨rfl, ?_⟩
      unfold calculateUpdate at h
      cases aToB <;>
        · simp only [Bool.false_eq_true, if_true, if_false, Res.bind_eq_ok, Res.pure_eq_ok,
            Except.ok.injEq, Prod.mk.injEq, Prod.exists] at h
          obtain ⟨_, _, ⟨_, hl, rfl, rfl⟩, _, hu, rfl, rfl⟩ := h
          exact ⟨hl, hu⟩

/-- While the loop runs, its search finds the next initialized tick of the pool. -/
theorem SwapState.WellFormed.search (hb : SwapBounds w limit amount)
    (hs : s.WellFormed w base limit amount aToB) (hne : limit ≠ s.currSqrtPrice) {j : ℕ} {n : ℤ}
    (h : s.swapTickSequence.getNextInitializedTickIndex s.currTickIndex w.tickSpacing aToB
      s.currArrayIndex = .ok (j, n)) :
    TickMap.SearchResult (s.ticks base w.tickSpacing) aToB s.currTickIndex n ∧
      ((s.ticks base w.tickSpacing n).initialized = true →
        ∃ array, s.swapTickSequence[j]? = some array ∧ array.Holds w.tickSpacing n) :=
  TickMap.getNextInitializedTickIndex_spec hs.wellPlaced
    (fun t ht => ⟨(hs.usable t ht).1, (hs.usable t ht).2.1⟩) (TickMap.loads_store hs.nodup)
    (hs.price.searchStart hb.min_le hb.le_max hs.toward hne) h

/-- **The inversion of an iteration.**

**Proof sketch.** The inversion of the code, with the search and the computation replaced by what
they are known to return. At the price of the tick the iteration crosses it or passes a tick that is
not initialized; short of it the tick index is computed again if the price has moved. -/
theorem swapStep_cases (hb : SwapBounds w limit amount)
    (hs : s.WellFormed w base limit amount aToB) (hne : limit ≠ s.currSqrtPrice)
    (h : swapStep w infos limit input aToB s = .ok s') :
    ∃ j n comp, s.swapTickSequence.getNextInitializedTickIndex s.currTickIndex w.tickSpacing aToB
        s.currArrayIndex = .ok (j, n) ∧
      computeSwap s.amountRemaining w.feeRate s.currLiquidity s.currSqrtPrice
        (stepTarget limit aToB n) input aToB = .ok comp ∧
      StepResult w infos base limit input aToB n comp s s' := by
  obtain ⟨j, n, q, comp, hsearch, hq, hcomp, hamounts, hfees, hprice, hadv⟩ := swapStep_eq_ok h
  obtain ⟨hres, hfound⟩ := hs.search hb hne hsearch
  rw [sqrtPriceFromTickIndex_eq hres.upper, Except.ok.injEq] at hq
  subst hq
  obtain ⟨ht1, ht2, -⟩ := stepTarget_toward hs.price hres hs.toward
  have htpos : 0 < stepTarget limit aToB n ∧ stepTarget limit aToB n < 2 ^ 128 := by
    have h1 := hres.lower
    have h2 := hres.upper
    unfold minTickIndex maxTickIndex at *
    have hle : tickPrice n ≤ maxSqrtPriceX64 := by
      rw [← tickPrice_max]
      exact tickPrice_le (by omega) h2 (by norm_num)
    have hpos : 0 < tickPrice n := tickPrice_pos (by omega) (by omega)
    have hlpos : 0 < limit := lt_of_lt_of_le (by norm_num [minSqrtPriceX64]) hb.min_le
    have hlmax := hb.le_max
    have hmax : maxSqrtPriceX64 < 2 ^ 128 := by norm_num [maxSqrtPriceX64]
    unfold stepTarget
    cases aToB
    · exact ⟨lt_min hlpos hpos, lt_of_le_of_lt (min_le_left _ _) (hlmax.trans_lt hmax)⟩
    · exact ⟨lt_max_of_lt_left hlpos, max_lt (hlmax.trans_lt hmax) (hle.trans_lt hmax)⟩
  have hts : w.tickSpacing ≠ 0 := SwapTickSequence.spacing_ne_zero hsearch
  refine ⟨j, n, comp, hsearch, hcomp, hres, computeSwap_contract hs.liquidity_lt hs.price.lt htpos.2
    (hs.remaining_le.trans_lt hb.amount_lt) hb.feeRate_lt hs.price.pos htpos.1 ht1 hcomp,
    hamounts, hfees, hprice, ?_⟩
  unfold advance at hadv
  by_cases hreach : comp.nextPrice = tickPrice n
  · rw [if_pos hreach, Res.bind_eq_ok] at hadv
    obtain ⟨⟨l', seq'⟩, hcross, hadv⟩ := hadv
    rw [Res.bind_eq_ok] at hadv
    obtain ⟨o, -, hadv⟩ := hadv
    rw [Res.pure_eq_ok, Except.ok.injEq, Prod.mk.injEq, Prod.mk.injEq, Prod.mk.injEq] at hadv
    obtain ⟨rfl, rfl, -, hc⟩ := hadv
    rcases crossTick_eq_ok hts hs.wellPlaced hs.nodup hs.usable hfound hcross with
      ⟨hinit, hl, hu⟩ | ⟨hinit, hl, hu⟩
    · obtain ⟨-, hnd, hwp, htick⟩ := TickMap.store_updateTick hs.wellPlaced hs.nodup hu
      exact .cross (hprice.trans hreach) hinit hl htick hnd hwp hc.symm
    · exact .pass (hprice.trans hreach) hinit hl hu hc.symm
  · rw [if_neg hreach] at hadv
    by_cases hstay : comp.nextPrice = s.currSqrtPrice
    · rw [if_neg (not_not.2 hstay), Except.ok.injEq, Prod.mk.injEq, Prod.mk.injEq,
        Prod.mk.injEq] at hadv
      obtain ⟨hl, hu, -, hc⟩ := hadv
      exact .stop (hprice ▸ hreach) hl.symm hu.symm (Or.inr ⟨hprice.trans hstay, hc.symm⟩)
    · rw [if_pos hstay, Res.bind_eq_ok] at hadv
      obtain ⟨c', hc', hadv⟩ := hadv
      rw [Res.pure_eq_ok, Except.ok.injEq, Prod.mk.injEq, Prod.mk.injEq, Prod.mk.injEq] at hadv
      obtain ⟨hl, hu, -, rfl⟩ := hadv
      exact .stop (hprice ▸ hreach) hl.symm hu.symm (Or.inl ⟨hprice ▸ hstay, hprice ▸ hc'⟩)

/-! ## What an iteration keeps -/

section Step

variable {n : ℤ} {comp : SwapStepComputation}

/-- A price between two prices of the price range is one. -/
lemma Toward.bounds {p q r : ℕ} (h : Toward aToB p q) (h' : Toward aToB q r)
    (hp : minSqrtPriceX64 ≤ p ∧ p ≤ maxSqrtPriceX64)
    (hr : minSqrtPriceX64 ≤ r ∧ r ≤ maxSqrtPriceX64) :
    minSqrtPriceX64 ≤ q ∧ q ≤ maxSqrtPriceX64 := by
  cases aToB
  · exact ⟨hp.1.trans h, le_trans h' hr.2⟩
  · exact ⟨hr.1.trans h', le_trans h hp.2⟩

/-- The price after an iteration lies between the limit and the price before. -/
theorem StepResult.price_bounds (hb : SwapBounds w limit amount)
    (hs : s.WellFormed w base limit amount aToB)
    (h : StepResult w infos base limit input aToB n comp s s') :
    Toward aToB s.currSqrtPrice s'.currSqrtPrice ∧ Toward aToB s'.currSqrtPrice limit ∧
      Toward aToB s'.currSqrtPrice (tickPrice n) ∧
      minSqrtPriceX64 ≤ s'.currSqrtPrice ∧ s'.currSqrtPrice ≤ maxSqrtPriceX64 := by
  obtain ⟨-, ht2, ht3⟩ := stepTarget_toward hs.price h.search hs.toward
  have h1 : Toward aToB s.currSqrtPrice s'.currSqrtPrice := h.price ▸ h.contract.toward
  have h2 : Toward aToB s'.currSqrtPrice (stepTarget limit aToB n) := h.price ▸ h.contract.within
  exact ⟨h1, h2.trans ht2, h2.trans ht3, h1.bounds (h2.trans ht2)
    ⟨hs.price.min_le, hs.price.le_max⟩ ⟨hb.min_le, hb.le_max⟩⟩

/-- Short of the tick that was found, the new tick index lies between it and the old one.

**Proof sketch.** If the price has moved, the new tick index is the floor tick of a price that lies
between the old one and that of the tick. If it has not, the tick index stays. -/
theorem StepResult.between (hb : SwapBounds w limit amount)
    (hs : s.WellFormed w base limit amount aToB)
    (h : StepResult w infos base limit input aToB n comp s s')
    (hshort : s'.currSqrtPrice ≠ tickPrice n)
    (hmove : (s'.currSqrtPrice ≠ s.currSqrtPrice ∧
        tickIndexFromSqrtPrice s'.currSqrtPrice = .ok s'.currTickIndex) ∨
      (s'.currSqrtPrice = s.currSqrtPrice ∧ s'.currTickIndex = s.currTickIndex)) :
    PriceAt s'.currTickIndex s'.currSqrtPrice ∧
      if aToB then n ≤ s'.currTickIndex ∧ s'.currTickIndex ≤ s.currTickIndex
      else s.currTickIndex ≤ s'.currTickIndex ∧ s'.currTickIndex < n := by
  obtain ⟨h1, -, h3, hmin, hmax⟩ := h.price_bounds hb hs
  have hn1 := h.search.lower
  have hn2 := h.search.upper
  have hc1 := hs.price.tick_min
  have hc2 := hs.price.tick_max
  have hlo := hs.price.lower
  have hup := hs.price.upper
  unfold minTickIndex maxTickIndex at *
  rcases hmove with ⟨hmoved, ht⟩ | ⟨hp, hc⟩
  · obtain ⟨t, ht', ht1, ht2, ht3, ht4⟩ := tickIndexFromSqrtPrice_spec hmin hmax
    rw [ht, Except.ok.injEq] at ht'
    subst ht'
    refine ⟨⟨hmin, hmax, ht3, ht4.le, by unfold minTickIndex; omega, by unfold maxTickIndex; omega⟩,
      ?_⟩
    cases aToB with
    | true =>
      rw [toward_true] at h1 h3
      have hlt1 : tickPrice n < tickPrice (s'.currTickIndex + 1) :=
        lt_of_le_of_lt h3 ht4
      have hlt2 : tickPrice s'.currTickIndex < tickPrice (s.currTickIndex + 1) :=
        lt_of_le_of_lt ht3 (lt_of_lt_of_le (lt_of_le_of_ne h1 hmoved) hup)
      have := le_of_tickPrice_lt (by omega) (by omega) hlt1
      have := le_of_tickPrice_lt (by omega) (by omega) hlt2
      exact ⟨by omega, by omega⟩
    | false =>
      rw [toward_false] at h1 h3
      have hlt1 : tickPrice s'.currTickIndex < tickPrice n :=
        lt_of_le_of_lt ht3 (lt_of_le_of_ne h3 hshort)
      have hlt2 : tickPrice s.currTickIndex < tickPrice (s'.currTickIndex + 1) :=
        lt_of_le_of_lt hlo (lt_of_le_of_lt h1 ht4)
      have := le_of_tickPrice_lt (by omega) (by omega) hlt1
      have := le_of_tickPrice_lt (by omega) (by omega) hlt2
      exact ⟨by omega, by omega⟩
  · rw [hp, hc]
    refine ⟨hs.price, ?_⟩
    cases aToB with
    | true => exact ⟨(h.search.left rfl).1, le_rfl⟩
    | false => exact ⟨le_rfl, (h.search.right rfl).1⟩

/-- The relation of price and tick index after an iteration that reached its tick.

**Proof sketch.** By the direction. After a move to the left the tick index is one below the tick
that was reached, and to the right it is this tick; both have the price between them and the next
one. -/
lemma StepResult.reached (hb : SwapBounds w limit amount)
    (hs : s.WellFormed w base limit amount aToB)
    (h : StepResult w infos base limit input aToB n comp s s')
    (hreach : s'.currSqrtPrice = tickPrice n) (htick : s'.currTickIndex = crossedIndex aToB n) :
    PriceAt s'.currTickIndex s'.currSqrtPrice := by
  obtain ⟨-, -, -, hmin, hmax⟩ := h.price_bounds hb hs
  have hn1 := h.search.lower
  have hn2 := h.search.upper
  rw [hreach] at hmin hmax ⊢
  rw [htick]
  unfold crossedIndex
  cases aToB with
  | true =>
    rw [if_pos rfl]
    refine ⟨hmin, hmax, ?_, by rw [sub_add_cancel], by omega, by omega⟩
    unfold minTickIndex maxTickIndex at *
    exact tickPrice_le (by omega) (by omega) (by omega)
  | false =>
    rw [if_neg (by simp)]
    refine ⟨hmin, hmax, le_rfl, ?_, by omega, hn2⟩
    unfold minTickIndex maxTickIndex at *
    exact tickPrice_le (by omega) (by omega) (by omega)

/-- Crossing a tick does not change whether it is initialized. -/
lemma crossedTick_initialized (g : Growth) (tick : Tick) :
    (crossedTick w infos aToB g tick).initialized = tick.initialized := rfl

/-- The amounts after a step with a specified input. -/
theorem nextAmounts_input {r c r' c' : ℕ} : nextAmounts true r c comp = .ok (r', c') ↔
    comp.amountIn + comp.feeAmount ≤ r ∧ r' = r - (comp.amountIn + comp.feeAmount) ∧
      c' = c + comp.amountOut ∧ c' < 2 ^ 64 := by
  unfold nextAmounts
  simp only [if_true, Res.bind_eq_ok, okOr_eq_ok, checkedSub_eq_some, checkedAdd_eq_some,
    Res.pure_eq_ok, Except.ok.injEq, Prod.mk.injEq]
  constructor
  · rintro ⟨_, ⟨h1, rfl⟩, _, ⟨h2, rfl⟩, _, ⟨h3, rfl⟩, rfl, rfl⟩
    exact ⟨by omega, by omega, rfl, h3⟩
  · rintro ⟨h1, rfl, rfl, h3⟩
    exact ⟨_, ⟨by omega, rfl⟩, _, ⟨by omega, rfl⟩, _, ⟨h3, rfl⟩, by omega, rfl⟩

/-- The amounts after a step with a specified output. -/
theorem nextAmounts_output {r c r' c' : ℕ} : nextAmounts false r c comp = .ok (r', c') ↔
    comp.amountOut ≤ r ∧ r' = r - comp.amountOut ∧
      c' = c + (comp.amountIn + comp.feeAmount) ∧ c' < 2 ^ 64 := by
  unfold nextAmounts
  simp only [Bool.false_eq_true, if_false, Res.bind_eq_ok, okOr_eq_ok, checkedSub_eq_some,
    checkedAdd_eq_some, Res.pure_eq_ok, Except.ok.injEq, Prod.mk.injEq]
  constructor
  · rintro ⟨_, ⟨h1, rfl⟩, _, ⟨h2, rfl⟩, _, ⟨h3, rfl⟩, rfl, rfl⟩
    exact ⟨h1, rfl, by omega, by omega⟩
  · rintro ⟨h1, rfl, rfl, h3⟩
    exact ⟨_, ⟨h1, rfl⟩, _, ⟨by omega, rfl⟩, _, ⟨by omega, rfl⟩, rfl, by omega⟩

/-- A step does not add to what remains. -/
theorem StepResult.remaining_le (h : StepResult w infos base limit input aToB n comp s s') :
    s'.amountRemaining ≤ s.amountRemaining := by
  have ha := h.amounts
  cases input with
  | true =>
    obtain ⟨-, h2, -⟩ := nextAmounts_input.1 ha
    omega
  | false =>
    obtain ⟨-, h2, -⟩ := nextAmounts_output.1 ha
    omega

/-- **An iteration keeps the invariant.**

**Proof sketch.** By what the iteration has done with the tick. Only a crossing writes to the
arrays, and it leaves them well placed, without repetition and on usable ticks. -/
theorem StepResult.wellFormed (hb : SwapBounds w limit amount)
    (hs : s.WellFormed w base limit amount aToB)
    (h : StepResult w infos base limit input aToB n comp s s') :
    s'.WellFormed w base limit amount aToB := by
  have htow := (h.price_bounds hb hs).2.1
  have hrem := h.remaining_le.trans hs.remaining_le
  have hsame : s'.swapTickSequence = s.swapTickSequence →
      (s'.swapTickSequence.map TickArray.startTickIndex).Nodup ∧
        (base.store s'.swapTickSequence).WellPlaced w.tickSpacing ∧
        ∀ t, (s'.ticks base w.tickSpacing t).initialized = true →
          UsableTick w.tickSpacing t := fun he => by
    unfold SwapState.ticks
    rw [he]
    exact ⟨hs.nodup, hs.wellPlaced, hs.usable⟩
  cases h.move with
  | cross hreach hinit hl ht hnd hwp hc =>
    refine ⟨h.reached hb hs hreach hc, htow, addLiquidityDelta_lt hs.liquidity_lt hl, hrem, hnd, hwp,
      fun t htt => ?_⟩
    rw [ht] at htt
    rcases eq_or_ne t n with rfl | hne
    · exact hs.usable t hinit
    · rw [Function.update_of_ne hne] at htt
      exact hs.usable t htt
  | pass hreach hinit hl ht hc =>
    obtain ⟨h1, h2, h3⟩ := hsame ht
    exact ⟨h.reached hb hs hreach hc, htow, hl ▸ hs.liquidity_lt, hrem, h1, h2, h3⟩
  | stop hshort hl ht hc =>
    obtain ⟨h1, h2, h3⟩ := hsame ht
    exact ⟨(h.between hb hs hshort hc).1, htow, hl ▸ hs.liquidity_lt, hrem, h1, h2, h3⟩

end Step

/-! ## The whole loop -/

/-- The loop goes on. -/
def SwapState.Running (limit : ℕ) (s : SwapState) : Prop :=
  s.amountRemaining > 0 ∧ limit ≠ s.currSqrtPrice

instance (limit : ℕ) (s : SwapState) : Decidable (s.Running limit) :=
  inferInstanceAs (Decidable (_ ∧ _))

/-- While the loop is running it takes a step. -/
lemma swapLoop_running {count : ℕ} (h : s.Running limit) :
    swapLoop w infos limit input aToB (count + 1) s =
      swapStep w infos limit input aToB s >>= swapLoop w infos limit input aToB count :=
  if_pos h

/-- A loop that is done returns its state. -/
lemma swapLoop_done {count : ℕ} (h : ¬s.Running limit) :
    swapLoop w infos limit input aToB (count + 1) s = .ok s :=
  if_neg h

/-- **The induction on the iterations of the loop.** -/
theorem swapLoop_invariant {Inv : SwapState → Prop}
    (hstep : ∀ s s', Inv s → s.Running limit →
      swapStep w infos limit input aToB s = .ok s' → Inv s') :
    ∀ (count : ℕ) {s s' : SwapState}, Inv s →
      swapLoop w infos limit input aToB count s = .ok s' → Inv s' ∧ ¬s'.Running limit
  | 0, _, _, _, h => by simp [swapLoop] at h
  | count + 1, s, s', hs, h => by
    by_cases hrun : s.Running limit
    · rw [swapLoop_running hrun, Res.bind_eq_ok] at h
      obtain ⟨s₁, h1, h2⟩ := h
      exact swapLoop_invariant hstep count (hstep s s₁ hs hrun h1) h2
    · rw [swapLoop_done hrun, Except.ok.injEq] at h
      subst h
      exact ⟨hs, hrun⟩

/-- The iterations of the loop, one after the other. -/
def Iterates (w : Whirlpool) (infos : Fin numRewards → WhirlpoolRewardInfo) (limit : ℕ)
    (input aToB : Bool) : SwapState → SwapState → Prop :=
  Relation.ReflTransGen fun s s' =>
    s.Running limit ∧ swapStep w infos limit input aToB s = .ok s'

/-- The loop returns the variables after its last iteration. -/
theorem swapLoop_iterates {count : ℕ} {s' : SwapState}
    (h : swapLoop w infos limit input aToB count s = .ok s') :
    Iterates w infos limit input aToB s s' := by
  have hstep : ∀ s₁ s₂, Iterates w infos limit input aToB s s₁ → s₁.Running limit →
      swapStep w infos limit input aToB s₁ = .ok s₂ → Iterates w infos limit input aToB s s₂ :=
    fun _ _ hs hrun hnext => hs.tail ⟨hrun, hnext⟩
  exact (swapLoop_invariant hstep count .refl h).1

/-- The tick index after an iteration: that of a tick it reached, that of its price, or the one
before.

**Proof sketch.** By the last branch of the source: the price is that of the tick, or another one
than before, or the one before. -/
theorem swapStep_tick (h : swapStep w infos limit input aToB s = .ok s') :
    (∃ j n, s.swapTickSequence.getNextInitializedTickIndex s.currTickIndex w.tickSpacing aToB
        s.currArrayIndex = .ok (j, n) ∧ sqrtPriceFromTickIndex n = .ok s'.currSqrtPrice ∧
        s'.currTickIndex = crossedIndex aToB n) ∨
      tickIndexFromSqrtPrice s'.currSqrtPrice = .ok s'.currTickIndex ∨
      (s'.currSqrtPrice = s.currSqrtPrice ∧ s'.currTickIndex = s.currTickIndex) := by
  obtain ⟨j, n, q, comp, hsearch, hq, -, -, -, hprice, hadv⟩ := swapStep_eq_ok h
  unfold advance at hadv
  by_cases h1 : comp.nextPrice = q
  · rw [if_pos h1] at hadv
    simp only [Res.bind_eq_ok, Res.pure_eq_ok, Except.ok.injEq, Prod.exists, Prod.mk.injEq] at hadv
    obtain ⟨_, _, -, _, -, -, -, -, hc⟩ := hadv
    exact Or.inl ⟨j, n, hsearch, by rw [hq, hprice, h1], hc.symm⟩
  rw [if_neg h1] at hadv
  by_cases h2 : comp.nextPrice = s.currSqrtPrice
  · rw [if_neg (not_not.2 h2), Except.ok.injEq] at hadv
    simp only [Prod.mk.injEq] at hadv
    exact Or.inr (Or.inr ⟨hprice.trans h2, hadv.2.2.2.symm⟩)
  · rw [if_pos h2] at hadv
    simp only [Res.bind_eq_ok, Res.pure_eq_ok, Except.ok.injEq, Prod.mk.injEq] at hadv
    obtain ⟨_, ht, -, -, -, rfl⟩ := hadv
    exact Or.inr (Or.inl (hprice ▸ ht))

/-- An iteration of a swap from A to B that reaches a tick, and ends one index below it. -/
structure CrossesLeft (w : Whirlpool) (infos : Fin numRewards → WhirlpoolRewardInfo) (limit : ℕ)
    (input : Bool) (s s' : SwapState) : Prop where
  running : s.Running limit
  step : swapStep w infos limit input true s = .ok s'
  reached : ∃ j n, s.swapTickSequence.getNextInitializedTickIndex s.currTickIndex w.tickSpacing
    true s.currArrayIndex = .ok (j, n) ∧ sqrtPriceFromTickIndex n = .ok s'.currSqrtPrice ∧
      s'.currTickIndex = n - 1

/-- **The price is that of the next tick only after a crossing to the left.**

**Proof sketch.** By `swapStep_tick`. A tick index that is taken from the price is a floor, which
excludes the price of the next tick, and so does a tick that was reached to the right. -/
theorem swapStep_next_tick (hprice : PriceAt s'.currTickIndex s'.currSqrtPrice)
    (hrun : s.Running limit) (h : swapStep w infos limit input aToB s = .ok s')
    (hnext : s'.currSqrtPrice = tickPrice (s'.currTickIndex + 1)) :
    (aToB = true ∧ CrossesLeft w infos limit input s s') ∨
      (s'.currSqrtPrice = s.currSqrtPrice ∧ s'.currTickIndex = s.currTickIndex) := by
  have hmin := hprice.tick_min
  have hmax := hprice.tick_max
  unfold minTickIndex at hmin
  unfold maxTickIndex at hmax
  have hlt : tickPrice s'.currTickIndex < tickPrice (s'.currTickIndex + 1) :=
    tickPrice_lt (by omega) (by omega) (by omega)
  rcases swapStep_tick h with ⟨j, n, hsearch, hq, hc⟩ | ht | hsame
  · cases aToB with
    | true => exact Or.inl ⟨rfl, hrun, h, j, n, hsearch, hq, hc⟩
    | false =>
      -- to the right the tick index is that of the tick itself
      change s'.currTickIndex = n at hc
      rw [← hc, sqrtPriceFromTickIndex_eq hprice.tick_max, Except.ok.injEq] at hq
      omega
  · obtain ⟨t, ht', -, -, -, hlt'⟩ := tickIndexFromSqrtPrice_spec hprice.min_le hprice.le_max
    rw [ht, Except.ok.injEq] at ht'
    subst ht'
    omega
  · exact Or.inr hsame

/-- An iteration that stops short of its tick is the last one.

**Proof sketch.** If the loop goes on, the price is neither the limit nor that of the tick, so it is
not the target. A step that does not reach its target uses up its amount, and then the loop ends. -/
theorem StepResult.not_running {n : ℤ} {comp : SwapStepComputation}
    (h : StepResult w infos base limit input aToB n comp s s')
    (hshort : s'.currSqrtPrice ≠ tickPrice n) : ¬s'.Running limit := by
  rintro ⟨hrem, hne⟩
  have hp := h.price
  have htarget : comp.nextPrice ≠ stepTarget limit aToB n := fun he => by
    rw [← hp] at he
    rcases stepTarget_choice limit aToB n with hm | hm
    · exact hne (he.trans hm).symm
    · exact hshort (he.trans hm)
  have ha := h.amounts
  cases input with
  | true =>
    obtain ⟨-, h2, -⟩ := nextAmounts_input.1 ha
    have := h.contract.spent_all rfl htarget
    omega
  | false =>
    obtain ⟨-, h2, -⟩ := nextAmounts_output.1 ha
    have := h.contract.received_all rfl htarget
    omega

end NemoSwap
