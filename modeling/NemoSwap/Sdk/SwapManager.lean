import NemoSwap.Manager.SwapPrefix
import NemoSwap.Manager.SwapTermination
import NemoSwap.Sdk.SwapMath
import NemoSwap.Sdk.TickArraySequence

set_option relaxedAutoImplicit false
set_option autoImplicit false

/-!
# `sdk/src/quotes/swap/swap-manager.ts`: the loop of a quote

The SDK repeats the loop of the program off chain, on its own arrays and with its own arithmetic.
It never writes to a tick array, and always takes the tick of the price when a step stops short.

## Main definitions

* `NemoSwap.Sdk.SwapManager.computeSwap` — the loop of the SDK.
* `NemoSwap.Sdk.RoundsAlike` — no step of a swap has a rounding gap.
* `NemoSwap.Sdk.Simulates` — the variables of the SDK are those of the program.

## Main results

* `NemoSwap.Sdk.Simulates.step` — an iteration of the program is one of the SDK.
* `NemoSwap.Sdk.computeSwap_of_swap` — where a swap succeeds, the SDK computes the same amounts and
  the same price.

## Design

The liquidity and the tick of the SDK are only compared while the loop runs. At the bound of the
tick range the SDK reads the slot that holds the bound, which the program does not, and a step that
does not move the price leaves the program at a tick whose next tick has this very price.
-/

namespace NemoSwap

namespace Sdk

/-- `SwapResult`. -/
structure SwapResult where
  amountA : BN
  amountB : BN
  nextTickIndex : ℤ
  nextSqrtPrice : BN
  totalFeeAmount : BN
  deriving DecidableEq

/-- The variables of the loop of `computeSwap`, and its arrays. -/
structure SwapVariables (Address : Type) where
  amountRemaining : BN
  amountCalculated : BN
  currSqrtPrice : BN
  currLiquidity : BN
  currTickIndex : ℤ
  totalFeeAmount : BN
  currProtocolFee : BN
  currFeeGrowthGlobalInput : BN
  tickSequence : TickArraySequence Address

namespace SwapManager

variable {Address : Type}

/-- `getNextSqrtPrices`. -/
def getNextSqrtPrices (nextTick : ℤ) (sqrtPriceLimit : BN) (aToB : Bool) : BN × BN :=
  let nextTickPrice := PriceMath.tickIndexToSqrtPriceX64 nextTick
  let nextSqrtPriceLimit :=
    if aToB then max sqrtPriceLimit nextTickPrice else min sqrtPriceLimit nextTickPrice
  (nextTickPrice, nextSqrtPriceLimit)

/-- `calculateProtocolFee`. The rate is divided before it is multiplied. -/
def calculateProtocolFee (globalFee : BN) (protocolFeeRate : ℕ) : BN :=
  globalFee * (protocolFeeRate : ℤ).tdiv protocolFeeRateMulValue

/-- `calculateFees`. The protocol fee is added to itself, not increased by `delta`. -/
def calculateFees (feeAmount : BN) (protocolFeeRate : ℕ)
    (currLiquidity currProtocolFee currFeeGrowthGlobalInput : BN) : BN × BN :=
  let (globalFee, nextProtocolFee) := if protocolFeeRate > 0 then
      (feeAmount - calculateProtocolFee feeAmount protocolFeeRate,
        currProtocolFee + currProtocolFee)
    else (feeAmount, currProtocolFee)
  let nextFeeGrowthGlobalInput := if currLiquidity > 0 then
      currFeeGrowthGlobalInput + (BN.shln globalFee 64).tdiv currLiquidity
    else currFeeGrowthGlobalInput
  (nextProtocolFee, nextFeeGrowthGlobalInput)

/-- `calculateNextLiquidity`. -/
def calculateNextLiquidity (tickNetLiquidity currLiquidity : BN) (aToB : Bool) : BN :=
  if aToB then currLiquidity - tickNetLiquidity else currLiquidity + tickNetLiquidity

/-- `calculateEstTokens`. -/
def calculateEstTokens (amount amountRemaining amountCalculated : BN)
    (aToB amountSpecifiedIsInput : Bool) : BN × BN :=
  if aToB = amountSpecifiedIsInput then (amount - amountRemaining, amountCalculated)
  else (amountCalculated, amount - amountRemaining)

/-- The lines of the loop that cross the next tick or take the tick of the price: the liquidity,
the tick and the arrays after a step that ended at `nextPrice`. -/
def advance (aToB : Bool) (nextTickIndex : ℤ) (nextTickPrice nextPrice currLiquidity : BN)
    (tickSequence : TickArraySequence Address) :
    Quote (BN × ℤ × TickArraySequence Address) :=
  if nextPrice = nextTickPrice then do
    let (nextTick, tickSequence) ← tickSequence.getTick nextTickIndex
    let currLiquidity := if nextTick.initialized then
        calculateNextLiquidity nextTick.liquidityNet currLiquidity aToB
      else currLiquidity
    return (currLiquidity, if aToB then nextTickIndex - 1 else nextTickIndex, tickSequence)
  else do
    let currTickIndex ← Quote.lift (PriceMath.sqrtPriceX64ToTickIndex nextPrice)
    return (currLiquidity, currTickIndex, tickSequence)

/-- One iteration of the loop of `computeSwap`. -/
def computeSwapIteration (M : MathUtil) (whirlpoolData : Whirlpool) (sqrtPriceLimit : BN)
    (amountSpecifiedIsInput aToB : Bool) (v : SwapVariables Address) :
    Quote (SwapVariables Address) := do
  let (nextTickIndex, _, tickSequence) ←
    v.tickSequence.findNextInitializedTickIndex v.currTickIndex
  let (nextTickPrice, targetSqrtPrice) := getNextSqrtPrices nextTickIndex sqrtPriceLimit aToB
  let swapComputation ← Quote.lift (computeSwapStep M v.amountRemaining whirlpoolData.feeRate
    v.currLiquidity v.currSqrtPrice targetSqrtPrice amountSpecifiedIsInput aToB)
  let totalFeeAmount := v.totalFeeAmount + swapComputation.feeAmount
  let (amountRemaining, amountCalculated) := if amountSpecifiedIsInput then
      (v.amountRemaining - swapComputation.amountIn - swapComputation.feeAmount,
        v.amountCalculated + swapComputation.amountOut)
    else (v.amountRemaining - swapComputation.amountOut,
      v.amountCalculated + swapComputation.amountIn + swapComputation.feeAmount)
  let (currProtocolFee, currFeeGrowthGlobalInput) := calculateFees swapComputation.feeAmount
    whirlpoolData.protocolFeeRate v.currLiquidity v.currProtocolFee v.currFeeGrowthGlobalInput
  let (currLiquidity, currTickIndex, tickSequence) ← advance aToB nextTickIndex nextTickPrice
    swapComputation.nextPrice v.currLiquidity tickSequence
  return { amountRemaining, amountCalculated, currSqrtPrice := swapComputation.nextPrice
           currLiquidity, currTickIndex, totalFeeAmount, currProtocolFee
           currFeeGrowthGlobalInput, tickSequence }

/-- The loop of `computeSwap`, with at most `count` iterations. -/
def computeSwapLoop (M : MathUtil) (whirlpoolData : Whirlpool) (sqrtPriceLimit : BN)
    (amountSpecifiedIsInput aToB : Bool) : ℕ → SwapVariables Address →
      Quote (SwapVariables Address)
  | 0, _ => .error .outOfFuel
  | count + 1, v =>
    if v.amountRemaining > 0 ∧ sqrtPriceLimit ≠ v.currSqrtPrice then do
      let v ← computeSwapIteration M whirlpoolData sqrtPriceLimit amountSpecifiedIsInput aToB v
      computeSwapLoop M whirlpoolData sqrtPriceLimit amountSpecifiedIsInput aToB count v
    else .ok v

/-- The variables before the first iteration. A growth counter of the pool is read as a number. -/
def initialVariables (whirlpoolData : Whirlpool) (tickSequence : TickArraySequence Address)
    (tokenAmount : BN) (aToB : Bool) : SwapVariables Address :=
  { amountRemaining := tokenAmount
    amountCalculated := 0
    currSqrtPrice := (whirlpoolData.sqrtPrice : ℤ)
    currLiquidity := (whirlpoolData.liquidity : ℤ)
    currTickIndex := whirlpoolData.tickCurrentIndex
    totalFeeAmount := 0
    currProtocolFee := 0
    currFeeGrowthGlobalInput := ((if aToB then whirlpoolData.feeGrowthGlobalA
      else whirlpoolData.feeGrowthGlobalB).toNat : ℤ)
    tickSequence }

/-- The result of `computeSwap` from the variables after the last iteration. -/
def swapResult (tokenAmount : BN) (amountSpecifiedIsInput aToB : Bool)
    (v : SwapVariables Address) : SwapResult :=
  let (amountA, amountB) := calculateEstTokens tokenAmount v.amountRemaining v.amountCalculated
    aToB amountSpecifiedIsInput
  { amountA, amountB, nextTickIndex := v.currTickIndex, nextSqrtPrice := v.currSqrtPrice
    totalFeeAmount := v.totalFeeAmount }

/-- `computeSwap`. The arrays, which the source marks in place, are returned with the result. -/
def computeSwap (M : MathUtil) (whirlpoolData : Whirlpool)
    (tickSequence : TickArraySequence Address) (tokenAmount sqrtPriceLimit : BN)
    (amountSpecifiedIsInput aToB : Bool) : Quote (SwapResult × TickArraySequence Address) := do
  let v ← computeSwapLoop M whirlpoolData sqrtPriceLimit amountSpecifiedIsInput aToB swapBound
    (initialVariables whirlpoolData tickSequence tokenAmount aToB)
  return (swapResult tokenAmount amountSpecifiedIsInput aToB v, v.tickSequence)

end SwapManager

variable {w : Whirlpool} {infos : Fin numRewards → WhirlpoolRewardInfo} {base : TickMap}
  {limit amount : ℕ} {input aToB : Bool} {s s' : SwapState}

/-! ## Crossing a tick -/

open TickArraySequence (outline)

/-- Updating a tick whose flag and liquidity stay keeps the outlines.

**Proof sketch.** In every array the starts are kept. In the array of the tick the updated slot has
the flag and the liquidity that it had, and the other slots are not touched. -/
lemma outline_updateTick {seq seq' : SwapTickSequence} {ts j : ℕ} {n : ℤ} {tick : Tick}
    {u : TickUpdate} (ht : seq.getTick j n ts = .ok tick) (hu : u.initialized = tick.initialized)
    (hnet : u.liquidityNet = tick.liquidityNet) (h : seq.updateTick j n ts u = .ok seq') :
    seq'.map outline = seq.map outline := by
  unfold SwapTickSequence.updateTick at h
  unfold SwapTickSequence.getTick at ht
  cases hj : seq[j]? with
  | none => simp [hj] at h
  | some array =>
    rw [hj] at h ht
    simp only [Res.bind_eq_ok, Res.pure_eq_ok, Except.ok.injEq] at h
    obtain ⟨array', harray, rfl⟩ := h
    simp only [TickArray.updateTick, TickArray.getTick, Res.bind_eq_ok, Res.pure_eq_ok,
      Except.ok.injEq] at harray ht
    obtain ⟨i, hi, rfl⟩ := harray
    obtain ⟨i', hi', rfl⟩ := ht
    rw [hi, Except.ok.injEq] at hi'
    subst hi'
    have hsame : outline { array with
        ticks := Function.update array.ticks i ((array.ticks i).update u) } = outline array := by
      unfold outline
      refine Prod.ext rfl (funext fun o => ?_)
      dsimp only
      rcases eq_or_ne o i with rfl | hne
      · rw [Function.update_self, Tick.update_eq, hu, hnet]
      · rw [Function.update_of_ne hne]
    refine List.ext_getElem? fun k => ?_
    rw [List.map_set, hsame, List.getElem?_set]
    split_ifs with hk hlt
    · rw [← hk, List.getElem?_map, hj]
      rfl
    · rw [List.getElem?_eq_none (by omega)]
    · rfl

/-- The lookup of a tick in the array that holds its slot. -/
lemma getTick_slot {seq : SwapTickSequence} {ts j : ℕ} {n : ℤ} {array : TickArray}
    {o : Fin tickArraySize} {tick : Tick} (hj : seq[j]? = some array)
    (ho : (n - array.startTickIndex) / (ts : ℤ) = (o : ℕ)) (h : seq.getTick j n ts = .ok tick) :
    tick = array.ticks o := by
  unfold SwapTickSequence.getTick at h
  rw [hj] at h
  simp only [TickArray.getTick, Res.bind_eq_ok, Res.pure_eq_ok, Except.ok.injEq] at h
  obtain ⟨i, hi, rfl⟩ := h
  obtain ⟨-, -, -, hvalue⟩ := TickArray.checkedOffset_eq_ok hi
  have hio : i = o := by
    refine Fin.ext ?_
    have := hvalue.trans ho
    exact_mod_cast this
  rw [hio]

/-- A crossing changes the liquidity by the tick in the slot, if it is initialized, and keeps the
outlines.

**Proof sketch.** If the tick is not initialized nothing is added and no array is written. Otherwise
what is written into the slot keeps the flag and the net liquidity, so `outline_updateTick`
applies. -/
lemma crossTick_slot {seq seq' : SwapTickSequence} {j : ℕ} {n : ℤ} {l l' : ℕ} {g : Growth}
    {array : TickArray} {o : Fin tickArraySize} (hj : seq[j]? = some array)
    (ho : (n - array.startTickIndex) / (w.tickSpacing : ℤ) = (o : ℕ))
    (h : crossTick w infos aToB j n l g seq = .ok (l', seq')) :
    seq'.map outline = seq.map outline ∧
      ((array.ticks o).initialized = false → l' = l) ∧
        ((∃ tick, seq.getTick j n w.tickSpacing = .ok tick) →
          (array.ticks o).initialized = true →
            addLiquidityDelta l (crossedNet aToB (array.ticks o)) = .ok l') := by
  unfold crossTick at h
  split at h
  · next e he =>
    rw [Except.ok.injEq, Prod.mk.injEq] at h
    obtain ⟨rfl, rfl⟩ := h
    refine ⟨rfl, fun _ => rfl, ?_⟩
    rintro ⟨tick, htick⟩
    rw [htick] at he
    cases he
  · cases h
  · next tick htick =>
    obtain rfl := getTick_slot hj ho htick
    cases hinit : (array.ticks o).initialized with
    | false =>
      rw [hinit, if_neg Bool.false_ne_true, Except.ok.injEq, Prod.mk.injEq] at h
      obtain ⟨rfl, rfl⟩ := h
      refine ⟨rfl, fun _ => rfl, ?_⟩
      intro _ hcon
      cases hcon
    | true =>
      rw [hinit, if_pos rfl] at h
      unfold calculateUpdate at h
      simp only [Res.bind_eq_ok, Res.pure_eq_ok, Except.ok.injEq, Prod.mk.injEq, Prod.exists] at h
      obtain ⟨u, l₁, ⟨l₂, hl, rfl, rfl⟩, seq₁, hu, rfl, rfl⟩ := h
      refine ⟨?_, ?_, fun _ _ => hl⟩
      · refine outline_updateTick htick ?_ ?_ hu
        · rfl
        · rfl
      · intro hcon
        cases hcon

/-! ## The simulation -/

/-- The next step of a swap is rounded by the SDK as by the program. -/
def RoundsAlike (w : Whirlpool) (limit : ℕ) (input aToB : Bool) (s : SwapState) : Prop :=
  ∀ j n comp, s.swapTickSequence.getNextInitializedTickIndex s.currTickIndex w.tickSpacing aToB
      s.currArrayIndex = .ok (j, n) →
    NemoSwap.computeSwap s.amountRemaining w.feeRate s.currLiquidity s.currSqrtPrice
      (stepTarget limit aToB n) input aToB = .ok comp →
    aToB = true ∨ ¬RoundingGap input s.currLiquidity s.currSqrtPrice (stepTarget limit aToB n)
      comp.nextPrice

/-- The variables of the SDK are those of the program; `m` arrays have been read. -/
structure Simulates {Address : Type} (quote : TickArraySequence Address) (w : Whirlpool)
    (limit : ℕ) (s : SwapState) (v : SwapVariables Address) (m : ℕ) : Prop where
  remaining : v.amountRemaining = (s.amountRemaining : ℤ)
  calculated : v.amountCalculated = (s.amountCalculated : ℤ)
  price : v.currSqrtPrice = (s.currSqrtPrice : ℤ)
  arrays : v.tickSequence = quote.touch m
  covers : quote.Covers s.swapTickSequence
  running : s.Running limit → v.currTickIndex = s.currTickIndex ∧
    v.currLiquidity = (s.currLiquidity : ℤ) ∧ s.currArrayIndex ≤ m
  left : s.Running limit → quote.aToB = true → s.currTickIndex ≤ w.tickCurrentIndex
  tick : v.currTickIndex = s.currTickIndex ∨
    s.currSqrtPrice = tickPrice (s.currTickIndex + 1) ∧ v.currTickIndex = s.currTickIndex + 1

/-- What the SDK assumes about a swap and its arrays. -/
structure Quotable {Address : Type} (quote : TickArraySequence Address) (w : Whirlpool)
    (aToB : Bool) : Prop where
  spacing : quote.tickSpacing = w.tickSpacing
  direction : quote.aToB = aToB
  feeRate_lt : w.feeRate < 2 ^ 16
  net : aToB = true → ∀ tickArray ∈ quote.sequence, ∀ o : Fin tickArraySize,
    tickArray.data.startTickIndex + (o : ℕ) * w.tickSpacing ≤ w.tickCurrentIndex →
      (tickArray.data.ticks o).liquidityNet ≠ -2 ^ 127

/-- The target of a step, in the numbers of the SDK. -/
theorem getNextSqrtPrices_eq {n : ℤ} (hn : n ≤ maxTickIndex) :
    SwapManager.getNextSqrtPrices n limit aToB =
      ((tickPrice n : ℤ), (stepTarget limit aToB n : ℤ)) := by
  unfold SwapManager.getNextSqrtPrices stepTarget
  rw [PriceMath.tickIndexToSqrtPriceX64_eq hn]
  cases aToB
  · simp only [Bool.false_eq_true, if_false, Nat.cast_min]
  · simp only [if_true, Nat.cast_max]

/-- The tick of the SDK at a price of the pool.

**Proof sketch.** The tick of the SDK is the floor of the price. The price lies between those of the
tick index and the next one, so the floor is the former, unless the price is that of the next
tick. -/
lemma sqrtPriceX64ToTickIndex_of_priceAt {c : ℤ} {p : ℕ} (h : PriceAt c p) :
    ∃ t, PriceMath.sqrtPriceX64ToTickIndex p = .ok t ∧
      (t = c ∨ p = tickPrice (c + 1) ∧ t = c + 1) := by
  obtain ⟨t, ht, h1, h2, h3, h4⟩ := tickIndexFromSqrtPrice_spec h.min_le h.le_max
  refine ⟨t, (PriceMath.sqrtPriceX64ToTickIndex_eq h.min_le h.le_max).2 ht, ?_⟩
  have hc1 := h.tick_min
  have hc2 := h.tick_max
  unfold minTickIndex at hc1
  unfold maxTickIndex at hc2
  -- the price lies between the prices of the ticks `c` and `c + 1`
  have hlo := le_of_tickPrice_lt (a := c) (b := t + 1) (by omega) (by omega)
    (lt_of_le_of_lt h.lower h4)
  rcases eq_or_lt_of_le h.upper with heq | hlt
  · have hhi : t ≤ c + 1 := by
      by_contra hcon
      have := tickPrice_lt (a := c + 1) (b := t) (by omega) (by omega) (by omega)
      omega
    rcases eq_or_ne t c with rfl | hne
    · exact Or.inl rfl
    · exact Or.inr ⟨heq, by omega⟩
  · have hhi := le_of_tickPrice_lt (a := t) (b := c + 1) (by omega) (by omega)
      (lt_of_le_of_lt h3 hlt)
    exact Or.inl (by omega)

/-- The amounts after a step, in the numbers of the SDK. -/
lemma nextAmounts_natCast {r c r' c' : ℕ} {comp : SwapStepComputation}
    (h : nextAmounts input r c comp = .ok (r', c')) :
    (if input then ((r : ℤ) - (comp.amountIn : ℤ) - (comp.feeAmount : ℤ),
        (c : ℤ) + (comp.amountOut : ℤ))
      else ((r : ℤ) - (comp.amountOut : ℤ),
        (c : ℤ) + (comp.amountIn : ℤ) + (comp.feeAmount : ℤ))) = ((r' : ℤ), (c' : ℤ)) := by
  cases input with
  | true =>
    obtain ⟨h1, h2, h3, -⟩ := nextAmounts_input.1 h
    rw [if_pos rfl, Prod.mk.injEq]
    omega
  | false =>
    obtain ⟨h1, h2, h3, -⟩ := nextAmounts_output.1 h
    rw [if_neg Bool.false_ne_true, Prod.mk.injEq]
    omega

/-- At the bound of the tick range the loop ends. -/
lemma not_running_of_tickBound (hb : SwapBounds w limit amount)
    (htoward : Toward aToB s'.currSqrtPrice limit)
    (hreach : s'.currSqrtPrice = tickPrice (SwapTickSequence.tickBound aToB)) :
    ¬s'.Running limit := by
  rintro ⟨-, hne⟩
  refine hne ?_
  cases aToB with
  | true =>
    rw [toward_true] at htoward
    have hmin : s'.currSqrtPrice = minSqrtPriceX64 := hreach.trans tickPrice_min
    exact le_antisymm htoward (hmin ▸ hb.min_le)
  | false =>
    rw [toward_false] at htoward
    have hmax : s'.currSqrtPrice = maxSqrtPriceX64 := hreach.trans tickPrice_max
    exact le_antisymm (hmax ▸ hb.le_max) htoward

/-- The liquidity after a crossing, in the numbers of the SDK. -/
lemma calculateNextLiquidity_natCast {l l' : ℕ} {tick : Tick}
    (hnet : aToB = true → tick.liquidityNet ≠ -2 ^ 127)
    (h : addLiquidityDelta l (crossedNet aToB tick) = .ok l') :
    SwapManager.calculateNextLiquidity tick.liquidityNet (l : ℤ) aToB = (l' : ℤ) := by
  have hvalue := addLiquidityDelta_eq_ok h
  unfold crossedNet negI128 at hvalue
  unfold SwapManager.calculateNextLiquidity
  cases aToB
  · simp only [Bool.false_eq_true, if_false] at hvalue ⊢
    exact hvalue.symm
  · simp only [if_true, if_neg (hnet rfl)] at hvalue ⊢
    rw [hvalue]
    ring

/-- **The SDK advances as the program does.** The arrays up to the one that the search ended in
have been read.

**Proof sketch.** The search ended at a slot, which the SDK reads too. If the step reached its
price, the slot is crossed or passed, and the SDK adds the same liquidity and takes the same tick.
If it stopped before, the tick is that of the new price, which is the one that the SDK computes. -/
theorem advance_of_advance {Address : Type} {quote : TickArraySequence Address} {j m n' : ℕ} {n : ℤ}
    {comp : SwapStepComputation} (hb : SwapBounds w limit amount)
    (hs : s.WellFormed w base limit amount aToB)
    (hres : StepResult w infos base limit input aToB n comp s s')
    (hq : Quotable quote w aToB) (hcovers : quote.Covers s.swapTickSequence)
    (hfound : quote.Found s.swapTickSequence j n) (hjm : j < m)
    (hleft : aToB = true → n ≤ w.tickCurrentIndex)
    (hadv : NemoSwap.advance w infos aToB j n (tickPrice n) comp.nextPrice
      s'.currFeeGrowthGlobalInput s =
        .ok (s'.currLiquidity, s'.swapTickSequence, n', s'.currTickIndex)) :
    (s'.Running limit → n' ≤ j + 1 ∧ (aToB = true → s'.currTickIndex ≤ n)) ∧
    quote.Covers s'.swapTickSequence ∧ ∃ l t, SwapManager.advance aToB n (tickPrice n : ℤ)
        (comp.nextPrice : ℤ) (s.currLiquidity : ℤ) (quote.touch m) = .ok (l, t, quote.touch m) ∧
      (s'.Running limit → t = s'.currTickIndex ∧ l = (s'.currLiquidity : ℤ)) ∧
      (t = s'.currTickIndex ∨
        s'.currSqrtPrice = tickPrice (s'.currTickIndex + 1) ∧ t = s'.currTickIndex + 1) := by
  obtain ⟨array, hj, o, hslot, hwhat⟩ := hfound
  have hoffset := hcovers.offset_eq hj hslot
  rw [hq.spacing] at hoffset
  obtain ⟨tick, ⟨hinit, hnet⟩, hget⟩ := TickArraySequence.getTick_touch hcovers hj hslot
  replace hget := hget m hjm.le
  rw [max_eq_left (by omega)] at hget
  unfold NemoSwap.advance at hadv
  unfold SwapManager.advance
  by_cases hreach : comp.nextPrice = tickPrice n
  · rw [if_pos hreach, Res.bind_eq_ok] at hadv
    obtain ⟨⟨l₁, seq₁⟩, hcross, hadv⟩ := hadv
    rw [Res.bind_eq_ok] at hadv
    obtain ⟨offset, -, hadv⟩ := hadv
    simp only [Res.pure_eq_ok, Except.ok.injEq, Prod.mk.injEq] at hadv
    obtain ⟨rfl, rfl, harray, htick⟩ := hadv
    obtain ⟨hsame, hdark, hlight⟩ := crossTick_slot hj hoffset hcross
    have hcross' : (if tick.initialized then
        SwapManager.calculateNextLiquidity tick.liquidityNet (s.currLiquidity : ℤ) aToB
        else (s.currLiquidity : ℤ)) = (s'.currLiquidity : ℤ) ∨ ¬s'.Running limit := by
      rcases hwhat with hbound | ⟨hon, hn⟩ | hoff
      · rw [hq.direction] at hbound
        exact Or.inr (not_running_of_tickBound hb (hres.price_bounds hb hs).2.1
          (by rw [hres.price, hreach, hbound]))
      · refine Or.inl ?_
        have husable := hcovers.valid.usable array (List.mem_of_getElem? hj) o hon
        have hexists : ∃ tick, s.swapTickSequence.getTick j n w.tickSpacing = .ok tick := by
          have hholds : array.Holds w.tickSpacing n := by
            refine (TickArray.holds_iff (hq.spacing ▸ hcovers.spacing_ne_zero)).2
              ⟨o, o.isLt, ?_⟩
            rw [← hq.spacing]
            exact hn
          rw [← hn, hq.spacing] at husable
          obtain ⟨read, hread⟩ := TickArray.exists_getTick_eq_ok array
            (hq.spacing ▸ hcovers.spacing_ne_zero) hholds husable
          refine ⟨read, ?_⟩
          unfold SwapTickSequence.getTick
          rw [hj]
          exact hread
        rw [if_pos (hinit.trans hon), hnet]
        obtain ⟨tickArray, hdata, hsame⟩ := hcovers.exists_data hj
        have hnet' := congrArg Prod.snd (congrFun (congrArg Prod.snd hsame) o)
        have hstart : tickArray.data.startTickIndex = array.startTickIndex :=
          congrArg Prod.fst hsame
        refine calculateNextLiquidity_natCast (fun hd h => ?_) (hlight hexists hon)
        refine hq.net hd tickArray (List.mem_of_getElem? hdata) o ?_ (hnet'.trans h)
        rw [hstart, ← hq.spacing, ← hn]
        exact hleft hd
      · refine Or.inl ?_
        rw [if_neg (by rw [hinit, hoff]; exact Bool.false_ne_true), hdark hoff]
    refine ⟨fun _ => ?_, hcovers.congr hsame, if tick.initialized then
        SwapManager.calculateNextLiquidity tick.liquidityNet (s.currLiquidity : ℤ) aToB
      else (s.currLiquidity : ℤ), if aToB then n - 1 else n, ?_, fun hrun => ⟨htick, ?_⟩,
      Or.inl htick⟩
    · refine ⟨?_, fun hd => ?_⟩
      · rw [← harray]
        split_ifs <;> omega
      · rw [← htick, if_pos hd]
        omega
    · rw [if_pos (by exact_mod_cast hreach), hget, Quote.ok_bind]
      rfl
    · exact hcross'.resolve_right (not_not.2 hrun)
  · have hshort : s'.currSqrtPrice ≠ tickPrice n := by
      rw [hres.price]
      exact hreach
    have hstop := hres.not_running hshort
    have hpriceAt : PriceAt s'.currTickIndex s'.currSqrtPrice ∧
        s'.swapTickSequence = s.swapTickSequence := by
      cases hres.move with
      | cross hreached _ _ _ _ _ _ => exact absurd hreached hshort
      | pass hreached _ _ _ _ => exact absurd hreached hshort
      | stop _ _ hticks htick => exact ⟨(hres.between hb hs hshort htick).1, hticks⟩
    obtain ⟨t, ht, hchoice⟩ := sqrtPriceX64ToTickIndex_of_priceAt hpriceAt.1
    rw [hres.price] at ht
    refine ⟨fun hrun => absurd hrun hstop, hpriceAt.2 ▸ hcovers, (s.currLiquidity : ℤ), t, ?_,
      fun hrun => absurd hrun hstop, hchoice⟩
    rw [if_neg (by exact_mod_cast hreach), ht]
    rfl

section Run

variable {Address : Type} {quote : TickArraySequence Address} {M : MathUtil}
  {v : SwapVariables Address} {m : ℕ}

/-- **An iteration of the program is an iteration of the SDK.**

**Proof sketch.** By inversion of the iteration of the program. Its search, its computation and its
advance are those of the SDK by `find_of_getNextInitializedTickIndex`, `computeSwapStep_of_not_gap`
and `advance_of_advance`, one after the other. -/
theorem Simulates.step (hM : M.Floors) (hb : SwapBounds w limit amount)
    (hs : s.WellFormed w base limit amount aToB) (hq : Quotable quote w aToB)
    (hround : RoundsAlike w limit input aToB s) (h : Simulates quote w limit s v m)
    (hrun : s.Running limit) (hstep : swapStep w infos limit input aToB s = .ok s') :
    ∃ j n v', s.swapTickSequence.getNextInitializedTickIndex s.currTickIndex w.tickSpacing aToB
        s.currArrayIndex = .ok (j, n) ∧
      SwapManager.computeSwapIteration M w limit input aToB v = .ok v' ∧
      Simulates quote w limit s' v' (max m (j + 1)) := by
  obtain ⟨j, n, q, comp, hsearch, hprice, hcomp, hamounts, -, -, hadv⟩ := swapStep_eq_ok hstep
  obtain ⟨j₁, n₁, comp₁, hsearch₁, hcomp₁, hres⟩ := swapStep_cases hb hs hrun.2 hstep
  rw [hsearch, Except.ok.injEq, Prod.mk.injEq] at hsearch₁
  obtain ⟨rfl, rfl⟩ := hsearch₁
  rw [sqrtPriceFromTickIndex_eq hres.search.upper, Except.ok.injEq] at hprice
  subst hprice
  obtain rfl : comp = comp₁ := Except.ok.inj (hcomp.symm.trans hcomp₁)
  obtain ⟨htick, hliquidity, harray⟩ := h.running hrun
  -- the search
  have hsearch' := hsearch
  rw [← hq.spacing, ← hq.direction] at hsearch'
  obtain ⟨-, hfound, tick, hfind⟩ :=
    TickArraySequence.find_of_getNextInitializedTickIndex h.covers harray hsearch'
  -- the step
  obtain ⟨htarget1, htarget2, -⟩ := stepTarget_toward hs.price hres.search hs.toward
  have htarget := htarget1.bounds htarget2 ⟨hs.price.min_le, hs.price.le_max⟩
    ⟨hb.min_le, hb.le_max⟩
  have hcompute := computeSwapStep_of_not_gap hM (hs.remaining_le.trans_lt hb.amount_lt)
    hq.feeRate_lt hs.liquidity_lt ⟨hs.price.min_le, hs.price.le_max⟩ htarget htarget1 hcomp₁
    (hround j n comp hsearch hcomp₁)
  -- the tick
  have hleft : aToB = true → n ≤ w.tickCurrentIndex := by
    intro hd
    exact (hres.search.left hd).1.trans (h.left hrun (hq.direction.trans hd))
  have hadvance := advance_of_advance hb hs hres hq h.covers hfound
    (show j < max m (j + 1) by omega) hleft hadv
  obtain ⟨harray', hcovers, l, t, hsdk, hrunning, hchoice⟩ := hadvance
  have hpair := nextAmounts_natCast hamounts
  refine ⟨j, n,
    { amountRemaining := (s'.amountRemaining : ℤ)
      amountCalculated := (s'.amountCalculated : ℤ)
      currSqrtPrice := (s'.currSqrtPrice : ℤ)
      currLiquidity := l
      currTickIndex := t
      totalFeeAmount := v.totalFeeAmount + (comp.feeAmount : ℤ)
      currProtocolFee := (SwapManager.calculateFees (comp.feeAmount : ℤ) w.protocolFeeRate
        v.currLiquidity v.currProtocolFee v.currFeeGrowthGlobalInput).1
      currFeeGrowthGlobalInput := (SwapManager.calculateFees (comp.feeAmount : ℤ)
        w.protocolFeeRate v.currLiquidity v.currProtocolFee v.currFeeGrowthGlobalInput).2
      tickSequence := quote.touch (max m (j + 1)) }, hsearch, ?_, ?_⟩
  · unfold SwapManager.computeSwapIteration
    rw [h.arrays, htick, hfind, Quote.ok_bind]
    simp only [getNextSqrtPrices_eq hres.search.upper, h.remaining, h.calculated, h.price,
      hliquidity]
    rw [hcompute, Quote.lift_ok, Quote.ok_bind]
    simp only [SwapStep.ofProgram, hpair, hsdk, Quote.ok_bind, Quote.pure_eq_ok, hres.price]
  · refine ⟨rfl, rfl, rfl, rfl, hcovers, fun hrun' => ?_, fun hrun' hd => ?_, hchoice⟩
    · obtain ⟨htick', hliquidity'⟩ := hrunning hrun'
      exact ⟨htick', hliquidity', (harray' hrun').1.trans (le_max_right _ _)⟩
    · rw [hq.direction] at hd
      exact ((harray' hrun').2 hd).trans (hleft hd)

/-- Every step of a swap is rounded by the SDK as by the program. -/
def StepsRoundAlike (w : Whirlpool) (infos : Fin numRewards → WhirlpoolRewardInfo) (limit : ℕ)
    (input aToB : Bool) (s : SwapState) : Prop :=
  ∀ s', Iterates w infos limit input aToB s s' → RoundsAlike w limit input aToB s'

/-- From A to B nothing is rounded apart. -/
lemma stepsRoundAlike_true : StepsRoundAlike w infos limit input true s :=
  fun _ _ _ _ _ _ _ => Or.inl rfl

/-- **The loop of the program is the loop of the SDK**, and the arrays that the SDK has read are
all that the program needs.

**Proof sketch.** Induction on the number of iterations of the program. Both loops go on under the
same condition; each iteration is simulated by `Simulates.step`, and the arrays that it has read
stay read. -/
theorem Simulates.loop (hM : M.Floors) (hb : SwapBounds w limit amount)
    (hq : Quotable quote w aToB) : ∀ (count : ℕ) {s : SwapState} {v : SwapVariables Address}
      {m : ℕ}, s.WellFormed w base limit amount aToB →
      StepsRoundAlike w infos limit input aToB s → Simulates quote w limit s v m →
      swapLoop w infos limit input aToB count s = .ok s' →
      ∃ v' m', SwapManager.computeSwapLoop M w limit input aToB count v = .ok v' ∧
        Simulates quote w limit s' v' m' ∧ (m ≤ m' ∧ (s.Running limit → 1 ≤ m')) ∧ ∀ k, m' ≤ k →
          swapLoop w infos limit input aToB count (s.take k) = .ok (s'.take k) ∧
            s'.swapTickSequence.drop k = s.swapTickSequence.drop k := by
  intro count
  induction count with
  | zero =>
    intro s v m _ _ _ hloop
    cases hloop
  | succ count ih =>
    intro s v m hs hround h hloop
    by_cases hrun : s.Running limit
    · rw [swapLoop_running hrun, Res.bind_eq_ok] at hloop
      obtain ⟨s₁, hstep, hloop⟩ := hloop
      obtain ⟨j, n, v₁, hsearch, hiteration, hsim⟩ := h.step hM hb hs hq (hround s .refl) hrun hstep
      obtain ⟨_, _, _, -, -, hres⟩ := swapStep_cases hb hs hrun.2 hstep
      have hround₁ : StepsRoundAlike w infos limit input aToB s₁ := fun s₂ hreach =>
        hround s₂ (Relation.ReflTransGen.head ⟨hrun, hstep⟩ hreach)
      obtain ⟨v', m', hv', hsim', ⟨hm', -⟩, htake⟩ :=
        ih (hres.wellFormed hb hs) hround₁ hsim hloop
      refine ⟨v', m', ?_, hsim', ⟨by omega, fun _ => by omega⟩, fun k hk => ?_⟩
      · rw [SwapManager.computeSwapLoop, if_pos, hiteration, Quote.ok_bind, hv']
        refine ⟨?_, ?_⟩
        · rw [h.remaining]
          exact_mod_cast hrun.1
        · rw [h.price]
          exact_mod_cast hrun.2
      · obtain ⟨hgo, hdrop⟩ := htake k hk
        rw [swapLoop_running (s := s.take k) hrun, swapStep_take hsearch (by omega) hstep,
          Res.ok_bind]
        exact ⟨hgo, hdrop.trans (swapStep_drop hsearch (by omega) hstep)⟩
    · rw [swapLoop_done hrun, Except.ok.injEq] at hloop
      subst hloop
      refine ⟨v, m, ?_, h, ⟨le_rfl, fun hcon => absurd hcon hrun⟩,
        fun k _ => ⟨swapLoop_done (s := s.take k) hrun, rfl⟩⟩
      rw [SwapManager.computeSwapLoop, if_neg]
      rintro ⟨hremaining, hprice⟩
      rw [h.remaining] at hremaining
      rw [h.price] at hprice
      exact hrun ⟨by exact_mod_cast hremaining, by exact_mod_cast hprice⟩

/-! ## The whole swap -/

/-- Different arrays of a quote start at different indices.

**Proof sketch.** The starts are multiples of the length of an array, by different numbers for
different places. -/
theorem covers_nodup {seq : SwapTickSequence} (h : quote.Covers seq) :
    (seq.map TickArray.startTickIndex).Nodup := by
  have hpos : (0 : ℤ) < tickArraySize * quote.tickSpacing := by
    have : (0 : ℤ) < quote.tickSpacing := by exact_mod_cast Nat.pos_of_ne_zero h.spacing_ne_zero
    positivity
  rw [List.nodup_iff_injective_get]
  intro i k hik
  have hstart : ∀ i : Fin (seq.map TickArray.startTickIndex).length,
      (seq.map TickArray.startTickIndex).get i =
        quote.arrayNumber i * tickArraySize * quote.tickSpacing := by
    intro i
    have hlt : (i : ℕ) < seq.length := by simpa using i.isLt
    rw [List.get_eq_getElem, List.getElem_map]
    exact h.start i _ (List.getElem?_eq_getElem hlt)
  rw [hstart, hstart, mul_assoc, mul_assoc] at hik
  have hnumber := mul_right_cancel₀ hpos.ne' hik
  unfold TickArraySequence.arrayNumber at hnumber
  refine Fin.ext ?_
  split_ifs at hnumber <;> omega

/-- The arrays of a quote are where their start says. -/
lemma covers_wellPlaced {seq : SwapTickSequence} (h : quote.Covers seq) :
    TickMap.WellPlaced (TickMap.store (fun _ => none) seq) quote.tickSpacing := by
  intro x array harray
  by_cases hx : x ∈ seq.map TickArray.startTickIndex
  · obtain ⟨a, ha, rfl⟩ := List.mem_map.1 hx
    rw [TickMap.store_of_mem (covers_nodup h) ha, Option.some.injEq] at harray
    subst harray
    exact ⟨rfl, (Tick.checkIsValidStartTick_dvd (h.valid.starts a ha)).2⟩
  · rw [TickMap.store_of_notMem hx] at harray
    cases harray

/-- A swap that passes its checks starts in a state that the loop keeps.

**Proof sketch.** The checks of the swap give the bounds of the price and of the amount. That the
ticks lie in their arrays is what it means that the quote covers them. -/
lemma covers_wellFormed {seq : SwapTickSequence} (h : quote.Covers seq)
    (hspacing : quote.tickSpacing = w.tickSpacing) (hprice : PriceAt w.tickCurrentIndex w.sqrtPrice)
    (hliquidity : w.liquidity < 2 ^ 128) (hdir : Toward aToB w.sqrtPrice limit) :
    (initialSwapState w seq amount aToB).WellFormed w (fun _ => none) limit amount aToB := by
  have hplaced := covers_wellPlaced h
  refine ⟨hprice, hdir, hliquidity, le_rfl, covers_nodup h, hspacing ▸ hplaced, fun t ht => ?_⟩
  rw [← hspacing] at ht ⊢
  change (TickMap.tick (TickMap.store (fun _ => none) seq) quote.tickSpacing t).initialized = true
    at ht
  unfold TickMap.tick at ht
  split at ht
  · next array harray =>
    have hmem : array ∈ seq := by
      by_cases hx : TickMap.arrayStart quote.tickSpacing t ∈ seq.map TickArray.startTickIndex
      · obtain ⟨a, ha, he⟩ := List.mem_map.1 hx
        rw [← he, TickMap.store_of_mem (covers_nodup h) ha, Option.some.injEq] at harray
        exact harray ▸ ha
      · rw [TickMap.store_of_notMem hx] at harray
        cases harray
    by_cases hholds : array.Holds quote.tickSpacing t
    · obtain ⟨o, ho, rfl⟩ := (TickArray.holds_iff h.spacing_ne_zero).1 hholds
      rw [TickArray.tickAt_eq_slot h.spacing_ne_zero ho rfl, TickArray.slot, dif_pos ho] at ht
      exact h.valid.usable array hmem ⟨o, ho⟩ ht
    · rw [TickArray.tickAt_of_not_holds hholds] at ht
      cases ht
  · cases ht

/-- The result of the SDK is that of the program. -/
structure Agrees (result : SwapResult) (update : PostSwapUpdate) : Prop where
  amountA : result.amountA = (update.amountA : ℤ)
  amountB : result.amountB = (update.amountB : ℤ)
  price : result.nextSqrtPrice = (update.nextSqrtPrice : ℤ)
  tick : result.nextTickIndex = update.nextTickIndex ∨
    update.nextSqrtPrice = tickPrice (update.nextTickIndex + 1) ∧
      result.nextTickIndex = update.nextTickIndex + 1

/-- The variables of the SDK give its result.

**Proof sketch.** The amount that was spent and the amount calculated are the same on both sides,
and by the mode one of them belongs to each token. -/
lemma Simulates.agrees {m : ℕ} (h : Simulates quote w limit s v m)
    (hle : s.amountRemaining ≤ amount) :
    Agrees (SwapManager.swapResult amount input aToB v)
      (postSwapUpdate amount input aToB infos s) := by
  have hspent : (amount : ℤ) - v.amountRemaining = ((amount - s.amountRemaining : ℕ) : ℤ) := by
    rw [h.remaining, Nat.cast_sub hle]
  have hother := h.calculated
  refine ⟨?_, ?_, h.price, h.tick⟩
  · unfold SwapManager.swapResult SwapManager.calculateEstTokens postSwapUpdate
    by_cases hspecified : aToB = input
    · simp only [if_pos hspecified]
      exact hspent
    · simp only [if_neg hspecified]
      exact hother
  · unfold SwapManager.swapResult SwapManager.calculateEstTokens postSwapUpdate
    by_cases hspecified : aToB = input
    · simp only [if_pos hspecified]
      exact hother
    · simp only [if_neg hspecified]
      exact hspent

/-- **The SDK computes the swap of the program**, and the arrays that it has read are all that the
program reads and writes.

**Proof sketch.** The initial states of both loops simulate each other, so the loops do by
`Simulates.loop`. What the SDK returns is read off its last state, as the program reads its update
off its own. -/
theorem computeSwap_of_swap_take {seq seq' : SwapTickSequence} {timestamp : ℕ}
    {update : PostSwapUpdate} (hM : M.Floors) (hq : Quotable quote w aToB)
    (hcovers : quote.Covers seq) (hprice : PriceAt w.tickCurrentIndex w.sqrtPrice)
    (hliquidity : w.liquidity < 2 ^ 128) (hamount : amount < 2 ^ 64)
    (hround : ∀ infos, nextWhirlpoolRewardInfos w timestamp = .ok infos →
      StepsRoundAlike w infos limit input aToB (initialSwapState w seq amount aToB))
    (h : NemoSwap.swap w seq amount limit input aToB timestamp = .ok (update, seq')) :
    ∃ result m, SwapManager.computeSwap M w (quote.touch 0) amount limit input aToB =
        .ok (result, quote.touch m) ∧ Agrees result update ∧ quote.Covers seq' ∧
      (w.sqrtPrice ≠ limit → 1 ≤ m) ∧ ∀ k, m ≤ k →
        NemoSwap.swap w (seq.take k) amount limit input aToB timestamp =
          .ok (update, seq'.take k) ∧ seq'.drop k = seq.drop k := by
  unfold NemoSwap.swap at h ⊢
  simp only [ite_err_eq_ok, Res.bind_eq_ok, Res.pure_eq_ok, Except.ok.injEq, Prod.mk.injEq] at h
  obtain ⟨hlimit, hdirection, hzero, infos, hinfos, s, hloop, rfl, rfl⟩ := h
  rw [not_or, not_lt, not_lt] at hlimit
  have hdir : Toward aToB w.sqrtPrice limit := by
    rw [not_or, not_and, not_and] at hdirection
    cases aToB with
    | true => exact toward_true.2 (not_lt.1 (hdirection.1 rfl))
    | false => exact toward_false.2 (not_lt.1 (hdirection.2 rfl))
  have hb : SwapBounds w limit amount :=
    ⟨hq.feeRate_lt.trans (by norm_num [feeRateMulValue]), hlimit.1, hlimit.2, hamount⟩
  have hs : (initialSwapState w seq amount aToB).WellFormed w (fun _ => none) limit amount aToB :=
    covers_wellFormed hcovers hq.spacing hprice hliquidity hdir
  have hsim : Simulates quote w limit (initialSwapState w seq amount aToB)
      (SwapManager.initialVariables w (quote.touch 0) amount aToB) 0 :=
    ⟨rfl, rfl, rfl, rfl, hcovers, fun _ => ⟨rfl, rfl, le_rfl⟩, fun _ _ => le_rfl, Or.inl rfl⟩
  obtain ⟨v', m, hcompute, hsim', ⟨-, hread⟩, htake⟩ :=
    hsim.loop hM hb hq swapBound hs (hround infos hinfos) hloop
  have hkeeps : ∀ s₁ s₂, SwapState.WellFormed w (fun _ => none) limit amount aToB s₁ →
      s₁.Running limit → swapStep w infos limit input aToB s₁ = .ok s₂ →
      s₂.WellFormed w (fun _ => none) limit amount aToB := by
    intro s₁ s₂ h₁ hrun hstep
    obtain ⟨_, _, _, -, -, hres⟩ := swapStep_cases hb h₁ hrun.2 hstep
    exact hres.wellFormed hb h₁
  have hwf := (swapLoop_invariant hkeeps swapBound hs hloop).1
  refine ⟨_, m, ?_, hsim'.agrees hwf.remaining_le, hsim'.covers,
    fun hne => hread ⟨Nat.pos_of_ne_zero hzero, hne.symm⟩, fun k hk => ?_⟩
  · unfold SwapManager.computeSwap
    rw [hcompute, Quote.ok_bind, hsim'.arrays]
    rfl
  · obtain ⟨hgo, hdrop⟩ := htake k hk
    have hstart : initialSwapState w (seq.take k) amount aToB =
        (initialSwapState w seq amount aToB).take k := rfl
    rw [if_neg (by rw [not_or, not_lt, not_lt]; exact hlimit), if_neg hdirection, if_neg hzero,
      hinfos, Res.ok_bind, hstart, hgo]
    exact ⟨rfl, hdrop⟩

/-- **The SDK's swap is the program's.** Whenever the swap of the program succeeds on arrays that a
quote covers, the SDK computes the same amounts and the same price. Its tick is the same too, or
the tick whose price the pool has reached without crossing it. -/
theorem computeSwap_of_swap {seq seq' : SwapTickSequence} {timestamp : ℕ}
    {update : PostSwapUpdate} (hM : M.Floors) (hq : Quotable quote w aToB)
    (hcovers : quote.Covers seq) (hprice : PriceAt w.tickCurrentIndex w.sqrtPrice)
    (hliquidity : w.liquidity < 2 ^ 128) (hamount : amount < 2 ^ 64)
    (hround : ∀ infos, nextWhirlpoolRewardInfos w timestamp = .ok infos →
      StepsRoundAlike w infos limit input aToB (initialSwapState w seq amount aToB))
    (h : NemoSwap.swap w seq amount limit input aToB timestamp = .ok (update, seq')) :
    ∃ result touched, SwapManager.computeSwap M w (quote.touch 0) amount limit input aToB =
      .ok (result, touched) ∧ Agrees result update := by
  obtain ⟨result, m, hcompute, hagrees, -, -, -⟩ :=
    computeSwap_of_swap_take hM hq hcovers hprice hliquidity hamount hround h
  exact ⟨result, quote.touch m, hcompute, hagrees⟩

end Run

/-- A quote on the sample arrays. -/
def sampleSequence : TickArraySequence ℤ :=
  ⟨SwapTickSequence.sampleArrays.map fun array => ⟨array.startTickIndex, array⟩,
    [false, false, false], 0, 64, true⟩

/-- The quote agrees with a trade through three arrays, which crosses the tick `-128` and goes on
without liquidity to its price limit. -/
theorem computeSwap_of_swap_sample : ∃ result touched,
    SwapManager.computeSwap MathUtil.documented sampleTrader (sampleSequence.touch 0) (10 ^ 8)
        18000000000000000000 true true = .ok (result, touched) ∧
      result.amountA = 11441800 ∧ result.amountB = 11391515 ∧
      result.nextSqrtPrice = 18000000000000000000 := by
  obtain ⟨⟨update, seq'⟩, hswap, hamounts⟩ := Res.map_eq_ok.1 (show
    (NemoSwap.swap sampleTrader SwapTickSequence.sampleArrays (10 ^ 8) 18000000000000000000 true
      true 0).map (fun r => (r.1.amountA, r.1.amountB, r.1.nextSqrtPrice)) =
      .ok (11441800, 11391515, 18000000000000000000) by decide +kernel)
  have hq : Quotable sampleSequence sampleTrader true := by
    refine ⟨rfl, rfl, by decide, fun _ tickArray hmem o _ => ?_⟩
    obtain ⟨array, harray, rfl⟩ := List.mem_map.1 hmem
    exact (show ∀ array ∈ SwapTickSequence.sampleArrays, ∀ o : Fin tickArraySize,
      (array.ticks o).liquidityNet ≠ -2 ^ 127 by decide +kernel) array harray o
  have hcovers : sampleSequence.Covers SwapTickSequence.sampleArrays := by
    refine ⟨by decide, rfl, fun k array hk => ?_, SwapTickSequence.sampleArrays_valid⟩
    have hlt : k < 3 := (List.getElem?_eq_some_iff.1 hk).1
    interval_cases k <;> obtain rfl := Option.some.inj hk <;> decide +kernel
  obtain ⟨result, touched, hcompute, hagrees⟩ := computeSwap_of_swap documented_floors hq hcovers
    sampleTrader_priceAt (by decide) (by norm_num) (fun _ _ => stepsRoundAlike_true) hswap
  simp only [Prod.mk.injEq] at hamounts
  obtain ⟨hA, hB, hprice⟩ := hamounts
  refine ⟨result, touched, hcompute, ?_, ?_, ?_⟩
  · rw [hagrees.amountA, hA]
    rfl
  · rw [hagrees.amountB, hB]
    rfl
  · rw [hagrees.price, hprice]
    rfl

end Sdk

end NemoSwap
