import NemoSwap.Manager.SwapStep
import NemoSwap.Math.PriceMoves

set_option relaxedAutoImplicit false
set_option autoImplicit false

/-!
# Swaps with another amount

A step that takes less than it is offered has reached its target, and it takes the same whatever
it is offered beyond that. So an iteration that leaves a part of the amount does the same with
every amount that covers what it takes.

## Main definitions

* `NemoSwap.SwapState.offered` — the variables of the loop with another amount.
* `NemoSwap.PostSwapUpdate.amountIn`, `NemoSwap.PostSwapUpdate.amountOut`,
  `NemoSwap.PostSwapUpdate.specified` — the amounts of a swap by the role of their tokens.

## Main results

* `NemoSwap.computeSwap_amount_congr` — a step that takes less than it is offered.
* `NemoSwap.swapStep_amount_congr` — an iteration that leaves a part of the amount.
* `NemoSwap.swap_eq_ok` — the inversion of a swap.
-/

namespace NemoSwap

/-! ## One step -/

section Step

variable {remaining offered feeRate l cur target : ℕ} {input aToB : Bool}
  {r : SwapStepComputation}

/-- What may be traded is monotone in what remains. -/
theorem amountCalc_mono {x y : ℕ} (h : x ≤ y) :
    amountCalc input x feeRate ≤ amountCalc input y feeRate := by
  unfold amountCalc
  split_ifs
  · exact Nat.div_le_div_right (Nat.mul_le_mul_right _ h)
  · exact h

/-- The amount after fees, as the source computes it.

**Proof sketch.** For a specified input the amount after fees is a quotient of a product by the fee
units, which is at most what is offered and so fits. -/
lemma amountCalc_eq_ok (hoff : offered < 2 ^ 64) :
    (if input = true then
        checkedMulDiv offered (feeRateMulValue - feeRate) feeRateMulValue >>= tryIntoU64
      else .ok offered) = .ok (amountCalc input offered feeRate) := by
  have hlt : amountCalc input offered feeRate < 2 ^ 64 := amountCalc_le.trans_lt hoff
  unfold amountCalc at hlt ⊢
  cases input with
  | false => rfl
  | true =>
    rw [if_pos rfl] at hlt ⊢
    rw [if_pos rfl]
    rw [Res.bind_eq_ok]
    refine ⟨_, checkedMulDivRoundUpIf_eq_ok.2 ⟨by norm_num [feeRateMulValue], ?_, rfl⟩, ?_⟩
    · have hm : feeRateMulValue - feeRate ≤ feeRateMulValue := Nat.sub_le _ _
      calc offered * (feeRateMulValue - feeRate) < 2 ^ 64 * 2 ^ 64 :=
            Nat.mul_lt_mul'' hoff (lt_of_le_of_lt hm (by norm_num [feeRateMulValue]))
        _ = 2 ^ 128 := by norm_num
    · rw [roundDiv_false, tryIntoU64_eq_ok]
      exact ⟨hlt, rfl⟩

/-- A step that takes less than it is offered can pay for the whole way to its target.

**Proof sketch.** A step that stops short uses up what it is offered, so this one reaches its
target; then the fixed amount of the whole move is at most what is left after the fee, whatever is
offered in its place. -/
lemma computeSwap_reached (hrem : remaining < 2 ^ 64) (hfee : feeRate < feeRateMulValue)
    (hl : l < 2 ^ 128) (hcur : cur < 2 ^ 128) (htarget : target < 2 ^ 128) (hc : 0 < cur)
    (ht : 0 < target) (htow : Toward aToB cur target)
    (h : computeSwap remaining feeRate l cur target input aToB = .ok r)
    (hlt : r.taken input < remaining) :
    r.nextPrice = target ∧ ∀ offered, r.taken input ≤ offered →
      fixedDelta input aToB cur target l ≤ amountCalc input offered feeRate := by
  have hcon := computeSwap_contract hl hcur htarget hrem hfee hc ht htow h
  obtain ⟨hnext, hin, hout, hfe, -⟩ := computeSwap_eq_ok hl hcur htarget hrem h
  unfold SwapStepComputation.taken at hlt ⊢
  rcases hnext with ⟨-, hn⟩ | ⟨hshort, hn⟩
  · refine ⟨hn, fun offered hoff => ?_⟩
    unfold fixedDelta
    cases input with
    | true =>
      rw [if_neg (fun h => h.2 hn)] at hfe
      rw [if_pos rfl, hfe] at hoff
      rw [if_pos rfl, ← hn, ← hin, ← amountCalc_add_feeOn r.amountIn hfee]
      exact amountCalc_mono hoff
    | false =>
      rw [if_neg (by simp)] at hlt hoff hout ⊢
      rw [hn] at hout
      unfold amountCalc
      rw [if_neg (by simp)]
      omega
  · -- an amount that falls short is used up
    obtain ⟨-, -, h3, h4⟩ :=
      getNextSqrtPrice_contract hl hcur (amountCalc_le.trans_lt hrem) hc ht htow hshort hn
    exfalso
    cases input with
    | true =>
      have hall := hcon.spent_all rfl (h3 rfl).1
      rw [if_pos rfl] at hlt
      omega
    | false =>
      have hge : remaining ≤ outDelta aToB cur r.nextPrice l := h4 rfl
      rw [if_neg (by simp)] at hlt hout
      omega

/-- **A step that takes less than it is offered** does the same for every amount that covers what
it takes.

**Proof sketch.** The step reaches its target, and so it does with every amount that covers what it
takes. The amounts are then those of the move to the target, and the fee is that on the input. -/
theorem computeSwap_amount_congr (hrem : remaining < 2 ^ 64) (hoff : offered < 2 ^ 64)
    (hfee : feeRate < feeRateMulValue) (hl : l < 2 ^ 128) (hcur : cur < 2 ^ 128)
    (htarget : target < 2 ^ 128) (hc : 0 < cur) (ht : 0 < target) (htow : Toward aToB cur target)
    (h : computeSwap remaining feeRate l cur target input aToB = .ok r)
    (hlt : r.taken input < remaining) (hle : r.taken input ≤ offered) :
    computeSwap offered feeRate l cur target input aToB = .ok r := by
  obtain ⟨hn, hcovers⟩ := computeSwap_reached hrem hfee hl hcur htarget hc ht htow h hlt
  have hge1 := hcovers remaining hlt.le
  have hge2 := hcovers offered hle
  unfold computeSwap at h ⊢
  simp only [amountCalc_eq_ok hrem, amountCalc_eq_ok hoff, Res.ok_bind] at h ⊢
  rw [Res.bind_eq_ok] at h
  obtain ⟨d, hd, h⟩ := h
  obtain ⟨rfl, -⟩ := getAmountFixedDelta_eq_ok hcur htarget hl hd
  simp only [ge_iff_le, if_pos hge1, if_pos hge2, hd, Res.ok_bind, decide_true, Bool.not_true,
    Bool.and_false, Bool.false_eq_true, if_false] at h ⊢
  simp only [Res.bind_eq_ok, Res.pure_eq_ok, Except.ok.injEq] at h ⊢
  obtain ⟨u, hu, fee, hfe, rfl⟩ := h
  refine ⟨u, hu, fee, hfe, ?_⟩
  unfold SwapStepComputation.taken at hlt hle
  cases input with
  | true => rfl
  | false =>
    simp only [Bool.false_eq_true, if_false, Bool.not_false, Bool.true_and, decide_eq_true_eq,
      SwapStepComputation.mk.injEq, true_and, and_true] at hlt hle ⊢
    split_ifs at hlt hle ⊢ <;> omega

end Step

/-! ## The loop -/

/-- The variables of the loop with another amount. -/
def SwapState.offered (s : SwapState) (amount : ℕ) : SwapState := { s with amountRemaining := amount }

section Loop

variable {w : Whirlpool} {infos : Fin numRewards → WhirlpoolRewardInfo} {base : TickMap}
  {limit amount : ℕ} {input aToB : Bool} {s s' : SwapState}

/-- What an iteration takes, it takes from the amount. -/
lemma nextAmounts_taken {r c r' c' : ℕ} {comp : SwapStepComputation} :
    nextAmounts input r c comp = .ok (r', c') ↔ comp.taken input ≤ r ∧ r' = r - comp.taken input ∧
      c' = c + comp.taken (!input) ∧ c' < 2 ^ 64 := by
  cases input with
  | true => exact nextAmounts_input
  | false => exact nextAmounts_output

/-- The prices of an iteration are in range. -/
theorem SwapState.WellFormed.target_bounds (hb : SwapBounds w limit amount)
    (hs : s.WellFormed w base limit amount aToB) {n : ℤ}
    (hres : TickMap.SearchResult (s.ticks base w.tickSpacing) aToB s.currTickIndex n) :
    0 < stepTarget limit aToB n ∧ stepTarget limit aToB n < 2 ^ 128 ∧
      Toward aToB s.currSqrtPrice (stepTarget limit aToB n) := by
  obtain ⟨h1, h2, -⟩ := stepTarget_toward hs.price hres hs.toward
  obtain ⟨hpos, hlt⟩ := price_bounds (h1.bounds h2 ⟨hs.price.min_le, hs.price.le_max⟩
    ⟨hb.min_le, hb.le_max⟩)
  exact ⟨hpos, hlt, h1⟩

/-- **An iteration that leaves a part of the amount** does the same with every amount that covers
what it takes.

**Proof sketch.** The computation of the step is the same for both amounts, since both cover what it
takes. The rest of the iteration reads the computation, not the amount. -/
theorem swapStep_amount_congr (hb : SwapBounds w limit amount)
    (hs : s.WellFormed w base limit amount aToB) (hne : limit ≠ s.currSqrtPrice)
    (h : swapStep w infos limit input aToB s = .ok s') (hpos : 0 < s'.amountRemaining) {offered : ℕ}
    (hle : s.amountRemaining - s'.amountRemaining ≤ offered) (hoff : offered < 2 ^ 64) :
    swapStep w infos limit input aToB (s.offered offered) =
      .ok (s'.offered (offered - (s.amountRemaining - s'.amountRemaining))) := by
  obtain ⟨j, n, comp, hsearch, hcomp, hstep⟩ := swapStep_cases hb hs hne h
  obtain ⟨hle1, hrem, hcalc, hlt⟩ := nextAmounts_taken.1 hstep.amounts
  obtain ⟨ht, ht', htow⟩ := hs.target_bounds hb hstep.search
  have htaken : s.amountRemaining - s'.amountRemaining = comp.taken input := by omega
  rw [htaken] at hle ⊢
  have hcomp' := computeSwap_amount_congr (hs.remaining_le.trans_lt hb.amount_lt) hoff hb.feeRate_lt
    hs.liquidity_lt hs.price.lt ht' hs.price.pos ht htow hcomp (by omega) hle
  have hamounts : nextAmounts input offered s.amountCalculated comp =
      .ok (offered - comp.taken input, s'.amountCalculated) :=
    nextAmounts_taken.2 ⟨hle, rfl, hcalc, hlt⟩
  unfold swapStep at h ⊢
  simp only [hsearch, getNextSqrtPrices_eq hstep.search.upper, hcomp, hstep.amounts, hstep.fees,
    Res.ok_bind] at h
  rw [Res.bind_eq_ok] at h
  obtain ⟨⟨l, seq, k, c⟩, hadv, h⟩ := h
  rw [Res.pure_eq_ok, Except.ok.injEq] at h
  have hadv' : advance w infos aToB j n (tickPrice n) comp.nextPrice s'.currFeeGrowthGlobalInput
      (s.offered offered) = .ok (l, seq, k, c) := hadv
  simp only [SwapState.offered] at hadv' ⊢
  simp only [hsearch, getNextSqrtPrices_eq hstep.search.upper, hcomp', hamounts, hstep.fees,
    Res.ok_bind, hadv', Res.pure_eq_ok]
  rw [← h]

end Loop

/-! ## The whole swap -/

namespace PostSwapUpdate

/-- The amount of a swap that the trader pays. -/
def amountIn (self : PostSwapUpdate) (aToB : Bool) : ℕ :=
  if aToB then self.amountA else self.amountB

/-- The amount of a swap that the trader receives. -/
def amountOut (self : PostSwapUpdate) (aToB : Bool) : ℕ :=
  if aToB then self.amountB else self.amountA

/-- The amount of a swap that was specified, as far as it was traded. -/
def specified (self : PostSwapUpdate) (input aToB : Bool) : ℕ :=
  if input then self.amountIn aToB else self.amountOut aToB

end PostSwapUpdate

section Swap

variable {w : Whirlpool} {infos : Fin numRewards → WhirlpoolRewardInfo} {base : TickMap}
  {limit amount : ℕ} {input aToB : Bool} {sequence sequence' : SwapTickSequence}
  {update : PostSwapUpdate} {timestamp : ℕ}

/-- The update exchanges what has been taken off the specified amount. -/
lemma postSwapUpdate_specified (s : SwapState) :
    (postSwapUpdate amount input aToB infos s).specified input aToB =
      amount - s.amountRemaining := by
  cases input <;> cases aToB <;> rfl

/-- The inversion of a swap: its guards, and its loop. -/
theorem swap_eq_ok :
    swap w sequence amount limit input aToB timestamp = .ok (update, sequence') ↔
      (minSqrtPriceX64 ≤ limit ∧ limit ≤ maxSqrtPriceX64) ∧ Toward aToB w.sqrtPrice limit ∧
        amount ≠ 0 ∧ ∃ infos s, nextWhirlpoolRewardInfos w timestamp = .ok infos ∧
          swapLoop w infos limit input aToB swapBound (initialSwapState w sequence amount aToB) =
            .ok s ∧
          postSwapUpdate amount input aToB infos s = update ∧ s.swapTickSequence = sequence' := by
  unfold swap
  rw [ite_err_eq_ok, ite_err_eq_ok, ite_err_eq_ok, not_or, not_lt, not_lt]
  simp only [Res.bind_eq_ok, Res.pure_eq_ok, Except.ok.injEq, Prod.mk.injEq]
  have htow : ¬((aToB = true ∧ limit > w.sqrtPrice) ∨ (aToB = false ∧ limit < w.sqrtPrice)) ↔
      Toward aToB w.sqrtPrice limit := by
    cases aToB <;> simp [Toward]
  rw [htow]
  constructor
  · rintro ⟨h1, h2, h3, infos, h4, s, h5, h6, h7⟩
    exact ⟨h1, h2, h3, infos, s, h4, h5, h6, h7⟩
  · rintro ⟨h1, h2, h3, infos, s, h4, h5, h6, h7⟩
    exact ⟨h1, h2, h3, infos, h4, s, h5, h6, h7⟩

end Swap

end NemoSwap
