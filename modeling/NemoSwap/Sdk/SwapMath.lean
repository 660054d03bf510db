import NemoSwap.Sdk.TokenMath

set_option relaxedAutoImplicit false
set_option autoImplicit false

/-!
# `sdk/src/utils/math/swap-math.ts`: one step of a quote

The SDK computes the step of a swap off chain, with its own arithmetic. It should return what the
step of the program returns.

## Main definitions

* `NemoSwap.Sdk.computeSwapStep` — the step.
* `NemoSwap.Sdk.RoundingGap` — the price moves whose amount of token B the SDK rounds apart from
  the program.
* `NemoSwap.Sdk.stepEnd` — where a `b_to_a` step ends, in terms of its inputs.

## Main results

* `NemoSwap.Sdk.computeSwapStep_eq_iff` — where the program's step succeeds, the SDK's step returns
  the same iff the trade pays in token A or the price moves have no rounding gap.
* `NemoSwap.Sdk.computeSwapStep_refines_iff` — the same, with the condition on the inputs alone.

## Implementation notes

Only the input of a `b_to_a` step is an amount of token B that is rounded up. An exact input is
also compared with the amount that reaches the target, so there the move to the target counts as
well: if its amount is below one unit the SDK rounds it to zero and always goes to the target, and
the largest amount makes it throw.
-/

namespace NemoSwap

namespace Sdk

/-- `SwapStep`. -/
structure SwapStep where
  amountIn : BN
  amountOut : BN
  nextPrice : BN
  feeAmount : BN
  deriving DecidableEq

/-- The step of the program, in the numbers of the SDK. -/
def SwapStep.ofProgram (r : SwapStepComputation) : SwapStep :=
  ⟨(r.amountIn : ℤ), (r.amountOut : ℤ), (r.nextPrice : ℤ), (r.feeAmount : ℤ)⟩

section Functions

variable (M : MathUtil)

/-- `getAmountFixedDelta`. -/
def getAmountFixedDelta (currSqrtPrice targetSqrtPrice currLiquidity : BN)
    (amountSpecifiedIsInput aToB : Bool) : Except SdkError BN :=
  if aToB = amountSpecifiedIsInput then
    getAmountDeltaA currSqrtPrice targetSqrtPrice currLiquidity amountSpecifiedIsInput
  else getAmountDeltaB M currSqrtPrice targetSqrtPrice currLiquidity amountSpecifiedIsInput

/-- `getAmountUnfixedDelta`. -/
def getAmountUnfixedDelta (currSqrtPrice targetSqrtPrice currLiquidity : BN)
    (amountSpecifiedIsInput aToB : Bool) : Except SdkError BN :=
  if aToB = amountSpecifiedIsInput then
    getAmountDeltaB M currSqrtPrice targetSqrtPrice currLiquidity (!amountSpecifiedIsInput)
  else getAmountDeltaA currSqrtPrice targetSqrtPrice currLiquidity (!amountSpecifiedIsInput)

/-- `computeSwapStep`. -/
def computeSwapStep (amountRemaining : BN) (feeRate : ℕ)
    (currLiquidity currSqrtPrice targetSqrtPrice : BN) (amountSpecifiedIsInput aToB : Bool) :
    Except SdkError SwapStep := do
  let initialFixedDelta ← getAmountFixedDelta M currSqrtPrice targetSqrtPrice currLiquidity
    amountSpecifiedIsInput aToB
  let amountCalc ← (if amountSpecifiedIsInput then
      BitMath.mulDiv amountRemaining ((feeRateMulValue : ℤ) - (feeRate : ℤ))
        (feeRateMulValue : ℤ) 128
    else .ok amountRemaining)
  let nextSqrtPrice ← (if amountCalc ≥ initialFixedDelta then .ok targetSqrtPrice
    else getNextSqrtPrice currSqrtPrice currLiquidity amountCalc amountSpecifiedIsInput aToB)
  let isMaxSwap := decide (nextSqrtPrice = targetSqrtPrice)
  let amountUnfixedDelta ← getAmountUnfixedDelta M currSqrtPrice nextSqrtPrice currLiquidity
    amountSpecifiedIsInput aToB
  let amountFixedDelta ← (if !isMaxSwap then
      getAmountFixedDelta M currSqrtPrice nextSqrtPrice currLiquidity amountSpecifiedIsInput aToB
    else .ok initialFixedDelta)
  let amountIn := if amountSpecifiedIsInput then amountFixedDelta else amountUnfixedDelta
  let uncappedOut := if amountSpecifiedIsInput then amountUnfixedDelta else amountFixedDelta
  let amountOut :=
    if !amountSpecifiedIsInput && decide (uncappedOut > amountRemaining) then amountRemaining
    else uncappedOut
  let feeAmount ← (if amountSpecifiedIsInput && !isMaxSwap then .ok (amountRemaining - amountIn)
    else BitMath.mulDivRoundUp amountIn (feeRate : ℤ) ((feeRateMulValue : ℤ) - (feeRate : ℤ)) 128)
  return { amountIn, amountOut, nextPrice := nextSqrtPrice, feeAmount }

end Functions

/-- A `b_to_a` step from price `cur` towards `target` that ends at `next` meets an amount of token
B that the SDK rounds apart from the program. -/
def RoundingGap (input : Bool) (l cur target next : ℕ) : Prop :=
  RoundsApart (l * (next - cur)) ∨ input = true ∧
    (0 < l * (target - cur) ∧ l * (target - cur) < 2 ^ 64 ∨
      l * (target - cur) = (2 ^ 64 - 1) * 2 ^ 64)

instance (input : Bool) (l cur target next : ℕ) : Decidable (RoundingGap input l cur target next) :=
  inferInstanceAs (Decidable (_ ∨ _))

section Step

variable {M : MathUtil} {remaining feeRate l cur target next m : ℕ} {input aToB : Bool}
  {r : SwapStepComputation}

/-! ## The amounts of a step -/

/-- The specified amount of a price move, unless it is an input of token B. -/
lemma getAmountFixedDelta_eq (hM : M.Floors) (hp : cur < 2 ^ 128) (hq : next < 2 ^ 128)
    (hl : l < 2 ^ 128) (hdir : aToB = true ∨ input = false)
    (h : NemoSwap.getAmountFixedDelta cur next l input aToB = .ok m) :
    getAmountFixedDelta M cur next l input aToB = .ok (m : ℤ) := by
  unfold NemoSwap.getAmountFixedDelta at h
  unfold getAmountFixedDelta
  cases aToB <;> cases input <;> simp only [Bool.false_eq_true, reduceCtorEq, or_self, if_true,
    if_false] at h hdir ⊢
  · exact getAmountDeltaA_eq hp hq hl h
  · exact getAmountDeltaB_down_eq hM h
  · exact getAmountDeltaA_eq hp hq hl h

/-- The other amount of a price move, unless it is an input of token B. -/
lemma getAmountUnfixedDelta_eq (hM : M.Floors) (hp : cur < 2 ^ 128) (hq : next < 2 ^ 128)
    (hl : l < 2 ^ 128) (hdir : aToB = true ∨ input = true)
    (h : NemoSwap.getAmountUnfixedDelta cur next l input aToB = .ok m) :
    getAmountUnfixedDelta M cur next l input aToB = .ok (m : ℤ) := by
  unfold NemoSwap.getAmountUnfixedDelta at h
  unfold getAmountUnfixedDelta
  cases aToB <;> cases input <;> simp only [Bool.false_eq_true, reduceCtorEq, or_self, if_true,
    if_false, Bool.not_true, Bool.not_false] at h hdir ⊢
  · exact getAmountDeltaA_eq hp hq hl h
  · exact getAmountDeltaA_eq hp hq hl h
  · exact getAmountDeltaB_down_eq hM h

/-- An input of token B agrees unless it is rounded apart. -/
lemma getAmountFixedDelta_up_iff (hM : M.Floors) (hle : cur ≤ next)
    (h : NemoSwap.getAmountFixedDelta cur next l true false = .ok m) :
    getAmountFixedDelta M cur next l true false = .ok (m : ℤ) ↔
      ¬RoundsApart (l * (next - cur)) := by
  have hiff := getAmountDeltaB_up_iff (M := M) hM h
  rwa [max_eq_right hle, min_eq_left hle] at hiff

/-- On the side that is not specified too, the SDK agrees exactly if the step has no rounding
gap. -/
lemma getAmountUnfixedDelta_up_iff (hM : M.Floors) (hle : cur ≤ next)
    (h : NemoSwap.getAmountUnfixedDelta cur next l false false = .ok m) :
    getAmountUnfixedDelta M cur next l false false = .ok (m : ℤ) ↔
      ¬RoundsApart (l * (next - cur)) := by
  have hiff := getAmountDeltaB_up_iff (M := M) hM h
  rwa [max_eq_right hle, min_eq_left hle] at hiff

/-- An input of token B, as the SDK computes it. -/
lemma getAmountFixedDelta_up_eq (hM : M.Floors) (hle : cur ≤ next)
    (h : NemoSwap.getAmountFixedDelta cur next l true false = .ok m) :
    getAmountFixedDelta M cur next l true false =
      if 2 ^ 64 ≤ l * (next - cur) then
        if l * (next - cur) / 2 ^ 64 = 2 ^ 64 - 1 then BitMath.throwCode .MultiplicationOverflow
        else .ok ((l * (next - cur) / 2 ^ 64 + 1 : ℕ) : ℤ)
      else .ok ((l * (next - cur) / 2 ^ 64 : ℕ) : ℤ) := by
  have hlt := product_lt (r := true) h
  rw [max_eq_right hle, min_eq_left hle] at hlt
  have hshift := getAmountDeltaB_eq_shift M cur next l true
  rw [max_eq_right hle, min_eq_left hle, checkedMulShiftRight_eq hM hlt] at hshift
  simp only [true_and] at hshift
  exact hshift

/-! ## The parts of a step -/

/-- **Inversion of the program's step**, down to the amounts that it computes. -/
theorem computeSwap_parts (h : computeSwap remaining feeRate l cur target input aToB = .ok r) :
    ∃ f0 u f, NemoSwap.getAmountFixedDelta cur target l input aToB = .ok f0 ∧
      NemoSwap.getAmountUnfixedDelta cur r.nextPrice l input aToB = .ok u ∧
      (if r.nextPrice = target then f = f0
        else NemoSwap.getAmountFixedDelta cur r.nextPrice l input aToB = .ok f) ∧
      r.amountIn = (if input then f else u) ∧
      r.amountOut = (if input then u else if f > remaining then remaining else f) := by
  unfold computeSwap at h
  simp only [Res.bind_eq_ok] at h
  obtain ⟨f0, hf0, ac, -, next, -, u, hu, f, hf, fee, -, h⟩ := h
  rw [Res.pure_eq_ok, Except.ok.injEq] at h
  subst h
  refine ⟨f0, u, f, hf0, hu, ?_, rfl, ?_⟩
  · by_cases hmax : next = target
    · simp only [hmax, decide_true, Bool.not_true, Bool.false_eq_true, if_false,
        Except.ok.injEq] at hf
      rw [if_pos hmax, hf]
    · simp only [hmax, decide_false, Bool.not_false, if_true] at hf
      rwa [if_neg hmax]
  · cases input <;> simp

/-- **Inversion of the SDK's step.**

**Proof sketch.** The definition is followed: the amount after the fee, the next price, the two
deltas and the fee. In each mode it matters whether the step has reached its target. -/
theorem computeSwapStep_eq_ok {s : SwapStep} (hrem : remaining < 2 ^ 64)
    (hfee : feeRate < feeRateMulValue) :
    computeSwapStep M remaining feeRate l cur target input aToB = .ok s ↔
      ∃ f0 u f, getAmountFixedDelta M cur target l input aToB = .ok f0 ∧
        (if ((amountCalc input remaining feeRate : ℕ) : ℤ) ≥ f0 then .ok (target : ℤ)
          else getNextSqrtPrice cur l (amountCalc input remaining feeRate : ℕ) input aToB) =
            .ok s.nextPrice ∧
        getAmountUnfixedDelta M cur s.nextPrice l input aToB = .ok u ∧
        (if s.nextPrice = target then .ok f0
          else getAmountFixedDelta M cur s.nextPrice l input aToB) = .ok f ∧
        s.amountIn = (if input then f else u) ∧
        s.amountOut = (if input then u else if f > remaining then (remaining : ℤ) else f) ∧
        (if input = true ∧ s.nextPrice ≠ target then .ok ((remaining : ℤ) - s.amountIn)
          else BitMath.mulDivRoundUp s.amountIn feeRate
            ((feeRateMulValue : ℤ) - (feeRate : ℤ)) 128) = .ok s.feeAmount := by
  have hsub : (feeRateMulValue : ℤ) - (feeRate : ℤ) = ((feeRateMulValue - feeRate : ℕ) : ℤ) :=
    (Nat.cast_sub hfee.le).symm
  have hac : (if input = true then BitMath.mulDiv (remaining : ℤ)
      ((feeRateMulValue : ℤ) - (feeRate : ℤ)) (feeRateMulValue : ℤ) 128
      else .ok (remaining : ℤ)) = .ok ((amountCalc input remaining feeRate : ℕ) : ℤ) := by
    unfold amountCalc
    split_ifs
    · have hmul : remaining * (feeRateMulValue - feeRate) < 2 ^ 128 := by
        calc remaining * (feeRateMulValue - feeRate) ≤ remaining * feeRateMulValue :=
              Nat.mul_le_mul_left _ (Nat.sub_le _ _)
          _ < 2 ^ 64 * 2 ^ 64 :=
              Nat.mul_lt_mul'' hrem (by norm_num [feeRateMulValue])
          _ = 2 ^ 128 := by norm_num
      rw [hsub, BitMath.mulDiv_natCast (by norm_num [feeRateMulValue]) hmul]
    · rfl
  unfold computeSwapStep
  rw [hac]
  simp only [bind_eq_ok, Except.ok.injEq, exists_eq_left', pure, Except.pure]
  constructor
  · rintro ⟨f0, hf0, next, hnext, u, hu, f, hf, fee, hfee', rfl⟩
    refine ⟨f0, u, f, hf0, hnext, hu, ?_, rfl, ?_, ?_⟩
    · by_cases hmax : next = target
      · simpa [hmax] using hf
      · simpa [hmax] using hf
    · cases input <;> simp
    · simpa [and_comm] using hfee'
  · rintro ⟨f0, u, f, hf0, hnext, hu, hf, hin, hout, hfee'⟩
    obtain ⟨amountIn, amountOut, next, fee⟩ := s
    simp only at hnext hu hf hin hout hfee'
    refine ⟨f0, hf0, next, hnext, u, hu, f, ?_, fee, ?_, ?_⟩
    · by_cases hmax : next = target
      · simpa [hmax] using hf
      · simpa [hmax] using hf
    · rw [hin] at hfee'
      simpa [and_comm] using hfee'
    · rw [hin, hout]
      cases input <;> simp

/-! ## Agreement with the program -/

/-- The fee of a step whose input and price are the program's.

**Proof sketch.** If the step ends before its target with a specified input, both take the rest as
the fee. Otherwise both round up the same quotient, whose product fits. -/
lemma stepFee_eq (hrem : remaining < 2 ^ 64) (hfee : feeRate < 2 ^ 16) (hl : l < 2 ^ 128)
    (hcur : minSqrtPriceX64 ≤ cur ∧ cur ≤ maxSqrtPriceX64)
    (htarget : minSqrtPriceX64 ≤ target ∧ target ≤ maxSqrtPriceX64)
    (hdir : Toward aToB cur target)
    (h : computeSwap remaining feeRate l cur target input aToB = .ok r) :
    (if input = true ∧ (r.nextPrice : ℤ) ≠ (target : ℤ)
      then .ok ((remaining : ℤ) - (r.amountIn : ℤ))
      else BitMath.mulDivRoundUp r.amountIn feeRate ((feeRateMulValue : ℤ) - (feeRate : ℤ)) 128) =
        (.ok (r.feeAmount : ℤ) : Except SdkError BN) := by
  obtain ⟨hc0, hc⟩ := price_bounds hcur
  obtain ⟨ht0, ht⟩ := price_bounds htarget
  have hfee' : feeRate < feeRateMulValue := hfee.trans (by norm_num [feeRateMulValue])
  have hcontract := computeSwap_contract hl hc ht hrem hfee' hc0 ht0 hdir h
  obtain ⟨-, -, -, hfeeAmount, -, hin, -, -⟩ := computeSwap_eq_ok hl hc ht hrem h
  simp only [ne_eq, Nat.cast_inj]
  split_ifs at hfeeAmount ⊢ with hpart
  · have hall := hcontract.spent_all hpart.1 hpart.2
    rw [← hall, Nat.cast_add, add_sub_cancel_left]
  · have hmul : r.amountIn * feeRate < 2 ^ 128 :=
      (Nat.mul_lt_mul'' hin hfee).trans (by norm_num)
    rw [← Nat.cast_sub hfee'.le, BitMath.mulDivRoundUp_natCast (Nat.sub_pos_of_lt hfee').ne' hmul,
      hfeeAmount]
    rfl

/-- The price of a step, if the SDK compares the amount with the same result. -/
lemma stepPrice_eq (hrem : remaining < 2 ^ 64) (hl : l < 2 ^ 128) (hcur : cur < 2 ^ 128)
    (htarget : target < 2 ^ 128)
    (h : computeSwap remaining feeRate l cur target input aToB = .ok r) {f0 : ℕ}
    (hf0 : f0 ≤ amountCalc input remaining feeRate ↔
      fixedDelta input aToB cur target l ≤ amountCalc input remaining feeRate) :
    (if ((amountCalc input remaining feeRate : ℕ) : ℤ) ≥ (f0 : ℤ) then .ok (target : ℤ)
      else getNextSqrtPrice cur l (amountCalc input remaining feeRate : ℕ) input aToB) =
        (.ok (r.nextPrice : ℤ) : Except SdkError BN) := by
  rcases (computeSwap_eq_ok hl hcur htarget hrem h).1 with ⟨hge, heq⟩ | ⟨hlt, hnext⟩
  · rw [if_pos (Nat.cast_le.2 (hf0.2 hge)), heq]
  · have hlt' : amountCalc input remaining feeRate < f0 :=
      not_le.1 fun hcon => absurd (hf0.1 hcon) (not_le.2 hlt)
    rw [if_neg (not_le.2 (Nat.cast_lt.2 hlt'))]
    exact getNextSqrtPrice_eq hcur hl (amountCalc_le.trans_lt hrem) hnext

/-- Steps whose amounts agree agree. -/
lemma computeSwapStep_of_amounts (hrem : remaining < 2 ^ 64) (hfee : feeRate < 2 ^ 16)
    (hl : l < 2 ^ 128) (hcur : minSqrtPriceX64 ≤ cur ∧ cur ≤ maxSqrtPriceX64)
    (htarget : minSqrtPriceX64 ≤ target ∧ target ≤ maxSqrtPriceX64)
    (hdir : Toward aToB cur target)
    (h : computeSwap remaining feeRate l cur target input aToB = .ok r) {f0 f1 u : ℕ}
    (hfixed : getAmountFixedDelta M cur target l input aToB = .ok (f0 : ℤ))
    (hprice : f0 ≤ amountCalc input remaining feeRate ↔
      fixedDelta input aToB cur target l ≤ amountCalc input remaining feeRate)
    (hother : getAmountUnfixedDelta M cur r.nextPrice l input aToB = .ok (u : ℤ))
    (hmoved : if r.nextPrice = target then f1 = f0
      else getAmountFixedDelta M cur r.nextPrice l input aToB = .ok (f1 : ℤ))
    (hin : r.amountIn = if input then f1 else u)
    (hout : r.amountOut = if input then u else if f1 > remaining then remaining else f1) :
    computeSwapStep M remaining feeRate l cur target input aToB = .ok (SwapStep.ofProgram r) := by
  obtain ⟨-, hc⟩ := price_bounds hcur
  obtain ⟨-, ht⟩ := price_bounds htarget
  refine (computeSwapStep_eq_ok hrem (hfee.trans (by norm_num [feeRateMulValue]))).2
    ⟨f0, u, f1, hfixed, stepPrice_eq hrem hl hc ht h hprice, hother, ?_, ?_, ?_,
      stepFee_eq hrem hfee hl hcur htarget hdir h⟩
  · simp only [SwapStep.ofProgram, Nat.cast_inj]
    split_ifs at hmoved ⊢ with hmax
    · rw [hmoved]
    · exact hmoved
  · simp only [SwapStep.ofProgram, hin]
    split_ifs <;> rfl
  · simp only [SwapStep.ofProgram, hout, gt_iff_lt, Nat.cast_lt]
    split_ifs <;> rfl

/-- Without a rounding gap the amount that reaches the target decides alike.

**Proof sketch.** If the roundings agree, both sides compare the same number. If they are apart, the
step does not reach its target, and an amount on which the two comparisons differ would be a gap. -/
lemma fixedDelta_up_le_iff (hM : M.Floors) (hle : cur ≤ target)
    (hgap : ¬RoundingGap true l cur target next)
    (hnext : next = target ∨ m < fixedDelta true false cur target l)
    (hf0 : NemoSwap.getAmountFixedDelta cur target l true false =
      .ok (fixedDelta true false cur target l)) :
    ∃ f0 : ℕ, getAmountFixedDelta M cur target l true false = .ok (f0 : ℤ) ∧
      (f0 ≤ m ↔ fixedDelta true false cur target l ≤ m) ∧
      (next = target → f0 = fixedDelta true false cur target l) := by
  by_cases happart : RoundsApart (l * (target - cur))
  · have hvalue := getAmountFixedDelta_up_eq hM hle hf0
    have hdelta : fixedDelta true false cur target l = roundDiv (l * (target - cur)) (2 ^ 64) true := by
      unfold fixedDelta inDelta deltaB
      simp [hle]
    have hne : next ≠ target := fun heq => hgap (Or.inl (heq ▸ happart))
    have hm := hnext.resolve_left hne
    rw [hdelta] at hm ⊢
    unfold RoundingGap at hgap
    unfold RoundsApart at happart
    unfold roundDiv at hm ⊢
    generalize l * (target - cur) = n at *
    simp only [true_and, not_or, Bool.true_and, decide_eq_true_eq] at hgap hm ⊢
    rw [if_pos (by omega), if_neg (by omega)] at hvalue
    exact ⟨_, hvalue, by split_ifs at hm ⊢ <;> omega, fun heq => absurd heq hne⟩
  · exact ⟨_, (getAmountFixedDelta_up_iff hM hle hf0).2 happart, Iff.rfl, fun _ => rfl⟩

/-- Without a rounding gap the steps agree.

**Proof sketch.** The contract of the program's step bounds every amount, so the arithmetic of the
SDK does not fail. The fixed delta decides the next price in both; where the program takes the step
from the input amount, a gap is the only way in which they can differ, and there is none. -/
theorem computeSwapStep_of_not_gap (hM : M.Floors) (hrem : remaining < 2 ^ 64)
    (hfee : feeRate < 2 ^ 16) (hl : l < 2 ^ 128)
    (hcur : minSqrtPriceX64 ≤ cur ∧ cur ≤ maxSqrtPriceX64)
    (htarget : minSqrtPriceX64 ≤ target ∧ target ≤ maxSqrtPriceX64)
    (hdir : Toward aToB cur target)
    (h : computeSwap remaining feeRate l cur target input aToB = .ok r)
    (hgap : aToB = true ∨ ¬RoundingGap input l cur target r.nextPrice) :
    computeSwapStep M remaining feeRate l cur target input aToB = .ok (SwapStep.ofProgram r) := by
  obtain ⟨hc0, hc⟩ := price_bounds hcur
  obtain ⟨ht0, ht⟩ := price_bounds htarget
  have hfee' : feeRate < feeRateMulValue := hfee.trans (by norm_num [feeRateMulValue])
  have hcontract := computeSwap_contract hl hc ht hrem hfee' hc0 ht0 hdir h
  obtain ⟨hprice, -, -, -, hnextlt, -, -, -⟩ := computeSwap_eq_ok hl hc ht hrem h
  obtain ⟨f0, u, f, hf0, hu, hf, hin, hout⟩ := computeSwap_parts h
  obtain rfl := (NemoSwap.getAmountFixedDelta_eq_ok hc ht hl hf0).1
  by_cases hdirect : aToB = true ∨ input = false
  · -- the specified amount is rounded alike
    have hother : getAmountUnfixedDelta M cur r.nextPrice l input aToB = .ok (u : ℤ) := by
      by_cases ha : aToB = true
      · exact getAmountUnfixedDelta_eq hM hc hnextlt hl (Or.inl ha) hu
      obtain rfl := hdirect.resolve_left ha
      obtain rfl : aToB = false := by simpa using ha
      exact (getAmountUnfixedDelta_up_iff hM hcontract.toward hu).2
        fun happart => hgap.resolve_left ha (Or.inl happart)
    refine computeSwapStep_of_amounts hrem hfee hl hcur htarget hdir h
      (getAmountFixedDelta_eq hM hc ht hl hdirect hf0) Iff.rfl hother ?_ hin hout
    split_ifs at hf ⊢ with hmax
    · exact hf
    · exact getAmountFixedDelta_eq hM hc hnextlt hl hdirect hf
  · obtain ⟨ha, hi⟩ := not_or.1 hdirect
    obtain rfl : aToB = false := by simpa using ha
    obtain rfl : input = true := by simpa using hi
    have hgap := hgap.resolve_left ha
    obtain ⟨f1, hf1, hiff, heq⟩ := fixedDelta_up_le_iff hM hdir hgap
      (m := amountCalc true remaining feeRate) (hprice.imp (·.2) (·.1)) hf0
    refine computeSwapStep_of_amounts hrem hfee hl hcur htarget hdir h hf1 hiff
      (getAmountUnfixedDelta_eq hM hc hnextlt hl (Or.inr rfl) hu) ?_ hin hout
    split_ifs at hf ⊢ with hmax
    · rw [hf, heq hmax]
    · exact (getAmountFixedDelta_up_iff hM hcontract.toward hf).2
        fun happart => hgap (Or.inl happart)

/-- Steps that agree have no rounding gap.

**Proof sketch.** Both steps are inverted. For an exact output the inputs agree, and they are rounded
up, so the roundings agree. For an exact input a gap would make the input or the price of the SDK
differ from those of the program. -/
lemma not_gap_of_computeSwapStep (hM : M.Floors) (hrem : remaining < 2 ^ 64)
    (hfee : feeRate < 2 ^ 16) (hl : l < 2 ^ 128)
    (hcur : minSqrtPriceX64 ≤ cur ∧ cur ≤ maxSqrtPriceX64)
    (htarget : minSqrtPriceX64 ≤ target ∧ target ≤ maxSqrtPriceX64) (hdir : Toward false cur target)
    (h : computeSwap remaining feeRate l cur target input false = .ok r)
    (hstep : computeSwapStep M remaining feeRate l cur target input false =
      .ok (SwapStep.ofProgram r)) : ¬RoundingGap input l cur target r.nextPrice := by
  obtain ⟨hc0, hc⟩ := price_bounds hcur
  obtain ⟨ht0, ht⟩ := price_bounds htarget
  have hfee' : feeRate < feeRateMulValue := hfee.trans (by norm_num [feeRateMulValue])
  have hcontract := computeSwap_contract hl hc ht hrem hfee' hc0 ht0 hdir h
  obtain ⟨f0, u, f, hf0, hu, hf, hin, -⟩ := computeSwap_parts h
  obtain ⟨g0, v, g, hg0, hprice, hv, hg, hgin, -, -⟩ :=
    (computeSwapStep_eq_ok hrem hfee').1 hstep
  simp only [SwapStep.ofProgram] at hprice hv hg hgin
  cases input with
  | false =>
    simp only [Bool.false_eq_true, if_false] at hin hgin
    subst hin
    subst hgin
    have hapart := (getAmountUnfixedDelta_up_iff hM hcontract.toward hu).1 hv
    rintro (happart | ⟨hfalse, -⟩)
    · exact hapart happart
    · cases hfalse
  | true =>
    simp only [if_true] at hin hgin
    subst hin
    subst hgin
    simp only [Nat.cast_inj] at hg
    have hvalue := getAmountFixedDelta_up_eq hM hdir hf0
    rw [hg0] at hvalue
    by_cases hmax : r.nextPrice = target
    · -- the move is the one to the target
      rw [if_pos hmax] at hf hg
      rw [Except.ok.injEq] at hg
      subst hg
      rw [hf] at hg0
      have hapart := (getAmountFixedDelta_up_iff hM hdir hf0).1 hg0
      unfold RoundingGap
      unfold RoundsApart at hapart ⊢
      rw [hmax]
      generalize l * (target - cur) = n at *
      omega
    · rw [if_neg hmax] at hf hg
      have hapart := (getAmountFixedDelta_up_iff hM hcontract.toward hf).1 hg
      rintro (happart | ⟨-, hsmall | htop⟩)
      · exact hapart happart
      · -- the SDK would have gone to the target
        rw [if_neg (not_le.2 hsmall.2), Nat.div_eq_of_lt hsmall.2, Except.ok.injEq] at hvalue
        rw [if_pos (by rw [hvalue]; exact Int.natCast_nonneg _), Except.ok.injEq,
          Nat.cast_inj] at hprice
        exact hmax hprice.symm
      · rw [htop, if_pos (by norm_num), if_pos (by norm_num)] at hvalue
        cases hvalue

/-- **The SDK's step is the program's step, unless a price move of a `b_to_a` trade has a rounding
gap.** -/
theorem computeSwapStep_eq_iff (hM : M.Floors) (hrem : remaining < 2 ^ 64)
    (hfee : feeRate < 2 ^ 16) (hl : l < 2 ^ 128)
    (hcur : minSqrtPriceX64 ≤ cur ∧ cur ≤ maxSqrtPriceX64)
    (htarget : minSqrtPriceX64 ≤ target ∧ target ≤ maxSqrtPriceX64)
    (hdir : Toward aToB cur target)
    (h : computeSwap remaining feeRate l cur target input aToB = .ok r) :
    computeSwapStep M remaining feeRate l cur target input aToB = .ok (SwapStep.ofProgram r) ↔
      (aToB = true ∨ ¬RoundingGap input l cur target r.nextPrice) := by
  refine ⟨fun hstep => ?_, computeSwapStep_of_not_gap hM hrem hfee hl hcur htarget hdir h⟩
  cases aToB with
  | true => exact Or.inl rfl
  | false =>
    exact Or.inr (not_gap_of_computeSwapStep hM hrem hfee hl hcur htarget hdir h hstep)

/-- A move worth five units of token B exactly, for which the SDK asks for six. -/
theorem computeSwapStep_eq_iff_five :
    computeSwap 1000 3000 (2 ^ 64) (2 ^ 64) (2 ^ 64 + 5) true false =
        .ok ⟨5, 4, 2 ^ 64 + 5, 1⟩ ∧
      computeSwapStep MathUtil.documented 1000 3000 (2 ^ 64) (2 ^ 64) (2 ^ 64 + 5) true false ≠
        .ok (SwapStep.ofProgram ⟨5, 4, 2 ^ 64 + 5, 1⟩) := by
  have hok : computeSwap 1000 3000 (2 ^ 64) (2 ^ 64) (2 ^ 64 + 5) true false =
      .ok ⟨5, 4, 2 ^ 64 + 5, 1⟩ := by decide +kernel
  have hiff := computeSwapStep_eq_iff documented_floors (by norm_num) (by norm_num) (by norm_num)
    (by decide) (by decide) (toward_false.2 (by norm_num)) hok
  refine ⟨hok, fun hstep => ?_⟩
  exact absurd (hiff.1 (by exact_mod_cast hstep)) (by decide +kernel)

/-! ## The gap in terms of the inputs -/

/-- Where a `b_to_a` step ends: at its target if the amount after fees covers the whole move, and
else where this amount of token B, or this output of token A, ends. -/
def stepEnd (input : Bool) (remaining feeRate l cur target : ℕ) : ℕ :=
  let amount := amountCalc input remaining feeRate
  if fixedDelta input false cur target l ≤ amount then target
  else if input then cur + amount * 2 ^ 64 / l
  else roundDiv (l * cur * 2 ^ 64) (l * 2 ^ 64 - cur * amount) true

/-- **The end of a `b_to_a` step of the program** in terms of its inputs.

**Proof sketch.** By inversion of the step. If the amount does not cover the whole move, the end is
the next price for this amount of token B or of token A; an output of zero does not move the price,
and only covers nothing if there is liquidity. -/
lemma nextPrice_eq_stepEnd (hrem : remaining < 2 ^ 64) (hl : l < 2 ^ 128) (hcur : cur < 2 ^ 128)
    (htarget : target < 2 ^ 128)
    (h : computeSwap remaining feeRate l cur target input false = .ok r) :
    r.nextPrice = stepEnd input remaining feeRate l cur target := by
  unfold stepEnd
  simp only
  rcases (computeSwap_eq_ok hl hcur htarget hrem h).1 with ⟨hle, hnext⟩ | ⟨hlt, hnext⟩
  · rw [if_pos hle, hnext]
  rw [if_neg (not_le.2 hlt)]
  unfold NemoSwap.getNextSqrtPrice at hnext
  cases input with
  | true =>
    rw [if_neg (by decide)] at hnext
    obtain ⟨-, hin, -⟩ := NemoSwap.getNextSqrtPriceFromB_eq_ok.1 hnext
    rw [if_pos rfl]
    exact (hin rfl).2
  | false =>
    rw [if_pos rfl] at hnext
    rw [if_neg Bool.false_ne_true]
    rcases NemoSwap.getNextSqrtPriceFromA_eq_ok hcur hl (amountCalc_le.trans_lt hrem) hnext with
      ⟨hzero, hsame⟩ | ⟨-, -, -, -, hout⟩
    · -- without liquidity the amount would cover the whole move
      have hl0 : l ≠ 0 := by
        rintro rfl
        simp [fixedDelta, outDelta, deltaA] at hlt
      have hpos : 0 < l * 2 ^ 64 := by positivity
      rw [hzero, Nat.mul_zero, Nat.sub_zero, hsame, mul_right_comm]
      unfold roundDiv
      rw [Nat.mul_mod_right, Nat.mul_div_cancel_left cur hpos]
      rfl
    · exact (hout rfl).2

/-- **When the SDK's step is the program's step**: exactly if the trade goes from A to B, or the
move up to where the amount ends has no rounding gap.

**Proof sketch.** The program's step ends where `stepEnd` says. Without a gap up to there the steps
agree by `computeSwapStep_of_not_gap`, and steps that agree have none by
`not_gap_of_computeSwapStep`. -/
theorem computeSwapStep_refines_iff (hM : M.Floors) (hrem : remaining < 2 ^ 64)
    (hfee : feeRate < 2 ^ 16) (hl : l < 2 ^ 128)
    (hcur : minSqrtPriceX64 ≤ cur ∧ cur ≤ maxSqrtPriceX64)
    (htarget : minSqrtPriceX64 ≤ target ∧ target ≤ maxSqrtPriceX64)
    (hdir : Toward aToB cur target)
    (h : computeSwap remaining feeRate l cur target input aToB = .ok r) :
    computeSwapStep M remaining feeRate l cur target input aToB = .ok (SwapStep.ofProgram r) ↔
      (aToB = true ∨
        ¬RoundingGap input l cur target (stepEnd input remaining feeRate l cur target)) := by
  cases aToB with
  | true =>
    have hsame := computeSwapStep_of_not_gap hM hrem hfee hl hcur htarget hdir h (Or.inl rfl)
    exact iff_of_true hsame (Or.inl rfl)
  | false =>
    rw [← nextPrice_eq_stepEnd hrem hl (price_bounds hcur).2 (price_bounds htarget).2 h]
    constructor
    · intro hstep
      exact Or.inr (not_gap_of_computeSwapStep hM hrem hfee hl hcur htarget hdir h hstep)
    · intro hgap
      exact computeSwapStep_of_not_gap hM hrem hfee hl hcur htarget hdir h hgap

/-- An output of 1000 units of token A that ends before its target, for which the SDK asks as much
as the program. -/
theorem computeSwapStep_refines_iff_output :
    computeSwapStep MathUtil.documented 1000 3000 (10 ^ 12 : ℕ) (2 ^ 64 : ℕ) (2 ^ 65 : ℕ) false
        false =
      .ok ⟨1001, 1000, 18446744092156295709, 4⟩ := by
  have hok : computeSwap 1000 3000 (10 ^ 12) (2 ^ 64) (2 ^ 65) false false =
      .ok ⟨1001, 1000, 18446744092156295709, 4⟩ := by decide +kernel
  exact (computeSwapStep_refines_iff documented_floors (by norm_num) (by norm_num) (by norm_num)
    (by decide) (by decide) (toward_false.2 (by norm_num)) hok).2 (by decide +kernel)

/-- **An ordinary step in which the SDK drifts from the program**: for an input of a million units
the program takes 997000 units to the price and 3000 as its fee, and the SDK one unit more and one
less. -/
theorem computeSwapStep_drifts :
    computeSwap 1000000 3000 (2 ^ 32) (2 ^ 64) (2 ^ 65) true false =
        .ok ⟨997000, 996768, 18451026156103663616, 3000⟩ ∧
      computeSwapStep MathUtil.documented 1000000 3000 (2 ^ 32) (2 ^ 64) (2 ^ 65) true false =
        .ok ⟨997001, 996768, 18451026156103663616, 2999⟩ := by
  constructor
  · decide +kernel
  · decide +kernel

end Step

end Sdk

end NemoSwap
