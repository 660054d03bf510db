import NemoSwap.Math.TokenMath

set_option relaxedAutoImplicit false
set_option autoImplicit false

/-!
# `swap_math.rs`: one step of a swap

A step trades against constant liquidity from the current price towards a target price, with a
fixed amount of one of the two tokens. The step either reaches the target or uses up the
amount.

## Main definitions

* `NemoSwap.computeSwap` — the step.
* `NemoSwap.StepContract` — what a step guarantees: the price stays between current and target,
  the input covers the exact amount of the price move, the output does not exceed it, and a
  step that stops short of the target has used the whole amount.

## Main results

* `NemoSwap.computeSwap_contract` — every successful step satisfies the contract.

## Implementation notes

Exact amounts are compared by cross-multiplication: with liquidity `L`, moving the price from `p`
to `q` with `p ≤ q` is worth `L * (q - p) / 2 ^ 64` of token B and
`L * 2 ^ 64 * (q - p) / (p * q)` of token A.
-/

namespace NemoSwap

/-- `SwapStepComputation`. -/
structure SwapStepComputation where
  amountIn : ℕ
  amountOut : ℕ
  nextPrice : ℕ
  feeAmount : ℕ
  deriving DecidableEq, Repr

/-- `get_amount_fixed_delta`. -/
def getAmountFixedDelta (sqrtPriceCurrent sqrtPriceTarget liquidity : ℕ)
    (amountSpecifiedIsInput aToB : Bool) : Res ℕ :=
  if aToB = amountSpecifiedIsInput then
    getAmountDeltaA sqrtPriceCurrent sqrtPriceTarget liquidity amountSpecifiedIsInput
  else getAmountDeltaB sqrtPriceCurrent sqrtPriceTarget liquidity amountSpecifiedIsInput

/-- `get_amount_unfixed_delta`. -/
def getAmountUnfixedDelta (sqrtPriceCurrent sqrtPriceTarget liquidity : ℕ)
    (amountSpecifiedIsInput aToB : Bool) : Res ℕ :=
  if aToB = amountSpecifiedIsInput then
    getAmountDeltaB sqrtPriceCurrent sqrtPriceTarget liquidity (!amountSpecifiedIsInput)
  else getAmountDeltaA sqrtPriceCurrent sqrtPriceTarget liquidity (!amountSpecifiedIsInput)

/-- `compute_swap`. The subtraction `amount_remaining - amount_in` is a plain one. -/
def computeSwap (amountRemaining feeRate liquidity sqrtPriceCurrent sqrtPriceTarget : ℕ)
    (amountSpecifiedIsInput aToB : Bool) : Res SwapStepComputation := do
  let initialFixedDelta ←
    getAmountFixedDelta sqrtPriceCurrent sqrtPriceTarget liquidity amountSpecifiedIsInput aToB
  let amountCalc ← (if amountSpecifiedIsInput then
      checkedMulDiv amountRemaining (feeRateMulValue - feeRate) feeRateMulValue >>= tryIntoU64
    else .ok amountRemaining)
  let nextSqrtPrice ← (if amountCalc ≥ initialFixedDelta then .ok sqrtPriceTarget
    else getNextSqrtPrice sqrtPriceCurrent liquidity amountCalc amountSpecifiedIsInput aToB)
  let isMaxSwap := decide (nextSqrtPrice = sqrtPriceTarget)
  let amountUnfixedDelta ←
    getAmountUnfixedDelta sqrtPriceCurrent nextSqrtPrice liquidity amountSpecifiedIsInput aToB
  let amountFixedDelta ← (if !isMaxSwap then
      getAmountFixedDelta sqrtPriceCurrent nextSqrtPrice liquidity amountSpecifiedIsInput aToB
    else .ok initialFixedDelta)
  let amountIn := if amountSpecifiedIsInput then amountFixedDelta else amountUnfixedDelta
  let uncappedOut := if amountSpecifiedIsInput then amountUnfixedDelta else amountFixedDelta
  let amountOut :=
    if !amountSpecifiedIsInput && decide (uncappedOut > amountRemaining) then amountRemaining
    else uncappedOut
  let feeAmount ← (if amountSpecifiedIsInput && !isMaxSwap then
      .ok (wrappingSub 64 amountRemaining amountIn)
    else checkedMulDivRoundUp amountIn feeRate (feeRateMulValue - feeRate) >>= tryIntoU64)
  return { amountIn, amountOut, nextPrice := nextSqrtPrice, feeAmount }

/-! ## What a step returns -/

/-- The input of a price move: token A if the trade is `aToB`, rounded up. -/
def inDelta (aToB : Bool) (p q liquidity : ℕ) : ℕ :=
  if aToB then deltaA (min p q) (max p q) liquidity true
  else deltaB (min p q) (max p q) liquidity true

/-- The output of a price move: token B if the trade is `aToB`, rounded down. -/
def outDelta (aToB : Bool) (p q liquidity : ℕ) : ℕ :=
  if aToB then deltaB (min p q) (max p q) liquidity false
  else deltaA (min p q) (max p q) liquidity false

/-- The specified amount of a price move: its input or its output. -/
def fixedDelta (input aToB : Bool) (p q liquidity : ℕ) : ℕ :=
  if input then inDelta aToB p q liquidity else outDelta aToB p q liquidity

section

variable {p q l m : ℕ} {input aToB : Bool}

/-- When the amount on the specified side is returned, it is the rounded exact one and a `u64`. -/
theorem getAmountFixedDelta_eq_ok (hp : p < 2 ^ 128) (hq : q < 2 ^ 128) (hl : l < 2 ^ 128)
    (h : getAmountFixedDelta p q l input aToB = .ok m) :
    m = fixedDelta input aToB p q l ∧ m < 2 ^ 64 := by
  unfold getAmountFixedDelta at h
  unfold fixedDelta inDelta outDelta
  cases input <;> cases aToB <;> simp only [Bool.false_eq_true, if_true, if_false, reduceCtorEq] at h ⊢
  · exact (getAmountDeltaA_eq_ok hp hq hl h).2
  · exact getAmountDeltaB_eq_ok.1 h
  · exact getAmountDeltaB_eq_ok.1 h
  · exact (getAmountDeltaA_eq_ok hp hq hl h).2

/-- When the amount on the other side is returned, it is the rounded exact one and a `u64`. -/
lemma getAmountUnfixedDelta_eq_ok (hp : p < 2 ^ 128) (hq : q < 2 ^ 128) (hl : l < 2 ^ 128)
    (h : getAmountUnfixedDelta p q l input aToB = .ok m) :
    m = fixedDelta (!input) aToB p q l ∧ m < 2 ^ 64 := by
  unfold getAmountUnfixedDelta at h
  unfold fixedDelta inDelta outDelta
  cases input <;> cases aToB <;>
    simp only [Bool.false_eq_true, Bool.not_true, Bool.not_false, if_true, if_false,
      reduceCtorEq] at h ⊢
  · exact getAmountDeltaB_eq_ok.1 h
  · exact (getAmountDeltaA_eq_ok hp hq hl h).2
  · exact (getAmountDeltaA_eq_ok hp hq hl h).2
  · exact getAmountDeltaB_eq_ok.1 h

end

/-- The amount that may be traded at most: the fee is taken from a specified input first. -/
def amountCalc (input : Bool) (remaining feeRate : ℕ) : ℕ :=
  if input then remaining * (feeRateMulValue - feeRate) / feeRateMulValue else remaining

/-- The fee on an input. -/
def feeOn (amountIn feeRate : ℕ) : ℕ :=
  roundDiv (amountIn * feeRate) (feeRateMulValue - feeRate) true

/-- A price that `get_next_sqrt_price` returns is a `u128`. -/
theorem getNextSqrtPrice_lt {p l a m : ℕ} {input aToB : Bool} (hp : p < 2 ^ 128)
    (hl : l < 2 ^ 128) (ha : a < 2 ^ 64) (h : getNextSqrtPrice p l a input aToB = .ok m) :
    m < 2 ^ 128 := by
  unfold getNextSqrtPrice at h
  split_ifs at h
  · rcases getNextSqrtPriceFromA_eq_ok hp hl ha h with ⟨-, rfl⟩ | ⟨-, -, hmax, -⟩
    · exact hp
    · exact lt_of_le_of_lt hmax (by norm_num [maxSqrtPriceX64])
  · obtain ⟨-, h1, h2⟩ := getNextSqrtPriceFromB_eq_ok.1 h
    cases input with
    | true =>
      obtain ⟨h3, rfl⟩ := h1 rfl
      exact h3
    | false =>
      obtain ⟨-, rfl⟩ := h2 rfl
      exact lt_of_le_of_lt (Nat.sub_le _ _) hp

/-- The amount that remains after the fee is at most the amount before it. -/
theorem amountCalc_le {input : Bool} {remaining feeRate : ℕ} :
    amountCalc input remaining feeRate ≤ remaining := by
  unfold amountCalc
  split_ifs
  · rw [Nat.div_le_iff_le_mul_add_pred (by norm_num [feeRateMulValue])]
    have := Nat.mul_le_mul_left remaining (Nat.sub_le feeRateMulValue feeRate)
    rw [mul_comm feeRateMulValue]
    omega
  · exact le_rfl

/-- **Inversion of `compute_swap`.**

**Proof sketch.** The branches of the code in order. The amounts that it computes again where the
target is not reached are the same functions at the price that is reached, so one expression
describes each result; every bound comes from the conversion to `u64` that the code makes. -/
theorem computeSwap_eq_ok {remaining feeRate l cur target : ℕ} {input aToB : Bool}
    {s : SwapStepComputation} (hl : l < 2 ^ 128) (hcur : cur < 2 ^ 128)
    (htarget : target < 2 ^ 128) (hrem : remaining < 2 ^ 64)
    (h : computeSwap remaining feeRate l cur target input aToB = .ok s) :
    ((fixedDelta input aToB cur target l ≤ amountCalc input remaining feeRate ∧
        s.nextPrice = target) ∨
      (amountCalc input remaining feeRate < fixedDelta input aToB cur target l ∧
        getNextSqrtPrice cur l (amountCalc input remaining feeRate) input aToB =
          .ok s.nextPrice)) ∧
      s.amountIn = inDelta aToB cur s.nextPrice l ∧
      s.amountOut = (if input then outDelta aToB cur s.nextPrice l
        else min (outDelta aToB cur s.nextPrice l) remaining) ∧
      s.feeAmount = (if input = true ∧ s.nextPrice ≠ target then
        wrappingSub 64 remaining s.amountIn else feeOn s.amountIn feeRate) ∧
      s.nextPrice < 2 ^ 128 ∧ s.amountIn < 2 ^ 64 ∧ s.amountOut < 2 ^ 64 ∧
      s.feeAmount < 2 ^ 64 := by
  unfold computeSwap at h
  simp only [Res.bind_eq_ok] at h
  obtain ⟨f0, hf0, ac, hac, next, hnext, u, hu, f, hf, fee, hfee, h⟩ := h
  rw [Res.pure_eq_ok, Except.ok.injEq] at h
  subst h
  obtain ⟨rfl, hf0b⟩ := getAmountFixedDelta_eq_ok hcur htarget hl hf0
  have hac' : ac = amountCalc input remaining feeRate := by
    unfold amountCalc
    cases input with
    | true =>
      simp only [if_true, Res.bind_eq_ok, tryIntoU64_eq_ok, checkedMulDiv,
        checkedMulDivRoundUpIf_eq_ok, roundDiv_false] at hac ⊢
      obtain ⟨n, ⟨-, -, rfl⟩, -, rfl⟩ := hac
      rfl
    | false =>
      simp only [Bool.false_eq_true, if_false, Except.ok.injEq] at hac ⊢
      exact hac.symm
  subst hac'
  have hacb : amountCalc input remaining feeRate < 2 ^ 64 := amountCalc_le.trans_lt hrem
  have hnextb : next < 2 ^ 128 := by
    split_ifs at hnext with hge
    · rw [Except.ok.injEq] at hnext
      exact hnext ▸ htarget
    · exact getNextSqrtPrice_lt hcur hl hacb hnext
  obtain ⟨rfl, hub⟩ := getAmountUnfixedDelta_eq_ok hcur hnextb hl hu
  have hf' : f = fixedDelta input aToB cur next l ∧ f < 2 ^ 64 := by
    split_ifs at hf with hmax
    · exact getAmountFixedDelta_eq_ok hcur hnextb hl hf
    · simp only [Bool.not_eq_true', decide_eq_false_iff_not, not_not] at hmax
      rw [Except.ok.injEq] at hf
      subst hf
      exact ⟨by rw [hmax], hf0b⟩
  obtain ⟨rfl, hfb⟩ := hf'
  have hin : (if input = true then fixedDelta input aToB cur next l
      else fixedDelta (!input) aToB cur next l) = inDelta aToB cur next l := by
    cases input <;> rfl
  have hout : (if input = true then fixedDelta (!input) aToB cur next l
      else fixedDelta input aToB cur next l) = outDelta aToB cur next l := by
    cases input <;> rfl
  have hinb : inDelta aToB cur next l < 2 ^ 64 := by
    rw [← hin]
    split_ifs
    · exact hfb
    · exact hub
  have houtb : outDelta aToB cur next l < 2 ^ 64 := by
    rw [← hout]
    split_ifs
    · exact hub
    · exact hfb
  rw [hin] at hfee
  simp only [hin, hout]
  have hcap : (if (!input && decide (outDelta aToB cur next l > remaining)) = true then remaining
      else outDelta aToB cur next l) = if input = true then outDelta aToB cur next l
        else min (outDelta aToB cur next l) remaining := by
    cases input with
    | true => simp
    | false =>
      simp only [Bool.not_false, Bool.true_and, decide_eq_true_eq, Bool.false_eq_true, if_false]
      split_ifs with hgt
      · rw [min_eq_right hgt.le]
      · rw [min_eq_left (not_lt.1 hgt)]
  refine ⟨?_, trivial, hcap, ?_, hnextb, hinb, ?_, ?_⟩
  · split_ifs at hnext with hge
    · rw [Except.ok.injEq] at hnext
      exact Or.inl ⟨hge, hnext.symm⟩
    · exact Or.inr ⟨not_le.1 hge, hnext⟩
  · simp only [Bool.and_eq_true, Bool.not_eq_true', decide_eq_false_iff_not] at hfee
    split_ifs at hfee ⊢ with hc
    · rw [Except.ok.injEq] at hfee
      exact hfee.symm
    · simp only [Res.bind_eq_ok, tryIntoU64_eq_ok, checkedMulDivRoundUp,
        checkedMulDivRoundUpIf_eq_ok] at hfee
      obtain ⟨n, ⟨-, -, rfl⟩, -, rfl⟩ := hfee
      rfl
  · rw [hcap]
    split_ifs
    · exact houtb
    · exact lt_of_le_of_lt (min_le_left _ _) houtb
  · split_ifs at hfee with hc
    · rw [Except.ok.injEq] at hfee
      exact hfee ▸ wrappingSub_lt _ _ _
    · simp only [Res.bind_eq_ok, tryIntoU64_eq_ok] at hfee
      obtain ⟨n, -, hn, rfl⟩ := hfee
      exact hn

/-! ## What a step guarantees -/

/-- A trade in the given direction can move the price from `p` to `q`. -/
def Toward (aToB : Bool) (p q : ℕ) : Prop := if aToB then q ≤ p else p ≤ q

/-- From A to B prices fall. -/
lemma toward_true {p q : ℕ} : Toward true p q ↔ q ≤ p := Iff.rfl

/-- From B to A prices rise. -/
lemma toward_false {p q : ℕ} : Toward false p q ↔ p ≤ q := Iff.rfl

/-- A price is toward itself. -/
@[simp] lemma toward_refl (aToB : Bool) (p : ℕ) : Toward aToB p p := by
  cases aToB <;> exact le_rfl

/-- Going toward a price is transitive. -/
lemma Toward.trans {aToB : Bool} {p q r : ℕ} (h : Toward aToB p q) (h' : Toward aToB q r) :
    Toward aToB p r := by
  cases aToB
  · exact le_trans (toward_false.1 h) (toward_false.1 h')
  · exact le_trans (toward_true.1 h') (toward_true.1 h)

/-- Prices that are toward each other are equal. -/
lemma Toward.antisymm {aToB : Bool} {p q : ℕ} (h : Toward aToB p q) (h' : Toward aToB q p) :
    p = q := by
  cases aToB
  · exact le_antisymm (toward_false.1 h) (toward_false.1 h')
  · exact le_antisymm (toward_true.1 h') (toward_true.1 h)

/-- The guarantees of a step from price `cur` towards `target` with liquidity `l`. -/
structure StepContract (remaining l cur target : ℕ) (input aToB : Bool)
    (s : SwapStepComputation) : Prop where
  /-- The price moves in the direction of the trade. -/
  toward : Toward aToB cur s.nextPrice
  /-- The price does not pass the target. -/
  within : Toward aToB s.nextPrice target
  /-- The input is the rounded-up amount of the price move. -/
  in_eq : s.amountIn = inDelta aToB cur s.nextPrice l
  /-- The output is at most the rounded-down amount of the price move. -/
  out_le : s.amountOut ≤ outDelta aToB cur s.nextPrice l
  /-- A specified input pays for the input and the fee. -/
  spent : input = true → s.amountIn + s.feeAmount ≤ remaining
  /-- A specified output is not exceeded. -/
  received : input = false → s.amountOut ≤ remaining
  /-- Short of the target the specified input is used up. -/
  spent_all : input = true → s.nextPrice ≠ target → s.amountIn + s.feeAmount = remaining
  /-- Short of the target the specified output is delivered. -/
  received_all : input = false → s.nextPrice ≠ target → s.amountOut = remaining
  /-- The amounts fit their types. -/
  in_lt : s.amountIn < 2 ^ 64
  out_lt : s.amountOut < 2 ^ 64
  fee_lt : s.feeAmount < 2 ^ 64

section NextPrice

variable {p t l a m : ℕ}

/-- Adding `a` of token A moves the price down to at most the target.

**Proof sketch.** The rounded price times the divisor is at least the numerator, and the price
before it is not. With the bound on the amount, multiplied out, this places the price strictly
between the target and the start; the amount of the move then follows from the same inequality. -/
lemma nextPrice_in_A (hl : l ≠ 0) (hp : 0 < p) (ht : 0 < t) (htp : t ≤ p)
    (ha : a < deltaA t p l true)
    (hm : m = roundDiv (l * p * 2 ^ 64) (l * 2 ^ 64 + p * a) true) :
    m ≤ p ∧ t < m ∧ deltaA m p l true ≤ a := by
  have hD : 0 < l * 2 ^ 64 + p * a := Nat.add_pos_left (by positivity) _
  have hmul : l * p * 2 ^ 64 ≤ m * (l * 2 ^ 64 + p * a) := by
    rw [hm]
    exact le_roundDiv_true_mul hD
  have ha' : a * (p * t) < l * (p - t) * 2 ^ 64 := by
    by_contra hcon
    exact absurd ((roundDiv_true_le_iff (by positivity) a).2 (not_lt.1 hcon)) (not_le.2 ha)
  obtain ⟨d, rfl⟩ := Nat.exists_eq_add_of_le htp
  rw [Nat.add_sub_cancel_left] at ha'
  have hmp : m ≤ t + d := by
    rw [hm, roundDiv_true_le_iff hD]
    nlinarith only [Nat.zero_le ((t + d) * (t + d) * a)]
  have htm : t < m := by
    have h1 : t * (l * 2 ^ 64 + (t + d) * a) < m * (l * 2 ^ 64 + (t + d) * a) := by
      refine lt_of_lt_of_le ?_ hmul
      nlinarith only [ha']
    exact lt_of_mul_lt_mul_right h1 (Nat.zero_le _)
  refine ⟨hmp, htm, ?_⟩
  have hmpos : 0 < m := by omega
  rw [deltaA, roundDiv_true_le_iff (by positivity)]
  obtain ⟨e, he⟩ := Nat.exists_eq_add_of_le hmp
  rw [he] at hmul ⊢
  rw [Nat.add_sub_cancel_left]
  nlinarith only [hmul]

/-- Removing `a` of token A moves the price up to at most the target.

**Proof sketch.** As for an input, with the amount subtracted from the divisor. The bound on the
amount keeps the divisor positive and the price at most at the target. -/
lemma nextPrice_out_A (hl : l ≠ 0) (hp : 0 < p) (hpt : p ≤ t) (ha : a < deltaA p t l false)
    (hpa : p * a < l * 2 ^ 64)
    (hm : m = roundDiv (l * p * 2 ^ 64) (l * 2 ^ 64 - p * a) true) :
    p ≤ m ∧ m ≤ t ∧ a ≤ deltaA p m l false := by
  have hD : 0 < l * 2 ^ 64 - p * a := by omega
  have hmul : l * p * 2 ^ 64 ≤ m * (l * 2 ^ 64 - p * a) := by
    rw [hm]
    exact le_roundDiv_true_mul hD
  have ha' : a * (t * p) ≤ l * (t - p) * 2 ^ 64 := by
    have h1 := roundDiv_false_mul_le (l * (t - p) * 2 ^ 64) (t * p)
    exact le_trans (Nat.mul_le_mul_right _ ha.le) h1
  have hle := hm ▸ (roundDiv_true_le_iff hD t (n := l * p * 2 ^ 64))
  obtain ⟨k, hk⟩ := Nat.exists_eq_add_of_le hpa.le
  rw [hk, Nat.add_sub_cancel_left] at hmul hle hD
  have hpm : p ≤ m := by
    have h1 : p * (l * 2 ^ 64) ≤ m * (l * 2 ^ 64) := by
      rw [hk]
      nlinarith only [hmul, Nat.zero_le (m * (p * a)), hk]
    exact le_of_mul_le_mul_right h1 (by positivity)
  have hmt : m ≤ t := by
    rw [hle]
    obtain ⟨d, rfl⟩ := Nat.exists_eq_add_of_le hpt
    rw [Nat.add_sub_cancel_left] at ha'
    nlinarith only [ha', hk]
  refine ⟨hpm, hmt, ?_⟩
  have hm0 : 0 < m := lt_of_lt_of_le hp hpm
  rw [deltaA, roundDiv_false, Nat.le_div_iff_mul_le (by positivity)]
  obtain ⟨d, rfl⟩ := Nat.exists_eq_add_of_le hpm
  rw [Nat.add_sub_cancel_left]
  nlinarith only [hmul, hk]

/-- Adding `a` of token B moves the price up to at most the target. -/
lemma nextPrice_in_B (hl : l ≠ 0) (hpt : p ≤ t) (ha : a < deltaB p t l true)
    (hm : m = p + a * 2 ^ 64 / l) : p ≤ m ∧ m < t ∧ deltaB p m l true ≤ a := by
  have hl' : 0 < l := Nat.pos_of_ne_zero hl
  have ha' : a * 2 ^ 64 < l * (t - p) := by
    by_contra hcon
    exact absurd ((roundDiv_true_le_iff (by positivity) a).2 (not_lt.1 hcon)) (not_le.2 ha)
  have hlt : a * 2 ^ 64 / l < t - p := by
    rw [Nat.div_lt_iff_lt_mul hl', mul_comm (t - p)]
    exact ha'
  have hmul : l * (a * 2 ^ 64 / l) ≤ a * 2 ^ 64 := Nat.mul_div_le _ _
  generalize a * 2 ^ 64 / l = x at *
  refine ⟨by omega, by omega, ?_⟩
  rw [deltaB, roundDiv_true_le_iff (by positivity), hm, Nat.add_sub_cancel_left]
  exact hmul

/-- Removing `a` of token B moves the price down to at most the target. -/
lemma nextPrice_out_B (hl : l ≠ 0) (htp : t ≤ p) (ha : a < deltaB t p l false)
    (hle : roundDiv (a * 2 ^ 64) l true ≤ p) (hm : m = p - roundDiv (a * 2 ^ 64) l true) :
    m ≤ p ∧ t ≤ m ∧ a ≤ deltaB m p l false := by
  have hl' : 0 < l := Nat.pos_of_ne_zero hl
  have hmul := le_roundDiv_true_mul hl' (n := a * 2 ^ 64)
  have ha' : a * 2 ^ 64 ≤ (p - t) * l := by
    have h1 := roundDiv_false_mul_le (l * (p - t)) (2 ^ 64)
    rw [mul_comm (p - t)]
    exact le_trans (Nat.mul_le_mul_right _ ha.le) h1
  have hd : roundDiv (a * 2 ^ 64) l true ≤ p - t := (roundDiv_true_le_iff hl' _).2 ha'
  refine ⟨by omega, by omega, ?_⟩
  rw [deltaB, roundDiv_false, Nat.le_div_iff_mul_le (by positivity), hm, Nat.sub_sub_self hle,
    mul_comm l]
  exact hmul

end NextPrice

/-- Without liquidity there is no amount of token A. -/
@[simp] lemma deltaA_zero (p q : ℕ) (r : Bool) : deltaA p q 0 r = 0 := by simp [deltaA]

/-- Without liquidity there is no amount of token B. -/
@[simp] lemma deltaB_zero (p q : ℕ) (r : Bool) : deltaB p q 0 r = 0 := by simp [deltaB]

/-- A price that does not move takes no amount of token A. -/
@[simp] lemma deltaA_self (p l : ℕ) (r : Bool) : deltaA p p l r = 0 := by simp [deltaA]

/-- A price that does not move takes no amount of token B. -/
@[simp] lemma deltaB_self (p l : ℕ) (r : Bool) : deltaB p p l r = 0 := by simp [deltaB]

/-- Without liquidity there is no amount on either side. -/
@[simp] lemma fixedDelta_zero (input aToB : Bool) (p q : ℕ) :
    fixedDelta input aToB p q 0 = 0 := by
  cases input <;> cases aToB <;> simp [fixedDelta, inDelta, outDelta]

/-- The price reached by an amount below the specified amount of the whole move.

**Proof sketch.** By the token in which the amount is given: for token A the two lemmas above, for
token B the price moves by a quotient, rounded toward the start. -/
theorem getNextSqrtPrice_contract {cur target l a m : ℕ} {input aToB : Bool} (hl : l < 2 ^ 128)
    (hcur : cur < 2 ^ 128) (ha : a < 2 ^ 64) (hc : 0 < cur) (ht : 0 < target)
    (htow : Toward aToB cur target) (hlt : a < fixedDelta input aToB cur target l)
    (h : getNextSqrtPrice cur l a input aToB = .ok m) :
    Toward aToB cur m ∧ Toward aToB m target ∧
      (input = true → m ≠ target ∧ inDelta aToB cur m l ≤ a) ∧
      (input = false → a ≤ outDelta aToB cur m l) := by
  have hl0 : l ≠ 0 := by
    rintro rfl
    simp at hlt
  unfold getNextSqrtPrice at h
  cases aToB with
  | true =>
    rw [toward_true] at htow
    cases input with
    | true =>
      rw [if_pos rfl] at h
      have hlt' : a < deltaA target cur l true := by
        simpa [fixedDelta, inDelta, min_eq_right htow, max_eq_left htow] using hlt
      rcases getNextSqrtPriceFromA_eq_ok hcur hl ha h with ⟨rfl, rfl⟩ | ⟨-, -, -, hm, -⟩
      · refine ⟨toward_refl _ _, htow, fun _ => ⟨?_, by simp [inDelta]⟩, by simp⟩
        rintro rfl
        simp at hlt'
      · obtain ⟨h1, h2, h3⟩ := nextPrice_in_A hl0 hc ht htow hlt' (hm rfl).2
        refine ⟨h1, h2.le, fun _ => ⟨h2.ne', ?_⟩, by simp⟩
        simpa [inDelta, min_eq_right h1, max_eq_left h1] using h3
    | false =>
      rw [if_neg (by simp)] at h
      have hlt' : a < deltaB target cur l false := by
        simpa [fixedDelta, outDelta, min_eq_right htow, max_eq_left htow] using hlt
      obtain ⟨-, -, hm⟩ := getNextSqrtPriceFromB_eq_ok.1 h
      obtain ⟨h1, h2, h3⟩ := nextPrice_out_B hl0 htow hlt' (hm rfl).1 (hm rfl).2
      refine ⟨h1, h2, by simp, fun _ => ?_⟩
      simpa [outDelta, min_eq_right h1, max_eq_left h1] using h3
  | false =>
    rw [toward_false] at htow
    cases input with
    | true =>
      rw [if_neg (by simp)] at h
      have hlt' : a < deltaB cur target l true := by
        simpa [fixedDelta, inDelta, min_eq_left htow, max_eq_right htow] using hlt
      obtain ⟨-, hm, -⟩ := getNextSqrtPriceFromB_eq_ok.1 h
      obtain ⟨h1, h2, h3⟩ := nextPrice_in_B hl0 htow hlt' (hm rfl).2
      refine ⟨h1, h2.le, fun _ => ⟨h2.ne, ?_⟩, by simp⟩
      simpa [inDelta, min_eq_left h1, max_eq_right h1] using h3
    | false =>
      rw [if_pos rfl] at h
      have hlt' : a < deltaA cur target l false := by
        simpa [fixedDelta, outDelta, min_eq_left htow, max_eq_right htow] using hlt
      rcases getNextSqrtPriceFromA_eq_ok hcur hl ha h with ⟨rfl, rfl⟩ | ⟨-, -, -, -, hm⟩
      · exact ⟨toward_refl _ _, htow, by simp, by simp⟩
      · obtain ⟨h1, h2, h3⟩ := nextPrice_out_A hl0 hc htow hlt' (hm rfl).1 (hm rfl).2
        refine ⟨h1, h2, by simp, fun _ => ?_⟩
        simpa [outDelta, min_eq_left h1, max_eq_right h1] using h3

/-- The fee on an input that the amount after fees covers is covered by the rest.

**Proof sketch.** Multiplied out, the input covers its own share of what is offered, so what is left
of the offer is at least the share of the fee, and a natural number, so also at least this share
rounded up. -/
theorem feeOn_le {amountIn remaining feeRate : ℕ} (hfee : feeRate < feeRateMulValue)
    (h : amountIn ≤ remaining * (feeRateMulValue - feeRate) / feeRateMulValue) :
    amountIn + feeOn amountIn feeRate ≤ remaining := by
  rw [Nat.le_div_iff_mul_le (by norm_num [feeRateMulValue])] at h
  obtain ⟨k, hk⟩ := Nat.exists_eq_add_of_lt hfee
  rw [hk] at h
  have hsub : feeRate + k + 1 - feeRate = k + 1 := by omega
  rw [hsub] at h
  have hle : amountIn ≤ remaining := by
    by_contra hcon
    have := Nat.mul_lt_mul_of_pos_right (not_le.1 hcon) (show 0 < k + 1 by omega)
    nlinarith only [this, h, Nat.zero_le (amountIn * feeRate)]
  have hfe : feeOn amountIn feeRate ≤ remaining - amountIn := by
    rw [feeOn, hk, hsub, roundDiv_true_le_iff (by omega)]
    obtain ⟨d, rfl⟩ := Nat.exists_eq_add_of_le hle
    rw [Nat.add_sub_cancel_left]
    nlinarith only [h]
  omega

/-- **Every successful step satisfies its contract.**

**Proof sketch.** By the inversion of the step. If the target is reached, the amounts are those of
the whole move; otherwise the price is the one of `getNextSqrtPrice_contract`, and the whole amount
is used up as input and fee. -/
theorem computeSwap_contract {remaining feeRate l cur target : ℕ} {input aToB : Bool}
    {s : SwapStepComputation} (hl : l < 2 ^ 128) (hcur : cur < 2 ^ 128)
    (htarget : target < 2 ^ 128) (hrem : remaining < 2 ^ 64) (hfee : feeRate < feeRateMulValue)
    (hc : 0 < cur) (ht : 0 < target) (htow : Toward aToB cur target)
    (h : computeSwap remaining feeRate l cur target input aToB = .ok s) :
    StepContract remaining l cur target input aToB s := by
  obtain ⟨hnext, hin, hout, hfe, hnb, b1, b2, b3⟩ := computeSwap_eq_ok hl hcur htarget hrem h
  have hac : amountCalc input remaining feeRate < 2 ^ 64 := amountCalc_le.trans_lt hrem
  have houtle : s.amountOut ≤ outDelta aToB cur s.nextPrice l := by
    rw [hout]
    split_ifs
    · exact le_rfl
    · exact min_le_left _ _
  have hrecv : input = false → s.amountOut ≤ remaining := fun hi => by
    rw [hout, hi]
    exact min_le_right _ _
  rcases hnext with ⟨hle, hn⟩ | ⟨hlt, hn⟩
  · -- the target is reached
    refine ⟨by rw [hn]; exact htow, by rw [hn]; exact toward_refl _ _, hin, houtle, fun hi => ?_,
      hrecv, fun _ hne => absurd hn hne, fun _ hne => absurd hn hne, b1, b2, b3⟩
    subst hi
    rw [hn, if_neg (by simp)] at hfe
    rw [hfe]
    refine feeOn_le hfee ?_
    rw [hin, hn]
    exact hle
  · -- the amount is used up
    obtain ⟨h1, h2, h3, h4⟩ := getNextSqrtPrice_contract hl hcur hac hc ht htow hlt hn
    have hall : input = true → s.amountIn + s.feeAmount = remaining := fun hi => by
      obtain ⟨hne, hle⟩ := h3 hi
      have hinle : s.amountIn ≤ remaining := by
        rw [hin]
        exact hle.trans amountCalc_le
      rw [hfe, if_pos ⟨hi, hne⟩, wrappingSub_of_le hrem hinle]
      omega
    refine ⟨h1, h2, hin, houtle, fun hi => (hall hi).le, hrecv, fun hi _ => hall hi,
      fun hi _ => ?_, b1, b2, b3⟩
    have hge := h4 hi
    subst hi
    rw [hout, if_neg (by simp)]
    exact min_eq_right hge

end NemoSwap
