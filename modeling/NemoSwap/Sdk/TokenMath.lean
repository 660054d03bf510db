import NemoSwap.Math.SwapLaws
import NemoSwap.Sdk.BitMath

set_option relaxedAutoImplicit false
set_option autoImplicit false

/-!
# `sdk/src/utils/math/token-math.ts`: token amounts and prices

The SDK's own copies of the functions of `token_math.rs`.

## Main definitions

* `NemoSwap.Sdk.getAmountDeltaA`, `NemoSwap.Sdk.getAmountDeltaB` — token amounts between two prices.
* `NemoSwap.Sdk.getNextSqrtPrice` — the price reached by a given amount.
* `NemoSwap.Sdk.RoundsApart` — the products that the SDK and the program round up differently.
* `NemoSwap.Sdk.MathUtil.Floors` — the library drops the fraction of a Q64.64 number.

## Main results

* `NemoSwap.Sdk.getAmountDeltaA_eq`, `NemoSwap.Sdk.getNextSqrtPrice_eq` — where the program
  succeeds, the SDK returns the same.
* `NemoSwap.Sdk.getAmountDeltaB_up_iff` — for a rounded up amount of token B it does so except on
  the products that are rounded apart.

## Implementation notes

The program rounds a shifted product up if the bits that were shifted out are not all zero. The
SDK looks at the low bits of the result instead: a fraction below one is rounded down to zero, and
a product without a fraction is rounded up.
-/

namespace NemoSwap

namespace Sdk

/-- `toIncreasingPriceOrder`. -/
def toIncreasingPriceOrder (sqrtPrice0 sqrtPrice1 : BN) : BN × BN :=
  if sqrtPrice0 > sqrtPrice1 then (sqrtPrice1, sqrtPrice0) else (sqrtPrice0, sqrtPrice1)

/-- `getAmountDeltaA`. -/
def getAmountDeltaA (currSqrtPrice targetSqrtPrice currLiquidity : BN) (roundUp : Bool) :
    Except SdkError BN := do
  let (sqrtPriceLower, sqrtPriceUpper) := toIncreasingPriceOrder currSqrtPrice targetSqrtPrice
  let sqrtPriceDiff := sqrtPriceUpper - sqrtPriceLower
  let numerator := BN.shln (currLiquidity * sqrtPriceDiff) 64
  let denominator := sqrtPriceLower * sqrtPriceUpper
  let quotient ← BN.div numerator denominator
  let remainder ← BN.mod numerator denominator
  let result := if roundUp && !decide (remainder = 0) then quotient + 1 else quotient
  if result > u64Max then BitMath.throwCode .TokenMaxExceeded else return result

/-- `getAmountDeltaB`. -/
def getAmountDeltaB (M : MathUtil) (currSqrtPrice targetSqrtPrice currLiquidity : BN)
    (roundUp : Bool) : Except SdkError BN :=
  let (sqrtPriceLower, sqrtPriceUpper) := toIncreasingPriceOrder currSqrtPrice targetSqrtPrice
  let sqrtPriceDiff := sqrtPriceUpper - sqrtPriceLower
  BitMath.checkedMulShiftRightRoundUpIf M currLiquidity sqrtPriceDiff roundUp 128

/-- `getNextSqrtPriceFromARoundUp`. -/
def getNextSqrtPriceFromARoundUp (sqrtPrice currLiquidity amount : BN)
    (amountSpecifiedIsInput : Bool) : Except SdkError BN :=
  if amount = 0 then return sqrtPrice
  else do
    let p ← BitMath.mul sqrtPrice amount 256
    let product ← BitMath.mul currLiquidity sqrtPrice 256
    let numerator := BN.shln product 64
    if BitMath.isOverLimit numerator 256 then BitMath.throwCode .MultiplicationOverflow
    else
      let currLiquidityShiftLeft := BN.shln currLiquidity 64
      if !amountSpecifiedIsInput && decide (currLiquidityShiftLeft ≤ p) then
        BitMath.throwCode .DivideByZero
      else
        let denominator :=
          if amountSpecifiedIsInput then currLiquidityShiftLeft + p else currLiquidityShiftLeft - p
        let price ← BitMath.divRoundUp numerator denominator
        if price < (minSqrtPriceX64 : ℤ) then BitMath.throwCode .TokenMinSubceeded
        else if price > (maxSqrtPriceX64 : ℤ) then BitMath.throwCode .TokenMaxExceeded
        else return price

/-- `getNextSqrtPriceFromBRoundDown`. -/
def getNextSqrtPriceFromBRoundDown (sqrtPrice currLiquidity amount : BN)
    (amountSpecifiedIsInput : Bool) : Except SdkError BN := do
  let amountX64 := BN.shln amount 64
  let delta ← BitMath.divRoundUpIf amountX64 currLiquidity (!amountSpecifiedIsInput)
  return if amountSpecifiedIsInput then sqrtPrice + delta else sqrtPrice - delta

/-- `getNextSqrtPrice`. -/
def getNextSqrtPrice (sqrtPrice currLiquidity amount : BN) (amountSpecifiedIsInput aToB : Bool) :
    Except SdkError BN :=
  if amountSpecifiedIsInput = aToB then
    getNextSqrtPriceFromARoundUp sqrtPrice currLiquidity amount amountSpecifiedIsInput
  else getNextSqrtPriceFromBRoundDown sqrtPrice currLiquidity amount amountSpecifiedIsInput

/-- `fromX64_BN` drops the fraction. -/
def MathUtil.Floors (M : MathUtil) : Prop := ∀ n : ℕ, M.fromX64_BN n = ((n / 2 ^ 64 : ℕ) : ℤ)

/-- The documented function does. -/
lemma documented_floors : MathUtil.documented.Floors := fun n => by
  simp [MathUtil.documented]

/-- The products that the SDK and the program round up differently: a product below one, and a
product without a fraction. -/
def RoundsApart (p : ℕ) : Prop := 0 < p ∧ (p < 2 ^ 64 ∨ 2 ^ 64 ∣ p)

instance (p : ℕ) : Decidable (RoundsApart p) := inferInstanceAs (Decidable (_ ∧ _))

section Amounts

variable {M : MathUtil} {p q l a m : ℕ} {r input aToB : Bool}

/-- Two prices in order are their minimum and their maximum. -/
lemma toIncreasingPriceOrder_natCast (p q : ℕ) :
    toIncreasingPriceOrder p q = (((min p q : ℕ) : ℤ), ((max p q : ℕ) : ℤ)) := by
  unfold toIncreasingPriceOrder
  split_ifs with h
  · have h' : q < p := by exact_mod_cast h
    rw [min_eq_right h'.le, max_eq_left h'.le]
  · have h' : p ≤ q := by
      have : ¬q < p := fun hlt => h (by exact_mod_cast hlt)
      omega
    rw [min_eq_left h', max_eq_right h']

/-- A quotient of naturals, rounded up if its remainder is not zero. -/
lemma roundDiv_intCast (n d : ℕ) (r : Bool) :
    (if (r && !decide (((n % d : ℕ) : ℤ) = 0)) = true then ((n / d : ℕ) : ℤ) + 1
      else ((n / d : ℕ) : ℤ)) = (roundDiv n d r : ℤ) := by
  unfold roundDiv
  cases r with
  | false => simp
  | true =>
    rcases Nat.eq_zero_or_pos (n % d) with h0 | h0
    · simp [h0]
    · rw [show decide (((n % d : ℕ) : ℤ) = 0) = false from
        decide_eq_false (by exact_mod_cast h0.ne')]
      simp [h0]

/-- **The SDK's amount of token A is the program's.**

**Proof sketch.** The numerator and the denominator are those of the program, as natural numbers.
The quotient is rounded up on the same remainder, and fits where the program returns it. -/
theorem getAmountDeltaA_eq (hp : p < 2 ^ 128) (hq : q < 2 ^ 128) (hl : l < 2 ^ 128)
    (h : NemoSwap.getAmountDeltaA p q l r = .ok m) : getAmountDeltaA p q l r = .ok (m : ℤ) := by
  obtain ⟨hne, rfl, hm⟩ := NemoSwap.getAmountDeltaA_eq_ok hp hq hl h
  have hd : max p q * min p q ≠ 0 := hne
  have hle : min p q ≤ max p q := min_le_max
  unfold getAmountDeltaA
  rw [toIncreasingPriceOrder_natCast]
  have hden : ((min p q : ℕ) : ℤ) * ((max p q : ℕ) : ℤ) = ((max p q * min p q : ℕ) : ℤ) := by
    rw [← Nat.cast_mul, mul_comm]
  have hnum : BN.shln ((l : ℤ) * (((max p q : ℕ) : ℤ) - ((min p q : ℕ) : ℤ))) 64 =
      ((l * (max p q - min p q) * 2 ^ 64 : ℕ) : ℤ) := by
    rw [← Nat.cast_sub hle, ← Nat.cast_mul, BN.shln_natCast]
  have hdiv : BN.div ((l * (max p q - min p q) * 2 ^ 64 : ℕ) : ℤ) ((max p q * min p q : ℕ) : ℤ) =
      .ok ((l * (max p q - min p q) * 2 ^ 64 / (max p q * min p q) : ℕ) : ℤ) := by
    unfold BN.div
    rw [if_neg (by exact_mod_cast hd)]
    rfl
  have hmod : BN.mod ((l * (max p q - min p q) * 2 ^ 64 : ℕ) : ℤ) ((max p q * min p q : ℕ) : ℤ) =
      .ok ((l * (max p q - min p q) * 2 ^ 64 % (max p q * min p q) : ℕ) : ℤ) := by
    unfold BN.mod
    rw [if_neg (by exact_mod_cast hd)]
    rfl
  simp only [hnum, hden, hdiv, hmod, ok_bind]
  rw [roundDiv_intCast, if_neg]
  · rfl
  · have : ((deltaA (min p q) (max p q) l r : ℕ) : ℤ) < 2 ^ 64 := by exact_mod_cast hm
    exact not_lt.2 (Int.le_sub_one_of_lt this)

/-- The shifted product of two numbers, where the program's fits a `u64`.

**Proof sketch.** If a factor is zero both results are. Otherwise the quotient fits, so neither
limit of the SDK is met, and it is rounded up under the condition of the program. -/
theorem checkedMulShiftRight_eq (hM : M.Floors) {n0 n1 : ℕ} (h : n0 * n1 < 2 ^ 128) :
    BitMath.checkedMulShiftRightRoundUpIf M n0 n1 r 128 =
      if r = true ∧ 2 ^ 64 ≤ n0 * n1 then
        if n0 * n1 / 2 ^ 64 = 2 ^ 64 - 1 then BitMath.throwCode .MultiplicationOverflow
        else .ok ((n0 * n1 / 2 ^ 64 + 1 : ℕ) : ℤ)
      else .ok ((n0 * n1 / 2 ^ 64 : ℕ) : ℤ) := by
  have hq : n0 * n1 / 2 ^ 64 < 2 ^ 64 := by omega
  unfold BitMath.checkedMulShiftRightRoundUpIf
  by_cases h0 : (n0 : ℤ) = 0 ∨ (n1 : ℤ) = 0
  · have hz : n0 * n1 = 0 := by
      rcases h0 with h0 | h0
      · rw [show n0 = 0 by exact_mod_cast h0, zero_mul]
      · rw [show n1 = 0 by exact_mod_cast h0, mul_zero]
    rw [if_pos h0, hz, if_neg (by omega)]
    rfl
  have hand : BN.and ((n0 * n1 / 2 ^ 64 : ℕ) : ℤ) u64Max = ((n0 * n1 / 2 ^ 64 : ℕ) : ℤ) := by
    unfold BN.and
    rw [show u64Max.toNat = q64Mask from rfl, Int.toNat_natCast, and_q64Mask, Nat.mod_eq_of_lt hq]
  have hlimit : BitMath.isOverLimit ((n0 * n1 : ℕ) : ℤ) 128 = false := by
    have : ((n0 * n1 : ℕ) : ℤ) < 2 ^ 128 := by exact_mod_cast h
    exact decide_eq_false (not_lt.2 (Int.le_sub_one_of_lt this))
  rw [if_neg h0, BitMath.mul_natCast h, ok_bind, hlimit, hM]
  simp only [hand, Bool.false_eq_true, if_false]
  have hpos : decide (((n0 * n1 / 2 ^ 64 : ℕ) : ℤ) > 0) = decide (2 ^ 64 ≤ n0 * n1) := by
    rw [decide_eq_decide, gt_iff_lt, Nat.cast_pos]
    omega
  have hmax : decide (((n0 * n1 / 2 ^ 64 : ℕ) : ℤ) = u64Max) =
      decide (n0 * n1 / 2 ^ 64 = 2 ^ 64 - 1) := by
    rw [decide_eq_decide, show u64Max = ((2 ^ 64 - 1 : ℕ) : ℤ) from rfl, Nat.cast_inj]
  rw [hpos, hmax]
  simp only [Bool.and_eq_true, decide_eq_true_eq]
  by_cases hround : r = true ∧ 2 ^ 64 ≤ n0 * n1
  · by_cases htop : n0 * n1 / 2 ^ 64 = 2 ^ 64 - 1
    · rw [if_pos ⟨hround, htop⟩, if_pos hround, if_pos htop]
    · rw [if_neg fun hc => htop hc.2, if_pos hround, if_pos hround, if_neg htop]
      rfl
  · rw [if_neg fun hc => hround hc.1, if_neg hround, if_neg hround]
    rfl

/-- The program's amount of token B bounds the product. -/
theorem product_lt (h : NemoSwap.getAmountDeltaB p q l r = .ok m) :
    l * (max p q - min p q) < 2 ^ 128 := by
  obtain ⟨rfl, hm⟩ := NemoSwap.getAmountDeltaB_eq_ok.1 h
  have := roundDiv_false_le (l * (max p q - min p q)) (2 ^ 64) r
  unfold deltaB at hm
  omega

/-- The SDK's amount of token B is the shifted product. -/
lemma getAmountDeltaB_eq_shift (M : MathUtil) (p q l : ℕ) (r : Bool) :
    getAmountDeltaB M p q l r =
      BitMath.checkedMulShiftRightRoundUpIf M l ((max p q - min p q : ℕ) : ℤ) r 128 := by
  unfold getAmountDeltaB
  rw [toIncreasingPriceOrder_natCast, Nat.cast_sub min_le_max]

/-- **The SDK's rounded down amount of token B is the program's.** -/
theorem getAmountDeltaB_down_eq (hM : M.Floors)
    (h : NemoSwap.getAmountDeltaB p q l false = .ok m) :
    getAmountDeltaB M p q l false = .ok (m : ℤ) := by
  obtain ⟨rfl, -⟩ := NemoSwap.getAmountDeltaB_eq_ok.1 h
  rw [getAmountDeltaB_eq_shift, checkedMulShiftRight_eq hM (product_lt h), if_neg (by simp)]
  rfl

/-- **The SDK's rounded up amount of token B is the program's, except for the products that are
rounded apart.** -/
theorem getAmountDeltaB_up_iff (hM : M.Floors) (h : NemoSwap.getAmountDeltaB p q l true = .ok m) :
    getAmountDeltaB M p q l true = .ok (m : ℤ) ↔ ¬RoundsApart (l * (max p q - min p q)) := by
  have hlt := product_lt h
  obtain ⟨rfl, hm⟩ := NemoSwap.getAmountDeltaB_eq_ok.1 h
  rw [getAmountDeltaB_eq_shift, checkedMulShiftRight_eq hM hlt]
  unfold RoundsApart deltaB roundDiv at *
  generalize l * (max p q - min p q) = n at *
  simp only [true_and, Bool.true_and, decide_eq_true_eq, Nat.dvd_iff_mod_eq_zero] at *
  split_ifs at * <;> simp only [BitMath.throwCode, Except.ok.injEq, reduceCtorEq, false_iff,
    true_iff, Nat.cast_inj] <;> omega

end Amounts

section Prices

variable {p l a m : ℕ} {input aToB : Bool}

/-- The numerator of a price that the program returns fits 256 bits. -/
lemma numerator_lt (hp : p < 2 ^ 128) (hl : l < 2 ^ 128) (ha : a ≠ 0)
    (h : NemoSwap.getNextSqrtPriceFromARoundUp p l a input = .ok m) : l * p * 2 ^ 64 < 2 ^ 256 := by
  unfold NemoSwap.getNextSqrtPriceFromARoundUp at h
  rw [if_neg ha] at h
  simp only [Res.bind_eq_ok, okOr_eq_ok, U256Muldiv.checkedShiftWordLeft_eq_some] at h
  obtain ⟨n, ⟨hn, -⟩, -⟩ := h
  rwa [U256Muldiv.toNat_mulU256 hl hp] at hn

/-- **The price that an amount of token A reaches is the program's.**

**Proof sketch.** The two products fit into 256 bits, because the price of the program exists. By
the direction the denominator is the sum or the difference, and the quotient is rounded up as in the
program; the bounds on the price are those of the program. -/
theorem getNextSqrtPriceFromA_eq (hp : p < 2 ^ 128) (hl : l < 2 ^ 128) (ha : a < 2 ^ 64)
    (h : NemoSwap.getNextSqrtPriceFromARoundUp p l a input = .ok m) :
    getNextSqrtPriceFromARoundUp p l a input = .ok (m : ℤ) := by
  unfold getNextSqrtPriceFromARoundUp
  rcases NemoSwap.getNextSqrtPriceFromA_eq_ok hp hl ha h with ⟨rfl, rfl⟩ |
    ⟨ha0, hmin, hmax, hin, hout⟩
  · rfl
  have hnum := numerator_lt hp hl ha0 h
  have hmul1 : p * a < 2 ^ 256 :=
    (Nat.mul_lt_mul'' hp ha).trans_le (by norm_num)
  have hmul2 : l * p < 2 ^ 256 := by
    calc l * p < 2 ^ 128 * 2 ^ 128 := Nat.mul_lt_mul'' hl hp
      _ = 2 ^ 256 := by norm_num
  have hlimit : BitMath.isOverLimit ((l * p * 2 ^ 64 : ℕ) : ℤ) 256 = false := by
    have : ((l * p * 2 ^ 64 : ℕ) : ℤ) < 2 ^ 256 := by exact_mod_cast hnum
    exact decide_eq_false (not_lt.2 (Int.le_sub_one_of_lt this))
  have hbounds : ∀ (e e' : Except SdkError BN), (if (m : ℤ) < (minSqrtPriceX64 : ℤ) then e
      else if (m : ℤ) > (maxSqrtPriceX64 : ℤ) then e' else .ok (m : ℤ)) = .ok (m : ℤ) :=
    fun e e' => by
      rw [if_neg (not_lt.2 (by exact_mod_cast hmin)), if_neg (not_lt.2 (by exact_mod_cast hmax))]
  rw [if_neg (by exact_mod_cast ha0), BitMath.mul_natCast hmul1, ok_bind,
    BitMath.mul_natCast hmul2, ok_bind]
  simp only [BN.shln_natCast, hlimit, Bool.false_eq_true, if_false]
  cases input with
  | true =>
    obtain ⟨hd, hm⟩ := hin rfl
    simp only [Bool.not_true, Bool.false_and, Bool.false_eq_true, if_false, if_true]
    rw [← Nat.cast_add, BitMath.divRoundUp_natCast hd, ← hm, ok_bind]
    exact hbounds _ _
  | false =>
    obtain ⟨hlt, hm⟩ := hout rfl
    have hle : ¬(((l * 2 ^ 64 : ℕ) : ℤ) ≤ ((p * a : ℕ) : ℤ)) := not_le.2 (by exact_mod_cast hlt)
    simp only [Bool.not_false, Bool.true_and, decide_eq_true_eq, if_neg hle, Bool.false_eq_true,
      if_false]
    rw [← Nat.cast_sub hlt.le, BitMath.divRoundUp_natCast (Nat.sub_pos_of_lt hlt).ne', ← hm,
      ok_bind]
    exact hbounds _ _

/-- **The price that an amount of token B reaches is the program's.**

**Proof sketch.** By the mode. The shifted amount is divided as in the program, rounded down and
added, or rounded up and subtracted. -/
theorem getNextSqrtPriceFromB_eq (h : NemoSwap.getNextSqrtPriceFromBRoundDown p l a input = .ok m) :
    getNextSqrtPriceFromBRoundDown p l a input = .ok (m : ℤ) := by
  obtain ⟨hl0, hin, hout⟩ := NemoSwap.getNextSqrtPriceFromB_eq_ok.1 h
  unfold getNextSqrtPriceFromBRoundDown
  simp only [BN.shln_natCast]
  cases input with
  | true =>
    obtain ⟨-, rfl⟩ := hin rfl
    have hdiv : BitMath.divRoundUpIf ((a * 2 ^ 64 : ℕ) : ℤ) l (!true) =
        .ok ((a * 2 ^ 64 / l : ℕ) : ℤ) := by
      unfold BitMath.divRoundUpIf
      rw [if_neg (by exact_mod_cast hl0)]
      rfl
    rw [hdiv, ok_bind, if_pos rfl, Nat.cast_add]
    rfl
  | false =>
    obtain ⟨hle, rfl⟩ := hout rfl
    have hdiv : BitMath.divRoundUpIf ((a * 2 ^ 64 : ℕ) : ℤ) l (!false) =
        .ok (roundDiv (a * 2 ^ 64) l true : ℤ) := BitMath.divRoundUp_natCast hl0
    rw [hdiv, ok_bind, if_neg Bool.false_ne_true, Nat.cast_sub hle]
    rfl

/-- **The price that an amount reaches is the program's.** -/
theorem getNextSqrtPrice_eq (hp : p < 2 ^ 128) (hl : l < 2 ^ 128) (ha : a < 2 ^ 64)
    (h : NemoSwap.getNextSqrtPrice p l a input aToB = .ok m) :
    getNextSqrtPrice p l a input aToB = .ok (m : ℤ) := by
  unfold NemoSwap.getNextSqrtPrice at h
  unfold getNextSqrtPrice
  split_ifs at h ⊢ with hdir
  · exact getNextSqrtPriceFromA_eq hp hl ha h
  · exact getNextSqrtPriceFromB_eq h

end Prices

end Sdk

end NemoSwap
