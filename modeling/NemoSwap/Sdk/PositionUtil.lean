import NemoSwap.Sdk.BitMath
import NemoSwap.Math.ExactAmounts

set_option relaxedAutoImplicit false
set_option autoImplicit false

/-!
# `sdk/src/utils/position-util.ts`: liquidity and token amounts

## Main definitions

* `NemoSwap.Sdk.getLiquidityFromTokenA`, `NemoSwap.Sdk.getLiquidityFromTokenB` — the liquidity
  that an amount buys.
* `NemoSwap.Sdk.getTokenAFromLiquidity`, `NemoSwap.Sdk.getTokenBFromLiquidity` — the amount that a
  liquidity is worth.
* `NemoSwap.Sdk.MathUtil.RoundsUp` — the library computes exact ceilings.

## Main results

* `NemoSwap.Sdk.getTokenAFromLiquidity_eq`, `NemoSwap.Sdk.getTokenBFromLiquidity_eq` — the amounts
  are those of the program.
* `NemoSwap.Sdk.deltaA_boughtWithA_le`, `NemoSwap.Sdk.deltaB_boughtWithB_le` — the liquidity that an
  amount buys is worth at most the amount.
-/

namespace NemoSwap

namespace Sdk

/-- `PositionStatus`. -/
inductive PositionStatus
  | BelowRange
  | InRange
  | AboveRange
  deriving DecidableEq, Repr

/-- `PositionUtil.getPositionStatus`. -/
def getPositionStatus (tickCurrentIndex tickLowerIndex tickUpperIndex : ℤ) : PositionStatus :=
  if tickCurrentIndex < tickLowerIndex then .BelowRange
  else if tickCurrentIndex < tickUpperIndex then .InRange
  else .AboveRange

/-- `Percentage`. -/
structure Percentage where
  numerator : BN
  denominator : BN

/-- `adjustForSlippage`. -/
def adjustForSlippage (n : BN) (slippage : Percentage) (adjustUp : Bool) : Except SdkError BN :=
  if adjustUp then BN.div (n * (slippage.denominator + slippage.numerator)) slippage.denominator
  else BN.div (n * slippage.denominator) (slippage.denominator + slippage.numerator)

/-- `orderSqrtPrice`. -/
def orderSqrtPrice (sqrtPrice0X64 sqrtPrice1X64 : BN) : BN × BN :=
  if sqrtPrice0X64 < sqrtPrice1X64 then (sqrtPrice0X64, sqrtPrice1X64)
  else (sqrtPrice1X64, sqrtPrice0X64)

section Functions

variable (M : MathUtil)

/-- `getLiquidityFromTokenA`. -/
def getLiquidityFromTokenA (amount sqrtPriceLowerX64 sqrtPriceUpperX64 : BN) (roundUp : Bool) :
    Except SdkError BN := do
  let result ← BN.div (amount * sqrtPriceLowerX64 * sqrtPriceUpperX64)
    (sqrtPriceUpperX64 - sqrtPriceLowerX64)
  return if roundUp then M.shiftRightRoundUp result else BN.shrn result 64

/-- `getLiquidityFromTokenB`. -/
def getLiquidityFromTokenB (amount sqrtPriceLowerX64 sqrtPriceUpperX64 : BN) (roundUp : Bool) :
    Except SdkError BN :=
  let numerator := BN.shln amount 64
  let denominator := sqrtPriceUpperX64 - sqrtPriceLowerX64
  if roundUp then M.divRoundUp numerator denominator else BN.div numerator denominator

/-- `getTokenAFromLiquidity`. -/
def getTokenAFromLiquidity (liquidity sqrtPrice0X64 sqrtPrice1X64 : BN) (roundUp : Bool) :
    Except SdkError BN :=
  let (sqrtPriceLowerX64, sqrtPriceUpperX64) := orderSqrtPrice sqrtPrice0X64 sqrtPrice1X64
  let numerator := BN.shln (liquidity * (sqrtPriceUpperX64 - sqrtPriceLowerX64)) 64
  let denominator := sqrtPriceUpperX64 * sqrtPriceLowerX64
  if roundUp then M.divRoundUp numerator denominator else BN.div numerator denominator

/-- `getTokenBFromLiquidity`. -/
def getTokenBFromLiquidity (liquidity sqrtPrice0X64 sqrtPrice1X64 : BN) (roundUp : Bool) : BN :=
  let (sqrtPriceLowerX64, sqrtPriceUpperX64) := orderSqrtPrice sqrtPrice0X64 sqrtPrice1X64
  let result := liquidity * (sqrtPriceUpperX64 - sqrtPriceLowerX64)
  if roundUp then M.shiftRightRoundUp result else BN.shrn result 64

end Functions

/-- `divRoundUp` and `shiftRightRoundUp` compute exact ceilings. -/
structure MathUtil.RoundsUp (M : MathUtil) : Prop where
  divRoundUp : ∀ n d : BN, 0 ≤ n → 0 < d → M.divRoundUp n d = .ok ⌈(n : ℚ) / d⌉
  shiftRightRoundUp : ∀ n : BN, 0 ≤ n → M.shiftRightRoundUp n = ⌈(n : ℚ) / 2 ^ 64⌉

/-- The documented functions do. -/
theorem documented_roundsUp : MathUtil.documented.RoundsUp := by
  have hceil : ∀ n d : ℤ, 0 < d → -(-n / d) = ⌈(n : ℚ) / d⌉ := fun n d hd => by
    have hfloor := Rat.floor_intCast_div_natCast (-n) d.toNat
    have hcast : ((d.toNat : ℕ) : ℚ) = d := by exact_mod_cast Int.toNat_of_nonneg hd.le
    rw [hcast, Int.toNat_of_nonneg hd.le, Int.cast_neg, neg_div, Int.floor_neg] at hfloor
    rw [← hfloor, neg_neg]
  refine ⟨fun n d _ hd => ?_, fun n _ => ?_⟩
  · unfold MathUtil.documented
    simp only [if_neg hd.ne', hceil n d hd]
  · unfold MathUtil.documented
    simp only []
    rw [hceil n (2 ^ 64) (by norm_num)]
    norm_num

/-- An amount adjusted down for slippage is not above it.

**Proof sketch.** The amount is multiplied by a denominator and divided by a larger one. -/
theorem adjustForSlippage_down {slippage : Percentage} (hnum : 0 ≤ slippage.numerator)
    (hden : 0 < slippage.denominator) (n : ℕ) :
    ∃ m : ℕ, adjustForSlippage (n : ℤ) slippage false = .ok (m : ℤ) ∧ m ≤ n := by
  obtain ⟨a, ha⟩ := Int.eq_ofNat_of_zero_le hnum
  obtain ⟨d, hd⟩ := Int.eq_ofNat_of_zero_le hden.le
  have hd0 : 0 < d := by
    rw [hd] at hden
    exact_mod_cast hden
  refine ⟨n * d / (d + a), ?_, ?_⟩
  · unfold adjustForSlippage BN.div
    rw [if_neg Bool.false_ne_true, ha, hd, if_neg]
    · exact congrArg Except.ok (by
        rw [Int.tdiv_eq_ediv_of_nonneg (by positivity)]
        push_cast
        rfl)
    · exact_mod_cast (by omega : d + a ≠ 0)
  · refine (Nat.div_le_div_left (Nat.le_add_right d a) hd0).trans ?_
    rw [Nat.mul_div_cancel n hd0]

/-- An amount adjusted up for slippage is not below it.

**Proof sketch.** The amount is multiplied by a numerator that is not less than what it is divided
by. -/
theorem adjustForSlippage_up {slippage : Percentage} (hnum : 0 ≤ slippage.numerator)
    (hden : 0 < slippage.denominator) (n : ℕ) :
    ∃ m : ℕ, adjustForSlippage (n : ℤ) slippage true = .ok (m : ℤ) ∧ n ≤ m := by
  obtain ⟨a, ha⟩ := Int.eq_ofNat_of_zero_le hnum
  obtain ⟨d, hd⟩ := Int.eq_ofNat_of_zero_le hden.le
  have hd0 : 0 < d := by
    rw [hd] at hden
    exact_mod_cast hden
  refine ⟨n * (d + a) / d, ?_, ?_⟩
  · unfold adjustForSlippage BN.div
    rw [if_pos rfl, ha, hd, if_neg]
    · exact congrArg Except.ok (by
        rw [Int.tdiv_eq_ediv_of_nonneg (by positivity)]
        push_cast
        rfl)
    · exact_mod_cast hd0.ne'
  · rw [Nat.le_div_iff_mul_le hd0]
    exact Nat.mul_le_mul_left n (Nat.le_add_right d a)

section Amounts

variable {M : MathUtil} {p q l a : ℕ}

/-- A ceiling of numbers that are not negative. -/
lemma ceil_natCast_div {n d : ℕ} (hd : 0 < d) :
    ⌈(((n : ℤ) : ℚ)) / (d : ℤ)⌉ = (roundDiv n d true : ℤ) := by
  rw [roundDiv_eq_ceil hd, Int.natCast_ceil_eq_ceil (by positivity), Int.cast_natCast,
    Int.cast_natCast]

/-- Prices that are in order stay as they are. -/
lemma orderSqrtPrice_of_le (h : p ≤ q) : orderSqrtPrice p q = ((p : ℤ), (q : ℤ)) := by
  unfold orderSqrtPrice
  split_ifs with hlt
  · rfl
  · have : p = q := le_antisymm h (not_lt.1 fun hcon => hlt (by exact_mod_cast hcon))
    rw [this]

/-- **The rounded up amount of token A is the program's.** -/
theorem getTokenAFromLiquidity_eq (hM : M.RoundsUp) (hp : 0 < p) (h : p ≤ q) :
    getTokenAFromLiquidity M l p q true = .ok (deltaA p q l true : ℤ) := by
  have hpos : 0 < q * p := Nat.mul_pos (hp.trans_le h) hp
  unfold getTokenAFromLiquidity
  rw [orderSqrtPrice_of_le h]
  simp only [if_true]
  have hnum : BN.shln ((l : ℤ) * ((q : ℤ) - p)) 64 = ((l * (q - p) * 2 ^ 64 : ℕ) : ℤ) := by
    unfold BN.shln
    push_cast [Nat.cast_sub h]
    rfl
  rw [hnum, ← Nat.cast_mul, hM.divRoundUp _ _ (Int.natCast_nonneg _) (by exact_mod_cast hpos),
    ceil_natCast_div hpos]
  rfl

/-- **The rounded up amount of token B is the program's.** -/
theorem getTokenBFromLiquidity_eq (hM : M.RoundsUp) (h : p ≤ q) :
    getTokenBFromLiquidity M l p q true = (deltaB p q l true : ℤ) := by
  unfold getTokenBFromLiquidity
  rw [orderSqrtPrice_of_le h]
  simp only [if_true]
  have hnum : (l : ℤ) * ((q : ℤ) - p) = ((l * (q - p) : ℕ) : ℤ) := by
    push_cast [Nat.cast_sub h]
    rfl
  rw [hnum, hM.shiftRightRoundUp _ (Int.natCast_nonneg _)]
  have hceil := @ceil_natCast_div (l * (q - p)) (2 ^ 64) (by norm_num)
  push_cast at hceil ⊢
  exact hceil

/-- Rounded down, the amount of token A is the program's. -/
theorem getTokenAFromLiquidity_down (hp : 0 < p) (h : p ≤ q) :
    getTokenAFromLiquidity M l p q false = .ok (deltaA p q l false : ℤ) := by
  have hpos : 0 < q * p := Nat.mul_pos (hp.trans_le h) hp
  have hne : ((q * p : ℕ) : ℤ) ≠ 0 := by exact_mod_cast hpos.ne'
  have hnum : BN.shln ((l : ℤ) * ((q : ℤ) - p)) 64 = ((l * (q - p) * 2 ^ 64 : ℕ) : ℤ) := by
    unfold BN.shln
    push_cast [Nat.cast_sub h]
    rfl
  unfold getTokenAFromLiquidity
  rw [orderSqrtPrice_of_le h]
  simp only [Bool.false_eq_true, if_false]
  unfold BN.div deltaA
  rw [hnum, ← Nat.cast_mul, if_neg hne, roundDiv_false]
  norm_cast

/-- Rounded down, the amount of token B is the program's. -/
theorem getTokenBFromLiquidity_down (h : p ≤ q) :
    getTokenBFromLiquidity M l p q false = (deltaB p q l false : ℤ) := by
  have hnum : (l : ℤ) * ((q : ℤ) - p) = ((l * (q - p) : ℕ) : ℤ) := by
    push_cast [Nat.cast_sub h]
    rfl
  unfold getTokenBFromLiquidity
  rw [orderSqrtPrice_of_le h]
  simp only [Bool.false_eq_true, if_false]
  unfold BN.shrn deltaB
  rw [hnum, roundDiv_false]
  norm_cast

/-- The liquidity that an amount of token A buys between two prices. -/
def boughtWithA (amount lower upper : ℕ) : ℕ := amount * lower * upper / (upper - lower) / 2 ^ 64

/-- The liquidity that an amount of token B buys between two prices. -/
def boughtWithB (amount lower upper : ℕ) : ℕ := amount * 2 ^ 64 / (upper - lower)

/-- The liquidity that an amount of token A buys, rounded down. -/
theorem getLiquidityFromTokenA_eq (h : p < q) :
    getLiquidityFromTokenA M a p q false = .ok (boughtWithA a p q : ℤ) := by
  have hd : (q : ℤ) - p = ((q - p : ℕ) : ℤ) := (Nat.cast_sub h.le).symm
  have hne : ((q - p : ℕ) : ℤ) ≠ 0 := by exact_mod_cast (Nat.sub_pos_of_lt h).ne'
  unfold getLiquidityFromTokenA BN.div BN.shrn boughtWithA
  rw [hd, if_neg hne, ok_bind]
  norm_cast

/-- The liquidity that an amount of token B buys, rounded down. -/
theorem getLiquidityFromTokenB_eq (h : p < q) :
    getLiquidityFromTokenB M a p q false = .ok (boughtWithB a p q : ℤ) := by
  have hd : (q : ℤ) - p = ((q - p : ℕ) : ℤ) := (Nat.cast_sub h.le).symm
  have hne : ((q - p : ℕ) : ℤ) ≠ 0 := by exact_mod_cast (Nat.sub_pos_of_lt h).ne'
  unfold getLiquidityFromTokenB BN.div BN.shln boughtWithB
  simp only [Bool.false_eq_true, if_false]
  rw [hd, if_neg hne]
  norm_cast

/-- Between equal prices the divisor is zero, and the library throws. -/
lemma getLiquidityFromTokenA_self (a p : BN) :
    getLiquidityFromTokenA M a p p false = .error .other := by
  unfold getLiquidityFromTokenA BN.div
  rw [sub_self, if_pos rfl]
  rfl

/-- Between equal prices the SDK divides by zero. -/
lemma getLiquidityFromTokenB_self (a p : BN) :
    getLiquidityFromTokenB M a p p false = .error .other := by
  unfold getLiquidityFromTokenB BN.div
  simp only [sub_self, if_true, Bool.false_eq_true, if_false]

/-- **The liquidity that an amount of token A buys is worth at most the amount.** -/
theorem deltaA_boughtWithA_le (hp : 0 < p) (h : p < q) :
    deltaA p q (boughtWithA a p q) true ≤ a := by
  unfold deltaA boughtWithA
  rw [roundDiv_true_le_iff (Nat.mul_pos (hp.trans h) hp)]
  calc a * p * q / (q - p) / 2 ^ 64 * (q - p) * 2 ^ 64
      = a * p * q / (q - p) / 2 ^ 64 * 2 ^ 64 * (q - p) := by ring
    _ ≤ a * p * q / (q - p) * (q - p) := Nat.mul_le_mul_right _ (Nat.div_mul_le_self _ _)
    _ ≤ a * p * q := Nat.div_mul_le_self _ _
    _ = a * (q * p) := by ring

/-- **The liquidity that an amount of token B buys is worth at most the amount.** -/
theorem deltaB_boughtWithB_le : deltaB p q (boughtWithB a p q) true ≤ a := by
  unfold deltaB boughtWithB
  rw [roundDiv_true_le_iff (by norm_num)]
  exact Nat.div_mul_le_self _ _

end Amounts

end Sdk

end NemoSwap
