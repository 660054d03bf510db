import NemoSwap.Math.TickBounds
import NemoSwap.Sdk.BitMath

set_option relaxedAutoImplicit false
set_option autoImplicit false

/-!
# `sdk/src/utils/public/price-math.ts`: ticks and prices

The SDK computes the price of a tick by the same tables as the program and the tick of a price by
the same logarithm, but shifts signed numbers of a given width.

## Main definitions

* `NemoSwap.Sdk.signedShiftRight`, `NemoSwap.Sdk.signedShiftLeft` — the shifts.
* `NemoSwap.Sdk.PriceMath.tickIndexToSqrtPriceX64` — the price of a tick.
* `NemoSwap.Sdk.PriceMath.sqrtPriceX64ToTickIndex` — the tick of a price.

## Main results

* `NemoSwap.Sdk.PriceMath.tickIndexToSqrtPriceX64_eq` — within the bounds the price of a tick is the
  program's.
* `NemoSwap.Sdk.PriceMath.sqrtPriceX64ToTickIndex_eq` — within the bounds the tick of a price is the
  program's.
-/

namespace NemoSwap

namespace Sdk

namespace BN

/-- `toTwos`. -/
def toTwos (n : BN) (width : ℕ) : BN := if n < 0 then n + 2 ^ width else n

/-- `fromTwos`, of a number of at most `width` bits: it is negative if its top bit is set. -/
def fromTwos (n : BN) (width : ℕ) : BN := if n / 2 ^ (width - 1) % 2 = 1 then n - 2 ^ width else n

/-- `imaskn`. -/
def imaskn (n : BN) (bits : ℕ) : BN := n % 2 ^ bits

end BN

/-- `signedShiftRight`. -/
def signedShiftRight (n0 : BN) (shiftBy bitWidth : ℕ) : BN :=
  let twoN0 := BN.shrn (BN.toTwos n0 bitWidth) shiftBy
  BN.fromTwos (BN.imaskn twoN0 (bitWidth - shiftBy + 1)) (bitWidth - shiftBy)

/-- A number below the sign bit is shifted.

**Proof sketch.** The number is its own two's complement, the mask does not cut anything off, and
the sign bit of the result is not set. -/
lemma signedShiftRight_natCast {n s w : ℕ} (hs : s < w) (h : n < 2 ^ (w - 1)) :
    signedShiftRight n s w = ((n / 2 ^ s : ℕ) : ℤ) := by
  have hq : n / 2 ^ s < 2 ^ (w - s - 1) := by
    rw [Nat.div_lt_iff_lt_mul (by positivity), ← pow_add]
    rwa [show w - s - 1 + s = w - 1 by omega]
  have hmask : n / 2 ^ s < 2 ^ (w - s + 1) :=
    hq.trans_le (Nat.pow_le_pow_right (by norm_num) (by omega))
  have hshift : BN.shrn (BN.toTwos n w) s = ((n / 2 ^ s : ℕ) : ℤ) := by
    unfold BN.shrn BN.toTwos
    rw [if_neg (not_lt.2 (Int.natCast_nonneg n))]
    norm_cast
  have hmasked : BN.imaskn ((n / 2 ^ s : ℕ) : ℤ) (w - s + 1) = ((n / 2 ^ s : ℕ) : ℤ) :=
    Int.emod_eq_of_lt (Int.natCast_nonneg _) (by exact_mod_cast hmask)
  have hsign : ((n / 2 ^ s : ℕ) : ℤ) / 2 ^ (w - s - 1) = 0 :=
    Int.ediv_eq_zero_of_lt (Int.natCast_nonneg _) (by exact_mod_cast hq)
  unfold signedShiftRight
  rw [hshift]
  simp only []
  rw [hmasked, BN.fromTwos, hsign]
  rfl

/-- The lines `if ((tick & bit) != 0) { ratio = … }` of both functions, for bit `i` upwards. -/
def multiplyFactors (shiftBy tick : ℕ) : ℕ → List ℕ → BN → BN
  | _, [], ratio => ratio
  | i, factor :: factors, ratio =>
    multiplyFactors shiftBy tick (i + 1) factors
      (if tick &&& 2 ^ i ≠ 0 then signedShiftRight (ratio * factor) shiftBy 256 else ratio)

/-- `tickIndexToSqrtPricePositive`, with the table of the program. -/
def tickIndexToSqrtPricePositive (tick : ℕ) : BN :=
  let ratio := if tick &&& 1 ≠ 0 then positiveFactor else 79228162514264337593543950336
  signedShiftRight (multiplyFactors 96 tick 1 positiveFactors ratio) 32 256

/-- `tickIndexToSqrtPriceNegative`, for the absolute value of the tick. -/
def tickIndexToSqrtPriceNegative (tick : ℕ) : BN :=
  let ratio := if tick &&& 1 ≠ 0 then negativeFactor else 18446744073709551616
  multiplyFactors 64 tick 1 negativeFactors ratio

namespace PriceMath

/-- `PriceMath.tickIndexToSqrtPriceX64`. -/
def tickIndexToSqrtPriceX64 (tickIndex : ℤ) : BN :=
  if tickIndex > 0 then tickIndexToSqrtPricePositive tickIndex.natAbs
  else tickIndexToSqrtPriceNegative tickIndex.natAbs

end PriceMath

/-- `fromTwos`, of a number that may have more than `width` bits: the complement keeps `width` of
them. -/
def BN.fromTwosMasked (n : BN) (width : ℕ) : BN :=
  if n / 2 ^ (width - 1) % 2 = 1 then n % 2 ^ width - 2 ^ width else n

/-- `signedShiftLeft`. The mask leaves one bit more than the width. -/
def signedShiftLeft (n0 : BN) (shiftBy bitWidth : ℕ) : BN :=
  let twosN0 := BN.shln (BN.toTwos n0 bitWidth) shiftBy
  BN.fromTwosMasked (BN.imaskn twosN0 (bitWidth + 1)) bitWidth

/-- The `while` loop of `sqrtPriceX64ToTickIndex`, with `count` more rounds of the precision. -/
def log2Loop : ℕ → BN → BN → BN → BN
  | 0, _, _, log2pFractionX64 => log2pFractionX64
  | count + 1, r, bit, log2pFractionX64 =>
    if bit > 0 then
      let r := r * r
      let rMoreThanTwo := BN.shrn r 127
      log2Loop count (BN.shrn r (63 + rMoreThanTwo.toNat)) (BN.shrn bit 1)
        (log2pFractionX64 + bit * rMoreThanTwo)
    else log2pFractionX64

/-- `log2pX32`, the binary logarithm of a price. -/
def log2pX32 (sqrtPriceX64 : BN) : BN :=
  let msb : ℤ := (Nat.size sqrtPriceX64.toNat : ℤ) - 1
  let adjustedMsb := msb - 64
  let log2pIntegerX32 := signedShiftLeft adjustedMsb 32 128
  let r := if msb ≥ 64 then BN.shrn sqrtPriceX64 (msb - 63).toNat
    else BN.shln sqrtPriceX64 (63 - msb).toNat
  let log2pFractionX64 := log2Loop bitPrecision r 0x8000_0000_0000_0000 0
  log2pIntegerX32 + BN.shrn log2pFractionX64 32

/-- `PriceMath.sqrtPriceX64ToTickIndex`. -/
def PriceMath.sqrtPriceX64ToTickIndex (sqrtPriceX64 : BN) : Except SdkError ℤ :=
  if sqrtPriceX64 > (maxSqrtPriceX64 : ℤ) ∨ sqrtPriceX64 < (minSqrtPriceX64 : ℤ) then
    .error .other
  else
    let logbpX64 := log2pX32 sqrtPriceX64 * logB2X32
    let tickLow := signedShiftRight (logbpX64 - logBPErrMarginLowerX64) 64 128
    let tickHigh := signedShiftRight (logbpX64 + logBPErrMarginUpperX64) 64 128
    if tickLow = tickHigh then return tickLow
    else if tickIndexToSqrtPriceX64 tickHigh ≤ sqrtPriceX64 then return tickHigh
    else return tickLow

/-- `TickUtil.checkTickInBounds`. -/
def checkTickInBounds (tick : ℤ) : Bool :=
  decide (tick ≤ maxTickIndex) && decide (tick ≥ minTickIndex)

/-! ## The price is the program's -/

section Factors

open LogApprox

/-- A factor of at most 116 bits keeps a ratio of 128 bits below the sign bit. -/
lemma signedShiftRight_mul {r c s : ℕ} (hs : s < 256) (hr : r < 2 ^ 128) (hc : c < 2 ^ 116) :
    signedShiftRight ((r : ℤ) * c) s 256 = ((r * c / 2 ^ s : ℕ) : ℤ) := by
  have hlt : r * c < 2 ^ (256 - 1) :=
    (Nat.mul_lt_mul'' hr hc).trans (by norm_num)
  rw [← Nat.cast_mul, signedShiftRight_natCast hs hlt]

/-- The SDK multiplies the positive factors as the program does: no product wraps, and all numbers are
natural. -/
lemma multiplyFactors_positive {tick : ℕ} : ∀ (cs : List ℕ) (i r : ℕ),
    (∀ c ∈ cs, 2 ^ 96 ≤ c ∧ c < 2 ^ 116) → bitProduct (2 ^ 96) tick i cs r < 2 ^ 128 →
      multiplyFactors 96 tick i cs r = (bitProduct (2 ^ 96) tick i cs r : ℤ)
  | [], _, _, _, _ => rfl
  | c :: cs, i, r, hc, hlt => by
    have hr := (le_bitProduct (D := 2 ^ 96) (t := tick) (by norm_num) (c :: cs) i r
      fun x hx => (hc x hx).1).trans_lt hlt
    have hcs : ∀ x ∈ cs, 2 ^ 96 ≤ x ∧ x < 2 ^ 116 := fun x hx => hc x (List.mem_cons_of_mem _ hx)
    unfold multiplyFactors
    rw [bitProduct] at hlt ⊢
    rw [← multiplyFactors_positive cs (i + 1) _ hcs hlt,
      signedShiftRight_mul (by norm_num) hr (hc c List.mem_cons_self).2]
    split_ifs <;> rfl

/-- The SDK multiplies the negative factors as the program does. -/
lemma multiplyFactors_negative {tick : ℕ} : ∀ (cs : List ℕ) (i r : ℕ),
    (∀ c ∈ cs, c < 2 ^ 64) → r ≤ 2 ^ 64 →
      multiplyFactors 64 tick i cs r = (bitProduct (2 ^ 64) tick i cs r : ℤ)
  | [], _, _, _, _ => rfl
  | c :: cs, i, r, hc, hr => by
    have hc0 := hc c List.mem_cons_self
    have hmul : r * c ≤ 2 ^ 64 * 2 ^ 64 := Nat.mul_le_mul hr hc0.le
    have hnext : (if tick &&& 2 ^ i ≠ 0 then r * c / 2 ^ 64 else r) ≤ 2 ^ 64 := by
      split_ifs
      · omega
      · exact hr
    unfold multiplyFactors
    rw [bitProduct,
      ← multiplyFactors_negative cs (i + 1) _ (fun x hx => hc x (List.mem_cons_of_mem _ hx)) hnext,
      signedShiftRight_mul (by norm_num) (hr.trans_lt (by norm_num)) (hc0.trans (by norm_num))]
    split_ifs <;> rfl

end Factors

/-- **Within the bounds, the SDK's price of a tick is the program's.**

**Proof sketch.** By the sign of the tick. Both sides multiply the same factors, one for each bit
that is set; the products of the SDK stay small enough that it shifts them as the program does. -/
theorem PriceMath.tickIndexToSqrtPriceX64_eq {t : ℤ} (h : t ≤ maxTickIndex) :
    tickIndexToSqrtPriceX64 t = (tickPrice t : ℤ) := by
  unfold maxTickIndex at h
  unfold tickIndexToSqrtPriceX64 tickPrice
  rcases lt_or_ge 0 t with ht | ht
  · have hlt := positive_lt (n := t.natAbs) (by omega)
    rw [if_pos ht, if_pos ht.le]
    rw [bitProduct_first (by norm_num)] at hlt ⊢
    unfold tickIndexToSqrtPricePositive
    simp only []
    rw [show (79228162514264337593543950336 : ℕ) = 2 ^ 96 by norm_num,
      multiplyFactors_positive _ _ _ (by decide +kernel) hlt,
      signedShiftRight_natCast (by norm_num) (hlt.trans (by norm_num))]
  rw [if_neg (not_lt.2 ht)]
  have hnegative : tickIndexToSqrtPriceNegative t.natAbs = (LogApprox.bitProduct (2 ^ 64) t.natAbs 0
      (negativeFactor :: negativeFactors) (2 ^ 64) : ℤ) := by
    unfold tickIndexToSqrtPriceNegative
    simp only []
    rw [bitProduct_first (by norm_num), show (18446744073709551616 : ℕ) = 2 ^ 64 by norm_num,
      multiplyFactors_negative _ _ _ (by decide +kernel)]
    split_ifs
    · norm_num [negativeFactor]
    · exact le_rfl
  rw [hnegative]
  rcases eq_or_lt_of_le ht with rfl | hneg
  · -- the program takes the other table for tick `0`
    decide +kernel
  · rw [if_neg (not_le.2 hneg)]

/-! ## The tick is the program's -/

/-- A signed number is shifted to the right by flooring.

**Proof sketch.** By the sign of the number. For a negative one the sign bit is set after the shift,
and what was added for the two's complement is taken off again. -/
lemma signedShiftRight_128 {n : ℤ} (hlo : -2 ^ 127 ≤ n) (hhi : n < 2 ^ 127) :
    signedShiftRight n 64 128 = n / 2 ^ 64 := by
  obtain ⟨q, hq⟩ : ∃ q : ℤ, q = n / 2 ^ 64 := ⟨_, rfl⟩
  have hvalue : ∀ x : ℤ, (if n < 0 then n + 2 ^ 128 else n) / 2 ^ 64 % 2 ^ 65 = x →
      signedShiftRight n 64 128 = if x / 2 ^ 63 % 2 = 1 then x - 2 ^ 64 else x := by
    rintro x rfl
    rfl
  rcases lt_or_ge n 0 with hn | hn
  · have hx : (n + 2 ^ 128) / 2 ^ 64 % 2 ^ 65 = q + 2 ^ 64 := by
      have h1 : (n + 2 ^ 128) / 2 ^ 64 = q + 2 ^ 64 := by omega
      rw [h1]
      exact Int.emod_eq_of_lt (by omega) (by omega)
    have hbit : (q + 2 ^ 64) / 2 ^ 63 % 2 = 1 := by
      have h1 : (q + 2 ^ 64) / 2 ^ 63 = 1 := by omega
      rw [h1]
      rfl
    rw [hvalue _ (by rw [if_pos hn, hx]), if_pos hbit, ← hq]
    ring
  · have hx : n / 2 ^ 64 % 2 ^ 65 = q := by
      rw [← hq]
      exact Int.emod_eq_of_lt (by omega) (by omega)
    have hbit : q / 2 ^ 63 = 0 := by omega
    rw [hvalue _ (by rw [if_neg (not_lt.2 hn), hx]), hbit, if_neg (by norm_num), hq]

/-- A small signed number is shifted to the left by multiplying.

**Proof sketch.** By the sign of the number. A negative one is shifted in two's complement, which is
undone because the product fits into 128 bits. -/
lemma signedShiftLeft_128 {n : ℤ} (hlo : -2 ^ 64 ≤ n) (hhi : n < 2 ^ 64) :
    signedShiftLeft n 32 128 = n * 2 ^ 32 := by
  have hvalue : ∀ x : ℤ, (if n < 0 then n + 2 ^ 128 else n) * 2 ^ 32 % 2 ^ 129 = x →
      signedShiftLeft n 32 128 =
        if x / 2 ^ 127 % 2 = 1 then x % 2 ^ 128 - 2 ^ 128 else x := by
    rintro x rfl
    rfl
  rcases lt_or_ge n 0 with hn | hn
  · -- the mask keeps one bit above the width, which the complement drops
    have hx : (n + 2 ^ 128) * 2 ^ 32 % 2 ^ 129 = n * 2 ^ 32 + 2 ^ 129 := by
      rw [show (n + 2 ^ 128) * 2 ^ 32 = n * 2 ^ 32 + 2 ^ 129 + 2 ^ 129 * (2 ^ 31 - 1) by ring,
        Int.add_mul_emod_self_left]
      exact Int.emod_eq_of_lt (by omega) (by omega)
    have hbit : (n * 2 ^ 32 + 2 ^ 129) / 2 ^ 127 % 2 = 1 := by
      have h1 : (n * 2 ^ 32 + 2 ^ 129) / 2 ^ 127 = 3 := by omega
      rw [h1]
      rfl
    have hmask : (n * 2 ^ 32 + 2 ^ 129) % 2 ^ 128 = n * 2 ^ 32 + 2 ^ 128 := by
      rw [show n * 2 ^ 32 + 2 ^ 129 = n * 2 ^ 32 + 2 ^ 128 + 2 ^ 128 * 1 by ring,
        Int.add_mul_emod_self_left]
      exact Int.emod_eq_of_lt (by omega) (by omega)
    rw [hvalue _ (by rw [if_pos hn, hx]), if_pos hbit, hmask]
    ring
  · have hx : n * 2 ^ 32 % 2 ^ 129 = n * 2 ^ 32 := Int.emod_eq_of_lt (by omega) (by omega)
    have hbit : n * 2 ^ 32 / 2 ^ 127 = 0 := by omega
    rw [hvalue _ (by rw [if_neg (not_lt.2 hn), hx]), hbit, if_neg (by norm_num)]

/-- The loop computes the digits of the program's.

**Proof sketch.** Induction on the number of digits; each iteration squares and normalizes as the
program does. -/
lemma log2Loop_natCast : ∀ (count r bit f : ℕ), 2 ^ 63 ≤ r → r < 2 ^ 64 → 2 ^ count ≤ bit →
    log2Loop count r bit f = (NemoSwap.log2Loop count r bit f : ℤ)
  | 0, _, _, _, _, _, _ => rfl
  | count + 1, r, bit, f, hlo, hhi, hbit => by
    obtain ⟨-, h1, h2⟩ := LogApprox.square_step (k := 63) hlo hhi
    have hsq : r * r < 2 ^ 128 := by
      calc r * r < 2 ^ 64 * 2 ^ 64 := Nat.mul_lt_mul'' hhi hhi
        _ = 2 ^ 128 := by norm_num
    have hpos : 0 < bit := lt_of_lt_of_le (by positivity) hbit
    have hnext : 2 ^ count ≤ bit / 2 := by
      rw [pow_succ] at hbit
      omega
    have ih := log2Loop_natCast count (r * r / 2 ^ (63 + r * r / 2 ^ 127)) (bit / 2)
      (f + bit * (r * r / 2 ^ 127)) h1 h2 hnext
    unfold log2Loop NemoSwap.log2Loop
    rw [if_pos (by exact_mod_cast hpos)]
    simp only [Nat.mod_eq_of_lt hsq, Nat.shiftRight_eq_div_pow, ← Nat.cast_mul, BN.shrn_natCast,
      Int.toNat_natCast, ← Nat.cast_add, pow_one]
    exact ih

/-- The first value of the loop has its top bit at position `63`. -/
lemma normalized_bounds {p k : ℕ} (hlo : 2 ^ k ≤ p) (hhi : p < 2 ^ (k + 1)) :
    (64 ≤ k → 2 ^ 63 ≤ p / 2 ^ (k - 63) ∧ p / 2 ^ (k - 63) < 2 ^ 64) ∧
      (k < 64 → 2 ^ 63 ≤ p * 2 ^ (63 - k) ∧ p * 2 ^ (63 - k) < 2 ^ 64) := by
  constructor
  · intro hk
    rw [Nat.le_div_iff_mul_le (by positivity), Nat.div_lt_iff_lt_mul (by positivity), ← pow_add,
      ← pow_add, show 63 + (k - 63) = k by omega, show 64 + (k - 63) = k + 1 by omega]
    exact ⟨hlo, hhi⟩
  · intro hk
    have h1 := Nat.mul_le_mul_right (2 ^ (63 - k)) hlo
    have h2 := Nat.mul_lt_mul_of_pos_right hhi (show 0 < 2 ^ (63 - k) by positivity)
    rw [← pow_add, show k + (63 - k) = 63 by omega] at h1
    rw [← pow_add, show k + 1 + (63 - k) = 64 by omega] at h2
    exact ⟨h1, h2⟩

/-- The binary logarithm of a price is the program's.

**Proof sketch.** The integer part is the number of the highest bit on both sides. The SDK
normalizes the price by a shift to the right or to the left, as the program does, and the loops that
find the fraction have the same steps. -/
lemma log2pX32_eq {p : ℕ} (hlo : 0 < p) (hhi : p < 2 ^ 128) :
    log2pX32 p = NemoSwap.log2pX32 p := by
  obtain ⟨k, hk⟩ : ∃ k, Nat.size p = k + 1 :=
    Nat.exists_eq_succ_of_ne_zero (Nat.size_pos.2 hlo).ne'
  obtain ⟨hlarge, hsmall⟩ := normalized_bounds (Nat.lt_size.1 (by omega)) (Nat.size_le.1 hk.le)
  have hk128 : k < 128 := by
    have := Nat.size_le.2 hhi
    omega
  have hmsb : wrappingSub 32 (k + 1) 1 = k := by
    unfold wrappingSub
    omega
  have hloop : ∀ r : ℕ, 2 ^ 63 ≤ r → r < 2 ^ 64 →
      BN.shrn (log2Loop bitPrecision r 0x8000_0000_0000_0000 0) 32 =
        ((NemoSwap.log2Loop bitPrecision r 0x8000_0000_0000_0000 0 >>> 32 : ℕ) : ℤ) :=
    fun r h1 h2 => by
      have h := log2Loop_natCast bitPrecision r 0x8000_0000_0000_0000 0 h1 h2 (by decide)
      rw [Nat.shiftRight_eq_div_pow, Int.natCast_ediv, ← h]
      rfl
  unfold log2pX32 NemoSwap.log2pX32
  simp only [Int.toNat_natCast, hk, hmsb, Nat.cast_add, Nat.cast_one, add_sub_cancel_right]
  rw [signedShiftLeft_128 (by omega) (by omega)]
  refine congrArg (fun fraction : ℤ => ((k : ℤ) - 64) * 2 ^ 32 + fraction) ?_
  rcases Nat.lt_or_ge k 64 with h64 | h64
  · rw [if_neg (by omega), if_neg (not_le.2 h64), show (63 - (k : ℤ)).toNat = 63 - k by omega,
      Nat.shiftLeft_eq, BN.shln_natCast]
    exact hloop _ (hsmall h64).1 (hsmall h64).2
  · rw [if_pos (by omega), if_pos h64, show ((k : ℤ) - 63).toNat = k - 63 by omega,
      Nat.shiftRight_eq_div_pow p, BN.shrn_natCast]
    exact hloop _ (hlarge h64).1 (hlarge h64).2

/-- **Within the bounds, the SDK's tick of a price is the program's.**

**Proof sketch.** The logarithms agree, so the two candidates do. Where they are equal both return
this tick, and otherwise both compare the price with that of the upper candidate. -/
theorem PriceMath.sqrtPriceX64ToTickIndex_eq {p : ℕ} {t : ℤ} (hlo : minSqrtPriceX64 ≤ p)
    (hhi : p ≤ maxSqrtPriceX64) :
    sqrtPriceX64ToTickIndex p = .ok t ↔ tickIndexFromSqrtPrice p = .ok t := by
  obtain ⟨hN1, hN2⟩ := log2pX32_range hlo hhi
  have hlog : log2pX32 p = NemoSwap.log2pX32 p :=
    log2pX32_eq (lt_of_lt_of_le (by decide) hlo) (hhi.trans_lt (by decide))
  have hbounds : ¬((p : ℤ) > (maxSqrtPriceX64 : ℤ) ∨ (p : ℤ) < (minSqrtPriceX64 : ℤ)) := by
    rw [not_or, not_lt, not_lt]
    exact ⟨by exact_mod_cast hhi, by exact_mod_cast hlo⟩
  unfold sqrtPriceX64ToTickIndex tickIndexFromSqrtPrice
  rw [if_neg hbounds, hlog]
  generalize NemoSwap.log2pX32 p = N at *
  unfold logB2X32 logBPErrMarginLowerX64 logBPErrMarginUpperX64
  simp only [signedShiftRight_128 (n := N * 59543866431248 - 184467440737095516) (by omega)
      (by omega),
    signedShiftRight_128 (n := N * 59543866431248 + 15793534762490258745) (by omega) (by omega)]
  obtain ⟨tl, htl⟩ : ∃ tl, tl = (N * 59543866431248 - 184467440737095516) / 2 ^ 64 := ⟨_, rfl⟩
  obtain ⟨th, hth⟩ : ∃ th, th = (N * 59543866431248 + 15793534762490258745) / 2 ^ 64 := ⟨_, rfl⟩
  rw [← htl, ← hth, show unwrapI32 tl = .ok tl from if_pos (by omega),
    show unwrapI32 th = .ok th from if_pos (by omega), Res.ok_bind, Res.ok_bind]
  have hpure : ∀ n : ℤ, (pure n : Except SdkError ℤ) = .ok t ↔ n = t := fun n =>
    ⟨fun h => Except.ok.inj h, fun h => by rw [h]; rfl⟩
  by_cases heq : tl = th
  · rw [if_pos heq, if_pos heq, Res.pure_eq_ok, Except.ok.injEq]
    exact hpure tl
  · have hmax : th ≤ 443636 := by omega
    rw [if_neg heq, if_neg heq, sqrtPriceFromTickIndex_eq hmax, Res.ok_bind,
      tickIndexToSqrtPriceX64_eq hmax, Res.pure_eq_ok, Except.ok.injEq]
    by_cases hle : tickPrice th ≤ p
    · rw [if_pos (by exact_mod_cast hle), if_pos hle]
      exact hpure th
    · rw [if_neg (by exact_mod_cast hle), if_neg hle]
      exact hpure tl

end Sdk

end NemoSwap
