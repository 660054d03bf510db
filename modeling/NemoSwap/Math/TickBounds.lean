import NemoSwap.Lib.LogApprox
import NemoSwap.Math.TickMath
import NemoSwap.State.Tick
import NemoSwap.Math.U256Arith

set_option relaxedAutoImplicit false
set_option autoImplicit false

/-!
# Prices and ticks are inverse to each other

The price of tick `t` is `1.0001 ^ (t / 2)` up to a relative error of `2 ^ -25`, so prices are
strictly increasing in the tick, and `tick_index_from_sqrt_price` is the floor inverse of
`sqrt_price_from_tick_index` on the whole price range.

## Main definitions

* `NemoSwap.tickPrice` — the price of a tick without the bound of a `u128`, for use in
  statements; `NemoSwap.sqrtPriceFromTickIndex_eq` identifies it with the source's function.
* `NemoSwap.logTick` — the logarithm of `√1.0001`.

## Main results

* `NemoSwap.tickPrice_lt` — prices are strictly increasing.
* `NemoSwap.tickIndexFromSqrtPrice_spec` — the tick of a price is the last tick whose price is
  at most that price.
* `NemoSwap.tickIndexFromSqrtPrice_floor` — the two conversions on the whole range.
-/

namespace NemoSwap

open Real LogApprox

/-- The logarithm of `√1.0001`, the ratio of the prices of neighbouring ticks. -/
noncomputable def logTick : ℝ := log (10001 / 10000) / 2

/-- The price of a tick, as an unbounded number. -/
def tickPrice (tick : ℤ) : ℕ :=
  if tick ≥ 0 then
    bitProduct (2 ^ 96) tick.natAbs 0 (positiveFactor :: positiveFactors) (2 ^ 96) / 2 ^ 32
  else bitProduct (2 ^ 64) tick.natAbs 0 (negativeFactor :: negativeFactors) (2 ^ 64)

/-- The price of the greatest tick is `MAX_SQRT_PRICE_X64`. -/
lemma tickPrice_max : tickPrice 443636 = maxSqrtPriceX64 := by decide +kernel

/-- The price of the least tick is `MIN_SQRT_PRICE_X64`. -/
lemma tickPrice_min : tickPrice (-443636) = minSqrtPriceX64 := by decide +kernel

/-! ## The tables -/

/-- The factors of the positive ticks are close to the powers of the tick base. -/
lemma positiveFactors_within :
    FactorsWithin 32 10001 10000 (2 ^ 96) 0 (positiveFactor :: positiveFactors) := by
  decide +kernel

/-- The factors of the negative ticks are close to the powers of its inverse. -/
lemma negativeFactors_within :
    FactorsWithin 32 10000 10001 (2 ^ 64) 0 (negativeFactor :: negativeFactors) := by
  decide +kernel

/-- The logarithm of the square root of the tick base, in decimals. -/
lemma logTick_bounds :
    (49997500166 / 10 ^ 15 : ℝ) < logTick ∧ logTick < 49997500167 / 10 ^ 15 := by
  have h := abs_log_sub_add_sum_range_le (x := (-1 / 10000 : ℝ)) (by norm_num [abs_lt]) 3
  have habs : |(-1 / 10000 : ℝ)| = 1 / 10000 := by norm_num [abs_of_neg]
  rw [habs, abs_le] at h
  norm_num [Finset.sum_range_succ] at h
  unfold logTick
  obtain ⟨h1, h2⟩ := h
  constructor <;> norm_num <;> linarith

/-- The logarithm of a tick is positive. -/
lemma logTick_pos : 0 < logTick := lt_trans (by norm_num) logTick_bounds.1

/-- `LOG_B_2_X32` is the logarithm of `2` to base `√1.0001`. -/
lemma logB2X32_bounds : |(logB2X32 : ℝ) * logTick - 2 ^ 32 * log 2| ≤ 8 := by
  obtain ⟨h1, h2⟩ := logTick_bounds
  have h3 := log_two_gt_d9
  have h4 := log_two_lt_d9
  have hc : (logB2X32 : ℝ) = 59543866431248 := by norm_num [logB2X32]
  rw [hc, abs_le]
  constructor <;> linarith

/-! ## The error of the price of a tick -/

/-- A negative tick has the opposite logarithm. -/
lemma log_inv_tick : log ((10000 : ℕ) / (10001 : ℕ) : ℝ) / 2 = -logTick := by
  unfold logTick
  rw [← neg_div, ← log_inv, inv_div]
  norm_num

/-- The logarithm of a positive tick. -/
lemma log_tick : log ((10001 : ℕ) / (10000 : ℕ) : ℝ) / 2 = logTick := by
  unfold logTick
  norm_num

/-- The product of `get_sqrt_price_positive_tick` before the final shift.

**Proof sketch.** The products never fall below one half of the unit, so by `log_bitProduct_unit`
each of the at most 19 factors adds one rounding error to the sum of the logarithms. -/
lemma log_positive {n : ℕ} (hn : n < 2 ^ 19) :
    0 < bitProduct (2 ^ 96) n 0 (positiveFactor :: positiveFactors) (2 ^ 96) ∧
      |log (bitProduct (2 ^ 96) n 0 (positiveFactor :: positiveFactors) (2 ^ 96) / 2 ^ 96 : ℝ) -
        n * logTick| ≤ 1 / 2 ^ 26 := by
  have h2 := log_two_gt_d9
  have hlen : ((positiveFactor :: positiveFactors).length : ℝ) = 19 := by
    norm_num [positiveFactors]
  have hlow : ∀ m ≤ n, log ((2 : ℝ) ^ 95 / (2 ^ 96 : ℕ)) +
      ((positiveFactor :: positiveFactors).length : ℝ) * (1 / 2 ^ 32 + 2 / 2 ^ 95) ≤
      m * (log ((10001 : ℕ) / (10000 : ℕ) : ℝ) / 2) := fun m _ => by
    have hm : (0 : ℝ) ≤ m * logTick := mul_nonneg (Nat.cast_nonneg m) logTick_pos.le
    have hl : log ((2 : ℝ) ^ 95 / (2 ^ 96 : ℕ)) = -log 2 := by
      rw [← log_inv]
      congr 1
      norm_num
    rw [hl, hlen, log_tick]
    linarith
  obtain ⟨hpos, herr⟩ := log_bitProduct_unit (t := n) (M := 2 ^ 95) (by norm_num) (by norm_num)
    (by norm_num) (by norm_num) (by norm_num) positiveFactors_within hn hlow
  rw [hlen, log_tick, show ((2 ^ 96 : ℕ) : ℝ) = 2 ^ 96 by norm_num] at herr
  refine ⟨hpos, herr.trans ?_⟩
  norm_num

/-- The product of `get_sqrt_price_negative_tick`.

**Proof sketch.** Every product of the loop stays above `2 ^ 31`, so each of its nineteen shifts
loses at most one part in `2 ^ 31`, and the factors are the powers of the tick base up to their own
rounding. -/
lemma log_negative {n : ℕ} (hn : n ≤ 443700) :
    0 < bitProduct (2 ^ 64) n 0 (negativeFactor :: negativeFactors) (2 ^ 64) ∧
      |log (bitProduct (2 ^ 64) n 0 (negativeFactor :: negativeFactors) (2 ^ 64) / 2 ^ 64 : ℝ) -
        n * -logTick| ≤ 1 / 2 ^ 25 := by
  have h2 := log_two_gt_d9
  obtain ⟨-, hσ⟩ := logTick_bounds
  have hlen : ((negativeFactor :: negativeFactors).length : ℝ) = 19 := by
    norm_num [negativeFactors]
  have hlow : ∀ m ≤ n, log ((2 : ℝ) ^ 31 / (2 ^ 64 : ℕ)) +
      ((negativeFactor :: negativeFactors).length : ℝ) * (1 / 2 ^ 32 + 2 / 2 ^ 31) ≤
      m * (log ((10000 : ℕ) / (10001 : ℕ) : ℝ) / 2) := fun m hm => by
    have hm' : (m : ℝ) ≤ 443700 := by exact_mod_cast hm.trans hn
    have hmσ : (m : ℝ) * logTick ≤ 443700 * (49997500167 / 10 ^ 15) :=
      mul_le_mul hm' hσ.le logTick_pos.le (by norm_num)
    have hl : log ((2 : ℝ) ^ 31 / (2 ^ 64 : ℕ)) = -(33 * log 2) := by
      rw [show (33 : ℝ) = (33 : ℕ) by norm_num, ← log_pow, ← log_inv]
      congr 1
      norm_num
    rw [hl, hlen, log_inv_tick]
    linarith
  obtain ⟨hpos, herr⟩ := log_bitProduct_unit (t := n) (M := 2 ^ 31) (by norm_num) (by norm_num)
    (by norm_num) (by norm_num) (by norm_num) negativeFactors_within
    (hn.trans_lt (by norm_num [negativeFactors])) hlow
  rw [hlen, log_inv_tick, show ((2 ^ 64 : ℕ) : ℝ) = 2 ^ 64 by norm_num] at herr
  refine ⟨hpos, herr.trans ?_⟩
  norm_num

/-- **The price of a tick is `1.0001 ^ (t / 2)` up to `2 ^ -25`**, on a logarithmic scale.

**Proof sketch.** By the sign of the tick. For a positive one the product is followed by a shift of
32 bits, which loses at most one part in `2 ^ 64`; for a negative one the product is the price. -/
theorem log_tickPrice {t : ℤ} (hlo : -443700 ≤ t) (hhi : t ≤ 443700) :
    0 < tickPrice t ∧ |log (tickPrice t / 2 ^ 64 : ℝ) - t * logTick| ≤ 1 / 2 ^ 25 := by
  unfold tickPrice
  split_ifs with ht
  · obtain ⟨n, rfl⟩ := Int.eq_ofNat_of_zero_le ht
    rw [Int.natAbs_natCast]
    obtain ⟨hpos, herr⟩ := log_positive (n := n) (by omega)
    have hge := le_bitProduct (D := 2 ^ 96) (t := n) (by norm_num)
      (positiveFactor :: positiveFactors) 0 (2 ^ 96) (by decide +kernel)
    generalize bitProduct (2 ^ 96) n 0 (positiveFactor :: positiveFactors) (2 ^ 96) = r at *
    -- the final shift by 32 bits
    have hgeR : (2 : ℝ) ^ 96 ≤ r := by exact_mod_cast hge
    obtain ⟨h1, h2, h3⟩ := log_natDiv (a := r) (d := 2 ^ 32) (M := 2 ^ 64) (by norm_num)
      (by norm_num) (by push_cast; linarith)
    refine ⟨h3, ?_⟩
    have hq : (0 : ℝ) < ((r / 2 ^ 32 : ℕ) : ℝ) := by exact_mod_cast h3
    have hr0 : (0 : ℝ) < r := by linarith
    have e1 : log (r / 2 ^ 96 : ℝ) = log (r / (2 ^ 32 : ℕ) : ℝ) - log (2 ^ 64) := by
      rw [← log_div (by positivity) (by positivity)]
      congr 1
      push_cast
      field_simp
      norm_num
    rw [log_div hq.ne' (by positivity)]
    rw [abs_le] at herr ⊢
    rw [e1] at herr
    rw [Int.cast_natCast]
    norm_num at h1 h2 herr ⊢
    constructor <;> linarith
  · obtain ⟨n, hn⟩ := Int.exists_eq_neg_ofNat (show t ≤ 0 by omega)
    subst hn
    rw [Int.natAbs_neg, Int.natAbs_natCast]
    obtain ⟨hpos, herr⟩ := log_negative (n := n) (by omega)
    refine ⟨hpos, ?_⟩
    rw [Int.cast_neg, Int.cast_natCast, neg_mul, ← mul_neg]
    exact herr

/-- **Prices are strictly increasing in the tick.**

**Proof sketch.** The logarithms of the two prices are a step of the logarithm of a tick apart, up
to errors that are smaller than half of a step. -/
theorem tickPrice_lt {a b : ℤ} (ha : -443700 ≤ a) (hab : a < b) (hb : b ≤ 443700) :
    tickPrice a < tickPrice b := by
  obtain ⟨ha0, haE⟩ := log_tickPrice ha (by omega)
  obtain ⟨hb0, hbE⟩ := log_tickPrice (by omega) hb
  obtain ⟨hσ, -⟩ := logTick_bounds
  have hstep : (a + 1 : ℝ) * logTick ≤ b * logTick := by
    have : (a + 1 : ℝ) ≤ b := by exact_mod_cast hab
    exact mul_le_mul_of_nonneg_right this logTick_pos.le
  rw [abs_le] at haE hbE
  have hlog : log (tickPrice a / 2 ^ 64 : ℝ) < log (tickPrice b / 2 ^ 64 : ℝ) := by
    linarith [haE.2, hbE.1]
  have haR : (0 : ℝ) < tickPrice a := by exact_mod_cast ha0
  have hbR : (0 : ℝ) < tickPrice b := by exact_mod_cast hb0
  have hlt := (log_lt_log_iff (by positivity) (by positivity)).1 hlog
  rw [div_lt_div_iff_of_pos_right (by positivity)] at hlt
  exact_mod_cast hlt

/-- Prices of ticks are positive. -/
lemma tickPrice_pos {t : ℤ} (hlo : -443700 ≤ t) (hhi : t ≤ 443700) : 0 < tickPrice t :=
  (log_tickPrice hlo hhi).1

/-- Prices of ticks are monotone. -/
lemma tickPrice_le {a b : ℤ} (ha : -443700 ≤ a) (hab : a ≤ b) (hb : b ≤ 443700) :
    tickPrice a ≤ tickPrice b := by
  rcases hab.eq_or_lt with rfl | hlt
  · exact le_rfl
  · exact (tickPrice_lt ha hlt hb).le

/-- The prices of ticks up to `MAX_TICK_INDEX` are at most the maximal price. -/
lemma tickPrice_le_max {t : ℤ} (hlo : -443700 ≤ t) (hhi : t ≤ 443636) :
    tickPrice t ≤ maxSqrtPriceX64 := by
  rw [← tickPrice_max]
  exact tickPrice_le hlo hhi (by norm_num)

/-- The prices of ticks from `MIN_TICK_INDEX` on are at least the minimal price. -/
lemma min_le_tickPrice {t : ℤ} (hlo : -443636 ≤ t) (hhi : t ≤ 443700) :
    minSqrtPriceX64 ≤ tickPrice t := by
  rw [← tickPrice_min]
  exact tickPrice_le (by norm_num) hlo hhi

/-- The maximal price is far below the bound of a `u128`. -/
lemma maxSqrtPriceX64_lt : maxSqrtPriceX64 < 2 ^ 97 := by norm_num [maxSqrtPriceX64]

/-- The tick of a price bounds the ticks whose prices are below it. -/
lemma le_of_tickPrice_lt {a b : ℤ} (ha : a ≤ 443700) (hb : -443700 ≤ b)
    (h : tickPrice a < tickPrice b) : a < b := by
  by_contra hcon
  exact absurd (tickPrice_le hb (not_lt.1 hcon) ha) (not_le.2 h)

/-- The prices of neighbouring ticks differ by more than one part in `2 ^ 16`.

**Proof sketch.** If the prices were closer, their logarithms would differ by less than one part in
`2 ^ 16`, but they differ by a step up to errors. -/
theorem tickPrice_ratio {t : ℤ} (hlo : -443700 ≤ t) (hhi : t < 443700) :
    tickPrice t * (2 ^ 16 + 1) ≤ tickPrice (t + 1) * 2 ^ 16 := by
  obtain ⟨ha0, haE⟩ := log_tickPrice (t := t) (by omega) (by omega)
  obtain ⟨hb0, hbE⟩ := log_tickPrice (t := t + 1) (by omega) (by omega)
  obtain ⟨hσ, -⟩ := logTick_bounds
  by_contra hcon
  have haR : (0 : ℝ) < tickPrice t := by exact_mod_cast ha0
  have hbR : (0 : ℝ) < tickPrice (t + 1) := by exact_mod_cast hb0
  have hlt : (tickPrice (t + 1) : ℝ) * 2 ^ 16 < tickPrice t * (2 ^ 16 + 1) := by
    exact_mod_cast not_le.1 hcon
  rw [log_div hbR.ne' (by positivity)] at hbE
  rw [log_div haR.ne' (by positivity)] at haE
  have hratio : log (tickPrice (t + 1)) - log (tickPrice t) ≤ 1 / 2 ^ 16 := by
    rw [← log_div hbR.ne' haR.ne']
    refine (log_le_sub_one_of_pos (by positivity)).trans ?_
    rw [div_sub_one haR.ne', div_le_div_iff₀ haR (by positivity)]
    linarith
  rw [abs_le] at haE hbE
  push_cast at hbE
  linarith [haE.2, hbE.1]

/-- Neighbouring ticks have prices at least two apart. -/
theorem tickPrice_gap {t : ℤ} (hlo : -443636 ≤ t) (hhi : t < 443700) :
    tickPrice t + 2 ≤ tickPrice (t + 1) := by
  have hratio := tickPrice_ratio (t := t) (by omega) hhi
  have hmin : 2 ^ 17 ≤ tickPrice t :=
    le_trans (by norm_num [minSqrtPriceX64]) (min_le_tickPrice hlo hhi.le)
  omega

/-! ## The source's function is `tickPrice` -/

/-- `mul_shift_96` is exact up to its rounding if the result fits in 128 bits. -/
lemma mulShift96_eq_ok {n0 n1 : ℕ} (h0 : n0 < 2 ^ 128) (h1 : n1 < 2 ^ 128)
    (h : n0 * n1 / 2 ^ 96 < 2 ^ 128) : mulShift96 n0 n1 = .ok (n0 * n1 / 2 ^ 96) := by
  have hv : ((U256Muldiv.mulU256 n0 n1).shiftRight 96).tryIntoU128 = .ok (n0 * n1 / 2 ^ 96) := by
    rw [U256Muldiv.tryIntoU128_eq_ok, U256Muldiv.toNat_shiftRight _ (by norm_num),
      U256Muldiv.toNat_mulU256 h0 h1]
    exact ⟨h, rfl⟩
  rw [mulShift96, hv]

/-- As long as the product fits a `u128`, the lines with `mul_shift_96` compute it. -/
lemma applyFactors_mulShift96 {tick : ℕ} : ∀ (cs : List ℕ) (i r : ℕ),
    (∀ c ∈ cs, 2 ^ 96 ≤ c ∧ c < 2 ^ 128) → bitProduct (2 ^ 96) tick i cs r < 2 ^ 128 →
      applyFactors mulShift96 tick i cs r = .ok (bitProduct (2 ^ 96) tick i cs r)
  | [], _, _, _, _ => rfl
  | c :: cs, i, r, hc, hlt => by
    obtain ⟨hc1, hc2⟩ := hc c List.mem_cons_self
    have hcs : ∀ x ∈ cs, 2 ^ 96 ≤ x ∧ x < 2 ^ 128 := fun x hx => hc x (List.mem_cons_of_mem _ hx)
    have hr := (le_bitProduct (D := 2 ^ 96) (t := tick) (by norm_num) (c :: cs) i r
      fun x hx => (hc x hx).1).trans_lt hlt
    have hnext := le_bitProduct (D := 2 ^ 96) (t := tick) (by norm_num) cs (i + 1)
      (if tick &&& 2 ^ i ≠ 0 then r * c / 2 ^ 96 else r) fun x hx => (hcs x hx).1
    unfold applyFactors
    rw [bitProduct] at hlt ⊢
    rw [← applyFactors_mulShift96 cs (i + 1) _ hcs hlt]
    split_ifs with hb
    · rw [if_pos hb] at hnext hlt
      rw [mulShift96_eq_ok hr hc2 (hnext.trans_lt hlt), Res.ok_bind]
    · rw [Res.ok_bind]

/-- The lines of `get_sqrt_price_negative_tick` never overflow. -/
lemma applyFactors_negative (tick : ℕ) : ∀ (cs : List ℕ) (i r : ℕ),
    (∀ c ∈ cs, c < 2 ^ 64) → r ≤ 2 ^ 64 →
      applyFactors (fun ratio factor => .ok ((ratio * factor % 2 ^ 128) >>> 64)) tick i cs r =
        .ok (bitProduct (2 ^ 64) tick i cs r)
  | [], _, _, _, _ => rfl
  | c :: cs, i, r, hc, hr => by
    have hc0 := hc c List.mem_cons_self
    have hmul : r * c ≤ 2 ^ 64 * (2 ^ 64 - 1) := Nat.mul_le_mul hr (by omega)
    have hstep : (r * c % 2 ^ 128) >>> 64 = r * c / 2 ^ 64 := by
      rw [Nat.mod_eq_of_lt (by omega), Nat.shiftRight_eq_div_pow]
    have ih := fun x (hx : x ≤ 2 ^ 64) => applyFactors_negative tick cs (i + 1) x
      (fun y hy => hc y (List.mem_cons_of_mem _ hy)) hx
    unfold applyFactors
    rw [bitProduct]
    split_ifs with hb
    · rw [Res.ok_bind, hstep]
      exact ih _ (by omega)
    · rw [Res.ok_bind]
      exact ih _ hr

/-- The first `if` of both functions is a multiplication of the unit. -/
lemma bitProduct_first {D c tick : ℕ} (hD : 0 < D) (cs : List ℕ) :
    bitProduct D tick 0 (c :: cs) D =
      bitProduct D tick 1 cs (if tick &&& 1 ≠ 0 then c else D) := by
  rw [bitProduct, pow_zero, Nat.mul_div_cancel_left _ hD]

/-- The product of the factors of a positive tick fits in 128 bits.

**Proof sketch.** The logarithm of the product is that of the tick up to its error, and at the last
tick still below 32 powers of two. -/
theorem positive_lt {n : ℕ} (hn : n ≤ 443636) :
    bitProduct (2 ^ 96) n 0 (positiveFactor :: positiveFactors) (2 ^ 96) < 2 ^ 128 := by
  obtain ⟨hpos, herr⟩ := log_positive (n := n) (by omega)
  generalize bitProduct (2 ^ 96) n 0 (positiveFactor :: positiveFactors) (2 ^ 96) = r at *
  have h2 := log_two_gt_d9
  obtain ⟨-, hσ⟩ := logTick_bounds
  have hrR : (0 : ℝ) < r := by exact_mod_cast hpos
  have hnσ : (n : ℝ) * logTick ≤ 443636 * (49997500167 / 10 ^ 15) :=
    mul_le_mul (by exact_mod_cast hn) hσ.le logTick_pos.le (by norm_num)
  have hlog : log (r / 2 ^ 96 : ℝ) < log (2 ^ 32) := by
    rw [abs_le] at herr
    rw [log_pow]
    push_cast
    linarith [herr.2]
  have hlt := (log_lt_log_iff (by positivity) (by positivity)).1 hlog
  rw [div_lt_iff₀ (by positivity)] at hlt
  have : (r : ℝ) < ((2 ^ 128 : ℕ) : ℝ) := by
    push_cast
    linarith
  exact_mod_cast this

/-- Up to tick `443636` the source's function returns, and returns `tickPrice`.

**Proof sketch.** By the sign of the tick. The factors are multiplied in the same order on both
sides. No product of a positive tick wraps, by `positive_lt`, and the factors of a negative tick are
at most the unit. -/
theorem sqrtPriceFromTickIndex_eq {t : ℤ} (h : t ≤ 443636) :
    sqrtPriceFromTickIndex t = .ok (tickPrice t) := by
  unfold sqrtPriceFromTickIndex tickPrice
  split_ifs with ht
  · have hlt := positive_lt (n := t.natAbs) (by omega)
    rw [bitProduct_first (by norm_num)] at hlt ⊢
    unfold getSqrtPricePositiveTick
    simp only []
    rw [show (79228162514264337593543950336 : ℕ) = 2 ^ 96 by norm_num,
      applyFactors_mulShift96 _ _ _ (by decide +kernel) hlt, Res.ok_bind,
      Nat.shiftRight_eq_div_pow, Res.pure_eq_ok]
  · unfold getSqrtPriceNegativeTick
    simp only []
    rw [bitProduct_first (by norm_num), show (18446744073709551616 : ℕ) = 2 ^ 64 by norm_num,
      applyFactors_negative _ _ _ _ (by decide +kernel)]
    split_ifs
    · norm_num [negativeFactor]
    · exact le_rfl

/-! ## The logarithm of a price -/

/-- The loop of `tick_index_from_sqrt_price` computes the digits of `squareLog`. -/
lemma log2Loop_eq {j : ℕ} : ∀ (n r f : ℕ), 2 ^ 63 ≤ r → r < 2 ^ 64 →
    log2Loop n r (2 ^ (n + j)) f = f + squareLog 63 n r * 2 ^ (j + 1)
  | 0, r, f, _, _ => by simp [log2Loop, squareLog]
  | n + 1, r, f, hlo, hhi => by
    obtain ⟨hb, h1, h2⟩ := square_step hlo hhi
    have hsq : r * r < 2 ^ 128 := by
      calc r * r < 2 ^ 64 * 2 ^ 64 := Nat.mul_lt_mul'' hhi hhi
        _ = 2 ^ 128 := by norm_num
    have ih := log2Loop_eq (j := j) n (r * r / 2 ^ (63 + r * r / 2 ^ (2 * 63 + 1)))
      (f + 2 ^ (n + 1 + j) * (r * r / 2 ^ (2 * 63 + 1))) h1 h2
    unfold log2Loop squareLog
    simp only [Nat.mod_eq_of_lt hsq, Nat.shiftRight_eq_div_pow]
    rw [show 2 ^ (n + 1 + j) / 2 ^ 1 = 2 ^ (n + j) by
      rw [show n + 1 + j = n + j + 1 by ring, pow_succ, pow_one, Nat.mul_div_cancel _ (by norm_num)]]
    rw [show (127 : ℕ) = 2 * 63 + 1 by norm_num, ih]
    ring

/-- Powers of two multiply by adding their exponents. -/
lemma two_pow_mul {a b c : ℕ} (h : a + b = c) : 2 ^ a * 2 ^ b = 2 ^ c := by
  rw [← h, pow_add]

/-- `log2p_x32` is the binary logarithm of the price up to fourteen fractional bits.

**Proof sketch.** The integer part is the position of the top bit. The mantissa, normalised to 64
bits, is squared fourteen times, and each squaring gives one bit of the fraction: `log2Loop_eq`
computes the loop, and `squareLog_le` and `le_squareLog` bound what it misses. -/
lemma log2pX32_bounds {p : ℕ} (hlo : 2 ^ 32 ≤ p) (hhi : p < 2 ^ 96) :
    (log2pX32 p : ℝ) * log 2 ≤ 2 ^ 32 * log (p / 2 ^ 64 : ℝ) ∧
      2 ^ 32 * log (p / 2 ^ 64 : ℝ) ≤ (log2pX32 p + 2 ^ 18) * log 2 + 1 := by
  have hsize : 32 < Nat.size p := Nat.lt_size.2 hlo
  have hsize' : Nat.size p ≤ 96 := Nat.size_le.2 hhi
  obtain ⟨msb, hmsb⟩ : ∃ msb, Nat.size p = msb + 1 := ⟨Nat.size p - 1, by omega⟩
  have hmsbw : wrappingSub 32 (Nat.size p) 1 = msb := by
    rw [wrappingSub_of_le (by omega) (by omega)]
    omega
  have hge : 2 ^ msb ≤ p := Nat.lt_size.1 (by omega)
  have hlt : p < 2 ^ (msb + 1) := hmsb ▸ Nat.lt_size_self p
  have hpR : (0 : ℝ) < p := by exact_mod_cast lt_of_lt_of_le (by positivity) hlo
  unfold log2pX32
  simp only [hmsbw]
  -- the normalised mantissa
  obtain ⟨r, hr⟩ : ∃ r, r = if msb ≥ 64 then p >>> (msb - 63) else p <<< (63 - msb) := ⟨_, rfl⟩
  rw [← hr]
  have hnorm : 2 ^ 63 ≤ r ∧ r < 2 ^ 64 ∧ log (r / 2 ^ 63 : ℝ) ≤ log (p / 2 ^ msb : ℝ) ∧
      log (p / 2 ^ msb : ℝ) ≤ log (r / 2 ^ 63 : ℝ) + 1 / 2 ^ 62 := by
    rcases Nat.lt_or_ge msb 64 with h64 | h64
    · -- a left shift is exact
      rw [if_neg (by omega), Nat.shiftLeft_eq] at hr
      have hpow : 2 ^ msb * 2 ^ (63 - msb) = 2 ^ 63 := two_pow_mul (by omega)
      have hpow' : 2 ^ (msb + 1) * 2 ^ (63 - msb) = 2 ^ 64 := two_pow_mul (by omega)
      have heq : (r / 2 ^ 63 : ℝ) = p / 2 ^ msb := by
        have : (2 : ℝ) ^ msb * 2 ^ (63 - msb) = 2 ^ 63 := by exact_mod_cast hpow
        rw [hr, ← this]
        push_cast
        field_simp
      rw [heq]
      refine ⟨?_, ?_, le_rfl, by simp⟩
      · exact hr ▸ hpow ▸ Nat.mul_le_mul_right _ hge
      · exact hr ▸ (Nat.mul_lt_mul_of_pos_right hlt (by positivity)).trans_eq hpow'
    · rw [if_pos h64, Nat.shiftRight_eq_div_pow] at hr
      have hpow : 2 ^ 63 * 2 ^ (msb - 63) = 2 ^ msb := two_pow_mul (by omega)
      have hpow' : 2 ^ 64 * 2 ^ (msb - 63) = 2 ^ (msb + 1) := two_pow_mul (by omega)
      have hr1 : 2 ^ 63 ≤ r := by
        rw [hr, Nat.le_div_iff_mul_le (by positivity), hpow]
        exact hge
      have hr2 : r < 2 ^ 64 := by
        rw [hr, Nat.div_lt_iff_lt_mul (by positivity), hpow']
        exact hlt
      have hpowR : (2 : ℝ) ^ 63 * 2 ^ (msb - 63) = 2 ^ msb := by exact_mod_cast hpow
      have hM : (2 : ℝ) ^ 63 * ((2 ^ (msb - 63) : ℕ) : ℝ) ≤ p := by
        push_cast
        rw [hpowR]
        exact_mod_cast hge
      obtain ⟨e1, e2, e3⟩ := log_natDiv (a := p) (d := 2 ^ (msb - 63)) (M := 2 ^ 63)
        (by positivity) (by norm_num) hM
      rw [← hr] at e1 e2 e3
      have hrR : (0 : ℝ) < r := by exact_mod_cast e3
      have hpe : log (p / 2 ^ msb : ℝ) = log (p / (2 ^ (msb - 63) : ℕ) : ℝ) - log (2 ^ 63) := by
        have hq : (p / 2 ^ msb : ℝ) = p / (2 ^ (msb - 63) : ℕ) / 2 ^ 63 := by
          rw [← hpowR]
          push_cast
          field_simp
        rw [hq, log_div (by positivity) (by positivity)]
      rw [log_div hrR.ne' (by positivity), hpe]
      refine ⟨hr1, hr2, by linarith, ?_⟩
      rw [show (1 / 2 ^ 62 : ℝ) = 2 / 2 ^ 63 by norm_num]
      linarith
  obtain ⟨hr1, hr2, hr3, hr4⟩ := hnorm
  have hloop := log2Loop_eq (j := 49) 14 r 0 hr1 hr2
  have hS1 := squareLog_le 14 r hr1 hr2
  have hS2 := le_squareLog 14 r hr1 hr2
  obtain ⟨S, hS⟩ : ∃ S, S = squareLog 63 14 r := ⟨_, rfl⟩
  rw [← hS] at hloop hS1 hS2
  norm_num at hloop
  rw [bitPrecision, hloop, Nat.shiftRight_eq_div_pow, show S * 1125899906842624 / 2 ^ 32 =
    S * 262144 by omega]
  have hsplit : log (p / 2 ^ 64 : ℝ) = ((msb : ℝ) - 64) * log 2 + log (p / 2 ^ msb : ℝ) := by
    rw [log_div hpR.ne' (by positivity), log_div hpR.ne' (by positivity), log_pow, log_pow]
    push_cast
    ring
  rw [hsplit]
  norm_num at hS1 hS2 hr4 ⊢
  constructor <;> linarith

/-! ## The tick of a price -/

/-- The logarithm of a price in range, up to 32 powers of two on either side.

**Proof sketch.** The logarithm is monotone, and those of the ends are 32 and 96 powers of two. -/
lemma log_price_bounds {p : ℕ} (hlo : 2 ^ 32 ≤ p) (hhi : p < 2 ^ 96) :
    -(32 * log 2) ≤ log (p / 2 ^ 64 : ℝ) ∧ log (p / 2 ^ 64 : ℝ) ≤ 32 * log 2 := by
  have hpR : (0 : ℝ) < p := by exact_mod_cast lt_of_lt_of_le (by positivity) hlo
  have h32 : (32 : ℝ) * log 2 = log (2 ^ 32) := by
    rw [log_pow]
    norm_num
  have h1 : ((2 ^ 32 : ℕ) : ℝ) ≤ p := by exact_mod_cast hlo
  have h2 : (p : ℝ) ≤ ((2 ^ 96 : ℕ) : ℝ) := by exact_mod_cast hhi.le
  norm_num at h1 h2
  constructor
  · rw [h32, ← log_inv]
    refine log_le_log (by positivity) ?_
    rw [le_div_iff₀ (by positivity)]
    norm_num
    linarith
  · rw [h32]
    refine log_le_log (by positivity) ?_
    rw [div_le_iff₀ (by positivity)]
    norm_num
    linarith

/-- The range of the binary logarithm over the price range.

**Proof sketch.** By the bounds on the binary logarithm and on that of the price, with `log 2` in
decimals. -/
theorem log2pX32_range {p : ℕ} (hlo : minSqrtPriceX64 ≤ p) (hhi : p ≤ maxSqrtPriceX64) :
    -137439477760 ≤ log2pX32 p ∧ log2pX32 p ≤ 137438837256 := by
  have h32 : 2 ^ 32 ≤ p := le_trans (by norm_num [minSqrtPriceX64]) hlo
  have h96 : p < 2 ^ 96 := lt_of_le_of_lt hhi (by norm_num [maxSqrtPriceX64])
  obtain ⟨h1, h2⟩ := log2pX32_bounds h32 h96
  obtain ⟨h3, -⟩ := log_price_bounds h32 h96
  have hl := log_two_gt_d9
  have hpR : (0 : ℝ) < p := by exact_mod_cast lt_of_lt_of_le (by positivity) h32
  constructor
  · by_contra hcon
    have hlt : (log2pX32 p : ℝ) ≤ -137439477761 := by exact_mod_cast Int.le_sub_one_of_lt (not_le.1 hcon)
    have := mul_le_mul_of_nonneg_right hlt (show 0 ≤ log 2 by linarith)
    linarith
  · by_contra hcon
    have hlt : (137438837257 : ℝ) ≤ log2pX32 p := by exact_mod_cast Int.add_one_le_of_lt (not_le.1 hcon)
    have hm := mul_le_mul_of_nonneg_right hlt (show 0 ≤ log 2 by linarith)
    obtain ⟨-, herr⟩ := log_tickPrice (t := 443636) (by norm_num) (by norm_num)
    rw [tickPrice_max, abs_le] at herr
    have hle : log (p / 2 ^ 64 : ℝ) ≤ log (maxSqrtPriceX64 / 2 ^ 64 : ℝ) :=
      log_le_log (by positivity)
        (div_le_div_of_nonneg_right (by exact_mod_cast hhi) (by positivity))
    obtain ⟨-, hσ⟩ := logTick_bounds
    push_cast at herr
    linarith [herr.2]

/-- A tick at most the lower estimate has a price at most `p`, and a tick above the upper
estimate a price above `p`: the margins of a hundredth of a tick outweigh all errors.

**Proof sketch.** The estimate is the scaled binary logarithm, changed to the tick base. Its error
is the sum of the one of the binary logarithm, the one of the constant that changes the base and the
one of the price of the tick; the margins of the code are greater than the sum. -/
lemma tick_estimates {p : ℕ} {t : ℤ} (hlo : minSqrtPriceX64 ≤ p) (hhi : p ≤ maxSqrtPriceX64)
    (ht : -443700 ≤ t) (ht' : t ≤ 443700) :
    (t * 2 ^ 64 ≤ log2pX32 p * logB2X32 - logBPErrMarginLowerX64 → tickPrice t ≤ p) ∧
      (log2pX32 p * logB2X32 + logBPErrMarginUpperX64 < t * 2 ^ 64 → p < tickPrice t) := by
  have h32 : 2 ^ 32 ≤ p := le_trans (by norm_num [minSqrtPriceX64]) hlo
  have h96 : p < 2 ^ 96 := lt_of_le_of_lt hhi (by norm_num [maxSqrtPriceX64])
  obtain ⟨h1, h2⟩ := log2pX32_bounds h32 h96
  obtain ⟨hN1, hN2⟩ := log2pX32_range hlo hhi
  obtain ⟨htp, herr⟩ := log_tickPrice ht ht'
  obtain ⟨hσ1, hσ2⟩ := logTick_bounds
  have hσ := logTick_pos
  have hl := log_two_lt_d9
  have hpR : (0 : ℝ) < p := by exact_mod_cast lt_of_lt_of_le (by positivity) h32
  have htR : (0 : ℝ) < tickPrice t := by exact_mod_cast htp
  -- the scaled logarithm and the logarithm to base `√1.0001` agree
  have hN : |(log2pX32 p : ℝ)| ≤ 2 ^ 38 := by
    rw [abs_le]
    have e1 : (-137439477760 : ℝ) ≤ log2pX32 p := by exact_mod_cast hN1
    have e2 : (log2pX32 p : ℝ) ≤ 137438837256 := by exact_mod_cast hN2
    constructor <;> linarith
  have hscale : |(log2pX32 p : ℝ) * (logB2X32 * logTick - 2 ^ 32 * log 2)| ≤ 2 ^ 38 * 8 := by
    rw [abs_mul]
    exact mul_le_mul hN logB2X32_bounds (abs_nonneg _) (by positivity)
  rw [abs_le] at herr hscale
  obtain ⟨herr1, herr2⟩ := herr
  obtain ⟨hs1, hs2⟩ := hscale
  have hM1 : (logBPErrMarginLowerX64 : ℝ) = 184467440737095516 := by
    norm_num [logBPErrMarginLowerX64]
  have hM2 : (logBPErrMarginUpperX64 : ℝ) = 15793534762490258745 := by
    norm_num [logBPErrMarginUpperX64]
  constructor
  · intro hle
    by_contra hcon
    have hlt : log (p / 2 ^ 64 : ℝ) ≤ log (tickPrice t / 2 ^ 64 : ℝ) :=
      log_le_log (by positivity)
        (div_le_div_of_nonneg_right (by exact_mod_cast (not_le.1 hcon).le) (by positivity))
    have hR : (t : ℝ) * 2 ^ 64 ≤ log2pX32 p * logB2X32 - logBPErrMarginLowerX64 := by
      exact_mod_cast hle
    have hRσ := mul_le_mul_of_nonneg_right hR hσ.le
    rw [hM1] at hRσ
    linarith
  · intro hlt
    by_contra hcon
    have hle : log (tickPrice t / 2 ^ 64 : ℝ) ≤ log (p / 2 ^ 64 : ℝ) :=
      log_le_log (by positivity)
        (div_le_div_of_nonneg_right (by exact_mod_cast not_lt.1 hcon) (by positivity))
    have hR : (log2pX32 p : ℝ) * logB2X32 + logBPErrMarginUpperX64 ≤ t * 2 ^ 64 := by
      exact_mod_cast hlt.le
    have hRσ := mul_le_mul_of_nonneg_right hR hσ.le
    rw [hM2] at hRσ
    linarith

/-- **The tick of a price is the floor inverse of the price of a tick.**

**Proof sketch.** The lower and the upper estimate differ by at most one, and by `tick_estimates`
one of them is the floor tick. If they differ, the code compares the price with the price of the
upper one. -/
theorem tickIndexFromSqrtPrice_spec {p : ℕ} (hlo : minSqrtPriceX64 ≤ p)
    (hhi : p ≤ maxSqrtPriceX64) :
    ∃ t, tickIndexFromSqrtPrice p = .ok t ∧ -443636 ≤ t ∧ t ≤ 443636 ∧
      tickPrice t ≤ p ∧ p < tickPrice (t + 1) := by
  obtain ⟨hN1, hN2⟩ := log2pX32_range hlo hhi
  have hest := fun t => tick_estimates (t := t) hlo hhi
  unfold tickIndexFromSqrtPrice
  generalize log2pX32 p = N at *
  unfold logB2X32 logBPErrMarginLowerX64 logBPErrMarginUpperX64 at *
  obtain ⟨tl, htl⟩ : ∃ tl, tl = (N * 59543866431248 - 184467440737095516) / 2 ^ 64 := ⟨_, rfl⟩
  obtain ⟨th, hth⟩ : ∃ th, th = (N * 59543866431248 + 15793534762490258745) / 2 ^ 64 := ⟨_, rfl⟩
  simp only [← htl, ← hth]
  have hb : -443640 ≤ tl ∧ tl ≤ th ∧ th ≤ tl + 1 ∧ th ≤ 443636 := by omega
  obtain ⟨b1, b2, b3, b4⟩ := hb
  have hl := (hest tl (by omega) (by omega)).1 (by omega)
  have hh := (hest (th + 1) (by omega) (by omega)).2 (by omega)
  have el : unwrapI32 tl = .ok tl := if_pos (by omega)
  have eh : unwrapI32 th = .ok th := if_pos (by omega)
  have key : ∃ t, (tl = t ∨ th = t) ∧ tickPrice t ≤ p ∧ p < tickPrice (t + 1) ∧
      (if tl = th then (pure tl : Res ℤ) else sqrtPriceFromTickIndex th >>= fun a =>
        pure (if a ≤ p then th else tl)) = .ok t := by
    rw [sqrtPriceFromTickIndex_eq b4, Res.ok_bind]
    split_ifs with h1 h2
    · exact ⟨tl, Or.inl rfl, hl, h1 ▸ hh, rfl⟩
    · exact ⟨th, Or.inr rfl, h2, hh, rfl⟩
    · exact ⟨tl, Or.inl rfl, hl, by rw [show tl + 1 = th by omega]; omega, rfl⟩
  obtain ⟨t, ht, h1, h2, h3⟩ := key
  refine ⟨t, ?_, ?_, ?_, h1, h2⟩
  · rw [el, eh, Res.ok_bind, Res.ok_bind]
    exact h3
  · by_contra hcon
    have hlt : tickPrice (t + 1) ≤ tickPrice (-443636) := by
      rcases lt_or_ge (t + 1) (-443636) with hc | hc
      · exact (tickPrice_lt (by omega) hc (by omega)).le
      · rw [show t + 1 = -443636 by omega]
    rw [tickPrice_min] at hlt
    omega
  · by_contra hcon
    have hlt := tickPrice_lt (a := 443636) (b := t) (by omega) (by omega) (by omega)
    rw [tickPrice_max] at hlt
    omega

/-- The tick of a price: the last tick whose price is at most this price. -/
def FloorTick (p : ℕ) (t : ℤ) : Prop :=
  minTickIndex ≤ t ∧ t ≤ maxTickIndex ∧ (∃ q, sqrtPriceFromTickIndex t = .ok q ∧ q ≤ p) ∧
    (t = maxTickIndex ∨ ∃ q, sqrtPriceFromTickIndex (t + 1) = .ok q ∧ p < q)

/-- The floor tick of a price, as bounds on the price. -/
theorem floorTick_iff {p : ℕ} {t : ℤ} : FloorTick p t ↔
    minTickIndex ≤ t ∧ t ≤ maxTickIndex ∧ tickPrice t ≤ p ∧
      (t = maxTickIndex ∨ p < tickPrice (t + 1)) := by
  unfold FloorTick maxTickIndex
  refine and_congr_right fun _ => and_congr_right fun hhi => and_congr ?_ ?_
  · rw [sqrtPriceFromTickIndex_eq hhi]
    simp
  · rcases eq_or_ne t 443636 with he | hne
    · simp [he]
    · rw [sqrtPriceFromTickIndex_eq (by omega)]
      simp

/-- A price has at most one tick. -/
theorem FloorTick.unique {p : ℕ} {s t : ℤ} (hs : FloorTick p s) (ht : FloorTick p t) : s = t := by
  obtain ⟨hs1, hs2, hs3, hs4⟩ := floorTick_iff.1 hs
  obtain ⟨ht1, ht2, ht3, ht4⟩ := floorTick_iff.1 ht
  unfold minTickIndex at hs1 ht1
  unfold maxTickIndex at hs2 hs4 ht2 ht4
  by_contra hne
  rcases lt_or_gt_of_ne hne with hlt | hlt
  · have := tickPrice_le (a := s + 1) (b := t) (by omega) (by omega) (by omega)
    omega
  · have := tickPrice_le (a := t + 1) (b := s) (by omega) (by omega) (by omega)
    omega

/-- **Ticks and prices are converted exactly**: tick prices increase strictly from the minimum to
the maximum, and the tick of every price in between is computed without a failure. -/
theorem tickIndexFromSqrtPrice_floor :
    (sqrtPriceFromTickIndex minTickIndex = .ok minSqrtPriceX64 ∧
      sqrtPriceFromTickIndex maxTickIndex = .ok maxSqrtPriceX64) ∧
    (∀ s t, minTickIndex ≤ s → s < t → t ≤ maxTickIndex →
      ∃ p q, sqrtPriceFromTickIndex s = .ok p ∧ sqrtPriceFromTickIndex t = .ok q ∧ p < q) ∧
    ∀ p, minSqrtPriceX64 ≤ p → p ≤ maxSqrtPriceX64 →
      ∃ t, tickIndexFromSqrtPrice p = .ok t ∧ FloorTick p t ∧ ∀ t', FloorTick p t' → t' = t := by
  refine ⟨⟨?_, ?_⟩, fun s t hs hst ht => ?_, fun p hlo hhi => ?_⟩
  · unfold minTickIndex
    rw [sqrtPriceFromTickIndex_eq (by norm_num), tickPrice_min]
  · unfold maxTickIndex
    rw [sqrtPriceFromTickIndex_eq le_rfl, tickPrice_max]
  · unfold minTickIndex at hs
    unfold maxTickIndex at ht
    exact ⟨_, _, sqrtPriceFromTickIndex_eq (by omega), sqrtPriceFromTickIndex_eq ht,
      tickPrice_lt (by omega) hst (by omega)⟩
  · obtain ⟨t, ht, h1, h2, h3, h4⟩ := tickIndexFromSqrtPrice_spec hlo hhi
    have hfloor : FloorTick p t := floorTick_iff.2 ⟨h1, h2, h3, Or.inr h4⟩
    exact ⟨t, ht, hfloor, fun t' ht' => ht'.unique hfloor⟩

/-- At the price one the tick is zero. -/
theorem tickIndexFromSqrtPrice_floor_one : FloorTick (2 ^ 64) 0 := by
  obtain ⟨-, -, h⟩ := tickIndexFromSqrtPrice_floor
  obtain ⟨t, ht, hfloor, -⟩ := h (2 ^ 64) (by decide +kernel) (by decide +kernel)
  have h0 : tickIndexFromSqrtPrice (2 ^ 64) = .ok 0 := by decide +kernel
  rw [h0, Except.ok.injEq] at ht
  exact ht ▸ hfloor

end NemoSwap
