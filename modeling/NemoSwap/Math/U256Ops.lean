import NemoSwap.Math.U256Arith

set_option relaxedAutoImplicit false
set_option autoImplicit false

/-!
# The word operations as arithmetic modulo `2 ^ 256`

The remaining operations of `u256_math.rs`, and what all of them compute on the numbers that the
words denote. The loops of `mul` add up rows: the row of a word of the second factor gains that
word times the first factor, and what does not fit four words is dropped.

## Main definitions

* `NemoSwap.U256Muldiv.mul`, `lt`, `gt`, `gte`, `eq`, `getAddInverse` — the operations.
* `NemoSwap.U256Muldiv.mulU256Sums` — the `u128` values that `mul_u256` computes on its way.

## Main results

* `NemoSwap.U256Muldiv.toNat_mul` — the product modulo `2 ^ 256`.
* `NemoSwap.U256Muldiv.word_ops` — all operations at once.
-/

namespace NemoSwap

namespace U256Muldiv

/-! ## The operations -/

/-- `eq`. -/
def eq (x y : U256Muldiv) : Bool := (List.range 4).all fun i => x.getWord i = y.getWord i

/-- `lt`. -/
def lt (x y : U256Muldiv) : Bool := cmpBelow x y 4 == .lt

/-- `gt`. -/
def gt (x y : U256Muldiv) : Bool := cmpBelow x y 4 == .gt

/-- `gte`. -/
def gte (x y : U256Muldiv) : Bool := cmpBelow x y 4 != .lt

/-- `get_add_inverse`. -/
def getAddInverse (x : U256Muldiv) : U256Muldiv :=
  if x.eq (new 0 0) then new 0 0
  else ((new (2 ^ 128 - 1) (2 ^ 128 - 1)).sub x).add (new 0 1)

/-- The inner loop of `mul`, over the words `i < m` of the first factor: the result so far, and
the carry. -/
def mulRow (x y : U256Muldiv) (j m : ℕ) (result : U256Muldiv) : U256Muldiv × ℕ :=
  (List.range m).foldl (fun (s : U256Muldiv × ℕ) i =>
    if i + j < 4 then
      let t := wrappingAdd 128 (wrappingAdd 128 (x.getWord i * y.getWord j % 2 ^ 128)
        (s.1.getWord (i + j))) s.2
      (s.1.updateWord (i + j) (lo t), hi t)
    else s) (result, 0)

/-- `mul`. The carry word is dropped where it does not fit. -/
def mul (x y : U256Muldiv) : U256Muldiv :=
  let m := x.numWords
  let n := y.numWords
  (List.range n).foldl (fun result j =>
    let (result, k) := x.mulRow y j m result
    if j + m < 4 then result.updateWord (j + m) k else result) (new 0 0)

/-- The `u128` values that `mul_u256` computes: the four products, the sum in the middle and the
high part. -/
def mulU256Sums (v n : ℕ) : List ℕ :=
  let c0 := lo v * lo n
  let a1 := lo v * hi n
  let b0 := hi v * lo n
  let c1 := hi c0 + lo a1 + lo b0
  [c0, a1, b0, c1, hi v * hi n, hi v * hi n + hi c1 + hi a1 + hi b0]

/-! ## Comparisons -/

/-- `lt` compares the numbers. -/
lemma lt_iff (x y : U256Muldiv) : x.lt y = true ↔ x.toNat < y.toNat := by
  unfold lt
  rw [cmpBelow_eq, ← toNat_eq_value, ← toNat_eq_value, beq_iff_eq, compare_lt_iff_lt]

/-- `gt` compares the numbers. -/
lemma gt_iff (x y : U256Muldiv) : x.gt y = true ↔ y.toNat < x.toNat := by
  unfold gt
  rw [cmpBelow_eq, ← toNat_eq_value, ← toNat_eq_value, beq_iff_eq, compare_gt_iff_gt]

/-- `gte` compares the numbers. -/
lemma gte_iff (x y : U256Muldiv) : x.gte y = true ↔ y.toNat ≤ x.toNat := by
  unfold gte
  rw [cmpBelow_eq, ← toNat_eq_value, ← toNat_eq_value, bne_iff_ne, ne_eq, compare_lt_iff_lt]
  exact not_lt

/-- The words of a number are determined by it. -/
lemma eq_iff (x y : U256Muldiv) : x.eq y = true ↔ x.toNat = y.toNat := by
  have hx := x.getWord_lt
  have hy := y.getWord_lt
  have x0 := hx 0; have x1 := hx 1; have x2 := hx 2; have x3 := hx 3
  have y0 := hy 0; have y1 := hy 1; have y2 := hy 2; have y3 := hy 3
  unfold eq
  simp only [range_four, List.all_cons, List.all_nil, Bool.and_true, Bool.and_eq_true,
    decide_eq_true_eq]
  rw [toNat_eq, toNat_eq]
  omega

/-! ## Sums and differences -/

/-- `sub` subtracts modulo `2 ^ 256`. -/
lemma toNat_sub_mod (x y : U256Muldiv) :
    (x.sub y).toNat = (x.toNat + (2 ^ 256 - y.toNat)) % 2 ^ 256 := by
  obtain ⟨c, hc, he⟩ := toNat_sub_borrow x y
  have hx := x.toNat_lt
  have hy := y.toNat_lt
  have hs := (x.sub y).toNat_lt
  omega

/-- A number and its additive inverse add up to zero modulo `2 ^ 256`. -/
lemma toNat_getAddInverse (x : U256Muldiv) :
    (x.getAddInverse.toNat + x.toNat) % 2 ^ 256 = 0 := by
  have hlt := x.toNat_lt
  unfold getAddInverse
  split_ifs with h
  · rw [eq_iff] at h
    rw [h, toNat_new_zero (by positivity), Nat.zero_mod]
  · have hmax : (new (2 ^ 128 - 1) (2 ^ 128 - 1)).toNat = 2 ^ 256 - 1 := by
      rw [toNat_new (by norm_num) (by norm_num)]
      norm_num
    rw [toNat_add, toNat_sub (by rw [hmax]; omega), hmax, toNat_new_zero (by norm_num)]
    omega

/-! ## Products -/

/-- Writing a word changes the number by the difference of the words. -/
lemma toNat_updateWord (x : U256Muldiv) {i v : ℕ} (hi : i < 4) (hv : v < 2 ^ 64) :
    (x.updateWord i v).toNat + x.getWord i * (2 ^ 64) ^ i = x.toNat + v * (2 ^ 64) ^ i := by
  rw [toNat_eq, toNat_eq]
  simp only [getWord_updateWord, Nat.mod_eq_of_lt hv]
  interval_cases i <;> norm_num <;> ring

/-- **A row of the product**: the result gains a word of the second factor times the first `m`
words of the first one, up to the carry, modulo `2 ^ 256`.

**Proof sketch.** Induction on the number of words of the first factor. A word of the result plus a
product of two words and a carry is a `u128`, whose halves are the new word and the next carry;
beyond the fourth word nothing is kept. -/
theorem mulRow_spec (x y : U256Muldiv) (j : ℕ) (result : U256Muldiv) : ∀ m,
    ∃ r k, x.mulRow y j m result = (r, k) ∧ k < 2 ^ 64 ∧
      (∀ i, m + j ≤ i → r.getWord i = result.getWord i) ∧
      r.toNat + k * (2 ^ 64) ^ (m + j) ≡
        result.toNat + Radix.value (2 ^ 64) x.getWord m * y.getWord j * (2 ^ 64) ^ j
          [MOD 2 ^ 256]
  | 0 => ⟨result, 0, rfl, by norm_num, fun _ _ => rfl, by simp [Nat.ModEq]⟩
  | m + 1 => by
    obtain ⟨r, k, hr, hk, hout, hval⟩ := mulRow_spec x y j result m
    have hstep : x.mulRow y j (m + 1) result =
        if m + j < 4 then
          (r.updateWord (m + j) (lo (wrappingAdd 128 (wrappingAdd 128
            (x.getWord m * y.getWord j % 2 ^ 128) (r.getWord (m + j))) k)),
            hi (wrappingAdd 128 (wrappingAdd 128 (x.getWord m * y.getWord j % 2 ^ 128)
              (r.getWord (m + j))) k))
        else (r, k) := by
      unfold mulRow at hr ⊢
      rw [List.range_succ, List.foldl_append, List.foldl_cons, List.foldl_nil, hr]
    have hpow : (2 ^ 64) ^ (m + 1 + j) = (2 ^ 64) ^ (m + j) * 2 ^ 64 := by
      rw [add_right_comm, pow_succ]
    have hsucc : result.toNat + Radix.value (2 ^ 64) x.getWord (m + 1) * y.getWord j *
        (2 ^ 64) ^ j = result.toNat + Radix.value (2 ^ 64) x.getWord m * y.getWord j *
          (2 ^ 64) ^ j + x.getWord m * y.getWord j * (2 ^ 64) ^ (m + j) := by
      rw [Radix.value_succ, pow_add]
      ring
    rw [hstep, hsucc, hpow]
    by_cases hm : m + j < 4
    · rw [if_pos hm]
      have hp : x.getWord m * y.getWord j ≤ (2 ^ 64 - 1) * (2 ^ 64 - 1) :=
        Nat.mul_le_mul (Nat.le_pred_of_lt (x.getWord_lt m)) (Nat.le_pred_of_lt (y.getWord_lt j))
      have hz := r.getWord_lt (m + j)
      generalize x.getWord m * y.getWord j = p at *
      -- the sum of a product of words, a word and a carry is a `u128`
      have ht : wrappingAdd 128 (wrappingAdd 128 (p % 2 ^ 128) (r.getWord (m + j))) k =
          p + r.getWord (m + j) + k := by
        rw [Nat.mod_eq_of_lt (show p < 2 ^ 128 by omega),
          wrappingAdd_of_lt (show p + r.getWord (m + j) < 2 ^ 128 by omega),
          wrappingAdd_of_lt (show p + r.getWord (m + j) + k < 2 ^ 128 by omega)]
      have hsplit := hi_mul_add_lo (n := p + r.getWord (m + j) + k) (by omega)
      have hword := r.toNat_updateWord hm (lo_lt (p + r.getWord (m + j) + k))
      rw [ht]
      refine ⟨_, _, rfl, hi_lt _, fun i hi => ?_, ?_⟩
      · rw [getWord_updateWord_of_ne _ _ (by omega), hout i (by omega)]
      · have he : (r.updateWord (m + j) (lo (p + r.getWord (m + j) + k))).toNat +
            hi (p + r.getWord (m + j) + k) * ((2 ^ 64) ^ (m + j) * 2 ^ 64) =
              r.toNat + k * (2 ^ 64) ^ (m + j) + p * (2 ^ 64) ^ (m + j) := by
          linear_combination hword + (2 ^ 64) ^ (m + j) * hsplit
        rw [he]
        exact hval.add_right _
    · rw [if_neg hm]
      have hdvd : 2 ^ 256 ∣ (2 ^ 64) ^ (m + j) := by
        rw [← pow_mul]
        exact pow_dvd_pow 2 (by omega)
      have hzero : ∀ c, c * (2 ^ 64) ^ (m + j) ≡ 0 [MOD 2 ^ 256] := fun c =>
        (Nat.modEq_zero_iff_dvd.2 (hdvd.mul_left c))
      refine ⟨r, k, rfl, hk, fun i hi => hout i (by omega), ?_⟩
      have h1 : k * ((2 ^ 64) ^ (m + j) * 2 ^ 64) ≡ k * (2 ^ 64) ^ (m + j) [MOD 2 ^ 256] := by
        rw [← mul_assoc, mul_right_comm]
        exact (hzero _).trans (hzero k).symm
      have h2 := (hval.add (hzero (x.getWord m * y.getWord j)).symm)
      rw [add_zero] at h2
      exact (h1.add_left _).trans h2

/-- **The rows of the product**, for the first `n` words of the second factor.

**Proof sketch.** Induction on the number of words of the second factor, with one row for the next
word. -/
theorem mulRows_spec (x y : U256Muldiv) (m : ℕ) : ∀ n, ∃ r,
    (List.range n).foldl (fun result j =>
      if j + m < 4 then (x.mulRow y j m result).1.updateWord (j + m) (x.mulRow y j m result).2
      else (x.mulRow y j m result).1) (new 0 0) = r ∧
      (∀ i, m + n ≤ i → r.getWord i = 0) ∧
      r.toNat ≡ Radix.value (2 ^ 64) x.getWord m * Radix.value (2 ^ 64) y.getWord n
        [MOD 2 ^ 256]
  | 0 => by
    refine ⟨_, rfl, fun i _ => ?_, ?_⟩
    · rw [List.range_zero, List.foldl_nil, getWord_new]
      split <;> rfl
    · rw [List.range_zero, List.foldl_nil, toNat_new_zero (by positivity), Radix.value_zero, mul_zero]
  | n + 1 => by
    obtain ⟨r, hr, hzero, hval⟩ := mulRows_spec x y m n
    obtain ⟨r', k, hrow, hk, hout, hrval⟩ := mulRow_spec x y n r m
    refine ⟨_, rfl, ?_⟩
    rw [List.range_succ, List.foldl_append, List.foldl_cons, List.foldl_nil, hr, hrow]
    have hsum : r.toNat + Radix.value (2 ^ 64) x.getWord m * y.getWord n * (2 ^ 64) ^ n ≡
        Radix.value (2 ^ 64) x.getWord m * Radix.value (2 ^ 64) y.getWord (n + 1)
          [MOD 2 ^ 256] := by
      rw [Radix.value_succ, mul_add, ← mul_assoc]
      exact hval.add_right _
    by_cases hm : n + m < 4
    · rw [if_pos hm]
      have hfree : r'.getWord (n + m) = 0 := by
        rw [hout _ (by omega), hzero _ (by omega)]
      have hword := r'.toNat_updateWord hm hk
      rw [hfree, zero_mul, add_zero] at hword
      refine ⟨fun i hi => ?_, ?_⟩
      · rw [getWord_updateWord_of_ne _ _ (by omega), hout _ (by omega), hzero _ (by omega)]
      · rw [hword, add_comm n m]
        exact hrval.trans hsum
    · rw [if_neg hm]
      refine ⟨fun i hi => by rw [hout _ (by omega), hzero _ (by omega)], ?_⟩
      have hdvd : 2 ^ 256 ∣ k * (2 ^ 64) ^ (m + n) := by
        rw [← pow_mul]
        exact (pow_dvd_pow 2 (by omega)).mul_left k
      have hcarry := (Nat.modEq_zero_iff_dvd.2 hdvd).symm.add_left r'.toNat
      rw [add_zero] at hcarry
      exact hcarry.trans (hrval.trans hsum)

/-- `mul` is multiplication modulo `2 ^ 256`. -/
theorem toNat_mul (x y : U256Muldiv) : (x.mul y).toNat = x.toNat * y.toNat % 2 ^ 256 := by
  obtain ⟨r, hr, -, hval⟩ := mulRows_spec x y x.numWords y.numWords
  rw [← toNat_eq_value_numWords, ← toNat_eq_value_numWords] at hval
  have hmul : x.mul y = r := hr
  rw [hmul, ← hval, Nat.mod_eq_of_lt r.toNat_lt]

/-- The values that `mul_u256` computes are `u128`.

**Proof sketch.** The partial products are below `(2 ^ 64 - 1) ^ 2`, and their sums are parts of a
product of two `u128` values, which bounds the last one. -/
lemma mulU256Sums_lt {v n : ℕ} (hv : v < 2 ^ 128) (hn : n < 2 ^ 128) :
    ∀ t ∈ mulU256Sums v n, t < 2 ^ 128 := by
  have ev := hi_mul_add_lo hv
  have en := hi_mul_add_lo hn
  have b1 := lo_lt v; have b2 := hi_lt v; have b3 := lo_lt n; have b4 := hi_lt n
  have hprod : ∀ a b : ℕ, a < 2 ^ 64 → b < 2 ^ 64 → a * b ≤ (2 ^ 64 - 1) * (2 ^ 64 - 1) :=
    fun a b ha hb => Nat.mul_le_mul (by omega) (by omega)
  have p00 := hprod _ _ b1 b3; have p01 := hprod _ _ b1 b4
  have p10 := hprod _ _ b2 b3; have p11 := hprod _ _ b2 b4
  have hexp : v * n = hi v * hi n * 2 ^ 128 + (lo v * hi n + hi v * lo n) * 2 ^ 64 +
      lo v * lo n := by
    conv_lhs => rw [← ev, ← en]
    ring
  have hle : v * n ≤ (2 ^ 128 - 1) * (2 ^ 128 - 1) := Nat.mul_le_mul (by omega) (by omega)
  rw [hexp] at hle
  simp only [mulU256Sums, List.mem_cons, List.not_mem_nil, or_false, forall_eq_or_imp, forall_eq]
  generalize lo v * lo n = a at *
  generalize lo v * hi n = b at *
  generalize hi v * lo n = c at *
  generalize hi v * hi n = d at *
  have ea := hi_mul_add_lo (n := a) (by omega)
  have eb := hi_mul_add_lo (n := b) (by omega)
  have ec := hi_mul_add_lo (n := c) (by omega)
  have la := lo_lt a; have lb := lo_lt b; have lc := lo_lt c; have ha := hi_lt a
  have em := hi_mul_add_lo (n := hi a + lo b + lo c) (by omega)
  have lm := lo_lt (hi a + lo b + lo c)
  generalize lo (hi a + lo b + lo c) = ml at *
  generalize hi (hi a + lo b + lo c) = mh at *
  omega

/-! ## Shifts -/

/-- `shift_left` multiplies by a power of two modulo `2 ^ 256`, for every shift. -/
lemma toNat_shiftLeft_mod (x : U256Muldiv) (k : ℕ) :
    (x.shiftLeft k).toNat = x.toNat * 2 ^ k % 2 ^ 256 := by
  by_cases hk : k < 256
  · exact x.toNat_shiftLeft hk
  · unfold shiftLeft
    rw [if_pos (by omega), toNat_new_zero (by positivity)]
    have hdvd : 2 ^ 256 ∣ x.toNat * 2 ^ k := (pow_dvd_pow 2 (by omega)).mul_left _
    rw [Nat.mod_eq_zero_of_dvd hdvd]

/-- `shift_right` divides by a power of two, for every shift. -/
lemma toNat_shiftRight_div (x : U256Muldiv) (k : ℕ) :
    (x.shiftRight k).toNat = x.toNat / 2 ^ k := by
  by_cases hk : k < 256
  · exact x.toNat_shiftRight hk
  · unfold shiftRight
    rw [if_pos (by omega), toNat_new_zero (by positivity)]
    exact (Nat.div_eq_of_lt (x.toNat_lt.trans_le
      (Nat.pow_le_pow_right (by norm_num) (by omega)))).symm

/-- **The word operations implement arithmetic modulo `2 ^ 256`.**

**Proof sketch.** Each operation is a lemma of its own; it remains to bound the product of two
`u128` values, and to read off when a shift by a word loses its top word. -/
theorem word_ops (x y : U256Muldiv) (v n : BitVec 128) (k : UInt32) :
    (x.add y).toNat = (x.toNat + y.toNat) % 2 ^ 256 ∧
      (x.sub y).toNat = (x.toNat + (2 ^ 256 - y.toNat)) % 2 ^ 256 ∧
      (x.mul y).toNat = x.toNat * y.toNat % 2 ^ 256 ∧
      (mulU256 v.toNat n.toNat).toNat = v.toNat * n.toNat ∧
      (∀ t ∈ mulU256Sums v.toNat n.toNat, t < 2 ^ 128) ∧
      (mulU256 v.toNat n.toNat).toNat = ((new 0 v.toNat).mul (new 0 n.toNat)).toNat ∧
      (x.shiftLeft k.toNat).toNat = x.toNat * 2 ^ k.toNat % 2 ^ 256 ∧
      (x.shiftRight k.toNat).toNat = x.toNat / 2 ^ k.toNat ∧
      (x.checkedShiftWordLeft = none ↔ 2 ^ 256 ≤ x.toNat * 2 ^ 64) ∧
      (∀ z, x.checkedShiftWordLeft = some z → z.toNat = x.toNat * 2 ^ 64) ∧
      (x.lt y = true ↔ x.toNat < y.toNat) ∧ (x.lte y = true ↔ x.toNat ≤ y.toNat) ∧
      (x.gt y = true ↔ y.toNat < x.toNat) ∧ (x.gte y = true ↔ y.toNat ≤ x.toNat) ∧
      (x.eq y = true ↔ x.toNat = y.toNat) ∧
      (x.getAddInverse.toNat + x.toNat) % 2 ^ 256 = 0 := by
  have hv := v.isLt
  have hn := n.isLt
  have hmul := toNat_mulU256 hv hn
  refine ⟨toNat_add x y, toNat_sub_mod x y, toNat_mul x y, hmul, mulU256Sums_lt hv hn, ?_,
    toNat_shiftLeft_mod x _, toNat_shiftRight_div x _, ?_, fun z hz => ?_, lt_iff x y, lte_iff x y,
    gt_iff x y, gte_iff x y, eq_iff x y, toNat_getAddInverse x⟩
  · rw [toNat_mul, toNat_new_zero hv, toNat_new_zero hn, hmul]
    refine (Nat.mod_eq_of_lt ?_).symm
    calc v.toNat * n.toNat < 2 ^ 128 * 2 ^ 128 := Nat.mul_lt_mul'' hv hn
      _ = 2 ^ 256 := by norm_num
  · constructor
    · intro hnone
      by_contra hlt
      have := checkedShiftWordLeft_eq_some.2 ⟨not_le.1 hlt, rfl⟩
      rw [hnone] at this
      cases this
    · intro hge
      cases hs : x.checkedShiftWordLeft with
      | none => rfl
      | some z => exact absurd (checkedShiftWordLeft_eq_some.1 hs).1 (not_lt.2 hge)
  · obtain ⟨hlt, rfl⟩ := checkedShiftWordLeft_eq_some.1 hz
    rw [toNat_shiftWordLeft, Nat.mod_eq_of_lt hlt]

end U256Muldiv

end NemoSwap
