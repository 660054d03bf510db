import NemoSwap.Lib.Radix
import NemoSwap.Math.U256

set_option relaxedAutoImplicit false
set_option autoImplicit false

/-!
# The word loops of `U256Muldiv` compute on naturals

Specifications of the operations of `NemoSwap.Math.U256` in terms of `U256Muldiv.toNat`, apart
from the division, which is in `NemoSwap.Math.U256Div`.

## Main results

* `NemoSwap.U256Muldiv.toNat_mulU256` — `mul_u256` is the exact product.
* `NemoSwap.U256Muldiv.toNat_add`, `toNat_sub` — addition and subtraction modulo `2 ^ 256`.
* `NemoSwap.U256Muldiv.checkedShiftWordLeft_eq_some`, `toNat_shiftLeft`, `toNat_shiftRight` —
  the shifts.
* `NemoSwap.U256Muldiv.lte_iff`, `tryIntoU128_eq_ok`, `isZero_iff` — the tests.
-/

namespace NemoSwap

/-- The low half of a number is one word. -/
lemma lo_lt (n : ℕ) : lo n < 2 ^ 64 := Nat.mod_lt _ (by positivity)

/-- The high half of a number is one word. -/
lemma hi_lt (n : ℕ) : hi n < 2 ^ 64 := Nat.mod_lt _ (by positivity)

/-- The two words of a `u128`. -/
lemma hi_mul_add_lo {n : ℕ} (h : n < 2 ^ 128) : hi n * 2 ^ 64 + lo n = n := by
  unfold hi lo
  omega

/-- Joining two words. -/
lemma hiLo_eq {h l : ℕ} (hl : l < 2 ^ 64) : hiLo h l = h * 2 ^ 64 + l := by
  unfold hiLo
  rw [← Nat.shiftLeft_add_eq_or_of_lt hl, Nat.shiftLeft_eq]

namespace U256Muldiv

/-! ## Words -/

/-- A word is below `2 ^ 64`. -/
theorem getWord_lt (x : U256Muldiv) (i : ℕ) : x.getWord i < 2 ^ 64 := by
  unfold getWord
  split_ifs
  · exact UInt64.toNat_lt _
  · positivity

/-- There are four words; all others read as zero. -/
lemma getWord_of_ge (x : U256Muldiv) {i : ℕ} (h : 4 ≤ i) : x.getWord i = 0 :=
  dif_neg (by omega)

/-- The words after an update: only the given one changes, to the value that fits in it. -/
theorem getWord_updateWord (x : U256Muldiv) (i v j : ℕ) :
    (x.updateWord i v).getWord j = if i = j ∧ j < 4 then v % 2 ^ 64 else x.getWord j := by
  by_cases hj : j < 4
  · by_cases hij : i = j
    · subst hij
      simp [getWord, updateWord, hj]
    · simp [getWord, updateWord, hj, hij]
  · simp [getWord, hj]

/-- The updated word. -/
@[simp] lemma getWord_updateWord_self (x : U256Muldiv) {i : ℕ} (v : ℕ) (h : i < 4) :
    (x.updateWord i v).getWord i = v % 2 ^ 64 := by
  rw [getWord_updateWord, if_pos ⟨rfl, h⟩]

/-- The other words stay. -/
lemma getWord_updateWord_of_ne (x : U256Muldiv) {i j : ℕ} (v : ℕ) (h : i ≠ j) :
    (x.updateWord i v).getWord j = x.getWord j := by
  rw [getWord_updateWord, if_neg (fun hc => h hc.1)]

/-- The number denoted by the words, as a sum of four terms. -/
lemma toNat_eq (x : U256Muldiv) :
    x.toNat = x.getWord 0 + x.getWord 1 * 2 ^ 64 + x.getWord 2 * 2 ^ 128 +
      x.getWord 3 * 2 ^ 192 := by
  simp only [toNat, Finset.sum_range_succ, Finset.sum_range_zero]
  ring

/-- The number of four words is their value in base `2 ^ 64`. -/
lemma toNat_eq_value (x : U256Muldiv) : x.toNat = Radix.value (2 ^ 64) x.getWord 4 := rfl

/-- Four words hold a number below `2 ^ 256`. -/
lemma toNat_lt (x : U256Muldiv) : x.toNat < 2 ^ 256 := by
  have h := Radix.value_lt (b := 2 ^ 64) (n := 4) fun i _ => x.getWord_lt i
  rw [toNat_eq_value]
  exact lt_of_lt_of_eq h (by norm_num)

/-- The words of a number that is built from two halves. -/
@[simp] theorem getWord_new (h l : ℕ) (i : ℕ) :
    (new h l).getWord i = match i with
      | 0 => lo l
      | 1 => hi l
      | 2 => lo h
      | 3 => hi h
      | _ => 0 := by
  have h0 : ∀ n, (UInt64.ofNat (lo n)).toNat = lo n := fun n => by
    rw [UInt64.toNat_ofNat']
    exact Nat.mod_eq_of_lt (lo_lt n)
  have h1 : ∀ n, (UInt64.ofNat (hi n)).toNat = hi n := fun n => by
    rw [UInt64.toNat_ofNat']
    exact Nat.mod_eq_of_lt (hi_lt n)
  match i with
  | 0 => exact h0 l
  | 1 => exact h1 l
  | 2 => exact h0 h
  | 3 => exact h1 h
  | i + 4 => rfl

/-- The number that is built from two halves. -/
theorem toNat_new {h l : ℕ} (hh : h < 2 ^ 128) (hl : l < 2 ^ 128) :
    (new h l).toNat = h * 2 ^ 128 + l := by
  have e1 := hi_mul_add_lo hh
  have e2 := hi_mul_add_lo hl
  simp only [toNat_eq, getWord_new]
  omega

/-- The number with a high half of zero is its low half. -/
@[simp] lemma toNat_new_zero {l : ℕ} (hl : l < 2 ^ 128) : (new 0 l).toNat = l := by
  rw [toNat_new (by positivity) hl]
  omega

/-! ## Number of words -/

/-- The words counted below an index are at most that many. -/
lemma numWordsBelow_le (x : U256Muldiv) : ∀ n, x.numWordsBelow n ≤ n
  | 0 => le_rfl
  | n + 1 => by
    unfold numWordsBelow
    split_ifs
    · exact le_rfl
    · exact (x.numWordsBelow_le n).trans (Nat.le_succ n)

/-- The words from the count on are zero. -/
lemma getWord_eq_zero_of_numWordsBelow_le (x : U256Muldiv) :
    ∀ n i, x.numWordsBelow n ≤ i → i < n → x.getWord i = 0
  | 0, i, _, h => absurd h (Nat.not_lt_zero i)
  | n + 1, i, h, hi => by
    unfold numWordsBelow at h
    split_ifs at h with h0
    · omega
    · rcases Nat.lt_succ_iff_lt_or_eq.1 hi with hlt | rfl
      · exact x.getWord_eq_zero_of_numWordsBelow_le n i h hlt
      · exact not_not.1 h0

/-- The word before the count is not zero. -/
lemma getWord_ne_zero_of_numWordsBelow (x : U256Muldiv) :
    ∀ n, x.numWordsBelow n ≠ 0 → x.getWord (x.numWordsBelow n - 1) ≠ 0
  | 0, h => absurd rfl h
  | n + 1, h => by
    unfold numWordsBelow at h ⊢
    split_ifs at h ⊢ with h0
    · exact h0
    · exact x.getWord_ne_zero_of_numWordsBelow n h

/-- There are at most four words. -/
lemma numWords_le (x : U256Muldiv) : x.numWords ≤ 4 := x.numWordsBelow_le 4

/-- Words from `num_words` on are zero. -/
lemma getWord_of_numWords_le (x : U256Muldiv) {i : ℕ} (h : x.numWords ≤ i) :
    x.getWord i = 0 := by
  rcases Nat.lt_or_ge i 4 with hi | hi
  · exact x.getWord_eq_zero_of_numWordsBelow_le 4 i h hi
  · exact x.getWord_of_ge hi

/-- The top word counted by `num_words` is nonzero. -/
lemma getWord_numWords_ne_zero (x : U256Muldiv) (h : x.numWords ≠ 0) :
    x.getWord (x.numWords - 1) ≠ 0 :=
  x.getWord_ne_zero_of_numWordsBelow 4 h

/-- A number of `num_words` words is its low part of that length. -/
theorem toNat_eq_value_numWords (x : U256Muldiv) :
    x.toNat = Radix.value (2 ^ 64) x.getWord x.numWords := by
  rw [toNat_eq_value]
  obtain ⟨k, hk⟩ := Nat.exists_eq_add_of_le x.numWords_le
  conv_lhs => rw [hk]
  exact Radix.value_eq_of_high_zero fun i _ => x.getWord_of_numWords_le (by omega)

/-- Only zero has no words. -/
theorem toNat_eq_zero_iff_numWords (x : U256Muldiv) : x.toNat = 0 ↔ x.numWords = 0 := by
  constructor
  · intro h
    by_contra hne
    have hw := x.getWord_numWords_ne_zero hne
    have hp := Radix.pow_le_value (b := 2 ^ 64) hw
    rw [Nat.sub_add_cancel (Nat.pos_of_ne_zero hne), ← toNat_eq_value_numWords, h] at hp
    have : 0 < (2 ^ 64) ^ (x.numWords - 1) := by positivity
    omega
  · intro h
    rw [toNat_eq_value_numWords, h, Radix.value_zero]

/-- A number of at most `n` words is below `(2 ^ 64) ^ n`. -/
lemma toNat_lt_of_numWords_le {x : U256Muldiv} {n : ℕ} (h : x.numWords ≤ n) :
    x.toNat < (2 ^ 64) ^ n := by
  rw [toNat_eq_value_numWords]
  exact lt_of_lt_of_le (Radix.value_lt fun i _ => x.getWord_lt i)
    (Nat.pow_le_pow_right (by norm_num) h)

/-- A number of more than `n` words is at least `(2 ^ 64) ^ n`. -/
lemma le_toNat_of_lt_numWords {x : U256Muldiv} {n : ℕ} (h : n < x.numWords) :
    (2 ^ 64) ^ n ≤ x.toNat := by
  have hp := Radix.pow_le_value (b := 2 ^ 64) (x.getWord_numWords_ne_zero (by omega))
  rw [Nat.sub_add_cancel (by omega), ← toNat_eq_value_numWords] at hp
  exact (Nat.pow_le_pow_right (by norm_num) (by omega)).trans hp

/-- `try_into_u128` succeeds exactly on values below `2 ^ 128`, and returns the value.

**Proof sketch.** The number of words is at most two exactly if the value is less than `2 ^ 128`,
and then the upper two words are zero. -/
theorem tryIntoU128_eq_ok {x : U256Muldiv} {n : ℕ} :
    x.tryIntoU128 = .ok n ↔ x.toNat < 2 ^ 128 ∧ x.toNat = n := by
  unfold tryIntoU128
  rw [ite_err_eq_ok, Except.ok.injEq, hiLo_eq (x.getWord_lt 0)]
  constructor
  · rintro ⟨hw, rfl⟩
    have h2 := x.getWord_of_numWords_le (i := 2) (by omega)
    have h3 := x.getWord_of_numWords_le (i := 3) (by omega)
    have b0 := x.getWord_lt 0
    have b1 := x.getWord_lt 1
    rw [toNat_eq, h2, h3]
    omega
  · rintro ⟨hlt, rfl⟩
    have hw : ¬x.numWords > 2 := fun h => by
      have := le_toNat_of_lt_numWords h
      omega
    have h2 := x.getWord_of_numWords_le (i := 2) (by omega)
    have h3 := x.getWord_of_numWords_le (i := 3) (by omega)
    rw [toNat_eq, h2, h3]
    exact ⟨hw, by omega⟩

/-- `try_into_u128` fails on values from `2 ^ 128` on. -/
lemma tryIntoU128_eq_err {x : U256Muldiv} (h : 2 ^ 128 ≤ x.toNat) :
    x.tryIntoU128 = err .NumberDownCastError := by
  refine if_pos (not_le.1 fun hw => ?_)
  have := toNat_lt_of_numWords_le (n := 2) hw
  omega

/-- `is_zero` tells whether the number is zero. -/
theorem isZero_iff (x : U256Muldiv) : x.isZero = true ↔ x.toNat = 0 := by
  have hl : List.range 4 = [0, 1, 2, 3] := rfl
  simp only [isZero, hl, List.all_cons, List.all_nil, Bool.and_true, Bool.and_eq_true,
    decide_eq_true_eq, toNat_eq]
  omega

/-! ## Comparison, addition, subtraction and multiplication -/

/-- The words below an index compare as their values do.

**Proof sketch.** Induction on the index. The highest word decides unless the two are equal, since
the value of the words below it is less than one unit of it. -/
theorem cmpBelow_eq (x y : U256Muldiv) : ∀ n, cmpBelow x y n =
    compare (Radix.value (2 ^ 64) x.getWord n) (Radix.value (2 ^ 64) y.getWord n)
  | 0 => by simp [cmpBelow]
  | n + 1 => by
    have hx := Radix.value_lt (b := 2 ^ 64) (n := n) fun i _ => x.getWord_lt i
    have hy := Radix.value_lt (b := 2 ^ 64) (n := n) fun i _ => y.getWord_lt i
    have ih := cmpBelow_eq x y n
    unfold cmpBelow
    rw [Radix.value_succ, Radix.value_succ]
    -- the top words decide unless they are equal
    rcases lt_trichotomy (x.getWord n) (y.getWord n) with h | h | h
    · have hm := Nat.mul_le_mul_right ((2 ^ 64) ^ n) (Nat.succ_le_of_lt h)
      rw [Nat.succ_mul] at hm
      rw [compare_lt_iff_lt.2 h, compare_lt_iff_lt.2 (by omega)]
    · rw [compare_eq_iff_eq.2 h, h]
      simp only [ih]
      rcases lt_trichotomy (Radix.value (2 ^ 64) x.getWord n)
        (Radix.value (2 ^ 64) y.getWord n) with h' | h' | h'
      · rw [compare_lt_iff_lt.2 h', compare_lt_iff_lt.2 (by omega)]
      · rw [compare_eq_iff_eq.2 h', compare_eq_iff_eq.2 (by omega)]
      · rw [compare_gt_iff_gt.2 h', compare_gt_iff_gt.2 (by omega)]
    · have hm := Nat.mul_le_mul_right ((2 ^ 64) ^ n) (Nat.succ_le_of_lt h)
      rw [Nat.succ_mul] at hm
      rw [compare_gt_iff_gt.2 h, compare_gt_iff_gt.2 (by omega)]

/-- `lte` is the order of the numbers. -/
theorem lte_iff (x y : U256Muldiv) : x.lte y = true ↔ x.toNat ≤ y.toNat := by
  unfold lte
  rw [cmpBelow_eq, ← toNat_eq_value, ← toNat_eq_value, bne_iff_ne, ne_eq, compare_gt_iff_gt]
  exact not_lt

/-- The loop over the four words. -/
lemma range_four : List.range 4 = [0, 1, 2, 3] := rfl

/-- Writing all four words. -/
lemma toNat_updateWords (x : U256Muldiv) {w0 w1 w2 w3 : ℕ} (h0 : w0 < 2 ^ 64)
    (h1 : w1 < 2 ^ 64) (h2 : w2 < 2 ^ 64) (h3 : w3 < 2 ^ 64) :
    ((((x.updateWord 0 w0).updateWord 1 w1).updateWord 2 w2).updateWord 3 w3).toNat =
      w0 + w1 * 2 ^ 64 + w2 * 2 ^ 128 + w3 * 2 ^ 192 := by
  rw [toNat_eq]
  simp only [getWord_updateWord_of_ne _ _ (show (3 : ℕ) ≠ 0 by decide),
    getWord_updateWord_of_ne _ _ (show (2 : ℕ) ≠ 0 by decide),
    getWord_updateWord_of_ne _ _ (show (1 : ℕ) ≠ 0 by decide),
    getWord_updateWord_of_ne _ _ (show (3 : ℕ) ≠ 1 by decide),
    getWord_updateWord_of_ne _ _ (show (2 : ℕ) ≠ 1 by decide),
    getWord_updateWord_of_ne _ _ (show (3 : ℕ) ≠ 2 by decide),
    getWord_updateWord_self _ _ (show 0 < 4 by decide),
    getWord_updateWord_self _ _ (show 1 < 4 by decide),
    getWord_updateWord_self _ _ (show 2 < 4 by decide),
    getWord_updateWord_self _ _ (show 3 < 4 by decide), Nat.mod_eq_of_lt h0, Nat.mod_eq_of_lt h1,
    Nat.mod_eq_of_lt h2, Nat.mod_eq_of_lt h3]

/-- `add` is addition modulo `2 ^ 256`. -/
theorem toNat_add (x y : U256Muldiv) : (x.add y).toNat = (x.toNat + y.toNat) % 2 ^ 256 := by
  have hx := x.getWord_lt
  have hy := y.getWord_lt
  have x0 := hx 0; have x1 := hx 1; have x2 := hx 2; have x3 := hx 3
  have y0 := hy 0; have y1 := hy 1; have y2 := hy 2; have y3 := hy 3
  simp only [add, range_four, List.foldl_cons, List.foldl_nil]
  rw [toNat_updateWords _ (lo_lt _) (lo_lt _) (lo_lt _) (lo_lt _), toNat_eq x, toNat_eq y]
  simp only [lo, hi]
  omega

/-- The words of `sub` denote the difference, up to the last borrow.

**Proof sketch.** One word is subtracted with the borrow of the word before it, and the four
equations add up with the powers of `2 ^ 64`; the borrow of the last word is the one of the
result. -/
theorem toNat_sub_borrow (x y : U256Muldiv) :
    ∃ c ≤ 1, x.toNat + c * 2 ^ 256 = (x.sub y).toNat + y.toNat := by
  have hstep : ∀ a b c : ℕ, a < 2 ^ 64 → b < 2 ^ 64 → c ≤ 1 → ∃ w c' : ℕ, w < 2 ^ 64 ∧ c' ≤ 1 ∧
      wrappingSub 64 (wrappingSub 64 a b) c = w ∧
      (if (decide (a < b) || decide (wrappingSub 64 a b < c)) = true then 1 else 0) = c' ∧
      a + c' * 2 ^ 64 = w + b + c := by
    intro a b c ha hb hc
    have hw : wrappingSub 64 a b = (a + 2 ^ 64 - b) % 2 ^ 64 := by
      unfold wrappingSub
      rw [Nat.mod_eq_of_lt hb]
    refine ⟨_, _, wrappingSub_lt 64 _ c, ?_, rfl, rfl, ?_⟩
    · split_ifs <;> omega
    · simp only [Bool.or_eq_true, decide_eq_true_eq]
      rw [hw]
      unfold wrappingSub
      split_ifs <;> omega
  have hx := x.getWord_lt
  have hy := y.getWord_lt
  obtain ⟨w0, c0, bw0, bc0, e0, f0, s0⟩ := hstep _ _ 0 (hx 0) (hy 0) (by omega)
  obtain ⟨w1, c1, bw1, bc1, e1, f1, s1⟩ := hstep _ _ c0 (hx 1) (hy 1) bc0
  obtain ⟨w2, c2, bw2, bc2, e2, f2, s2⟩ := hstep _ _ c1 (hx 2) (hy 2) bc1
  obtain ⟨w3, c3, bw3, bc3, e3, f3, s3⟩ := hstep _ _ c2 (hx 3) (hy 3) bc2
  simp only [sub, range_four, List.foldl_cons, List.foldl_nil, e0, f0, e1, f1, e2, f2, e3]
  rw [toNat_updateWords _ bw0 bw1 bw2 bw3, toNat_eq x, toNat_eq y]
  exact ⟨c3, bc3, by omega⟩

/-- `sub` is subtraction modulo `2 ^ 256`; without an underflow it is the difference. -/
theorem toNat_sub {x y : U256Muldiv} (h : y.toNat ≤ x.toNat) :
    (x.sub y).toNat = x.toNat - y.toNat := by
  obtain ⟨c, hc, he⟩ := toNat_sub_borrow x y
  have hlt := x.toNat_lt
  have hlt' := (x.sub y).toNat_lt
  omega

/-- `mul_u256` is the exact product of two `u128` values.

**Proof sketch.** The product of the halves is expanded. Every partial product and the middle sum is
split into its two words, and recombined in the places where the code puts them. -/
theorem toNat_mulU256 {v n : ℕ} (hv : v < 2 ^ 128) (hn : n < 2 ^ 128) :
    (mulU256 v n).toNat = v * n := by
  have ev := hi_mul_add_lo hv
  have en := hi_mul_add_lo hn
  have b1 := lo_lt v; have b2 := hi_lt v; have b3 := lo_lt n; have b4 := hi_lt n
  have hprod : ∀ a b : ℕ, a < 2 ^ 64 → b < 2 ^ 64 → a * b ≤ (2 ^ 64 - 1) * (2 ^ 64 - 1) :=
    fun a b ha hb => Nat.mul_le_mul (by omega) (by omega)
  have p00 := hprod _ _ b1 b3; have p01 := hprod _ _ b1 b4
  have p10 := hprod _ _ b2 b3; have p11 := hprod _ _ b2 b4
  have hexp : v * n = hi v * hi n * 2 ^ 128 + (lo v * hi n + hi v * lo n) * 2 ^ 64 +
      lo v * lo n := by
    conv_lhs => rw [← ev, ← en]
    ring
  have hle : v * n ≤ (2 ^ 128 - 1) * (2 ^ 128 - 1) := Nat.mul_le_mul (by omega) (by omega)
  rw [hexp] at hle ⊢
  simp only [mulU256]
  generalize lo v * lo n = a at *
  generalize lo v * hi n = b at *
  generalize hi v * lo n = c at *
  generalize hi v * hi n = d at *
  -- split every product and the middle sum into words, and recombine
  have ea := hi_mul_add_lo (n := a) (by omega)
  have eb := hi_mul_add_lo (n := b) (by omega)
  have ec := hi_mul_add_lo (n := c) (by omega)
  have la := lo_lt a; have lb := lo_lt b; have lc := lo_lt c; have ha := hi_lt a
  have em := hi_mul_add_lo (n := hi a + lo b + lo c) (by omega)
  have lm := lo_lt (hi a + lo b + lo c)
  generalize lo (hi a + lo b + lo c) = ml at *
  generalize hi (hi a + lo b + lo c) = mh at *
  have hh : d + mh + hi b + hi c < 2 ^ 128 := by omega
  have hl : ml * 2 ^ 64 + lo a < 2 ^ 128 := by omega
  rw [hiLo_eq la, toNat_new hh hl]
  linarith only [ea, eb, ec, em]

/-! ## Shifts -/

/-- A shift by one word to the left moves every word up by one. -/
lemma getWord_shiftWordLeft (x : U256Muldiv) (i : ℕ) (h : i < 4) :
    x.shiftWordLeft.getWord i = if i = 0 then 0 else x.getWord (i - 1) := by
  have hx := fun i => Nat.mod_eq_of_lt (x.getWord_lt i)
  norm_num at hx
  interval_cases i <;> simp [shiftWordLeft, getWord_updateWord, hx, lo]

/-- `shift_word_left` multiplies by `2 ^ 64` modulo `2 ^ 256`. -/
theorem toNat_shiftWordLeft (x : U256Muldiv) :
    x.shiftWordLeft.toNat = x.toNat * 2 ^ 64 % 2 ^ 256 := by
  have hx := x.getWord_lt
  have x0 := hx 0; have x1 := hx 1; have x2 := hx 2; have x3 := hx 3
  simp only [toNat_eq, getWord_shiftWordLeft _ _ (show 0 < 4 by omega),
    getWord_shiftWordLeft _ _ (show 1 < 4 by omega),
    getWord_shiftWordLeft _ _ (show 2 < 4 by omega),
    getWord_shiftWordLeft _ _ (show 3 < 4 by omega), if_true, one_ne_zero, OfNat.ofNat_ne_zero,
    if_false, Nat.sub_self, Nat.reduceSub]
  omega

/-- `checked_shift_word_left` succeeds exactly when no bit is lost. -/
theorem checkedShiftWordLeft_eq_some {x y : U256Muldiv} :
    x.checkedShiftWordLeft = some y ↔ x.toNat * 2 ^ 64 < 2 ^ 256 ∧ y = x.shiftWordLeft := by
  have x0 := x.getWord_lt 0; have x1 := x.getWord_lt 1; have x2 := x.getWord_lt 2
  unfold checkedShiftWordLeft
  rw [toNat_eq]
  split_ifs with h
  · simp only [false_iff, not_and]
    omega
  · simp only [Option.some.injEq, eq_comm (a := y), iff_and_self]
    omega

/-- A shift by one word to the right moves every word down by one. -/
lemma getWord_shiftWordRight (x : U256Muldiv) (i : ℕ) (h : i < 4) :
    x.shiftWordRight.getWord i = x.getWord (i + 1) := by
  have hx := fun i => Nat.mod_eq_of_lt (x.getWord_lt i)
  norm_num at hx
  have h4 := x.getWord_of_ge (i := 4) le_rfl
  interval_cases i <;> simp [shiftWordRight, getWord_updateWord, hx, hi, h4]

/-- `shift_word_right` divides by `2 ^ 64`. -/
lemma toNat_shiftWordRight (x : U256Muldiv) : x.shiftWordRight.toNat = x.toNat / 2 ^ 64 := by
  have x0 := x.getWord_lt 0; have x1 := x.getWord_lt 1; have x2 := x.getWord_lt 2
  have x4 := x.getWord_of_ge (i := 4) le_rfl
  simp only [toNat_eq, getWord_shiftWordRight _ _ (show 0 < 4 by omega),
    getWord_shiftWordRight _ _ (show 1 < 4 by omega),
    getWord_shiftWordRight _ _ (show 2 < 4 by omega),
    getWord_shiftWordRight _ _ (show 3 < 4 by omega), Nat.reduceAdd, zero_add, x4]
  omega

/-- Shifting by words to the left multiplies by a power of `2 ^ 64`, up to `2 ^ 256`. -/
lemma toNat_iterate_shiftWordLeft (x : U256Muldiv) (k : ℕ) :
    (shiftWordLeft^[k] x).toNat = x.toNat * (2 ^ 64) ^ k % 2 ^ 256 := by
  induction k with
  | zero => simpa using (Nat.mod_eq_of_lt x.toNat_lt).symm
  | succ k ih =>
    rw [Function.iterate_succ_apply', toNat_shiftWordLeft, ih, Nat.mod_mul_mod, pow_succ]
    congr 1
    ring

/-- Shifting by words to the right divides by a power of `2 ^ 64`. -/
lemma toNat_iterate_shiftWordRight (x : U256Muldiv) (k : ℕ) :
    (shiftWordRight^[k] x).toNat = x.toNat / (2 ^ 64) ^ k := by
  induction k with
  | zero => simp
  | succ k ih =>
    rw [Function.iterate_succ_apply', toNat_shiftWordRight, ih, Nat.div_div_eq_div_mul,
      pow_succ (2 ^ 64) k]

/-! ### Shifts by less than a word

With `p = 2 ^ s` and `q = 2 ^ (64 - s)`, a word `w = h * q + l` shifted left is `l * p`, and its
high part `h` moves to the next word. -/

/-- One word of a left shift, as its low part scaled up. -/
lemma shiftLeft_mod_word {a s : ℕ} (hs : s < 64) :
    (a <<< s) % 2 ^ 64 = a % 2 ^ (64 - s) * 2 ^ s := by
  have hpq : 2 ^ (64 - s) * 2 ^ s = 2 ^ 64 := by rw [← pow_add, Nat.sub_add_cancel hs.le]
  rw [Nat.shiftLeft_eq, ← hpq, Nat.mul_mod_mul_right]

/-- Joining a shifted word with the bits of its lower neighbour. -/
lemma or_eq_add_of_shift (a : ℕ) {b s : ℕ} (hb : b < 2 ^ 64) (hs : s < 64) :
    (a * 2 ^ s ||| b >>> (64 - s)) = a * 2 ^ s + b / 2 ^ (64 - s) := by
  have hlt : b / 2 ^ (64 - s) < 2 ^ s := by
    rw [Nat.div_lt_iff_lt_mul (by positivity), ← pow_add, Nat.add_sub_of_le hs.le]
    exact hb
  rw [Nat.shiftRight_eq_div_pow, ← Nat.shiftLeft_eq, ← Nat.shiftLeft_add_eq_or_of_lt hlt]

/-- The pair of parts of a word at a bit position, with its bounds. -/
lemma word_parts {w s : ℕ} (hw : w < 2 ^ 64) (hs : s < 64) :
    w / 2 ^ (64 - s) < 2 ^ s ∧ w % 2 ^ (64 - s) * 2 ^ s + 2 ^ s ≤ 2 ^ 64 ∧
      w = w / 2 ^ (64 - s) * 2 ^ (64 - s) + w % 2 ^ (64 - s) := by
  have hpq : 2 ^ (64 - s) * 2 ^ s = 2 ^ 64 := by rw [← pow_add, Nat.sub_add_cancel hs.le]
  refine ⟨?_, ?_, by rw [Nat.div_add_mod']⟩
  · rw [Nat.div_lt_iff_lt_mul (by positivity), mul_comm, hpq]
    exact hw
  · rw [← Nat.succ_mul, ← hpq]
    exact Nat.mul_le_mul_right _ (Nat.mod_lt _ (by positivity))

/-- `shift_left` multiplies by a power of two modulo `2 ^ 256`.

**Proof sketch.** The shift is one by whole words and one by bits. A word shifted by bits is split
at the bit where its upper part moves into the next word, and `or` joins parts that do not
overlap. -/
theorem toNat_shiftLeft (x : U256Muldiv) {k : ℕ} (hk : k < 256) :
    (x.shiftLeft k).toNat = x.toNat * 2 ^ k % 2 ^ 256 := by
  have hsplit : (2 : ℕ) ^ k = (2 ^ 64) ^ (k / 64) * 2 ^ (k % 64) := by
    rw [← pow_mul, ← pow_add, Nat.div_add_mod]
  have hs : k % 64 < 64 := Nat.mod_lt _ (by decide)
  have hiter := toNat_iterate_shiftWordLeft x (k / 64)
  unfold shiftLeft
  rw [if_neg (by omega)]
  simp only []
  generalize shiftWordLeft^[k / 64] x = y at *
  rw [hsplit, ← mul_assoc, ← Nat.mod_mul_mod, ← hiter]
  generalize k % 64 = s at *
  split_ifs with h0
  · rw [h0, pow_zero, mul_one, Nat.mod_eq_of_lt y.toNat_lt]
  · have hw := y.getWord_lt
    obtain ⟨p0, r0, e0⟩ := word_parts (hw 0) hs
    obtain ⟨p1, r1, e1⟩ := word_parts (hw 1) hs
    obtain ⟨p2, r2, e2⟩ := word_parts (hw 2) hs
    obtain ⟨p3, r3, e3⟩ := word_parts (hw 3) hs
    have hp : 0 < 2 ^ s := by positivity
    have q0 : y.getWord 0 % 2 ^ (64 - s) * 2 ^ s < 2 ^ 64 := by omega
    have q1 : y.getWord 1 % 2 ^ (64 - s) * 2 ^ s + y.getWord 0 / 2 ^ (64 - s) < 2 ^ 64 := by omega
    have q2 : y.getWord 2 % 2 ^ (64 - s) * 2 ^ s + y.getWord 1 / 2 ^ (64 - s) < 2 ^ 64 := by omega
    have q3 : y.getWord 3 % 2 ^ (64 - s) * 2 ^ s + y.getWord 2 / 2 ^ (64 - s) < 2 ^ 64 := by omega
    have hpq : 2 ^ (64 - s) * 2 ^ s = 2 ^ 64 := by rw [← pow_add, Nat.sub_add_cancel hs.le]
    have hval : (([3, 2, 1].foldl (fun r i => r.updateWord i ((r.getWord i <<< s) % 2 ^ 64 |||
        r.getWord (i - 1) >>> (64 - s))) y).updateWord 0
        ((([3, 2, 1].foldl (fun r i => r.updateWord i ((r.getWord i <<< s) % 2 ^ 64 |||
        r.getWord (i - 1) >>> (64 - s))) y).getWord 0 <<< s) % 2 ^ 64)).toNat =
        y.getWord 0 % 2 ^ (64 - s) * 2 ^ s +
        (y.getWord 1 % 2 ^ (64 - s) * 2 ^ s + y.getWord 0 / 2 ^ (64 - s)) * 2 ^ 64 +
        (y.getWord 2 % 2 ^ (64 - s) * 2 ^ s + y.getWord 1 / 2 ^ (64 - s)) * 2 ^ 128 +
        (y.getWord 3 % 2 ^ (64 - s) * 2 ^ s + y.getWord 2 / 2 ^ (64 - s)) * 2 ^ 192 := by
      simp only [List.foldl_cons, List.foldl_nil, Nat.reduceSub, Nat.sub_self]
      rw [toNat_eq]
      simp only [getWord_updateWord_of_ne _ _ (show (0 : ℕ) ≠ 3 by decide),
        getWord_updateWord_of_ne _ _ (show (0 : ℕ) ≠ 2 by decide),
        getWord_updateWord_of_ne _ _ (show (0 : ℕ) ≠ 1 by decide),
        getWord_updateWord_of_ne _ _ (show (1 : ℕ) ≠ 3 by decide),
        getWord_updateWord_of_ne _ _ (show (1 : ℕ) ≠ 2 by decide),
        getWord_updateWord_of_ne _ _ (show (2 : ℕ) ≠ 3 by decide),
        getWord_updateWord_of_ne _ _ (show (1 : ℕ) ≠ 0 by decide),
        getWord_updateWord_of_ne _ _ (show (2 : ℕ) ≠ 0 by decide),
        getWord_updateWord_of_ne _ _ (show (3 : ℕ) ≠ 0 by decide),
        getWord_updateWord_of_ne _ _ (show (2 : ℕ) ≠ 1 by decide),
        getWord_updateWord_of_ne _ _ (show (3 : ℕ) ≠ 1 by decide),
        getWord_updateWord_of_ne _ _ (show (3 : ℕ) ≠ 2 by decide),
        getWord_updateWord_self _ _ (show 0 < 4 by decide),
        getWord_updateWord_self _ _ (show 1 < 4 by decide),
        getWord_updateWord_self _ _ (show 2 < 4 by decide),
        getWord_updateWord_self _ _ (show 3 < 4 by decide),
        shiftLeft_mod_word hs, or_eq_add_of_shift _ (hw 2) hs, or_eq_add_of_shift _ (hw 1) hs,
        or_eq_add_of_shift _ (hw 0) hs]
      rw [Nat.mod_eq_of_lt q0, Nat.mod_eq_of_lt q1, Nat.mod_eq_of_lt q2, Nat.mod_eq_of_lt q3]
    have hmul : y.toNat * 2 ^ s = (y.getWord 0 % 2 ^ (64 - s) * 2 ^ s +
        (y.getWord 1 % 2 ^ (64 - s) * 2 ^ s + y.getWord 0 / 2 ^ (64 - s)) * 2 ^ 64 +
        (y.getWord 2 % 2 ^ (64 - s) * 2 ^ s + y.getWord 1 / 2 ^ (64 - s)) * 2 ^ 128 +
        (y.getWord 3 % 2 ^ (64 - s) * 2 ^ s + y.getWord 2 / 2 ^ (64 - s)) * 2 ^ 192) +
        2 ^ 256 * (y.getWord 3 / 2 ^ (64 - s)) := by
      have hparts : ∀ i, y.getWord i * 2 ^ s =
          y.getWord i / 2 ^ (64 - s) * 2 ^ 64 + y.getWord i % 2 ^ (64 - s) * 2 ^ s := fun i => by
        conv_lhs => rw [← Nat.div_add_mod' (y.getWord i) (2 ^ (64 - s))]
        rw [add_mul, mul_assoc, hpq]
      have f0 := hparts 0; have f1 := hparts 1; have f2 := hparts 2; have f3 := hparts 3
      rw [toNat_eq]
      linear_combination f0 + 2 ^ 64 * f1 + 2 ^ 128 * f2 + 2 ^ 192 * f3
    rw [hval, hmul, Nat.add_mul_mod_self_left]
    exact (Nat.mod_eq_of_lt (hval ▸ toNat_lt _)).symm

/-- One word of a right shift joined with the bits of its upper neighbour. -/
lemma or_eq_add_of_shiftRight {a b s : ℕ} (ha : a < 2 ^ 64) (hs : s < 64) :
    (a / 2 ^ s ||| (b <<< (64 - s)) % 2 ^ 64) = a / 2 ^ s + b % 2 ^ s * 2 ^ (64 - s) := by
  have hpq : 2 ^ s * 2 ^ (64 - s) = 2 ^ 64 := by rw [← pow_add, Nat.add_sub_of_le hs.le]
  have hlt : a / 2 ^ s < 2 ^ (64 - s) := by
    rw [Nat.div_lt_iff_lt_mul (by positivity), mul_comm, hpq]
    exact ha
  have hmod : (b <<< (64 - s)) % 2 ^ 64 = (b % 2 ^ s) <<< (64 - s) := by
    rw [Nat.shiftLeft_eq, Nat.shiftLeft_eq, ← hpq, Nat.mul_mod_mul_right]
  rw [hmod, Nat.lor_comm, ← Nat.shiftLeft_add_eq_or_of_lt hlt, Nat.shiftLeft_eq, add_comm]

/-- `shift_right` divides by a power of two.

**Proof sketch.** As for the shift to the left, with the parts of a word seen from the other
side. -/
theorem toNat_shiftRight (x : U256Muldiv) {k : ℕ} (hk : k < 256) :
    (x.shiftRight k).toNat = x.toNat / 2 ^ k := by
  have hsplit : (2 : ℕ) ^ k = (2 ^ 64) ^ (k / 64) * 2 ^ (k % 64) := by
    rw [← pow_mul, ← pow_add, Nat.div_add_mod]
  have hs : k % 64 < 64 := Nat.mod_lt _ (by decide)
  have hiter := toNat_iterate_shiftWordRight x (k / 64)
  unfold shiftRight
  rw [if_neg (by omega)]
  simp only []
  generalize shiftWordRight^[k / 64] x = y at *
  rw [hsplit, ← Nat.div_div_eq_div_mul, ← hiter]
  generalize k % 64 = s at *
  split_ifs with h0
  · rw [h0, pow_zero, Nat.div_one]
  · have hw := y.getWord_lt
    have hpq : 2 ^ s * 2 ^ (64 - s) = 2 ^ 64 := by rw [← pow_add, Nat.add_sub_of_le hs.le]
    -- the parts of a word at bit `s`, seen from the other side
    have hparts : ∀ i, y.getWord i / 2 ^ s + y.getWord (i + 1) % 2 ^ s * 2 ^ (64 - s) <
        2 ^ 64 := fun i => by
      have h1 : y.getWord i / 2 ^ s < 2 ^ (64 - s) := by
        rw [Nat.div_lt_iff_lt_mul (by positivity), mul_comm, hpq]
        exact hw i
      have h2 := Nat.mul_le_mul_right (2 ^ (64 - s))
        (Nat.succ_le_of_lt (Nat.mod_lt (y.getWord (i + 1)) (show 0 < 2 ^ s by positivity)))
      rw [Nat.succ_mul, hpq] at h2
      omega
    have r0 : y.getWord 0 / 2 ^ s + y.getWord 1 % 2 ^ s * 2 ^ (64 - s) < 2 ^ 64 := hparts 0
    have r1 : y.getWord 1 / 2 ^ s + y.getWord 2 % 2 ^ s * 2 ^ (64 - s) < 2 ^ 64 := hparts 1
    have r2 : y.getWord 2 / 2 ^ s + y.getWord 3 % 2 ^ s * 2 ^ (64 - s) < 2 ^ 64 := hparts 2
    have r3 : y.getWord 3 / 2 ^ s < 2 ^ 64 := lt_of_le_of_lt (Nat.div_le_self _ _) (hw 3)
    have hval : (([0, 1, 2].foldl (fun r i => r.updateWord i (r.getWord i >>> s |||
        (r.getWord (i + 1) <<< (64 - s)) % 2 ^ 64)) y).updateWord 3
        (([0, 1, 2].foldl (fun r i => r.updateWord i (r.getWord i >>> s |||
        (r.getWord (i + 1) <<< (64 - s)) % 2 ^ 64)) y).getWord 3 >>> s)).toNat =
        y.getWord 0 / 2 ^ s + y.getWord 1 % 2 ^ s * 2 ^ (64 - s) +
        (y.getWord 1 / 2 ^ s + y.getWord 2 % 2 ^ s * 2 ^ (64 - s)) * 2 ^ 64 +
        (y.getWord 2 / 2 ^ s + y.getWord 3 % 2 ^ s * 2 ^ (64 - s)) * 2 ^ 128 +
        y.getWord 3 / 2 ^ s * 2 ^ 192 := by
      simp only [List.foldl_cons, List.foldl_nil, Nat.reduceAdd, zero_add]
      rw [toNat_eq]
      simp only [getWord_updateWord_of_ne _ _ (show (0 : ℕ) ≠ 3 by decide),
        getWord_updateWord_of_ne _ _ (show (0 : ℕ) ≠ 2 by decide),
        getWord_updateWord_of_ne _ _ (show (0 : ℕ) ≠ 1 by decide),
        getWord_updateWord_of_ne _ _ (show (1 : ℕ) ≠ 3 by decide),
        getWord_updateWord_of_ne _ _ (show (1 : ℕ) ≠ 2 by decide),
        getWord_updateWord_of_ne _ _ (show (2 : ℕ) ≠ 3 by decide),
        getWord_updateWord_of_ne _ _ (show (1 : ℕ) ≠ 0 by decide),
        getWord_updateWord_of_ne _ _ (show (2 : ℕ) ≠ 0 by decide),
        getWord_updateWord_of_ne _ _ (show (3 : ℕ) ≠ 0 by decide),
        getWord_updateWord_of_ne _ _ (show (2 : ℕ) ≠ 1 by decide),
        getWord_updateWord_of_ne _ _ (show (3 : ℕ) ≠ 1 by decide),
        getWord_updateWord_of_ne _ _ (show (3 : ℕ) ≠ 2 by decide),
        getWord_updateWord_self _ _ (show 0 < 4 by decide),
        getWord_updateWord_self _ _ (show 1 < 4 by decide),
        getWord_updateWord_self _ _ (show 2 < 4 by decide),
        getWord_updateWord_self _ _ (show 3 < 4 by decide),
        or_eq_add_of_shiftRight (hw 0) hs, or_eq_add_of_shiftRight (hw 1) hs,
        or_eq_add_of_shiftRight (hw 2) hs, Nat.shiftRight_eq_div_pow]
      rw [Nat.mod_eq_of_lt r0, Nat.mod_eq_of_lt r1, Nat.mod_eq_of_lt r2, Nat.mod_eq_of_lt r3]
    have hdm : ∀ i, y.getWord i = 2 ^ s * (y.getWord i / 2 ^ s) + y.getWord i % 2 ^ s := fun i =>
      (Nat.div_add_mod _ _).symm
    have f0 := hdm 0; have f1 := hdm 1; have f2 := hdm 2; have f3 := hdm 3
    rw [hval, eq_comm, Nat.div_eq_iff (by positivity), toNat_eq]
    have hl := Nat.mod_lt (y.getWord 0) (show 0 < 2 ^ s by positivity)
    have hx : y.getWord 0 + y.getWord 1 * 2 ^ 64 + y.getWord 2 * 2 ^ 128 + y.getWord 3 * 2 ^ 192 =
        (y.getWord 0 / 2 ^ s + y.getWord 1 % 2 ^ s * 2 ^ (64 - s) +
        (y.getWord 1 / 2 ^ s + y.getWord 2 % 2 ^ s * 2 ^ (64 - s)) * 2 ^ 64 +
        (y.getWord 2 / 2 ^ s + y.getWord 3 % 2 ^ s * 2 ^ (64 - s)) * 2 ^ 128 +
        y.getWord 3 / 2 ^ s * 2 ^ 192) * 2 ^ s + y.getWord 0 % 2 ^ s := by
      linear_combination f0 + 2 ^ 64 * f1 + 2 ^ 128 * f2 + 2 ^ 192 * f3 -
        (y.getWord 1 % 2 ^ s + y.getWord 2 % 2 ^ s * 2 ^ 64 + y.getWord 3 % 2 ^ s * 2 ^ 128) * hpq
    rw [hx]
    exact ⟨Nat.le_add_right _ _, by omega⟩

end U256Muldiv

end NemoSwap
