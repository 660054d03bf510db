import NemoSwap.Math.U256Arith

set_option relaxedAutoImplicit false
set_option autoImplicit false

/-!
# The hand-written long division is exact

`U256Muldiv::div` is schoolbook division with a normalised divisor, an extra carry word for a
dividend whose normalisation needs a fifth word, and an estimated quotient digit that is
corrected and, rarely, added back. Whenever it returns, quotient and remainder are the exact
ones. (It does not always return: the add-back step panics when the carry word is in use.)

## Main results

* `NemoSwap.U256Muldiv.divLoop_spec` — one step removes one quotient digit from the window.
* `NemoSwap.U256Muldiv.div_eq_ok` — quotient and remainder of a division that returns.

## Implementation notes

The dividend and its carry word are read as one five-digit number, `digits`; the window of
step `index` is the `n + 1` digits from `index` on, `n` being the number of words of the
divisor.
-/

namespace NemoSwap

namespace U256Muldiv

open Radix

/-! ## The corrected estimate -/

/-- The loop that corrects the estimate keeps it an upper bound of the quotient digit `q`, and
ends at a digit that passes the three-digit test.

**Proof sketch.** Induction on the number of corrections. As long as the test fails, the estimate is
too large by hypothesis, so one less is still an upper bound; the remainder grows by the top digit,
and when it no longer fits in a word the test cannot fail again. -/
theorem correctQhat_spec {d1 d1' d u' q : ℕ} (hd1 : d1 < 2 ^ 64) (hd1' : d1' < 2 ^ 64)
    (hu' : u' < 2 ^ 64) (hd : d < (d1 + 1) * 2 ^ 64) (hqb : q < 2 ^ 64)
    (hdec : ∀ a r, d = a * d1 + r → r * 2 ^ 64 + u' < a * d1' → q ≤ a → q < a) :
    ∀ fuel qhat rhat qh, d = qhat * d1 + rhat → rhat < 2 ^ 64 → qhat * d1' < 2 ^ 128 →
      qhat < 2 ^ 128 → q ≤ qhat →
      correctQhat d1 d1' fuel qhat rhat (hiLo (lo rhat) u') (qhat * d1') = .ok qh →
      ∃ rh, d = qh * d1 + rh ∧ qh < 2 ^ 64 ∧ qh * d1' ≤ rh * 2 ^ 64 + u' ∧ q ≤ qh
  | 0, _, _, _, _, _, _, _, _, h => by simp [correctQhat] at h
  | fuel + 1, qhat, rhat, qh, hdiv, hr, hc, hq128, hle, h => by
    have hlo : lo rhat = rhat := Nat.mod_eq_of_lt hr
    have hcmp : hiLo (lo rhat) u' = rhat * 2 ^ 64 + u' := by rw [hlo, hiLo_eq hu']
    have hlou : lo (hiLo (lo rhat) u') = u' := by
      rw [hcmp]
      unfold lo
      omega
    unfold correctQhat at h
    rw [hlou] at h
    split_ifs at h with htest
    · -- the test fails: the estimate is lowered by one
      have hlt : q < qhat := by
        rcases htest with hhi | hcmp2
        · have : 2 ^ 64 ≤ qhat := by
            by_contra hcon
            exact hhi (by unfold hi; omega)
          omega
        · rw [hcmp] at hcmp2
          exact hdec qhat rhat hdiv hcmp2 hle
      have e1 : wrappingSub 128 qhat 1 = qhat - 1 := wrappingSub_of_le hq128 (by omega)
      have e2 : wrappingAdd 128 rhat d1 = rhat + d1 := wrappingAdd_of_lt (by omega)
      have hmul : qhat * d1' = (qhat - 1) * d1' + d1' := by
        rw [← Nat.succ_mul, Nat.succ_eq_add_one, Nat.sub_add_cancel (by omega)]
      have e3 : wrappingSub 128 (qhat * d1') d1' = (qhat - 1) * d1' := by
        rw [wrappingSub_of_le hc (by omega), hmul]
        omega
      have hdiv' : d = (qhat - 1) * d1 + (rhat + d1) := by
        rw [hdiv]
        have : qhat * d1 = (qhat - 1) * d1 + d1 := by
          rw [← Nat.succ_mul, Nat.succ_eq_add_one, Nat.sub_add_cancel (by omega)]
        omega
      simp only [e1, e2, e3] at h
      split_ifs at h with hbreak
      · -- the remainder estimate exceeds a word, so the test would pass
        rw [Except.ok.injEq] at h
        subst h
        have hrb : 2 ^ 64 ≤ rhat + d1 := by
          by_contra hcon
          exact hbreak (by unfold hi; omega)
        have hqh : qhat - 1 < 2 ^ 64 := by
          by_contra hcon
          have hm := Nat.mul_le_mul_right d1 (not_lt.1 hcon)
          have hd2 : d < 2 ^ 64 * d1 + 2 ^ 64 := by linarith only [hd]
          linarith only [hd2, hm, hdiv', hrb]
        refine ⟨rhat + d1, hdiv', hqh, ?_, by omega⟩
        calc (qhat - 1) * d1' ≤ 2 ^ 64 * 2 ^ 64 := Nat.mul_le_mul hqh.le hd1'.le
          _ ≤ (rhat + d1) * 2 ^ 64 := Nat.mul_le_mul_right _ hrb
          _ ≤ (rhat + d1) * 2 ^ 64 + u' := Nat.le_add_right _ _
      · have hrb : rhat + d1 < 2 ^ 64 := by
          by_contra hcon
          exact hbreak (by unfold hi; omega)
        exact correctQhat_spec hd1 hd1' hu' hd hqb hdec fuel (qhat - 1) (rhat + d1) qh hdiv' hrb
          (by omega) (by omega) (by omega) h
    · rw [Except.ok.injEq] at h
      subst h
      rw [not_or, not_not, not_lt, hcmp] at htest
      obtain ⟨hhi, hle'⟩ := htest
      refine ⟨rhat, hdiv, ?_, hle', hle⟩
      unfold hi at hhi
      omega

/-! ## Subtracting a multiple of the divisor, and adding it back -/

/-- One word of the multiply-and-subtract loop.

**Proof sketch.** By how often the word must borrow, which is not at all, once or twice. In each
case the wrapped differences and the arithmetic shift of the code are computed. -/
lemma mulSub_word {x k p : ℕ} (hx : x < 2 ^ 64) (hk : k < 2 ^ 64)
    (hp : p ≤ (2 ^ 64 - 1) * (2 ^ 64 - 1)) :
    x + wrappingSub 64 (hi p) (hi (wrappingSub 128 (wrappingSub 128 x k) (lo p))) * 2 ^ 64 =
      lo (wrappingSub 128 (wrappingSub 128 x k) (lo p)) + k + p := by
  have ep := hi_mul_add_lo (n := p) (by omega)
  have hlp := lo_lt p
  generalize hi p = ph at *
  generalize lo p = pl at *
  subst ep
  have hph : ph ≤ 2 ^ 64 - 2 := by omega
  -- the borrow is `0`, `1` or `2` words
  rcases Nat.lt_or_ge x (k + pl) with h1 | h1
  · rcases Nat.lt_or_ge (x + 2 ^ 64) (k + pl) with h2 | h2
    · have et : wrappingSub 128 (wrappingSub 128 x k) pl = x + 2 ^ 128 - k - pl := by
        unfold wrappingSub
        omega
      rw [et]
      have eh : hi (x + 2 ^ 128 - k - pl) = 2 ^ 64 - 2 := by
        unfold hi
        omega
      have el : lo (x + 2 ^ 128 - k - pl) = x + 2 * 2 ^ 64 - k - pl := by
        unfold lo
        omega
      rw [eh, el]
      unfold wrappingSub
      omega
    · have et : wrappingSub 128 (wrappingSub 128 x k) pl = x + 2 ^ 128 - k - pl := by
        unfold wrappingSub
        omega
      rw [et]
      have eh : hi (x + 2 ^ 128 - k - pl) = 2 ^ 64 - 1 := by
        unfold hi
        omega
      have el : lo (x + 2 ^ 128 - k - pl) = x + 2 ^ 64 - k - pl := by
        unfold lo
        omega
      rw [eh, el]
      unfold wrappingSub
      omega
  · have et : wrappingSub 128 (wrappingSub 128 x k) pl = x - k - pl := by
      unfold wrappingSub
      omega
    rw [et]
    have eh : hi (x - k - pl) = 0 := by
      unfold hi
      omega
    have el : lo (x - k - pl) = x - k - pl := Nat.mod_eq_of_lt (by omega)
    rw [eh, el]
    unfold wrappingSub
    omega

/-- **The multiply-and-subtract loop**: the window loses `qhat` times the divisor, up to the
borrow `k`; words outside the window are unchanged.

**Proof sketch.** Induction on the number of words, with `mulSub_word` for the next one. -/
theorem mulSubLoop_spec {qhat : ℕ} (hq : qhat < 2 ^ 64) (index : ℕ) (v x : U256Muldiv) :
    ∀ n, index + n ≤ 4 → ∃ k,
      (mulSubLoop qhat index n v x).2 = k ∧ k < 2 ^ 64 ∧
      (∀ i, (i < index ∨ index + n ≤ i) →
        (mulSubLoop qhat index n v x).1.getWord i = x.getWord i) ∧
      value (2 ^ 64) (fun i => x.getWord (index + i)) n + k * (2 ^ 64) ^ n =
        value (2 ^ 64) (fun i => (mulSubLoop qhat index n v x).1.getWord (index + i)) n +
          qhat * value (2 ^ 64) v.getWord n
  | 0, _ => ⟨0, rfl, by norm_num, fun _ _ => rfl, by simp⟩
  | n + 1, hn => by
    obtain ⟨k, hk, hkb, hout, hval⟩ := mulSubLoop_spec hq index v x n (by omega)
    have hstep : mulSubLoop qhat index (n + 1) v x =
        (((mulSubLoop qhat index n v x).1.updateWord (index + n)
          (lo (wrappingSub 128 (wrappingSub 128 (x.getWord (index + n)) k)
            (lo (qhat * v.getWord n))))),
          wrappingSub 64 (hi (qhat * v.getWord n)) (hi (wrappingSub 128 (wrappingSub 128
            (x.getWord (index + n)) k) (lo (qhat * v.getWord n))))) := by
      unfold mulSubLoop at hk hout ⊢
      rw [List.range_succ, List.foldl_append, List.foldl_cons, List.foldl_nil, hk,
        hout (index + n) (Or.inr le_rfl)]
    have hp : qhat * v.getWord n ≤ (2 ^ 64 - 1) * (2 ^ 64 - 1) :=
      Nat.mul_le_mul (by omega) (by have := v.getWord_lt n; omega)
    have hw := mulSub_word (x.getWord_lt (index + n)) hkb hp
    rw [hstep]
    generalize hy : (mulSubLoop qhat index n v x).1 = y at *
    generalize wrappingSub 128 (wrappingSub 128 (x.getWord (index + n)) k)
      (lo (qhat * v.getWord n)) = t at *
    refine ⟨_, rfl, wrappingSub_lt _ _ _, fun i hi => ?_, ?_⟩
    · rw [getWord_updateWord_of_ne _ _ (by omega)]
      exact hout i (by omega)
    · have hcongr : value (2 ^ 64) (fun i => (y.updateWord (index + n) (lo t)).getWord (index + i)) n
          = value (2 ^ 64) (fun i => y.getWord (index + i)) n :=
        value_congr fun i hi => getWord_updateWord_of_ne _ _ (by omega)
      rw [value_succ, value_succ, value_succ, hcongr,
        getWord_updateWord_self _ _ (by omega), Nat.mod_eq_of_lt (lo_lt t), pow_succ]
      linear_combination hval + (2 ^ 64) ^ n * hw

/-- **The add-back loop**: the window gains the divisor, up to the carry `k`.

**Proof sketch.** Induction on the number of words. The sum of two words and a carry is at most two
words. -/
theorem addBackLoop_spec (index : ℕ) (v x : U256Muldiv) :
    ∀ n, index + n ≤ 4 → ∃ k,
      (addBackLoop index n v x).2 = k ∧ k ≤ 1 ∧
      (∀ i, (i < index ∨ index + n ≤ i) →
        (addBackLoop index n v x).1.getWord i = x.getWord i) ∧
      value (2 ^ 64) (fun i => x.getWord (index + i)) n + value (2 ^ 64) v.getWord n =
        value (2 ^ 64) (fun i => (addBackLoop index n v x).1.getWord (index + i)) n +
          k * (2 ^ 64) ^ n
  | 0, _ => ⟨0, rfl, by norm_num, fun _ _ => rfl, by simp⟩
  | n + 1, hn => by
    obtain ⟨k, hk, hkb, hout, hval⟩ := addBackLoop_spec index v x n (by omega)
    have hstep : addBackLoop index (n + 1) v x =
        ((addBackLoop index n v x).1.updateWord (index + n)
          (lo (x.getWord (index + n) + v.getWord n + k)),
          hi (x.getWord (index + n) + v.getWord n + k)) := by
      unfold addBackLoop at hk hout ⊢
      rw [List.range_succ, List.foldl_append, List.foldl_cons, List.foldl_nil, hk,
        hout (index + n) (Or.inr le_rfl)]
    have bx := x.getWord_lt (index + n)
    have bv := v.getWord_lt n
    have hw := hi_mul_add_lo (n := x.getWord (index + n) + v.getWord n + k) (by omega)
    rw [hstep]
    generalize hy : (addBackLoop index n v x).1 = y at *
    have hcb : hi (x.getWord (index + n) + v.getWord n + k) ≤ 1 := by
      unfold hi
      omega
    generalize ht : x.getWord (index + n) + v.getWord n + k = t at *
    refine ⟨_, rfl, hcb, fun i hi => ?_, ?_⟩
    · rw [getWord_updateWord_of_ne _ _ (by omega)]
      exact hout i (by omega)
    · have hcongr : value (2 ^ 64) (fun i => (y.updateWord (index + n) (lo t)).getWord (index + i)) n
          = value (2 ^ 64) (fun i => y.getWord (index + i)) n :=
        value_congr fun i hi => getWord_updateWord_of_ne _ _ (by omega)
      rw [value_succ, value_succ, value_succ, hcongr,
        getWord_updateWord_self _ _ (by omega), Nat.mod_eq_of_lt (lo_lt t), pow_succ]
      linear_combination hval + (2 ^ 64) ^ n * ht - (2 ^ 64) ^ n * hw

/-! ## One quotient digit -/

/-- The dividend with its carry word as a fifth digit. -/
def digits (x : U256Muldiv) (c i : ℕ) : ℕ := if i = 4 then c else x.getWord i

/-- The digits of the dividend, with the carry on top, are words. -/
theorem digits_lt {x : U256Muldiv} {c : ℕ} (hc : c < 2 ^ 64) (i : ℕ) : digits x c i < 2 ^ 64 := by
  unfold digits
  split_ifs
  · exact hc
  · exact x.getWord_lt i

/-- The lower digits are the words of the dividend. -/
lemma digits_of_lt {x : U256Muldiv} {c i : ℕ} (h : i < 4) : digits x c i = x.getWord i :=
  if_neg (by omega)

/-- The top two digits of the window bound the estimate: it is at most one above the base. -/
lemma estimate_lt {d d1 : ℕ} (hnorm : 2 ^ 63 ≤ d1) (hd : d < (d1 + 1) * 2 ^ 64) :
    d / d1 < 2 ^ 64 + 2 := by
  rw [Nat.div_lt_iff_lt_mul (by omega)]
  linarith only [hd, hnorm]

/-- The corrected estimate is a digit, an upper bound of the quotient digit `u / v`, and at
most one too large.

**Proof sketch.** The first estimate is the quotient of the two top digits by the top digit of the
divisor, an upper bound of the quotient digit. A failed test means that the estimate is too large,
so the corrected one is an upper bound too, and `estimate_le` bounds its excess by one. -/
lemma correctQhat_digit {u v d d1 d1' u' p r s qh : ℕ} (hu : u = (d * 2 ^ 64 + u') * p + r)
    (hv : v = (d1 * 2 ^ 64 + d1') * p + s) (hr : r < p) (hs : s < p) (hu' : u' < 2 ^ 64)
    (hv1 : d1 < 2 ^ 64) (hv0 : d1' < 2 ^ 64) (hnorm : 2 ^ 63 ≤ d1) (huv : u < v * 2 ^ 64)
    (hdb : d < 2 ^ 128)
    (h : correctQhat d1 d1' 3 (d / d1) (wrappingSub 128 d (d1 * (d / d1)))
      (hiLo (lo (wrappingSub 128 d (d1 * (d / d1)))) u') ((d / d1 * d1') % 2 ^ 128) = .ok qh) :
    qh < 2 ^ 64 ∧ u / v ≤ qh ∧ (qh - 1) * v ≤ u := by
  have hd1 : 0 < d1 := by omega
  have hp : 0 < p := lt_of_le_of_lt (Nat.zero_le r) hr
  have hvp : 0 < v := by
    rw [hv]
    have : 0 < (d1 * 2 ^ 64 + d1') * p := by positivity
    omega
  -- the top two digits of the window
  have hd : d < (d1 + 1) * 2 ^ 64 := by
    have h1 : d * (2 ^ 64 * p) < (d1 + 1) * 2 ^ 64 * (2 ^ 64 * p) := by
      calc d * (2 ^ 64 * p) ≤ u := by
            rw [hu]
            nlinarith only [Nat.zero_le (u' * p), Nat.zero_le r]
        _ < v * 2 ^ 64 := huv
        _ ≤ (d1 * 2 ^ 64 + d1' + 1) * p * 2 ^ 64 := by
            apply Nat.mul_le_mul_right
            rw [hv, add_mul (d1 * 2 ^ 64 + d1') 1 p]
            omega
        _ ≤ (d1 * 2 ^ 64 + 2 ^ 64) * p * 2 ^ 64 :=
            Nat.mul_le_mul_right _ (Nat.mul_le_mul_right p (by omega))
        _ = (d1 + 1) * 2 ^ 64 * (2 ^ 64 * p) := by ring
    exact lt_of_mul_lt_mul_right h1 (Nat.zero_le _)
  have hq0 := estimate_lt hnorm hd
  have hqv : u / v * v ≤ u := Nat.div_mul_le_self u v
  have hqb : u / v < 2 ^ 64 := by rwa [Nat.div_lt_iff_lt_mul hvp, mul_comm]
  have hdm : d = d / d1 * d1 + d % d1 := by rw [mul_comm]; exact (Nat.div_add_mod d d1).symm
  have hmod : d % d1 < d1 := Nat.mod_lt _ hd1
  have hc : d / d1 * d1' < 2 ^ 128 := by
    calc d / d1 * d1' ≤ (2 ^ 64 + 1) * (2 ^ 64 - 1) := Nat.mul_le_mul (by omega) (by omega)
      _ < 2 ^ 128 := by norm_num
  have hrem : wrappingSub 128 d (d1 * (d / d1)) = d % d1 := by
    have hdm' := Nat.div_add_mod d d1
    rw [wrappingSub_of_le hdb (by omega)]
    omega
  rw [hrem, Nat.mod_eq_of_lt hc] at h
  have hdec : ∀ a ρ, d = a * d1 + ρ → ρ * 2 ^ 64 + u' < a * d1' → u / v ≤ a → u / v < a :=
    fun a ρ ha htest hle => estimate_decrement hu hv hr ha htest hqv hle
  obtain ⟨rh, e1, e2, e3, e4⟩ := correctQhat_spec hv1 hv0 hu' hd hqb hdec 3 (d / d1) (d % d1) qh
    hdm (by omega) hc (by omega) (le_estimate hu hv hu' hr hd1 hqv) h
  exact ⟨e2, e4, estimate_le hu hv hs e1 e3 e2 hd1⟩

/-- The window of a step and the divisor, split for `correctQhat_digit`. -/
lemma value_window (w : ℕ → ℕ) (n : ℕ) :
    value (2 ^ 64) w (n + 3) = ((w (n + 2) * 2 ^ 64 + w (n + 1)) * 2 ^ 64 + w n) * (2 ^ 64) ^ n +
      value (2 ^ 64) w n := by
  rw [value_succ, value_succ, value_succ, pow_succ, pow_succ]
  ring

/-- The value of a divisor, with its two top words apart. -/
lemma value_divisor (w : ℕ → ℕ) (n : ℕ) :
    value (2 ^ 64) w (n + 2) = (w (n + 1) * 2 ^ 64 + w n) * (2 ^ 64) ^ n +
      value (2 ^ 64) w n := by
  rw [value_succ, value_succ, pow_succ]
  ring

/-- Without a borrow the estimate is the quotient digit. -/
theorem digit_of_no_borrow {W X Y V P qh head k : ℕ} (hV : 0 < V) (hW : W = X + head * P)
    (hms : X + k * P = Y + qh * V) (hq : W / V ≤ qh) (hk : k ≤ head) :
    W = qh * V + (Y + (head - k) * P) ∧ Y + (head - k) * P < V := by
  obtain ⟨d, rfl⟩ := Nat.exists_eq_add_of_le hk
  rw [add_mul] at hW
  rw [Nat.add_sub_cancel_left]
  have hlt : W < (qh + 1) * V := by
    rw [← Nat.div_lt_iff_lt_mul hV]
    omega
  rw [Nat.succ_mul] at hlt
  omega

/-- With a borrow the estimate is one too large, and adding the divisor back repairs it: the
borrow is exactly one more than the head word, and the carry of the addition cancels it. -/
lemma digit_of_borrow {W X Y Z V P qh head k k2 : ℕ} (hW : W = X + head * P)
    (hms : X + k * P = Y + qh * V) (hq : (qh - 1) * V ≤ W) (hk : head < k)
    (hadd : Y + V = Z + k2 * P) (hk2 : k2 ≤ 1) (hY : Y < P) (hZ : Z < P) :
    k = head + 1 ∧ k2 = 1 ∧ 0 < qh ∧ W = (qh - 1) * V + Z ∧ Z < V := by
  obtain ⟨δ, rfl⟩ := Nat.exists_eq_add_of_lt hk
  have e1 : (head + δ + 1) * P = head * P + δ * P + P := by ring
  rw [e1] at hms
  have hlt : W < qh * V := by omega
  have hpos : 0 < qh := Nat.pos_of_ne_zero fun h0 => by simp [h0] at hlt
  have e2 : qh * V = (qh - 1) * V + V := by
    rw [← Nat.succ_mul, Nat.succ_eq_add_one, Nat.sub_add_cancel hpos]
  have hδ : δ = 0 := by
    by_contra hne
    have := Nat.le_mul_of_pos_left P (Nat.pos_of_ne_zero hne)
    interval_cases k2 <;> omega
  subst hδ
  interval_cases k2 <;> omega

/-- A window is its lower words and its head digit. -/
lemma window_eq (x y : U256Muldiv) (c index : ℕ) {n : ℕ}
    (h : ∀ i < n, digits x c (index + i) = y.getWord (index + i)) :
    value (2 ^ 64) (fun i => digits x c (index + i)) (n + 1) =
      value (2 ^ 64) (fun i => y.getWord (index + i)) n +
        digits x c (index + n) * (2 ^ 64) ^ n := by
  rw [value_succ, value_congr h]

/-- **One step of the long division.** A step that returns writes the quotient digit of the
window, leaves the remainder in the window and changes nothing else.

**Proof sketch.** The corrected estimate is the quotient digit or one more. Multiplying and
subtracting leaves the remainder in the first case; in the second one it borrows, and the step that
returns has added the divisor back once. -/
theorem divLoop_spec {index n c : ℕ} {x v quo quo' x' : U256Muldiv} {c' : ℕ}
    (hn : index + (n + 2) ≤ 4) (hc : c < 2 ^ 64) (hnorm : 2 ^ 63 ≤ v.getWord (n + 1))
    (hU : value (2 ^ 64) (fun i => digits x c (index + i)) (n + 3) <
      value (2 ^ 64) v.getWord (n + 2) * 2 ^ 64)
    (h : divLoop index (n + 2) x c v quo = .ok (quo', x', c')) :
    ∃ q < 2 ^ 64, quo' = quo.updateWord index q ∧ c' < 2 ^ 64 ∧
      (∀ i, (i < index ∨ index + (n + 2) < i) → digits x' c' i = digits x c i) ∧
      value (2 ^ 64) (fun i => digits x c (index + i)) (n + 3) =
        q * value (2 ^ 64) v.getWord (n + 2) +
          value (2 ^ 64) (fun i => digits x' c' (index + i)) (n + 3) ∧
      value (2 ^ 64) (fun i => digits x' c' (index + i)) (n + 3) <
        value (2 ^ 64) v.getWord (n + 2) := by
  have hlt := digits_lt (x := x) hc
  have hhead : (if decide (index + (n + 2) = 4) then c else x.getWord (index + (n + 2))) =
      digits x c (index + (n + 2)) := by
    simp only [digits, decide_eq_true_eq]
  have hw : ∀ i < n + 2, x.getWord (index + i) = digits x c (index + i) := fun i hi =>
    (digits_of_lt (by omega)).symm
  unfold divLoop at h
  simp only [Res.bind_eq_ok, hhead, show index + (n + 2) - 1 = index + (n + 1) by omega,
    show index + (n + 2) - 2 = index + n by omega, show n + 2 - 1 = n + 1 by omega,
    show n + 2 - 2 = n by omega, hw (n + 1) (by omega), hw n (by omega),
    hiLo_eq (hlt (index + (n + 1)))] at h
  obtain ⟨qh, hqh, h⟩ := h
  have hdlt : digits x c (index + (n + 2)) * 2 ^ 64 + digits x c (index + (n + 1)) < 2 ^ 128 := by
    have h1 := hlt (index + (n + 2))
    have h2 := hlt (index + (n + 1))
    omega
  have hV : 0 < value (2 ^ 64) v.getWord (n + 2) := Nat.pos_of_ne_zero fun h0 => by
    rw [h0, zero_mul] at hU
    exact Nat.not_lt_zero _ hU
  obtain ⟨hqhb, hqle, hqge⟩ := correctQhat_digit
    (value_window (fun i => digits x c (index + i)) n) (value_divisor v.getWord n)
    (value_lt fun i _ => hlt (index + i)) (value_lt fun i _ => v.getWord_lt i) (hlt (index + n))
    (v.getWord_lt (n + 1)) (v.getWord_lt n) hnorm hU hdlt hqh
  -- multiply and subtract
  obtain ⟨k, hk, hkb, hout, hms⟩ := mulSubLoop_spec hqhb index v x (n + 2) hn
  generalize mulSubLoop qh index (n + 2) v x = yk at *
  obtain ⟨y, k⟩ := yk
  simp only at hk hout hms h
  subst hk
  have hW := window_eq x x c index (n := n + 2) fun i hi =>
    (hw i hi).symm
  have hhead' : (if decide (index + (n + 2) = 4) then c else y.getWord (index + (n + 2))) =
      digits x c (index + (n + 2)) := by
    rw [hout _ (Or.inr le_rfl), hhead]
  have hhd := hlt (index + (n + 2))
  rw [hhead'] at h
  have hY := value_lt (b := 2 ^ 64) (n := n + 2) fun i _ => y.getWord_lt (index + i)
  split_ifs at h with hbor hcar hcar
  · -- the estimate was one too large, and the window ends below the carry word
    rw [decide_eq_true_eq] at hcar
    simp only [Except.ok.injEq, Prod.mk.injEq] at h
    obtain ⟨rfl, rfl, rfl⟩ := h
    obtain ⟨k2, hk2, hk2b, hout2, hadd⟩ := addBackLoop_spec index v
      (y.updateWord (index + (n + 2)) (lo (wrappingSub 128 (digits x c (index + (n + 2))) k)))
      (n + 2) hn
    generalize addBackLoop index (n + 2) v (y.updateWord (index + (n + 2))
      (lo (wrappingSub 128 (digits x c (index + (n + 2))) k))) = zk at *
    obtain ⟨z, k2⟩ := zk
    simp only at hk2 hout2 hadd ⊢
    subst hk2
    have hZ := value_lt (b := 2 ^ 64) (n := n + 2) fun i _ => z.getWord_lt (index + i)
    have hlow : value (2 ^ 64) (fun i => (y.updateWord (index + (n + 2)) (lo (wrappingSub 128
        (digits x c (index + (n + 2))) k))).getWord (index + i)) (n + 2) =
        value (2 ^ 64) (fun i => y.getWord (index + i)) (n + 2) :=
      value_congr fun i hi => getWord_updateWord_of_ne _ _ (by omega)
    rw [hlow] at hadd
    obtain ⟨hk1, hk21, hqpos, hWeq, hZV⟩ :=
      digit_of_borrow hW hms hqge hbor hadd hk2b hY hZ
    have hqw : lo (wrappingSub 128 qh 1) = qh - 1 := by
      rw [wrappingSub_of_le (by omega) hqpos]
      exact Nat.mod_eq_of_lt (by omega)
    have hcarry : lo (z.getWord (index + (n + 2)) + k2) = 0 := by
      rw [hout2 _ (Or.inr le_rfl), getWord_updateWord_self _ _ (by omega), hk21, hk1]
      unfold wrappingSub lo
      omega
    rw [hqw, hcarry]
    have hz := window_eq (z.updateWord (index + (n + 2)) 0) z c index (n := n + 2)
      fun i hi => by
        rw [digits_of_lt (by omega), getWord_updateWord_of_ne _ _ (by omega)]
    rw [digits_of_lt (by omega), getWord_updateWord_self _ _ (by omega), Nat.zero_mod, zero_mul,
      add_zero] at hz
    refine ⟨qh - 1, by omega, rfl, hc, fun i hi => ?_, ?_, ?_⟩
    · unfold digits
      split_ifs
      · rfl
      · rw [getWord_updateWord_of_ne _ _ (by omega), hout2 i (by omega),
          getWord_updateWord_of_ne _ _ (by omega), hout i (by omega)]
    · rw [hz]
      exact hWeq
    · rw [hz]
      exact hZV
  · -- the estimate is the digit, and the carry word is the head of the window
    rw [decide_eq_true_eq] at hcar
    simp only [hcar, Except.ok.injEq, Prod.mk.injEq] at h
    obtain ⟨rfl, rfl, rfl⟩ := h
    obtain ⟨hWeq, hYV⟩ := digit_of_no_borrow hV hW hms hqle (not_lt.1 hbor)
    have ht : lo (wrappingSub 128 (digits x c (index + (n + 2))) k) =
        digits x c (index + (n + 2)) - k := by
      rw [wrappingSub_of_le (by omega) (not_lt.1 hbor)]
      exact Nat.mod_eq_of_lt (by omega)
    rw [hcar] at ht
    have hz := window_eq y y (lo (wrappingSub 128 (digits x c 4) k)) index (n := n + 2)
      fun i hi => digits_of_lt (by omega)
    have h4 : digits y (lo (wrappingSub 128 (digits x c 4) k)) (index + (n + 2)) =
        digits x c (index + (n + 2)) - k := by
      rw [digits, if_pos hcar, ht, hcar]
    rw [h4] at hz
    refine ⟨qh, hqhb, by rw [lo, Nat.mod_eq_of_lt hqhb], lo_lt _, fun i hi => ?_, ?_, ?_⟩
    · unfold digits
      rw [if_neg (by omega), if_neg (by omega)]
      exact hout i (by omega)
    · rw [hz]
      exact hWeq
    · rw [hz]
      exact hYV
  · -- the estimate is the digit, and the window ends below the carry word
    rw [decide_eq_true_eq] at hcar
    simp only [Except.ok.injEq, Prod.mk.injEq] at h
    obtain ⟨rfl, rfl, rfl⟩ := h
    obtain ⟨hWeq, hYV⟩ := digit_of_no_borrow hV hW hms hqle (not_lt.1 hbor)
    have ht : lo (wrappingSub 128 (digits x c (index + (n + 2))) k) =
        digits x c (index + (n + 2)) - k := by
      rw [wrappingSub_of_le (by omega) (not_lt.1 hbor)]
      exact Nat.mod_eq_of_lt (by omega)
    rw [ht]
    have hz := window_eq
      (y.updateWord (index + (n + 2)) (digits x c (index + (n + 2)) - k)) y c index (n := n + 2)
      fun i hi => by
        rw [digits_of_lt (by omega), getWord_updateWord_of_ne _ _ (by omega)]
    rw [digits_of_lt (i := index + (n + 2)) (x := y.updateWord (index + (n + 2))
      (digits x c (index + (n + 2)) - k)) (by omega), getWord_updateWord_self _ _ (by omega),
      Nat.mod_eq_of_lt (by omega)] at hz
    refine ⟨qh, hqhb, by rw [lo, Nat.mod_eq_of_lt hqhb], hc, fun i hi => ?_, ?_, ?_⟩
    · unfold digits
      split_ifs
      · rfl
      · rw [getWord_updateWord_of_ne _ _ (by omega), hout i (by omega)]
    · rw [hz]
      exact hWeq
    · rw [hz]
      exact hYV

/-- **The division loop.** From a dividend below the divisor shifted by `j` words, the loop
writes the `j` low quotient words and ends with the remainder.

**Proof sketch.** Induction on the number of words of the quotient. A step leaves a remainder below
the divisor in its window, which is the dividend of the next step, one word further down. -/
theorem divLoops_spec {n : ℕ} {v : U256Muldiv} (hn : n + 2 ≤ 4)
    (hnorm : 2 ^ 63 ≤ v.getWord (n + 1)) :
    ∀ (j c : ℕ) (x quo q r : U256Muldiv), j + (n + 2) ≤ 5 → c < 2 ^ 64 →
      value (2 ^ 64) (digits x c) 5 < value (2 ^ 64) v.getWord (n + 2) * (2 ^ 64) ^ j →
      divLoops (n + 2) v j quo x c = .ok (q, r) →
      (∀ i, j ≤ i → q.getWord i = quo.getWord i) ∧
        value (2 ^ 64) (digits x c) 5 =
          value (2 ^ 64) q.getWord j * value (2 ^ 64) v.getWord (n + 2) + r.toNat ∧
        r.toNat < value (2 ^ 64) v.getWord (n + 2)
  | 0, c, x, quo, q, r, _, _, hlt, h => by
    simp only [divLoops, Except.ok.injEq, Prod.mk.injEq] at h
    obtain ⟨rfl, rfl⟩ := h
    have hV := value_lt (b := 2 ^ 64) (n := n + 2) fun i _ => v.getWord_lt i
    rw [pow_zero, mul_one] at hlt
    -- the carry word is used up
    have hx : value (2 ^ 64) (digits x c) 5 = x.toNat := by
      have h4 : value (2 ^ 64) (digits x c) (4 + 1) < (2 ^ 64) ^ 4 :=
        (hlt.trans hV).trans_le (Nat.pow_le_pow_right (by norm_num) hn)
      rw [value_eq_of_high_zero (high_zero_of_value_lt (by norm_num) h4)]
      exact value_congr fun i hi => digits_of_lt hi
    rw [hx] at hlt ⊢
    exact ⟨fun _ _ => rfl, by simp, hlt⟩
  | j + 1, c, x, quo, q, r, hj, hc, hlt, h => by
    simp only [divLoops, Res.bind_eq_ok] at h
    obtain ⟨⟨quo', x', c'⟩, hstep, h⟩ := h
    simp only at h
    obtain ⟨m, hm⟩ : ∃ m, 5 = j + (n + 3) + m := ⟨5 - (j + (n + 3)), by omega⟩
    have hV := value_lt (b := 2 ^ 64) (n := n + 2) fun i _ => v.getWord_lt i
    -- the digits above the window are zero
    have hzero : ∀ i < m, digits x c (j + (n + 3) + i) = 0 := by
      refine high_zero_of_value_lt (b := 2 ^ 64) (by norm_num) ?_
      rw [← hm]
      refine hlt.trans_le ((Nat.mul_le_mul_right _ hV.le).trans (le_of_eq ?_))
      rw [← pow_add]
      congr 1
      omega
    have hsplit : value (2 ^ 64) (digits x c) 5 = value (2 ^ 64) (digits x c) j +
        (2 ^ 64) ^ j * value (2 ^ 64) (fun i => digits x c (j + i)) (n + 3) := by
      conv_lhs => rw [hm]
      rw [value_eq_of_high_zero hzero, value_add]
    have hwin : value (2 ^ 64) (fun i => digits x c (j + i)) (n + 3) <
        value (2 ^ 64) v.getWord (n + 2) * 2 ^ 64 := by
      rw [hsplit, pow_succ (2 ^ 64) j] at hlt
      have e : value (2 ^ 64) v.getWord (n + 2) * ((2 ^ 64) ^ j * 2 ^ 64) =
          (2 ^ 64) ^ j * (value (2 ^ 64) v.getWord (n + 2) * 2 ^ 64) := by ring
      rw [e] at hlt
      exact lt_of_mul_lt_mul_left (lt_of_le_of_lt (Nat.le_add_left _ _) hlt) (Nat.zero_le _)
    obtain ⟨d, hd, rfl, hc', hout, hval, hrem⟩ := divLoop_spec (by omega) hc hnorm hwin hstep
    have hsplit' : value (2 ^ 64) (digits x' c') 5 = value (2 ^ 64) (digits x' c') j +
        (2 ^ 64) ^ j * value (2 ^ 64) (fun i => digits x' c' (j + i)) (n + 3) := by
      conv_lhs => rw [hm]
      rw [value_eq_of_high_zero fun i hi => by rw [hout _ (by omega), hzero i hi], value_add]
    have hlow : value (2 ^ 64) (digits x' c') j = value (2 ^ 64) (digits x c) j :=
      value_congr fun i hi => hout i (Or.inl hi)
    have hlowlt := value_lt (b := 2 ^ 64) (n := j) fun i _ => digits_lt (x := x') hc' i
    have hlt' : value (2 ^ 64) (digits x' c') 5 <
        value (2 ^ 64) v.getWord (n + 2) * (2 ^ 64) ^ j := by
      have hm1 := Nat.mul_le_mul_left ((2 ^ 64) ^ j) (Nat.succ_le_of_lt hrem)
      rw [Nat.mul_succ] at hm1
      rw [hsplit', mul_comm (value (2 ^ 64) v.getWord (n + 2))]
      exact lt_of_lt_of_le (Nat.add_lt_add_right hlowlt _) (by rwa [add_comm])
    obtain ⟨hq, hdiv, hr⟩ := divLoops_spec hn hnorm j c' x' _ q r (by omega) hc' hlt' h
    refine ⟨fun i hi => ?_, ?_, hr⟩
    · rw [hq i (by omega), getWord_updateWord_of_ne _ _ (by omega)]
    · have hqj : q.getWord j = d := by
        rw [hq j le_rfl, getWord_updateWord_self _ _ (by omega), Nat.mod_eq_of_lt hd]
      rw [hsplit'] at hdiv
      rw [hsplit, hval, ← hlow, value_succ (n := j), hqj]
      linear_combination hdiv

/-! ## The whole division -/

/-- One-word divisors: the loop is short division.

**Proof sketch.** Induction on the number of words that are left. The remainder that is carried into
a step is below the divisor, so the digit is a word, and the digit and the new remainder divide the
two words of the step. -/
lemma divSmallLoop_spec {d2 : ℕ} (hd : 0 < d2) (hd2 : d2 < 2 ^ 64) (x : U256Muldiv) :
    ∀ (j k : ℕ) (quo : U256Muldiv), j ≤ 4 → k < d2 →
      (∀ i, j ≤ i → (divSmallLoop x d2 j quo k).1.getWord i = quo.getWord i) ∧
        k * (2 ^ 64) ^ j + value (2 ^ 64) x.getWord j =
          value (2 ^ 64) (divSmallLoop x d2 j quo k).1.getWord j * d2 +
            (divSmallLoop x d2 j quo k).2 ∧
        (divSmallLoop x d2 j quo k).2 < d2
  | 0, k, quo, _, hk => ⟨fun _ _ => rfl, by simp [divSmallLoop], hk⟩
  | j + 1, k, quo, hj, hk => by
    have hx := x.getWord_lt j
    have hlok : lo k = k := Nat.mod_eq_of_lt (by omega)
    have hqb : (k * 2 ^ 64 + x.getWord j) / d2 < 2 ^ 64 := by
      rw [Nat.div_lt_iff_lt_mul hd]
      have := Nat.mul_le_mul_right (2 ^ 64) (Nat.succ_le_of_lt hk)
      omega
    have hdm := Nat.div_add_mod (k * 2 ^ 64 + x.getWord j) d2
    have hmod := Nat.mod_lt (k * 2 ^ 64 + x.getWord j) hd
    have hrest : k * 2 ^ 64 + x.getWord j - d2 * ((k * 2 ^ 64 + x.getWord j) / d2) =
        (k * 2 ^ 64 + x.getWord j) % d2 := by omega
    obtain ⟨hout, hval, hr⟩ := divSmallLoop_spec hd hd2 x j ((k * 2 ^ 64 + x.getWord j) % d2)
      (quo.updateWord j ((k * 2 ^ 64 + x.getWord j) / d2)) (by omega) hmod
    unfold divSmallLoop
    simp only [hlok, hiLo_eq hx, hrest, show lo ((k * 2 ^ 64 + x.getWord j) / d2) =
      (k * 2 ^ 64 + x.getWord j) / d2 from Nat.mod_eq_of_lt hqb]
    refine ⟨fun i hi => ?_, ?_, hr⟩
    · rw [hout i (by omega), getWord_updateWord_of_ne _ _ (by omega)]
    · have hqj := hout j le_rfl
      rw [getWord_updateWord_self _ _ (by omega), Nat.mod_eq_of_lt hqb] at hqj
      rw [value_succ (n := j) x.getWord, value_succ (n := j), hqj, pow_succ (2 ^ 64) j]
      linear_combination hval - (2 ^ 64) ^ j * hdm

/-- The shift that normalises a nonzero word.

**Proof sketch.** The word has as many bits as its size says, and is shifted by what is missing to
64. -/
theorem leadingZeros_spec {w : ℕ} (h0 : w ≠ 0) (hw : w < 2 ^ 64) :
    leadingZeros w < 64 ∧ 2 ^ 63 ≤ w * 2 ^ leadingZeros w ∧
      (w + 1) * 2 ^ leadingZeros w ≤ 2 ^ 64 := by
  have hsize : Nat.size w ≤ 64 := Nat.size_le.2 hw
  have hpos : 0 < Nat.size w := Nat.size_pos.2 (Nat.pos_of_ne_zero h0)
  have hlt : w < 2 ^ Nat.size w := Nat.lt_size_self w
  have hge : 2 ^ (Nat.size w - 1) ≤ w := Nat.lt_size.1 (by omega)
  unfold leadingZeros
  refine ⟨by omega, ?_, ?_⟩
  · calc 2 ^ 63 = 2 ^ (Nat.size w - 1) * 2 ^ (64 - Nat.size w) := by
          rw [← pow_add]
          congr 1
          omega
      _ ≤ w * 2 ^ (64 - Nat.size w) := Nat.mul_le_mul_right _ hge
  · calc (w + 1) * 2 ^ (64 - Nat.size w) ≤ 2 ^ Nat.size w * 2 ^ (64 - Nat.size w) :=
          Nat.mul_le_mul_right _ hlt
      _ = 2 ^ 64 := by
          rw [← pow_add]
          congr 1
          omega

/-- A number is its top word over the words below. -/
lemma toNat_eq_top {x : U256Muldiv} (h : x.numWords ≠ 0) :
    x.toNat = value (2 ^ 64) x.getWord (x.numWords - 1) +
      x.getWord (x.numWords - 1) * (2 ^ 64) ^ (x.numWords - 1) := by
  rw [← value_succ, Nat.sub_add_cancel (Nat.pos_of_ne_zero h), toNat_eq_value_numWords]

/-- A number below `b ^ n` is its low `n` words. -/
theorem value_of_toNat_lt {x : U256Muldiv} {n : ℕ} (hn : n ≤ 4) (h : x.toNat < (2 ^ 64) ^ n) :
    value (2 ^ 64) x.getWord n = x.toNat := by
  obtain ⟨m, hm⟩ := Nat.exists_eq_add_of_le hn
  rw [toNat_eq_value] at h ⊢
  rw [hm] at h ⊢
  exact (value_eq_of_high_zero (high_zero_of_value_lt (b := 2 ^ 64) (by norm_num) h)).symm

/-- The normalised divisor: no bit is lost, and its top word has its top bit set.

**Proof sketch.** The shift is the number of leading zeros of the top word, so the shifted divisor
has as many words as before, and its top word is at least `2 ^ 63`. -/
theorem normalise_divisor {v : U256Muldiv} {n : ℕ} (hn : v.numWords = n + 1) :
    (v.shiftLeft (leadingZeros (v.getWord n))).toNat =
        v.toNat * 2 ^ leadingZeros (v.getWord n) ∧
      v.toNat * 2 ^ leadingZeros (v.getWord n) < (2 ^ 64) ^ (n + 1) ∧
      2 ^ 63 ≤ (v.shiftLeft (leadingZeros (v.getWord n))).getWord n := by
  have htop := toNat_eq_top (x := v) (by omega)
  have hne := v.getWord_numWords_ne_zero (by omega)
  rw [hn, Nat.add_sub_cancel] at htop hne
  obtain ⟨hs, h63, h64⟩ := leadingZeros_spec hne (v.getWord_lt n)
  generalize leadingZeros (v.getWord n) = s at *
  have hlow := value_lt (b := 2 ^ 64) (n := n) fun i _ => v.getWord_lt i
  have hn4 := v.numWords_le
  have hlt : v.toNat * 2 ^ s < (2 ^ 64) ^ (n + 1) := by
    have hv : v.toNat < (v.getWord n + 1) * (2 ^ 64) ^ n := by
      rw [htop, add_mul]
      omega
    calc v.toNat * 2 ^ s < (v.getWord n + 1) * (2 ^ 64) ^ n * 2 ^ s :=
          Nat.mul_lt_mul_of_pos_right hv (by positivity)
      _ = (v.getWord n + 1) * 2 ^ s * (2 ^ 64) ^ n := by ring
      _ ≤ 2 ^ 64 * (2 ^ 64) ^ n := Nat.mul_le_mul_right _ h64
      _ = (2 ^ 64) ^ (n + 1) := by ring
  have h256 : v.toNat * 2 ^ s < 2 ^ 256 := by
    calc v.toNat * 2 ^ s < (2 ^ 64) ^ (n + 1) := hlt
      _ ≤ (2 ^ 64) ^ 4 := Nat.pow_le_pow_right (by norm_num) (by omega)
      _ = 2 ^ 256 := by norm_num
  have hval : (v.shiftLeft s).toNat = v.toNat * 2 ^ s := by
    rw [toNat_shiftLeft v (by omega), Nat.mod_eq_of_lt h256]
  refine ⟨hval, hlt, le_top_digit (b := 2 ^ 64) (fun i _ => getWord_lt _ i) ?_⟩
  rw [value_of_toNat_lt (by omega) (by rw [hval]; exact hlt), hval]
  calc 2 ^ 63 * (2 ^ 64) ^ n ≤ v.getWord n * 2 ^ s * (2 ^ 64) ^ n := Nat.mul_le_mul_right _ h63
    _ = v.getWord n * (2 ^ 64) ^ n * 2 ^ s := by ring
    _ ≤ v.toNat * 2 ^ s := by
        refine Nat.mul_le_mul_right _ ?_
        rw [htop]
        exact Nat.le_add_left _ _

/-- The normalised dividend, with the carry word of `div` as its fifth digit: no bit is
lost.

**Proof sketch.** The bits that the shift moves out of four words are those of the carry word; with
fewer words none are moved out. -/
theorem normalise_dividend {x : U256Muldiv} {s : ℕ} (hs : s < 64) (hm : x.numWords ≠ 0) :
    value (2 ^ 64) (digits (x.shiftLeft s) (if x.numWords = 4 ∧
      leadingZeros (x.getWord (x.numWords - 1)) < s then
        x.getWord (x.numWords - 1) >>> (64 - s) else 0)) 5 = x.toNat * 2 ^ s := by
  have hdig : ∀ c, value (2 ^ 64) (digits (x.shiftLeft s) c) 5 =
      (x.shiftLeft s).toNat + c * (2 ^ 64) ^ 4 := fun c => by
    rw [value_succ (n := 4), value_congr (n := 4) fun i hi => digits_of_lt hi]
    rfl
  have htop := toNat_eq_top hm
  have hlow := value_lt (b := 2 ^ 64) (n := x.numWords - 1) fun i _ => x.getWord_lt i
  have hw := x.getWord_lt (x.numWords - 1)
  have h4 := x.numWords_le
  have hpq : 2 ^ (64 - s) * 2 ^ s = 2 ^ 64 := by
    rw [← pow_add]
    congr 1
    omega
  rw [hdig, toNat_shiftLeft x (by omega)]
  have hdm := Nat.mod_add_div (x.toNat * 2 ^ s) (2 ^ 256)
  have hnocarry : x.toNat * 2 ^ s < 2 ^ 256 → x.toNat * 2 ^ s % 2 ^ 256 + 0 * (2 ^ 64) ^ 4 =
      x.toNat * 2 ^ s := fun h => by rw [Nat.mod_eq_of_lt h, zero_mul, add_zero]
  split_ifs with hc
  · -- the bits shifted out are the top bits of the top word
    have hm3 : x.numWords - 1 = 3 := by omega
    rw [hm3] at htop hlow hw ⊢
    rw [Nat.shiftRight_eq_div_pow]
    have hab := Nat.div_add_mod (x.getWord 3) (2 ^ (64 - s))
    have hb := Nat.mod_lt (x.getWord 3) (show 0 < 2 ^ (64 - s) by positivity)
    generalize x.getWord 3 / 2 ^ (64 - s) = a at *
    generalize x.getWord 3 % 2 ^ (64 - s) = b at *
    generalize value (2 ^ 64) x.getWord 3 = l at *
    have hx : x.toNat * 2 ^ s = (l + b * 2 ^ 192) * 2 ^ s + 2 ^ 256 * a := by
      rw [htop, ← hab]
      linear_combination a * 2 ^ 192 * hpq
    have hr : (l + b * 2 ^ 192) * 2 ^ s < 2 ^ 256 := by
      calc (l + b * 2 ^ 192) * 2 ^ s < (b + 1) * 2 ^ 192 * 2 ^ s :=
            Nat.mul_lt_mul_of_pos_right (by omega) (by positivity)
        _ ≤ 2 ^ (64 - s) * 2 ^ 192 * 2 ^ s :=
            Nat.mul_le_mul_right _ (Nat.mul_le_mul_right _ hb)
        _ = 2 ^ 64 * 2 ^ 192 := by rw [← hpq]; ring
        _ = 2 ^ 256 := by norm_num
    rw [hx, Nat.add_mul_mod_self_left, Nat.mod_eq_of_lt hr]
    ring
  · refine hnocarry ?_
    generalize hmw : x.numWords - 1 = m at *
    have hlt : x.toNat < (x.getWord m + 1) * (2 ^ 64) ^ m := by
      rw [htop, Nat.succ_mul]
      omega
    have hbound : (x.getWord m + 1) * 2 ^ s * (2 ^ 64) ^ m ≤ 2 ^ 256 := by
      rcases Nat.lt_or_ge m 3 with hm3 | hm3
      · calc (x.getWord m + 1) * 2 ^ s * (2 ^ 64) ^ m ≤ 2 ^ 64 * 2 ^ 64 * (2 ^ 64) ^ 2 :=
              Nat.mul_le_mul (Nat.mul_le_mul hw (Nat.pow_le_pow_right (by norm_num) hs.le))
                (Nat.pow_le_pow_right (by norm_num) (by omega))
          _ = 2 ^ 256 := by norm_num
      · obtain rfl : m = 3 := by omega
        have hne := x.getWord_numWords_ne_zero hm
        rw [hmw] at hne
        obtain ⟨-, -, h64⟩ := leadingZeros_spec hne hw
        have hle : s ≤ leadingZeros (x.getWord 3) := by omega
        calc (x.getWord 3 + 1) * 2 ^ s * (2 ^ 64) ^ 3 ≤
              (x.getWord 3 + 1) * 2 ^ leadingZeros (x.getWord 3) * (2 ^ 64) ^ 3 :=
              Nat.mul_le_mul_right _ (Nat.mul_le_mul_left _
                (Nat.pow_le_pow_right (by norm_num) hle))
          _ ≤ 2 ^ 64 * (2 ^ 64) ^ 3 := Nat.mul_le_mul_right _ h64
          _ = 2 ^ 256 := by norm_num
    calc x.toNat * 2 ^ s < (x.getWord m + 1) * (2 ^ 64) ^ m * 2 ^ s :=
          Nat.mul_lt_mul_of_pos_right hlt (by positivity)
      _ = (x.getWord m + 1) * 2 ^ s * (2 ^ 64) ^ m := by ring
      _ ≤ 2 ^ 256 := hbound

/-- The quotient starts at zero. -/
lemma toNat_new_zero_zero : (new 0 0).toNat = 0 := toNat_new_zero (by positivity)

/-- All words of the quotient start at zero. -/
lemma getWord_new_zero_zero (i : ℕ) : (new 0 0).getWord i = 0 := by
  rw [getWord_new]
  split <;> rfl

/-- A quotient whose words from `j` on are those of zero is its low part. -/
lemma toNat_of_high_zero {q : U256Muldiv} {j : ℕ} (hj : j ≤ 4)
    (h : ∀ i, j ≤ i → q.getWord i = (new 0 0).getWord i) :
    q.toNat = value (2 ^ 64) q.getWord j := by
  obtain ⟨m, hm⟩ := Nat.exists_eq_add_of_le hj
  rw [toNat_eq_value, hm]
  exact value_eq_of_high_zero fun i _ => by rw [h _ (by omega), getWord_new_zero_zero]

/-- A division with remainder determines quotient and remainder. -/
theorem div_mod_unique {x v q r : ℕ} (h : x = q * v + r) (hr : r < v) :
    q = x / v ∧ r = x % v := by
  have hv : 0 < v := by omega
  subst h
  rw [add_comm, Nat.add_mul_div_right _ _ hv, Nat.add_mul_mod_self_right, Nat.div_eq_of_lt hr,
    Nat.mod_eq_of_lt hr]
  exact ⟨by omega, rfl⟩

/-- The branch of `div` that normalises and runs the division loop.

**Proof sketch.** Dividend and divisor are shifted by the same number of bits, so the quotient is
the same and the remainder is shifted too. Below the shifted divisor, it is a multiple of the
shift. -/
lemma div_normalised {x v q r : U256Muldiv} {n c s : ℕ} (hn : v.numWords = n + 2)
    (hm : v.numWords ≤ x.numWords) (hs : s = leadingZeros (v.getWord (n + 1)))
    (hc : c = if x.numWords = 4 ∧ leadingZeros (x.getWord (x.numWords - 1)) < s then
      x.getWord (x.numWords - 1) >>> (64 - s) else 0)
    (h : divLoops (n + 2) (v.shiftLeft s) (x.numWords - (n + 2) + 1) (new 0 0) (x.shiftLeft s) c =
      .ok (q, r)) :
    q.toNat = x.toNat / v.toNat ∧ (r.shiftRight s).toNat = x.toNat % v.toNat := by
  have hne := v.getWord_numWords_ne_zero (by omega)
  rw [hn, show n + 2 - 1 = n + 1 by omega] at hne
  have hs64 : s < 64 := hs ▸ (leadingZeros_spec hne (v.getWord_lt _)).1
  obtain ⟨hvs, hvlt, hnorm⟩ := normalise_divisor hn
  rw [← hs] at hvs hvlt hnorm
  have hx := normalise_dividend hs64 (x := x) (by omega)
  rw [← hc] at hx
  have h4 := x.numWords_le
  have hcb : c < 2 ^ 64 := by
    rw [hc]
    split_ifs
    · exact lt_of_le_of_lt (Nat.shiftRight_le _ _) (x.getWord_lt _)
    · positivity
  have hV : value (2 ^ 64) (v.shiftLeft s).getWord (n + 2) = v.toNat * 2 ^ s := by
    rw [value_of_toNat_lt (by omega) (by rw [hvs]; exact hvlt), hvs]
  have hstart : value (2 ^ 64) (digits (x.shiftLeft s) c) 5 <
      value (2 ^ 64) (v.shiftLeft s).getWord (n + 2) * (2 ^ 64) ^ (x.numWords - (n + 2) + 1) := by
    have hvge := le_toNat_of_lt_numWords (x := v) (n := n + 1) (by omega)
    have hxlt := toNat_lt_of_numWords_le (x := x) le_rfl
    rw [hx, hV]
    calc x.toNat * 2 ^ s < (2 ^ 64) ^ x.numWords * 2 ^ s :=
          Nat.mul_lt_mul_of_pos_right hxlt (by positivity)
      _ = (2 ^ 64) ^ (n + 1) * 2 ^ s * (2 ^ 64) ^ (x.numWords - (n + 2) + 1) := by
          rw [mul_right_comm, ← pow_add]
          congr 2
          omega
      _ ≤ v.toNat * 2 ^ s * (2 ^ 64) ^ (x.numWords - (n + 2) + 1) :=
          Nat.mul_le_mul_right _ (Nat.mul_le_mul_right _ hvge)
  obtain ⟨hq, hval, hr⟩ := divLoops_spec (by omega) hnorm _ c _ _ q r (by omega) hcb hstart h
  rw [← toNat_of_high_zero (by omega) hq, hx, hV] at hval
  rw [hV] at hr
  -- the shifted remainder is a multiple of the shift
  have hsp : 0 < 2 ^ s := by positivity
  have hrdiv : r.toNat = r.toNat / 2 ^ s * 2 ^ s := by
    have hdvd : 2 ^ s ∣ r.toNat := by
      have h1 : 2 ^ s ∣ q.toNat * (v.toNat * 2 ^ s) + r.toNat := hval ▸ Dvd.intro_left _ rfl
      exact (Nat.dvd_add_right (Dvd.intro_left (q.toNat * v.toNat) (by ring))).1 h1
    exact (Nat.div_mul_cancel hdvd).symm
  rw [toNat_shiftRight r (by omega)]
  generalize r.toNat / 2 ^ s = r' at *
  rw [hrdiv] at hval hr
  refine div_mod_unique ?_ (lt_of_mul_lt_mul_right hr (Nat.zero_le _))
  refine Nat.eq_of_mul_eq_mul_right hsp ?_
  rw [hval]
  ring

/-- **The division is exact whenever it returns.**

**Proof sketch.** By the branches of the code: a divisor of zero panics, a dividend of zero or of
fewer words than the divisor gives zero, and one of at most two words is divided as `u128`. A
divisor of one word is the loop of `divSmallLoop_spec`, and any other the one of
`div_normalised`. -/
theorem div_eq_ok {x v q r : U256Muldiv} {keep : Bool} (h : x.div v keep = .ok (q, r)) :
    v.toNat ≠ 0 ∧ q.toNat = x.toNat / v.toNat ∧ (keep = true → r.toNat = x.toNat % v.toNat) := by
  unfold div at h
  simp only [] at h
  rcases eq_or_ne v.numWords 0 with hn0 | hn0
  · rw [if_pos hn0] at h
    cases h
  refine ⟨fun h0 => hn0 ((toNat_eq_zero_iff_numWords v).1 h0), ?_⟩
  rw [if_neg hn0] at h
  rcases eq_or_ne x.numWords 0 with hm0 | hm0
  · -- a zero dividend
    rw [if_pos hm0] at h
    simp only [Except.ok.injEq, Prod.mk.injEq] at h
    obtain ⟨rfl, rfl⟩ := h
    rw [toNat_new_zero_zero, (toNat_eq_zero_iff_numWords x).2 hm0]
    simp
  rw [if_neg hm0] at h
  rcases Nat.lt_or_ge x.numWords v.numWords with hmn | hmn
  · -- a dividend with fewer words
    rw [if_pos hmn] at h
    simp only [Except.ok.injEq, Prod.mk.injEq] at h
    obtain ⟨rfl, rfl⟩ := h
    have hlt : x.toNat < v.toNat := lt_of_lt_of_le (toNat_lt_of_numWords_le le_rfl)
      (le_toNat_of_lt_numWords hmn)
    rw [toNat_new_zero_zero, Nat.div_eq_of_lt hlt, Nat.mod_eq_of_lt hlt]
    exact ⟨rfl, fun hk => by rw [if_pos hk]⟩
  rw [if_neg (Nat.not_lt.2 hmn)] at h
  rcases Nat.lt_or_ge x.numWords 3 with hm3 | hm3
  · -- both fit a `u128`
    rw [if_pos hm3] at h
    simp only [Res.bind_eq_ok, tryIntoU128_eq_ok] at h
    obtain ⟨a, ⟨ha, rfl⟩, b, ⟨hb, rfl⟩, h⟩ := h
    simp only [Except.ok.injEq, Prod.mk.injEq] at h
    obtain ⟨rfl, rfl⟩ := h
    rw [toNat_new_zero (lt_of_le_of_lt (Nat.div_le_self _ _) ha)]
    refine ⟨rfl, fun hk => ?_⟩
    rw [if_pos hk, toNat_new_zero (lt_of_le_of_lt (Nat.mod_le _ _) ha)]
  rw [if_neg (Nat.not_lt.2 hm3)] at h
  rcases eq_or_ne v.numWords 1 with hn1 | hn1
  · -- a one-word divisor
    rw [if_pos hn1] at h
    simp only [Except.ok.injEq, Prod.mk.injEq] at h
    have hv1 : v.toNat = v.getWord 0 := by
      rw [toNat_eq_value_numWords, hn1]
      simp [value]
    have hm4 := x.numWords_le
    have hd := v.getWord_lt 0
    have hd0 := v.getWord_numWords_ne_zero hn0
    rw [hn1] at hd0
    obtain ⟨hout, hval, hr⟩ := divSmallLoop_spec (Nat.pos_of_ne_zero hd0) hd x
      x.numWords 0 (new 0 0) hm4 (Nat.pos_of_ne_zero hd0)
    rw [zero_mul, zero_add, ← toNat_eq_value_numWords, ← toNat_of_high_zero hm4 hout, ← hv1] at hval
    rw [← hv1] at hr
    obtain ⟨e1, e2⟩ := div_mod_unique hval hr
    rw [hv1] at e1 e2 hval hr ⊢
    obtain ⟨rfl, rfl⟩ := h
    refine ⟨e1, fun hk => ?_⟩
    rw [if_pos hk, toNat_new_zero (by omega)]
    exact e2
  · -- the division loop
    rw [if_neg hn1] at h
    simp only [Res.bind_eq_ok] at h
    obtain ⟨⟨q', r'⟩, hl, h⟩ := h
    simp only [Except.ok.injEq, Prod.mk.injEq] at h
    obtain ⟨rfl, rfl⟩ := h
    obtain ⟨n, hn⟩ : ∃ n, v.numWords = n + 2 := ⟨v.numWords - 2, by omega⟩
    rw [hn, show n + 2 - 1 = n + 1 by omega] at hl
    obtain ⟨e1, e2⟩ := div_normalised hn (by omega) rfl rfl hl
    refine ⟨e1, fun hk => ?_⟩
    rw [if_pos hk, hn, show n + 2 - 1 = n + 1 by omega]
    exact e2

end U256Muldiv

end NemoSwap
