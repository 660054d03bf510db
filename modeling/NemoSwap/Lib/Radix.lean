import Mathlib

set_option relaxedAutoImplicit false
set_option autoImplicit false

/-!
# Positional numbers and the quotient digit of long division

A number in base `b` is a digit function `w : ℕ → ℕ`, read up to a length. This file has the
window algebra of such numbers and the arithmetic heart of schoolbook division: the estimate
of a quotient digit from the top two digits, corrected by a third, is off by at most one.

## Main definitions

* `Radix.value b w n` — the number with digits `w 0, …, w (n - 1)`.

## Main results

* `Radix.value_lt` — digits below the base give a number below `b ^ n`.
* `Radix.value_add` — splitting a number at a position.
* `Radix.le_estimate`, `Radix.estimate_decrement`, `Radix.estimate_le` — the estimate is an
  upper bound, a failed three-digit test allows a decrement, and a passed test leaves the
  estimate at most one too large.
-/

namespace Radix

open Finset

/-- The number with base-`b` digits `w 0, …, w (n - 1)`, least significant first. -/
def value (b : ℕ) (w : ℕ → ℕ) (n : ℕ) : ℕ := ∑ i ∈ range n, w i * b ^ i

variable {b : ℕ}

/-- No digits have the value zero. -/
@[simp] lemma value_zero (w : ℕ → ℕ) : value b w 0 = 0 := rfl

/-- The next digit counts with the next power of the base. -/
lemma value_succ (w : ℕ → ℕ) (n : ℕ) : value b w (n + 1) = value b w n + w n * b ^ n :=
  sum_range_succ _ _

/-- Numbers with the same digits are equal. -/
lemma value_congr {w w' : ℕ → ℕ} {n : ℕ} (h : ∀ i < n, w i = w' i) :
    value b w n = value b w' n :=
  sum_congr rfl fun i hi => by rw [h i (mem_range.1 hi)]

/-- Digits below the base give a number below `b ^ n`. -/
theorem value_lt {w : ℕ → ℕ} : ∀ {n : ℕ}, (∀ i < n, w i < b) → value b w n < b ^ n
  | 0, _ => by simp
  | n + 1, h => by
    have ih := value_lt (n := n) fun i hi => h i (by omega)
    have hn := h n (by omega)
    rw [value_succ, pow_succ]
    calc value b w n + w n * b ^ n < b ^ n + w n * b ^ n := by omega
      _ = (w n + 1) * b ^ n := by ring
      _ ≤ b * b ^ n := Nat.mul_le_mul_right _ hn
      _ = b ^ n * b := by ring

/-- A number splits at position `m` into its low part and its high part. -/
theorem value_add (w : ℕ → ℕ) (m n : ℕ) :
    value b w (m + n) = value b w m + b ^ m * value b (fun i => w (m + i)) n := by
  induction n with
  | zero => simp
  | succ n ih =>
    rw [← add_assoc, value_succ, ih, value_succ, pow_add]
    ring

/-- A number whose digits vanish from position `m` on is its low part. -/
lemma value_eq_of_high_zero {w : ℕ → ℕ} {m n : ℕ} (h : ∀ i < n, w (m + i) = 0) :
    value b w (m + n) = value b w m := by
  have hzero : value b (fun i => w (m + i)) n = value b (fun _ => 0) n := value_congr h
  rw [value_add, hzero]
  simp [value]

/-- The digits above a number below `b ^ m` vanish. -/
theorem high_zero_of_value_lt {w : ℕ → ℕ} {m n : ℕ} (hb : 0 < b)
    (h : value b w (m + n) < b ^ m) : ∀ i < n, w (m + i) = 0 := by
  rw [value_add] at h
  have hz : value b (fun i => w (m + i)) n = 0 := by
    by_contra hne
    have := Nat.le_mul_of_pos_right (b ^ m) (Nat.pos_of_ne_zero hne)
    omega
  intro i hi
  have := (sum_eq_zero_iff.1 hz) i (mem_range.2 hi)
  simpa [hb.ne'] using this

/-- A nonzero top digit bounds a number from below. -/
lemma pow_le_value {w : ℕ → ℕ} {n : ℕ} (h : w n ≠ 0) : b ^ n ≤ value b w (n + 1) := by
  rw [value_succ]
  have := Nat.le_mul_of_pos_left (b ^ n) (Nat.pos_of_ne_zero h)
  omega

/-- A multiple of the top weight inside a number bounds its top digit. -/
theorem le_top_digit {w : ℕ → ℕ} {n c : ℕ} (hw : ∀ i < n, w i < b)
    (h : c * b ^ n ≤ value b w (n + 1)) : c ≤ w n := by
  have hlow := value_lt hw
  rw [value_succ] at h
  have hlt : c * b ^ n < (w n + 1) * b ^ n := by
    rw [Nat.succ_mul]
    omega
  exact Nat.lt_succ_iff.1 (lt_of_mul_lt_mul_right hlt (Nat.zero_le _))

/-! ## The quotient digit

The dividend window is `u = d * p * b + u' * p + r` and the divisor `v = v₁ * p * b + v' * p + s`,
with `p` the weight of the third digit: `d` is the top two-digit number of the window, `v₁` the
top digit of the divisor, and `u'`, `v'` the next digits. -/

section Estimate

variable {u v d v₁ u' v' p r s q qhat rhat : ℕ}

/-- The two-digit estimate is an upper bound of the quotient digit. -/
theorem le_estimate (hu : u = (d * b + u') * p + r) (hv : v = (v₁ * b + v') * p + s)
    (hu' : u' < b) (hr : r < p) (hv₁ : 0 < v₁) (hq : q * v ≤ u) :
    q ≤ d / v₁ := by
  rw [Nat.le_div_iff_mul_le hv₁]
  have hlt : q * v₁ * (b * p) < (d + 1) * (b * p) := by
    calc q * v₁ * (b * p) ≤ q * v := by
          rw [hv]
          nlinarith [Nat.zero_le (q * v' * p), Nat.zero_le (q * s)]
      _ ≤ u := hq
      _ = (d * b + u') * p + r := hu
      _ < (d * b + u' + 1) * p := by
          rw [add_mul (d * b + u') 1 p]
          omega
      _ ≤ (d * b + b) * p := Nat.mul_le_mul_right p (by omega)
      _ = (d + 1) * (b * p) := by ring
  exact Nat.lt_succ_iff.1 (lt_of_mul_lt_mul_right hlt (Nat.zero_le _))

/-- If the estimate fails the three-digit test, it is strictly above the quotient digit. -/
theorem estimate_decrement (hu : u = (d * b + u') * p + r) (hv : v = (v₁ * b + v') * p + s)
    (hr : r < p) (hd : d = qhat * v₁ + rhat) (htest : rhat * b + u' < qhat * v')
    (hq : q * v ≤ u) (hle : q ≤ qhat) : q < qhat := by
  rcases Nat.lt_or_eq_of_le hle with h | rfl
  · exact h
  exfalso
  have h1 : (q * v₁ * b + q * v') * p ≤ q * v := by
    rw [hv]
    nlinarith [Nat.zero_le (q * s)]
  have h2 : u < (d * b + u' + 1) * p := by
    rw [hu, add_mul (d * b + u') 1 p]
    omega
  have h3 : (q * v₁ * b + q * v') * p < (d * b + u' + 1) * p := lt_of_le_of_lt (h1.trans hq) h2
  have h4 := lt_of_mul_lt_mul_right h3 (Nat.zero_le p)
  rw [hd, add_mul] at h4
  omega

/-- If the estimate passes the three-digit test and is a digit, it exceeds the quotient digit
by at most one: lowering it by one gives a multiple of the divisor inside the window.

**Proof sketch.** The three-digit test bounds `qhat` times the three leading digits of the divisor
by those of the window. The rest of the divisor is less than one unit of the last of these digits,
and `qhat` times it less than the divisor, which is what is taken off with the one. -/
theorem estimate_le (hu : u = (d * b + u') * p + r) (hv : v = (v₁ * b + v') * p + s)
    (hs : s < p) (hd : d = qhat * v₁ + rhat) (htest : qhat * v' ≤ rhat * b + u')
    (hqb : qhat < b) (hv₁ : 0 < v₁) : (qhat - 1) * v ≤ u := by
  have hkey : qhat * ((v₁ * b + v') * p) ≤ (d * b + u') * p := by
    rw [hd, ← mul_assoc]
    exact Nat.mul_le_mul_right p (by nlinarith)
  have hsv : qhat * s ≤ v := by
    calc qhat * s ≤ b * p := Nat.mul_le_mul hqb.le hs.le
      _ ≤ v := by
          rw [hv]
          nlinarith [Nat.mul_le_mul_right (b * p) hv₁]
  rcases Nat.eq_zero_or_pos qhat with h0 | h0
  · simp [h0]
  have hsplit : (qhat - 1) * v + v = qhat * v := by
    rw [← Nat.succ_mul, Nat.succ_eq_add_one, Nat.sub_add_cancel h0]
  have hqv : qhat * v = qhat * ((v₁ * b + v') * p) + qhat * s := by
    rw [hv]
    ring
  omega

end Estimate

end Radix
