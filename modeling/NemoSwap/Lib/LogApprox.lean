import Mathlib

set_option relaxedAutoImplicit false
set_option autoImplicit false

/-!
# Logarithmic error bounds for integer arithmetic

Fixed-point code that computes a power from a table of factors, or a logarithm by repeated
squaring, loses a little at every truncated division. On a logarithmic scale these losses add
up, so that the error of a whole loop is a sum over its steps.

## Main definitions

* `LogApprox.bitProduct` — the product of the table entries selected by the bits of an index,
  truncated after every multiplication.
* `LogApprox.FactorsWithin` — the table entries are powers of a base, up to a relative error;
  a decidable statement about integers.
* `LogApprox.squareLog` — the binary digits of a logarithm, by repeated squaring.

## Main results

* `LogApprox.log_bitProduct` — the truncated product approximates the power of the base.
* `LogApprox.squareLog_le`, `LogApprox.le_squareLog` — the digits bound the logarithm.
-/

namespace LogApprox

open Real

/-! ## Truncated division -/

/-- Truncating a quotient that is at least `M` lowers its logarithm by at most `2 / M`.

**Proof sketch.** The quotient loses less than one, a part of at most `1 / M` of a number of at
least `M`, and `log (1 - 1 / M)` is at least `-2 / M`. -/
theorem log_natDiv {a d : ℕ} {M : ℝ} (hd : 0 < d) (hM : 2 ≤ M) (ha : M * d ≤ a) :
    log (a / d : ℝ) - 2 / M ≤ log ((a / d : ℕ) : ℝ) ∧
      log ((a / d : ℕ) : ℝ) ≤ log (a / d : ℝ) ∧ 0 < a / d := by
  have hd' : (0 : ℝ) < d := by exact_mod_cast hd
  have hMx : M ≤ (a / d : ℝ) := by rwa [le_div_iff₀ hd']
  have hxpos : (0 : ℝ) < a / d := by linarith
  have hfl : (a / d : ℝ) - 1 ≤ ((a / d : ℕ) : ℝ) := by
    have hlt : (a : ℝ) / d < ((a / d : ℕ) : ℝ) + 1 := by
      rw [div_lt_iff₀ hd']
      have := Nat.lt_div_mul_add hd (a := a)
      have h' : (a : ℝ) < ((a / d * d + d : ℕ) : ℝ) := by exact_mod_cast this
      push_cast at h'
      linarith
    linarith
  have hle : ((a / d : ℕ) : ℝ) ≤ (a / d : ℝ) := Nat.cast_div_le
  have hpos : (0 : ℝ) < ((a / d : ℕ) : ℝ) := by linarith
  refine ⟨?_, log_le_log hpos hle, by exact_mod_cast hpos⟩
  -- `log q ≥ log x - 2 / M` since `q / x ≥ 1 - 1 / M`
  have hratio : 1 - 1 / M ≤ ((a / d : ℕ) : ℝ) / (a / d : ℝ) := by
    rw [le_div_iff₀ hxpos]
    have : 1 ≤ 1 / M * (a / d : ℝ) := by
      rw [one_div, inv_mul_eq_div, le_div_iff₀ (by linarith)]
      linarith
    nlinarith
  have hM0 : 0 < M := by linarith
  have h1 : 0 < 1 - 1 / M := by
    rw [sub_pos, div_lt_one hM0]
    linarith
  have h2 : -(2 / M) ≤ log (1 - 1 / M) := by
    refine le_trans ?_ (one_sub_inv_le_log_of_pos h1)
    have h3 : 1 - 1 / M = (M - 1) / M := by field_simp
    have hM1 : 0 < M - 1 := by linarith
    rw [h3, inv_div, neg_le_sub_iff_le_add, ← sub_le_iff_le_add', div_sub' (by linarith),
      div_le_div_iff₀ hM1 hM0]
    nlinarith
  have h4 := log_le_log h1 hratio
  rw [log_div hpos.ne' hxpos.ne'] at h4
  linarith

/-! ## Products selected by the bits of an index -/

/-- Starting from `r`, multiply by the table entries whose bit, from bit `i` on, is set in `t`,
and divide by the unit `D` after every multiplication. -/
def bitProduct (D t : ℕ) : ℕ → List ℕ → ℕ → ℕ
  | _, [], r => r
  | i, c :: cs, r => bitProduct D t (i + 1) cs (if t &&& 2 ^ i ≠ 0 then r * c / D else r)

/-- Every entry is `num / den` raised to half of `2 ^ i`, in units of `1 / D`, up to the
relative error `1 / 2 ^ p`. Both sides are squared so that only integers appear. -/
def FactorsWithin (p num den D : ℕ) : ℕ → List ℕ → Prop
  | _, [] => True
  | i, c :: cs =>
    ((2 ^ p - 1) * (D ^ 2 * num ^ 2 ^ i) ≤ 2 ^ p * (c ^ 2 * den ^ 2 ^ i) ∧
      2 ^ p * (c ^ 2 * den ^ 2 ^ i) ≤ (2 ^ p + 1) * (D ^ 2 * num ^ 2 ^ i)) ∧
      FactorsWithin p num den D (i + 1) cs

instance decidableFactorsWithin (p num den D : ℕ) :
    ∀ (i : ℕ) (cs : List ℕ), Decidable (FactorsWithin p num den D i cs)
  | _, [] => isTrue trivial
  | i, _ :: cs =>
    haveI := decidableFactorsWithin p num den D (i + 1) cs
    inferInstanceAs (Decidable (_ ∧ _))

/-- The logarithmic form of one entry's bound.

**Proof sketch.** The bound compares the `2 ^ (i + 1)`-th powers of the factor and of the base up to
one part in `2 ^ p`. Taking logarithms turns the powers into multiples and the part into a sum. -/
lemma log_factor {p num den D i c : ℕ} (hp : 0 < p) (hn : 0 < num) (hd : 0 < den) (hD : 0 < D)
    (hlo : (2 ^ p - 1) * (D ^ 2 * num ^ 2 ^ i) ≤ 2 ^ p * (c ^ 2 * den ^ 2 ^ i))
    (hhi : 2 ^ p * (c ^ 2 * den ^ 2 ^ i) ≤ (2 ^ p + 1) * (D ^ 2 * num ^ 2 ^ i)) :
    0 < c ∧ |log (c / D : ℝ) - 2 ^ i * (log (num / den : ℝ) / 2)| ≤ 1 / 2 ^ p := by
  have h2p : (2 : ℝ) ≤ 2 ^ p := by
    calc (2 : ℝ) = 2 ^ 1 := by norm_num
      _ ≤ 2 ^ p := pow_le_pow_right₀ (by norm_num) hp
  have h2pn : 2 ≤ 2 ^ p := by exact_mod_cast h2p
  have hnR : (0 : ℝ) < num := by exact_mod_cast hn
  have hdR : (0 : ℝ) < den := by exact_mod_cast hd
  have hDR : (0 : ℝ) < D := by exact_mod_cast hD
  have hc : 0 < c := by
    rcases Nat.eq_zero_or_pos c with h0 | h0
    · subst h0
      have : 0 < (2 ^ p - 1) * (D ^ 2 * num ^ 2 ^ i) :=
        Nat.mul_pos (by omega) (by positivity)
      simp at hlo
      omega
    · exact h0
  have hcR : (0 : ℝ) < c := by exact_mod_cast hc
  refine ⟨hc, ?_⟩
  have hA : (0 : ℝ) < D ^ 2 * num ^ 2 ^ i := by positivity
  have hB : (0 : ℝ) < c ^ 2 * den ^ 2 ^ i := by positivity
  have hlo' : ((2 : ℝ) ^ p - 1) * (D ^ 2 * num ^ 2 ^ i) ≤ 2 ^ p * (c ^ 2 * den ^ 2 ^ i) := by
    have : (((2 ^ p - 1) * (D ^ 2 * num ^ 2 ^ i) : ℕ) : ℝ) ≤
        ((2 ^ p * (c ^ 2 * den ^ 2 ^ i) : ℕ) : ℝ) := by exact_mod_cast hlo
    push_cast [Nat.cast_sub (show 1 ≤ 2 ^ p by omega)] at this
    exact this
  have hhi' : (2 : ℝ) ^ p * (c ^ 2 * den ^ 2 ^ i) ≤ (2 ^ p + 1) * (D ^ 2 * num ^ 2 ^ i) := by
    exact_mod_cast hhi
  have hlog : log (c ^ 2 * den ^ 2 ^ i / (D ^ 2 * num ^ 2 ^ i) : ℝ) =
      2 * (log (c / D : ℝ) - 2 ^ i * (log (num / den : ℝ) / 2)) := by
    rw [log_div hB.ne' hA.ne', log_mul (by positivity) (by positivity),
      log_mul (by positivity) (by positivity), log_pow, log_pow, log_pow, log_pow,
      log_div hcR.ne' hDR.ne', log_div hnR.ne' hdR.ne']
    push_cast
    ring
  have hup : log (c ^ 2 * den ^ 2 ^ i / (D ^ 2 * num ^ 2 ^ i) : ℝ) ≤ 1 / 2 ^ p := by
    refine (log_le_sub_one_of_pos (by positivity)).trans ?_
    rw [sub_le_iff_le_add, div_le_iff₀ hA]
    have : (1 / 2 ^ p + 1 : ℝ) = (2 ^ p + 1) / 2 ^ p := by
      field_simp
      ring
    rw [this, div_mul_eq_mul_div, le_div_iff₀ (by positivity)]
    linarith
  have hdown : -(2 / 2 ^ p) ≤ log (c ^ 2 * den ^ 2 ^ i / (D ^ 2 * num ^ 2 ^ i) : ℝ) := by
    refine le_trans ?_ (one_sub_inv_le_log_of_pos (by positivity))
    rw [inv_div, neg_le_sub_iff_le_add, ← sub_le_iff_le_add', sub_le_iff_le_add, div_le_iff₀ hB]
    -- `A ≤ (1 + 2 / N) B` follows from `(N - 1) A ≤ N B` for `N ≥ 2`
    have hN : (0 : ℝ) < 2 ^ p := by positivity
    rw [show (2 / 2 ^ p + 1 : ℝ) = (2 ^ p + 2) / 2 ^ p by field_simp; ring,
      div_mul_eq_mul_div, le_div_iff₀ hN]
    nlinarith
  have h2 : (2 : ℝ) / 2 ^ p = 2 * (1 / 2 ^ p) := by ring
  rw [hlog] at hup hdown
  have hpos : (0 : ℝ) < 1 / 2 ^ p := by positivity
  rw [abs_le]
  constructor <;> linarith

/-- The part of an index below bit `i + 1`. -/
lemma mod_two_pow_succ (t i : ℕ) :
    t % 2 ^ (i + 1) = t % 2 ^ i + if t &&& 2 ^ i ≠ 0 then 2 ^ i else 0 := by
  rw [Nat.mod_pow_succ, Nat.and_two_pow]
  rcases Nat.mod_two_eq_zero_or_one (t / 2 ^ i) with h | h
  · have hb : t.testBit i = false := by
      rw [Nat.testBit_eq_decide_div_mod_eq, h]
      rfl
    simp [h, hb]
  · have hb : t.testBit i = true := by
      rw [Nat.testBit_eq_decide_div_mod_eq, h]
      rfl
    simp [h, hb]

/-- **The truncated product approximates the power of the base.** Every step adds the error of
its factor and of its truncation; `M` is a lower bound of all intermediate values.

**Proof sketch.** Induction on the factors. A bit that is set multiplies by its factor, whose
logarithm is known up to its own error, and truncates, which `log_natDiv` bounds; a bit that is not
set changes nothing. -/
theorem log_bitProduct {p num den D t : ℕ} {M : ℝ} (hp : 0 < p) (hn : 0 < num) (hd : 0 < den)
    (hD : 0 < D) (hM : 2 ≤ M) :
    ∀ (cs : List ℕ) (i r : ℕ) (e : ℝ), FactorsWithin p num den D i cs → 0 < r →
      |log (r / D : ℝ) - (t % 2 ^ i : ℕ) * (log (num / den : ℝ) / 2)| ≤ e →
      (∀ m ≤ t, log (M / D) + (e + cs.length * (1 / 2 ^ p + 2 / M)) ≤
        m * (log (num / den : ℝ) / 2)) →
      0 < bitProduct D t i cs r ∧
        |log (bitProduct D t i cs r / D : ℝ) -
          (t % 2 ^ (i + cs.length) : ℕ) * (log (num / den : ℝ) / 2)| ≤
          e + cs.length * (1 / 2 ^ p + 2 / M)
  | [], i, r, e, _, hr, he, _ => by simpa [bitProduct] using ⟨hr, he⟩
  | c :: cs, i, r, e, hcs, hr, he, hlow => by
    obtain ⟨⟨hlo, hhi⟩, hrest⟩ := hcs
    obtain ⟨hc, hcl⟩ := log_factor hp hn hd hD hlo hhi
    have hDR : (0 : ℝ) < D := by exact_mod_cast hD
    have hrR : (0 : ℝ) < r := by exact_mod_cast hr
    have hcR : (0 : ℝ) < c := by exact_mod_cast hc
    have hMpos : 0 < M := by linarith
    have hu : (0 : ℝ) ≤ 1 / 2 ^ p + 2 / M := by positivity
    have hp0 : (0 : ℝ) ≤ 1 / 2 ^ p := by positivity
    have hm0 : (0 : ℝ) ≤ 2 / M := by positivity
    simp only [List.length_cons, Nat.cast_add, Nat.cast_one] at hlow ⊢
    -- one step
    have hstep : 0 < (if t &&& 2 ^ i ≠ 0 then r * c / D else r) ∧
        |log ((if t &&& 2 ^ i ≠ 0 then r * c / D else r : ℕ) / D : ℝ) -
          (t % 2 ^ (i + 1) : ℕ) * (log (num / den : ℝ) / 2)| ≤ e + (1 / 2 ^ p + 2 / M) := by
      have hmod := mod_two_pow_succ t i
      split_ifs at hmod ⊢ with hbit
      · have hy : log (r * c / D / D : ℝ) = log (r / D : ℝ) + log (c / D : ℝ) := by
          rw [← log_mul (by positivity) (by positivity)]
          congr 1
          field_simp
        have hmul : ((t % 2 ^ (i + 1) : ℕ) : ℝ) * (log (num / den : ℝ) / 2) =
            (t % 2 ^ i : ℕ) * (log (num / den : ℝ) / 2) +
              2 ^ i * (log (num / den : ℝ) / 2) := by
          rw [hmod]
          push_cast
          ring
        have hcur := hlow (t % 2 ^ (i + 1)) (Nat.mod_le _ _)
        rw [abs_le] at he hcl
        have hlen : (0 : ℝ) ≤ cs.length * (1 / 2 ^ p + 2 / M) := by positivity
        have hMle : M * D ≤ ((r * c : ℕ) : ℝ) := by
          have hlog : log (M / D) ≤ log (r * c / D / D : ℝ) := by linarith
          have := (log_le_log_iff (by positivity) (by positivity)).1 hlog
          rw [div_le_div_iff_of_pos_right hDR, le_div_iff₀ hDR] at this
          push_cast
          exact this
        obtain ⟨h1, h2, h3⟩ := log_natDiv hD hM hMle
        have hq : (0 : ℝ) < ((r * c / D : ℕ) : ℝ) := by exact_mod_cast h3
        refine ⟨h3, ?_⟩
        push_cast at h1 h2
        rw [log_div (by positivity) hDR.ne'] at hy ⊢
        rw [abs_le]
        constructor <;> linarith
      · rw [add_zero] at hmod
        rw [hmod]
        exact ⟨hr, he.trans (by linarith)⟩
    obtain ⟨hpos, herr⟩ := hstep
    obtain ⟨h1, h2⟩ := log_bitProduct hp hn hd hD hM cs (i + 1) _ _ hrest hpos herr fun m hm => by
      have := hlow m hm
      linarith
    refine ⟨h1, ?_⟩
    rw [show i + (cs.length + 1) = i + 1 + cs.length by ring]
    refine h2.trans (le_of_eq ?_)
    ring

/-- The product over a whole table, started at the unit. -/
theorem log_bitProduct_unit {p num den D t : ℕ} {M : ℝ} {cs : List ℕ} (hp : 0 < p) (hn : 0 < num)
    (hd : 0 < den) (hD : 0 < D) (hM : 2 ≤ M) (hcs : FactorsWithin p num den D 0 cs)
    (ht : t < 2 ^ cs.length)
    (hlow : ∀ m ≤ t, log (M / D) + cs.length * (1 / 2 ^ p + 2 / M) ≤
      m * (log (num / den : ℝ) / 2)) :
    0 < bitProduct D t 0 cs D ∧
      |log (bitProduct D t 0 cs D / D : ℝ) - t * (log (num / den : ℝ) / 2)| ≤
        cs.length * (1 / 2 ^ p + 2 / M) := by
  have hDR : (D : ℝ) ≠ 0 := by exact_mod_cast hD.ne'
  have hstart : |log (D / D : ℝ) - (t % 2 ^ 0 : ℕ) * (log (num / den : ℝ) / 2)| ≤ 0 := by
    rw [pow_zero, Nat.mod_one, div_self hDR]
    simp
  have h := log_bitProduct hp hn hd hD hM cs 0 D 0 hcs hD hstart fun m hm => by
    rw [zero_add]
    exact hlow m hm
  rwa [zero_add, zero_add, Nat.mod_eq_of_lt ht] at h

/-- With entries of at least one unit, the product does not decrease. -/
lemma le_bitProduct {D t : ℕ} (hD : 0 < D) :
    ∀ (cs : List ℕ) (i r : ℕ), (∀ c ∈ cs, D ≤ c) → r ≤ bitProduct D t i cs r
  | [], _, _, _ => le_rfl
  | c :: cs, i, r, h => by
    unfold bitProduct
    refine le_trans ?_ (le_bitProduct hD cs (i + 1) _ fun x hx => h x (List.mem_cons_of_mem _ hx))
    split_ifs
    · rw [Nat.le_div_iff_mul_le hD]
      exact Nat.mul_le_mul_left r (h c List.mem_cons_self)
    · exact le_rfl

/-! ## Logarithms by repeated squaring -/

/-- `n` binary digits of the logarithm of `r / 2 ^ k` to base `2`, where
`2 ^ k ≤ r < 2 ^ (k + 1)`: square, and halve if the square is at least `2`. -/
def squareLog (k : ℕ) : ℕ → ℕ → ℕ
  | 0, _ => 0
  | n + 1, r =>
    let b := r * r / 2 ^ (2 * k + 1)
    b * 2 ^ n + squareLog k n (r * r / 2 ^ (k + b))

/-- One squaring: the digit is `0` or `1`, the next value is normalised again, and the square
is the scaled next value up to one unit.

**Proof sketch.** The square lies between `2 ^ (2 k)` and `2 ^ (2 k + 2)`, and the digit tells in
which half. -/
theorem square_step {k r : ℕ} (hlo : 2 ^ k ≤ r) (hhi : r < 2 ^ (k + 1)) :
    r * r / 2 ^ (2 * k + 1) ≤ 1 ∧
      2 ^ k ≤ r * r / 2 ^ (k + r * r / 2 ^ (2 * k + 1)) ∧
      r * r / 2 ^ (k + r * r / 2 ^ (2 * k + 1)) < 2 ^ (k + 1) := by
  have hsq : 2 ^ (2 * k) ≤ r * r := by
    rw [two_mul, pow_add]
    exact Nat.mul_le_mul hlo hlo
  have hsq2 : r * r < 2 ^ (2 * k + 2) := by
    rw [show 2 * k + 2 = (k + 1) + (k + 1) by ring, pow_add]
    exact Nat.mul_lt_mul'' hhi hhi
  have hb : r * r / 2 ^ (2 * k + 1) ≤ 1 := by
    rw [← Nat.lt_succ_iff, Nat.div_lt_iff_lt_mul (by positivity)]
    calc r * r < 2 ^ (2 * k + 2) := hsq2
      _ = Nat.succ 1 * 2 ^ (2 * k + 1) := by
        rw [pow_succ, mul_comm]
  refine ⟨hb, ?_, ?_⟩
  · rw [Nat.le_div_iff_mul_le (by positivity), ← pow_add]
    rcases Nat.lt_or_ge (r * r) (2 ^ (2 * k + 1)) with h | h
    · rw [Nat.div_eq_of_lt h, add_zero, ← two_mul]
      exact hsq
    · have hb1 : r * r / 2 ^ (2 * k + 1) = 1 :=
        le_antisymm hb ((Nat.one_le_div_iff (by positivity)).2 h)
      rw [hb1, show k + (k + 1) = 2 * k + 1 by ring]
      exact h
  · rw [Nat.div_lt_iff_lt_mul (by positivity), ← pow_add]
    rcases Nat.lt_or_ge (r * r) (2 ^ (2 * k + 1)) with h | h
    · rw [Nat.div_eq_of_lt h, add_zero, show k + 1 + k = 2 * k + 1 by ring]
      exact h
    · have hb1 : r * r / 2 ^ (2 * k + 1) = 1 :=
        le_antisymm hb ((Nat.one_le_div_iff (by positivity)).2 h)
      rw [hb1, show k + 1 + (k + 1) = 2 * k + 2 by ring]
      exact hsq2

/-- One squaring of the mantissa: the logarithm doubles, and each bit that is shifted out is a
two. -/
lemma log_square_step {k r b : ℕ} (hr : 0 < r) :
    2 * log (r / 2 ^ k : ℝ) = log (r * r / 2 ^ (k + b) / 2 ^ k : ℝ) + b * log 2 := by
  have hrR : (0 : ℝ) < r := by exact_mod_cast hr
  rw [pow_add, log_div (by positivity) (by positivity), log_div (by positivity) (by positivity),
    log_div (by positivity) (by positivity), log_mul (by positivity) (by positivity),
    log_mul (by positivity) (by positivity), log_pow, log_pow]
  ring

/-- The digits are a lower bound of the logarithm.

**Proof sketch.** Induction on the number of digits. Squaring doubles the logarithm, the digit is a
two that is split off, and a truncated square is not greater. -/
theorem squareLog_le {k : ℕ} : ∀ (n r : ℕ), 2 ^ k ≤ r → r < 2 ^ (k + 1) →
    (squareLog k n r : ℝ) * log 2 ≤ 2 ^ n * log (r / 2 ^ k : ℝ)
  | 0, r, hlo, _ => by
    have : (1 : ℝ) ≤ r / 2 ^ k := by
      rw [le_div_iff₀ (by positivity), one_mul]
      exact_mod_cast hlo
    simpa [squareLog] using log_nonneg this
  | n + 1, r, hlo, hhi => by
    obtain ⟨-, h1, h2⟩ := square_step hlo hhi
    have hr : 0 < r := lt_of_lt_of_le (by positivity) hlo
    have ih := squareLog_le n _ h1 h2
    unfold squareLog
    simp only []
    generalize r * r / 2 ^ (2 * k + 1) = b at *
    have hstep := log_square_step (k := k) (b := b) hr
    have hpos : (0 : ℝ) < ((r * r / 2 ^ (k + b) : ℕ) : ℝ) := by
      have : 0 < r * r / 2 ^ (k + b) := lt_of_lt_of_le (by positivity) h1
      exact_mod_cast this
    have hle : log ((r * r / 2 ^ (k + b) : ℕ) / 2 ^ k : ℝ) ≤
        log (r * r / 2 ^ (k + b) / 2 ^ k : ℝ) := by
      refine log_le_log (by positivity) (div_le_div_of_nonneg_right ?_ (by positivity))
      exact_mod_cast Nat.cast_div_le (m := r * r) (n := 2 ^ (k + b)) (α := ℝ)
    have h2n : (0 : ℝ) < 2 ^ n := by positivity
    calc ((b * 2 ^ n + squareLog k n (r * r / 2 ^ (k + b)) : ℕ) : ℝ) * log 2 =
        2 ^ n * (b * log 2) + squareLog k n (r * r / 2 ^ (k + b)) * log 2 := by
          push_cast
          ring
      _ ≤ 2 ^ n * (b * log 2) + 2 ^ n * log (r * r / 2 ^ (k + b) / 2 ^ k : ℝ) := by
          have := mul_le_mul_of_nonneg_left hle h2n.le
          linarith
      _ = 2 ^ (n + 1) * log (r / 2 ^ k : ℝ) := by
          rw [pow_succ, mul_assoc, hstep]
          ring

/-- The digits are an upper bound up to one unit in the last place and the truncations.

**Proof sketch.** As for the lower bound; the truncation loses less than a factor of `1 + 1 / 2 ^
k`, whose logarithm is at most `1 / 2 ^ k`, and the losses of all digits add up to the given
term. -/
theorem le_squareLog {k : ℕ} : ∀ (n r : ℕ), 2 ^ k ≤ r → r < 2 ^ (k + 1) →
    2 ^ n * log (r / 2 ^ k : ℝ) ≤ (squareLog k n r + 1 : ℝ) * log 2 + (2 ^ n - 1) / 2 ^ k
  | 0, r, hlo, hhi => by
    have hr : (0 : ℝ) < r := by exact_mod_cast lt_of_lt_of_le (by positivity) hlo
    have hlog := log_le_log (x := (r / 2 ^ k : ℝ)) (y := 2) (by positivity) (by
      rw [div_le_iff₀ (by positivity)]
      have : (r : ℝ) ≤ (2 ^ (k + 1) : ℕ) := by exact_mod_cast hhi.le
      push_cast at this
      linarith [pow_succ (2 : ℝ) k])
    simpa [squareLog] using hlog
  | n + 1, r, hlo, hhi => by
    obtain ⟨-, h1, h2⟩ := square_step hlo hhi
    have hr : 0 < r := lt_of_lt_of_le (by positivity) hlo
    have ih := le_squareLog n _ h1 h2
    unfold squareLog
    simp only []
    generalize r * r / 2 ^ (2 * k + 1) = b at *
    have hstep := log_square_step (k := k) (b := b) hr
    have hlt := Nat.lt_div_mul_add (show 0 < 2 ^ (k + b) by positivity) (a := r * r)
    generalize r * r / 2 ^ (k + b) = q at *
    have hqR : (2 : ℝ) ^ k ≤ q := by exact_mod_cast h1
    have hk : (0 : ℝ) < 2 ^ k := by positivity
    have hq0 : (0 : ℝ) < q := by linarith
    have hkb : (0 : ℝ) < 2 ^ (k + b) := by positivity
    have hrR : (0 : ℝ) < r := by exact_mod_cast hr
    -- the truncation loses less than a factor `1 + 1 / 2 ^ k`
    have hle : log (r * r / 2 ^ (k + b) / 2 ^ k : ℝ) ≤ log (q / 2 ^ k : ℝ) + 1 / 2 ^ k := by
      have h3 : (r * r / 2 ^ (k + b) : ℝ) ≤ q + 1 := by
        rw [div_le_iff₀ hkb]
        have h' : ((r * r : ℕ) : ℝ) ≤ ((q * 2 ^ (k + b) + 2 ^ (k + b) : ℕ) : ℝ) := by
          exact_mod_cast hlt.le
        push_cast at h'
        linarith
      have h4 : (q + 1 : ℝ) / 2 ^ k ≤ q / 2 ^ k * (1 + 1 / 2 ^ k) := by
        have h5 : (1 : ℝ) ≤ q / 2 ^ k := by rwa [le_div_iff₀ hk, one_mul]
        rw [add_div, mul_add, mul_one]
        have : (0 : ℝ) < 1 / 2 ^ k := by positivity
        nlinarith
      calc log (r * r / 2 ^ (k + b) / 2 ^ k : ℝ) ≤ log (q / 2 ^ k * (1 + 1 / 2 ^ k)) :=
            log_le_log (by positivity) ((div_le_div_of_nonneg_right h3 hk.le).trans h4)
        _ = log (q / 2 ^ k : ℝ) + log (1 + 1 / 2 ^ k) := log_mul (by positivity) (by positivity)
        _ ≤ log (q / 2 ^ k : ℝ) + 1 / 2 ^ k := by
            have := log_le_sub_one_of_pos (show (0 : ℝ) < 1 + 1 / 2 ^ k by positivity)
            linarith
    have h2n : (0 : ℝ) < 2 ^ n := by positivity
    calc (2 : ℝ) ^ (n + 1) * log (r / 2 ^ k : ℝ) =
        2 ^ n * log (r * r / 2 ^ (k + b) / 2 ^ k : ℝ) + 2 ^ n * (b * log 2) := by
          rw [pow_succ, mul_assoc, hstep]
          ring
      _ ≤ 2 ^ n * (log (q / 2 ^ k : ℝ) + 1 / 2 ^ k) + 2 ^ n * (b * log 2) := by
          have := mul_le_mul_of_nonneg_left hle h2n.le
          linarith
      _ ≤ (squareLog k n q + 1 : ℝ) * log 2 + (2 ^ n - 1) / 2 ^ k + 2 ^ n * (1 / 2 ^ k) +
          2 ^ n * (b * log 2) := by linarith
      _ = ((b * 2 ^ n + squareLog k n q : ℕ) + 1 : ℝ) * log 2 + (2 ^ (n + 1) - 1) / 2 ^ k := by
          push_cast
          rw [pow_succ]
          ring

end LogApprox
