import NemoSwap.Errors

set_option relaxedAutoImplicit false
set_option autoImplicit false

/-!
# Machine words and `bit_math.rs`

Unsigned machine integers are embedded as natural numbers; the operations below make the
width explicit where the source checks it or wraps at it. The rest of the file embeds
`bit_math.rs`: rounded products and quotients of `u128` values.

## Main definitions

* `NemoSwap.checkedAdd`, `checkedSub`, `checkedMul`, `wrappingAdd`, `wrappingSub` — Rust's
  integer operations of the same names.
* `NemoSwap.checkedMulDivRoundUpIf`, `checkedMulShiftRightRoundUpIf`, `divRoundUpIf` — the
  functions of `bit_math.rs`.
* `NemoSwap.roundDiv` — the mathematical value they compute: the floor or ceiling of a
  quotient.

## Main results

* `NemoSwap.checkedMulDivRoundUpIf_eq_ok`, `NemoSwap.checkedMulShiftRightRoundUpIf_eq_ok`,
  `NemoSwap.divRoundUpIf_eq_ok` — what a successful call returns.
-/

namespace NemoSwap

/-! ## Machine words -/

/-- Rust's `checked_add` at width `w`. -/
def checkedAdd (w a b : ℕ) : Option ℕ := if a + b < 2 ^ w then some (a + b) else none

/-- Rust's `checked_sub` on an unsigned type. -/
def checkedSub (a b : ℕ) : Option ℕ := if b ≤ a then some (a - b) else none

/-- Rust's `checked_mul` at width `w`. -/
def checkedMul (w a b : ℕ) : Option ℕ := if a * b < 2 ^ w then some (a * b) else none

/-- Rust's `wrapping_add` at width `w`; also a plain `+`, since the release profile of the
program has no overflow checks. -/
def wrappingAdd (w a b : ℕ) : ℕ := (a + b) % 2 ^ w

/-- Rust's `wrapping_sub` at width `w`; also a plain `-`, as for `wrappingAdd`. -/
def wrappingSub (w a b : ℕ) : ℕ := (a + 2 ^ w - b % 2 ^ w) % 2 ^ w

/-- Conversion to `u64` by `try_into`. -/
def tryIntoU64 (n : ℕ) : Res ℕ := if n < 2 ^ 64 then .ok n else err .NumberCastError

/-- `checked_add` succeeds exactly if the sum fits. -/
lemma checkedAdd_eq_some {w a b c : ℕ} :
    checkedAdd w a b = some c ↔ a + b < 2 ^ w ∧ a + b = c := by
  simp [checkedAdd]

/-- `checked_sub` succeeds exactly if the difference is not negative. -/
lemma checkedSub_eq_some {a b c : ℕ} : checkedSub a b = some c ↔ b ≤ a ∧ a - b = c := by
  simp [checkedSub]

/-- `checked_mul` succeeds exactly if the product fits. -/
lemma checkedMul_eq_some {w a b c : ℕ} :
    checkedMul w a b = some c ↔ a * b < 2 ^ w ∧ a * b = c := by
  simp [checkedMul]

/-- A conversion to `u64` succeeds exactly if the number fits. -/
theorem tryIntoU64_eq_ok {n m : ℕ} : tryIntoU64 n = .ok m ↔ n < 2 ^ 64 ∧ n = m := by
  unfold tryIntoU64
  split_ifs with h
  · simp only [h, true_and, Except.ok.injEq]
  · simp only [h, false_and, err_ne_ok]

/-- Without an overflow the wrapping sum is the sum. -/
lemma wrappingAdd_of_lt {w a b : ℕ} (h : a + b < 2 ^ w) : wrappingAdd w a b = a + b :=
  Nat.mod_eq_of_lt h

/-- A wrapping sum never exceeds the sum. -/
lemma wrappingAdd_le (w a b : ℕ) : wrappingAdd w a b ≤ a + b := Nat.mod_le _ _

/-- A wrapped sum fits. -/
lemma wrappingAdd_lt (w a b : ℕ) : wrappingAdd w a b < 2 ^ w :=
  Nat.mod_lt _ (by positivity)

/-- Without an underflow the wrapping difference is the difference. -/
lemma wrappingSub_of_le {w a b : ℕ} (ha : a < 2 ^ w) (h : b ≤ a) :
    wrappingSub w a b = a - b := by
  unfold wrappingSub
  rw [Nat.mod_eq_of_lt (lt_of_le_of_lt h ha), show a + 2 ^ w - b = a - b + 2 ^ w by omega,
    Nat.add_mod_right, Nat.mod_eq_of_lt (by omega)]

/-- A wrapped difference fits. -/
lemma wrappingSub_lt (w a b : ℕ) : wrappingSub w a b < 2 ^ w :=
  Nat.mod_lt _ (by positivity)

/-! ## Rounded quotients -/

/-- The floor (`roundUp = false`) or ceiling (`roundUp = true`) of `n / d`. -/
def roundDiv (n d : ℕ) (roundUp : Bool) : ℕ :=
  if roundUp && decide (n % d > 0) then n / d + 1 else n / d

/-- Rounding down is the division of natural numbers. -/
@[simp] lemma roundDiv_false (n d : ℕ) : roundDiv n d false = n / d := by simp [roundDiv]

/-- Zero divided is zero, however it is rounded. -/
@[simp] lemma roundDiv_zero (d : ℕ) (r : Bool) : roundDiv 0 d r = 0 := by simp [roundDiv]

section RoundDiv

variable {n d : ℕ}

/-- The rounded-up quotient is the least `m` with `n ≤ m * d`.

**Proof sketch.** By whether the division leaves a remainder: with one, the quotient is rounded up
past it; without one, it is exact. Both cases are linear in the quotient and the remainder. -/
theorem roundDiv_true_le_iff (hd : 0 < d) (m : ℕ) : roundDiv n d true ≤ m ↔ n ≤ m * d := by
  have hdm := Nat.div_add_mod n d
  have hlt := Nat.mod_lt n hd
  unfold roundDiv
  split_ifs with h
  · simp only [Bool.true_and, decide_eq_true_eq] at h
    rw [Nat.add_one_le_iff, Nat.div_lt_iff_lt_mul hd]
    constructor
    · exact le_of_lt
    · intro hle
      rcases Nat.lt_or_eq_of_le hle with hlt' | rfl
      · exact hlt'
      · simp at h
  · simp only [Bool.true_and, decide_eq_true_eq, gt_iff_lt, not_lt, nonpos_iff_eq_zero] at h
    rw [← Nat.lt_add_one_iff, Nat.div_lt_iff_lt_mul hd]
    constructor
    · intro hlt'
      obtain ⟨q, rfl⟩ := Nat.dvd_of_mod_eq_zero h
      rw [mul_comm d q] at hlt' ⊢
      exact Nat.mul_le_mul_right d (Nat.lt_add_one_iff.1 ((Nat.mul_lt_mul_right hd).1 hlt'))
    · intro hle
      rw [add_mul]
      omega

/-- `n ≤ ⌈n / d⌉ * d`. -/
lemma le_roundDiv_true_mul (hd : 0 < d) : n ≤ roundDiv n d true * d :=
  (roundDiv_true_le_iff hd _).1 le_rfl

/-- `⌈n / d⌉ * d < n + d`. -/
theorem roundDiv_true_mul_lt (hd : 0 < d) : roundDiv n d true * d < n + d := by
  by_contra hcon
  obtain ⟨m, hm⟩ : ∃ m, roundDiv n d true = m := ⟨_, rfl⟩
  rw [hm, not_lt] at hcon
  cases m with
  | zero => omega
  | succ m =>
    rw [Nat.succ_mul] at hcon
    have := (roundDiv_true_le_iff (n := n) hd m).2 (by omega)
    omega

/-- `⌊n / d⌋ * d ≤ n`. -/
lemma roundDiv_false_mul_le (n d : ℕ) : roundDiv n d false * d ≤ n := by
  simpa using Nat.div_mul_le_self n d

/-- Rounding down never exceeds rounding up. -/
lemma roundDiv_false_le (n d : ℕ) (r : Bool) : n / d ≤ roundDiv n d r := by
  unfold roundDiv
  split_ifs <;> omega

/-- Rounding up adds at most one. -/
lemma roundDiv_le_succ (n d : ℕ) (r : Bool) : roundDiv n d r ≤ n / d + 1 := by
  unfold roundDiv
  split_ifs <;> omega

/-- Rounded quotients are monotone in the numerator. -/
lemma roundDiv_mono {m : ℕ} (hd : 0 < d) (h : m ≤ n) (r : Bool) :
    roundDiv m d r ≤ roundDiv n d r := by
  cases r with
  | false => simpa using Nat.div_le_div_right h
  | true => exact (roundDiv_true_le_iff hd _).2 (h.trans (le_roundDiv_true_mul hd))

end RoundDiv

/-! ## `bit_math.rs` -/

/-- `Q64_RESOLUTION`. -/
abbrev q64Resolution : ℕ := 64

/-- `checked_mul_div_round_up_if`. -/
def checkedMulDivRoundUpIf (n0 n1 d : ℕ) (roundUp : Bool) : Res ℕ :=
  if d = 0 then err .DivideByZero
  else do
    let p ← okOr (checkedMul 128 n0 n1) .MulDivOverflow
    let n := p / d
    return if roundUp && decide (p % d > 0) then n + 1 else n

/-- `checked_mul_div`. -/
def checkedMulDiv (n0 n1 d : ℕ) : Res ℕ := checkedMulDivRoundUpIf n0 n1 d false

/-- `checked_mul_div_round_up`. -/
def checkedMulDivRoundUp (n0 n1 d : ℕ) : Res ℕ := checkedMulDivRoundUpIf n0 n1 d true

/-- `Q64_MASK`. -/
def q64Mask : ℕ := 0xFFFF_FFFF_FFFF_FFFF

/-- `checked_mul_shift_right_round_up_if`. The cast `as u64` keeps the low 64 bits. -/
def checkedMulShiftRightRoundUpIf (n0 n1 : ℕ) (roundUp : Bool) : Res ℕ :=
  if n0 = 0 ∨ n1 = 0 then .ok 0
  else do
    let p ← okOr (checkedMul 128 n0 n1) .MultiplicationShiftRightOverflow
    let result := (p >>> q64Resolution) % 2 ^ 64
    let shouldRound := roundUp && decide (p &&& q64Mask > 0)
    if shouldRound && decide (result = 2 ^ 64 - 1) then err .MultiplicationOverflow
    else return if shouldRound then result + 1 else result

/-- `checked_mul_shift_right`. -/
def checkedMulShiftRight (n0 n1 : ℕ) : Res ℕ := checkedMulShiftRightRoundUpIf n0 n1 false

/-- `div_round_up_if`. -/
def divRoundUpIf (n d : ℕ) (roundUp : Bool) : Res ℕ :=
  if d = 0 then err .DivideByZero
  else
    let q := n / d
    .ok (if roundUp && decide (n % d > 0) then q + 1 else q)

/-- A successful `checked_mul_div_round_up_if` is the rounded quotient of the product. -/
theorem checkedMulDivRoundUpIf_eq_ok {n0 n1 d m : ℕ} {r : Bool} :
    checkedMulDivRoundUpIf n0 n1 d r = .ok m ↔
      d ≠ 0 ∧ n0 * n1 < 2 ^ 128 ∧ roundDiv (n0 * n1) d r = m := by
  unfold checkedMulDivRoundUpIf
  rw [ite_err_eq_ok, Res.bind_eq_ok]
  simp only [okOr_eq_ok, checkedMul_eq_some, Res.pure_eq_ok, Except.ok.injEq]
  constructor
  · rintro ⟨hd, _, ⟨hp, rfl⟩, rfl⟩
    exact ⟨hd, hp, rfl⟩
  · rintro ⟨hd, hp, rfl⟩
    exact ⟨hd, _, ⟨hp, rfl⟩, rfl⟩

/-- `div_round_up_if` fails exactly for a divisor of zero. -/
theorem divRoundUpIf_eq_ok {n d m : ℕ} {r : Bool} :
    divRoundUpIf n d r = .ok m ↔ d ≠ 0 ∧ roundDiv n d r = m := by
  unfold divRoundUpIf
  rw [ite_err_eq_ok, Except.ok.injEq]
  rfl

/-- The mask keeps the low 64 bits. -/
lemma and_q64Mask (p : ℕ) : p &&& q64Mask = p % 2 ^ 64 :=
  Nat.and_two_pow_sub_one_eq_mod p 64

/-- A successful `checked_mul_shift_right_round_up_if` is the rounded product divided by
`2 ^ 64`: the three overflow tests together are the bound `2 ^ 64` on that value.

**Proof sketch.** A factor of zero gives zero. Otherwise the product must fit in 128 bits, the
quotient in 64, and it must not be rounded up from the greatest `u64`; a product of more than 128
bits has a quotient of more than 64. -/
theorem checkedMulShiftRightRoundUpIf_eq_ok {n0 n1 m : ℕ} {r : Bool} :
    checkedMulShiftRightRoundUpIf n0 n1 r = .ok m ↔
      roundDiv (n0 * n1) (2 ^ 64) r < 2 ^ 64 ∧ roundDiv (n0 * n1) (2 ^ 64) r = m := by
  unfold checkedMulShiftRightRoundUpIf
  split_ifs with h0
  · have hz : n0 * n1 = 0 := by rcases h0 with rfl | rfl <;> simp
    simp [hz]
  · rw [Res.bind_eq_ok]
    simp only [okOr_eq_ok, checkedMul_eq_some, and_q64Mask, Nat.shiftRight_eq_div_pow,
      q64Resolution]
    constructor
    · rintro ⟨p, ⟨hp, rfl⟩, hm⟩
      have hq : n0 * n1 / 2 ^ 64 < 2 ^ 64 := by omega
      rw [Nat.mod_eq_of_lt hq, ite_err_eq_ok] at hm
      obtain ⟨hne, hm⟩ := hm
      simp only [Res.pure_eq_ok, Except.ok.injEq] at hm
      refine ⟨?_, hm⟩
      unfold roundDiv
      split_ifs with hr
      · simp only [hr, Bool.true_and, decide_eq_true_eq] at hne
        omega
      · exact hq
    · rintro ⟨hlt, rfl⟩
      have hq := lt_of_le_of_lt (roundDiv_false_le (n0 * n1) (2 ^ 64) r) hlt
      refine ⟨_, ⟨by omega, rfl⟩, ?_⟩
      rw [Nat.mod_eq_of_lt hq, ite_err_eq_ok]
      refine ⟨?_, rfl⟩
      unfold roundDiv at hlt
      intro hs
      rw [Bool.and_eq_true, decide_eq_true_eq] at hs
      rw [if_pos hs.1] at hlt
      omega

/-- From `2 ^ 64` on `checked_mul_shift_right_round_up_if` fails.

**Proof sketch.** The function returns a value only below the bound. So the product does not fit, or
the shifted product cannot be rounded up, and both are reported as errors. -/
theorem checkedMulShiftRightRoundUpIf_eq_err {n0 n1 : ℕ} {r : Bool}
    (h : 2 ^ 64 ≤ roundDiv (n0 * n1) (2 ^ 64) r) :
    ∃ e, checkedMulShiftRightRoundUpIf n0 n1 r = err e := by
  have hne : ∀ m, checkedMulShiftRightRoundUpIf n0 n1 r ≠ .ok m := fun m hm => by
    have := (checkedMulShiftRightRoundUpIf_eq_ok.1 hm).1
    omega
  unfold checkedMulShiftRightRoundUpIf at hne ⊢
  split_ifs at hne ⊢ with h0
  · exact absurd rfl (hne 0)
  · cases hmul : checkedMul 128 n0 n1 with
    | none => exact ⟨_, rfl⟩
    | some p =>
      rw [hmul, okOr_some, Res.ok_bind] at hne
      rw [okOr_some, Res.ok_bind]
      simp only at hne ⊢
      split_ifs at hne ⊢
      · exact ⟨_, rfl⟩
      · exact absurd rfl (hne _)
      · exact absurd rfl (hne _)

end NemoSwap
