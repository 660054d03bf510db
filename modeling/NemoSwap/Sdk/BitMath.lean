import NemoSwap.Math.BitMath

set_option relaxedAutoImplicit false
set_option autoImplicit false

/-!
# `sdk/src/utils/math/bit-math.ts`: the arithmetic of the SDK

The SDK computes with `BN`, exact integers, and checks widths itself. A function that may throw
returns in `Sdk`.

## Main definitions

* `NemoSwap.Sdk.BN` — exact integers, with the operations of the library that the SDK uses.
* `NemoSwap.Sdk.MathUtil` — the functions of `@orca-so/common-sdk`, which is not in the repository.
* `NemoSwap.Sdk.BitMath.mulDiv`, `NemoSwap.Sdk.BitMath.checkedMulShiftRightRoundUpIf`,
  `NemoSwap.Sdk.BitMath.divRoundUpIf` — products and quotients.
-/

namespace NemoSwap

namespace Sdk

/-- The members of `WhirlpoolsErrorCode` that the functions below throw. -/
inductive WhirlpoolsErrorCode
  | MultiplicationOverflow
  | MultiplicationShiftRightOverflow
  | DivideByZero
  | TokenMaxExceeded
  | TokenMinSubceeded
  deriving DecidableEq, Repr

/-- What the SDK throws: a `WhirlpoolsError` with its code, or an error without one (an assertion
of `BN`, an `invariant`, a plain `Error`). -/
inductive SdkError
  | whirlpools (code : WhirlpoolsErrorCode)
  | other
  deriving DecidableEq, Repr

/-- `BN`. -/
abbrev BN : Type := ℤ

namespace BN

/-- `shln`. -/
def shln (n : BN) (bits : ℕ) : BN := n * 2 ^ bits

/-- `shrn`, of a number that is not negative. -/
def shrn (n : BN) (bits : ℕ) : BN := n / 2 ^ bits

/-- `div`, which truncates and refuses a zero divisor. -/
def div (n d : BN) : Except SdkError BN :=
  if d = 0 then .error .other else .ok (n.tdiv d)

/-- `mod`, whose result has the sign of the dividend. -/
def mod (n d : BN) : Except SdkError BN :=
  if d = 0 then .error .other else .ok (n.tmod d)

/-- `and`, of numbers that are not negative. -/
def and (n m : BN) : BN := ((n.toNat &&& m.toNat : ℕ) : ℤ)

/-- `shln` multiplies by a power of two. -/
lemma shln_natCast (n bits : ℕ) : shln n bits = ((n * 2 ^ bits : ℕ) : ℤ) := by
  unfold shln
  push_cast
  rfl

/-- `shrn` divides by a power of two. -/
lemma shrn_natCast (n bits : ℕ) : shrn n bits = ((n / 2 ^ bits : ℕ) : ℤ) := by
  unfold shrn
  norm_cast

end BN

/-- `U64_MAX`. -/
def u64Max : BN := 2 ^ 64 - 1

/-- The functions of `MathUtil` that the SDK uses. -/
structure MathUtil where
  fromX64_BN : BN → BN
  subUnderflowU128 : BN → BN → BN
  divRoundUp : BN → BN → Except SdkError BN
  shiftRightRoundUp : BN → BN

/-- A computation goes on with the value of a step that has not thrown. -/
@[simp] lemma ok_bind {α β : Type} (a : α) (f : α → Except SdkError β) :
    (Except.ok a >>= f) = f a := rfl

/-- A `bind` that succeeds. -/
lemma bind_eq_ok {α β : Type} {x : Except SdkError α} {f : α → Except SdkError β} {b : β} :
    (x >>= f) = .ok b ↔ ∃ a, x = .ok a ∧ f a = .ok b := by
  cases x with
  | error e => simp [bind, Except.bind]
  | ok a => simp [bind, Except.bind]

/-- The functions as their library documents them: exact, and rounded as the names say. -/
def MathUtil.documented : MathUtil :=
  { fromX64_BN := fun n => n / 2 ^ 64
    subUnderflowU128 := fun n0 n1 => (n0 + 2 ^ 128 - n1) % 2 ^ 128
    divRoundUp := fun n0 n1 => if n1 = 0 then .error .other else .ok (-(-n0 / n1))
    shiftRightRoundUp := fun n => -(-n / 2 ^ 64) }

namespace BitMath

/-- `throw new WhirlpoolsError(.., code)`. -/
def throwCode {α : Type} (code : WhirlpoolsErrorCode) : Except SdkError α :=
  .error (.whirlpools code)

/-- `isOverLimit`. -/
def isOverLimit (n0 : BN) (limit : ℕ) : Bool := decide (n0 > 2 ^ limit - 1)

/-- `mul`. -/
def mul (n0 n1 : BN) (limit : ℕ) : Except SdkError BN :=
  let result := n0 * n1
  if isOverLimit result limit then throwCode .MultiplicationOverflow else return result

/-- `mulDivRoundUpIf`. -/
def mulDivRoundUpIf (n0 n1 d : BN) (roundUp : Bool) (limit : ℕ) : Except SdkError BN :=
  if d = 0 then throwCode .DivideByZero
  else do
    let p ← mul n0 n1 limit
    let n := p.tdiv d
    return if roundUp && decide (p.tmod d > 0) then n + 1 else n

/-- `mulDiv`. -/
def mulDiv (n0 n1 d : BN) (limit : ℕ) : Except SdkError BN := mulDivRoundUpIf n0 n1 d false limit

/-- `mulDivRoundUp`. -/
def mulDivRoundUp (n0 n1 d : BN) (limit : ℕ) : Except SdkError BN :=
  mulDivRoundUpIf n0 n1 d true limit

/-- `checked_mul_shift_right_round_up_if`. The bits that decide about rounding are those of the
shifted product. -/
def checkedMulShiftRightRoundUpIf (M : MathUtil) (n0 n1 : BN) (roundUp : Bool) (limit : ℕ) :
    Except SdkError BN :=
  if n0 = 0 ∨ n1 = 0 then return 0
  else do
    let p ← mul n0 n1 limit
    if isOverLimit p limit then throwCode .MultiplicationShiftRightOverflow
    else
      let result := M.fromX64_BN p
      let shouldRound := roundUp && decide (BN.and result u64Max > 0)
      if shouldRound && decide (result = u64Max) then throwCode .MultiplicationOverflow
      else return if shouldRound then result + 1 else result

/-- `divRoundUpIf`. -/
def divRoundUpIf (n d : BN) (roundUp : Bool) : Except SdkError BN :=
  if d = 0 then throwCode .DivideByZero
  else
    let q := n.tdiv d
    return if roundUp && decide (n.tmod d > 0) then q + 1 else q

/-- `divRoundUp`. -/
def divRoundUp (n d : BN) : Except SdkError BN := divRoundUpIf n d true

/-- A product within the limit is returned. -/
theorem mul_natCast {a b limit : ℕ} (h : a * b < 2 ^ limit) :
    mul a b limit = .ok ((a * b : ℕ) : ℤ) := by
  have hp : ¬(((a * b : ℕ) : ℤ) > 2 ^ limit - 1) := by
    have : ((a * b : ℕ) : ℤ) < 2 ^ limit := by exact_mod_cast h
    omega
  unfold mul isOverLimit
  simp only [← Nat.cast_mul, decide_eq_false hp, Bool.false_eq_true, if_false]
  rfl

/-- So is its quotient. -/
theorem mulDiv_natCast {a b d limit : ℕ} (hd : d ≠ 0) (h : a * b < 2 ^ limit) :
    mulDiv a b d limit = .ok ((a * b / d : ℕ) : ℤ) := by
  have hd' : (d : ℤ) ≠ 0 := by exact_mod_cast hd
  unfold mulDiv mulDivRoundUpIf
  rw [if_neg hd', mul_natCast h]
  rfl

/-- Quotients that are rounded up. -/
theorem divRoundUp_natCast {n d : ℕ} (hd : d ≠ 0) :
    divRoundUp n d = .ok (roundDiv n d true : ℤ) := by
  have hd' : (d : ℤ) ≠ 0 := by exact_mod_cast hd
  have hmod : ((n : ℤ).tmod d > 0) ↔ n % d > 0 := by
    rw [← Int.ofNat_tmod]
    exact_mod_cast Iff.rfl
  unfold divRoundUp divRoundUpIf roundDiv
  rw [if_neg hd', ← Int.ofNat_tdiv]
  simp only [Bool.true_and, hmod]
  split_ifs <;> rfl

/-- The quotient of a product is rounded up in the same way. -/
theorem mulDivRoundUp_natCast {a b d limit : ℕ} (hd : d ≠ 0) (h : a * b < 2 ^ limit) :
    mulDivRoundUp a b d limit = .ok (roundDiv (a * b) d true : ℤ) := by
  have hd' : (d : ℤ) ≠ 0 := by exact_mod_cast hd
  unfold mulDivRoundUp mulDivRoundUpIf
  rw [if_neg hd', mul_natCast h, ok_bind, ← divRoundUp_natCast hd]
  unfold divRoundUp divRoundUpIf
  rw [if_neg hd']

end BitMath

end Sdk

end NemoSwap
