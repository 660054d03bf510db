import Mathlib

set_option relaxedAutoImplicit false
set_option autoImplicit false

/-!
# Errors and fallible computations

The program's `ErrorCode`, the other ways an instruction can stop, and the monad `Res` in
which every fallible function of the source is embedded. A Solana instruction that stops for
any of these reasons leaves the accounts as they were, so the reason is kept as data and the
state is not.

## Main definitions

* `NemoSwap.ErrorCode` — the variants of `errors.rs`.
* `NemoSwap.Failure` — an `ErrorCode`, a Rust panic, a failed account constraint, or a token
  transfer that the SPL token program refuses.
* `NemoSwap.Res` — `Except Failure`.
* `NemoSwap.okOr` — Rust's `Option::ok_or`.

## Main results

* `NemoSwap.Res.bind_eq_ok` — inversion of a successful `bind`; proofs about monadic code
  peel computations apart with it.
-/

namespace NemoSwap

/-- The error codes of `errors.rs`. -/
inductive ErrorCode
  | InvalidEnum
  | InvalidStartTick
  | TickArrayExistInPool
  | TickArrayIndexOutofBounds
  | InvalidTickSpacing
  | ClosePositionNotEmpty
  | DivideByZero
  | NumberCastError
  | NumberDownCastError
  | TickNotFound
  | InvalidTickIndex
  | SqrtPriceOutOfBounds
  | LiquidityZero
  | LiquidityTooHigh
  | LiquidityOverflow
  | LiquidityUnderflow
  | LiquidityNetError
  | TokenMaxExceeded
  | TokenMinSubceeded
  | MissingOrInvalidDelegate
  | InvalidPositionTokenAmount
  | InvalidTimestampConversion
  | InvalidTimestamp
  | InvalidTickArraySequence
  | InvalidTokenMintOrder
  | RewardNotInitialized
  | InvalidRewardIndex
  | RewardVaultAmountInsufficient
  | FeeRateMaxExceeded
  | ProtocolFeeRateMaxExceeded
  | MultiplicationShiftRightOverflow
  | MulDivOverflow
  | MulDivInvalidInput
  | MultiplicationOverflow
  | InvalidSqrtPriceLimitDirection
  | ZeroTradableAmount
  | AmountOutBelowMinimum
  | AmountInAboveMaximum
  | TickArraySequenceInvalidIndex
  | AmountCalcOverflow
  | AmountRemainingOverflow
  | PoolWasDisabled
  | InvalidIntermediaryMint
  | DuplicateTwoHopPool
  deriving DecidableEq, Repr

/-- The ways an instruction stops without effect. -/
inductive Failure
  /-- The program returned this error code. -/
  | error (e : ErrorCode)
  /-- A Rust panic: an index out of bounds, an `unwrap` of a failure, a division by zero. -/
  | panicked
  /-- An Anchor account constraint does not hold. -/
  | constraint
  /-- The owner's token account does not hold the amount to be deposited. -/
  | ownerFunds
  /-- The vault does not hold the amount to be paid out. -/
  | vaultFunds
  /-- The receiving token account cannot hold the amount: its balance is a `u64`. -/
  | tokenOverflow
  /-- The token program rejects the burning of a token or the closing of its account. -/
  | tokenProgram
  /-- The bound on the number of iterations of an embedded loop is used up. -/
  | outOfFuel
  deriving DecidableEq, Repr

/-- Fallible computations of the program. -/
abbrev Res (α : Type) : Type := Except Failure α

/-- Stop with an error code. -/
def err {α : Type} (e : ErrorCode) : Res α := .error (.error e)

/-- Rust's `Option::ok_or`. -/
def okOr {α : Type} (x : Option α) (e : ErrorCode) : Res α :=
  match x with
  | some a => .ok a
  | none => err e

/-- Rust's `Option::unwrap`. -/
def unwrap {α : Type} : Option α → Res α
  | some a => .ok a
  | none => .error .panicked

instance {α : Type} [DecidableEq α] : DecidableEq (Res α) := fun x y =>
  match x, y with
  | .ok a, .ok b => decidable_of_iff (a = b) (by simp)
  | .error a, .error b => decidable_of_iff (a = b) (by simp)
  | .ok _, .error _ => isFalse (by simp)
  | .error _, .ok _ => isFalse (by simp)

section Bind

variable {α β : Type}

/-- **Inversion of a successful `bind`.** -/
theorem Res.bind_eq_ok {x : Res α} {f : α → Res β} {b : β} :
    (x >>= f) = .ok b ↔ ∃ a, x = .ok a ∧ f a = .ok b := by
  cases x <;> simp [bind, Except.bind]

/-- A mapped result succeeds exactly if the result does, and its value is mapped. -/
lemma Res.map_eq_ok {x : Res α} {f : α → β} {b : β} :
    x.map f = .ok b ↔ ∃ a, x = .ok a ∧ f a = b := by
  cases x <;> simp [Except.map]

/-- A computation goes on with the value of a step that has succeeded. -/
@[simp] lemma Res.ok_bind (a : α) (f : α → Res β) : ((.ok a : Res α) >>= f) = f a := rfl

/-- A computation ends with the failure of its first step. -/
@[simp] lemma Res.error_bind (e : Failure) (f : α → Res β) :
    ((.error e : Res α) >>= f) = .error e := rfl

/-- A returned value is a success. -/
@[simp] lemma Res.pure_eq_ok (a : α) : (pure a : Res α) = .ok a := rfl

/-- An error is no success. -/
@[simp] lemma err_ne_ok (e : ErrorCode) (a : α) : (err e : Res α) ≠ .ok a := by
  simp [err]

/-- `ok_or` keeps a value. -/
@[simp] lemma okOr_some (a : α) (e : ErrorCode) : okOr (some a) e = .ok a := rfl

/-- `ok_or` reports its error for a missing value. -/
@[simp] lemma okOr_none (e : ErrorCode) : okOr (none : Option α) e = err e := rfl

/-- `ok_or` succeeds exactly with the value that is there. -/
lemma okOr_eq_ok {x : Option α} {e : ErrorCode} {a : α} : okOr x e = .ok a ↔ x = some a := by
  cases x <;> simp

/-- A guard that stops with an error succeeds iff its condition is false. -/
lemma ite_err_eq_ok {c : Prop} [Decidable c] {e : ErrorCode} {x : Res α} {a : α} :
    (if c then err e else x) = .ok a ↔ ¬c ∧ x = .ok a := by
  split_ifs with h <;> simp [h]

/-- A guard that stops for any reason succeeds iff its condition is false. -/
lemma ite_error_eq_ok {c : Prop} [Decidable c] {e : Failure} {x : Res α} {a : α} :
    (if c then .error e else x) = .ok a ↔ ¬c ∧ x = .ok a := by
  split_ifs with h <;> simp [h]

end Bind

end NemoSwap
