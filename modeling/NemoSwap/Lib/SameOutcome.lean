import Mathlib

set_option relaxedAutoImplicit false
set_option autoImplicit false

/-!
# Fallible computations with the same outcome

Two computations have the same outcome up to a relation if both succeed with related values, or
both fail for the same reason. The relation composes along the structure of a program, so that two
runs of one program on related data are compared step by step.

## Main definitions

* `SameOutcome` — the same outcome up to a relation on the values.
* `after` — a state after a step whose failures change nothing.

## Main results

* `SameOutcome.bind`, `SameOutcome.ite`, `SameOutcome.mapM` — the composition rules.
* `related_foldl` — related states stay related along a run, if every step has the same outcome.
-/

universe u

/-- Both computations succeed with related values, or both fail for the same reason. -/
inductive SameOutcome {ε α β : Type u} (R : α → β → Prop) : Except ε α → Except ε β → Prop
  | ok {a : α} {b : β} (h : R a b) : SameOutcome R (.ok a) (.ok b)
  | error (e : ε) : SameOutcome R (.error e) (.error e)

namespace SameOutcome

variable {ε α β γ δ : Type u} {R : α → β → Prop} {S : γ → δ → Prop}

/-- One computation has the same outcome as itself, up to every relation that holds of its
values. -/
lemma self {R : α → α → Prop} {x : Except ε α} (h : ∀ a, x = .ok a → R a a) :
    SameOutcome R x x := by
  cases x with
  | ok a => exact .ok (h a rfl)
  | error e => exact .error e

/-- The relation of the values may be replaced by one that follows from it for the values at
hand. -/
lemma mono {R' : α → β → Prop} {x : Except ε α} {y : Except ε β} (h : SameOutcome R x y)
    (hR : ∀ a b, x = .ok a → y = .ok b → R a b → R' a b) : SameOutcome R' x y := by
  cases h with
  | ok h => exact .ok (hR _ _ rfl rfl h)
  | error e => exact .error e

/-- Computations in sequence, where the second may use that the first has succeeded. -/
lemma bind_ok {x : Except ε α} {y : Except ε β} {f : α → Except ε γ} {g : β → Except ε δ}
    (h : SameOutcome R x y)
    (hfg : ∀ a b, x = .ok a → y = .ok b → R a b → SameOutcome S (f a) (g b)) :
    SameOutcome S (x >>= f) (y >>= g) := by
  cases h with
  | ok h => exact hfg _ _ rfl rfl h
  | error e => exact .error e

/-- **Computations in sequence.** -/
theorem bind {x : Except ε α} {y : Except ε β} {f : α → Except ε γ} {g : β → Except ε δ}
    (h : SameOutcome R x y) (hfg : ∀ a b, R a b → SameOutcome S (f a) (g b)) :
    SameOutcome S (x >>= f) (y >>= g) :=
  h.bind_ok fun a b _ _ => hfg a b

/-- One computation, continued in two ways. -/
lemma bind_self {x : Except ε α} {f : α → Except ε γ} {g : α → Except ε δ}
    (hfg : ∀ a, x = .ok a → SameOutcome S (f a) (g a)) : SameOutcome S (x >>= f) (x >>= g) := by
  cases x with
  | ok a => exact hfg a rfl
  | error e => exact .error e

/-- Mapping related values to related values keeps the outcome the same. -/
lemma map {x : Except ε α} {y : Except ε β} {f : α → γ} {g : β → δ} (h : SameOutcome R x y)
    (hfg : ∀ a b, R a b → S (f a) (g b)) : SameOutcome S (x.map f) (y.map g) := by
  cases h with
  | ok h => exact .ok (hfg _ _ h)
  | error e => exact .error e

/-- **Branches.** -/
theorem ite {c : Prop} [Decidable c] {x x' : Except ε α} {y y' : Except ε β}
    (h : c → SameOutcome R x y) (h' : ¬c → SameOutcome R x' y') :
    SameOutcome R (if c then x else x') (if c then y else y') := by
  by_cases hc : c
  · rw [if_pos hc, if_pos hc]
    exact h hc
  · rw [if_neg hc, if_neg hc]
    exact h' hc

/-- A guard in front of two computations. -/
lemma guard {c : Prop} [Decidable c] {e : ε} {x : Except ε α} {y : Except ε β}
    (h : ¬c → SameOutcome R x y) :
    SameOutcome R (if c then .error e else x) (if c then .error e else y) :=
  ite (fun _ => .error e) h

/-- **A list of computations.** -/
theorem mapM {ι : Type u} {f : ι → Except ε α} {g : ι → Except ε β}
    (h : ∀ i, SameOutcome R (f i) (g i)) :
    ∀ is : List ι, SameOutcome (List.Forall₂ R) (is.mapM f) (is.mapM g)
  | [] => .ok .nil
  | i :: is => by
    rw [List.mapM_cons, List.mapM_cons]
    exact (h i).bind fun a b hab => (mapM h is).bind fun as bs habs => .ok (.cons hab habs)

end SameOutcome

/-! ## Runs -/

section Runs

variable {ι : Type*} {ε σ τ : Type u} {R : σ → τ → Prop} {step : σ → ι → Except ε σ}
  {step' : τ → ι → Except ε τ}

/-- The state after a step. A step that fails changes nothing. -/
def after (step : σ → ι → Except ε σ) (s : σ) (i : ι) : σ :=
  match step s i with
  | .ok s' => s'
  | .error _ => s

/-- Two state machines whose steps have the same outcome are related after the step: a failed step
leaves both states as they were. -/
lemma related_after {s : σ} {t : τ} {i : ι} (h : R s t)
    (hi : SameOutcome R (step s i) (step' t i)) : R (after step s i) (after step' t i) := by
  unfold after
  generalize step s i = x at hi ⊢
  generalize step' t i = y at hi ⊢
  cases hi with
  | ok h' => exact h'
  | error e => exact h

/-- **Related states stay related along a run.** -/
theorem related_foldl (hstep : ∀ s t i, R s t → SameOutcome R (step s i) (step' t i)) {s : σ}
    {t : τ} (h : R s t) (is : List ι) : R (is.foldl (after step) s) (is.foldl (after step') t) := by
  induction is generalizing s t with
  | nil => exact h
  | cons i is ih => exact ih (related_after h (hstep s t i h))

end Runs
