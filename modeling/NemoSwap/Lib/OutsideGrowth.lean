import Mathlib

set_option relaxedAutoImplicit false
set_option autoImplicit false

/-!
# Growth outside a point

A global accumulator grows while a current point moves along a line. A marked point stores the
growth that happened on its far side, seen from the current point: the stored value is replaced
by its complement whenever the current point crosses the mark. The growth inside a range between
two marks is then the part of the global growth that happened while the current point was in the
range, although nothing is stored per range. The accumulator lives in a commutative group, so it
may wrap.

## Main definitions

* `Outside.below` — the growth below a point, recovered from the stored value.
* `Outside.inside` — the growth inside a range.
* `Outside.record`, `Outside.recorded` — a log of the increments by current point, and the
  increments logged inside a range.

## Main results

* `Outside.below_cross_down`, `Outside.below_cross_up` — a crossing leaves the growth below every
  point unchanged.
* `Outside.below_grow`, `Outside.inside_grow` — an increment counts for the ranges that contain
  the current point.
* `Outside.below_mark` — marking a point by the convention that all growth happened below it
  leaves the growth below it unchanged.
* `Outside.recorded_record` — an increment is logged for the ranges that contain the current
  point.
-/

namespace Outside

variable {α G : Type*} [LinearOrder α] [AddCommGroup G]

/-- The growth below the point `t`: with the current point `c` below `t` the stored value is the
growth above. An unmarked point has all growth below it. -/
def below (marked : Bool) (outside global : G) (c t : α) : G :=
  if marked then (if c < t then global - outside else outside) else global

/-- The growth between two points. -/
def inside (belowUpper belowLower : G) : G := belowUpper - belowLower

/-- All growth counts as below an unmarked point. -/
lemma below_unmarked (o g : G) (c t : α) : below false o g c t = g := rfl

/-- The growth below a marked point, on either side of the current point. -/
lemma below_marked (o g : G) (c t : α) :
    below true o g c t = if c < t then g - o else o := rfl

/-- The current point may move as long as it stays on its side. -/
lemma below_move {c c' t : α} (marked : Bool) (o g : G) (h : c < t ↔ c' < t) :
    below marked o g c t = below marked o g c' t := by
  unfold below
  rw [if_congr h rfl rfl]

/-- Crossing a mark from above. -/
theorem below_cross_down {c c' t : α} (o g : G) (hc : t ≤ c) (hc' : c' < t) :
    below true (g - o) g c' t = below true o g c t := by
  rw [below_marked, below_marked, if_pos hc', if_neg (not_lt.2 hc), sub_sub_cancel]

/-- Crossing a mark from below. -/
theorem below_cross_up {c c' t : α} (o g : G) (hc : c < t) (hc' : t ≤ c') :
    below true (g - o) g c' t = below true o g c t := by
  rw [below_marked, below_marked, if_neg (not_lt.2 hc'), if_pos hc]

/-- An increment counts below a mark if the current point is below it. -/
theorem below_grow (o g x : G) (c t : α) :
    below true o (g + x) c t = below true o g c t + if c < t then x else 0 := by
  rw [below_marked, below_marked]
  split_ifs
  · rw [add_sub_right_comm]
  · rw [add_zero]

/-- Marking a point by the convention that all growth happened below it. -/
theorem below_mark (o g : G) (c t : α) :
    below true (if t ≤ c then g else 0) g c t = below false o g c t := by
  rw [below_marked, below_unmarked]
  split_ifs with h1 h2 h2
  · exact absurd h1 (not_lt.2 h2)
  · rw [sub_zero]
  · rfl
  · exact absurd (not_le.1 h2) h1

/-- **An increment counts for the ranges that contain the current point.** -/
theorem inside_grow {lo hi c : α} (hle : lo ≤ hi) (ol ou g x : G) :
    inside (below true ou (g + x) c hi) (below true ol (g + x) c lo) =
      inside (below true ou g c hi) (below true ol g c lo) +
        if lo ≤ c ∧ c < hi then x else 0 := by
  unfold inside
  rw [below_grow, below_grow]
  rcases lt_or_ge c lo with h1 | h1
  · rw [if_pos (h1.trans_le hle), if_pos h1, if_neg fun h => absurd h.1 (not_le.2 h1)]
    abel
  · rcases lt_or_ge c hi with h2 | h2
    · rw [if_pos h2, if_neg (not_lt.2 h1), if_pos ⟨h1, h2⟩]
      abel
    · rw [if_neg (not_lt.2 h2), if_neg (not_lt.2 h1), if_neg fun h => absurd h.2 (not_lt.2 h2)]
      abel

/-! ## The log of increments -/

section Log

variable [LocallyFiniteOrder α]

/-- Log an increment at the current point. -/
def record (log : α → ℕ) (c : α) (x : ℕ) : α → ℕ := Function.update log c (log c + x)

/-- The increments logged inside a range. -/
def recorded (log : α → ℕ) (lo hi : α) : ℕ := ∑ c ∈ Finset.Ico lo hi, log c

/-- Nothing is recorded in an empty log. -/
@[simp] lemma recorded_zero (lo hi : α) : recorded (fun _ => 0) lo hi = 0 := by
  simp [recorded]

/-- What is recorded in the sum of two logs is the sum of what is recorded in each. -/
lemma recorded_add (log log' : α → ℕ) (lo hi : α) :
    recorded (fun c => log c + log' c) lo hi = recorded log lo hi + recorded log' lo hi :=
  Finset.sum_add_distrib

/-- An increment is recorded for a range exactly if it contains the current point. -/
theorem recorded_record (log : α → ℕ) (c : α) (x : ℕ) (lo hi : α) :
    recorded (record log c x) lo hi =
      recorded log lo hi + if lo ≤ c ∧ c < hi then x else 0 := by
  have hterm : ∀ d ∈ Finset.Ico lo hi, record log c x d = log d + if d = c then x else 0 :=
    fun d _ => by
      unfold record
      rcases eq_or_ne d c with rfl | hne
      · rw [Function.update_self, if_pos rfl]
      · rw [Function.update_of_ne hne, if_neg hne, add_zero]
  unfold recorded
  rw [Finset.sum_congr rfl hterm, Finset.sum_add_distrib, Finset.sum_ite_eq']
  simp only [Finset.mem_Ico]

end Log

end Outside
