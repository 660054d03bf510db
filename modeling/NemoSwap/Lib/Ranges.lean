import Mathlib

set_option relaxedAutoImplicit false
set_option autoImplicit false

/-!
# Weighted ranges on a line

A finite family of half-open ranges `[lower, upper)`, each with a size. The sizes of the ranges
that contain a point form a step function of the point, which changes only at end points: the
number of cars on a road, of open intervals in a sweep, or the liquidity of a pool.

## Main definitions

* `Ranges` — the family.
* `Ranges.total` — the sum of the sizes, weighted.
* `Ranges.active` — the size of the ranges that contain a point.
* `Ranges.net`, `Ranges.gross` — what starts at a point less what ends there, and both together.

## Main results

* `Ranges.active_eq_add_net` — the step of the active size at an end point.
* `Ranges.active_congr` — between end points the active size does not change.
* `Ranges.total_setSize` — the effect of resizing one range on a weighted total.
* `Ranges.SameNonempty.total` — totals depend on the nonempty ranges only.
* `Ranges.total_clamp_shift` — a total of potentials at a clamped point moves with the active
  ranges only.
-/

/-- A finite family of half-open ranges with sizes. -/
structure Ranges (ι α : Type*) where
  keys : Finset ι
  lower : ι → α
  upper : ι → α
  size : ι → ℕ

namespace Ranges

variable {ι α M : Type*} (R : Ranges ι α)

/-! ## Weighted totals -/

/-- The sum of the sizes, each multiplied by the weight of its range. -/
def total [Semiring M] (w : ι → M) : M := ∑ k ∈ R.keys, (R.size k : M) * w k

/-- Ranges of size zero do not matter. -/
theorem total_congr [Semiring M] {w w' : ι → M}
    (h : ∀ k ∈ R.keys, R.size k ≠ 0 → w k = w' k) : R.total w = R.total w' := by
  refine Finset.sum_congr rfl fun k hk => ?_
  rcases eq_or_ne (R.size k) 0 with h0 | h0
  · simp [h0]
  · rw [h k hk h0]

/-- The total of a sum of weights is the sum of their totals. -/
lemma total_add [Semiring M] (w w' : ι → M) :
    R.total (fun k => w k + w' k) = R.total w + R.total w' := by
  simp only [total, mul_add, Finset.sum_add_distrib]

/-- The total of a difference of weights is the difference of their totals. -/
lemma total_sub [Ring M] (w w' : ι → M) :
    R.total (fun k => w k - w' k) = R.total w - R.total w' := by
  simp only [total, mul_sub, Finset.sum_sub_distrib]

/-- A common factor of all weights comes out of the total. -/
lemma total_mul_right [Semiring M] (w : ι → M) (x : M) :
    R.total (fun k => w k * x) = R.total w * x := by
  simp only [total, ← mul_assoc, Finset.sum_mul]

/-- Without weights the total is zero. -/
@[simp] lemma total_zero [Semiring M] : R.total (fun _ => (0 : M)) = 0 := by simp [total]

/-- The total of weights that are not negative is not negative. -/
lemma total_nonneg [Semiring M] [PartialOrder M] [IsOrderedRing M] {w : ι → M}
    (h : ∀ k ∈ R.keys, 0 ≤ w k) : 0 ≤ R.total w :=
  Finset.sum_nonneg fun k hk => mul_nonneg (Nat.cast_nonneg _) (h k hk)

/-- Totals are monotone in the weights of the nonempty ranges. -/
theorem total_le_total [Semiring M] [PartialOrder M] [IsOrderedRing M] {w w' : ι → M}
    (h : ∀ k ∈ R.keys, R.size k ≠ 0 → w k ≤ w' k) : R.total w ≤ R.total w' := by
  refine Finset.sum_le_sum fun k hk => ?_
  rcases eq_or_ne (R.size k) 0 with h0 | h0
  · simp [h0]
  · exact mul_le_mul_of_nonneg_left (h k hk h0) (Nat.cast_nonneg _)

/-- One range's share of a total. -/
lemma size_mul_le_total [Semiring M] [PartialOrder M] [IsOrderedRing M] {w : ι → M}
    (h : ∀ k ∈ R.keys, 0 ≤ w k) {k : ι} (hk : k ∈ R.keys) :
    (R.size k : M) * w k ≤ R.total w :=
  Finset.single_le_sum (f := fun k => (R.size k : M) * w k)
    (fun j hj => mul_nonneg (Nat.cast_nonneg _) (h j hj)) hk

/-- The cast of a total of natural weights is the total of their casts. -/
lemma natCast_total [Semiring M] (w : ι → ℕ) :
    ((R.total w : ℕ) : M) = R.total fun k => (w k : M) := by
  simp [total]

/-- The total of an indicator is a sum over the ranges it selects. -/
theorem total_ite (P : ι → Prop) [DecidablePred P] :
    R.total (fun k => if P k then 1 else 0) = ∑ k ∈ R.keys with P k, R.size k := by
  unfold total
  rw [Finset.sum_filter]
  refine Finset.sum_congr rfl fun k _ => ?_
  rw [mul_ite, mul_one, mul_zero, Nat.cast_id]

/-- The size of the ranges that each weigh at least `x` is bounded by the total weight. -/
theorem total_ite_mul_le [CommSemiring M] [PartialOrder M] [IsOrderedRing M] {P : ι → Prop}
    [DecidablePred P] {w : ι → M} {x : M} (hP : ∀ k ∈ R.keys, R.size k ≠ 0 → P k → x ≤ w k)
    (h0 : ∀ k ∈ R.keys, R.size k ≠ 0 → 0 ≤ w k) :
    ((R.total fun k => if P k then 1 else 0 : ℕ) : M) * x ≤ R.total w := by
  rw [natCast_total, ← total_mul_right]
  refine R.total_le_total fun k hk hs => ?_
  split_ifs with h
  · rw [Nat.cast_one, one_mul]
    exact hP k hk hs h
  · rw [Nat.cast_zero, zero_mul]
    exact h0 k hk hs

/-! ## Points -/

section Points

variable [LinearOrder α]

/-- The range contains the point. -/
def Contains (k : ι) (c : α) : Prop := R.lower k ≤ c ∧ c < R.upper k

instance (k : ι) (c : α) : Decidable (R.Contains k c) := inferInstanceAs (Decidable (_ ∧ _))

/-- The size of the ranges that contain a point. -/
def active (c : α) : ℕ := R.total fun k => if R.Contains k c then 1 else 0

/-- The size of the ranges that start at a point. -/
def startsAt (t : α) : ℕ := R.total fun k => if R.lower k = t then 1 else 0

/-- The size of the ranges that end at a point. -/
def endsAt (t : α) : ℕ := R.total fun k => if R.upper k = t then 1 else 0

/-- What starts at a point less what ends there. -/
def net (t : α) : ℤ := R.startsAt t - R.endsAt t

/-- What starts or ends at a point. -/
def gross (t : α) : ℕ := R.startsAt t + R.endsAt t

/-- The gross size at a point is zero exactly if no nonempty range has a bound there. -/
theorem gross_eq_zero_iff {t : α} :
    R.gross t = 0 ↔ ∀ k ∈ R.keys, R.size k ≠ 0 → R.lower k ≠ t ∧ R.upper k ≠ t := by
  unfold gross startsAt endsAt total
  rw [Nat.add_eq_zero_iff, Finset.sum_eq_zero_iff, Finset.sum_eq_zero_iff, ← forall₂_and]
  refine forall₂_congr fun k _ => ?_
  rcases eq_or_ne (R.size k) 0 with h0 | h0
  · simp [h0]
  · simp [h0]

/-- If the gross size at a point is zero, no size starts there. -/
lemma startsAt_eq_zero {t : α} (h : R.gross t = 0) : R.startsAt t = 0 := by
  unfold gross at h
  omega

/-- If the gross size at a point is zero, no size ends there. -/
lemma endsAt_eq_zero {t : α} (h : R.gross t = 0) : R.endsAt t = 0 := by
  unfold gross at h
  omega

/-- If the gross size at a point is zero, so is the net size. -/
lemma net_eq_zero {t : α} (h : R.gross t = 0) : R.net t = 0 := by
  unfold net
  rw [R.startsAt_eq_zero h, R.endsAt_eq_zero h, sub_self]

/-- Between end points the same ranges are active. -/
lemma contains_iff {c n : α} (hcn : c ≤ n) (h : ∀ t, c < t → t ≤ n → R.gross t = 0) {k : ι}
    (hk : k ∈ R.keys) (h0 : R.size k ≠ 0) : R.Contains k n ↔ R.Contains k c := by
  have hlo : R.lower k ≤ n → R.lower k ≤ c := fun hle => by
    by_contra hcon
    exact (R.gross_eq_zero_iff.1 (h _ (not_le.1 hcon) hle) k hk h0).1 rfl
  have hhi : c < R.upper k → n < R.upper k := fun hlt => by
    by_contra hcon
    exact (R.gross_eq_zero_iff.1 (h _ hlt (not_lt.1 hcon)) k hk h0).2 rfl
  exact ⟨fun hc => ⟨hlo hc.1, lt_of_le_of_lt hcn hc.2⟩, fun hc => ⟨hc.1.trans hcn, hhi hc.2⟩⟩

/-- Between end points the active size does not change. -/
theorem active_congr {c n : α} (hcn : c ≤ n) (h : ∀ t, c < t → t ≤ n → R.gross t = 0) :
    R.active n = R.active c :=
  R.total_congr fun _ hk h0 => if_congr (R.contains_iff hcn h hk h0) rfl rfl

/-- The step of the active size at an end point.

**Proof sketch.** For each range, by where its bounds lie. No bound lies strictly between the two
points, so a range that contains one of them and not the other starts or ends at the end point. -/
theorem active_eq_add_net (hR : ∀ k ∈ R.keys, R.size k ≠ 0 → R.lower k < R.upper k) {c n : α}
    (hcn : c < n) (h : ∀ t, c < t → t < n → R.gross t = 0) :
    (R.active n : ℤ) = R.active c + R.net n := by
  unfold net active startsAt endsAt
  simp only [natCast_total]
  rw [← total_sub, ← total_add]
  refine R.total_congr fun k hk h0 => ?_
  have hlt := hR k hk h0
  have hno : ∀ t, c < t → t < n → R.lower k ≠ t ∧ R.upper k ≠ t := fun t h1 h2 =>
    R.gross_eq_zero_iff.1 (h t h1 h2) k hk h0
  have hlo : R.lower k < n → R.lower k ≤ c := fun hle => by
    by_contra hcon
    exact (hno _ (not_le.1 hcon) hle).1 rfl
  have hhi : c < R.upper k → n ≤ R.upper k := fun hlt => by
    by_contra hcon
    exact (hno _ hlt (not_le.1 hcon)).2 rfl
  unfold Contains
  rcases lt_trichotomy (R.lower k) n with h1 | h1 | h1
  · have h2 := hlo h1
    rcases lt_trichotomy (R.upper k) n with h3 | h3 | h3
    · have h4 : ¬c < R.upper k := fun hc => absurd (hhi hc) (not_le.2 h3)
      simp [h1.ne, h3.ne, not_lt.2 h3.le, h4]
    · simp [h1.ne, h3, h2, hcn]
    · simp [h1.ne, h3.ne', h1.le, h2, h3, hcn.trans h3]
  · have h2 : n < R.upper k := h1 ▸ hlt
    simp [h1, h2, h2.ne', not_le.2 hcn]
  · have h2 : n < R.upper k := h1.trans hlt
    simp [h1.ne', h2.ne', not_le.2 h1, not_le.2 (hcn.trans h1)]

/-- A range that contains the point counts in full in the active size. -/
theorem active_le_of_contains {c : α} {k : ι} (hk : k ∈ R.keys) (hc : R.Contains k c) :
    R.size k ≤ R.active c := by
  have h := R.size_mul_le_total (w := fun k => if R.Contains k c then 1 else 0)
    (fun _ _ => Nat.zero_le _) hk
  rw [if_pos hc, Nat.cast_id, mul_one] at h
  exact h

/-- A range counts in full in the gross size at its lower bound. -/
theorem size_le_gross_lower {k : ι} (hk : k ∈ R.keys) : R.size k ≤ R.gross (R.lower k) := by
  have h := R.size_mul_le_total (w := fun j => if R.lower j = R.lower k then 1 else 0)
    (fun _ _ => Nat.zero_le _) hk
  unfold gross startsAt
  simp only [if_true, mul_one, Nat.cast_id] at h
  omega

/-- A range counts in full in the gross size at its upper bound. -/
theorem size_le_gross_upper {k : ι} (hk : k ∈ R.keys) : R.size k ≤ R.gross (R.upper k) := by
  have h := R.size_mul_le_total (w := fun j => if R.upper j = R.upper k then 1 else 0)
    (fun _ _ => Nat.zero_le _) hk
  unfold gross endsAt
  simp only [if_true, mul_one, Nat.cast_id] at h
  omega

end Points

/-! ## Changing the family -/

section Change

variable [DecidableEq ι]

/-- Resize one range. -/
def setSize (k : ι) (v : ℕ) : Ranges ι α := { R with size := Function.update R.size k v }

/-- The effect of resizing one range on a total. -/
theorem total_setSize [Semiring M] (w : ι → M) {k : ι} (hk : k ∈ R.keys) (v : ℕ) :
    (R.setSize k v).total w + R.size k * w k = R.total w + v * w k := by
  unfold total setSize
  rw [← Finset.add_sum_erase _ _ hk, ← Finset.add_sum_erase R.keys _ hk]
  have hrest : ∑ j ∈ R.keys.erase k, (Function.update R.size k v j : M) * w j =
      ∑ j ∈ R.keys.erase k, (R.size j : M) * w j :=
    Finset.sum_congr rfl fun j hj => by
      rw [Function.update_of_ne (Finset.ne_of_mem_erase hj)]
  simp only [hrest, Function.update_self]
  abel

end Change

/-- Two families with the same nonempty ranges. -/
structure SameNonempty (R R' : Ranges ι α) : Prop where
  mem : ∀ k, (k ∈ R'.keys ∧ R'.size k ≠ 0) ↔ k ∈ R.keys ∧ R.size k ≠ 0
  lower : ∀ k ∈ R.keys, R.size k ≠ 0 → R'.lower k = R.lower k
  upper : ∀ k ∈ R.keys, R.size k ≠ 0 → R'.upper k = R.upper k
  size : ∀ k ∈ R.keys, R.size k ≠ 0 → R'.size k = R.size k

section SameNonempty

variable {R} {R' : Ranges ι α}

/-- Totals depend on the nonempty ranges only.

**Proof sketch.** A total is the sum over the keys of nonempty ranges only, since an empty one adds
nothing. These keys and their sizes are the same on both sides. -/
theorem SameNonempty.total [Semiring M] (h : SameNonempty R R') {w w' : ι → M}
    (hw : ∀ k ∈ R.keys, R.size k ≠ 0 → w' k = w k) : R'.total w' = R.total w := by
  classical
  have hfilter : ∀ (S : Ranges ι α) (v : ι → M),
      S.total v = ∑ k ∈ S.keys.filter (fun k => S.size k ≠ 0), (S.size k : M) * v k := fun S v => by
    unfold Ranges.total
    rw [Finset.sum_filter]
    refine Finset.sum_congr rfl fun k _ => ?_
    split_ifs with h0
    · rfl
    · rw [not_not] at h0
      rw [h0, Nat.cast_zero, zero_mul]
  have hkeys : R'.keys.filter (fun k => R'.size k ≠ 0) = R.keys.filter fun k => R.size k ≠ 0 := by
    ext k
    simp only [Finset.mem_filter]
    exact h.mem k
  rw [hfilter, hfilter, hkeys]
  refine Finset.sum_congr rfl fun k hk => ?_
  obtain ⟨hk, h0⟩ := Finset.mem_filter.1 hk
  rw [h.size k hk h0, hw k hk h0]

variable [LinearOrder α]

/-- Families with the same nonempty ranges have the same active size at every point. -/
theorem SameNonempty.active (h : SameNonempty R R') (c : α) : R'.active c = R.active c :=
  h.total fun k hk h0 => if_congr
    (by unfold Contains; rw [h.lower k hk h0, h.upper k hk h0]) rfl rfl

/-- Families with the same nonempty ranges have the same sizes starting at every point. -/
lemma SameNonempty.startsAt (h : SameNonempty R R') (t : α) : R'.startsAt t = R.startsAt t :=
  h.total fun k hk h0 => by rw [h.lower k hk h0]

/-- Families with the same nonempty ranges have the same sizes ending at every point. -/
lemma SameNonempty.endsAt (h : SameNonempty R R') (t : α) : R'.endsAt t = R.endsAt t :=
  h.total fun k hk h0 => by rw [h.upper k hk h0]

/-- Families with the same nonempty ranges have the same net size at every point. -/
theorem SameNonempty.net (h : SameNonempty R R') (t : α) : R'.net t = R.net t := by
  unfold Ranges.net
  rw [h.startsAt, h.endsAt]

/-- Families with the same nonempty ranges have the same gross size at every point. -/
theorem SameNonempty.gross (h : SameNonempty R R') (t : α) : R'.gross t = R.gross t := by
  unfold Ranges.gross
  rw [h.startsAt, h.endsAt]

end SameNonempty

/-! ## Potentials at a clamped point -/

section Clamp

variable {β : Type*} [LinearOrder β]

/-- The point of an interval nearest to `p`. -/
def clamp (lo hi p : β) : β := max lo (min p hi)

/-- A point between the bounds is its own clamp. -/
lemma clamp_of_le {lo hi p : β} (hlo : lo ≤ p) (hhi : p ≤ hi) : clamp lo hi p = p := by
  rw [clamp, min_eq_left hhi, max_eq_right hlo]

/-- A point up to the lower bound is clamped to it. -/
lemma clamp_of_le_lower {lo hi p : β} (h : p ≤ lo) : clamp lo hi p = lo :=
  max_eq_left ((min_le_left p hi).trans h)

/-- A point from the upper bound on is clamped to it. -/
lemma clamp_of_upper_le {lo hi p : β} (hle : lo ≤ hi) (h : hi ≤ p) : clamp lo hi p = hi := by
  rw [clamp, min_eq_right h, max_eq_right hle]

/-- A clamped point is at least the lower bound. -/
lemma lower_le_clamp (lo hi p : β) : lo ≤ clamp lo hi p := le_max_left _ _

/-- A clamped point is at most the upper bound, if the bounds are in order. -/
lemma clamp_le_upper {lo hi : β} (p : β) (hle : lo ≤ hi) : clamp lo hi p ≤ hi :=
  max_le hle (min_le_right _ _)

/-- Clamping keeps the order of two points. -/
lemma clamp_mono (lo hi : β) {p q : β} (h : p ≤ q) : clamp lo hi p ≤ clamp lo hi q :=
  max_le_max le_rfl (min_le_min h le_rfl)

/-- A total of potentials at a clamped point moves with the ranges that the move is inside of;
of the other ranges the move is outside. -/
theorem total_clamp_shift [CommRing M] (f : β → M) (lo hi : ι → β) (base : ι → M) {p q : β}
    {P : ι → Prop} [DecidablePred P]
    (h : ∀ k ∈ R.keys, R.size k ≠ 0 →
      (P k ∧ (lo k ≤ p ∧ p ≤ hi k) ∧ lo k ≤ q ∧ q ≤ hi k) ∨
        (¬P k ∧ clamp (lo k) (hi k) p = clamp (lo k) (hi k) q)) :
    R.total (fun k => f (clamp (lo k) (hi k) q) - base k) =
      R.total (fun k => f (clamp (lo k) (hi k) p) - base k) +
        R.total (fun k => if P k then 1 else 0) * (f q - f p) := by
  rw [← total_mul_right, ← total_add]
  refine R.total_congr fun k hk h0 => ?_
  rcases h k hk h0 with ⟨hP, ⟨h1, h2⟩, h3, h4⟩ | ⟨hP, he⟩
  · rw [clamp_of_le h1 h2, clamp_of_le h3 h4, if_pos hP]
    ring
  · rw [if_neg hP, he]
    ring

end Clamp

end Ranges
