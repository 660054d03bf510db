import NemoSwap.Lib.Journey

set_option relaxedAutoImplicit false
set_option autoImplicit false

/-!
# Travelling on a budget

A road with gates. Moving ahead costs a toll and yields a gain, and a traveller with a budget pays
from gate to gate. Between two gates neither rounds in the traveller's favour: a move made in two
parts costs at least what it costs in one, and yields at most as much. Then stopping on the way
never pays: two trips with two budgets yield at most what one trip with both budgets yields.

## Main definitions

* `TollRoad` — a road with its tolls and gains.
* `TollRoad.Trip` — where a budget can take a traveller, and with what gain.
* `TollRoad.Furthest` — no trip with the budget ends beyond a point.

## Main results

* `TollRoad.Trip.trans` — two trips in a row are one trip with both budgets.
* `TollRoad.Trip.gain_le` — a longer trip yields more.
* `TollRoad.Trip.split_le` — stopping on the way never pays.
-/

/-- A road with gates. The laws are about stretches without a gate strictly inside. -/
structure TollRoad (P : Type*) [LinearOrder P] where
  gate : P → Prop
  toll : P → P → ℕ
  gain : P → P → ℕ
  toll_self : ∀ u, toll u u = 0
  gain_self : ∀ u, gain u u = 0
  /-- A part of a stretch costs at most as much as the whole. -/
  toll_mono : ∀ {u m v}, Journey.Clear gate u v → u ≤ m → m ≤ v → toll u m ≤ toll u v
  /-- The parts of a stretch cost at least as much as the whole. -/
  toll_le_add : ∀ {u m v}, Journey.Clear gate u v → u ≤ m → m ≤ v → toll u v ≤ toll u m + toll m v
  /-- The parts of a stretch yield at most as much as the whole. -/
  add_gain_le : ∀ {u m v}, Journey.Clear gate u v → u ≤ m → m ≤ v → gain u m + gain m v ≤ gain u v

namespace TollRoad

variable {P : Type*} [LinearOrder P] {T : TollRoad P} {u v w m n s : P} {r r' x y g g' G : ℕ}

/-- There is no gate strictly between two points of the road. -/
abbrev Clear (T : TollRoad P) (u v : P) : Prop := Journey.Clear T.gate u v

/-- **Where a budget can take a traveller**, and with what gain. With an empty budget he stays, also
where moving is free. -/
inductive Trip (T : TollRoad P) : P → ℕ → P → ℕ → Prop
  /-- On a clear stretch, to any point that the budget pays for. -/
  | ride {u v : P} {r : ℕ} (clear : T.Clear u v) (paid : T.toll u v ≤ r) (pos : u < v → 0 < r) :
      Trip T u r v (T.gain u v)
  /-- Through the next gate, with something left. -/
  | through {u m v : P} {r g : ℕ} (clear : T.Clear u m) (gate : T.gate m)
      (paid : T.toll u m < r) (rest : Trip T m (r - T.toll u m) v g) :
      Trip T u r v (T.gain u m + g)

/-- No trip with the budget ends beyond the point. -/
def Furthest (T : TollRoad P) (u : P) (r : ℕ) (s : P) : Prop := ∀ v g, T.Trip u r v g → v ≤ s

/-! ## Clear stretches -/

/-- Two clear stretches in a row, with no gate where they meet. -/
theorem Clear.append (h : T.Clear u v) (h' : T.Clear v w) (hv : ¬T.gate v) : T.Clear u w := by
  refine ⟨h.1.trans h'.1, fun m h1 h2 hm => ?_⟩
  rcases lt_trichotomy m v with hlt | rfl | hgt
  · exact h.2 m h1 hlt hm
  · exact hv hm
  · exact h'.2 m hgt h2 hm

/-- The gains are a measure of clear stretches. -/
lemma measure_gain (T : TollRoad P) : Journey.Measure T.gate T.gain := by
  refine ⟨T.gain_self, fun h hm hm' => ?_⟩
  exact (Nat.le_add_right _ _).trans (T.add_gain_le h hm hm')

/-- A part of a clear stretch yields at most as much as the whole. -/
lemma Clear.gain_mono (h : T.Clear u v) (hm : u ≤ m) (hm' : m ≤ v) :
    T.gain u m ≤ T.gain u v :=
  T.measure_gain.mono h hm hm'

/-! ## Trips -/

/-- A trip does not go back. -/
lemma Trip.le (h : T.Trip u r v g) : u ≤ v := by
  induction h with
  | ride clear => exact clear.1
  | through clear _ _ _ ih => exact clear.1.trans ih

/-- With more money the same trip can be made. -/
theorem Trip.mono (h : T.Trip u r v g) (hr : r ≤ r') : T.Trip u r' v g := by
  induction h generalizing r' with
  | ride clear paid pos => exact .ride clear (paid.trans hr) fun hlt => (pos hlt).trans_le hr
  | through clear gate paid _ ih =>
    exact .through clear gate (paid.trans_le hr) (ih (Nat.sub_le_sub_right hr _))

/-- A trip on a clear stretch. -/
theorem Trip.clear (h : T.Trip u r v g) (hc : T.Clear u v) : T.toll u v ≤ r ∧ g = T.gain u v := by
  induction h with
  | ride _ paid => exact ⟨paid, rfl⟩
  | @through u m v r g clear gate paid rest ih =>
    rcases hc.gate_eq gate clear.1 rest.le with rfl | rfl
    · obtain ⟨h1, h2⟩ := ih hc
      rw [T.toll_self, Nat.sub_zero] at h1
      exact ⟨h1, by rw [T.gain_self, zero_add, h2]⟩
    · obtain ⟨-, h2⟩ := ih ⟨le_rfl, fun k hk hk' => absurd (hk.trans hk') (lt_irrefl _)⟩
      exact ⟨paid.le, by rw [h2, T.gain_self, add_zero]⟩

/-- **A trip beyond a gate passes it**, with something left.

**Proof sketch.** Induction on the trip. A clear stretch has no gate but at its start, so in a trip
of one stretch the gate is the start. In a longer trip it is the start, or the first gate that is
passed, or it comes after a gate at the start and is passed on the rest. -/
theorem Trip.past (h : T.Trip u r v g) (hc : T.Clear u n) (hn : T.gate n) (hlt : n < v) :
    T.toll u n < r ∧ ∃ g', T.Trip n (r - T.toll u n) v g' ∧ g = T.gain u n + g' := by
  induction h with
  | @ride u v r clear paid pos =>
    obtain rfl : n = u := (clear.gate_eq hn hc.1 hlt.le).resolve_right hlt.ne
    rw [T.toll_self, T.gain_self]
    exact ⟨pos hlt, _, .ride clear paid pos, (zero_add _).symm⟩
  | @through u m v r g clear gate paid rest ih =>
    rcases lt_trichotomy m n with hmn | rfl | hnm
    · obtain rfl : m = u := (hc.gate_eq gate clear.1 hmn.le).resolve_right hmn.ne
      have h := ih hc hlt
      rw [T.toll_self, Nat.sub_zero] at h
      rwa [T.gain_self, zero_add]
    · exact ⟨paid, g, rest, rfl⟩
    · obtain rfl : n = u := (clear.gate_eq hn hc.1 hnm.le).resolve_right hnm.ne
      rw [T.toll_self, T.gain_self]
      exact ⟨by omega, _, .through clear gate paid rest, (zero_add _).symm⟩

/-- **Two trips in a row** are one trip with both budgets, and it yields no less.

**Proof sketch.** Induction on the first trip. If its last stretch ends at a gate the second trip is
added behind it; if not, the two stretches become one, which costs no more and yields no less than
both. -/
theorem Trip.trans (h : T.Trip u x v g) (h' : T.Trip v y w g') (hy : 0 < y) :
    ∃ G, g + g' ≤ G ∧ T.Trip u (x + y) w G := by
  induction h with
  | @ride u v x clear paid pos =>
    by_cases hv : T.gate v
    · refine ⟨_, le_rfl, .through clear hv (by omega) (h'.mono (by omega))⟩
    cases h' with
    | ride clear' paid' =>
      have hc := clear.append clear' hv
      have h1 := T.toll_le_add hc clear.1 clear'.1
      exact ⟨_, T.add_gain_le hc clear.1 clear'.1, .ride hc (by omega) fun _ => by omega⟩
    | @through _ m _ _ g' clear' gate paid' rest =>
      have hc := clear.append clear' hv
      have h1 := T.toll_le_add hc clear.1 clear'.1
      have h2 := T.add_gain_le hc clear.1 clear'.1
      exact ⟨_, by omega, .through hc gate (by omega) (rest.mono (by omega))⟩
  | through clear gate paid _ ih =>
    obtain ⟨G, hG, hrest⟩ := ih h'
    exact ⟨_, by omega, .through clear gate (by omega) (hrest.mono (by omega))⟩

/-- **A longer trip yields more.** -/
theorem Trip.gain_le (h : T.Trip u r v g) (h' : T.Trip u r' s G) (hle : v ≤ s) : g ≤ G := by
  induction h' generalizing r g with
  | ride clear _ =>
    obtain ⟨-, rfl⟩ := h.clear (clear.left h.le hle)
    exact clear.gain_mono h.le hle
  | @through u m s r' G clear gate _ _ ih =>
    rcases le_or_gt v m with hvm | hmv
    · obtain ⟨-, rfl⟩ := h.clear (clear.left h.le hvm)
      exact (clear.gain_mono h.le hvm).trans (Nat.le_add_right _ _)
    · obtain ⟨-, g', hrest, rfl⟩ := h.past clear gate hmv
      exact Nat.add_le_add_left (ih hrest hle) _

/-! ## The end of a budget -/

/-- Beyond a gate, the rest of the budget decides. -/
theorem Furthest.through (hc : T.Clear u n) (hn : T.gate n) (hle : n ≤ s)
    (h : T.Furthest n (r - T.toll u n) s) : T.Furthest u r s := fun v _ htrip => by
  rcases le_or_gt v n with hvn | hnv
  · exact hvn.trans hle
  · obtain ⟨-, g', hrest, -⟩ := htrip.past hc hn hnv
    exact h v g' hrest

/-- An empty budget goes nowhere. -/
lemma Furthest.empty : T.Furthest u 0 u := fun v _ htrip => by
  cases htrip with
  | ride _ _ pos => exact not_lt.1 fun hlt => absurd (pos hlt) (lt_irrefl 0)
  | through _ _ paid _ => exact absurd paid (Nat.not_lt_zero _)

/-- A budget that ends before the next gate. -/
theorem Furthest.short (hgate : ∀ m, u < m → m ≤ s → ¬T.gate m)
    (h : ∀ v, T.Clear u v → T.toll u v ≤ r → v ≤ s) : T.Furthest u r s := fun v g htrip => by
  induction htrip with
  | ride clear paid => exact h _ clear paid
  | @through u m v r g clear gate paid rest ih =>
    rcases eq_or_lt_of_le clear.1 with rfl | hlt
    · rw [T.toll_self, Nat.sub_zero] at ih
      exact ih hgate h
    · exact absurd gate (hgate m hlt (h m clear paid.le))

/-! ## Journeys as trips -/

/-- **A journey with a budget that pays the tolls** is a trip, and its other measure is its gain.

**Proof sketch.** Induction on the journey. A stretch on which the budget ends or that arrives is a
ride; a gate that is reached with nothing left is the end of a ride too, and the rest of the journey
is then empty. -/
lemma Trip.of_journey {rem : ℕ}
    (h : Journey T.gate T.toll T.gain (Journey.Furthest T.toll) s u r v rem g) :
    T.Trip u r v g := by
  induction h with
  | @done u =>
    have hstay : T.Trip u 0 u (T.gain u u) :=
      .ride (Journey.Clear.refl u) (T.toll_self u).le fun hlt => absurd hlt (lt_irrefl u)
    rwa [T.gain_self] at hstay
  | short pos clear _ _ from_le le _ halt => exact .ride (clear.left from_le le) halt.1 fun _ => pos
  | arrive pos clear le => exact .ride clear le fun _ => pos
  | @pass u n v r rem g pos clear gated _ le rest ih =>
    rcases eq_or_lt_of_le le with heq | hlt
    · -- nothing is left at the gate
      rw [heq, Nat.sub_self] at rest
      obtain ⟨rfl, rfl⟩ := rest.empty
      exact .ride clear le fun _ => pos
    · exact .through clear gated hlt ih

/-- A journey goes as far as its budget pays for, or to the point where it stops in any case.

**Proof sketch.** Induction on the journey. Where the budget ends on a stretch, a point further on
would cost more than it, by `toll_mono`. Behind a gate the claim is that of the rest. -/
lemma Furthest.of_journey {rem : ℕ}
    (h : Journey T.gate T.toll T.gain (Journey.Furthest T.toll) s u r v rem g) (hu : u ≤ s) :
    T.Furthest u r v ∨ v = s := by
  induction h with
  | done => exact Or.inl .empty
  | @short u n v r pos clear ends before from_le le lt halt =>
    refine Or.inl (.short (fun m h1 h2 hm => ?_) fun x hx hpaid => ?_)
    · rcases eq_or_lt_of_le (h2.trans le) with rfl | hlt
      · obtain rfl : v = m := le_antisymm le h2
        exact absurd halt.1 (not_le.2 lt)
      · exact clear.2 m h1 hlt hm
    · rcases le_or_gt x n with hxn | hnx
      · exact halt.2 x hx.1 hxn hpaid
      · exact absurd ((T.toll_mono hx clear.1 hnx.le).trans hpaid) (not_le.2 lt)
  | arrive => exact Or.inr rfl
  | pass _ clear gated before _ rest ih =>
    exact (ih before).imp_left (.through clear gated (rest.bounds before).1)

/-- **Stopping on the way never pays**: two trips yield at most what one trip with both budgets
yields, as long as it goes as far, and it does if it goes as far as it can. -/
theorem Trip.split_le (h : T.Trip u x v g) (h' : T.Trip v y w g') (hy : 0 < y)
    (hone : T.Trip u (x + y) s G) :
    (w ≤ s → g + g' ≤ G) ∧ (T.Furthest u (x + y) s → w ≤ s) := by
  obtain ⟨g'', hle, htrip⟩ := h.trans h' hy
  exact ⟨fun hws => hle.trans (htrip.gain_le hone hws), fun hfar => hfar w g'' htrip⟩

end TollRoad
