import Mathlib

set_option relaxedAutoImplicit false
set_option autoImplicit false

/-!
# Journeys with an amount

A road with gates, and a traveller who moves ahead with an amount. On the stretches between gates
the amount is used up (by tolls that a budget pays, or by gains that an order asks for), and
something else adds up meanwhile. The traveller stops when the amount is used up, and in any case
at a given point. Where he stops, and what has added up until then, is described here without
following the journey, by the totals over the stretches up to a point.

## Main definitions

* `Journey.Clear` — there is no gate strictly between two points.
* `Journey.Total` — the total of a measure over the stretches between two points.
* `Journey.Measure` — the laws of a measure of stretches.
* `Journey.Furthest`, `Journey.Nearest` — where an amount that is used up on a stretch ends.
* `Journey` — the journey with an amount.

## Main results

* `Journey.rem_eq_zero_iff` — when the whole amount is used up.
* `Journey.other_le_iff_furthest`, `Journey.other_le_iff_nearest` — when what adds up on the way is
  within a bound, for a traveller who goes as far as the amount pays for, and for one who stops as
  soon as the amount is met.
-/

namespace Journey

variable {P : Type*} [LinearOrder P]

/-- There is no gate strictly between `u` and `v`. -/
def Clear (gate : P → Prop) (u v : P) : Prop :=
  u ≤ v ∧ ∀ m, u < m → m < v → ¬gate m

/-- **The total of a measure** from one point to another: the sum over the stretches between the
gates on the way. -/
inductive Total (gate : P → Prop) (f : P → P → ℕ) : P → P → ℕ → Prop
  | ride {u v : P} (clear : Clear gate u v) : Total gate f u v (f u v)
  | through {u m v : P} {x : ℕ} (clear : Clear gate u m) (gated : gate m)
      (rest : Total gate f m v x) : Total gate f u v (f u m + x)

/-- A measure of stretches: a part of a clear stretch measures at most as much as the whole. -/
structure Measure (gate : P → Prop) (f : P → P → ℕ) : Prop where
  self : ∀ u, f u u = 0
  mono : ∀ {u m v}, Clear gate u v → u ≤ m → m ≤ v → f u m ≤ f u v

/-- The traveller on the stretch from `u` to `n` goes as far as the amount `r` pays for. -/
def Furthest (f : P → P → ℕ) (u : P) (r : ℕ) (n v : P) : Prop :=
  f u v ≤ r ∧ ∀ x, u ≤ x → x ≤ n → f u x ≤ r → x ≤ v

/-- The traveller on the stretch from `u` to `n` stops as soon as the amount `r` is met. -/
def Nearest (f : P → P → ℕ) (u : P) (r : ℕ) (n v : P) : Prop :=
  r ≤ f u v ∧ ∀ x, u ≤ x → x ≤ n → r ≤ f u x → v ≤ x

end Journey

/-- **A journey with the amount `r` from `u` to `v`**, on which the measure `used` uses the amount
up to a rest, and the measure `other` adds up. It never goes beyond the point `stop`. -/
inductive Journey {P : Type*} [LinearOrder P] (gate : P → Prop) (used other : P → P → ℕ)
    (halts : P → ℕ → P → P → Prop) (stop : P) : P → ℕ → P → ℕ → ℕ → Prop
  /-- The amount is used up. -/
  | done {u : P} : Journey gate used other halts stop u 0 u 0 0
  /-- The amount is used up between two gates. -/
  | short {u n v : P} {r : ℕ} (pos : 0 < r) (clear : Journey.Clear gate u n)
      (ends : gate n ∨ n = stop) (before : n ≤ stop) (from_le : u ≤ v) (le : v ≤ n)
      (lt : r < used u n) (halt : halts u r n v) :
      Journey gate used other halts stop u r v 0 (other u v)
  /-- The traveller reaches the point where he stops in any case. -/
  | arrive {u : P} {r : ℕ} (pos : 0 < r) (clear : Journey.Clear gate u stop)
      (le : used u stop ≤ r) :
      Journey gate used other halts stop u r stop (r - used u stop) (other u stop)
  /-- The traveller reaches a gate, and goes on with what is left. -/
  | pass {u n v : P} {r left x : ℕ} (pos : 0 < r) (clear : Journey.Clear gate u n)
      (gated : gate n) (before : n ≤ stop) (le : used u n ≤ r)
      (rest : Journey gate used other halts stop n (r - used u n) v left x) :
      Journey gate used other halts stop u r v left (other u n + x)

namespace Journey

variable {P : Type*} [LinearOrder P] {gate : P → Prop} {used other f : P → P → ℕ}
  {halts : P → ℕ → P → P → Prop} {stop u v n m x : P} {r rem c g o A : ℕ}

/-! ## Clear stretches -/

/-- A part of a clear stretch is clear. -/
lemma Clear.left (h : Clear gate u v) (hm : u ≤ m) (hm' : m ≤ v) : Clear gate u m := by
  refine ⟨hm, fun k h1 h2 => ?_⟩
  exact h.2 k h1 (lt_of_lt_of_le h2 hm')

/-- A point is a clear stretch. -/
lemma Clear.refl (u : P) : Clear gate u u := by
  refine ⟨le_rfl, fun m h1 h2 => ?_⟩
  exact absurd (h1.trans h2) (lt_irrefl u)

/-- A gate on a clear stretch is one of its ends. -/
lemma Clear.gate_eq (h : Clear gate u v) (hm : gate m) (h1 : u ≤ m) (h2 : m ≤ v) :
    m = u ∨ m = v := by
  by_contra hcon
  rw [not_or] at hcon
  exact h.2 m (lt_of_le_of_ne h1 (Ne.symm hcon.1)) (lt_of_le_of_ne h2 hcon.2) hm

/-! ## Totals -/

/-- Totals go ahead. -/
lemma Total.le (h : Total gate f u v c) : u ≤ v := by
  induction h with
  | ride clear => exact clear.1
  | through clear _ _ ih => exact clear.1.trans ih

/-- The total over a clear stretch is its measure. -/
lemma Total.clear (hf : Measure gate f) (h : Total gate f u v c) (hc : Clear gate u v) :
    c = f u v := by
  induction h with
  | ride _ => rfl
  | @through u m v x clear gated rest ih =>
    rcases hc.gate_eq gated clear.1 rest.le with rfl | rfl
    · rw [hf.self, zero_add, ih hc]
    · rw [ih (Clear.refl m), hf.self, add_zero]

/-- All measures have totals along the same way. -/
lemma Total.exists_other (h : Total gate f u v c) (f' : P → P → ℕ) :
    ∃ c', Total gate f' u v c' := by
  induction h with
  | ride clear => exact ⟨_, .ride clear⟩
  | through clear gated _ ih =>
    obtain ⟨c', hrest⟩ := ih
    exact ⟨_, .through clear gated hrest⟩

/-- **The total up to a point beyond a gate** is the measure of the stretch before the gate and the
total from there.

**Proof sketch.** Induction on the total. A first stretch that ends before the gate has measure
zero, since both its ends are gates on a clear stretch; one that ends at the gate gives the claim,
and so does one that ends beyond it, where the gate is its first point. -/
lemma Total.past (hf : Measure gate f) (h : Total gate f u v c) (hc : Clear gate u n)
    (hn : gate n) (hle : n ≤ v) : ∃ c', Total gate f n v c' ∧ c = f u n + c' := by
  induction h with
  | @ride u v clear =>
    rcases clear.gate_eq hn hc.1 hle with rfl | rfl
    · exact ⟨_, .ride clear, by rw [hf.self, zero_add]⟩
    · exact ⟨_, .ride (Clear.refl n), by rw [hf.self, add_zero]⟩
  | @through u m v x clear gated rest ih =>
    rcases lt_trichotomy m n with hmn | rfl | hnm
    · obtain rfl : m = u := (hc.gate_eq gated clear.1 hmn.le).resolve_right hmn.ne
      rw [hf.self, zero_add]
      exact ih hc hle
    · exact ⟨x, rest, rfl⟩
    · obtain rfl : n = u := (clear.gate_eq hn hc.1 hnm.le).resolve_right hnm.ne
      exact ⟨_, .through clear gated rest, by rw [hf.self, zero_add]⟩

/-- The total up to a point on a clear stretch. -/
lemma Total.before (hf : Measure gate f) (h : Total gate f u v c) (hc : Clear gate u n)
    (hle : v ≤ n) : c = f u v :=
  h.clear hf (hc.left h.le hle)

/-- Further away totals are larger. -/
lemma Total.mono (hf : Measure gate f) (h : Total gate f u v c) (h' : Total gate f u x g)
    (hle : v ≤ x) : c ≤ g := by
  induction h' generalizing c with
  | ride clear =>
    rw [h.before hf clear hle]
    exact hf.mono clear h.le hle
  | @through u m x g clear gated rest ih =>
    rcases le_or_gt v m with hvm | hmv
    · rw [h.before hf clear hvm]
      exact (hf.mono clear h.le hvm).trans (Nat.le_add_right _ _)
    · obtain ⟨c', hrest, rfl⟩ := h.past hf clear gated hmv.le
      exact Nat.add_le_add_left (ih hrest hle) _

/-- Where nothing is used, nothing else adds up: on every stretch, and so in total. -/
lemma Total.eq_zero (hused : Measure gate used)
    (hfree : ∀ {u v}, Clear gate u v → used u v = 0 → other u v = 0)
    (h : Total gate used u v 0) (h' : Total gate other u v g) : g = 0 := by
  induction h' with
  | ride clear => exact hfree clear (h.clear hused clear).symm
  | @through u m v g clear gated rest ih =>
    obtain ⟨c', hrest, hzero⟩ := h.past hused clear gated rest.le
    obtain ⟨h1, rfl⟩ : used u m = 0 ∧ c' = 0 := by omega
    rw [hfree clear h1, ih hrest]

/-! ## Where a journey ends -/

/-- A journey goes ahead, and not beyond the stop. -/
lemma bounds (h : Journey gate used other halts stop u r v rem o) (hu : u ≤ stop) :
    u ≤ v ∧ v ≤ stop := by
  induction h with
  | done => exact ⟨le_rfl, hu⟩
  | short _ _ _ before from_le le => exact ⟨from_le, le.trans before⟩
  | arrive _ clear => exact ⟨clear.1, le_rfl⟩
  | pass _ clear _ before _ _ ih => exact ⟨clear.1.trans (ih before).1, (ih before).2⟩

/-- Where a traveller stops in any case, he stays. -/
lemma stay (hused : Measure gate used) (hother : Measure gate other) (u : P) (r : ℕ) :
    Journey gate used other halts u u r u r 0 := by
  rcases Nat.eq_zero_or_pos r with rfl | hpos
  · exact .done
  · have harrive : Journey gate used other halts u u r u (r - used u u) (other u u) :=
      .arrive hpos (Clear.refl u) (by rw [hused.self]; exact Nat.zero_le r)
    rwa [hused.self, hother.self, Nat.sub_zero] at harrive

/-- A journey to a gate that uses the amount up. -/
lemma pass_done (pos : 0 < r) (clear : Clear gate u n) (gated : gate n) (before : n ≤ stop)
    (hexact : used u n = r) : Journey gate used other halts stop u r n 0 (other u n) := by
  subst hexact
  have hrest : Journey gate used other halts stop n (used u n - used u n) n 0 0 := by
    rw [Nat.sub_self]
    exact .done
  exact .pass pos clear gated before le_rfl hrest

/-- A journey with an amount that is used up does not move. -/
lemma empty (h : Journey gate used other halts stop u 0 v rem o) : v = u ∧ o = 0 := by
  cases h with
  | done => exact ⟨rfl, rfl⟩
  | short pos => exact absurd pos (lt_irrefl 0)
  | arrive pos => exact absurd pos (lt_irrefl 0)
  | pass pos => exact absurd pos (lt_irrefl 0)

/-- What adds up on a journey is the total up to its end. -/
lemma total (h : Journey gate used other halts stop u r v rem o) (hother : Measure gate other) :
    Total gate other u v o := by
  induction h with
  | @done u =>
    have hstay : Total gate other u u (other u u) := .ride (Clear.refl u)
    rwa [hother.self] at hstay
  | short _ clear _ _ from_le le => exact .ride (clear.left from_le le)
  | arrive _ clear => exact .ride clear
  | pass _ clear gated _ _ _ ih => exact .through clear gated ih

/-- A journey has a total of what it uses. -/
lemma exists_total (h : Journey gate used other halts stop u r v rem o) :
    ∃ c, Total gate used u v c := by
  induction h with
  | @done u => exact ⟨_, .ride (Clear.refl u)⟩
  | short _ clear _ _ from_le le => exact ⟨_, .ride (clear.left from_le le)⟩
  | arrive _ clear => exact ⟨_, .ride clear⟩
  | pass _ clear gated _ _ _ ih =>
    obtain ⟨c, hc⟩ := ih
    exact ⟨_, .through clear gated hc⟩

/-- A journey that leaves something ends at the stop, and has used the total up to it. -/
lemma rem_eq (h : Journey gate used other halts stop u r v rem o) :
    rem = 0 ∨ v = stop ∧ ∃ c, Total gate used u stop c ∧ c + rem = r := by
  induction h with
  | done => exact Or.inl rfl
  | short => exact Or.inl rfl
  | arrive _ clear le => exact Or.inr ⟨rfl, _, .ride clear, by omega⟩
  | pass _ clear gated _ le _ ih =>
    refine ih.imp id fun ⟨hstop, c, htotal, hc⟩ => ?_
    exact ⟨hstop, _, .through clear gated htotal, by omega⟩

/-- A journey that uses its whole amount up has at most used the total up to the stop.

**Proof sketch.** Induction on the journey. Where the amount ends on a stretch it is less than the
measure of the stretch, and a gate takes off the same from the amount and from the total. -/
lemma le_of_rem_eq_zero (hused : Measure gate used)
    (h : Journey gate used other halts stop u r v rem o) (hrem : rem = 0)
    (htotal : Total gate used u stop c) : r ≤ c := by
  induction h generalizing c with
  | done => exact Nat.zero_le c
  | @short u n v r pos clear ends before from_le le lt halt =>
    rcases ends with hn | rfl
    · obtain ⟨c', -, rfl⟩ := htotal.past hused clear hn before
      omega
    · rw [htotal.before hused clear le_rfl]
      exact lt.le
  | arrive _ clear le =>
    rw [htotal.clear hused clear]
    omega
  | pass _ clear gated before le _ ih =>
    obtain ⟨c', hrest, rfl⟩ := htotal.past hused clear gated before
    have := ih hrem hrest
    omega

/-- **The whole amount is used up** exactly if it is at most the total up to the stop. -/
theorem rem_eq_zero_iff (hused : Measure gate used) (hother : Measure gate other)
    (h : Journey gate used other halts stop u r v rem o) :
    rem = 0 ↔ ∀ c x, Total gate used u stop c → Total gate other u stop x → r ≤ c := by
  constructor
  · intro hrem c x htotal _
    exact h.le_of_rem_eq_zero hused hrem htotal
  · intro hall
    rcases h.rem_eq with hrem | ⟨rfl, c, htotal, hc⟩
    · exact hrem
    · have := hall c o htotal (h.total hother)
      omega

/-! ## Travellers who go as far as they can -/

/-- A journey that goes as far as the amount pays for uses at most the amount. -/
lemma used_le (h : Journey gate used other (Furthest used) stop u r v rem o)
    (hused : Measure gate used) (htotal : Total gate used u v c) : c ≤ r := by
  induction h generalizing c with
  | @done u => rw [htotal.clear hused (Clear.refl u), hused.self]
  | short _ clear _ _ _ le _ halt =>
    rw [htotal.before hused clear le]
    exact halt.1
  | arrive _ clear le => rwa [htotal.clear hused clear]
  | pass _ clear gated before le rest ih =>
    obtain ⟨c', hrest, rfl⟩ := htotal.past hused clear gated (rest.bounds before).1
    have := ih hrest
    omega

/-- A way that the amount pays for yields at most what the journey yields.

**Proof sketch.** Induction on the journey. On a stretch on which the amount ends, a way that it
pays for does not pass the next gate, and does not go beyond the end of the journey. At a gate, a
way either ends before it, or passes it with the same rest. -/
lemma le_other (h : Journey gate used other (Furthest used) stop u r v rem o)
    (hused : Measure gate used) (hother : Measure gate other)
    (hfree : ∀ {u v}, Clear gate u v → used u v = 0 → other u v = 0)
    (hc : Total gate used u x c) (hg : Total gate other u x g) (hx : x ≤ stop) (hle : c ≤ r) :
    g ≤ o := by
  induction h generalizing c g with
  | done =>
    obtain rfl : c = 0 := by omega
    exact (Total.eq_zero hused hfree hc hg).le
  | @short u n v r pos clear ends before from_le le lt halt =>
    have hxn : x ≤ n := by
      rcases ends with hn | rfl
      · by_contra hcon
        obtain ⟨c', -, rfl⟩ := hc.past hused clear hn (not_le.1 hcon).le
        omega
      · exact hx
    rw [hc.before hused clear hxn] at hle
    rw [hg.before hother clear hxn]
    have hxv : x ≤ v := halt.2 x hg.le hxn hle
    exact hother.mono (clear.left from_le le) hg.le hxv
  | arrive _ clear le =>
    rw [hg.before hother clear hx]
    exact hother.mono clear hg.le hx
  | @pass u n v r rem o pos clear gated before le rest ih =>
    rcases le_or_gt x n with hxn | hnx
    · rw [hg.before hother clear hxn]
      exact (hother.mono clear hg.le hxn).trans (Nat.le_add_right _ _)
    · obtain ⟨c', hc', rfl⟩ := hc.past hused clear gated hnx.le
      obtain ⟨g', hg', rfl⟩ := hg.past hother clear gated hnx.le
      exact Nat.add_le_add_left (ih hc' hg' (by omega)) _

/-- **What adds up is within a bound** exactly if it is on every way up to the stop that the amount
pays for. -/
theorem other_le_iff_furthest (h : Journey gate used other (Furthest used) stop u r v rem o)
    (hused : Measure gate used) (hother : Measure gate other)
    (hfree : ∀ {u v}, Clear gate u v → used u v = 0 → other u v = 0) (hu : u ≤ stop) :
    o ≤ A ↔ ∀ x c g, Total gate used u x c → Total gate other u x g → x ≤ stop → c ≤ r →
      g ≤ A := by
  constructor
  · intro ho x c g hc hg hx hle
    exact (h.le_other hused hother hfree hc hg hx hle).trans ho
  · intro hall
    obtain ⟨c, hc⟩ := h.exists_total
    exact hall v c o hc (h.total hother) (h.bounds hu).2 (h.used_le hused hc)

/-! ## Travellers who stop as soon as they can -/

/-- **Where a traveller with the amount `r` may stop at the latest**, having used `g` from `u` on:
at the stop, or where the amount is met. Where a gate further on, or the stop, meets the amount
exactly, he goes there. -/
def Settles (gate : P → Prop) (used : P → P → ℕ) (stop u : P) (r : ℕ) (x : P) (g : ℕ) : Prop :=
  x = stop ∨ r ≤ g ∧ (gate x ∨ ∀ n, x < n → n ≤ stop → (gate n ∨ n = stop) →
    ¬Total gate used u n r)

/-- A journey ends where its amount is settled.

**Proof sketch.** Induction on the journey. Where the amount is met before the next gate, all gates
further on and the stop are beyond that gate, and they exceed the amount as this gate does. Where
a gate uses the amount up the journey ends at a gate. -/
lemma settles (h : Journey gate used other (Nearest used) stop u r v rem o)
    (hused : Measure gate used) (hr : 0 < r) (hg : Total gate used u v g) :
    Settles gate used stop u r v g := by
  induction h generalizing g with
  | done => exact absurd hr (lt_irrefl 0)
  | @short u n v r pos clear ends before from_le le lt halt =>
    rw [hg.before hused clear le]
    refine Or.inr ⟨halt.1, Or.inr fun m hvm hm hgate htotal => ?_⟩
    -- the gate, or the stop, is not before the end of the stretch
    have hnm : n ≤ m := by
      by_contra hcon
      have hmn : m < n := not_le.1 hcon
      rcases hgate with hgate | rfl
      · exact clear.2 m (from_le.trans_lt hvm) hmn hgate
      · exact absurd before (not_le.2 hmn)
    rcases ends with hn | rfl
    · obtain ⟨c', -, hc'⟩ := htotal.past hused clear hn hnm
      omega
    · obtain rfl : m = n := le_antisymm hm hnm
      have := htotal.clear hused clear
      omega
  | arrive => exact Or.inl rfl
  | @pass u n v r rem o pos clear gated before le rest ih =>
    obtain ⟨g', hg', rfl⟩ := hg.past hused clear gated (rest.bounds before).1
    rcases Nat.eq_zero_or_pos (r - used u n) with hzero | hpos
    · rw [hzero] at rest
      obtain ⟨rfl, -⟩ := rest.empty
      exact Or.inr ⟨by omega, Or.inl gated⟩
    · refine (ih hpos hg').imp id fun ⟨hmet, hexact⟩ => ⟨by omega, hexact.imp id ?_⟩
      intro hno m hvm hm hgate htotal
      have hnm : n ≤ m := (rest.bounds before).1.trans hvm.le
      obtain ⟨c', hc', hsum⟩ := htotal.past hused clear gated hnm
      obtain rfl : c' = r - used u n := by omega
      exact hno m hvm hm hgate hc'

/-- A journey does not go beyond a point that settles its amount.

**Proof sketch.** Induction on the journey. A point before the next gate that meets an amount which
the gate does not exceed meets it exactly as the gate does: then it is no gate itself, and the gate
is the one to go to. -/
lemma le_of_settles (h : Journey gate used other (Nearest used) stop u r v rem o)
    (hused : Measure gate used) (hr : 0 < r) (hu : u ≤ stop) (hx : x ≤ stop)
    (hg : Total gate used u x g) (hsettles : Settles gate used stop u r x g) : v ≤ x := by
  -- a point before an end of its stretch that uses up at most the amount does not settle it
  have hearly : ∀ {u n : P} {r g : ℕ}, 0 < r → Clear gate u n → (gate n ∨ n = stop) → n ≤ stop →
      used u n ≤ r → Total gate used u x g → x < n → r ≤ g →
      ¬(gate x ∨ ∀ n, x < n → n ≤ stop → (gate n ∨ n = stop) → ¬Total gate used u n r) := by
    intro u n r g hr clear ends before le hg hxn hmet hcon
    rw [hg.before hused clear hxn.le] at hmet
    have hmono := hused.mono clear hg.le hxn.le
    have hexact : used u n = r := by omega
    rcases hcon with hgate | hno
    · obtain rfl : x = u := (clear.gate_eq hgate hg.le hxn.le).resolve_right hxn.ne
      rw [hused.self] at hmet
      omega
    · exact hno n hxn before ends (hexact ▸ .ride clear)
  induction h generalizing g with
  | done => exact hg.le
  | @short u n v r pos clear ends before from_le le lt halt =>
    rcases hsettles with rfl | ⟨hmet, -⟩
    · exact le.trans before
    rcases le_or_gt x n with hxn | hnx
    · rw [hg.before hused clear hxn] at hmet
      exact halt.2 x hg.le hxn hmet
    · exact le.trans hnx.le
  | @arrive u r pos clear le =>
    rcases hsettles with rfl | ⟨hmet, hcon⟩
    · exact le_rfl
    · by_contra hlt
      exact hearly pos clear (Or.inr rfl) le_rfl le hg (not_le.1 hlt) hmet hcon
  | @pass u n v r rem o pos clear gated before le rest ih =>
    rcases hsettles with rfl | ⟨hmet, hcon⟩
    · exact (rest.bounds before).2
    rcases le_or_gt n x with hnx | hxn
    · obtain ⟨g', hg', rfl⟩ := hg.past hused clear gated hnx
      rcases Nat.eq_zero_or_pos (r - used u n) with hzero | hpos
      · rw [hzero] at rest
        obtain ⟨rfl, -⟩ := rest.empty
        exact hnx
      · refine ih hpos before hg' (Or.inr ⟨by omega, hcon.imp id ?_⟩)
        intro hno m hxm hm hgate htotal
        have hsum : used u n + (r - used u n) = r := by omega
        exact hno m hxm hm hgate (hsum ▸ .through clear gated htotal)
    · exact absurd hcon (hearly pos clear (Or.inl gated) before le hg hxn hmet)

/-- **What adds up is within a bound** exactly if it is up to some point that settles the amount. -/
theorem other_le_iff_nearest (h : Journey gate used other (Nearest used) stop u r v rem o)
    (hused : Measure gate used) (hother : Measure gate other) (hr : 0 < r) (hu : u ≤ stop) :
    o ≤ A ↔ ∃ x g c, Total gate used u x g ∧ Total gate other u x c ∧ x ≤ stop ∧
      Settles gate used stop u r x g ∧ c ≤ A := by
  constructor
  · intro ho
    obtain ⟨g, hg⟩ := h.exists_total
    exact ⟨v, g, o, hg, h.total hother, (h.bounds hu).2, h.settles hused hr hg, ho⟩
  · rintro ⟨x, g, c, hg, hc, hx, hsettles, hle⟩
    have hvx := h.le_of_settles hused hr hu hx hg hsettles
    exact ((h.total hother).mono hother hc hvx).trans hle

end Journey
