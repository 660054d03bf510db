import NemoSwap.Manager.SwapCapacity
import NemoSwap.Manager.SwapTermination

set_option relaxedAutoImplicit false
set_option autoImplicit false

/-!
# Where a swap must stop

A swap stops at its price limit at the latest, and where its tick arrays end: a search beyond the
last array fails, and with it the swap. The last array that a swap is given counts only if it lies
ahead of the price; else a swap that succeeds never gets to it.

## Main definitions

* `NemoSwap.lastSlot`, `NemoSwap.lastIndex` — the end of a tick array in the direction of a swap.
* `NemoSwap.stopPrice` — the price at which a swap must stop.
* `NemoSwap.EndsAtEdge` — a price at the edge of the last tick array.

## Main results

* `NemoSwap.SwapTickSequence.SearchWalk.le_last` — a search does not go beyond the last array.
* `NemoSwap.SwapState.WellFormed.target_toward_stop`, `NemoSwap.SwapState.WellFormed.target_eq_stop`
  — the target of an iteration against the price at which the swap must stop.
* `NemoSwap.Lands.stopPrice_eq` — a swap that goes on must still stop at the same price.
-/

namespace NemoSwap

/-- The last slot of a tick array in the direction of a swap. -/
def lastSlot (aToB : Bool) (ts : ℕ) (start : ℤ) : ℤ :=
  if aToB then start else start + tickArraySize * ts - ts

/-- The last index of a tick array in the direction of a swap, as far as the tick range goes. -/
def lastIndex (aToB : Bool) (ts : ℕ) (start : ℤ) : ℤ :=
  if aToB then max minTickIndex start else min maxTickIndex (start + tickArraySize * ts - 1)

/-- **The price at which a swap from a tick must stop**: its price limit, or the price of the last
index of its last tick array, if this array is ahead and the price is nearer. -/
def stopPrice (limit : ℕ) (aToB : Bool) (ts : ℕ) (starts : List ℤ) (tick : ℤ) : ℕ :=
  match starts.getLast? with
  | some start =>
    if Ahead aToB tick (lastSlot aToB ts start) then
      stepTarget limit aToB (lastIndex aToB ts start)
    else limit
  | none => limit

/-- A price at the edge of the last of the tick arrays that start at the given indices. -/
def EndsAtEdge (aToB : Bool) (ts : ℕ) (starts : List ℤ) (p : ℕ) : Prop :=
  ∃ start, starts.getLast? = some start ∧
    p = tickPrice (if aToB then start else start + tickArraySize * ts - 1)

/-! ## Searches and the last array -/

namespace SwapTickSequence

variable {ts : ℕ} {aToB : Bool} {idx t : ℤ} {k : ℕ} {sequence : SwapTickSequence}
  {array last : TickArray}

/-- The arrays of a search follow one another without a gap.

**Proof sketch.** Induction on the number of the array. The walk says that the next array starts one
length further. -/
lemma SearchWalk.exists_starts (h : SearchWalk sequence ts aToB idx k t)
    (hdvd : ∀ a ∈ sequence, ((tickArraySize * ts : ℕ) : ℤ) ∣ a.startTickIndex) :
    ∃ x : ℤ, (∃ first, sequence[0]? = some first ∧
        first.startTickIndex = (tickArraySize * ts : ℕ) * x) ∧
      ∀ j ≤ k, ∃ array, sequence[j]? = some array ∧ array.startTickIndex =
        (tickArraySize * ts : ℕ) * (if aToB then x - j else x + j) := by
  obtain ⟨first, hfirst, -⟩ := h.starts
  obtain ⟨x, hx⟩ := hdvd first (List.mem_of_getElem? hfirst)
  refine ⟨x, ⟨first, hfirst, hx⟩, fun j => ?_⟩
  induction j with
  | zero =>
    intro _
    exact ⟨first, hfirst, by simp [hx]⟩
  | succ j ih =>
    intro hj
    obtain ⟨a, ha, hstart⟩ := ih (by omega)
    obtain ⟨a', b, ha', hb, hnext⟩ := h.adjacent j (by omega)
    rw [ha, Option.some.injEq] at ha'
    subst ha'
    refine ⟨b, hb, ?_⟩
    rw [hnext, nextStart, hstart]
    push_cast
    split_ifs <;> ring

/-- Arrays of a sequence with one start index have one place in it. -/
lemma index_unique (hnodup : (sequence.map TickArray.startTickIndex).Nodup) {i j : ℕ}
    {a b : TickArray} (ha : sequence[i]? = some a) (hb : sequence[j]? = some b)
    (h : a.startTickIndex = b.startTickIndex) : i = j := by
  have hlt : i < (sequence.map TickArray.startTickIndex).length := by
    rw [List.length_map]
    exact (List.getElem?_eq_some_iff.1 ha).1
  refine (List.getElem?_inj hlt hnodup).1 ?_
  rw [List.getElem?_map, List.getElem?_map, ha, hb, Option.map_some, Option.map_some, h]

/-- The last array has the last place. -/
lemma getElem?_last (h : sequence.getLast? = some last) :
    sequence[sequence.length - 1]? = some last := by
  rwa [List.getLast?_eq_getElem?] at h

/-- **A search does not go beyond the last array**, if this is ahead.

**Proof sketch.** The arrays that a search walks through have no gaps, so they include every array
that starts between the start index and the end of the search. If the search ended beyond the last
array, this one would be among them, and the search would have ended in it. -/
lemma SearchWalk.le_last (h : SearchWalk sequence ts aToB idx k t) (hts : ts ≠ 0)
    (hdvd : ∀ a ∈ sequence, ((tickArraySize * ts : ℕ) : ℤ) ∣ a.startTickIndex)
    (hnodup : (sequence.map TickArray.startTickIndex).Nodup) (hlast : sequence.getLast? = some last)
    (hahead : Ahead aToB idx (lastSlot aToB ts last.startTickIndex)) :
    if aToB then last.startTickIndex ≤ t else t < last.startTickIndex + tickArraySize * ts := by
  obtain ⟨x, ⟨first, hfirst, hx⟩, hstarts⟩ := h.exists_starts hdvd
  obtain ⟨first', hfirst', hrange⟩ := h.starts
  rw [hfirst, Option.some.injEq] at hfirst'
  subst hfirst'
  rw [TickArray.inSearchRange_iff] at hrange
  obtain ⟨y, hy⟩ := hdvd last (List.mem_of_getLast? hlast)
  obtain ⟨array, harray, hlo, hhi, hends⟩ := h.ends
  obtain ⟨array', harray', hstart⟩ := hstarts k le_rfl
  rw [harray, Option.some.injEq] at harray'
  subst harray'
  have hk : k < sequence.length := (List.getElem?_eq_some_iff.1 harray).1
  have hpos : (0 : ℤ) < ts := by exact_mod_cast Nat.pos_of_ne_zero hts
  have hle : (ts : ℤ) ≤ (tickArraySize * ts : ℕ) := by
    have : (tickArraySize : ℤ) = 88 := rfl
    rw [Nat.cast_mul, this]
    omega
  -- the last array is one of those that the search walks through
  have hplace : ∀ j ≤ k, (if aToB then x - j else x + j) = y → j = sequence.length - 1 := by
    intro j hj hxy
    obtain ⟨a, ha, hastart⟩ := hstarts j hj
    rw [hxy, ← hy] at hastart
    exact index_unique hnodup ha (getElem?_last hlast) hastart
  by_contra hcon
  unfold Ahead lastSlot at hahead
  rw [← Nat.cast_mul] at hcon hhi hrange hahead
  generalize ((tickArraySize * ts : ℕ) : ℤ) = len at *
  cases aToB with
  | true =>
    simp only [if_true, Bool.not_true, Bool.false_eq_true, if_false, sub_zero] at *
    have h1 : len * y < len * (x + 1) := by
      rw [mul_add]
      omega
    have h2 : len * (x - k - 1) < len * y := by
      rw [mul_sub]
      omega
    have h3 := lt_of_mul_lt_mul_left h1 (by omega)
    have h4 := lt_of_mul_lt_mul_left h2 (by omega)
    have hj := hplace (x - y).toNat (by omega) (by omega)
    -- so it is the array in which the search ends
    have hsame : last.startTickIndex = array.startTickIndex := by
      have hlast' := getElem?_last hlast
      rw [← show k = sequence.length - 1 by omega, harray, Option.some.injEq] at hlast'
      rw [hlast']
    rw [hsame] at hcon
    rcases hends with hinit | ⟨-, ⟨rfl, hbound⟩ | ⟨-, rfl, -⟩⟩
    · by_cases hh : array.Holds ts t
      · exact hcon hh.1
      · rw [TickArray.tickAt_of_not_holds hh] at hinit
        cases hinit
    · exact hcon (not_lt.1 hbound)
    · exact hcon le_rfl
  | false =>
    simp only [if_true, Bool.not_false, Bool.false_eq_true, if_false] at *
    have h1 : len * x < len * (y + 1) := by
      rw [mul_add]
      omega
    have h2 : len * y < len * (x + k) := by
      rw [hstart] at hhi
      omega
    have h3 := lt_of_mul_lt_mul_left h1 (by omega)
    have h4 := lt_of_mul_lt_mul_left h2 (by omega)
    have hj := hplace (y - x).toNat (by omega) (by omega)
    omega

/-- A search that ends at the edge of an array started before the last slot of this array.

**Proof sketch.** By the direction. To the left the edge is the start of the array, which the walk
has ahead of it; to the right the arrays up to this one start after the first one, which has the
start index. -/
lemma SearchWalk.ahead_of_edge (h : SearchWalk sequence ts aToB idx k t)
    (hdvd : ∀ a ∈ sequence, ((tickArraySize * ts : ℕ) : ℤ) ∣ a.startTickIndex)
    (harray : sequence[k]? = some array) (hedge : t = edge aToB ts array) :
    Ahead aToB idx (lastSlot aToB ts array.startTickIndex) := by
  have hahead := h.ahead
  obtain ⟨x, ⟨first, hfirst, hx⟩, hstarts⟩ := h.exists_starts hdvd
  obtain ⟨first', hfirst', hrange⟩ := h.starts
  rw [hfirst, Option.some.injEq] at hfirst'
  subst hfirst'
  rw [TickArray.inSearchRange_iff] at hrange
  obtain ⟨array', harray', hstart⟩ := hstarts k le_rfl
  rw [harray, Option.some.injEq] at harray'
  subst harray'
  unfold Ahead lastSlot
  unfold edge at hedge
  cases aToB with
  | true =>
    simp only [if_true] at hedge hahead ⊢
    omega
  | false =>
    simp only [Bool.not_false, Bool.false_eq_true, if_false, if_true] at hrange hstart ⊢
    have hnonneg : (0 : ℤ) ≤ (tickArraySize * ts : ℕ) * k := by positivity
    rw [mul_add, ← hx] at hstart
    omega

/-- A search that ends in the last slot of the last array has walked to this array.

**Proof sketch.** Both arrays hold the index, so they start at the same multiple of the length, and
a sequence has no two arrays with one start. -/
lemma index_of_lastSlot (hts : ts ≠ 0)
    (hdvd : ∀ a ∈ sequence, ((tickArraySize * ts : ℕ) : ℤ) ∣ a.startTickIndex)
    (hnodup : (sequence.map TickArray.startTickIndex).Nodup) (hlast : sequence.getLast? = some last)
    (harray : sequence[k]? = some array) (hh : array.Holds ts t)
    (ht : t = lastSlot aToB ts last.startTickIndex) : k + 1 = sequence.length ∧ array = last := by
  have hpos : (0 : ℤ) < ts := by exact_mod_cast Nat.pos_of_ne_zero hts
  have hsize : (tickArraySize : ℤ) = 88 := rfl
  have hlt : k < sequence.length := (List.getElem?_eq_some_iff.1 harray).1
  have hin : last.startTickIndex ≤ t ∧ t < last.startTickIndex + tickArraySize * ts := by
    rw [ht, lastSlot, hsize]
    cases aToB
    · simp only [Bool.false_eq_true, if_false]
      omega
    · simp only [if_true]
      omega
  have hsame : array.startTickIndex = last.startTickIndex := by
    rw [← TickMap.arrayStart_eq hts (hdvd array (List.mem_of_getElem? harray)) hh.1 hh.2.1,
      ← TickMap.arrayStart_eq hts (hdvd last (List.mem_of_getLast? hlast)) hin.1 hin.2]
  have hk := index_unique hnodup harray (getElem?_last hlast) hsame
  subst hk
  rw [getElem?_last hlast, Option.some.injEq] at harray
  exact ⟨by omega, harray.symm⟩

end SwapTickSequence

open SwapTickSequence

/-! ## The price at which a swap must stop -/

section StopPrice

variable {limit ts p : ℕ} {aToB : Bool} {starts : List ℤ} {c : ℤ}

/-- A swap must not stop later than at its price limit. -/
lemma stopPrice_toward : Toward aToB (stopPrice limit aToB ts starts c) limit := by
  unfold stopPrice stepTarget
  split
  · split_ifs with hahead hdir
    · subst hdir
      exact toward_true.2 (le_max_left _ _)
    · obtain rfl : aToB = false := by simpa using hdir
      exact toward_false.2 (min_le_left _ _)
    · exact toward_refl _ _
  · exact toward_refl _ _

/-- A price before the price limit and the end of the last array is one before the stop. -/
lemma toward_stopPrice (hlimit : Toward aToB p limit)
    (hlast : ∀ start, starts.getLast? = some start → Ahead aToB c (lastSlot aToB ts start) →
      Toward aToB p (tickPrice (lastIndex aToB ts start))) :
    Toward aToB p (stopPrice limit aToB ts starts c) := by
  unfold stopPrice
  split
  · next start hstart =>
    split_ifs with hahead
    · have h := hlast start hstart hahead
      unfold stepTarget
      cases aToB with
      | true => exact toward_true.2 (max_le hlimit h)
      | false => exact toward_false.2 (le_min hlimit h)
    · exact hlimit
  · exact hlimit

/-- The price of a pool is before the stop.

**Proof sketch.** The last index of the arrays, clamped to the tick range, is ahead of the tick
index, and prices of ticks are monotone. -/
lemma PriceAt.toward_stopPrice (h : PriceAt c p) (hts : ts ≠ 0) (hlimit : Toward aToB p limit) :
    Toward aToB p (stopPrice limit aToB ts starts c) := by
  have hpos : (0 : ℤ) < ts := by exact_mod_cast Nat.pos_of_ne_zero hts
  have hsize : (tickArraySize : ℤ) = 88 := rfl
  have hmin := h.tick_min
  have hmax := h.tick_max
  refine NemoSwap.toward_stopPrice hlimit fun start _ hahead => ?_
  unfold Ahead lastSlot at hahead
  unfold lastIndex
  unfold minTickIndex maxTickIndex at *
  rw [hsize] at *
  cases aToB with
  | true =>
    simp only [if_true] at hahead ⊢
    rw [toward_true]
    rcases le_total start (-443636) with hle | hle
    · rw [max_eq_left hle, tickPrice_min]
      exact h.min_le
    · rw [max_eq_right hle]
      exact (tickPrice_le (by omega) hahead (by omega)).trans h.lower
  | false =>
    simp only [Bool.false_eq_true, if_false] at hahead ⊢
    rw [toward_false]
    rcases le_total 443636 (start + 88 * ts - 1) with hle | hle
    · rw [min_eq_left hle, tickPrice_max]
      exact h.le_max
    · rw [min_eq_right hle]
      exact h.upper.trans (tickPrice_le (by omega) (by omega) (by omega))

end StopPrice

/-! ## The targets of iterations -/

section Iteration

variable {w : Whirlpool} {infos : Fin numRewards → WhirlpoolRewardInfo} {base : TickMap}
  {limit amount j : ℕ} {input aToB : Bool} {s s' : SwapState} {n : ℤ}

/-- The arrays of the loop start at multiples of their length. -/
lemma SwapState.WellFormed.dvd_start (hs : s.WellFormed w base limit amount aToB) :
    ∀ a ∈ s.swapTickSequence, ((tickArraySize * w.tickSpacing : ℕ) : ℤ) ∣ a.startTickIndex :=
  fun a ha => (hs.wellPlaced _ _ ((TickMap.loads_store hs.nodup).mem a ha)).2

/-- The search of an iteration as a walk through the arrays from the current one on. -/
lemma SwapState.WellFormed.exists_walk (hb : SwapBounds w limit amount)
    (hs : s.WellFormed w base limit amount aToB) (hne : limit ≠ s.currSqrtPrice)
    (h : s.swapTickSequence.getNextInitializedTickIndex s.currTickIndex w.tickSpacing aToB
      s.currArrayIndex = .ok (j, n)) :
    ∃ k, j = s.currArrayIndex + k ∧ SearchWalk (s.swapTickSequence.drop s.currArrayIndex)
      w.tickSpacing aToB s.currTickIndex k n := by
  have hstart := hs.price.searchStart hb.min_le hb.le_max hs.toward hne
  have hfrom : SearchFrom aToB s.currTickIndex := by
    unfold TickMap.SearchStart at hstart
    unfold SearchFrom
    cases aToB
    · exact hstart.2
    · exact hstart.1
  exact searchArrays_walk s.currArrayIndex s.currTickIndex
    (fun a ha => hs.dvd_start a (List.mem_of_mem_drop ha)) hfrom h

/-- The last array of those from the current one on is the last array. -/
lemma getLast?_drop_of_walk {i k : ℕ} {ts : ℕ} {idx : ℤ} {sequence : SwapTickSequence}
    (h : SearchWalk (sequence.drop i) ts aToB idx k n) :
    (sequence.drop i).getLast? = sequence.getLast? := by
  obtain ⟨first, hfirst, -⟩ := h.starts
  rw [List.getLast?_drop, if_neg]
  rw [List.getElem?_drop] at hfirst
  have := (List.getElem?_eq_some_iff.1 hfirst).1
  omega

/-- **An iteration does not go beyond the price at which the swap must stop.**

**Proof sketch.** The target is not beyond the price limit, and not beyond the price of the index
that was found, which `le_last` places before the end of the last array. -/
lemma SwapState.WellFormed.target_toward_stop (hb : SwapBounds w limit amount)
    (hs : s.WellFormed w base limit amount aToB) (hne : limit ≠ s.currSqrtPrice)
    (h : s.swapTickSequence.getNextInitializedTickIndex s.currTickIndex w.tickSpacing aToB
      s.currArrayIndex = .ok (j, n)) :
    Toward aToB (stepTarget limit aToB n) (stopPrice limit aToB w.tickSpacing
      (s.swapTickSequence.map TickArray.startTickIndex) s.currTickIndex) := by
  have hres := (hs.search hb hne h).1
  obtain ⟨-, htow, htown⟩ := stepTarget_toward hs.price hres hs.toward
  obtain ⟨k, -, hwalk⟩ := hs.exists_walk hb hne h
  have hts := spacing_ne_zero h
  refine toward_stopPrice htow fun start hstart hahead => htown.trans ?_
  rw [List.getLast?_map, Option.map_eq_some_iff] at hstart
  obtain ⟨last, hlast, rfl⟩ := hstart
  rw [← getLast?_drop_of_walk hwalk] at hlast
  have hle := hwalk.le_last hts (fun a ha => hs.dvd_start a (List.mem_of_mem_drop ha))
    (by rw [List.map_drop]; exact hs.nodup.sublist (List.drop_sublist _ _)) hlast hahead
  have h1 := hres.lower
  have h2 := hres.upper
  unfold lastIndex
  unfold minTickIndex maxTickIndex at *
  cases aToB with
  | true =>
    simp only [if_true] at hle ⊢
    exact toward_true.2 (tickPrice_le (by omega) (max_le h1 hle) (by omega))
  | false =>
    simp only [Bool.false_eq_true, if_false] at hle ⊢
    exact toward_false.2 (tickPrice_le (by omega) (le_min h2 (by omega)) (by omega))

/-- The bound of the tick range is not before the price limit. -/
lemma stepTarget_tickBound (hmin : minSqrtPriceX64 ≤ limit) (hmax : limit ≤ maxSqrtPriceX64) :
    stepTarget limit aToB (tickBound aToB) = limit := by
  unfold stepTarget tickBound
  cases aToB with
  | true => exact max_eq_left (tickPrice_min.le.trans hmin)
  | false => exact min_eq_left (hmax.trans tickPrice_max.ge)

/-- A swap must stop at its price limit, or at the edge of its last tick array.

**Proof sketch.** By whether there is a last array ahead. If its end lies outside of the tick range,
the price of its last index is at a bound of the range, so the limit is nearer. -/
lemma stopPrice_cases {ts : ℕ} {starts : List ℤ} {c : ℤ} (hmin : minSqrtPriceX64 ≤ limit)
    (hmax : limit ≤ maxSqrtPriceX64) : stopPrice limit aToB ts starts c = limit ∨
      EndsAtEdge aToB ts starts (stopPrice limit aToB ts starts c) := by
  unfold stopPrice
  split
  swap
  · exact Or.inl rfl
  next start hstart =>
  split_ifs with hahead
  swap
  · exact Or.inl rfl
  -- an array that reaches beyond the tick range ends at its bound, and so beyond the limit
  have hclip : lastIndex aToB ts start = tickBound aToB ∨ lastIndex aToB ts start =
      if aToB then start else start + tickArraySize * ts - 1 := by
    unfold lastIndex tickBound
    cases aToB
    · exact min_choice _ _
    · exact max_choice _ _
  rcases hclip with hbound | hindex
  · rw [hbound]
    exact Or.inl (stepTarget_tickBound hmin hmax)
  · refine (stepTarget_choice limit aToB (lastIndex aToB ts start)).imp_right fun hedge => ?_
    exact ⟨start, hstart, by rw [hedge, hindex]⟩

/-- A search that ends at a tick that is not initialized ends at the bound of the tick range, or
at the edge of the last array.

**Proof sketch.** By `searchArrays_found`. A search that ends in a slot ends at an initialized tick,
so it has ended at a bound or behind the last array. -/
lemma SwapState.WellFormed.search_edge (hs : s.WellFormed w base limit amount aToB)
    (h : s.swapTickSequence.getNextInitializedTickIndex s.currTickIndex w.tickSpacing aToB
      s.currArrayIndex = .ok (j, n))
    (hinit : (s.ticks base w.tickSpacing n).initialized = false) :
    n = tickBound aToB ∨ ∃ array, s.swapTickSequence[j]? = some array ∧
      j + 1 = s.swapTickSequence.length ∧ n = edge aToB w.tickSpacing array := by
  have hts : w.tickSpacing ≠ 0 := spacing_ne_zero h
  unfold getNextInitializedTickIndex at h
  refine (searchArrays_found _ _ h).imp id ?_
  rintro ⟨-, k, rfl, array, hk, hfound⟩
  rw [List.getElem?_drop] at hk
  rcases hfound with ⟨o, ho, rfl⟩ | ⟨hlast, hedge⟩
  · exfalso
    have hload : (base.store s.swapTickSequence).Loads s.swapTickSequence :=
      TickMap.loads_store hs.nodup
    have hmem := hload.mem array (List.mem_of_getElem? hk)
    have hh : array.Holds w.tickSpacing (array.startTickIndex + (o : ℕ) * w.tickSpacing) :=
      (TickArray.holds_iff hts).2 ⟨o, o.2, rfl⟩
    unfold SwapState.ticks at hinit
    rw [TickMap.tick_eq_tickAt hs.wellPlaced hts hmem hh,
      TickArray.tickAt_eq_slot hts o.2 rfl, TickArray.slot, dif_pos o.2] at hinit
    rw [hinit] at ho
    cases ho
  · rw [List.length_drop] at hlast
    exact ⟨array, hk, by omega, hedge⟩

/-- **An iteration that does not go to an initialized tick goes to the price at which the swap must
stop**: to the price limit, or to the edge of the last array.

**Proof sketch.** The target is the price limit, or the price of the index that the search has
returned. Without an initialized tick this index is a bound of the tick range or the edge of the
last array, and the price of either is the stop if it is before the limit. -/
lemma SwapState.WellFormed.target_eq_stop (hb : SwapBounds w limit amount)
    (hs : s.WellFormed w base limit amount aToB) (hne : limit ≠ s.currSqrtPrice)
    (h : s.swapTickSequence.getNextInitializedTickIndex s.currTickIndex w.tickSpacing aToB
      s.currArrayIndex = .ok (j, n))
    (hstop : stepTarget limit aToB n = limit ∨
      (s.ticks base w.tickSpacing n).initialized = false) :
    stepTarget limit aToB n = stopPrice limit aToB w.tickSpacing
      (s.swapTickSequence.map TickArray.startTickIndex) s.currTickIndex := by
  have htoward := hs.target_toward_stop hb hne h
  have hlimit : stepTarget limit aToB n = limit → stepTarget limit aToB n = stopPrice limit aToB
      w.tickSpacing (s.swapTickSequence.map TickArray.startTickIndex) s.currTickIndex := fun he =>
    htoward.antisymm ((congrArg (Toward aToB _) he).mpr stopPrice_toward)
  rcases hstop with he | hinit
  · exact hlimit he
  rcases hs.search_edge h hinit with rfl | ⟨array, harray, hlast, hedge⟩
  · exact hlimit (stepTarget_tickBound hb.min_le hb.le_max)
  · have hres := (hs.search hb hne h).1
    obtain ⟨k, rfl, hwalk⟩ := hs.exists_walk hb hne h
    have hahead := hwalk.ahead_of_edge (fun a ha => hs.dvd_start a (List.mem_of_mem_drop ha))
      (by rwa [List.getElem?_drop]) hedge
    have hget : (s.swapTickSequence.map TickArray.startTickIndex).getLast? =
        some array.startTickIndex := by
      rw [List.getLast?_map, List.getLast?_eq_getElem?, ← hlast, Nat.add_sub_cancel, harray,
        Option.map_some]
    have hindex : lastIndex aToB w.tickSpacing array.startTickIndex = n := by
      have h1 := hres.lower
      have h2 := hres.upper
      unfold edge at hedge
      unfold lastIndex
      cases aToB with
      | true =>
        simp only [if_true] at hedge ⊢
        exact hedge ▸ max_eq_right h1
      | false =>
        simp only [Bool.false_eq_true, if_false] at hedge ⊢
        exact hedge ▸ min_eq_right h2
    unfold stopPrice
    rw [hget]
    dsimp only
    rw [if_pos hahead, hindex]

/-- **A swap that goes on after a tick must still stop at the same price.** If the tick is the last
one of the last array the next search fails.

**Proof sketch.** The arrays keep their starts, so the stops differ only if the new tick index is
past the last slot and the old one was not. The tick that was reached is then that slot, which is
past the last array for the next search. -/
lemma Lands.stopPrice_eq {s'' : SwapState} (hb : SwapBounds w limit amount)
    (hs : s.WellFormed w base limit amount aToB) (hne : limit ≠ s.currSqrtPrice)
    (h : Lands w aToB j n s s') (hinit : (s.ticks base w.tickSpacing n).initialized = true)
    (hnext : swapStep w infos limit input aToB s' = .ok s'') :
    stopPrice limit aToB w.tickSpacing (s'.swapTickSequence.map TickArray.startTickIndex)
        s'.currTickIndex =
      stopPrice limit aToB w.tickSpacing (s.swapTickSequence.map TickArray.startTickIndex)
        s.currTickIndex := by
  have hstarts := congrArg (List.map Prod.fst) h.flags
  rw [List.map_map, List.map_map] at hstarts
  change s'.swapTickSequence.map TickArray.startTickIndex =
    s.swapTickSequence.map TickArray.startTickIndex at hstarts
  rw [hstarts, h.tick]
  unfold stopPrice
  split
  swap
  · rfl
  next start hstart =>
  rw [List.getLast?_map, Option.map_eq_some_iff] at hstart
  obtain ⟨last, hlast, rfl⟩ := hstart
  have hts := spacing_ne_zero h.search
  have hpos : (0 : ℤ) < w.tickSpacing := by exact_mod_cast Nat.pos_of_ne_zero hts
  have hsize : (tickArraySize : ℤ) = 88 := rfl
  obtain ⟨hres, hfound⟩ := hs.search hb hne h.search
  obtain ⟨array, harray, hh⟩ := hfound hinit
  obtain ⟨k, rfl, hwalk⟩ := hs.exists_walk hb hne h.search
  have hahead : Ahead aToB s.currTickIndex n := by
    have := hwalk.ahead
    unfold Ahead
    cases aToB <;> exact this
  refine if_congr ⟨hahead.crossed.1 _, fun hslot => ?_⟩ rfl rfl
  have hdvd : ∀ a ∈ s.swapTickSequence.drop s.currArrayIndex,
      ((tickArraySize * w.tickSpacing : ℕ) : ℤ) ∣ a.startTickIndex :=
    fun a ha => hs.dvd_start a (List.mem_of_mem_drop ha)
  have hle := hwalk.le_last hts hdvd
    (by rw [List.map_drop]; exact hs.nodup.sublist (List.drop_sublist _ _))
    ((getLast?_drop_of_walk hwalk).trans hlast) hslot
  by_contra hcon
  -- the tick is the last slot of the last array
  have hn : n = lastSlot aToB w.tickSpacing last.startTickIndex := by
    have hdn := (hs.usable n hinit).2.2
    have hdl : (w.tickSpacing : ℤ) ∣ last.startTickIndex :=
      (Dvd.intro_left _ (by push_cast; rfl)).trans (hs.dvd_start last (List.mem_of_getLast? hlast))
    unfold Ahead crossedIndex at hcon
    unfold lastSlot at hcon ⊢
    cases aToB with
    | true =>
      simp only [if_true] at hcon hle ⊢
      omega
    | false =>
      simp only [Bool.false_eq_true, if_false] at hcon hle ⊢
      have hd : (w.tickSpacing : ℤ) ∣
          n - (last.startTickIndex + tickArraySize * w.tickSpacing - w.tickSpacing) :=
        dvd_sub hdn (dvd_sub (dvd_add hdl (Dvd.intro_left _ rfl)) (dvd_refl _))
      have := Int.eq_zero_of_dvd_of_nonneg_of_lt (by omega) (by omega) hd
      omega
  obtain ⟨hend, rfl⟩ := index_of_lastSlot hts hs.dvd_start hs.nodup hlast harray hh hn
  refine swapStep_pastEnd (h.pastEnd harray hend ?_) hnext
  rw [TickArray.getOffset_eq _ _ hts, hn, lastSlot]
  cases aToB with
  | true => simp
  | false =>
    simp only [Bool.false_eq_true, if_false]
    rw [Int.ediv_eq_iff_of_pos hpos, hsize]
    constructor <;> linarith

end Iteration

end NemoSwap
