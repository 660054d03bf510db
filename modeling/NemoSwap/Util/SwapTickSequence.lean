import NemoSwap.State.Tick

set_option relaxedAutoImplicit false
set_option autoImplicit false

/-!
# `swap_tick_sequence.rs`: the tick arrays of a swap

A swap is given up to three tick arrays and walks through them in order.

## Main definitions

* `NemoSwap.SwapTickSequence` — the arrays.
* `NemoSwap.SwapTickSequence.getNextInitializedTickIndex` — the search across arrays.
* `NemoSwap.SwapTickSequence.SearchWalk` — what a search has seen when it ends.

## Main results

* `NemoSwap.SwapTickSequence.searchArrays_walk` — a search walks through adjacent arrays and skips
  no initialized tick.
* `NemoSwap.SwapTickSequence.getNextInitializedTickIndex_eq_ok` — the search of the source, for
  arrays that the program can have created.
-/

namespace NemoSwap

/-- `SwapTickSequence`. -/
abbrev SwapTickSequence : Type := List TickArray

namespace SwapTickSequence

/-- `get_tick`. -/
def getTick (self : SwapTickSequence) (arrayIndex : ℕ) (tickIndex : ℤ) (tickSpacing : ℕ) :
    Res Tick :=
  match self[arrayIndex]? with
  | some array => array.getTick tickIndex tickSpacing
  | none => err .TickArrayIndexOutofBounds

/-- `update_tick`. -/
def updateTick (self : SwapTickSequence) (arrayIndex : ℕ) (tickIndex : ℤ) (tickSpacing : ℕ)
    (update : TickUpdate) : Res SwapTickSequence :=
  match self[arrayIndex]? with
  | some array => do
    let array ← array.updateTick tickIndex tickSpacing update
    return self.set arrayIndex array
  | none => err .TickArrayIndexOutofBounds

/-- `get_tick_offset`. -/
def getTickOffset (self : SwapTickSequence) (arrayIndex : ℕ) (tickIndex : ℤ) (tickSpacing : ℕ) :
    Res ℤ :=
  match self[arrayIndex]? with
  | some array => array.tickOffset tickIndex tickSpacing
  | none => err .TickArrayIndexOutofBounds

/-- The loop of `get_next_initialized_tick_index`, over the arrays from `arrayIndex` on. -/
def searchArrays (tickSpacing : ℕ) (aToB : Bool) :
    List TickArray → ℕ → ℤ → Res (ℕ × ℤ)
  | [], _, _ => err .TickArraySequenceInvalidIndex
  | nextArray :: rest, arrayIndex, searchIndex => do
    let ticksInArray : ℤ := tickArraySize * tickSpacing
    let nextIndex ← nextArray.getNextInitTickIndex searchIndex tickSpacing aToB
    match nextIndex with
    | some nextIndex => return (arrayIndex, nextIndex)
    | none =>
      -- at the last valid tick array the search ends at the bound of the tick range
      if aToB && nextArray.isMinTickArray then return (arrayIndex, minTickIndex)
      else if !aToB && nextArray.isMaxTickArray tickSpacing then return (arrayIndex, maxTickIndex)
      else if rest = [] then
        if aToB then return (arrayIndex, nextArray.startTickIndex)
        else return (arrayIndex, nextArray.startTickIndex + ticksInArray - 1)
      else
        searchArrays tickSpacing aToB rest (arrayIndex + 1)
          (if aToB then nextArray.startTickIndex - 1
            else nextArray.startTickIndex + ticksInArray - 1)

/-- `get_next_initialized_tick_index`. -/
def getNextInitializedTickIndex (self : SwapTickSequence) (tickIndex : ℤ) (tickSpacing : ℕ)
    (aToB : Bool) (startArrayIndex : ℕ) : Res (ℕ × ℤ) :=
  searchArrays tickSpacing aToB (self.drop startArrayIndex) startArrayIndex tickIndex

/-! ## What a search finds -/

/-- The ticks that a search from `idx` has passed when it ends at `t`: the start index itself is
searched to the left, and is not to the right. -/
def Passed (aToB : Bool) (idx t u : ℤ) : Prop :=
  if aToB then t < u ∧ u ≤ idx else idx < u ∧ u < t

/-- The bound of the tick range in the direction of a search. -/
def tickBound (aToB : Bool) : ℤ := if aToB then minTickIndex else maxTickIndex

/-- The indices that a search can start from. -/
def SearchFrom (aToB : Bool) (idx : ℤ) : Prop :=
  if aToB then minTickIndex ≤ idx else idx < maxTickIndex

/-- The last index of an array in the direction of a search. -/
def edge (aToB : Bool) (ts : ℕ) (array : TickArray) : ℤ :=
  if aToB then array.startTickIndex else array.startTickIndex + tickArraySize * ts - 1

/-- The start of the array that is next in the direction of a search. -/
def nextStart (aToB : Bool) (ts : ℕ) (array : TickArray) : ℤ :=
  if aToB then array.startTickIndex - tickArraySize * ts
  else array.startTickIndex + tickArraySize * ts

/-- The array is not the last one of the tick range in the direction of a search. -/
def Inner (aToB : Bool) (ts : ℕ) (array : TickArray) : Prop :=
  if aToB then minTickIndex < array.startTickIndex
  else array.startTickIndex + tickArraySize * ts ≤ maxTickIndex

/-- What a search from `idx` has seen when it ends at the tick `t` of the array `k`. -/
structure SearchWalk (sequence : SwapTickSequence) (ts : ℕ) (aToB : Bool) (idx : ℤ) (k : ℕ)
    (t : ℤ) : Prop where
  /-- The first array is the one that decides about the start index. -/
  starts : ∃ array, sequence[0]? = some array ∧ array.inSearchRange idx ts (!aToB) = true
  /-- Every array is the neighbour of the one before. -/
  adjacent : ∀ j < k, ∃ a b, sequence[j]? = some a ∧ sequence[j + 1]? = some b ∧
    b.startTickIndex = nextStart aToB ts a
  ahead : if aToB then t ≤ idx else idx < t
  /-- No passed tick is initialized. -/
  skipped : ∀ u, (ts : ℤ) ∣ u → Passed aToB idx t u → ∃ j ≤ k, ∃ array,
    sequence[j]? = some array ∧ array.Holds ts u ∧ (array.tickAt ts u).initialized = false
  /-- The search ends at an initialized tick, at a bound, or at the edge of the last array. -/
  ends : ∃ array, sequence[k]? = some array ∧ array.startTickIndex - ts < t ∧
    t < array.startTickIndex + tickArraySize * ts ∧
    ((array.tickAt ts t).initialized = true ∨ (array.tickAt ts t).initialized = false ∧
      (t = tickBound aToB ∧ ¬Inner aToB ts array ∨
        k + 1 = sequence.length ∧ t = edge aToB ts array ∧ Inner aToB ts array))

variable {ts : ℕ} {aToB : Bool}

/-- Multiples of the spacing in the search range of an array are its ticks. -/
lemma holds_of_dvd {array : TickArray} {u : ℤ} (hts : ts ≠ 0)
    (hd : ((tickArraySize * ts : ℕ) : ℤ) ∣ array.startTickIndex) (hu : (ts : ℤ) ∣ u)
    (hlo : array.startTickIndex - ts < u)
    (hhi : u < array.startTickIndex + tickArraySize * ts) : array.Holds ts u := by
  have hpos : (0 : ℤ) < ts := by exact_mod_cast Nat.pos_of_ne_zero hts
  have hd' : (ts : ℤ) ∣ array.startTickIndex :=
    (Dvd.intro_left _ (by push_cast; rfl)).trans hd
  have hdu := Dvd.dvd.sub hu hd'
  refine ⟨?_, hhi, hdu⟩
  obtain ⟨k, hk⟩ := hdu
  by_contra hcon
  have hk1 : (ts : ℤ) * (-1) < ts * k := by omega
  have hk2 : (ts : ℤ) * k < ts * 0 := by omega
  have := lt_of_mul_lt_mul_left hk1 hpos.le
  have := lt_of_mul_lt_mul_left hk2 hpos.le
  omega

/-- The array that holds the index at which the search goes on is the neighbour.

**Proof sketch.** Both starts are multiples of the length of an array. The search range of the
second array contains an index just outside the first, so the two multiples differ by exactly one
length. -/
lemma startTickIndex_eq_nextStart {a b : TickArray} (hts : ts ≠ 0)
    (ha : ((tickArraySize * ts : ℕ) : ℤ) ∣ a.startTickIndex)
    (hb : ((tickArraySize * ts : ℕ) : ℤ) ∣ b.startTickIndex)
    (h : b.inSearchRange (if aToB then a.startTickIndex - 1
      else a.startTickIndex + tickArraySize * ts - 1) ts (!aToB) = true) :
    b.startTickIndex = nextStart aToB ts a := by
  have hpos : (0 : ℤ) < ts := by exact_mod_cast Nat.pos_of_ne_zero hts
  have hlen : (0 : ℤ) < tickArraySize * ts := by positivity
  have hle : (ts : ℤ) ≤ tickArraySize * ts := by
    have : (tickArraySize : ℤ) = 88 := rfl
    rw [this]
    omega
  rw [TickArray.inSearchRange_iff] at h
  obtain ⟨x, hx⟩ := ha
  obtain ⟨y, hy⟩ := hb
  rw [Nat.cast_mul] at hx hy
  unfold nextStart
  obtain ⟨len, hl⟩ : ∃ len : ℤ, (tickArraySize : ℤ) * ts = len := ⟨_, rfl⟩
  simp only [hl] at hx hy h hlen hle ⊢
  rw [hx, hy] at h ⊢
  cases aToB with
  | true =>
    simp only [Bool.not_true, Bool.false_eq_true, if_false, if_true, sub_zero] at h ⊢
    have h1 : len * y < len * x := by omega
    have h2 : len * x < len * (y + 2) := by
      rw [mul_add]
      omega
    have h3 := lt_of_mul_lt_mul_left h1 hlen.le
    have h4 := lt_of_mul_lt_mul_left h2 hlen.le
    obtain rfl : x = y + 1 := by omega
    ring
  | false =>
    simp only [Bool.not_false, Bool.false_eq_true, if_false, if_true] at h ⊢
    have h1 : len * y < len * (x + 2) := by
      rw [mul_add]
      omega
    have h2 : len * x < len * y := by omega
    have h3 := lt_of_mul_lt_mul_left h1 hlen.le
    have h4 := lt_of_mul_lt_mul_left h2 hlen.le
    obtain rfl : y = x + 1 := by omega
    ring

/-- A search that ends in its first array, whose ticks ahead of the start index up to the end are
not initialized.

**Proof sketch.** No array precedes the first one, so only its own ticks count. By the direction,
none of those between the start index and the end is initialized. -/
lemma searchWalk_stop {array : TickArray} {rest : List TickArray} {idx t : ℤ} (hts : ts ≠ 0)
    (hd : ((tickArraySize * ts : ℕ) : ℤ) ∣ array.startTickIndex)
    (hrange : array.inSearchRange idx ts (!aToB) = true) (ht : if aToB then t ≤ idx else idx < t)
    (hlo : array.startTickIndex - ts < t) (hhi : t < array.startTickIndex + tickArraySize * ts)
    (hdark : ∀ u, Passed aToB idx t u → (array.tickAt ts u).initialized = false)
    (hend : (array.tickAt ts t).initialized = true ∨ (array.tickAt ts t).initialized = false ∧
      (t = tickBound aToB ∧ ¬Inner aToB ts array ∨
        rest = [] ∧ t = edge aToB ts array ∧ Inner aToB ts array)) :
    SearchWalk (array :: rest) ts aToB idx 0 t := by
  refine ⟨⟨array, rfl, hrange⟩, fun _ hj => absurd hj (Nat.not_lt_zero _), ht, fun u hu hp =>
    ⟨0, le_rfl, array, rfl, ?_, hdark u hp⟩, array, rfl, hlo, hhi, ?_⟩
  · rw [TickArray.inSearchRange_iff] at hrange
    cases aToB with
    | true =>
      obtain ⟨hp1, hp2⟩ : t < u ∧ u ≤ idx := hp
      simp only [Bool.not_true, Bool.false_eq_true, if_false, sub_zero] at hrange
      exact holds_of_dvd hts hd hu (by omega) (by omega)
    | false =>
      obtain ⟨hp1, hp2⟩ : idx < u ∧ u < t := hp
      simp only [Bool.not_false, if_true] at hrange
      exact holds_of_dvd hts hd hu (by omega) (by omega)
  · refine hend.imp id fun h => ⟨h.1, h.2.imp id fun h => ⟨?_, h.2⟩⟩
    rw [h.1]
    rfl

/-- A search that goes on in the next array.

**Proof sketch.** The walk of the rest is shifted by one array. An index that it passes lies in the
first array, where the search has found nothing, or beyond it, where the walk of the rest speaks of
it. -/
theorem SearchWalk.cons {array : TickArray} {rest : List TickArray} {idx t : ℤ} {k : ℕ}
    (hts : ts ≠ 0)
    (hdvd : ∀ a ∈ array :: rest, ((tickArraySize * ts : ℕ) : ℤ) ∣ a.startTickIndex)
    (hrange : array.inSearchRange idx ts (!aToB) = true)
    (hdark : ∀ u, (if aToB then u ≤ idx else idx < u) → (array.tickAt ts u).initialized = false)
    (h : SearchWalk rest ts aToB (if aToB then array.startTickIndex - 1
      else array.startTickIndex + tickArraySize * ts - 1) k t) :
    SearchWalk (array :: rest) ts aToB idx (k + 1) t := by
  obtain ⟨⟨b, hb, hbrange⟩, hadj, hahead, hskip, a, hk, hends⟩ := h
  have hnext := startTickIndex_eq_nextStart hts (hdvd array List.mem_cons_self)
    (hdvd b (List.mem_cons_of_mem _ (List.mem_of_getElem? hb))) hbrange
  have hr := TickArray.inSearchRange_iff.1 hrange
  have hd := hdvd array List.mem_cons_self
  have hpos : (0 : ℤ) < ts := by exact_mod_cast Nat.pos_of_ne_zero hts
  have hhere : ∀ u, (ts : ℤ) ∣ u → array.startTickIndex - ts < u →
      u < array.startTickIndex + tickArraySize * ts → (if aToB then u ≤ idx else idx < u) →
      ∃ j ≤ k + 1, ∃ a, (array :: rest)[j]? = some a ∧ a.Holds ts u ∧
        (a.tickAt ts u).initialized = false := fun u hu h1 h2 h3 =>
    ⟨0, Nat.zero_le _, array, rfl, holds_of_dvd hts hd hu h1 h2, hdark u h3⟩
  have hthere : ∀ u, (ts : ℤ) ∣ u → Passed aToB (if aToB then array.startTickIndex - 1
      else array.startTickIndex + tickArraySize * ts - 1) t u →
      ∃ j ≤ k + 1, ∃ a, (array :: rest)[j]? = some a ∧ a.Holds ts u ∧
        (a.tickAt ts u).initialized = false := fun u hu hp => by
    obtain ⟨j, hj, a, ha⟩ := hskip u hu hp
    exact ⟨j + 1, by omega, a, by simpa using ha⟩
  refine ⟨⟨array, rfl, hrange⟩, fun j hj => ?_, ?_, fun u hu hp => ?_, a, by simpa using hk,
    hends.1, hends.2.1, hends.2.2.imp id fun h => ⟨h.1, h.2.imp id fun h => ⟨?_, h.2⟩⟩⟩
  · cases j with
    | zero => exact ⟨array, b, rfl, by simpa using hb, hnext⟩
    | succ j =>
      obtain ⟨a, b, ha, hb, he⟩ := hadj j (by omega)
      exact ⟨a, b, by simpa using ha, by simpa using hb, he⟩
  · cases aToB with
    | true =>
      simp only [Bool.not_true, Bool.false_eq_true, if_false, if_true, sub_zero] at hr hahead ⊢
      omega
    | false =>
      simp only [Bool.not_false, Bool.false_eq_true, if_false, if_true] at hr hahead ⊢
      omega
  · cases aToB with
    | true =>
      obtain ⟨hp1, hp2⟩ : t < u ∧ u ≤ idx := hp
      simp only [Bool.not_true, Bool.false_eq_true, if_false, sub_zero, if_true] at hr hhere hthere
      rcases lt_or_ge u array.startTickIndex with hlt | hge
      · exact hthere u hu ⟨hp1, by omega⟩
      · exact hhere u hu (by omega) (by omega) hp2
    | false =>
      obtain ⟨hp1, hp2⟩ : idx < u ∧ u < t := hp
      simp only [Bool.not_false, if_true, Bool.false_eq_true, if_false] at hr hhere hthere
      rcases lt_or_ge u (array.startTickIndex + tickArraySize * ts) with hlt | hge
      · exact hhere u hu (by omega) hlt hp1
      · exact hthere u hu ⟨by omega, hp2⟩
  · rw [List.length_cons, h.1]

/-- **The search across arrays** walks through adjacent arrays and skips no initialized tick.

**Proof sketch.** Induction on the arrays. If the search in the first one finds a tick, the walk
ends there; if it reaches a bound of the tick range or the last array, it ends at the edge;
otherwise the rest is walked from the next array on. -/
theorem searchArrays_walk {aToB : Bool} {j : ℕ} {t : ℤ} :
    ∀ {sequence : SwapTickSequence} (i : ℕ) (idx : ℤ),
    (∀ array ∈ sequence, ((tickArraySize * ts : ℕ) : ℤ) ∣ array.startTickIndex) →
    SearchFrom aToB idx → searchArrays ts aToB sequence i idx = .ok (j, t) →
    ∃ k, j = i + k ∧ SearchWalk sequence ts aToB idx k t
  | [], _, _, _, _, h => by simp [searchArrays] at h
  | array :: rest, i, idx, hdvd, hfrom, h => by
    have hd := hdvd array List.mem_cons_self
    rw [searchArrays, Res.bind_eq_ok] at h
    obtain ⟨r, hr, h⟩ := h
    obtain ⟨hts, hrange, hsome, hnone⟩ := TickArray.getNextInitTickIndex_eq_ok hr
    have hr' := TickArray.inSearchRange_iff.1 hrange
    have hpos : (0 : ℤ) < ts := by exact_mod_cast Nat.pos_of_ne_zero hts
    cases r with
    | some m =>
      simp only at h
      rw [Res.pure_eq_ok, Except.ok.injEq, Prod.mk.injEq] at h
      obtain ⟨rfl, rfl⟩ := h
      obtain ⟨hh, hinit, hnear⟩ := hsome m rfl
      refine ⟨0, rfl, searchWalk_stop hts hd hrange ?_ (by linarith [hh.1]) hh.2.1 ?_
        (Or.inl hinit)⟩
      · cases aToB
        · exact hnear.1
        · exact hnear.1
      · intro u hp
        cases aToB
        · exact hnear.2 u hp.1 hp.2
        · exact hnear.2 u hp.1 hp.2
    | none =>
      have hno := hnone rfl
      have hdark : ∀ u, (if aToB then u ≤ idx else idx < u) →
          (array.tickAt ts u).initialized = false := fun u hu => by
        cases aToB
        · exact hno u hu
        · exact hno u hu
      cases aToB with
      | true =>
        simp only [Bool.not_true, Bool.false_eq_true, if_false, sub_zero, if_true, Bool.true_and,
          Bool.false_and, TickArray.isMinTickArray, decide_eq_true_eq] at h hr' hdark
        have hfrom' : minTickIndex ≤ idx := hfrom
        by_cases hmin : array.startTickIndex ≤ minTickIndex
        · rw [if_pos hmin, Res.pure_eq_ok, Except.ok.injEq, Prod.mk.injEq] at h
          obtain ⟨rfl, rfl⟩ := h
          exact ⟨0, rfl, searchWalk_stop hts hd hrange hfrom' (by omega) (by omega)
            (fun u hp => hdark u hp.2)
              (Or.inr ⟨hdark _ hfrom', Or.inl ⟨rfl, not_lt.2 hmin⟩⟩)⟩
        · rw [if_neg hmin] at h
          by_cases hrest : rest = []
          · rw [if_pos hrest, Res.pure_eq_ok, Except.ok.injEq, Prod.mk.injEq] at h
            obtain ⟨rfl, rfl⟩ := h
            exact ⟨0, rfl, searchWalk_stop hts hd hrange hr'.1 (by omega) (by omega)
              (fun u hp => hdark u hp.2)
                (Or.inr ⟨hdark _ hr'.1, Or.inr ⟨hrest, rfl, not_le.1 hmin⟩⟩)⟩
          · rw [if_neg hrest] at h
            obtain ⟨k, rfl, hwalk⟩ := searchArrays_walk (i + 1) _
              (fun a ha => hdvd a (List.mem_cons_of_mem _ ha))
              (show minTickIndex ≤ _ by omega) h
            exact ⟨k + 1, by omega, hwalk.cons hts hdvd hrange hdark⟩
      | false =>
        simp only [Bool.not_false, if_true, Bool.false_eq_true, if_false, Bool.true_and,
          Bool.false_and, TickArray.isMaxTickArray, decide_eq_true_eq] at h hr' hdark
        have hfrom' : idx < maxTickIndex := hfrom
        by_cases hmax : array.startTickIndex + tickArraySize * ts > maxTickIndex
        · rw [if_pos hmax, Res.pure_eq_ok, Except.ok.injEq, Prod.mk.injEq] at h
          obtain ⟨rfl, rfl⟩ := h
          exact ⟨0, rfl, searchWalk_stop hts hd hrange hfrom' (by omega) (by omega)
            (fun u hp => hdark u hp.1)
              (Or.inr ⟨hdark _ hfrom', Or.inl ⟨rfl, not_le.2 hmax⟩⟩)⟩
        · rw [if_neg hmax] at h
          by_cases hrest : rest = []
          · rw [if_pos hrest, Res.pure_eq_ok, Except.ok.injEq, Prod.mk.injEq] at h
            obtain ⟨rfl, rfl⟩ := h
            have hlt : idx < array.startTickIndex + tickArraySize * ts - 1 := by omega
            exact ⟨0, rfl, searchWalk_stop hts hd hrange hlt (by omega) (by omega)
              (fun u hp => hdark u hp.1)
                (Or.inr ⟨hdark _ hlt, Or.inr ⟨hrest, rfl, not_lt.1 hmax⟩⟩)⟩
          · rw [if_neg hrest] at h
            obtain ⟨k, rfl, hwalk⟩ := searchArrays_walk (i + 1) _
              (fun a ha => hdvd a (List.mem_cons_of_mem _ ha))
              (show _ < maxTickIndex by omega) h
            exact ⟨k + 1, by omega, hwalk.cons hts hdvd hrange hdark⟩

/-- A search that succeeds has divided by the spacing. -/
theorem spacing_ne_zero {sequence : SwapTickSequence} {idx t : ℤ} {i k : ℕ}
    (h : sequence.getNextInitializedTickIndex idx ts aToB i = .ok (k, t)) : ts ≠ 0 := by
  unfold getNextInitializedTickIndex at h
  cases hd : sequence.drop i with
  | nil =>
    rw [hd] at h
    simp [searchArrays] at h
  | cons array rest =>
    rw [hd, searchArrays, Res.bind_eq_ok] at h
    obtain ⟨r, hr, -⟩ := h
    exact (TickArray.getNextInitTickIndex_eq_ok hr).1

/-! ## Arrays that the program creates -/

/-- The arrays have been initialized, and their ticks by positions of the pool. -/
structure Valid (sequence : SwapTickSequence) (ts : ℕ) : Prop where
  starts : ∀ array ∈ sequence, Tick.checkIsValidStartTick array.startTickIndex ts = .ok true
  usable : ∀ array ∈ sequence, ∀ i : Fin tickArraySize, (array.ticks i).initialized = true →
    UsableTick ts (array.startTickIndex + (i : ℕ) * ts)

/-- A valid array starts in the tick range or reaches into it.

**Proof sketch.** A start within the bounds needs nothing. One outside them is accepted only if it
is the least multiple of the length that reaches the least tick. -/
theorem validStart_bounds {s : ℤ} (h : Tick.checkIsValidStartTick s ts = .ok true) :
    s ≤ maxTickIndex ∧ minTickIndex < s + tickArraySize * ts := by
  obtain ⟨hts, -⟩ := Tick.checkIsValidStartTick_dvd h
  have hpos : (0 : ℤ) < ts := by exact_mod_cast Nat.pos_of_ne_zero hts
  have hsize : (tickArraySize : ℤ) = 88 := rfl
  unfold Tick.checkIsValidStartTick at h
  simp only [] at h
  rw [hsize] at h ⊢
  rcases hout : Tick.checkIsOutOfBounds s with _ | _
  · obtain ⟨h1, h2⟩ := Tick.checkIsOutOfBounds_eq_false.1 hout
    exact ⟨h2, by omega⟩
  · rw [hout, if_pos rfl] at h
    split_ifs at h with hmin
    · cases h
    · -- the array at the minimum starts below it, and the minimum is inside of it
      simp only [Res.bind_eq_ok, remI32_eq_ok, Res.pure_eq_ok, Except.ok.injEq,
        decide_eq_true_eq] at h
      obtain ⟨r, ⟨-, rfl⟩, rfl⟩ := h
      have hneg : minTickIndex.tmod (88 * ts) = -(443636 : ℤ).tmod (88 * ts) :=
        Int.neg_tmod 443636 _
      have hnn : 0 ≤ (443636 : ℤ).tmod (88 * ts) := Int.tmod_nonneg _ (by norm_num)
      have hne : (443636 : ℤ).tmod (88 * ts) ≠ 0 := fun h0 => by
        have hdvd : (88 : ℤ) ∣ 443636 :=
          (Dvd.intro _ rfl).trans (Int.dvd_of_tmod_eq_zero h0)
        revert hdvd
        decide
      unfold minTickIndex maxTickIndex at *
      omega

/-- **The tick search never skips an initialized tick.**

**Proof sketch.** The search in the arrays from the current one on is a walk. What remains is the
clamp to the tick range, which moves an edge only, and the shift of the places by the arrays that
were left behind. -/
theorem getNextInitializedTickIndex_eq_ok {sequence : SwapTickSequence} {idx t : ℤ} {i k : ℕ}
    (hvalid : sequence.Valid ts) (hfrom : SearchFrom aToB idx)
    (h : sequence.getNextInitializedTickIndex idx ts aToB i = .ok (k, t)) :
    (minTickIndex ≤ t ∧ t ≤ maxTickIndex) ∧ (if aToB then t ≤ idx else idx < t) ∧
      (∀ u, UsableTick ts u → Passed aToB idx t u → ∃ j, i ≤ j ∧ j ≤ k ∧ ∃ array,
        sequence[j]? = some array ∧ array.Holds ts u ∧ (array.tickAt ts u).initialized = false) ∧
      (∃ array, sequence[k]? = some array ∧
        ((array.Holds ts t ∧ (array.tickAt ts t).initialized = true) ∨ t = tickBound aToB ∨
          k + 1 = sequence.length ∧ t = edge aToB ts array)) ∧
      (∃ array, sequence[i]? = some array ∧ array.inSearchRange idx ts (!aToB) = true) ∧
      ∀ j, i ≤ j → j < k → ∃ a b, sequence[j]? = some a ∧ sequence[j + 1]? = some b ∧
        b.startTickIndex = nextStart aToB ts a := by
  have hdvd : ∀ a ∈ sequence.drop i, ((tickArraySize * ts : ℕ) : ℤ) ∣ a.startTickIndex :=
    fun a ha => (Tick.checkIsValidStartTick_dvd (hvalid.starts a (List.mem_of_mem_drop ha))).2
  obtain ⟨m, rfl, hstarts, hadj, hahead, hskip, array, hm, hlo, hhi, hends⟩ :=
    searchArrays_walk i idx hdvd hfrom h
  have hget : ∀ j, (sequence.drop i)[j]? = sequence[i + j]? := fun j => List.getElem?_drop
  rw [hget] at hm
  have hmem := List.mem_of_getElem? hm
  have hts := (Tick.checkIsValidStartTick_dvd (hvalid.starts array hmem)).1
  obtain ⟨hb1, hb2⟩ := validStart_bounds (hvalid.starts array hmem)
  have hheld : (array.tickAt ts t).initialized = true → array.Holds ts t := fun hinit => by
    by_contra hno
    rw [TickArray.tickAt_of_not_holds hno] at hinit
    cases hinit
  refine ⟨?_, hahead, fun u hu hp => ?_, ⟨array, hm, ?_⟩, ?_, fun j hj hjk => ?_⟩
  · rcases hends with hinit | ⟨-, ⟨rfl, -⟩ | ⟨-, rfl, hinner⟩⟩
    · obtain ⟨o, ho, rfl⟩ := (TickArray.holds_iff hts).1 (hheld hinit)
      rw [TickArray.tickAt_eq_slot hts ho rfl, TickArray.slot, dif_pos ho] at hinit
      obtain ⟨h1, h2, -⟩ := hvalid.usable array hmem ⟨o, ho⟩ hinit
      exact ⟨h1, h2⟩
    · cases aToB <;> decide
    · have hpos : (0 : ℤ) < ts := by exact_mod_cast Nat.pos_of_ne_zero hts
      cases aToB with
      | true =>
        have hinner' : minTickIndex < array.startTickIndex := hinner
        exact ⟨hinner'.le, hb1⟩
      | false =>
        have hinner' : array.startTickIndex + tickArraySize * ts ≤ maxTickIndex := hinner
        simp only [edge, Bool.false_eq_true, if_false]
        omega
  · obtain ⟨j, hj, a, ha, hh⟩ := hskip u hu.2.2 hp
    exact ⟨i + j, by omega, by omega, a, by rwa [← hget], hh⟩
  · rcases hends with hinit | ⟨-, ⟨hb, -⟩ | ⟨hlen, he, -⟩⟩
    · exact Or.inl ⟨hheld hinit, hinit⟩
    · exact Or.inr (Or.inl hb)
    · refine Or.inr (Or.inr ⟨?_, he⟩)
      rw [List.length_drop] at hlen
      omega
  · obtain ⟨a, ha, hr⟩ := hstarts
    exact ⟨a, by rwa [hget] at ha, hr⟩
  · obtain ⟨a, b, ha, hb, he⟩ := hadj (j - i) (by omega)
    rw [hget, show i + (j - i) = j by omega] at ha
    rw [hget, show i + (j - i + 1) = j + 1 by omega] at hb
    exact ⟨a, b, ha, hb, he⟩

/-- Three neighbouring arrays of spacing 64 for trades to the left. The only initialized tick is
`-128`, in the second array: it is the lower end of a position. -/
def sampleArrays : SwapTickSequence :=
  [TickArray.default,
    ⟨-5632, Function.update TickArray.default.ticks 86
      { Tick.default with initialized := true, liquidityNet := 10 ^ 9, liquidityGross := 10 ^ 9 }⟩,
    ⟨-11264, TickArray.default.ticks⟩]

/-- Only the tick in slot 86 of the array that starts at `-5632` is initialized. -/
lemma sampleArrays_initialized : ∀ array ∈ sampleArrays, ∀ i : Fin tickArraySize,
    (array.ticks i).initialized = true → array.startTickIndex = -5632 ∧ i = 86 := by
  decide +kernel

/-- The sample arrays are neighbours at valid starts. -/
theorem sampleArrays_valid : Valid sampleArrays 64 := by
  refine ⟨by decide +kernel, fun array harray i hi => ?_⟩
  obtain ⟨hstart, rfl⟩ := sampleArrays_initialized array harray i hi
  rw [hstart]
  decide

/-- The search from the tick 100 leaves the first array, and finds the tick `-128` in the second
one. All ticks it has passed on its way, in both arrays, are not initialized. -/
theorem getNextInitializedTickIndex_eq_ok_sample :
    getNextInitializedTickIndex sampleArrays 100 64 true 0 = .ok (1, -128) ∧
      (∀ u, UsableTick 64 u → -128 < u → u ≤ 100 → ∃ j ≤ 1, ∃ array,
        sampleArrays[j]? = some array ∧ array.Holds 64 u ∧
          (array.tickAt 64 u).initialized = false) ∧
      (∃ array, sampleArrays[1]? = some array ∧ array.Holds 64 (-128) ∧
        (array.tickAt 64 (-128)).initialized = true) ∧
      ∃ a b, sampleArrays[0]? = some a ∧ sampleArrays[1]? = some b ∧
        b.startTickIndex = nextStart true 64 a := by
  have hok : getNextInitializedTickIndex sampleArrays 100 64 true 0 = .ok (1, -128) := by
    decide +kernel
  have hfrom : SearchFrom true 100 := (by decide : minTickIndex ≤ 100)
  obtain ⟨-, -, hpassed, ⟨array, harray, hend⟩, -, hadjacent⟩ :=
    getNextInitializedTickIndex_eq_ok sampleArrays_valid hfrom hok
  refine ⟨hok, fun u hu h1 h2 => ?_, ⟨array, harray, ?_⟩, hadjacent 0 le_rfl Nat.zero_lt_one⟩
  · obtain ⟨j, -, hj, array, hget, hheld⟩ := hpassed u hu ⟨h1, h2⟩
    exact ⟨j, hj, array, hget, hheld⟩
  · -- the search ends neither at the bound of the tick range nor in the last array
    rcases hend with hinit | hbound | ⟨hlast, -⟩
    · exact hinit
    · exact absurd hbound (by decide)
    · exact absurd hlast (by decide)

end SwapTickSequence

end NemoSwap
