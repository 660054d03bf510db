import NemoSwap.Util.SwapTickSequence

set_option relaxedAutoImplicit false
set_option autoImplicit false

/-!
# The ticks of a pool, whatever array they are in

A pool's ticks are spread over arrays that are stored by start index. Here the arrays are read as
one map from indices to ticks, and the search of a swap, which walks through its arrays, becomes
a search in that map.

## Main definitions

* `NemoSwap.TickMap` — arrays by start index; `NemoSwap.TickMap.tick` reads a tick.
* `NemoSwap.TickMap.WellPlaced` — every array is stored under its start index, a multiple of the
  length of an array.
* `NemoSwap.TickMap.Loads` — the arrays of a swap are those of the map.
* `NemoSwap.TickMap.store` — write the arrays of a swap back.

## Main results

* `NemoSwap.TickMap.getNextInitializedTickIndex_spec` — between the current index and the result of a
  search no tick is initialized.
* `NemoSwap.TickMap.store_updateTick` — updating a tick of the sequence updates that tick of the
  map only.
-/

namespace NemoSwap

/-- The tick arrays of a pool by start index. -/
abbrev TickMap : Type := ℤ → Option TickArray

namespace TickMap

/-- The start index of the array that holds an index. -/
def arrayStart (tickSpacing : ℕ) (t : ℤ) : ℤ :=
  t / (tickArraySize * tickSpacing : ℤ) * (tickArraySize * tickSpacing)

/-- The tick at an index; it is the default tick where no array holds the index. -/
def tick (arrays : TickMap) (tickSpacing : ℕ) (t : ℤ) : Tick :=
  match arrays (arrayStart tickSpacing t) with
  | some array => array.tickAt tickSpacing t
  | none => Tick.default

/-- Every array is stored under its start index, a multiple of the length of an array. -/
def WellPlaced (arrays : TickMap) (tickSpacing : ℕ) : Prop :=
  ∀ s array, arrays s = some array →
    array.startTickIndex = s ∧ ((tickArraySize * tickSpacing : ℕ) : ℤ) ∣ s

/-- The arrays of a sequence are distinct arrays of the map. -/
structure Loads (arrays : TickMap) (sequence : SwapTickSequence) : Prop where
  mem : ∀ array ∈ sequence, arrays array.startTickIndex = some array
  nodup : (sequence.map TickArray.startTickIndex).Nodup

/-- Write the arrays of a sequence back. -/
def store (arrays : TickMap) (sequence : SwapTickSequence) : TickMap :=
  sequence.foldl (fun arrays array => Function.update arrays array.startTickIndex (some array))
    arrays

variable {arrays : TickMap} {sequence : SwapTickSequence} {ts : ℕ}

/-! ## Reading a tick -/

/-- The start of the array of an index is the multiple of the array length below it. -/
theorem arrayStart_eq {s t : ℤ} (hts : ts ≠ 0) (hs : ((tickArraySize * ts : ℕ) : ℤ) ∣ s)
    (hlo : s ≤ t) (hhi : t < s + tickArraySize * ts) : arrayStart ts t = s := by
  have hpos : (0 : ℤ) < tickArraySize * ts := by
    have : (0 : ℤ) < ts := by exact_mod_cast Nat.pos_of_ne_zero hts
    positivity
  obtain ⟨k, rfl⟩ := hs
  unfold arrayStart
  rw [Nat.cast_mul] at hlo hhi ⊢
  have hk : t / (tickArraySize * ts : ℤ) = k := by
    rw [Int.ediv_eq_iff_of_pos hpos]
    constructor <;> linarith
  rw [hk, mul_comm]

/-- An array of the map that holds an index has its tick. -/
lemma tick_eq_tickAt (hwp : arrays.WellPlaced ts) (hts : ts ≠ 0) {array : TickArray} {t : ℤ}
    (ha : arrays array.startTickIndex = some array) (hh : array.Holds ts t) :
    arrays.tick ts t = array.tickAt ts t := by
  have hstart := arrayStart_eq hts (hwp _ _ ha).2 hh.1 hh.2.1
  unfold tick
  rw [hstart, ha]

/-- Only multiples of the spacing hold ticks. -/
lemma tick_of_not_dvd (hwp : arrays.WellPlaced ts) {t : ℤ} (h : ¬(ts : ℤ) ∣ t) :
    arrays.tick ts t = Tick.default := by
  unfold tick
  split
  · next array ha =>
    refine TickArray.tickAt_of_not_holds fun hh => h ?_
    obtain ⟨hs, hd⟩ := hwp _ _ ha
    have hd' : (ts : ℤ) ∣ array.startTickIndex :=
      hs ▸ (Dvd.intro_left _ (by push_cast; rfl)).trans hd
    have := dvd_add hh.2.2 hd'
    rwa [sub_add_cancel] at this
  · rfl

/-- A well-placed array starts at a multiple of the spacing. -/
lemma WellPlaced.dvd_start (hwp : arrays.WellPlaced ts) {array : TickArray} {s : ℤ}
    (ha : arrays s = some array) : (ts : ℤ) ∣ array.startTickIndex := by
  obtain ⟨rfl, hd⟩ := hwp _ _ ha
  exact (Dvd.intro_left _ (by push_cast; rfl)).trans hd

/-- An array may be stored at its own start. -/
theorem WellPlaced.update (hwp : arrays.WellPlaced ts) {array : TickArray}
    (hd : ((tickArraySize * ts : ℕ) : ℤ) ∣ array.startTickIndex) :
    WellPlaced (Function.update arrays array.startTickIndex (some array)) ts := by
  intro s a ha
  rcases eq_or_ne s array.startTickIndex with rfl | hne
  · rw [Function.update_self, Option.some.injEq] at ha
    exact ⟨by rw [ha], hd⟩
  · rw [Function.update_of_ne hne] at ha
    exact hwp s a ha

/-- Replacing an array changes only the ticks it holds.

**Proof sketch.** By whether the array holds the tick. If not, the tick is read from another array,
which is not replaced, or the replaced array does not hold it either. -/
lemma tick_update (hwp : arrays.WellPlaced ts) (hts : ts ≠ 0) {array array' : TickArray}
    (ha : arrays array.startTickIndex = some array)
    (hs : array'.startTickIndex = array.startTickIndex) (t : ℤ) :
    tick (Function.update arrays array.startTickIndex (some array')) ts t =
      if array.Holds ts t then array'.tickAt ts t else arrays.tick ts t := by
  have hd := (hwp _ _ ha).2
  by_cases hh : array.Holds ts t
  · rw [if_pos hh]
    unfold tick
    rw [arrayStart_eq hts hd hh.1 hh.2.1, Function.update_self]
  · rw [if_neg hh]
    unfold tick
    rcases eq_or_ne (arrayStart ts t) array.startTickIndex with he | hne
    · have hh' : ¬array'.Holds ts t := by
        unfold TickArray.Holds at hh ⊢
        rwa [hs]
      rw [he, Function.update_self, ha]
      simp only
      rw [TickArray.tickAt_of_not_holds hh, TickArray.tickAt_of_not_holds hh']
    · rw [Function.update_of_ne hne]

/-- A new array has default ticks, and so had the map where it is placed. -/
theorem tick_update_new {array : TickArray}
    (ha : arrays array.startTickIndex = none) (hnew : ∀ t, array.tickAt ts t = Tick.default)
    (t : ℤ) : tick (Function.update arrays array.startTickIndex (some array)) ts t =
      arrays.tick ts t := by
  unfold tick
  rcases eq_or_ne (arrayStart ts t) array.startTickIndex with he | hne
  · rw [he, Function.update_self, ha]
    exact hnew t
  · rw [Function.update_of_ne hne]

/-! ## Writing a sequence back -/

/-- Storing no arrays changes nothing. -/
@[simp] lemma store_nil : arrays.store [] = arrays := rfl

/-- Arrays are stored one after the other. -/
@[simp] lemma store_cons (array : TickArray) :
    arrays.store (array :: sequence) =
      store (Function.update arrays array.startTickIndex (some array)) sequence := rfl

/-- Storing arrays leaves the other ones alone. -/
theorem store_of_notMem {s : ℤ} (h : s ∉ sequence.map TickArray.startTickIndex) :
    arrays.store sequence s = arrays s := by
  induction sequence generalizing arrays with
  | nil => rfl
  | cons array rest ih =>
    rw [List.map_cons, List.mem_cons, not_or] at h
    rw [store_cons, ih h.2, Function.update_of_ne h.1]

/-- An array that is stored can be loaded, if no two of them have the same start. -/
theorem store_of_mem (hnd : (sequence.map TickArray.startTickIndex).Nodup) {array : TickArray}
    (h : array ∈ sequence) : arrays.store sequence array.startTickIndex = some array := by
  induction sequence generalizing arrays with
  | nil => cases h
  | cons first rest ih =>
    rw [List.map_cons, List.nodup_cons] at hnd
    rw [store_cons]
    rcases List.mem_cons.1 h with rfl | h
    · rw [store_of_notMem hnd.1, Function.update_self]
    · exact ih hnd.2 h

/-- What has been stored can be loaded. -/
lemma loads_store (hnd : (sequence.map TickArray.startTickIndex).Nodup) :
    (arrays.store sequence).Loads sequence :=
  ⟨fun _ h => store_of_mem hnd h, hnd⟩

/-- Writing unchanged arrays back changes nothing. -/
theorem Loads.store_eq (h : arrays.Loads sequence) : arrays.store sequence = arrays := by
  funext s
  by_cases hs : s ∈ sequence.map TickArray.startTickIndex
  · obtain ⟨array, ha, rfl⟩ := List.mem_map.1 hs
    rw [store_of_mem h.nodup ha, h.mem array ha]
  · exact store_of_notMem hs

/-- Replacing one array of a sequence replaces it in the map.

**Proof sketch.** The starts stay the same, so the map changes at one start only: there the new
array is stored, and every other start is that of another array or of none. -/
lemma store_set (arrays : TickMap) (hnd : (sequence.map TickArray.startTickIndex).Nodup) {i : ℕ}
    {array array' : TickArray} (hi : sequence[i]? = some array)
    (hs : array'.startTickIndex = array.startTickIndex) :
    ((sequence.set i array').map TickArray.startTickIndex =
        sequence.map TickArray.startTickIndex) ∧
      arrays.store (sequence.set i array') =
        Function.update (arrays.store sequence) array.startTickIndex (some array') := by
  have hmap : (sequence.set i array').map TickArray.startTickIndex =
      sequence.map TickArray.startTickIndex := by
    obtain ⟨hlt, rfl⟩ := List.getElem?_eq_some_iff.1 hi
    have hlt' : i < (sequence.map TickArray.startTickIndex).length := by simpa using hlt
    have he : sequence[i].startTickIndex = (sequence.map TickArray.startTickIndex)[i] := by simp
    rw [List.map_set, hs, he, List.set_getElem_self]
  refine ⟨hmap, funext fun s => ?_⟩
  have hnd' : ((sequence.set i array').map TickArray.startTickIndex).Nodup := hmap ▸ hnd
  obtain ⟨hlt, -⟩ := List.getElem?_eq_some_iff.1 hi
  rcases eq_or_ne s array.startTickIndex with rfl | hne
  · have hmem : array' ∈ sequence.set i array' := List.mem_set hlt array'
    rw [Function.update_self, ← hs, store_of_mem hnd' hmem]
  · rw [Function.update_of_ne hne]
    by_cases hsm : s ∈ sequence.map TickArray.startTickIndex
    · obtain ⟨other, ho, rfl⟩ := List.mem_map.1 hsm
      obtain ⟨j, hj⟩ := List.mem_iff_getElem?.1 ho
      have hij : i ≠ j := by
        rintro rfl
        exact hne (by rw [Option.some.inj (hj.symm.trans hi)])
      have ho' : other ∈ sequence.set i array' :=
        List.mem_iff_getElem?.2 ⟨j, by rw [List.getElem?_set_ne hij, hj]⟩
      rw [store_of_mem hnd' ho', store_of_mem hnd ho]
    · rw [store_of_notMem (hmap ▸ hsm), store_of_notMem hsm]

/-! ## Searching -/

/-- What a search from `idx` guarantees about its result `n`: it lies ahead in the direction of
the trade, and no tick before it is initialized. The start index itself is searched to the left,
and is not to the right. -/
structure SearchResult (ticks : ℤ → Tick) (aToB : Bool) (idx n : ℤ) : Prop where
  lower : minTickIndex ≤ n
  upper : n ≤ maxTickIndex
  left : aToB = true → n ≤ idx ∧ ∀ u, n < u → u ≤ idx → (ticks u).initialized = false
  right : aToB = false → idx < n ∧ ∀ u, idx < u → u < n → (ticks u).initialized = false

/-- The indices that a search may start from. -/
def SearchStart (aToB : Bool) (idx : ℤ) : Prop :=
  if aToB then minTickIndex ≤ idx ∧ idx ≤ maxTickIndex
  else minTickIndex - 1 ≤ idx ∧ idx < maxTickIndex

/-- In the search range of an array, the map has no initialized tick that the array has not.

**Proof sketch.** An index that is not a multiple of the spacing is in no slot. Any other index of
the range is held by the array, which is the one that the map reads. -/
lemma tick_initialized_eq_false (hwp : arrays.WellPlaced ts) (hts : ts ≠ 0) {array : TickArray}
    (ha : arrays array.startTickIndex = some array) {u : ℤ} (hlo : array.startTickIndex - ts < u)
    (hhi : u < array.startTickIndex + tickArraySize * ts)
    (h : (array.tickAt ts u).initialized = false) : (arrays.tick ts u).initialized = false := by
  by_cases hd : (ts : ℤ) ∣ u
  · have hstart := hwp.dvd_start ha
    have hle : array.startTickIndex ≤ u := by
      obtain ⟨k, hk⟩ := Dvd.dvd.sub hd hstart
      by_contra hcon
      have hpos : (0 : ℤ) < ts := by exact_mod_cast Nat.pos_of_ne_zero hts
      have hk1 : (ts : ℤ) * (-1) < ts * k := by omega
      have hk2 : (ts : ℤ) * k < ts * 0 := by omega
      have := lt_of_mul_lt_mul_left hk1 hpos.le
      have := lt_of_mul_lt_mul_left hk2 hpos.le
      omega
    rw [tick_eq_tickAt hwp hts ha ⟨hle, hhi, Dvd.dvd.sub hd hstart⟩]
    exact h
  · rw [tick_of_not_dvd hwp hd]
    rfl

/-- **The search across arrays.**

**Proof sketch.** Induction on the arrays, as the code recurses. The indices in the search range of
an array lie in it or one spacing before it, and their ticks are the ones of the map, so the search
in the array speaks of the map; where it finds nothing, the indices up to the next array are
passed. -/
theorem searchArrays_spec (hwp : arrays.WellPlaced ts)
    (hus : ∀ t, (arrays.tick ts t).initialized = true → minTickIndex ≤ t ∧ t ≤ maxTickIndex)
    {aToB : Bool} {j : ℕ} {n : ℤ} :
    ∀ {sequence : SwapTickSequence} (i : ℕ) (idx : ℤ),
      (∀ array ∈ sequence, arrays array.startTickIndex = some array) → SearchStart aToB idx →
      SwapTickSequence.searchArrays ts aToB sequence i idx = .ok (j, n) →
      SearchResult (arrays.tick ts) aToB idx n ∧ ((arrays.tick ts n).initialized = true →
        ∃ k array, j = i + k ∧ sequence[k]? = some array ∧ array.Holds ts n)
  | [], _, _, _, _, h => by simp [SwapTickSequence.searchArrays] at h
  | array :: rest, i, idx, hmem, hstart, h => by
    have ha := hmem array List.mem_cons_self
    rw [SwapTickSequence.searchArrays, Res.bind_eq_ok] at h
    obtain ⟨r, hr, h⟩ := h
    obtain ⟨hts, hrange, hsome, hnone⟩ := TickArray.getNextInitTickIndex_eq_ok hr
    rw [TickArray.inSearchRange_iff] at hrange
    have hpos : (0 : ℤ) < ts := by exact_mod_cast Nat.pos_of_ne_zero hts
    have hdark := fun u => tick_initialized_eq_false (u := u) hwp hts ha
    cases r with
    | some m =>
      simp only at h
      rw [Res.pure_eq_ok, Except.ok.injEq, Prod.mk.injEq] at h
      obtain ⟨rfl, rfl⟩ := h
      obtain ⟨hh, hinit, hnear⟩ := hsome m rfl
      have hT : (arrays.tick ts m).initialized = true := by
        rw [tick_eq_tickAt hwp hts ha hh]
        exact hinit
      obtain ⟨h1, h2⟩ := hus m hT
      refine ⟨⟨h1, h2, ?_, ?_⟩, fun _ => ⟨0, array, rfl, rfl, hh⟩⟩
      · rintro rfl
        simp only [Bool.not_true, Bool.false_eq_true, if_false, sub_zero, if_true] at hrange hnear
        exact ⟨hnear.1, fun u hu1 hu2 => hdark u (by linarith [hh.1]) (by linarith)
          (hnear.2 u hu1 hu2)⟩
      · rintro rfl
        simp only [Bool.not_false, if_true, Bool.false_eq_true, if_false] at hrange hnear
        exact ⟨hnear.1, fun u hu1 hu2 => hdark u (by linarith) (by linarith [hh.2.1])
          (hnear.2 u hu1 hu2)⟩
    | none =>
      have hno := hnone rfl
      have hrec : ∀ a ∈ rest, arrays a.startTickIndex = some a := fun a h =>
        hmem a (List.mem_cons_of_mem _ h)
      cases aToB with
      | true =>
        simp only [Bool.not_true, Bool.false_eq_true, if_false, sub_zero, if_true] at hrange hno
        simp only [SearchStart, if_true] at hstart
        have hdark' : ∀ u, array.startTickIndex ≤ u → u ≤ idx →
            (arrays.tick ts u).initialized = false := fun u hu1 hu2 =>
          hdark u (by linarith) (by linarith) (hno u hu2)
        simp only [Bool.true_and, Bool.not_true, Bool.false_and, Bool.false_eq_true, if_false,
          if_true, TickArray.isMinTickArray, decide_eq_true_eq] at h
        by_cases hmin : array.startTickIndex ≤ minTickIndex
        · rw [if_pos hmin, Res.pure_eq_ok, Except.ok.injEq, Prod.mk.injEq] at h
          obtain ⟨rfl, rfl⟩ := h
          refine ⟨⟨le_rfl, by decide, fun _ => ⟨hstart.1, fun u hu1 hu2 =>
            hdark' u (by omega) hu2⟩, by simp⟩, fun hT => ?_⟩
          rw [hdark' _ hmin hstart.1] at hT
          cases hT
        · rw [if_neg hmin] at h
          by_cases hrest : rest = []
          · rw [if_pos hrest, Res.pure_eq_ok, Except.ok.injEq, Prod.mk.injEq] at h
            obtain ⟨rfl, rfl⟩ := h
            refine ⟨⟨by omega, by omega, fun _ => ⟨hrange.1, fun u hu1 hu2 =>
              hdark' u hu1.le hu2⟩, by simp⟩, fun hT => ?_⟩
            rw [hdark' _ le_rfl hrange.1] at hT
            cases hT
          · rw [if_neg hrest] at h
            obtain ⟨hres, hfound⟩ := searchArrays_spec hwp hus (i + 1) _ hrec
              (by simp only [SearchStart, if_true]; omega) h
            obtain ⟨hle, hskip⟩ := hres.left rfl
            refine ⟨⟨hres.lower, hres.upper, fun _ => ⟨by omega, fun u hu1 hu2 => ?_⟩, by simp⟩,
              fun hT => ?_⟩
            · rcases lt_or_ge u array.startTickIndex with hu | hu
              · exact hskip u hu1 (by omega)
              · exact hdark' u hu hu2
            · obtain ⟨k, a, rfl, hk, hh⟩ := hfound hT
              exact ⟨k + 1, a, by omega, by simpa using hk, hh⟩
      | false =>
        simp only [Bool.not_false, if_true, Bool.false_eq_true, if_false] at hrange hno
        simp only [SearchStart, Bool.false_eq_true, if_false] at hstart
        have hdark' : ∀ u, idx < u → u < array.startTickIndex + tickArraySize * ts →
            (arrays.tick ts u).initialized = false := fun u hu1 hu2 =>
          hdark u (by linarith) (by linarith) (hno u hu1)
        simp only [Bool.true_and, Bool.not_false, Bool.false_and, Bool.false_eq_true, if_false,
          TickArray.isMaxTickArray, decide_eq_true_eq] at h
        by_cases hmax : array.startTickIndex + tickArraySize * ts > maxTickIndex
        · rw [if_pos hmax, Res.pure_eq_ok, Except.ok.injEq, Prod.mk.injEq] at h
          obtain ⟨rfl, rfl⟩ := h
          refine ⟨⟨by decide, le_rfl, by simp, fun _ => ⟨hstart.2, fun u hu1 hu2 =>
            hdark' u hu1 (by omega)⟩⟩, fun hT => ?_⟩
          rw [hdark' _ hstart.2 hmax] at hT
          cases hT
        · rw [if_neg hmax] at h
          by_cases hrest : rest = []
          · rw [if_pos hrest, Res.pure_eq_ok, Except.ok.injEq, Prod.mk.injEq] at h
            obtain ⟨rfl, rfl⟩ := h
            refine ⟨⟨by omega, by omega, by simp, fun _ => ⟨by omega, fun u hu1 hu2 =>
              hdark' u hu1 (by omega)⟩⟩, fun hT => ?_⟩
            rw [hdark' _ (by omega) (by omega)] at hT
            cases hT
          · rw [if_neg hrest] at h
            obtain ⟨hres, hfound⟩ := searchArrays_spec hwp hus (i + 1) _ hrec
              (by simp only [SearchStart, Bool.false_eq_true, if_false]; omega) h
            obtain ⟨hlt, hskip⟩ := hres.right rfl
            refine ⟨⟨hres.lower, hres.upper, by simp, fun _ => ⟨by omega, fun u hu1 hu2 => ?_⟩⟩,
              fun hT => ?_⟩
            · rcases lt_or_ge u (array.startTickIndex + tickArraySize * ts) with hu | hu
              · exact hdark' u hu1 hu
              · exact hskip u (by omega) hu2
            · obtain ⟨k, a, rfl, hk, hh⟩ := hfound hT
              exact ⟨k + 1, a, by omega, by simpa using hk, hh⟩

/-- **The search of a swap.** -/
theorem getNextInitializedTickIndex_spec (hwp : arrays.WellPlaced ts)
    (hus : ∀ t, (arrays.tick ts t).initialized = true → minTickIndex ≤ t ∧ t ≤ maxTickIndex)
    (hload : arrays.Loads sequence) {aToB : Bool} {i j : ℕ} {idx n : ℤ}
    (hstart : SearchStart aToB idx)
    (h : sequence.getNextInitializedTickIndex idx ts aToB i = .ok (j, n)) :
    SearchResult (arrays.tick ts) aToB idx n ∧ ((arrays.tick ts n).initialized = true →
      ∃ array, sequence[j]? = some array ∧ array.Holds ts n) := by
  obtain ⟨h1, h2⟩ := searchArrays_spec hwp hus i idx
    (fun a ha => hload.mem a (List.mem_of_mem_drop ha)) hstart h
  refine ⟨h1, fun hT => ?_⟩
  obtain ⟨k, array, rfl, hk, hh⟩ := h2 hT
  exact ⟨array, by rwa [List.getElem?_drop] at hk, hh⟩

/-! ## Access through a sequence -/

/-- Reading a tick of the sequence reads that tick of the map. -/
theorem getTick_eq_ok (hwp : arrays.WellPlaced ts) (hload : arrays.Loads sequence) {i : ℕ} {t : ℤ}
    {tick : Tick} (h : sequence.getTick i t ts = .ok tick) : tick = arrays.tick ts t := by
  unfold SwapTickSequence.getTick at h
  split at h
  · next array ha =>
    have hm := hload.mem array (List.mem_iff_getElem?.2 ⟨i, ha⟩)
    obtain ⟨hts, -, hh, rfl⟩ := TickArray.getTick_eq_ok (hwp.dvd_start hm) h
    exact (tick_eq_tickAt hwp hts hm hh).symm
  · simp at h

/-- A usable tick of an array can be read. -/
lemma exists_getTick_eq_ok {i : ℕ} {t : ℤ} {array : TickArray} (hts : ts ≠ 0)
    (hi : sequence[i]? = some array) (hh : array.Holds ts t) (hu : UsableTick ts t) :
    ∃ tick, sequence.getTick i t ts = .ok tick := by
  unfold SwapTickSequence.getTick
  rw [hi]
  exact array.exists_getTick_eq_ok hts hh hu

/-- Updating a tick of an array updates that tick of the map, and no other. -/
theorem updateTick_eq_ok (hwp : arrays.WellPlaced ts) {array array' : TickArray} {s t : ℤ}
    {u : TickUpdate} (ha : arrays s = some array) (h : array.updateTick t ts u = .ok array') :
    UsableTick ts t ∧ array'.startTickIndex = array.startTickIndex ∧
      WellPlaced (Function.update arrays s (some array')) ts ∧
      tick (Function.update arrays s (some array')) ts =
        Function.update (arrays.tick ts) t u := by
  obtain ⟨hts, hus, hh, hs, htick⟩ := TickArray.updateTick_eq_ok (hwp.dvd_start ha) h
  obtain ⟨rfl, hd⟩ := hwp _ _ ha
  refine ⟨hus, hs, ?_, funext fun x => ?_⟩
  · rw [← hs]
    exact hwp.update (hs ▸ hd)
  · rw [tick_update hwp hts ha hs]
    rcases eq_or_ne x t with rfl | hne
    · rw [if_pos hh, htick, if_pos rfl, Function.update_self]
    · rw [Function.update_of_ne hne, htick, if_neg hne]
      split_ifs with hx
      · exact (tick_eq_tickAt hwp hts ha hx).symm
      · rfl

/-- **Updating a tick of the sequence updates that tick of the map, and no other.**

**Proof sketch.** The updated array has the place of the old one, so storing the new sequence
replaces this array in the map, and `updateTick_eq_ok` says what that does to the ticks. -/
theorem store_updateTick (hwp : (arrays.store sequence).WellPlaced ts)
    (hnd : (sequence.map TickArray.startTickIndex).Nodup) {i : ℕ} {t : ℤ} {u : TickUpdate}
    {sequence' : SwapTickSequence} (h : sequence.updateTick i t ts u = .ok sequence') :
    UsableTick ts t ∧ (sequence'.map TickArray.startTickIndex).Nodup ∧
      (arrays.store sequence').WellPlaced ts ∧
      (arrays.store sequence').tick ts = Function.update ((arrays.store sequence).tick ts) t u := by
  unfold SwapTickSequence.updateTick at h
  split at h
  · next array ha =>
    rw [Res.bind_eq_ok] at h
    obtain ⟨array', hu, h⟩ := h
    rw [Res.pure_eq_ok, Except.ok.injEq] at h
    subst h
    have hm : arrays.store sequence array.startTickIndex = some array :=
      store_of_mem hnd (List.mem_iff_getElem?.2 ⟨i, ha⟩)
    obtain ⟨hus, hs, hwp', htick⟩ := updateTick_eq_ok hwp hm hu
    obtain ⟨hmap, hstore⟩ := store_set arrays hnd ha hs
    rw [hstore]
    exact ⟨hus, hmap ▸ hnd, hwp', htick⟩
  · simp at h

end TickMap

end NemoSwap
