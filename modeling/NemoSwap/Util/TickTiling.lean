import NemoSwap.Util.TickMap

set_option relaxedAutoImplicit false
set_option autoImplicit false

/-!
# Tick arrays tile the tick range

The start indices that the program accepts are the multiples of the length of an array whose
array meets the tick range. So every tick has one array, and the arrays of a pool are a map from
usable ticks to their contents. Searches to the right look one spacing ahead: the last spacing of
an array is served by the next array, which the last array does not have.

## Main definitions

* `NemoSwap.TickMap.lastArrayEnd` — where the last array ends.

## Main results

* `NemoSwap.checkIsValidStartTick_iff` — the accepted start indices.
* `NemoSwap.existsUnique_start` — every tick lies in exactly one array.
* `NemoSwap.tickArray_tiles` — the tiling, and access to ticks as access to a map.
* `NemoSwap.searchable_iff` — the ticks where a search in a direction can start.
-/

namespace NemoSwap

open TickMap

variable {ts : ℕ} {s t : ℤ}

/-! ## Start indices -/

/-- An index lies in the array that starts at the multiple of its length below. -/
theorem arrayStart_spec (hts : ts ≠ 0) (t : ℤ) :
    ((tickArraySize * ts : ℕ) : ℤ) ∣ arrayStart ts t ∧ arrayStart ts t ≤ t ∧
      t < arrayStart ts t + tickArraySize * ts := by
  have hpos : (0 : ℤ) < tickArraySize * ts := by
    have : (0 : ℤ) < ts := by exact_mod_cast Nat.pos_of_ne_zero hts
    positivity
  unfold arrayStart
  refine ⟨?_, Int.ediv_mul_le _ hpos.ne', Int.lt_ediv_add_one_mul_self t hpos |>.trans_eq (by ring)⟩
  rw [Nat.cast_mul]
  exact Dvd.intro_left _ rfl

/-- Multiples of a length that are closer than it are equal. -/
lemma eq_of_dvd_of_abs_lt {n x y : ℤ} (hx : n ∣ x) (hy : n ∣ y) (h : |x - y| < n) : x = y :=
  sub_eq_zero.1 (Int.eq_zero_of_abs_lt_dvd (Dvd.dvd.sub hx hy) h)

/-- **The accepted start indices** are the multiples of the length of an array whose array meets
the tick range.

**Proof sketch.** A start within the bounds is checked for being a multiple of the length. Below the
least tick exactly one start is accepted, and a multiple of the length that reaches the tick range
from below is this one: both lie less than one length below the least tick. -/
theorem checkIsValidStartTick_iff (hts : ts ≠ 0) :
    Tick.checkIsValidStartTick s ts = .ok true ↔
      ((tickArraySize * ts : ℕ) : ℤ) ∣ s ∧ minTickIndex < s + tickArraySize * ts ∧
        s ≤ maxTickIndex := by
  constructor
  · intro h
    obtain ⟨hmax, hmin⟩ := SwapTickSequence.validStart_bounds h
    exact ⟨(Tick.checkIsValidStartTick_dvd h).2, hmin, hmax⟩
  · rintro ⟨hd, hmin, hmax⟩
    have hpos : (0 : ℤ) < ts := by exact_mod_cast Nat.pos_of_ne_zero hts
    have hn : (tickArraySize * ts : ℤ) ≠ 0 := by positivity
    have hrem : ∀ x, remI32 x (tickArraySize * ts) = .ok (x.tmod (tickArraySize * ts)) :=
      fun x => remI32_eq_ok.2 ⟨hn, rfl⟩
    unfold Tick.checkIsValidStartTick
    simp only [hrem, Res.ok_bind, Res.pure_eq_ok]
    rw [Nat.cast_mul] at hd
    rcases hout : Tick.checkIsOutOfBounds s with _ | _
    · rw [if_neg Bool.false_ne_true, Except.ok.injEq, decide_eq_true_eq]
      exact Int.dvd_iff_tmod_eq_zero.1 hd
    · have hlow : s < minTickIndex := by
        by_contra hcon
        rw [Tick.checkIsOutOfBounds_eq_false.2 ⟨not_lt.1 hcon, hmax⟩] at hout
        cases hout
      rw [if_pos rfl, if_neg hlow.not_gt, Except.ok.injEq, decide_eq_true_eq]
      -- both sides are multiples of the length, less than one length below the minimum
      have hr0 : minTickIndex.tmod (tickArraySize * ts) ≤ 0 := by
        rw [show minTickIndex = -443636 from rfl, Int.neg_tmod, neg_nonpos]
        exact Int.tmod_nonneg _ (by norm_num)
      have hr1 : -(tickArraySize * ts : ℤ) < minTickIndex.tmod (tickArraySize * ts) :=
        Int.lt_tmod_of_pos _ (by positivity)
      refine eq_of_dvd_of_abs_lt hd ?_ (abs_lt.2 ⟨by linarith, by linarith⟩)
      rw [← sub_sub]
      exact Dvd.dvd.sub Int.dvd_self_sub_tmod dvd_rfl

/-- **Every tick lies in exactly one array.** -/
theorem existsUnique_start (hts : ts ≠ 0) (ht : minTickIndex ≤ t ∧ t ≤ maxTickIndex) :
    ∃! s, Tick.checkIsValidStartTick s ts = .ok true ∧ s ≤ t ∧ t < s + tickArraySize * ts := by
  obtain ⟨hd, hle, hlt⟩ := arrayStart_spec hts t
  refine ⟨arrayStart ts t, ⟨(checkIsValidStartTick_iff hts).2 ⟨hd, by omega, by omega⟩, hle, hlt⟩,
    ?_⟩
  rintro s ⟨hs, hsle, hslt⟩
  exact (arrayStart_eq hts (Tick.checkIsValidStartTick_dvd hs).2 hsle hslt).symm

/-! ## Access to ticks -/

section Access

variable {self a : TickArray} {x : ℤ}

/-- An index that holds no tick cannot be read or written, whatever the array. -/
lemma checkedOffset_of_not_usable (hts : ts ≠ 0) (h : ¬UsableTick ts t) :
    self.checkedOffset t ts = err .TickNotFound := by
  have hus : Tick.checkIsUsableTick t ts = .ok false := by
    rw [Tick.checkIsUsableTick_eq_ok hts]
    simpa using h
  unfold TickArray.checkedOffset
  rw [hus, Res.ok_bind, Bool.not_false, if_pos rfl, ite_self]

/-- A valid start index is a multiple of the spacing. -/
lemma dvd_of_validStart (h : Tick.checkIsValidStartTick s ts = .ok true) : (ts : ℤ) ∣ s :=
  (Dvd.intro_left _ (by push_cast; rfl)).trans (Tick.checkIsValidStartTick_dvd h).2

/-- A usable tick can be read exactly if it lies in the array. -/
lemma getTick_ok_iff (hts : ts ≠ 0) (hd : (ts : ℤ) ∣ self.startTickIndex)
    (hu : UsableTick ts t) : (∃ tick, self.getTick t ts = .ok tick) ↔
      self.startTickIndex ≤ t ∧ t < self.startTickIndex + tickArraySize * ts := by
  constructor
  · rintro ⟨tick, htick⟩
    obtain ⟨-, -, hh, -⟩ := TickArray.getTick_eq_ok hd htick
    exact ⟨hh.1, hh.2.1⟩
  · rintro ⟨h1, h2⟩
    exact TickArray.exists_getTick_eq_ok self hts ⟨h1, h2, Dvd.dvd.sub hu.2.2 hd⟩ hu

/-- Two indices with one slot are equal. -/
lemma checkedOffset_inj {i : Fin tickArraySize} (hd : (ts : ℤ) ∣ self.startTickIndex)
    (ht : self.checkedOffset t ts = .ok i) (hx : self.checkedOffset x ts = .ok i) : t = x := by
  obtain ⟨-, -, -, rfl⟩ := TickArray.checkedOffset_holds hd ht
  obtain ⟨-, -, -, rfl⟩ := TickArray.checkedOffset_holds hd hx
  rfl

/-- A successful update changes what is read at its index, and nothing else.

**Proof sketch.** The slot of an index depends on the start of the array only, and the update does
not change the start. It writes into one slot, and different usable indices have different slots. -/
lemma getTick_updateTick {u : TickUpdate} (hd : (ts : ℤ) ∣ self.startTickIndex)
    (h : self.updateTick t ts u = .ok a) :
    a.getTick t ts = .ok u ∧ ∀ x, x ≠ t → a.getTick x ts = self.getTick x ts := by
  unfold TickArray.updateTick at h
  simp only [Res.bind_eq_ok, Res.pure_eq_ok, Except.ok.injEq] at h
  obtain ⟨i, hi, rfl⟩ := h
  -- the slot of an index depends on the start of the array only
  have hoff : ∀ x ticks, ({ self with ticks } : TickArray).checkedOffset x ts =
      self.checkedOffset x ts := fun _ _ => rfl
  unfold TickArray.getTick
  simp only [hoff]
  refine ⟨?_, fun x hx => ?_⟩
  · rw [hi, Res.ok_bind, Function.update_self, Tick.update_eq]
    rfl
  · rcases hj : self.checkedOffset x ts with e | j
    · rfl
    · have hne : j ≠ i := fun hji => hx (checkedOffset_inj hd (hji ▸ hj) hi)
      rw [Res.ok_bind, Res.ok_bind, Function.update_of_ne hne]

end Access

/-- **Tick arrays tile the tick range and act as a map.** -/
theorem tickArray_tiles (hts : 1 ≤ ts ∧ ts < 2 ^ 16) :
    (∀ t, minTickIndex ≤ t ∧ t ≤ maxTickIndex → ∃! s, Tick.checkIsValidStartTick s ts = .ok true ∧
      s ≤ t ∧ t < s + tickArraySize * ts) ∧
    (∀ self : TickArray, Tick.checkIsValidStartTick self.startTickIndex ts = .ok true →
      (∀ t, UsableTick ts t → ((∃ tick, self.getTick t ts = .ok tick) ↔
        self.startTickIndex ≤ t ∧ t < self.startTickIndex + tickArraySize * ts)) ∧
      (∀ t x i, self.checkedOffset t ts = .ok i → self.checkedOffset x ts = .ok i → t = x) ∧
      (∀ t u a, self.updateTick t ts u = .ok a →
        a.getTick t ts = .ok u ∧ ∀ x, x ≠ t → a.getTick x ts = self.getTick x ts)) ∧
    (∀ (self : TickArray) (t : ℤ), ¬(minTickIndex ≤ t ∧ t ≤ maxTickIndex ∧ (ts : ℤ) ∣ t) →
      self.getTick t ts = err .TickNotFound ∧
        ∀ u, self.updateTick t ts u = err .TickNotFound) := by
  have hts0 : ts ≠ 0 := by omega
  refine ⟨fun t ht => existsUnique_start hts0 ht, fun self hs => ?_, fun self t ht => ?_⟩
  · have hd := dvd_of_validStart hs
    exact ⟨fun t hu => getTick_ok_iff hts0 hd hu, fun t x i => checkedOffset_inj hd,
      fun t u a => getTick_updateTick hd⟩
  · have hoff := @checkedOffset_of_not_usable _ _ self hts0 ht
    refine ⟨?_, fun u => ?_⟩
    · rw [TickArray.getTick, hoff]
      rfl
    · rw [TickArray.updateTick, hoff]
      rfl

/-- The array below the tick zero at a spacing of eight. -/
theorem tickArray_tiles_eight : ∃! s, Tick.checkIsValidStartTick s 8 = .ok true ∧ s ≤ -1 ∧
    -1 < s + tickArraySize * (8 : ℕ) :=
  (tickArray_tiles ⟨by norm_num, by norm_num⟩).1 (-1) (by decide)

/-! ## Where a search can start -/

/-- The end of the last array, the one that holds the maximum index. -/
def lastArrayEnd (tickSpacing : ℕ) : ℤ :=
  arrayStart tickSpacing maxTickIndex + tickArraySize * tickSpacing

/-- Multiples of a length that are less than it apart are in order. -/
lemma le_of_dvd_of_lt_add {n x y : ℤ} (hx : n ∣ x) (hy : n ∣ y) (h : x < y + n) : x ≤ y := by
  by_contra hcon
  have := Int.le_of_dvd (sub_pos.2 (not_le.1 hcon)) (Dvd.dvd.sub hx hy)
  omega

/-- An index from the minimum on lies in a valid array exactly if it lies before the end of the
last one. -/
lemma exists_start_iff (hts : ts ≠ 0) (ht : minTickIndex ≤ t) :
    (∃ s, Tick.checkIsValidStartTick s ts = .ok true ∧ s ≤ t ∧ t < s + tickArraySize * ts) ↔
      t < lastArrayEnd ts := by
  obtain ⟨hMd, hMle, hMlt⟩ := arrayStart_spec hts maxTickIndex
  obtain ⟨hd, hle, hlt⟩ := arrayStart_spec hts t
  simp only [checkIsValidStartTick_iff hts]
  unfold lastArrayEnd
  have hcast : ((tickArraySize * ts : ℕ) : ℤ) = tickArraySize * ts := Nat.cast_mul _ _
  constructor
  · rintro ⟨s, ⟨hsd, -, hsM⟩, -, hst⟩
    have := le_of_dvd_of_lt_add hsd hMd (by omega)
    omega
  · intro h
    have := le_of_dvd_of_lt_add hd hMd (by omega)
    exact ⟨arrayStart ts t, ⟨hd, by omega, by omega⟩, hle, hlt⟩

/-- **Where a search can start**: to the left anywhere, to the right where the tick one spacing
further on still lies in an array.

**Proof sketch.** The search range of an array is the array itself, shifted by a spacing for a
search to the right. So the question is which indices lie in some accepted array, which is
`exists_start_iff`. -/
theorem searchable_iff (hts : 1 ≤ ts ∧ ts < 2 ^ 16) (ht : minTickIndex ≤ t ∧ t < maxTickIndex)
    (aToB : Bool) : (∃ array : TickArray,
      Tick.checkIsValidStartTick array.startTickIndex ts = .ok true ∧
        array.inSearchRange t ts (!aToB) = true) ↔
      (aToB = true ∨ t + ts < lastArrayEnd ts) := by
  have hts0 : ts ≠ 0 := by omega
  -- the search range of an array is the array, seen from the index shifted by a spacing
  have hrange : (∃ array : TickArray,
      Tick.checkIsValidStartTick array.startTickIndex ts = .ok true ∧
        array.inSearchRange t ts (!aToB) = true) ↔
      ∃ s, Tick.checkIsValidStartTick s ts = .ok true ∧ s ≤ t + (if aToB then 0 else (ts : ℤ)) ∧
        t + (if aToB then 0 else (ts : ℤ)) < s + tickArraySize * ts := by
    constructor
    · rintro ⟨array, hs, hr⟩
      rw [TickArray.inSearchRange_iff] at hr
      refine ⟨array.startTickIndex, hs, ?_⟩
      cases aToB <;> simp only [Bool.not_true, Bool.not_false, Bool.false_eq_true, if_true,
        if_false] at hr ⊢ <;> omega
    · rintro ⟨s, hs, hr⟩
      refine ⟨{ TickArray.default with startTickIndex := s }, hs, ?_⟩
      rw [TickArray.inSearchRange_iff]
      cases aToB <;> simp only [Bool.not_true, Bool.not_false, Bool.false_eq_true, if_true,
        if_false] at hr ⊢ <;> omega
  rw [hrange, exists_start_iff hts0 (by split_ifs <;> omega)]
  cases aToB with
  | true =>
    obtain ⟨-, -, hMlt⟩ := arrayStart_spec hts0 maxTickIndex
    simp only [if_true, add_zero, true_or, iff_true]
    exact ht.2.trans hMlt
  | false => simp only [Bool.false_eq_true, if_false, false_or]

/-- The search range of a valid array to the right ends a spacing before the last array does. -/
lemma lt_lastArrayEnd (hts : ts ≠ 0) (ht : minTickIndex ≤ t) {array : TickArray}
    (hs : Tick.checkIsValidStartTick array.startTickIndex ts = .ok true)
    (hr : array.inSearchRange t ts true = true) : t + ts < lastArrayEnd ts := by
  rw [TickArray.inSearchRange_iff] at hr
  simp only [if_true] at hr
  refine (exists_start_iff hts (by omega)).1 ⟨array.startTickIndex, hs, ?_, ?_⟩
  · omega
  · omega

/-- Elsewhere the search to the right is rejected, whatever arrays a swap is given. -/
theorem search_right_rejected (hts : 1 ≤ ts ∧ ts < 2 ^ 16)
    (ht : minTickIndex ≤ t ∧ t < maxTickIndex) (h : lastArrayEnd ts ≤ t + ts)
    {array : TickArray} {rest : List TickArray}
    (hs : Tick.checkIsValidStartTick array.startTickIndex ts = .ok true) :
    SwapTickSequence.getNextInitializedTickIndex (array :: rest) t ts false 0 =
      err .InvalidTickArraySequence := by
  have hout : array.inSearchRange t ts true = false := by
    by_contra hcon
    have hlt := lt_lastArrayEnd (by omega) ht.1 hs (Bool.not_eq_false _ ▸ hcon)
    omega
  unfold SwapTickSequence.getNextInitializedTickIndex SwapTickSequence.searchArrays
    TickArray.getNextInitTickIndex
  simp only [List.drop_zero, Bool.not_false, hout, if_true]
  rfl

/-- At a spacing of a hundred a search to the right can start from the tick zero. -/
theorem searchable_iff_hundred : ∃ array : TickArray,
    Tick.checkIsValidStartTick array.startTickIndex 100 = .ok true ∧
      array.inSearchRange 0 100 true = true :=
  (searchable_iff ⟨by norm_num, by norm_num⟩ (by decide) false).2 (Or.inr (by decide))

/-- In the last slot of the last array there is no array to search to the right. -/
theorem not_searchable_right : ¬∃ array : TickArray,
    Tick.checkIsValidStartTick array.startTickIndex 388 = .ok true ∧
      array.inSearchRange 443500 388 true = true := by
  rintro ⟨array, hs, hr⟩
  have hlt := lt_lastArrayEnd (by norm_num) (by decide) hs hr
  revert hlt
  decide

end NemoSwap
