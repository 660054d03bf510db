import NemoSwap.Math.BitMath

set_option relaxedAutoImplicit false
set_option autoImplicit false

/-!
# `state/tick.rs`: ticks and tick arrays

A tick array holds eighty-eight ticks, `tick_spacing` apart, from its start index on. Growth
counters wrap at 128 bits in the source and are bit vectors here.

## Main definitions

* `NemoSwap.Tick`, `NemoSwap.TickArray` — the accounts' data.
* `NemoSwap.Tick.checkIsUsableTick`, `NemoSwap.Tick.checkIsValidStartTick` — which indices hold
  ticks and start arrays.
* `NemoSwap.TickArray.getNextInitTickIndex` — the search inside one array.
* `NemoSwap.TickArray.getTick`, `NemoSwap.TickArray.updateTick` — access to one tick.
* `NemoSwap.UsableTick` — the indices that hold ticks, as a proposition.
* `NemoSwap.TickArray.tickAt` — the ticks of an array, by index.

## Main results

* `NemoSwap.TickArray.getNextInitTickIndex_eq_ok` — a search returns the nearest initialized
  tick of the array in its direction.
* `NemoSwap.TickArray.getTick_eq_ok`, `NemoSwap.TickArray.updateTick_eq_ok` — what access to a
  tick returns.
-/

namespace NemoSwap

/-- A wrapping `u128` growth counter, in Q64.64. -/
abbrev Growth : Type := BitVec 128

/-- `NUM_REWARDS`. -/
abbrev numRewards : ℕ := 3

/-- `MAX_TICK_INDEX`. -/
def maxTickIndex : ℤ := 443636

/-- `MIN_TICK_INDEX`. -/
def minTickIndex : ℤ := -443636

/-- `TICK_ARRAY_SIZE`. -/
abbrev tickArraySize : ℕ := 88

/-- `Tick`. -/
structure Tick where
  initialized : Bool
  liquidityNet : ℤ
  liquidityGross : ℕ
  feeGrowthOutsideA : Growth
  feeGrowthOutsideB : Growth
  rewardGrowthsOutside : Fin numRewards → Growth
  deriving DecidableEq

/-- `Tick::default` and `TickUpdate::default`. -/
def Tick.default : Tick := ⟨false, 0, 0, 0, 0, fun _ => 0⟩

instance : Inhabited Tick := ⟨Tick.default⟩

/-- `TickUpdate`: the same fields as a tick, all of which `Tick::update` overwrites. -/
abbrev TickUpdate : Type := Tick

/-- `Tick::update`. -/
def Tick.update (_self : Tick) (update : TickUpdate) : Tick :=
  { initialized := update.initialized
    liquidityNet := update.liquidityNet
    liquidityGross := update.liquidityGross
    feeGrowthOutsideA := update.feeGrowthOutsideA
    feeGrowthOutsideB := update.feeGrowthOutsideB
    rewardGrowthsOutside := update.rewardGrowthsOutside }

/-- An updated tick is the update. -/
@[simp] lemma Tick.update_eq (t : Tick) (u : TickUpdate) : t.update u = u := rfl

/-! ## Tick indices -/

/-- The operator `%` on `i32`, which panics for a zero divisor. -/
def remI32 (a b : ℤ) : Res ℤ := if b = 0 then .error .panicked else .ok (a.tmod b)

/-- `Tick::check_is_out_of_bounds`. -/
def Tick.checkIsOutOfBounds (tickIndex : ℤ) : Bool :=
  decide (tickIndex > maxTickIndex) || decide (tickIndex < minTickIndex)

/-- `Tick::check_is_valid_start_tick`. -/
def Tick.checkIsValidStartTick (tickIndex : ℤ) (tickSpacing : ℕ) : Res Bool :=
  let ticksInArray : ℤ := tickArraySize * tickSpacing
  if Tick.checkIsOutOfBounds tickIndex then
    if tickIndex > minTickIndex then .ok false
    else do
      let r ← remI32 minTickIndex ticksInArray
      let minArrayStartIndex := minTickIndex - (r + ticksInArray)
      return decide (tickIndex = minArrayStartIndex)
  else do
    let r ← remI32 tickIndex ticksInArray
    return decide (r = 0)

/-- `Tick::check_is_usable_tick`. -/
def Tick.checkIsUsableTick (tickIndex : ℤ) (tickSpacing : ℕ) : Res Bool :=
  if Tick.checkIsOutOfBounds tickIndex then .ok false
  else do
    let r ← remI32 tickIndex tickSpacing
    return decide (r = 0)

/-- The indices that hold ticks: multiples of the spacing within the bounds. -/
def UsableTick (tickSpacing : ℕ) (t : ℤ) : Prop :=
  minTickIndex ≤ t ∧ t ≤ maxTickIndex ∧ (tickSpacing : ℤ) ∣ t

instance (tickSpacing : ℕ) (t : ℤ) : Decidable (UsableTick tickSpacing t) :=
  inferInstanceAs (Decidable (_ ∧ _ ∧ _))

/-- A tick is not out of bounds exactly if it is between the least and the greatest tick. -/
lemma Tick.checkIsOutOfBounds_eq_false {t : ℤ} :
    Tick.checkIsOutOfBounds t = false ↔ minTickIndex ≤ t ∧ t ≤ maxTickIndex := by
  unfold Tick.checkIsOutOfBounds
  rw [Bool.or_eq_false_iff, decide_eq_false_iff_not, decide_eq_false_iff_not, not_lt, not_lt]
  exact and_comm

/-- The remainder fails exactly for a divisor of zero, and has the sign of the dividend. -/
theorem remI32_eq_ok {a b r : ℤ} : remI32 a b = .ok r ↔ b ≠ 0 ∧ r = a.tmod b := by
  unfold remI32
  split_ifs with h
  · simp [h]
  · rw [Except.ok.injEq]
    exact ⟨fun e => ⟨h, e.symm⟩, fun e => e.2.symm⟩

/-- For a spacing other than zero the check decides whether a tick is usable.

**Proof sketch.** A tick within the bounds is usable if the remainder of the division by the
spacing, which has the sign of the tick, is zero. -/
theorem Tick.checkIsUsableTick_eq_ok {t : ℤ} {ts : ℕ} (hts : ts ≠ 0) {b : Bool} :
    Tick.checkIsUsableTick t ts = .ok b ↔ b = decide (UsableTick ts t) := by
  have hts' : (ts : ℤ) ≠ 0 := by exact_mod_cast hts
  unfold Tick.checkIsUsableTick UsableTick
  rcases h : Tick.checkIsOutOfBounds t with _ | _
  · rw [Tick.checkIsOutOfBounds_eq_false] at h
    simp only [Bool.false_eq_true, if_false, Res.bind_eq_ok, remI32_eq_ok, Res.pure_eq_ok,
      Except.ok.injEq, h.1, h.2, true_and]
    constructor
    · rintro ⟨_, ⟨-, rfl⟩, rfl⟩
      exact decide_eq_decide.2 Int.dvd_iff_tmod_eq_zero.symm
    · rintro rfl
      exact ⟨_, ⟨hts', rfl⟩, decide_eq_decide.2 Int.dvd_iff_tmod_eq_zero.symm⟩
  · have hno : ¬(minTickIndex ≤ t ∧ t ≤ maxTickIndex) := fun hb => by
      rw [Tick.checkIsOutOfBounds_eq_false.2 hb] at h
      cases h
    have hno' : ¬(minTickIndex ≤ t ∧ t ≤ maxTickIndex ∧ (ts : ℤ) ∣ t) := fun hb =>
      hno ⟨hb.1, hb.2.1⟩
    simp only [if_true, Except.ok.injEq, hno', decide_false]
    exact eq_comm

/-- A valid start index is a multiple of the length of an array.

**Proof sketch.** The function returns `true` in two places. The leftmost array starts at the
minimum less its remainder, and any other at an index whose remainder is zero. -/
theorem Tick.checkIsValidStartTick_dvd {s : ℤ} {ts : ℕ}
    (h : Tick.checkIsValidStartTick s ts = .ok true) :
    ts ≠ 0 ∧ ((tickArraySize * ts : ℕ) : ℤ) ∣ s := by
  unfold Tick.checkIsValidStartTick at h
  simp only [] at h
  split_ifs at h with h1 h2
  · simp at h
  · simp only [Res.bind_eq_ok, remI32_eq_ok, Res.pure_eq_ok, Except.ok.injEq,
      decide_eq_true_eq] at h
    obtain ⟨r, ⟨hne, rfl⟩, rfl⟩ := h
    refine ⟨by rintro rfl; simp at hne, ?_⟩
    push_cast
    rw [← sub_sub]
    exact Dvd.dvd.sub (Int.dvd_self_sub_tmod) dvd_rfl
  · simp only [Res.bind_eq_ok, remI32_eq_ok, Res.pure_eq_ok, Except.ok.injEq,
      decide_eq_true_eq] at h
    obtain ⟨r, ⟨hne, rfl⟩, h0⟩ := h
    refine ⟨by rintro rfl; simp at hne, ?_⟩
    push_cast
    exact Int.dvd_of_tmod_eq_zero h0

/-! ## Tick arrays -/

/-- `TickArray`. The array's pool is the pool that the embedding stores it in. -/
structure TickArray where
  startTickIndex : ℤ
  ticks : Fin tickArraySize → Tick
  deriving DecidableEq

/-- `TickArray::default`. -/
def TickArray.default : TickArray := ⟨0, fun _ => Tick.default⟩

namespace TickArray

/-- `in_search_range`. -/
def inSearchRange (self : TickArray) (tickIndex : ℤ) (tickSpacing : ℕ) (shifted : Bool) : Bool :=
  let lower := self.startTickIndex
  let upper := self.startTickIndex + tickArraySize * tickSpacing
  let lower := if shifted then lower - tickSpacing else lower
  let upper := if shifted then upper - tickSpacing else upper
  decide (tickIndex ≥ lower) && decide (tickIndex < upper)

/-- `check_in_array_bounds`. -/
def checkInArrayBounds (self : TickArray) (tickIndex : ℤ) (tickSpacing : ℕ) : Bool :=
  self.inSearchRange tickIndex tickSpacing false

/-- `is_min_tick_array`. -/
def isMinTickArray (self : TickArray) : Bool := decide (self.startTickIndex ≤ minTickIndex)

/-- `is_max_tick_array`. -/
def isMaxTickArray (self : TickArray) (tickSpacing : ℕ) : Bool :=
  decide (self.startTickIndex + tickArraySize * tickSpacing > maxTickIndex)

/-- `get_offset`. The operators `/` and `%` on `i32` truncate. -/
def getOffset (tickIndex startTickIndex : ℤ) (tickSpacing : ℕ) : ℤ :=
  let lhs := tickIndex - startTickIndex
  let rhs : ℤ := tickSpacing
  let d := lhs.tdiv rhs
  let r := lhs.tmod rhs
  if (r > 0 ∧ rhs < 0) ∨ (r < 0 ∧ rhs > 0) then d - 1 else d

/-- `tick_offset`. -/
def tickOffset (self : TickArray) (tickIndex : ℤ) (tickSpacing : ℕ) : Res ℤ :=
  if tickSpacing = 0 then err .InvalidTickSpacing
  else .ok (getOffset tickIndex self.startTickIndex tickSpacing)

/-- The `while` loop of `get_next_init_tick_index`, from offset `currOffset` on. It visits every
offset at most once. -/
def searchOffset (ticks : Fin tickArraySize → Tick) (aToB : Bool) : ℕ → ℤ → Option ℤ
  | 0, _ => none
  | count + 1, currOffset =>
    if h : currOffset ≥ 0 ∧ currOffset < tickArraySize then
      if (ticks ⟨currOffset.toNat, by omega⟩).initialized then some currOffset
      else searchOffset ticks aToB count (if aToB then currOffset - 1 else currOffset + 1)
    else none

/-- `get_next_init_tick_index`. -/
def getNextInitTickIndex (self : TickArray) (tickIndex : ℤ) (tickSpacing : ℕ) (aToB : Bool) :
    Res (Option ℤ) :=
  if !self.inSearchRange tickIndex tickSpacing (!aToB) then err .InvalidTickArraySequence
  else do
    let currOffset ← self.tickOffset tickIndex tickSpacing
    let currOffset := if !aToB then currOffset + 1 else currOffset
    return (searchOffset self.ticks aToB (tickArraySize + 1) currOffset).map
      fun offset => offset * tickSpacing + self.startTickIndex

/-- `TickArray::initialize`. -/
def initializeArray (self : TickArray) (tickSpacing : ℕ) (startTickIndex : ℤ) : Res TickArray := do
  let valid ← Tick.checkIsValidStartTick startTickIndex tickSpacing
  if !valid then err .InvalidStartTick
  else return { self with startTickIndex }

/-- The offset at which `get_tick` and `update_tick` find a tick. Indexing past the end of the
array panics. -/
def checkedOffset (self : TickArray) (tickIndex : ℤ) (tickSpacing : ℕ) :
    Res (Fin tickArraySize) :=
  if !self.checkInArrayBounds tickIndex tickSpacing then err .TickNotFound
  else do
    let usable ← Tick.checkIsUsableTick tickIndex tickSpacing
    if !usable then err .TickNotFound
    else do
      let offset ← self.tickOffset tickIndex tickSpacing
      if offset < 0 then err .TickNotFound
      else if h : offset.toNat < tickArraySize then return ⟨offset.toNat, h⟩
      else .error .panicked

/-- `get_tick`. -/
def getTick (self : TickArray) (tickIndex : ℤ) (tickSpacing : ℕ) : Res Tick := do
  let offset ← self.checkedOffset tickIndex tickSpacing
  return self.ticks offset

/-- `update_tick`. -/
def updateTick (self : TickArray) (tickIndex : ℤ) (tickSpacing : ℕ) (update : TickUpdate) :
    Res TickArray := do
  let offset ← self.checkedOffset tickIndex tickSpacing
  return { self with
    ticks := Function.update self.ticks offset ((self.ticks offset).update update) }

/-! ## Ticks by index -/

/-- The index range and spacing of an array. -/
def Holds (self : TickArray) (tickSpacing : ℕ) (t : ℤ) : Prop :=
  self.startTickIndex ≤ t ∧ t < self.startTickIndex + tickArraySize * tickSpacing ∧
    (tickSpacing : ℤ) ∣ t - self.startTickIndex

instance (self : TickArray) (tickSpacing : ℕ) (t : ℤ) : Decidable (self.Holds tickSpacing t) :=
  inferInstanceAs (Decidable (_ ∧ _ ∧ _))

/-- The ticks of an array by offset. -/
def slot (self : TickArray) (i : ℕ) : Tick :=
  if h : i < tickArraySize then self.ticks ⟨i, h⟩ else Tick.default

/-- The ticks of an array by index: indices that the array does not hold read as default. -/
def tickAt (self : TickArray) (tickSpacing : ℕ) (t : ℤ) : Tick :=
  if self.Holds tickSpacing t then self.slot ((t - self.startTickIndex) / tickSpacing).toNat
  else Tick.default

variable {self : TickArray} {ts : ℕ} {t : ℤ}

/-- The offset of an index is its floor quotient.

**Proof sketch.** The source truncates and lowers the quotient by one for a negative remainder,
which is the floor. -/
theorem getOffset_eq (t s : ℤ) (hts : ts ≠ 0) : getOffset t s ts = (t - s) / ts := by
  have hpos : (0 : ℤ) < ts := by exact_mod_cast Nat.pos_of_ne_zero hts
  unfold getOffset
  simp only []
  generalize t - s = x
  have hd := Int.tmod_add_tdiv_mul x ts
  have hlt := Int.tmod_lt_of_pos x hpos
  have hge := Int.lt_tmod_of_pos x hpos
  generalize x.tdiv ts = d at *
  generalize x.tmod ts = r at *
  symm
  split_ifs with h
  · have hneg : r < 0 := by omega
    rw [Int.ediv_eq_iff_of_pos hpos]
    constructor <;> nlinarith
  · rw [Int.ediv_eq_iff_of_pos hpos]
    have : 0 ≤ r := by
      by_contra hr
      exact h (Or.inr ⟨by omega, hpos⟩)
    constructor <;> nlinarith

/-- An array holds the multiples of the spacing from its start on, one for each slot.

**Proof sketch.** The slot of a tick in the array is its distance from the start divided by the
spacing. -/
theorem holds_iff (hts : ts ≠ 0) :
    self.Holds ts t ↔ ∃ k : ℕ, k < tickArraySize ∧ t = self.startTickIndex + k * ts := by
  have hpos : (0 : ℤ) < ts := by exact_mod_cast Nat.pos_of_ne_zero hts
  unfold Holds
  constructor
  · rintro ⟨h1, h2, k, hk⟩
    have hk0 : 0 ≤ k := by
      by_contra hneg
      have : (ts : ℤ) * k < 0 := mul_neg_of_pos_of_neg hpos (not_le.1 hneg)
      omega
    obtain ⟨k, rfl⟩ := Int.eq_ofNat_of_zero_le hk0
    refine ⟨k, ?_, by rw [mul_comm]; omega⟩
    have hlt : (ts : ℤ) * k < ts * tickArraySize := by
      rw [← hk, mul_comm (ts : ℤ)]
      omega
    exact_mod_cast lt_of_mul_lt_mul_left hlt hpos.le
  · rintro ⟨k, hk, rfl⟩
    refine ⟨by nlinarith, ?_, ⟨k, by ring⟩⟩
    have : (k : ℤ) < tickArraySize := by exact_mod_cast hk
    nlinarith

/-- The tick in a slot, by its index. -/
theorem tickAt_eq_slot {k : ℕ} (hts : ts ≠ 0) (hk : k < tickArraySize)
    (ht : t = self.startTickIndex + k * ts) : self.tickAt ts t = self.slot k := by
  have hpos : (ts : ℤ) ≠ 0 := by exact_mod_cast hts
  unfold tickAt
  rw [if_pos ((holds_iff hts).2 ⟨k, hk, ht⟩), ht, add_sub_cancel_left, Int.mul_ediv_cancel _ hpos,
    Int.toNat_natCast]

/-- A tick that the array does not hold reads as the default one. -/
lemma tickAt_of_not_holds (h : ¬self.Holds ts t) : self.tickAt ts t = Tick.default := if_neg h

/-! ## The search -/

/-- Searching to the left finds the last initialized offset up to `o`.

**Proof sketch.** Induction on the number of slots that are left to look at. -/
theorem searchOffset_left (self : TickArray) : ∀ (n : ℕ) (o : ℤ), -1 ≤ o → o < tickArraySize →
    o + 1 ≤ n → match searchOffset self.ticks true n o with
      | some j => ∃ k : ℕ, j = k ∧ k < tickArraySize ∧ (k : ℤ) ≤ o ∧
          (self.slot k).initialized = true ∧
          ∀ i : ℕ, k < i → (i : ℤ) ≤ o → (self.slot i).initialized = false
      | none => ∀ i : ℕ, (i : ℤ) ≤ o → (self.slot i).initialized = false
  | 0, o, hlo, hhi, hn => fun i hi => by push_cast at hn; omega
  | n + 1, o, hlo, hhi, hn => by
    unfold searchOffset
    rcases lt_or_ge o 0 with hneg | hnn
    · rw [dif_neg (by omega)]
      intro i hi
      omega
    · obtain ⟨k, rfl⟩ := Int.eq_ofNat_of_zero_le hnn
      have hk : k < tickArraySize := by exact_mod_cast hhi
      rw [dif_pos ⟨hnn, hhi⟩]
      have hslot : self.ticks ⟨(k : ℤ).toNat, by omega⟩ = self.slot k := by
        simp [slot, hk]
      rw [hslot]
      by_cases hinit : (self.slot k).initialized = true
      · rw [if_pos hinit]
        exact ⟨k, rfl, hk, le_rfl, hinit, fun i h1 h2 => by omega⟩
      · rw [if_neg hinit]
        have ih := searchOffset_left self n (k - 1) (by omega) (by omega) (by push_cast at hn; omega)
        have hno : (self.slot k).initialized = false := by simpa using hinit
        simp only [if_true]
        split at ih
        · obtain ⟨j, rfl, h1, h2, h3, h4⟩ := ih
          refine ⟨j, rfl, h1, by omega, h3, fun i hi1 hi2 => ?_⟩
          rcases eq_or_ne i k with rfl | hne
          · exact hno
          · exact h4 i hi1 (by omega)
        · intro i hi
          rcases eq_or_ne i k with rfl | hne
          · exact hno
          · exact ih i (by omega)

/-- Searching to the right finds the first initialized offset from `o` on.

**Proof sketch.** Induction on the number of slots that are left to look at; an offset beyond the
last slot ends the search. -/
theorem searchOffset_right (self : TickArray) : ∀ (n : ℕ) (o : ℤ), 0 ≤ o →
    (tickArraySize : ℤ) - o ≤ n → match searchOffset self.ticks false n o with
      | some j => ∃ k : ℕ, j = k ∧ k < tickArraySize ∧ o ≤ k ∧
          (self.slot k).initialized = true ∧
          ∀ i : ℕ, o ≤ i → i < k → (self.slot i).initialized = false
      | none => ∀ i : ℕ, o ≤ i → (self.slot i).initialized = false
  | 0, o, hlo, hn => fun i hi => by
    have hsz : (tickArraySize : ℤ) = 88 := rfl
    have : ¬i < tickArraySize := by push_cast at hn; omega
    simp [slot, this, Tick.default]
  | n + 1, o, hlo, hn => by
    unfold searchOffset
    obtain ⟨k, rfl⟩ := Int.eq_ofNat_of_zero_le hlo
    rcases Nat.lt_or_ge k tickArraySize with hk | hk
    · rw [dif_pos ⟨hlo, by exact_mod_cast hk⟩]
      have hslot : self.ticks ⟨(k : ℤ).toNat, by omega⟩ = self.slot k := by
        simp [slot, hk]
      rw [hslot]
      by_cases hinit : (self.slot k).initialized = true
      · rw [if_pos hinit]
        exact ⟨k, rfl, hk, le_rfl, hinit, fun i h1 h2 => by omega⟩
      · rw [if_neg hinit]
        have ih := searchOffset_right self n (k + 1) (by omega) (by push_cast at hn ⊢; omega)
        have hno : (self.slot k).initialized = false := by simpa using hinit
        simp only [Bool.false_eq_true, if_false]
        split at ih
        · obtain ⟨j, rfl, h1, h2, h3, h4⟩ := ih
          refine ⟨j, rfl, h1, by omega, h3, fun i hi1 hi2 => ?_⟩
          rcases eq_or_ne i k with rfl | hne
          · exact hno
          · exact h4 i (by omega) hi2
        · intro i hi
          rcases eq_or_ne i k with rfl | hne
          · exact hno
          · exact ih i (by omega)
    · rw [dif_neg (by omega)]
      intro i hi
      have : ¬i < tickArraySize := by omega
      simp [slot, this, Tick.default]

/-- The search range of an array, which is shifted down by one spacing for a search to the right. -/
lemma inSearchRange_iff {shifted : Bool} : self.inSearchRange t ts shifted = true ↔
    self.startTickIndex - (if shifted then (ts : ℤ) else 0) ≤ t ∧
      t < self.startTickIndex + tickArraySize * ts - (if shifted then (ts : ℤ) else 0) := by
  unfold inSearchRange
  cases shifted <;> simp

/-- **The search inside one array**: the nearest initialized tick in the direction of the trade,
the start index being included to the left and excluded to the right.

**Proof sketch.** Indices of the array correspond to offsets, and an index lies left of `t` exactly
if its offset is at most that of `t`. The search over the offsets, on either side, is
`searchOffset_left` and `searchOffset_right`; where no slot is found, indices outside the array read
as default ticks. -/
theorem getNextInitTickIndex_eq_ok {aToB : Bool} {r : Option ℤ}
    (h : self.getNextInitTickIndex t ts aToB = .ok r) :
    ts ≠ 0 ∧ self.inSearchRange t ts (!aToB) = true ∧
      (∀ n, r = some n → self.Holds ts n ∧ (self.tickAt ts n).initialized = true ∧
        if aToB then n ≤ t ∧ ∀ u, n < u → u ≤ t → (self.tickAt ts u).initialized = false
        else t < n ∧ ∀ u, t < u → u < n → (self.tickAt ts u).initialized = false) ∧
      (r = none → if aToB then ∀ u, u ≤ t → (self.tickAt ts u).initialized = false
        else ∀ u, t < u → (self.tickAt ts u).initialized = false) := by
  unfold getNextInitTickIndex at h
  rcases hrange : self.inSearchRange t ts (!aToB) with _ | _
  · rw [hrange] at h
    simp at h
  rw [hrange] at h
  simp only [Bool.not_true, Bool.false_eq_true, if_false, Res.bind_eq_ok] at h
  obtain ⟨o, ho, h⟩ := h
  unfold tickOffset at ho
  rw [ite_err_eq_ok, Except.ok.injEq] at ho
  obtain ⟨hts, rfl⟩ := ho
  rw [Res.pure_eq_ok, Except.ok.injEq, getOffset_eq _ _ hts] at h
  refine ⟨hts, rfl, ?_⟩
  rw [inSearchRange_iff] at hrange
  have hpos : (0 : ℤ) < ts := by exact_mod_cast Nat.pos_of_ne_zero hts
  -- an index of the array lies left of `t` iff its offset is at most the offset of `t`
  have hle : ∀ k : ℕ, self.startTickIndex + k * ts ≤ t ↔
      (k : ℤ) ≤ (t - self.startTickIndex) / ts := fun k => by
    rw [Int.le_ediv_iff_mul_le hpos]
    omega
  have hslots : ∀ u, (self.tickAt ts u).initialized = true → ∃ k : ℕ, k < tickArraySize ∧
      u = self.startTickIndex + k * ts ∧ (self.slot k).initialized = true := fun u hu => by
    by_cases hh : self.Holds ts u
    · obtain ⟨k, hk, rfl⟩ := (holds_iff hts).1 hh
      rw [tickAt_eq_slot hts hk rfl] at hu
      exact ⟨k, hk, rfl, hu⟩
    · rw [tickAt_of_not_holds hh] at hu
      cases hu
  have hfalse : ∀ u, (∀ k : ℕ, k < tickArraySize → u = self.startTickIndex + k * ts →
      (self.slot k).initialized = false) → (self.tickAt ts u).initialized = false := fun u hu => by
    by_contra hcon
    obtain ⟨k, hk, he, hi⟩ := hslots u (by simpa using hcon)
    rw [hu k hk he] at hi
    cases hi
  have hdiv : (t - self.startTickIndex) / ts < tickArraySize := by
    rw [Int.ediv_lt_iff_lt_mul hpos]
    split_ifs at hrange <;> linarith [hrange.2]
  have hsz : (tickArraySize : ℤ) = 88 := rfl
  cases aToB with
  | true =>
    simp only [Bool.not_true, Bool.false_eq_true, if_false, sub_zero, if_true] at h hrange ⊢
    have hge : -1 ≤ (t - self.startTickIndex) / ts := by
      have : 0 ≤ (t - self.startTickIndex) / ts := Int.ediv_nonneg (by omega) hpos.le
      omega
    have hs := searchOffset_left self (tickArraySize + 1) _ hge hdiv (by push_cast; omega)
    rcases hj : searchOffset self.ticks true (tickArraySize + 1)
      ((t - self.startTickIndex) / ts) with _ | j
    · rw [hj] at hs h
      simp only [Option.map_none] at h
      subst h
      refine ⟨by simp, fun _ u hu => hfalse u fun k hk he => hs k ((hle k).1 (he ▸ hu))⟩
    · rw [hj] at hs h
      simp only [Option.map_some] at h
      subst h
      obtain ⟨k, rfl, hk, hko, hinit, hno⟩ := hs
      refine ⟨fun n hn => ?_, by simp⟩
      obtain rfl : n = self.startTickIndex + k * ts := by
        have := Option.some.inj hn
        omega
      refine ⟨(holds_iff hts).2 ⟨k, hk, rfl⟩, ?_, (hle k).2 hko, fun u hu1 hu2 => hfalse u
        fun i hi he => hno i ?_ ((hle i).1 (he ▸ hu2))⟩
      · rw [tickAt_eq_slot hts hk rfl]
        exact hinit
      · have : (k : ℤ) * ts < i * ts := by omega
        exact_mod_cast lt_of_mul_lt_mul_right this hpos.le
  | false =>
    simp only [Bool.not_false, Bool.false_eq_true, if_false, if_true] at h hrange ⊢
    have hge : 0 ≤ (t - self.startTickIndex) / ts + 1 := by
      have : -1 ≤ (t - self.startTickIndex) / ts := by
        rw [Int.le_ediv_iff_mul_le hpos]
        omega
      omega
    have hs := searchOffset_right self (tickArraySize + 1) _ hge (by push_cast; omega)
    have hgt : ∀ k : ℕ, t < self.startTickIndex + k * ts ↔
        (t - self.startTickIndex) / ts + 1 ≤ k := fun k => by
      have := hle k
      omega
    rcases hj : searchOffset self.ticks false (tickArraySize + 1)
      ((t - self.startTickIndex) / ts + 1) with _ | j
    · rw [hj] at hs h
      simp only [Option.map_none] at h
      subst h
      refine ⟨by simp, fun _ u hu => hfalse u fun k hk he => hs k ((hgt k).1 (he ▸ hu))⟩
    · rw [hj] at hs h
      simp only [Option.map_some] at h
      subst h
      obtain ⟨k, rfl, hk, hko, hinit, hno⟩ := hs
      refine ⟨fun n hn => ?_, by simp⟩
      obtain rfl : n = self.startTickIndex + k * ts := by
        have := Option.some.inj hn
        omega
      refine ⟨(holds_iff hts).2 ⟨k, hk, rfl⟩, ?_, (hgt k).2 hko, fun u hu1 hu2 => hfalse u
        fun i hi he => hno i ((hgt i).1 (he ▸ hu1)) ?_⟩
      · rw [tickAt_eq_slot hts hk rfl]
        exact hinit
      · have : (i : ℤ) * ts < k * ts := by omega
        exact_mod_cast lt_of_mul_lt_mul_right this hpos.le

/-! ## Access to one tick -/

/-- The offset of a usable index that the array holds.

**Proof sketch.** The checks of the code in order: the index lies in the array, is usable, and has
an offset that is not negative. -/
theorem checkedOffset_eq_ok {i : Fin tickArraySize} (h : self.checkedOffset t ts = .ok i) :
    ts ≠ 0 ∧ UsableTick ts t ∧
      ((self.startTickIndex ≤ t ∧ t < self.startTickIndex + tickArraySize * ts) ∧
        (i : ℤ) = (t - self.startTickIndex) / ts) := by
  unfold checkedOffset at h
  rw [ite_err_eq_ok] at h
  obtain ⟨hb, h⟩ := h
  simp only [Bool.not_eq_true', Bool.not_eq_false] at hb
  rw [checkInArrayBounds, inSearchRange_iff] at hb
  simp only [Bool.false_eq_true, if_false, sub_zero] at hb
  have hts : ts ≠ 0 := by
    rintro rfl
    simp at hb
    omega
  rw [Res.bind_eq_ok] at h
  obtain ⟨u, hu, h⟩ := h
  rw [Tick.checkIsUsableTick_eq_ok hts] at hu
  rw [ite_err_eq_ok, Res.bind_eq_ok] at h
  obtain ⟨hu', o, ho, h⟩ := h
  subst hu
  simp only [Bool.not_eq_true', decide_eq_false_iff_not, not_not] at hu'
  unfold tickOffset at ho
  rw [ite_err_eq_ok, Except.ok.injEq] at ho
  obtain ⟨-, rfl⟩ := ho
  rw [ite_err_eq_ok] at h
  obtain ⟨hneg, h⟩ := h
  split_ifs at h with hlt
  · rw [Res.pure_eq_ok, Except.ok.injEq] at h
    subst h
    refine ⟨hts, hu', hb, ?_⟩
    rw [← getOffset_eq _ _ hts]
    exact Int.toNat_of_nonneg (not_lt.1 hneg)

/-- The offset of a successful access, in an array whose start is a multiple of the spacing. -/
theorem checkedOffset_holds {i : Fin tickArraySize} (hstart : (ts : ℤ) ∣ self.startTickIndex)
    (h : self.checkedOffset t ts = .ok i) :
    ts ≠ 0 ∧ UsableTick ts t ∧ self.Holds ts t ∧ t = self.startTickIndex + (i : ℕ) * ts := by
  obtain ⟨hts, hu, hb, hi⟩ := checkedOffset_eq_ok h
  have hdvd : (ts : ℤ) ∣ t - self.startTickIndex := Dvd.dvd.sub hu.2.2 hstart
  refine ⟨hts, hu, ⟨hb.1, hb.2, hdvd⟩, ?_⟩
  rw [hi, Int.ediv_mul_cancel hdvd]
  ring

/-- `get_tick` returns the tick at a usable index that the array holds. -/
theorem getTick_eq_ok {tick : Tick} (hstart : (ts : ℤ) ∣ self.startTickIndex)
    (h : self.getTick t ts = .ok tick) :
    ts ≠ 0 ∧ UsableTick ts t ∧ self.Holds ts t ∧ tick = self.tickAt ts t := by
  unfold getTick at h
  simp only [Res.bind_eq_ok, Res.pure_eq_ok, Except.ok.injEq] at h
  obtain ⟨i, hi, rfl⟩ := h
  obtain ⟨hts, hu, hh, he⟩ := checkedOffset_holds hstart hi
  refine ⟨hts, hu, hh, ?_⟩
  rw [tickAt_eq_slot hts i.isLt he]
  simp [slot]

/-- A usable tick that the array holds can be read.

**Proof sketch.** The index is in bounds and usable, and its offset is the number of its slot, so
every check of `get_tick` passes. -/
theorem exists_getTick_eq_ok (self : TickArray) (hts : ts ≠ 0) (hh : self.Holds ts t)
    (hu : UsableTick ts t) : ∃ tick, self.getTick t ts = .ok tick := by
  have hb : self.checkInArrayBounds t ts = true := by
    rw [checkInArrayBounds, inSearchRange_iff]
    simpa using ⟨hh.1, hh.2.1⟩
  have hus : Tick.checkIsUsableTick t ts = .ok true := by
    rw [Tick.checkIsUsableTick_eq_ok hts]
    simpa using hu
  obtain ⟨k, hk, he⟩ := (holds_iff hts).1 hh
  have hoff : self.tickOffset t ts = .ok k := by
    have hpos : (ts : ℤ) ≠ 0 := by exact_mod_cast hts
    rw [tickOffset, if_neg hts, getOffset_eq _ _ hts, he, add_sub_cancel_left,
      Int.mul_ediv_cancel _ hpos]
  have hcheck : self.checkedOffset t ts = .ok ⟨k, hk⟩ := by
    unfold checkedOffset
    simp [hb, hus, hoff, hk]
  exact ⟨_, by rw [getTick, hcheck]; rfl⟩

/-- Updating one tick changes that tick only.

**Proof sketch.** The index has an offset, and two indices of the array with the same offset are
equal; outside the array both sides read default ticks. -/
theorem updateTick_eq_ok {a : TickArray} {u : TickUpdate} (hstart : (ts : ℤ) ∣ self.startTickIndex)
    (h : self.updateTick t ts u = .ok a) :
    ts ≠ 0 ∧ UsableTick ts t ∧ self.Holds ts t ∧ a.startTickIndex = self.startTickIndex ∧
      ∀ x, a.tickAt ts x = if x = t then u else self.tickAt ts x := by
  unfold updateTick at h
  simp only [Res.bind_eq_ok, Res.pure_eq_ok, Except.ok.injEq] at h
  obtain ⟨i, hi, rfl⟩ := h
  obtain ⟨hts, hu, hh, he⟩ := checkedOffset_holds hstart hi
  have hpos : (0 : ℤ) < ts := by exact_mod_cast Nat.pos_of_ne_zero hts
  refine ⟨hts, hu, hh, rfl, fun x => ?_⟩
  by_cases hx : self.Holds ts x
  · obtain ⟨k, hk, hxe⟩ := (holds_iff hts).1 hx
    rw [tickAt_eq_slot hts hk hxe,
      tickAt_eq_slot (t := x) (k := k) hts hk (by exact hxe)]
    simp only [slot, dif_pos hk, Tick.update_eq]
    by_cases hki : (⟨k, hk⟩ : Fin tickArraySize) = i
    · subst hki
      rw [Function.update_self, if_pos (by rw [hxe, he])]
    · rw [Function.update_of_ne hki, if_neg]
      rintro rfl
      refine hki (Fin.ext ?_)
      have : (k : ℤ) * ts = (i : ℕ) * ts := by linarith
      exact_mod_cast mul_right_cancel₀ hpos.ne' this
  · rw [tickAt_of_not_holds hx, tickAt_of_not_holds (by exact hx), if_neg]
    rintro rfl
    exact hx hh

end TickArray

end NemoSwap
