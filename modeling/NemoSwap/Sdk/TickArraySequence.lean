import NemoSwap.Manager.SwapTermination
import NemoSwap.Sdk.TickUtil

set_option relaxedAutoImplicit false
set_option autoImplicit false

/-!
# `sdk/src/quotes/swap/tick-array-sequence.ts`: the tick arrays of a quote

The program walks through its arrays one by one. The SDK computes for every index the array and
the slot that hold it, walks from slot to slot across the arrays, and marks the arrays it reads.

## Main definitions

* `NemoSwap.Sdk.TickArrayIndex` — the array and the slot of an index.
* `NemoSwap.Sdk.TickArraySequence` — the arrays of a quote, and those that it has read.
* `NemoSwap.Sdk.TickArraySequence.findNextInitializedTickIndex` — the search across arrays.
* `NemoSwap.Sdk.TickArraySequence.Covers` — the arrays of a quote are those of a swap.

## Main results

* `NemoSwap.Sdk.TickArrayIndex.fromTickIndex_eq` — the slot of an index is its floor quotient.
* `NemoSwap.Sdk.TickArraySequence.find_of_getNextInitializedTickIndex` — what the search of the
  program finds, the search of the SDK finds.
* `NemoSwap.Sdk.TickArraySequence.new_covers` — the arrays that a quote is made with.

## Implementation notes

The slots of all arrays are numbered: slot `g` holds the index `g * tickSpacing`. The program
starts its search in an array anew from the last index of the array before; in slots it goes on
by one.
-/

namespace NemoSwap

namespace Sdk

/-- `SwapErrorCode`. -/
inductive SwapErrorCode
  | InvalidDevFeePercentage
  | InvalidSqrtPriceLimitDirection
  | SqrtPriceOutOfBounds
  | ZeroTradableAmount
  | AmountOutBelowMinimum
  | AmountInAboveMaximum
  | TickArrayCrossingAboveMax
  | TickArrayIndexNotInitialized
  | TickArraySequenceInvalid
  deriving DecidableEq, Repr

/-- What a quote throws. The fuel of a loop is never used up where the program's is not. -/
inductive QuoteError
  | swap (code : SwapErrorCode)
  | sdk (error : SdkError)
  | outOfFuel
  deriving DecidableEq, Repr

/-- A quote, or what it throws. -/
abbrev Quote (α : Type) : Type := Except QuoteError α

namespace Quote

/-- A function of the SDK that is called by a quote. -/
def lift {α : Type} (x : Except SdkError α) : Quote α := x.mapError .sdk

/-- A value that was not thrown is lifted as it is. -/
@[simp] lemma lift_ok {α : Type} (a : α) : lift (.ok a) = .ok a := rfl

/-- A quote goes on with the value of a step that has succeeded. -/
@[simp] lemma ok_bind {α β : Type} (a : α) (f : α → Quote β) :
    ((Except.ok a : Quote α) >>= f) = f a := rfl

/-- A returned value is a success. -/
@[simp] lemma pure_eq_ok {α : Type} (a : α) : (pure a : Quote α) = .ok a := rfl

end Quote

/-! ## The slot of an index -/

/-- `TickArrayIndex`. -/
structure TickArrayIndex where
  arrayIndex : ℤ
  offsetIndex : Fin tickArraySize
  tickSpacing : ℕ
  deriving DecidableEq

namespace TickArrayIndex

/-- The constructor of `TickArrayIndex`. -/
def new (arrayIndex offsetIndex : ℤ) (tickSpacing : ℕ) : Quote TickArrayIndex :=
  if h : offsetIndex < tickArraySize ∧ 0 ≤ offsetIndex then
    return ⟨arrayIndex, ⟨offsetIndex.toNat, by omega⟩, tickSpacing⟩
  else .error (.sdk .other)

/-- `TickArrayIndex.fromTickIndex`. The operator `%` keeps the sign of its left side. -/
def fromTickIndex (index : ℤ) (tickSpacing : ℕ) : Quote TickArrayIndex :=
  let arrayIndex := index / tickSpacing / tickArraySize
  let offsetIndex := index.tmod (tickSpacing * tickArraySize) / tickSpacing
  let offsetIndex := if offsetIndex < 0 then tickArraySize + offsetIndex else offsetIndex
  new arrayIndex offsetIndex tickSpacing

/-- `toTickIndex`. -/
def toTickIndex (self : TickArrayIndex) : ℤ :=
  self.arrayIndex * tickArraySize * self.tickSpacing + (self.offsetIndex : ℕ) * self.tickSpacing

/-- `toNextInitializableTickIndex`. -/
def toNextInitializableTickIndex (self : TickArrayIndex) : Quote TickArrayIndex :=
  fromTickIndex (self.toTickIndex + self.tickSpacing) self.tickSpacing

/-- `toPrevInitializableTickIndex`. -/
def toPrevInitializableTickIndex (self : TickArrayIndex) : Quote TickArrayIndex :=
  fromTickIndex (self.toTickIndex - self.tickSpacing) self.tickSpacing

end TickArrayIndex

/-! ## The arrays of a quote -/

/-- `TickArray` of the SDK: an address, and the data of its account if it exists. -/
structure TickArrayAccount (Address : Type) where
  address : Address
  data : Option TickArray

/-- `InitializedTickArray`. -/
structure InitializedTickArray (Address : Type) where
  address : Address
  data : TickArray

/-- `TickArraySequence`. -/
structure TickArraySequence (Address : Type) where
  sequence : List (InitializedTickArray Address)
  touchedArrays : List Bool
  startArrayIndex : ℤ
  tickSpacing : ℕ
  aToB : Bool

namespace TickArraySequence

variable {Address : Type}

/-- The loop of the constructor: the arrays before the first one that is not initialized. -/
def initializedArrays : List (TickArrayAccount Address) → List (InitializedTickArray Address)
  | [] => []
  | tickArray :: rest =>
    match tickArray.data with
    | none => []
    | some data => ⟨tickArray.address, data⟩ :: initializedArrays rest

/-- The constructor of `TickArraySequence`. -/
def new (tickArrays : List (TickArrayAccount Address)) (tickSpacing : ℕ) (aToB : Bool) :
    Quote (TickArraySequence Address) :=
  match initializedArrays tickArrays with
  | [] => .error (.sdk .other)
  | first :: rest => do
    let start ← TickArrayIndex.fromTickIndex first.data.startTickIndex tickSpacing
    return { sequence := first :: rest
             touchedArrays := List.replicate (rest.length + 1) false
             startArrayIndex := start.arrayIndex
             tickSpacing
             aToB }

/-- `checkIfIndexIsInTickArrayRange`. -/
def checkIfIndexIsInTickArrayRange (self : TickArraySequence Address) (startTick tickIndex : ℤ) :
    Bool :=
  let upperBound := startTick + self.tickSpacing * tickArraySize
  decide (tickIndex ≥ startTick) && decide (tickIndex < upperBound)

/-- `isValidTickArray0`. -/
def isValidTickArray0 (self : TickArraySequence Address) (tickCurrentIndex : ℤ) : Quote Bool :=
  let shift : ℤ := if self.aToB then 0 else self.tickSpacing
  match self.sequence with
  | [] => .error (.sdk .other)
  | tickArray :: _ =>
    return self.checkIfIndexIsInTickArrayRange tickArray.data.startTickIndex
      (tickCurrentIndex + shift)

/-- `getNumOfTouchedArrays`. -/
def getNumOfTouchedArrays (self : TickArraySequence Address) : ℕ :=
  (self.touchedArrays.filter fun touched => touched).length

/-- The `reduce` of `getTouchedArrays`: the addresses of the arrays that were read. -/
def touchedAddresses (self : TickArraySequence Address) : List Address :=
  ((self.sequence.zip self.touchedArrays).filter fun entry => entry.2).map fun entry =>
    entry.1.address

/-- `getTouchedArrays`. -/
def getTouchedArrays (self : TickArraySequence Address) (minArraySize : ℕ) : List Address :=
  let result := self.touchedAddresses
  match result.getLast? with
  | none => []
  | some last => result ++ List.replicate (minArraySize - result.length) last

/-- `getLocalArrayIndex`. -/
def getLocalArrayIndex (self : TickArraySequence Address) (arrayIndex : ℤ) : ℤ :=
  if self.aToB then self.startArrayIndex - arrayIndex else arrayIndex - self.startArrayIndex

/-- `isArrayIndexInBounds`. -/
def isArrayIndexInBounds (self : TickArraySequence Address) (index : TickArrayIndex) : Bool :=
  let localArrayIndex := self.getLocalArrayIndex index.arrayIndex
  decide (localArrayIndex ≥ 0) && decide (localArrayIndex < self.sequence.length)

/-- `getTick`. The array that it reads is marked. -/
def getTick (self : TickArraySequence Address) (index : ℤ) :
    Quote (Tick × TickArraySequence Address) := do
  let targetTaIndex ← TickArrayIndex.fromTickIndex index self.tickSpacing
  if !self.isArrayIndexInBounds targetTaIndex then .error (.sdk .other)
  else
    let localArrayIndex := (self.getLocalArrayIndex targetTaIndex.arrayIndex).toNat
    match self.sequence[localArrayIndex]? with
    | none => .error (.sdk .other)
    | some tickArray =>
      if !self.checkIfIndexIsInTickArrayRange tickArray.data.startTickIndex index then
        .error (.swap .TickArraySequenceInvalid)
      else return (tickArray.data.ticks targetTaIndex.offsetIndex,
        { self with touchedArrays := self.touchedArrays.set localArrayIndex true })

/-- The `while` loop of `findNextInitializedTickIndex`: the index where it ends, with the tick it
found there, if any. -/
def findLoop : ℕ → TickArrayIndex → TickArraySequence Address →
    Quote (TickArrayIndex × Option Tick × TickArraySequence Address)
  | 0, _, _ => .error .outOfFuel
  | count + 1, currTaIndex, self =>
    if self.isArrayIndexInBounds currTaIndex then do
      let (currTickData, self) ← self.getTick currTaIndex.toTickIndex
      if currTickData.initialized then return (currTaIndex, some currTickData, self)
      else do
        let currTaIndex ← (if self.aToB then currTaIndex.toPrevInitializableTickIndex
          else currTaIndex.toNextInitializableTickIndex)
        findLoop count currTaIndex self
    else return (currTaIndex, none, self)

/-- The index that `findNextInitializedTickIndex` returns from where its loop ended. -/
def nextIndex (self : TickArraySequence Address) (currTaIndex : TickArrayIndex)
    (tick : Option Tick) : ℤ :=
  match tick with
  | some _ => currTaIndex.toTickIndex
  | none =>
    max (min (if self.aToB then currTaIndex.toTickIndex + self.tickSpacing
      else currTaIndex.toTickIndex - 1) maxTickIndex) minTickIndex

/-- `findNextInitializedTickIndex`. -/
def findNextInitializedTickIndex (self : TickArraySequence Address) (currIndex : ℤ) :
    Quote (ℤ × Option Tick × TickArraySequence Address) := do
  let searchIndex := if self.aToB then currIndex else currIndex + self.tickSpacing
  let currTaIndex ← TickArrayIndex.fromTickIndex searchIndex self.tickSpacing
  if !self.isArrayIndexInBounds currTaIndex then .error (.swap .TickArraySequenceInvalid)
  else do
    let (currTaIndex, tick, sequence) ←
      findLoop (self.sequence.length * tickArraySize + 1) currTaIndex self
    return (self.nextIndex currTaIndex tick, tick, sequence)

end TickArraySequence

/-! ## Slots -/

namespace TickArrayIndex

variable {ts : ℕ}

/-- The slot `g`, counted over all arrays. -/
def ofSlot (g : ℤ) (tickSpacing : ℕ) : TickArrayIndex :=
  ⟨g / tickArraySize, ⟨(g % tickArraySize).toNat, by
    have hnonneg := Int.emod_nonneg g (show (tickArraySize : ℤ) ≠ 0 by decide)
    have hlt := Int.emod_lt_of_pos g (show (0 : ℤ) < tickArraySize by decide)
    omega⟩, tickSpacing⟩

/-- The array of a slot. -/
@[simp] lemma ofSlot_arrayIndex (g : ℤ) : (ofSlot g ts).arrayIndex = g / tickArraySize := rfl

/-- The spacing of a slot. -/
@[simp] lemma ofSlot_tickSpacing (g : ℤ) : (ofSlot g ts).tickSpacing = ts := rfl

/-- **The slot of an index is its floor quotient**, also below zero.

**Proof sketch.** The source truncates. Its remainder is the floor remainder for an index that is
not negative or a multiple of the size, and one array below it otherwise, which the source repairs
by adding an array. -/
theorem fromTickIndex_eq (hts : ts ≠ 0) (index : ℤ) :
    fromTickIndex index ts = .ok (ofSlot (index / ts) ts) := by
  have hpos : (0 : ℤ) < ts := by exact_mod_cast Nat.pos_of_ne_zero hts
  have hquot : ∀ q : ℤ, (index - ts * tickArraySize * q) / ts = index / ts - tickArraySize * q := by
    intro q
    rw [mul_assoc, Int.sub_mul_ediv_left _ _ hpos.ne']
  -- the remainder of the source is the floor remainder, or one array below it
  have hoffset : index.tmod (ts * tickArraySize) / ts = index / ts % tickArraySize ∨
      index.tmod (ts * tickArraySize) / ts = index / ts % tickArraySize - tickArraySize ∧
        index.tmod (ts * tickArraySize) / ts < 0 := by
    have hfloor : index / ts - tickArraySize * (index / (ts * tickArraySize)) =
        index / ts % tickArraySize := by
      rw [Int.emod_def, Int.ediv_ediv_of_nonneg hpos.le]
    have htdiv := Int.tmod_def index (ts * tickArraySize)
    rcases le_or_gt 0 index with h | h
    · left
      rw [htdiv, Int.tdiv_eq_ediv_of_nonneg h, hquot, hfloor]
    · by_cases hd : (ts * tickArraySize : ℤ) ∣ index
      · left
        rw [htdiv, Int.tdiv_eq_ediv_of_dvd hd, hquot, hfloor]
      · right
        have hneg : index.tmod (ts * tickArraySize) < 0 := by
          refine lt_of_le_of_ne ?_ fun h0 => hd (Int.dvd_of_tmod_eq_zero h0)
          have hneg := Int.tmod_nonneg (ts * tickArraySize) (neg_nonneg.2 h.le)
          rw [Int.neg_tmod] at hneg
          exact neg_nonneg.1 hneg
        refine ⟨?_, Int.ediv_neg_of_neg_of_pos hneg hpos⟩
        have hsign : (ts * tickArraySize : ℤ).sign = 1 := Int.sign_eq_one_of_pos (by positivity)
        rw [htdiv, Int.tdiv_eq_ediv, if_neg (not_or.2 ⟨not_le.2 h, hd⟩), hsign, hquot, ← hfloor]
        ring
  have hmod : 0 ≤ index / ts % tickArraySize ∧ index / ts % tickArraySize < tickArraySize :=
    ⟨Int.emod_nonneg _ (by decide), Int.emod_lt_of_pos _ (by decide)⟩
  have hfixed : (if index.tmod (ts * tickArraySize) / ts < 0 then
      tickArraySize + index.tmod (ts * tickArraySize) / ts
      else index.tmod (ts * tickArraySize) / ts) = index / ts % tickArraySize := by
    rcases hoffset with h | ⟨h, hneg⟩
    · rw [h, if_neg (not_lt.2 hmod.1)]
    · rw [if_pos hneg, h]
      ring
  unfold fromTickIndex
  simp only [hfixed]
  unfold new
  rw [dif_pos ⟨hmod.2, hmod.1⟩]
  rfl

/-- The tick of a slot is its number times the spacing. -/
@[simp] lemma toTickIndex_ofSlot (g : ℤ) : (ofSlot g ts).toTickIndex = g * ts := by
  have hmod : (((g % tickArraySize).toNat : ℕ) : ℤ) = g % tickArraySize :=
    Int.toNat_of_nonneg (Int.emod_nonneg _ (by decide))
  have hdiv := Int.mul_ediv_add_emod g tickArraySize
  unfold toTickIndex ofSlot
  simp only [hmod]
  calc g / tickArraySize * tickArraySize * ts + g % tickArraySize * ts
      = (tickArraySize * (g / tickArraySize) + g % tickArraySize) * ts := by ring
    _ = g * ts := by rw [hdiv]

/-- The next initializable tick is the one in the next slot. -/
lemma toNextInitializableTickIndex_ofSlot (hts : ts ≠ 0) (g : ℤ) :
    (ofSlot g ts).toNextInitializableTickIndex = .ok (ofSlot (g + 1) ts) := by
  have hpos : (ts : ℤ) ≠ 0 := by exact_mod_cast hts
  unfold toNextInitializableTickIndex
  rw [toTickIndex_ofSlot, ofSlot_tickSpacing, fromTickIndex_eq hts, ← add_one_mul,
    Int.mul_ediv_cancel _ hpos]

/-- The previous initializable tick is the one in the previous slot. -/
lemma toPrevInitializableTickIndex_ofSlot (hts : ts ≠ 0) (g : ℤ) :
    (ofSlot g ts).toPrevInitializableTickIndex = .ok (ofSlot (g - 1) ts) := by
  have hpos : (ts : ℤ) ≠ 0 := by exact_mod_cast hts
  unfold toPrevInitializableTickIndex
  rw [toTickIndex_ofSlot, ofSlot_tickSpacing, fromTickIndex_eq hts, ← sub_one_mul,
    Int.mul_ediv_cancel _ hpos]

/-- The slot of an offset in an array. -/
lemma ofSlot_mul_add (array : ℤ) (o : Fin tickArraySize) :
    ofSlot (array * tickArraySize + (o : ℕ)) ts = ⟨array, o, ts⟩ := by
  have hlt : ((o : ℕ) : ℤ) < tickArraySize := by exact_mod_cast o.isLt
  have hdiv : (array * tickArraySize + (o : ℕ)) / tickArraySize = array := by
    rw [add_comm, Int.add_mul_ediv_right _ _ (by decide),
      Int.ediv_eq_zero_of_lt (Int.natCast_nonneg _) hlt, zero_add]
  have hmod : (array * tickArraySize + (o : ℕ)) % tickArraySize = (o : ℕ) := by
    rw [add_comm, Int.add_mul_emod_self_right]
    exact Int.emod_eq_of_lt (Int.natCast_nonneg _) hlt
  unfold ofSlot
  simp only [hdiv, hmod, Int.toNat_natCast]

end TickArrayIndex

/-! ## The arrays of a quote and those of a swap -/

namespace TickArraySequence

variable {Address : Type} {self : TickArraySequence Address} {seq : SwapTickSequence}

/-- The quote that has read its first `m` arrays. -/
def touch (self : TickArraySequence Address) (m : ℕ) : TickArraySequence Address :=
  { self with touchedArrays := (List.range self.sequence.length).map fun k => decide (k < m) }

/-- What a quote reads in an array: where it starts, and of its ticks if they are initialized and
how they change the liquidity. -/
def outline (array : TickArray) : ℤ × (Fin tickArraySize → Bool × ℤ) :=
  (array.startTickIndex, fun o => ((array.ticks o).initialized, (array.ticks o).liquidityNet))

/-- The number of the array `k` among all arrays. -/
def arrayNumber (self : TickArraySequence Address) (k : ℕ) : ℤ :=
  if self.aToB then self.startArrayIndex - k else self.startArrayIndex + k

/-- The arrays of a quote are those of a swap: neighbours in its direction that the program has
created. -/
structure Covers (quote : TickArraySequence Address) (seq : SwapTickSequence) : Prop where
  spacing_ne_zero : quote.tickSpacing ≠ 0
  same : (quote.sequence.map fun tickArray => outline tickArray.data) = seq.map outline
  start : ∀ (k : ℕ) (array : TickArray), seq[k]? = some array →
    array.startTickIndex = quote.arrayNumber k * tickArraySize * quote.tickSpacing
  valid : seq.Valid quote.tickSpacing

/-- Both sequences have as many arrays. -/
lemma Covers.length_eq (h : self.Covers seq) : self.sequence.length = seq.length := by
  simpa using congrArg List.length h.same

/-- The array of a quote at a place is that of the swap, as far as the quote reads it. -/
lemma Covers.exists_data (h : self.Covers seq) {k : ℕ} {array : TickArray}
    (hk : seq[k]? = some array) :
    ∃ tickArray, self.sequence[k]? = some tickArray ∧ outline tickArray.data = outline array := by
  have hmap := congrArg (fun l => l[k]?) h.same
  simp only [List.getElem?_map, hk, Option.map_some, Option.map_eq_some_iff] at hmap
  exact hmap

/-- A quote covers every sequence of arrays that looks the same to it.

**Proof sketch.** What a quote asks of an array is its start and the flag and liquidity of its
ticks, and these are in the outline. -/
theorem Covers.congr (h : self.Covers seq) {seq' : SwapTickSequence}
    (hsame : seq'.map outline = seq.map outline) : self.Covers seq' := by
  have hmem : ∀ (k : ℕ) (array' : TickArray), seq'[k]? = some array' →
      ∃ array, seq[k]? = some array ∧ outline array' = outline array := by
    intro k array' hk
    have hmap := congrArg (fun l => l[k]?) hsame
    simp only [List.getElem?_map, hk, Option.map_some] at hmap
    obtain ⟨array, harray, he⟩ := Option.map_eq_some_iff.1 hmap.symm
    exact ⟨array, harray, he.symm⟩
  refine ⟨h.spacing_ne_zero, h.same.trans hsame.symm, ?_, ?_, ?_⟩
  · intro k array' hk
    obtain ⟨array, harray, he⟩ := hmem k array' hk
    exact (congrArg Prod.fst he).trans (h.start k array harray)
  · intro array' hmem'
    obtain ⟨k, hk⟩ := List.mem_iff_getElem?.1 hmem'
    obtain ⟨array, harray, he⟩ := hmem k array' hk
    rw [show array'.startTickIndex = array.startTickIndex from congrArg Prod.fst he]
    exact h.valid.starts array (List.mem_of_getElem? harray)
  · intro array' hmem' i hinit
    obtain ⟨k, hk⟩ := List.mem_iff_getElem?.1 hmem'
    obtain ⟨array, harray, he⟩ := hmem k array' hk
    have htick := congrArg Prod.fst (congrFun (congrArg Prod.snd he) i)
    rw [show array'.startTickIndex = array.startTickIndex from congrArg Prod.fst he]
    exact h.valid.usable array (List.mem_of_getElem? harray) i (htick.symm.trans hinit)

/-- The offset of an index in a slot of the array `k`. -/
theorem Covers.offset_eq (h : self.Covers seq) {k : ℕ} {array : TickArray}
    (hk : seq[k]? = some array) {n : ℤ} {o : Fin tickArraySize}
    (hslot : n / self.tickSpacing = self.arrayNumber k * tickArraySize + (o : ℕ)) :
    (n - array.startTickIndex) / self.tickSpacing = (o : ℕ) := by
  have hpos : (self.tickSpacing : ℤ) ≠ 0 := by exact_mod_cast h.spacing_ne_zero
  rw [h.start k array hk, show n - self.arrayNumber k * tickArraySize * self.tickSpacing =
      n + -(self.arrayNumber k * tickArraySize) * self.tickSpacing by ring,
    Int.add_mul_ediv_right _ _ hpos, hslot]
  ring

/-- The local index of an array is its place in the sequence. -/
lemma getLocalArrayIndex_arrayNumber (self : TickArraySequence Address) (k : ℕ) :
    self.getLocalArrayIndex (self.arrayNumber k) = k := by
  unfold getLocalArrayIndex arrayNumber
  split_ifs <;> ring

/-- Marking an array, when the ones before it are marked. -/
lemma set_touch {n k m : ℕ} (hkm : k ≤ m) :
    ((List.range n).map fun i => decide (i < m)).set k true =
      (List.range n).map fun i => decide (i < max m (k + 1)) := by
  refine List.ext_getElem (by simp) fun i h1 h2 => ?_
  rw [List.getElem_set]
  simp only [List.getElem_map, List.getElem_range]
  split_ifs with hik
  · exact (decide_eq_true (by omega)).symm
  · exact decide_eq_decide.2 (by omega)

/-- The arrays of a quote are those that it finds in bounds. -/
lemma isArrayIndexInBounds_arrayNumber (self : TickArraySequence Address) (k m ts : ℕ)
    (o : Fin tickArraySize) :
    (self.touch m).isArrayIndexInBounds ⟨self.arrayNumber k, o, ts⟩ =
      decide (k < self.sequence.length) := by
  have hlocal : (self.touch m).getLocalArrayIndex (self.arrayNumber k) = k :=
    getLocalArrayIndex_arrayNumber self k
  unfold isArrayIndexInBounds
  simp only [hlocal]
  rw [decide_eq_true (Int.natCast_nonneg k), Bool.true_and]
  exact decide_eq_decide.2 Nat.cast_lt

/-- Reading a tick of the array `k` marks this array.

**Proof sketch.** The index lies in the array `k` by its slot, so the local number of the array is
`k`, the bounds and the range are met, and what is read is the slot of the fetched array. -/
theorem getTick_touch (h : self.Covers seq) {k : ℕ} {array : TickArray}
    (hk : seq[k]? = some array) {index : ℤ} {o : Fin tickArraySize}
    (hslot : index / self.tickSpacing = self.arrayNumber k * tickArraySize + (o : ℕ)) :
    ∃ tick, (tick.initialized = (array.ticks o).initialized ∧
        tick.liquidityNet = (array.ticks o).liquidityNet) ∧
      ∀ m, k ≤ m → (self.touch m).getTick index = .ok (tick, self.touch (max m (k + 1))) := by
  have hpos : (0 : ℤ) < self.tickSpacing := by
    exact_mod_cast Nat.pos_of_ne_zero h.spacing_ne_zero
  obtain ⟨tickArray, hdata, hsame⟩ := h.exists_data hk
  obtain ⟨hlt, -⟩ := List.getElem?_eq_some_iff.1 hdata
  have htick := congrFun (congrArg Prod.snd hsame) o
  refine ⟨tickArray.data.ticks o, ⟨congrArg Prod.fst htick, congrArg Prod.snd htick⟩, ?_⟩
  intro m hkm
  have hindex : TickArrayIndex.fromTickIndex index self.tickSpacing =
      .ok ⟨self.arrayNumber k, o, self.tickSpacing⟩ := by
    rw [TickArrayIndex.fromTickIndex_eq h.spacing_ne_zero, hslot, TickArrayIndex.ofSlot_mul_add]
  have hlocal : (self.touch m).getLocalArrayIndex (self.arrayNumber k) = k :=
    getLocalArrayIndex_arrayNumber self k
  have hbounds : (self.touch m).isArrayIndexInBounds
      ⟨self.arrayNumber k, o, self.tickSpacing⟩ = true := by
    rw [isArrayIndexInBounds_arrayNumber]
    exact decide_eq_true hlt
  have hrange : (self.touch m).checkIfIndexIsInTickArrayRange tickArray.data.startTickIndex index =
      true := by
    have hstart : tickArray.data.startTickIndex =
        self.arrayNumber k * tickArraySize * self.tickSpacing :=
      (congrArg Prod.fst hsame).trans (h.start k array hk)
    have ho : ((o : ℕ) : ℤ) + 1 ≤ tickArraySize := by exact_mod_cast o.isLt
    have hle := Int.ediv_mul_le index hpos.ne'
    have hge := Int.lt_ediv_add_one_mul_self index hpos
    rw [hslot] at hle hge
    have ho0 := mul_nonneg (Int.natCast_nonneg (o : ℕ)) hpos.le
    have hotop := mul_le_mul_of_nonneg_right ho hpos.le
    change (decide (index ≥ tickArray.data.startTickIndex) &&
      decide (index < tickArray.data.startTickIndex + self.tickSpacing * tickArraySize)) = true
    rw [hstart, Bool.and_eq_true, decide_eq_true_eq, decide_eq_true_eq]
    constructor <;> linarith
  have hspacing : (self.touch m).tickSpacing = self.tickSpacing := rfl
  have hsequence : (self.touch m).sequence = self.sequence := rfl
  unfold getTick
  rw [hspacing, hindex, Quote.ok_bind]
  simp only [hbounds, hlocal, hsequence, Int.toNat_natCast, hdata, hrange, Bool.not_true,
    Bool.false_eq_true, if_false, Quote.pure_eq_ok, Except.ok.injEq, Prod.mk.injEq, true_and]
  unfold touch
  rw [← set_touch hkm]

/-! ## The search across arrays -/

/-- The number of slots of an array that a search passes from an offset on. -/
def slotsAhead (aToB : Bool) (o : ℤ) : ℕ :=
  if aToB then (o + 1).toNat else (tickArraySize - o).toNat

/-- The offsets at which a search can be in an array: those of its slots, and the one behind. -/
def OffsetIn (aToB : Bool) (o : ℤ) : Prop :=
  if aToB then -1 ≤ o ∧ o < tickArraySize else 0 ≤ o ∧ o ≤ tickArraySize

/-- The slot after the last slot of the array `k`. -/
def slotAfter (self : TickArraySequence Address) (k : ℕ) : ℤ :=
  if self.aToB then self.arrayNumber k * tickArraySize - 1
  else self.arrayNumber k * tickArraySize + tickArraySize

/-- The loop reads one slot of the array `k`: it ends there or goes on with the next slot.

**Proof sketch.** The index of the slot is in bounds, and reading its tick marks the array. The loop
ends if the tick is initialized, and otherwise the index moves by one in the direction of the
quote. -/
lemma findLoop_slot (h : self.Covers seq) {k : ℕ} {array : TickArray}
    (hk : seq[k]? = some array) (o : Fin tickArraySize) (fuel : ℕ) :
    ∃ tick, ∀ m, k ≤ m → findLoop (fuel + 1) (.ofSlot (self.arrayNumber k * tickArraySize + (o : ℕ))
        self.tickSpacing) (self.touch m) =
      if (array.ticks o).initialized then .ok (.ofSlot (self.arrayNumber k * tickArraySize +
        (o : ℕ)) self.tickSpacing, some tick, self.touch (max m (k + 1)))
      else findLoop fuel (.ofSlot (self.arrayNumber k * tickArraySize + (o : ℕ) +
        (if self.aToB then -1 else 1)) self.tickSpacing) (self.touch (max m (k + 1))) := by
  have hpos : (self.tickSpacing : ℤ) ≠ 0 := by exact_mod_cast h.spacing_ne_zero
  obtain ⟨hlt, -⟩ := List.getElem?_eq_some_iff.1 hk
  have hbounds : ∀ m, (self.touch m).isArrayIndexInBounds (.ofSlot (self.arrayNumber k *
      tickArraySize + (o : ℕ)) self.tickSpacing) = true := by
    intro m
    rw [TickArrayIndex.ofSlot_mul_add, isArrayIndexInBounds_arrayNumber, h.length_eq]
    exact decide_eq_true hlt
  have hslot : (self.arrayNumber k * tickArraySize + (o : ℕ)) * self.tickSpacing /
      self.tickSpacing = self.arrayNumber k * tickArraySize + (o : ℕ) :=
    Int.mul_ediv_cancel _ hpos
  obtain ⟨tick, ⟨hinit, -⟩, hget⟩ := getTick_touch h hk hslot
  have hdir : ∀ n, (self.touch n).aToB = self.aToB := fun _ => rfl
  refine ⟨tick, fun m hkm => ?_⟩
  rw [findLoop, if_pos (hbounds m), TickArrayIndex.toTickIndex_ofSlot, hget m hkm, Quote.ok_bind]
  simp only [hinit, hdir]
  split_ifs with hi hd
  · rfl
  · rw [TickArrayIndex.toPrevInitializableTickIndex_ofSlot h.spacing_ne_zero, Quote.ok_bind]
    rfl
  · rw [TickArrayIndex.toNextInitializableTickIndex_ofSlot h.spacing_ne_zero, Quote.ok_bind]

/-- Inside of an array, the loop does what the search of the program does.

**Proof sketch.** Induction on the fuel of the search of the program. Each step looks at one slot,
and ends or goes on to the next in both; behind the last slot the loop has as much fuel left as the
search has slots ahead. -/
lemma findLoop_searchOffset (h : self.Covers seq) {k m : ℕ} {array : TickArray}
    (hk : seq[k]? = some array) (hkm : k < m) (fuel : ℕ) :
    ∀ (count : ℕ) (o : ℤ), OffsetIn self.aToB o → slotsAhead self.aToB o ≤ count →
      match TickArray.searchOffset array.ticks self.aToB count o with
      | some j => ∃ tick, findLoop (fuel + slotsAhead self.aToB o)
          (.ofSlot (self.arrayNumber k * tickArraySize + o) self.tickSpacing) (self.touch m) =
        .ok (.ofSlot (self.arrayNumber k * tickArraySize + j) self.tickSpacing, some tick,
          self.touch m)
      | none => findLoop (fuel + slotsAhead self.aToB o)
          (.ofSlot (self.arrayNumber k * tickArraySize + o) self.tickSpacing) (self.touch m) =
        findLoop fuel (.ofSlot (self.slotAfter k) self.tickSpacing) (self.touch m) := by
  have hsize : (tickArraySize : ℤ) = 88 := rfl
  have hend : ∀ o, OffsetIn self.aToB o → slotsAhead self.aToB o = 0 →
      self.arrayNumber k * tickArraySize + o = self.slotAfter k := by
    intro o ho h0
    unfold OffsetIn slotsAhead slotAfter at *
    split_ifs at ho h0 ⊢ <;> omega
  intro count
  induction count with
  | zero =>
    intro o ho hsteps
    have h0 : slotsAhead self.aToB o = 0 := by omega
    rw [TickArray.searchOffset, h0, hend o ho h0]
    rfl
  | succ count ih =>
    intro o ho hsteps
    rw [TickArray.searchOffset]
    by_cases hin : o ≥ 0 ∧ o < tickArraySize
    · rw [dif_pos hin]
      have hnext : slotsAhead self.aToB o =
          slotsAhead self.aToB (if self.aToB then o - 1 else o + 1) + 1 := by
        unfold slotsAhead
        split_ifs <;> omega
      have ho' : OffsetIn self.aToB (if self.aToB then o - 1 else o + 1) := by
        unfold OffsetIn
        split_ifs <;> omega
      obtain ⟨tick, hslot⟩ := findLoop_slot h hk ⟨o.toNat, by omega⟩
        (fuel + slotsAhead self.aToB (if self.aToB then o - 1 else o + 1))
      replace hslot := hslot m hkm.le
      have hcast : (((⟨o.toNat, by omega⟩ : Fin tickArraySize) : ℕ) : ℤ) = o :=
        Int.toNat_of_nonneg hin.1
      rw [hcast, max_eq_left hkm] at hslot
      rw [hnext, ← add_assoc, hslot]
      by_cases hinit : (array.ticks ⟨o.toNat, by omega⟩).initialized = true
      · rw [if_pos hinit]
        exact ⟨tick, if_pos hinit⟩
      · rw [if_neg hinit, if_neg hinit]
        have hstep : self.arrayNumber k * tickArraySize + o + (if self.aToB then -1 else 1) =
            self.arrayNumber k * tickArraySize + (if self.aToB then o - 1 else o + 1) := by
          split_ifs <;> ring
        rw [hstep]
        exact ih _ ho' (by omega)
    · rw [dif_neg hin]
      have h0 : slotsAhead self.aToB o = 0 := by
        unfold OffsetIn slotsAhead at *
        split_ifs at ho ⊢ <;> omega
      rw [h0, hend o ho h0]
      rfl

/-- Whether the array is marked before its slot is read makes no difference. -/
lemma findLoop_touch (h : self.Covers seq) {k m : ℕ} {array : TickArray}
    (hk : seq[k]? = some array) (hkm : k ≤ m) (o : Fin tickArraySize) (fuel : ℕ) :
    findLoop (fuel + 1) (.ofSlot (self.arrayNumber k * tickArraySize + (o : ℕ)) self.tickSpacing)
        (self.touch m) =
      findLoop (fuel + 1) (.ofSlot (self.arrayNumber k * tickArraySize + (o : ℕ)) self.tickSpacing)
        (self.touch (max m (k + 1))) := by
  obtain ⟨tick, hslot⟩ := findLoop_slot h hk o fuel
  rw [hslot m hkm, hslot (max m (k + 1)) (by omega), max_eq_left (le_max_right m (k + 1))]

/-- The index from which a quote searches. -/
def searchIndex (aToB : Bool) (tickSpacing : ℕ) (idx : ℤ) : ℤ :=
  if aToB then idx else idx + tickSpacing

/-- The search of the program in the array `k`, in slots.

**Proof sketch.** The program searches from the offset of the index, and the quote from the slot of
the index that it has shifted by one to the right. Both are the floor quotient, so the searches
start at one slot. -/
lemma getNextInitTickIndex_slot (h : self.Covers seq) {k : ℕ} {array : TickArray}
    (hk : seq[k]? = some array) {idx : ℤ} {r : Option ℤ}
    (hr : array.getNextInitTickIndex idx self.tickSpacing self.aToB = .ok r) :
    ∃ o : Fin tickArraySize, searchIndex self.aToB self.tickSpacing idx / self.tickSpacing =
        self.arrayNumber k * tickArraySize + (o : ℕ) ∧
      r = (TickArray.searchOffset array.ticks self.aToB (tickArraySize + 1) (o : ℕ)).map
        fun j => (self.arrayNumber k * tickArraySize + j) * self.tickSpacing := by
  have hpos : (0 : ℤ) < self.tickSpacing := by
    exact_mod_cast Nat.pos_of_ne_zero h.spacing_ne_zero
  obtain ⟨-, hrange, -⟩ := TickArray.getNextInitTickIndex_eq_ok hr
  have hstart := h.start k array hk
  unfold TickArray.getNextInitTickIndex TickArray.tickOffset at hr
  rw [hrange, if_neg h.spacing_ne_zero, TickArray.getOffset_eq _ _ h.spacing_ne_zero] at hr
  simp only [Bool.not_true, Bool.false_eq_true, if_false, Res.ok_bind, Res.pure_eq_ok,
    Except.ok.injEq] at hr
  rw [TickArray.inSearchRange_iff] at hrange
  -- the offset of the program is that of the index from which the quote searches
  obtain ⟨o, ho⟩ : ∃ o, o = (searchIndex self.aToB self.tickSpacing idx - array.startTickIndex) /
    self.tickSpacing := ⟨_, rfl⟩
  have hoffset : (if (!self.aToB) = true then
      (idx - array.startTickIndex) / self.tickSpacing + 1
      else (idx - array.startTickIndex) / self.tickSpacing) = o := by
    rw [ho]
    unfold searchIndex
    cases self.aToB
    · simp only [Bool.not_false, if_true, Bool.false_eq_true, if_false]
      rw [show idx + (self.tickSpacing : ℤ) - array.startTickIndex =
          idx - array.startTickIndex + 1 * self.tickSpacing by ring,
        Int.add_mul_ediv_right _ _ hpos.ne']
    · rfl
  have hslot : searchIndex self.aToB self.tickSpacing idx / self.tickSpacing =
      self.arrayNumber k * tickArraySize + o := by
    rw [ho, hstart, show searchIndex self.aToB self.tickSpacing idx -
        self.arrayNumber k * tickArraySize * self.tickSpacing =
          searchIndex self.aToB self.tickSpacing idx +
            -(self.arrayNumber k * tickArraySize) * self.tickSpacing by ring,
      Int.add_mul_ediv_right _ _ hpos.ne']
    ring
  have hin : 0 ≤ o ∧ o < tickArraySize := by
    rw [ho, Int.le_ediv_iff_mul_le hpos, Int.ediv_lt_iff_lt_mul hpos]
    unfold searchIndex
    cases hd : self.aToB <;> rw [hd] at hrange <;>
      simp only [Bool.not_true, Bool.not_false, Bool.false_eq_true, if_true, if_false] at hrange ⊢ <;>
        omega
  have hcast : ((o.toNat : ℕ) : ℤ) = o := Int.toNat_of_nonneg hin.1
  refine ⟨⟨o.toNat, by omega⟩, ?_, ?_⟩
  · rw [hcast]
    exact hslot
  · rw [hcast, ← hr, hoffset]
    congr 1
    funext j
    rw [hstart]
    ring

/-- The slot after the array `k` is the first slot of the next array. -/
lemma slotAfter_eq (self : TickArraySequence Address) (k : ℕ) :
    ∃ o : Fin tickArraySize,
      self.slotAfter k = self.arrayNumber (k + 1) * tickArraySize + (o : ℕ) := by
  unfold slotAfter arrayNumber
  cases self.aToB
  · refine ⟨⟨0, by decide⟩, ?_⟩
    simp only [Bool.false_eq_true, if_false]
    push_cast
    ring
  · refine ⟨⟨87, by decide⟩, ?_⟩
    simp only [if_true]
    push_cast
    ring

/-- Behind the last array the loop ends. -/
lemma findLoop_end (h : self.Covers seq) {k : ℕ} (hk : k + 1 = seq.length) (fuel m : ℕ) :
    findLoop (fuel + 1) (.ofSlot (self.slotAfter k) self.tickSpacing) (self.touch m) =
      .ok (.ofSlot (self.slotAfter k) self.tickSpacing, none, self.touch m) := by
  obtain ⟨o, ho⟩ := slotAfter_eq self k
  have hout : (self.touch m).isArrayIndexInBounds
      (.ofSlot (self.slotAfter k) self.tickSpacing) = false := by
    rw [ho, TickArrayIndex.ofSlot_mul_add, isArrayIndexInBounds_arrayNumber, h.length_eq]
    exact decide_eq_false (by omega)
  rw [findLoop, if_neg (by rw [hout]; exact Bool.false_ne_true)]
  rfl

/-- The index that a quote returns behind the array `k`.

**Proof sketch.** By the direction. The slot behind the array is the first one of its neighbour, and
the index is cut off at the end of the tick range. -/
lemma nextIndex_slotAfter (h : self.Covers seq) {k : ℕ} {array : TickArray}
    (hk : seq[k]? = some array) :
    self.nextIndex (.ofSlot (self.slotAfter k) self.tickSpacing) none =
      if self.aToB && array.isMinTickArray then minTickIndex
      else if !self.aToB && array.isMaxTickArray self.tickSpacing then maxTickIndex
      else SwapTickSequence.edge self.aToB self.tickSpacing array := by
  have hstart := h.start k array hk
  obtain ⟨hmax, hmin⟩ :=
    SwapTickSequence.validStart_bounds (h.valid.starts array (List.mem_of_getElem? hk))
  unfold nextIndex slotAfter SwapTickSequence.edge TickArray.isMinTickArray TickArray.isMaxTickArray
  rw [TickArrayIndex.toTickIndex_ofSlot]
  cases self.aToB with
  | true =>
    have hedge : (self.arrayNumber k * tickArraySize - 1) * (self.tickSpacing : ℤ) +
        self.tickSpacing = array.startTickIndex := by
      rw [hstart]
      ring
    simp only [if_true, Bool.true_and, Bool.not_true, Bool.false_and, Bool.false_eq_true, if_false,
      decide_eq_true_eq, hedge]
    rw [min_eq_left hmax]
    split_ifs with hle
    · exact max_eq_right hle
    · exact max_eq_left (not_le.1 hle).le
  | false =>
    have hedge : (self.arrayNumber k * tickArraySize + tickArraySize) * (self.tickSpacing : ℤ) - 1 =
        array.startTickIndex + tickArraySize * self.tickSpacing - 1 := by
      rw [hstart]
      ring
    simp only [Bool.false_eq_true, if_false, Bool.false_and, Bool.not_false, Bool.true_and,
      decide_eq_true_eq, hedge]
    split_ifs with hlast
    · rw [min_eq_right (by omega)]
      decide
    · rw [min_eq_left (by omega), max_eq_left (by omega)]

/-- An array with a successor is not the last one of the tick range.

**Proof sketch.** By the direction. The successor starts one array further and reaches into the tick
range, so this array does not reach beyond the end. -/
lemma Covers.inner (h : self.Covers seq) {k : ℕ} {array next : TickArray}
    (hk : seq[k]? = some array) (hnext : seq[k + 1]? = some next) :
    (self.aToB && array.isMinTickArray) = false ∧
      (!self.aToB && array.isMaxTickArray self.tickSpacing) = false := by
  have hstart := h.start k array hk
  have hstart' := h.start (k + 1) next hnext
  obtain ⟨hmax, hmin⟩ :=
    SwapTickSequence.validStart_bounds (h.valid.starts next (List.mem_of_getElem? hnext))
  unfold arrayNumber at hstart hstart'
  unfold TickArray.isMinTickArray TickArray.isMaxTickArray
  cases hd : self.aToB with
  | true =>
    rw [hd, if_pos rfl] at hstart hstart'
    have hadj : next.startTickIndex + tickArraySize * self.tickSpacing = array.startTickIndex := by
      rw [hstart, hstart']
      push_cast
      ring
    refine ⟨?_, rfl⟩
    rw [Bool.true_and]
    exact decide_eq_false (by omega)
  | false =>
    rw [hd, if_neg Bool.false_ne_true] at hstart hstart'
    have hadj : next.startTickIndex = array.startTickIndex + tickArraySize * self.tickSpacing := by
      rw [hstart, hstart']
      push_cast
      ring
    refine ⟨rfl, ?_⟩
    rw [Bool.not_false, Bool.true_and]
    exact decide_eq_false (by omega)

/-- The program goes on in the next array where the slots go on. -/
lemma searchIndex_next (h : self.Covers seq) {k : ℕ} {array : TickArray}
    (hk : seq[k]? = some array) :
    searchIndex self.aToB self.tickSpacing (if self.aToB then array.startTickIndex - 1
      else array.startTickIndex + tickArraySize * self.tickSpacing - 1) / self.tickSpacing =
        self.slotAfter k := by
  have hpos : (0 : ℤ) < self.tickSpacing := by
    exact_mod_cast Nat.pos_of_ne_zero h.spacing_ne_zero
  have hstart := h.start k array hk
  unfold searchIndex slotAfter
  cases self.aToB with
  | true =>
    simp only [if_true]
    rw [hstart, Int.ediv_eq_iff_of_pos hpos]
    constructor <;> nlinarith
  | false =>
    simp only [Bool.false_eq_true, if_false]
    rw [hstart, Int.ediv_eq_iff_of_pos hpos]
    constructor <;> nlinarith

/-- What a search ends with in the array `j`: the bound of the tick range, an initialized tick, or
an index whose slot is not initialized. -/
def Found (self : TickArraySequence Address) (seq : SwapTickSequence) (j : ℕ) (n : ℤ) : Prop :=
  ∃ array, seq[j]? = some array ∧ ∃ o : Fin tickArraySize,
    n / self.tickSpacing = self.arrayNumber j * tickArraySize + (o : ℕ) ∧
      (n = SwapTickSequence.tickBound self.aToB ∨
        (array.ticks o).initialized = true ∧
          n = array.startTickIndex + (o : ℕ) * self.tickSpacing ∨
        (array.ticks o).initialized = false)

/-- An index between the start and the end of the array `k` is in one of its slots. -/
lemma exists_slot (h : self.Covers seq) {k : ℕ} {array : TickArray} (hk : seq[k]? = some array)
    {n : ℤ} (hlo : array.startTickIndex ≤ n)
    (hhi : n < array.startTickIndex + tickArraySize * self.tickSpacing) :
    ∃ o : Fin tickArraySize, n / self.tickSpacing = self.arrayNumber k * tickArraySize + (o : ℕ) ∧
      ((o : ℕ) : ℤ) = (n - array.startTickIndex) / self.tickSpacing := by
  have hpos : (0 : ℤ) < self.tickSpacing := by
    exact_mod_cast Nat.pos_of_ne_zero h.spacing_ne_zero
  have hstart := h.start k array hk
  obtain ⟨o, ho⟩ : ∃ o, o = (n - array.startTickIndex) / self.tickSpacing := ⟨_, rfl⟩
  have hin : 0 ≤ o ∧ o < tickArraySize := by
    rw [ho, Int.le_ediv_iff_mul_le hpos, Int.ediv_lt_iff_lt_mul hpos]
    constructor <;> linarith
  have hcast : ((o.toNat : ℕ) : ℤ) = o := Int.toNat_of_nonneg hin.1
  refine ⟨⟨o.toNat, by omega⟩, ?_, hcast.trans ho⟩
  rw [hcast, ho, hstart, show n - self.arrayNumber k * tickArraySize * self.tickSpacing =
      n + -(self.arrayNumber k * tickArraySize) * self.tickSpacing by ring,
    Int.add_mul_ediv_right _ _ hpos.ne']
  ring

/-- What a search finds inside of an array is initialized.

**Proof sketch.** By the direction. The offset that the search returns is that of a slot, and its
flag is set. -/
lemma found_slot (h : self.Covers seq) {k : ℕ} {array : TickArray} (hk : seq[k]? = some array)
    {o : Fin tickArraySize} {i : ℤ}
    (hfound : TickArray.searchOffset array.ticks self.aToB (tickArraySize + 1) (o : ℕ) = some i) :
    self.Found seq k ((self.arrayNumber k * tickArraySize + i) * self.tickSpacing) := by
  have hpos : (self.tickSpacing : ℤ) ≠ 0 := by exact_mod_cast h.spacing_ne_zero
  have hlt : ((o : ℕ) : ℤ) < tickArraySize := by exact_mod_cast o.isLt
  have hsize : (tickArraySize : ℤ) = 88 := rfl
  obtain ⟨x, rfl, hx, hinit⟩ : ∃ x : ℕ, i = x ∧ x < tickArraySize ∧
      (array.slot x).initialized = true := by
    cases hd : self.aToB with
    | true =>
      have hleft := TickArray.searchOffset_left array (tickArraySize + 1) (o : ℕ)
        (by omega) hlt (by push_cast; omega)
      rw [hd] at hfound
      rw [hfound] at hleft
      obtain ⟨x, hi, hx, -, hinit, -⟩ := hleft
      exact ⟨x, hi, hx, hinit⟩
    | false =>
      have hright := TickArray.searchOffset_right array (tickArraySize + 1) (o : ℕ)
        (by omega) (by push_cast; omega)
      rw [hd] at hfound
      rw [hfound] at hright
      obtain ⟨x, hi, hx, -, hinit, -⟩ := hright
      exact ⟨x, hi, hx, hinit⟩
  rw [TickArray.slot, dif_pos hx] at hinit
  refine ⟨array, hk, ⟨x, hx⟩, Int.mul_ediv_cancel _ hpos, Or.inr (Or.inl ⟨hinit, ?_⟩)⟩
  rw [h.start k array hk]
  ring

/-- What a search ends with behind an array in which it finds nothing.

**Proof sketch.** By the direction. The index is the last slot of the array to the left, the first
slot of the next array to the right, or the end of the tick range. -/
lemma found_slotAfter (h : self.Covers seq) {k : ℕ} {array : TickArray}
    (hk : seq[k]? = some array) {o : Fin tickArraySize}
    (hnone : TickArray.searchOffset array.ticks self.aToB (tickArraySize + 1) (o : ℕ) = none) :
    self.Found seq k (self.nextIndex (.ofSlot (self.slotAfter k) self.tickSpacing) none) := by
  have hpos : (0 : ℤ) < self.tickSpacing := by
    exact_mod_cast Nat.pos_of_ne_zero h.spacing_ne_zero
  have hlt : ((o : ℕ) : ℤ) < tickArraySize := by exact_mod_cast o.isLt
  obtain ⟨hmax, hmin⟩ :=
    SwapTickSequence.validStart_bounds (h.valid.starts array (List.mem_of_getElem? hk))
  have hsize : (tickArraySize : ℤ) = 88 := rfl
  rw [nextIndex_slotAfter h hk]
  unfold TickArray.isMinTickArray TickArray.isMaxTickArray SwapTickSequence.edge
  cases hd : self.aToB with
  | true =>
    simp only [Bool.true_and, Bool.not_true, Bool.false_and, Bool.false_eq_true, if_false, if_true,
      decide_eq_true_eq]
    split_ifs with hle
    · obtain ⟨x, hx, -⟩ := exists_slot h hk hle hmin
      exact ⟨array, hk, x, hx, Or.inl (by rw [hd]; rfl)⟩
    · obtain ⟨x, hx, hx0⟩ := exists_slot h hk le_rfl (by nlinarith)
      rw [sub_self, Int.zero_ediv] at hx0
      have hleft := TickArray.searchOffset_left array (tickArraySize + 1) (o : ℕ)
        (by omega) hlt (by push_cast; omega)
      rw [hd] at hnone
      rw [hnone] at hleft
      have hdark := hleft x (by omega)
      rw [TickArray.slot, dif_pos x.isLt] at hdark
      exact ⟨array, hk, x, hx, Or.inr (Or.inr hdark)⟩
  | false =>
    simp only [Bool.false_and, Bool.false_eq_true, if_false, Bool.not_false, Bool.true_and,
      decide_eq_true_eq]
    split_ifs with hlast
    · obtain ⟨x, hx, -⟩ := exists_slot h hk hmax hlast
      exact ⟨array, hk, x, hx, Or.inl (by rw [hd]; rfl)⟩
    · obtain ⟨x, hx, hx0⟩ := exists_slot h hk (n := array.startTickIndex +
        tickArraySize * self.tickSpacing - 1) (by nlinarith) (by omega)
      have h87 : ((x : ℕ) : ℤ) = 87 := by
        rw [hx0, Int.ediv_eq_iff_of_pos hpos, hsize]
        constructor <;> linarith
      have hright := TickArray.searchOffset_right array (tickArraySize + 1) (o : ℕ)
        (by omega) (by push_cast; omega)
      rw [hd] at hnone
      rw [hnone] at hright
      have hdark := hright x (by rw [h87]; omega)
      rw [TickArray.slot, dif_pos x.isLt] at hdark
      exact ⟨array, hk, x, hx, Or.inr (Or.inr hdark)⟩

/-- **The search across arrays**: where the program finds an index, the loop ends at it, and has
marked the arrays up to the one that the program ended in.

**Proof sketch.** Induction on the arrays that are left. If the search finds a slot in the first
one, the loop does so by `findLoop_searchOffset`. If not, both end if there is no next array, and
otherwise go on in it, which the loop marks as read. -/
theorem findLoop_of_searchArrays (h : self.Covers seq) {j : ℕ} {n : ℤ} :
    ∀ (rest : SwapTickSequence) (k : ℕ) (idx : ℤ) (m fuel : ℕ), seq.drop k = rest → k ≤ m →
      rest.length * tickArraySize + 1 ≤ fuel →
      SwapTickSequence.searchArrays self.tickSpacing self.aToB rest k idx = .ok (j, n) →
      (k ≤ j ∧ self.Found seq j n) ∧ ∃ last tick,
        findLoop fuel (.ofSlot (searchIndex self.aToB self.tickSpacing idx / self.tickSpacing)
          self.tickSpacing) (self.touch m) = .ok (last, tick, self.touch (max m (j + 1))) ∧
        self.nextIndex last tick = n
  | [], _, _, _, _, _, _, _, hsearch => by simp [SwapTickSequence.searchArrays] at hsearch
  | array :: rest, k, idx, m, fuel, hdrop, hkm, hfuel, hsearch => by
    have hk : seq[k]? = some array := by
      rw [← Nat.add_zero k, ← List.getElem?_drop, hdrop]
      rfl
    obtain ⟨hklt, -⟩ := List.getElem?_eq_some_iff.1 hk
    have hrest : seq.drop (k + 1) = rest := by
      rw [← List.drop_drop, hdrop]
      rfl
    rw [SwapTickSequence.searchArrays, Res.bind_eq_ok] at hsearch
    obtain ⟨r, hr, hsearch⟩ := hsearch
    obtain ⟨o, hslot, rfl⟩ := getNextInitTickIndex_slot h hk hr
    -- the fuel that is left behind this array
    have hlt := o.isLt
    have hahead : 1 ≤ slotsAhead self.aToB (o : ℕ) ∧
        slotsAhead self.aToB (o : ℕ) ≤ tickArraySize := by
      unfold slotsAhead
      split_ifs <;> omega
    have hoffset : OffsetIn self.aToB (o : ℕ) := by
      unfold OffsetIn
      split_ifs <;> omega
    rw [List.length_cons, add_one_mul] at hfuel
    obtain ⟨left, hleft, rfl⟩ : ∃ left, rest.length * tickArraySize + 1 ≤ left ∧
        fuel = left + slotsAhead self.aToB (o : ℕ) :=
      ⟨fuel - slotsAhead self.aToB (o : ℕ), by omega, by omega⟩
    have hfirst : findLoop (left + slotsAhead self.aToB (o : ℕ))
        (.ofSlot (self.arrayNumber k * tickArraySize + (o : ℕ)) self.tickSpacing) (self.touch m) =
      findLoop (left + slotsAhead self.aToB (o : ℕ))
        (.ofSlot (self.arrayNumber k * tickArraySize + (o : ℕ)) self.tickSpacing)
          (self.touch (max m (k + 1))) := by
      obtain ⟨fuel, hf⟩ : ∃ fuel, left + slotsAhead self.aToB (o : ℕ) = fuel + 1 :=
        ⟨left + slotsAhead self.aToB (o : ℕ) - 1, by omega⟩
      rw [hf]
      exact findLoop_touch h hk hkm o fuel
    have hloop := findLoop_searchOffset h hk (m := max m (k + 1)) (by omega) left
      (tickArraySize + 1) (o : ℕ) hoffset (by omega)
    rw [hslot, hfirst]
    cases hfound : TickArray.searchOffset array.ticks self.aToB (tickArraySize + 1) (o : ℕ) with
    | some i =>
      rw [hfound] at hloop hsearch
      simp only [Option.map_some, Res.pure_eq_ok, Except.ok.injEq, Prod.mk.injEq] at hsearch
      obtain ⟨rfl, rfl⟩ := hsearch
      obtain ⟨tick, hloop⟩ := hloop
      exact ⟨⟨le_rfl, found_slot h hk hfound⟩, _, _, hloop, TickArrayIndex.toTickIndex_ofSlot _⟩
    | none =>
      rw [hfound] at hloop hsearch
      simp only [Option.map_none] at hsearch
      rw [hloop]
      cases rest with
      | nil =>
        have hend := nextIndex_slotAfter h hk
        have hlength : k + 1 = seq.length := by
          have := List.drop_eq_nil_iff.1 hrest
          omega
        have hresult : j = k ∧
            self.nextIndex (.ofSlot (self.slotAfter k) self.tickSpacing) none = n := by
          unfold SwapTickSequence.edge at hend
          rw [hend]
          simp only [if_true, Res.pure_eq_ok] at hsearch
          split_ifs at hsearch ⊢ <;>
            · rw [Except.ok.injEq, Prod.mk.injEq] at hsearch
              exact ⟨hsearch.1.symm, hsearch.2⟩
        obtain ⟨rfl, hn⟩ := hresult
        obtain ⟨f, rfl⟩ : ∃ f, left = f + 1 := ⟨left - 1, by omega⟩
        exact ⟨⟨le_rfl, hn ▸ found_slotAfter h hk hfound⟩, _, _, findLoop_end h hlength f _, hn⟩
      | cons next rest' =>
        have hnext : seq[k + 1]? = some next := by
          rw [← Nat.add_zero (k + 1), ← List.getElem?_drop, hrest]
          rfl
        obtain ⟨hmin, hmax⟩ := h.inner hk hnext
        rw [hmin, hmax, if_neg Bool.false_ne_true, if_neg Bool.false_ne_true,
          if_neg (List.cons_ne_nil next rest')] at hsearch
        obtain ⟨⟨hkj, hat⟩, last, tick, hgo, hn⟩ := findLoop_of_searchArrays h (next :: rest') (k + 1) _
          (max m (k + 1)) left hrest (le_max_right _ _) hleft hsearch
        rw [searchIndex_next h hk, max_assoc, max_eq_right (show k + 1 ≤ j + 1 by omega)] at hgo
        exact ⟨⟨by omega, hat⟩, last, tick, hgo, hn⟩

/-- **What the search of the program finds, the search of the SDK finds**, and it has read the
arrays up to the one that the program ended in.

**Proof sketch.** The search of the program starts in the array that has the index, where the loop
starts as well, and the loop has fuel for every slot of the arrays that are left. -/
theorem find_of_getNextInitializedTickIndex (h : self.Covers seq) {idx : ℤ} {k j m : ℕ} {n : ℤ}
    (hkm : k ≤ m) (hsearch : seq.getNextInitializedTickIndex idx self.tickSpacing self.aToB k =
      .ok (j, n)) :
    k ≤ j ∧ self.Found seq j n ∧ ∃ tick, (self.touch m).findNextInitializedTickIndex idx =
      .ok (n, tick, self.touch (max m (j + 1))) := by
  unfold SwapTickSequence.getNextInitializedTickIndex at hsearch
  have hlength := h.length_eq
  have hfuel : (seq.drop k).length * tickArraySize + 1 ≤
      self.sequence.length * tickArraySize + 1 := by
    rw [hlength, List.length_drop]
    exact Nat.succ_le_succ (Nat.mul_le_mul_right _ (Nat.sub_le _ _))
  obtain ⟨hj, last, tick, hloop, hn⟩ := findLoop_of_searchArrays h (seq.drop k) k idx m
    (self.sequence.length * tickArraySize + 1) rfl hkm hfuel hsearch
  have hbounds : (self.touch m).isArrayIndexInBounds
      (.ofSlot (searchIndex self.aToB self.tickSpacing idx / self.tickSpacing) self.tickSpacing) =
        true := by
    cases hdrop : seq.drop k with
    | nil =>
      rw [hdrop] at hsearch
      simp [SwapTickSequence.searchArrays] at hsearch
    | cons array rest =>
      have hk : seq[k]? = some array := by
        rw [← Nat.add_zero k, ← List.getElem?_drop, hdrop]
        rfl
      rw [hdrop, SwapTickSequence.searchArrays, Res.bind_eq_ok] at hsearch
      obtain ⟨r, hr, -⟩ := hsearch
      obtain ⟨o, hslot, -⟩ := getNextInitTickIndex_slot h hk hr
      obtain ⟨hklt, -⟩ := List.getElem?_eq_some_iff.1 hk
      rw [hslot, TickArrayIndex.ofSlot_mul_add, isArrayIndexInBounds_arrayNumber]
      exact decide_eq_true (by omega)
  refine ⟨hj.1, hj.2, tick, ?_⟩
  have hdir : (self.touch m).aToB = self.aToB := rfl
  have hspacing : (self.touch m).tickSpacing = self.tickSpacing := rfl
  have hsequence : (self.touch m).sequence = self.sequence := rfl
  unfold findNextInitializedTickIndex
  simp only [hdir, hspacing, hsequence]
  unfold searchIndex at hloop hbounds
  rw [TickArrayIndex.fromTickIndex_eq h.spacing_ne_zero, Quote.ok_bind, hbounds, Bool.not_true,
    if_neg Bool.false_ne_true, hloop, Quote.ok_bind, ← hn]
  rfl

/-! ## The arrays that a quote is made with -/

/-- A quote on neighbouring arrays that the program has created covers them, and has read none.

**Proof sketch.** The first array gives the number from which the quote counts. The others follow it
in the direction of the swap, so they have the numbers after it. -/
theorem new_covers {ts : ℕ} {aToB : Bool} {tickArrays : List (TickArrayAccount Address)}
    {first : ℤ} (hne : initializedArrays tickArrays ≠ [])
    (hstart : ∀ (k : ℕ) (tickArray : InitializedTickArray Address),
      (initializedArrays tickArrays)[k]? = some tickArray → tickArray.data.startTickIndex =
        first + (if aToB then -(k : ℤ) else k) * (tickArraySize * ts))
    (hvalid : SwapTickSequence.Valid ((initializedArrays tickArrays).map
      InitializedTickArray.data) ts) :
    ∃ quote, new tickArrays ts aToB = .ok quote ∧ quote.touch 0 = quote ∧
      (quote.tickSpacing = ts ∧ quote.aToB = aToB ∧
        quote.sequence = initializedArrays tickArrays) ∧
      quote.Covers ((initializedArrays tickArrays).map InitializedTickArray.data) := by
  unfold new
  cases hlist : initializedArrays tickArrays with
  | nil => exact absurd hlist hne
  | cons head rest =>
    rw [hlist] at hstart hvalid
    have hhead := hvalid.starts head.data (by simp)
    obtain ⟨hts, q, hq⟩ := Tick.checkIsValidStartTick_dvd hhead
    rw [Nat.cast_mul] at hq
    have hpos : (0 : ℤ) < ts := by exact_mod_cast Nat.pos_of_ne_zero hts
    have hfirst : head.data.startTickIndex = first := by simpa using hstart 0 head rfl
    have hnumber : head.data.startTickIndex / ts / tickArraySize = q := by
      rw [Int.ediv_ediv_of_nonneg hpos.le, hq, mul_comm (tickArraySize : ℤ) ts]
      exact Int.mul_ediv_cancel_left q (by positivity)
    simp only
    rw [TickArrayIndex.fromTickIndex_eq hts, Quote.ok_bind]
    refine ⟨_, rfl, ?_, ⟨rfl, rfl, rfl⟩, hts, ?_, ?_, hvalid⟩
    · unfold touch
      simp
    · simp
    · intro k array hk
      obtain ⟨tickArray, htickArray, rfl⟩ := by
        simpa only [List.getElem?_map, Option.map_eq_some_iff] using hk
      unfold arrayNumber
      simp only [TickArrayIndex.ofSlot_arrayIndex, hnumber]
      rw [hstart k tickArray htickArray, ← hfirst, hq]
      cases aToB
      · simp only [Bool.false_eq_true, if_false]
        ring
      · simp only [if_true]
        ring

/-- The arrays of a quote are the first ones that it is given.

**Proof sketch.** Induction on the place. The arrays are taken from the front as long as there is
data. -/
lemma initializedArrays_getElem? {k : ℕ} {tickArray : InitializedTickArray Address} :
    ∀ {tickArrays : List (TickArrayAccount Address)},
      (initializedArrays tickArrays)[k]? = some tickArray →
        tickArrays[k]? = some ⟨tickArray.address, some tickArray.data⟩ := by
  induction k with
  | zero =>
    intro tickArrays h
    match tickArrays with
    | [] => simp [initializedArrays] at h
    | ⟨address, none⟩ :: rest => simp [initializedArrays] at h
    | ⟨address, some data⟩ :: rest =>
      simp only [initializedArrays, List.getElem?_cons_zero, Option.some.injEq] at h
      subst h
      rfl
  | succ k ih =>
    intro tickArrays h
    match tickArrays with
    | [] => simp [initializedArrays] at h
    | ⟨address, none⟩ :: rest => simp [initializedArrays] at h
    | ⟨address, some data⟩ :: rest =>
      simp only [initializedArrays, List.getElem?_cons_succ] at h ⊢
      exact ih h

/-! ## The arrays that a quote has read -/

/-- No more arrays are touched than there are. -/
lemma getNumOfTouchedArrays_le (self : TickArraySequence Address) (m : ℕ) :
    (self.touch m).getNumOfTouchedArrays ≤ self.sequence.length := by
  unfold getNumOfTouchedArrays touch
  refine (List.length_filter_le _ _).trans ?_
  simp

/-- A quote that has read its first `m` arrays returns their addresses.

**Proof sketch.** Induction on the arrays with their places. An array is returned exactly if its
place is below `m`. -/
theorem touchedAddresses_touch (self : TickArraySequence Address) (m : ℕ) :
    (self.touch m).touchedAddresses =
      (self.sequence.map InitializedTickArray.address).take m := by
  obtain ⟨sequence, touched, start, ts, aToB⟩ := self
  unfold touchedAddresses touch
  simp only
  -- the arrays are paired with the tests whether their place is below `m`
  suffices h : ∀ (l : List (InitializedTickArray Address)) (i : ℕ),
      ((l.zip ((List.range' i l.length).map fun k => decide (k < m))).filter
        fun entry => entry.2).map (fun entry => entry.1.address) =
          (l.map InitializedTickArray.address).take (m - i) by
    have h0 := h sequence 0
    rwa [← List.range_eq_range', Nat.sub_zero] at h0
  intro l
  induction l with
  | nil =>
    intro i
    simp
  | cons tickArray rest ih =>
    intro i
    rw [List.length_cons, List.range'_succ, List.map_cons, List.zip_cons_cons]
    by_cases him : i < m
    · rw [List.filter_cons_of_pos (by simpa using him), List.map_cons, ih, List.map_cons,
        show m - i = m - (i + 1) + 1 by omega, List.take_succ_cons]
    · rw [List.filter_cons_of_neg (by simpa using him), ih, show m - (i + 1) = 0 by omega,
        show m - i = 0 by omega, List.take_zero, List.take_zero]

end TickArraySequence

end Sdk

end NemoSwap
