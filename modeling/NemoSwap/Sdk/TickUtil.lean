import NemoSwap.Sdk.PriceMath
import NemoSwap.Util.TickTiling

set_option relaxedAutoImplicit false
set_option autoImplicit false

/-!
# `sdk/src/utils/public/tick-utils.ts`: ticks and tick arrays in the SDK

The SDK chooses the tick arrays of a swap before it knows how far the swap goes: it starts at the
array of the current tick and goes on in the direction of the swap until the tick range ends.

## Main definitions

* `NemoSwap.Sdk.TickUtil.getStartTickIndex` — the start of the array of an index.
* `NemoSwap.Sdk.TickUtil.findInitializedTick` — the search inside of one array.
* `NemoSwap.Sdk.getTickArrayPublicKeys` — the arrays that a swap may traverse.
* `NemoSwap.Sdk.PriceMath.invertSqrtPriceX64` — the price of the inverse pair.

## Main results

* `NemoSwap.Sdk.TickUtil.getStartTickIndex_eq_ok_iff` — the starts are those that the program
  accepts.
* `NemoSwap.Sdk.TickUtil.initializableTickIndex_between` — the indices that can hold ticks around
  an index.
* `NemoSwap.Sdk.TickUtil.findInitializedTickIndex_eq` — the search is the program's.
* `NemoSwap.Sdk.getTickArrayPublicKeys_spec` — the arrays are those that a swap needs.
* `NemoSwap.Sdk.PriceMath.sqrtPriceX64ToTickIndex_iff` — prices and ticks.
-/

namespace NemoSwap

namespace Sdk

/-- `MAX_SWAP_TICK_ARRAYS`. -/
def maxSwapTickArrays : ℕ := 3

/-- `invariant` of `tiny-invariant`. -/
def invariant (condition : Bool) : Except SdkError Unit :=
  if condition then .ok () else .error .other

/-- `tickIndexToInnerIndex`. -/
def tickIndexToInnerIndex (startTickIndex tickIndex : ℤ) (tickSpacing : ℕ) : ℤ :=
  (tickIndex - startTickIndex) / tickSpacing

/-- `innerIndexToTickIndex`. -/
def innerIndexToTickIndex (startTickIndex tickArrayIndex : ℤ) (tickSpacing : ℕ) : ℤ :=
  startTickIndex + tickArrayIndex * tickSpacing

namespace TickUtil

/-- `TickUtil.getOffsetIndex`. -/
def getOffsetIndex (tickIndex arrayStartIndex : ℤ) (tickSpacing : ℕ) : ℤ :=
  (tickIndex - arrayStartIndex) / tickSpacing

/-- `TickUtil.getStartTickIndex`. -/
def getStartTickIndex (tickIndex : ℤ) (tickSpacing : ℕ) (offset : ℤ) : Except SdkError ℤ := do
  let realIndex := tickIndex / tickSpacing / tickArraySize
  let startTickIndex := (realIndex + offset) * tickSpacing * tickArraySize
  let ticksInArray : ℤ := tickArraySize * tickSpacing
  let leastTickIndex := minTickIndex - (minTickIndex.tmod ticksInArray + ticksInArray)
  invariant (decide (startTickIndex ≥ leastTickIndex))
  invariant (decide (startTickIndex ≤ maxTickIndex))
  return startTickIndex

/-- `TickUtil.isTickInitializable`. -/
def isTickInitializable (tick : ℤ) (tickSpacing : ℕ) : Bool := decide (tick.tmod tickSpacing = 0)

/-- `TickUtil.getInitializableTickIndex`. -/
def getInitializableTickIndex (tickIndex : ℤ) (tickSpacing : ℕ) : ℤ :=
  tickIndex - tickIndex.tmod tickSpacing

/-- `TickUtil.getNextInitializableTickIndex`. -/
def getNextInitializableTickIndex (tickIndex : ℤ) (tickSpacing : ℕ) : ℤ :=
  getInitializableTickIndex tickIndex tickSpacing + tickSpacing

/-- `TickUtil.getPrevInitializableTickIndex`. -/
def getPrevInitializableTickIndex (tickIndex : ℤ) (tickSpacing : ℕ) : ℤ :=
  getInitializableTickIndex tickIndex tickSpacing - tickSpacing

/-- `TickUtil.invertTick`. -/
def invertTick (tick : ℤ) : ℤ := -tick

/-- An index that the SDK accepts is an offset in an array. -/
lemma toNat_lt_tickArraySize {index : ℤ} (h : index ≥ 0 ∧ index < tickArraySize) :
    index.toNat < tickArraySize := by
  have := Int.toNat_of_nonneg h.1
  omega

/-- The `while` loop of `findInitializedTick`: it visits every slot at most once. -/
def findInitializedTickLoop (ticks : Fin tickArraySize → Tick) (increment : ℤ) : ℕ → ℤ → Option ℤ
  | 0, _ => none
  | count + 1, index =>
    if h : index ≥ 0 ∧ index < tickArraySize then
      if (ticks ⟨index.toNat, toNat_lt_tickArraySize h⟩).initialized then some index
      else findInitializedTickLoop ticks increment count (index + increment)
    else none

/-- `TickUtil.findInitializedTick`. -/
def findInitializedTick (account : TickArray) (currentTickIndex : ℤ) (tickSpacing : ℕ)
    (searchRight : Bool) : Option ℤ :=
  let currentTickArrayIndex :=
    tickIndexToInnerIndex account.startTickIndex currentTickIndex tickSpacing
  let increment : ℤ := if searchRight then 1 else -1
  let stepInitializedTickArrayIndex :=
    if searchRight then currentTickArrayIndex + increment else currentTickArrayIndex
  (findInitializedTickLoop account.ticks increment (tickArraySize + 1)
    stepInitializedTickArrayIndex).map
      fun index => innerIndexToTickIndex account.startTickIndex index tickSpacing

/-- `TickUtil.findPreviousInitializedTickIndex`. -/
def findPreviousInitializedTickIndex (account : TickArray) (currentTickIndex : ℤ)
    (tickSpacing : ℕ) : Option ℤ :=
  findInitializedTick account currentTickIndex tickSpacing false

/-- `TickUtil.findNextInitializedTickIndex`. -/
def findNextInitializedTickIndex (account : TickArray) (currentTickIndex : ℤ)
    (tickSpacing : ℕ) : Option ℤ :=
  findInitializedTick account currentTickIndex tickSpacing true

end TickUtil

/-- `TickArrayUtil.getTickFromArray`. -/
def getTickFromArray (tickArray : TickArray) (tickIndex : ℤ) (tickSpacing : ℕ) :
    Except SdkError Tick :=
  let realIndex := tickIndexToInnerIndex tickArray.startTickIndex tickIndex tickSpacing
  if h : realIndex ≥ 0 ∧ realIndex < tickArraySize then
    return tickArray.ticks ⟨realIndex.toNat, by omega⟩
  else .error .other

/-- The loop of `SwapUtils.getTickArrayPublicKeys`, with `count` more rounds. `getTickArray` stands
for the program address of an array with a given start. -/
def tickArrayPublicKeysLoop {Address : Type} (getTickArray : ℤ → Address) (tickIndex : ℤ)
    (tickSpacing : ℕ) (aToB : Bool) : ℕ → ℤ → List Address
  | 0, _ => []
  | count + 1, offset =>
    match TickUtil.getStartTickIndex tickIndex tickSpacing offset with
    | .error _ => []
    | .ok startIndex => getTickArray startIndex ::
        tickArrayPublicKeysLoop getTickArray tickIndex tickSpacing aToB count
          (if aToB then offset - 1 else offset + 1)

/-- `SwapUtils.getTickArrayPublicKeys`. -/
def getTickArrayPublicKeys {Address : Type} (getTickArray : ℤ → Address) (tickCurrentIndex : ℤ)
    (tickSpacing : ℕ) (aToB : Bool) : List Address :=
  let shift : ℤ := if aToB then 0 else tickSpacing
  tickArrayPublicKeysLoop getTickArray (tickCurrentIndex + shift) tickSpacing aToB
    maxSwapTickArrays 0

/-- `PriceMath.invertSqrtPriceX64`. -/
def PriceMath.invertSqrtPriceX64 (sqrtPriceX64 : BN) : Except SdkError BN := do
  let tick ← sqrtPriceX64ToTickIndex sqrtPriceX64
  return tickIndexToSqrtPriceX64 (TickUtil.invertTick tick)

/-! ## Ticks and prices -/

namespace PriceMath

/-- **The tick of a price**: for every number the SDK returns the last tick whose price is at most
it, and fails outside of the price range.

**Proof sketch.** Within the price range the SDK agrees with the program, whose tick is the last one
whose price is at most `p`. Outside of it the SDK fails, and every tick has a price in the range. -/
theorem sqrtPriceX64ToTickIndex_iff {p : BN} {t : ℤ} :
    sqrtPriceX64ToTickIndex p = .ok t ↔ (minTickIndex ≤ t ∧ t ≤ maxTickIndex) ∧
      tickIndexToSqrtPriceX64 t ≤ p ∧ p ≤ (maxSqrtPriceX64 : ℤ) ∧
        (t = maxTickIndex ∨ p < tickIndexToSqrtPriceX64 (t + 1)) := by
  by_cases hp : (minSqrtPriceX64 : ℤ) ≤ p ∧ p ≤ (maxSqrtPriceX64 : ℤ)
  · obtain ⟨n, rfl⟩ : ∃ n : ℕ, p = (n : ℤ) :=
      Int.eq_ofNat_of_zero_le (le_trans (by decide) hp.1)
    have hlo : minSqrtPriceX64 ≤ n := by exact_mod_cast hp.1
    have hhi : n ≤ maxSqrtPriceX64 := by exact_mod_cast hp.2
    have hfloor : tickIndexFromSqrtPrice n = .ok t ↔ FloorTick n t := by
      obtain ⟨c, hc, h1, h2, h3, h4⟩ := tickIndexFromSqrtPrice_spec hlo hhi
      have hfloor : FloorTick n c := floorTick_iff.2 ⟨h1, h2, h3, Or.inr h4⟩
      rw [hc, Except.ok.injEq]
      constructor
      · rintro rfl
        exact hfloor
      · intro h
        exact hfloor.unique h
    rw [sqrtPriceX64ToTickIndex_eq hlo hhi, hfloor, floorTick_iff]
    constructor
    · rintro ⟨h1, h2, h3, h4⟩
      refine ⟨⟨h1, h2⟩, ?_, hp.2, ?_⟩
      · rw [tickIndexToSqrtPriceX64_eq h2]
        exact_mod_cast h3
      · rcases eq_or_lt_of_le h2 with h | h
        · exact Or.inl h
        · rw [tickIndexToSqrtPriceX64_eq (Int.add_one_le_of_lt h)]
          refine Or.inr ?_
          exact_mod_cast h4.resolve_left h.ne
    · rintro ⟨⟨h1, h2⟩, h3, -, h4⟩
      rw [tickIndexToSqrtPriceX64_eq h2] at h3
      refine ⟨h1, h2, by exact_mod_cast h3, ?_⟩
      rcases eq_or_lt_of_le h2 with h | h
      · exact Or.inl h
      · rw [tickIndexToSqrtPriceX64_eq (Int.add_one_le_of_lt h)] at h4
        exact Or.inr (by exact_mod_cast h4.resolve_left h.ne)
  · have hout : p > (maxSqrtPriceX64 : ℤ) ∨ p < (minSqrtPriceX64 : ℤ) := by
      rw [not_and_or, not_le, not_le] at hp
      exact hp.symm
    have herr : sqrtPriceX64ToTickIndex p = .error .other := if_pos hout
    rw [herr]
    constructor
    · intro h
      cases h
    · rintro ⟨⟨h1, h2⟩, h3, h4, -⟩
      refine absurd ⟨?_, h4⟩ hp
      rw [tickIndexToSqrtPriceX64_eq h2] at h3
      have hmin : minSqrtPriceX64 ≤ tickPrice t := min_le_tickPrice h1 (h2.trans (by decide))
      exact le_trans (by exact_mod_cast hmin) h3

/-- The tick of the price of a tick is the tick. -/
lemma sqrtPriceX64ToTickIndex_tickIndexToSqrtPriceX64 {t : ℤ} (hlo : minTickIndex ≤ t)
    (hhi : t ≤ maxTickIndex) :
    sqrtPriceX64ToTickIndex (tickIndexToSqrtPriceX64 t) = .ok t := by
  have hle : tickPrice t ≤ maxSqrtPriceX64 :=
    tickPrice_le_max (le_trans (by decide) hlo) hhi
  rw [sqrtPriceX64ToTickIndex_iff]
  refine ⟨⟨hlo, hhi⟩, le_rfl, ?_, ?_⟩
  · rw [tickIndexToSqrtPriceX64_eq hhi]
    exact_mod_cast hle
  · rcases eq_or_lt_of_le hhi with h | h
    · exact Or.inl h
    · have hlt : tickPrice t < tickPrice (t + 1) :=
        tickPrice_lt (le_trans (by decide) hlo) (lt_add_one t)
          ((Int.add_one_le_of_lt h).trans (by decide))
      rw [tickIndexToSqrtPriceX64_eq hhi, tickIndexToSqrtPriceX64_eq (Int.add_one_le_of_lt h)]
      exact Or.inr (by exact_mod_cast hlt)

/-- **Prices, ticks and inverse prices**: the tick of a price is its floor, the conversions are
inverse on ticks, and inverting a price twice gives the price of its tick. -/
theorem sqrtPrice_conversions :
    (∀ (p : BN) (t : ℤ), sqrtPriceX64ToTickIndex p = .ok t ↔
      (minTickIndex ≤ t ∧ t ≤ maxTickIndex) ∧ tickIndexToSqrtPriceX64 t ≤ p ∧
        p ≤ (maxSqrtPriceX64 : ℤ) ∧
          (t = maxTickIndex ∨ p < tickIndexToSqrtPriceX64 (t + 1))) ∧
    (∀ t : ℤ, minTickIndex ≤ t → t ≤ maxTickIndex →
      sqrtPriceX64ToTickIndex (tickIndexToSqrtPriceX64 t) = .ok t) ∧
    ∀ p q : BN, invertSqrtPriceX64 p = .ok q → ∃ t, sqrtPriceX64ToTickIndex p = .ok t ∧
      sqrtPriceX64ToTickIndex q = .ok (-t) ∧
        invertSqrtPriceX64 q = .ok (tickIndexToSqrtPriceX64 t) := by
  refine ⟨fun p t => sqrtPriceX64ToTickIndex_iff,
    fun t => sqrtPriceX64ToTickIndex_tickIndexToSqrtPriceX64, fun p q h => ?_⟩
  unfold invertSqrtPriceX64 at h
  rw [bind_eq_ok] at h
  obtain ⟨t, ht, h⟩ := h
  obtain rfl : tickIndexToSqrtPriceX64 (-t) = q := Except.ok.inj h
  obtain ⟨⟨h1, h2⟩, -⟩ := sqrtPriceX64ToTickIndex_iff.1 ht
  have hinv : sqrtPriceX64ToTickIndex (tickIndexToSqrtPriceX64 (-t)) = .ok (-t) :=
    sqrtPriceX64ToTickIndex_tickIndexToSqrtPriceX64 (neg_le_neg h2) (neg_le_neg h1)
  refine ⟨t, ht, hinv, ?_⟩
  unfold invertSqrtPriceX64 TickUtil.invertTick
  rw [hinv, ok_bind, neg_neg]
  rfl

/-- A price between the ticks `100` and `101` of a pair, whose inverse is the price of the tick
`-100`: inverting twice rounds it down to the price of the tick `100`. -/
theorem sqrtPrice_conversions_sample :
    sqrtPriceX64ToTickIndex (tickIndexToSqrtPriceX64 (-128)) = .ok (-128) ∧
      tickIndexToSqrtPriceX64 100 < 18539204128674405999 ∧
      sqrtPriceX64ToTickIndex 18539204128674405999 = .ok 100 ∧
      ∃ q, invertSqrtPriceX64 18539204128674405999 = .ok q ∧
        sqrtPriceX64ToTickIndex q = .ok (-100) ∧
        invertSqrtPriceX64 q = .ok (tickIndexToSqrtPriceX64 100) := by
  obtain ⟨-, hticks, hinvert⟩ := sqrtPrice_conversions
  have hq : invertSqrtPriceX64 18539204128674405999 = .ok (tickIndexToSqrtPriceX64 (-100)) := by
    decide +kernel
  have hp : sqrtPriceX64ToTickIndex 18539204128674405999 = .ok 100 := by decide +kernel
  obtain ⟨t, ht, hneg, hback⟩ := hinvert _ _ hq
  obtain rfl : t = 100 := Except.ok.inj (ht.symm.trans hp)
  exact ⟨hticks (-128) (by decide) (by decide), by decide +kernel, hp, _, hq, hneg, hback⟩

end PriceMath

/-! ## The starts of arrays -/

variable {ts : ℕ} {t s : ℤ}

/-- `invariant` throws exactly if its condition fails. -/
@[simp] lemma invariant_eq_ok {condition : Bool} {u : Unit} :
    invariant condition = .ok u ↔ condition = true := by
  cases condition <;> simp [invariant]

/-- The least start that the SDK accepts is that of the array of the minimum.

**Proof sketch.** The least start of the SDK is the minimum less its truncated remainder, and one
array lower where there is a remainder, which there always is. Starts are multiples of the size of
an array, so the bound may be moved to the minimum. -/
lemma minStart_le_iff (hts : ts ≠ 0) (hd : ((tickArraySize * ts : ℕ) : ℤ) ∣ s) :
    minTickIndex - (minTickIndex.tmod (tickArraySize * ts) + tickArraySize * ts) ≤ s ↔
      minTickIndex < s + tickArraySize * ts := by
  have hpos : (0 : ℤ) < tickArraySize * ts := by
    have : (0 : ℤ) < ts := by exact_mod_cast Nat.pos_of_ne_zero hts
    positivity
  have hdvd : (tickArraySize * ts : ℤ) ∣ minTickIndex - minTickIndex.tmod (tickArraySize * ts) :=
    Int.dvd_self_sub_tmod
  have hrem0 : minTickIndex.tmod (tickArraySize * ts) ≤ 0 := by
    rw [show minTickIndex = -443636 from rfl, Int.neg_tmod, neg_nonpos]
    exact Int.tmod_nonneg _ (by norm_num)
  have hrem1 : -(tickArraySize * ts : ℤ) < minTickIndex.tmod (tickArraySize * ts) :=
    Int.lt_tmod_of_pos _ hpos
  -- no array starts at the minimum
  have hrem : minTickIndex.tmod (tickArraySize * ts) ≠ 0 := fun h => by
    have h88 : (88 : ℤ) ∣ minTickIndex := (Dvd.intro _ rfl).trans (Int.dvd_of_tmod_eq_zero h)
    revert h88
    decide
  rw [Nat.cast_mul] at hd
  constructor
  · intro h
    omega
  · intro h
    rw [← sub_sub]
    exact le_of_dvd_of_lt_add (Dvd.dvd.sub hdvd dvd_rfl) hd (by omega)

/-- **The starts of the SDK are those that the program accepts.**

**Proof sketch.** The SDK compares the start with a lower and an upper bound. Starts are multiples
of the length of an array, and by `minStart_le_iff` the bounds are those of the program. -/
theorem TickUtil.getStartTickIndex_eq_ok_iff (hts : ts ≠ 0) {offset : ℤ} :
    getStartTickIndex t ts offset = .ok s ↔
      s = TickMap.arrayStart ts t + offset * (tickArraySize * ts) ∧
        Tick.checkIsValidStartTick s ts = .ok true := by
  have hstart : (t / ts / tickArraySize + offset) * ts * tickArraySize =
      TickMap.arrayStart ts t + offset * (tickArraySize * ts) := by
    unfold TickMap.arrayStart
    rw [Int.ediv_ediv_of_nonneg (Int.natCast_nonneg ts), mul_comm (tickArraySize : ℤ) ts]
    ring
  have hd : ((tickArraySize * ts : ℕ) : ℤ) ∣
      TickMap.arrayStart ts t + offset * (tickArraySize * ts) := by
    rw [Nat.cast_mul]
    exact Dvd.dvd.add (Dvd.intro_left _ rfl) (Dvd.intro_left _ rfl)
  unfold getStartTickIndex
  simp only [hstart, bind_eq_ok, invariant_eq_ok, decide_eq_true_eq, exists_const]
  have hmin := minStart_le_iff hts hd
  constructor
  · rintro ⟨h1, h2, h3⟩
    obtain rfl := Except.ok.inj h3
    exact ⟨rfl, (checkIsValidStartTick_iff hts).2 ⟨hd, hmin.1 h1, h2⟩⟩
  · rintro ⟨rfl, h⟩
    obtain ⟨-, h1, h2⟩ := (checkIsValidStartTick_iff hts).1 h
    exact ⟨hmin.2 h1, h2, rfl⟩

/-! ## Initializable indices -/

namespace TickUtil

/-- The SDK initializes ticks at the multiples of the spacing. -/
lemma isTickInitializable_iff : isTickInitializable t ts = true ↔ (ts : ℤ) ∣ t := by
  unfold isTickInitializable
  rw [decide_eq_true_eq, Int.dvd_iff_tmod_eq_zero]

/-- **The initializable index of an index** is less than a spacing away from it, on the side of
zero: the remainder has the sign of the index, so a negative index is rounded up.

**Proof sketch.** The index is lowered by its truncated remainder, which has its sign and is less
than a spacing. -/
theorem getInitializableTickIndex_spec (hts : ts ≠ 0) (t : ℤ) :
    isTickInitializable (getInitializableTickIndex t ts) ts = true ∧
      |t - getInitializableTickIndex t ts| < ts ∧
      (0 ≤ t → getInitializableTickIndex t ts ≤ t) ∧
      (t ≤ 0 → t ≤ getInitializableTickIndex t ts) := by
  have hpos : (0 : ℤ) < ts := by exact_mod_cast Nat.pos_of_ne_zero hts
  have hlt := Int.tmod_lt_of_pos t hpos
  have hgt := Int.lt_tmod_of_pos t hpos
  unfold getInitializableTickIndex
  refine ⟨isTickInitializable_iff.2 Int.dvd_self_sub_tmod, ?_, fun h => ?_, fun h => ?_⟩
  · rw [sub_sub_cancel, abs_lt]
    exact ⟨hgt, hlt⟩
  · have := Int.tmod_nonneg (ts : ℤ) h
    omega
  · have h0 : t.tmod ts ≤ 0 := by
      have := Int.tmod_nonneg (ts : ℤ) (neg_nonneg.2 h)
      rw [Int.neg_tmod] at this
      omega
    omega

/-- **The previous and the next initializable index** lie on both sides of every index, although the
index between them is not always the nearest one below it. -/
theorem initializableTickIndex_between (hts : ts ≠ 0) (t : ℤ) :
    (getPrevInitializableTickIndex t ts < t ∧ t < getNextInitializableTickIndex t ts) ∧
      isTickInitializable (getPrevInitializableTickIndex t ts) ts = true ∧
      isTickInitializable (getNextInitializableTickIndex t ts) ts = true := by
  obtain ⟨hinit, hnear, -⟩ := getInitializableTickIndex_spec hts t
  rw [abs_lt] at hnear
  rw [isTickInitializable_iff] at hinit ⊢
  rw [isTickInitializable_iff]
  unfold getPrevInitializableTickIndex getNextInitializableTickIndex
  exact ⟨⟨by omega, by omega⟩, Dvd.dvd.sub hinit dvd_rfl, Dvd.dvd.add hinit dvd_rfl⟩

/-- A negative index between two multiples of the spacing is rounded up. -/
example : getInitializableTickIndex (-5) 8 = 0 := by decide

end TickUtil

/-! ## The search inside of an array -/

/-- The slot of an index in an array is the program's. -/
lemma TickUtil.tickOffset_eq (hts : ts ≠ 0) (array : TickArray) :
    array.tickOffset t ts = .ok (getOffsetIndex t array.startTickIndex ts) := by
  rw [TickArray.tickOffset, if_neg hts, TickArray.getOffset_eq _ _ hts]
  rfl

/-- A tick that the program reads in an array, the SDK reads there too.

**Proof sketch.** The offset of the SDK is that of the program, which is a slot of the array. -/
theorem getTickFromArray_eq {array : TickArray} {tick : Tick} (h : array.getTick t ts = .ok tick) :
    getTickFromArray array t ts = .ok tick := by
  unfold TickArray.getTick TickArray.checkedOffset at h
  simp only [Res.bind_eq_ok, ite_err_eq_ok, Res.pure_eq_ok, Except.ok.injEq] at h
  obtain ⟨i, ⟨-, _, -, -, o, ho, h0, h⟩, rfl⟩ := h
  have hts : ts ≠ 0 := by
    rintro rfl
    cases ho
  obtain rfl : TickUtil.getOffsetIndex t array.startTickIndex ts = o :=
    Except.ok.inj ((TickUtil.tickOffset_eq hts array).symm.trans ho)
  unfold TickUtil.getOffsetIndex at h h0
  unfold getTickFromArray tickIndexToInnerIndex
  split_ifs at h with hlt
  obtain rfl := Except.ok.inj h
  rw [dif_pos ⟨not_lt.1 h0, by omega⟩]
  rfl

/-- The SDK's search in an array is the one of the program. -/
lemma TickUtil.findInitializedTickLoop_eq (ticks : Fin tickArraySize → Tick) (aToB : Bool) :
    ∀ (count : ℕ) (index : ℤ),
      findInitializedTickLoop ticks (if aToB then -1 else 1) count index =
        TickArray.searchOffset ticks aToB count index := by
  intro count
  induction count with
  | zero =>
    intro index
    rfl
  | succ count ih =>
    intro index
    have hnext : index + (if aToB then -1 else 1) = if aToB then index - 1 else index + 1 := by
      cases aToB <;> rfl
    rw [findInitializedTickLoop, TickArray.searchOffset, ← hnext, ih]

/-- **The search of the SDK inside of an array is the program's**, wherever the program searches
the array at all: backwards for a trade to the left, and forwards for one to the right. -/
theorem TickUtil.findInitializedTickIndex_eq (hts : ts ≠ 0) {array : TickArray} {aToB : Bool}
    (hrange : array.inSearchRange t ts (!aToB) = true) :
    array.getNextInitTickIndex t ts aToB =
      .ok (if aToB then findPreviousInitializedTickIndex array t ts
        else findNextInitializedTickIndex array t ts) := by
  have hoffset : array.tickOffset t ts = .ok (tickIndexToInnerIndex array.startTickIndex t ts) :=
    tickOffset_eq hts array
  have hloop := findInitializedTickLoop_eq array.ticks aToB (tickArraySize + 1)
  have hback : (fun offset : ℤ => offset * ts + array.startTickIndex) =
      fun index => innerIndexToTickIndex array.startTickIndex index ts := by
    funext index
    exact add_comm _ _
  unfold TickArray.getNextInitTickIndex findPreviousInitializedTickIndex
    findNextInitializedTickIndex findInitializedTick
  rw [hrange, hoffset, hback]
  cases aToB with
  | true => exact congrArg (fun o => Except.ok (Option.map _ o)) (hloop _).symm
  | false => exact congrArg (fun o => Except.ok (Option.map _ o)) (hloop _).symm

/-! ## The arrays of a swap -/

/-- The starts of the arrays from `first` on in the direction of a swap: all of them are accepted,
and there are fewer than `count` only if the tick range ends. -/
structure ArrayRow (ts : ℕ) (aToB : Bool) (count : ℕ) (first : ℤ) (starts : List ℤ) : Prop where
  length_le : starts.length ≤ count
  start : ∀ (i : ℕ) s, starts[i]? = some s →
    s = first + (if aToB then -(i : ℤ) else i) * (tickArraySize * ts) ∧
      Tick.checkIsValidStartTick s ts = .ok true
  ends : starts.length < count → Tick.checkIsValidStartTick
    (first + (if aToB then -(starts.length : ℤ) else starts.length) * (tickArraySize * ts)) ts ≠
      .ok true

/-- One more array in front.

**Proof sketch.** The starts behind the first one are those of the row, whose place has moved by one
array. -/
theorem ArrayRow.cons {aToB : Bool} {count : ℕ} {first : ℤ} {starts : List ℤ}
    (hfirst : Tick.checkIsValidStartTick first ts = .ok true)
    (h : ArrayRow ts aToB count (first + (if aToB then -1 else 1) * (tickArraySize * ts)) starts) :
    ArrayRow ts aToB (count + 1) first (first :: starts) := by
  have hshift : ∀ i : ℕ, first + (if aToB then -1 else 1) * (tickArraySize * ts) +
      (if aToB then -(i : ℤ) else i) * (tickArraySize * ts) =
        first + (if aToB then -((i + 1 : ℕ) : ℤ) else (i + 1 : ℕ)) * (tickArraySize * ts) := by
    intro i
    cases aToB
    · simp only [Bool.false_eq_true, if_false]
      push_cast
      ring
    · simp only [if_true]
      push_cast
      ring
  refine ⟨by simpa using h.length_le, ?_, ?_⟩
  · intro i s hi
    cases i with
    | zero =>
      obtain rfl : first = s := by simpa using hi
      exact ⟨by cases aToB <;> simp, hfirst⟩
    | succ i =>
      obtain ⟨h1, h2⟩ := h.start i s (by simpa using hi)
      exact ⟨h1.trans (hshift i), h2⟩
  · intro hlt
    rw [List.length_cons, ← hshift]
    exact h.ends (by simpa using hlt)

/-- The loop collects the arrays until the tick range ends.

**Proof sketch.** Induction on the number of arrays. If the start is in range it comes in front of
the row of the rest (`ArrayRow.cons`); if not, the row ends. -/
theorem tickArrayPublicKeysLoop_spec {Address : Type} (getTickArray : ℤ → Address) (hts : ts ≠ 0)
    (aToB : Bool) : ∀ (count : ℕ) (offset : ℤ),
      ∃ starts, tickArrayPublicKeysLoop getTickArray t ts aToB count offset =
        starts.map getTickArray ∧
      ArrayRow ts aToB count (TickMap.arrayStart ts t + offset * (tickArraySize * ts)) starts := by
  intro count
  induction count with
  | zero =>
    intro offset
    exact ⟨[], rfl, le_rfl, fun i s hi => by simp at hi, fun h => absurd h (lt_irrefl 0)⟩
  | succ count ih =>
    intro offset
    rw [tickArrayPublicKeysLoop]
    rcases hstart : TickUtil.getStartTickIndex t ts offset with e | s
    · refine ⟨[], rfl, Nat.zero_le _, fun i s hi => by simp at hi, fun _ hvalid => ?_⟩
      have hok : TickUtil.getStartTickIndex t ts offset = .ok _ :=
        (TickUtil.getStartTickIndex_eq_ok_iff hts).2 ⟨rfl, by simpa using hvalid⟩
      rw [hstart] at hok
      cases hok
    · obtain ⟨rfl, hvalid⟩ := (TickUtil.getStartTickIndex_eq_ok_iff hts).1 hstart
      obtain ⟨starts, hmap, hrow⟩ := ih (if aToB then offset - 1 else offset + 1)
      have hnext : TickMap.arrayStart ts t +
          (if aToB then offset - 1 else offset + 1) * (tickArraySize * ts) =
            TickMap.arrayStart ts t + offset * (tickArraySize * ts) +
              (if aToB then -1 else 1) * (tickArraySize * ts) := by
        cases aToB
        · simp only [Bool.false_eq_true, if_false]
          ring
        · simp only [if_true]
          ring
      refine ⟨_ :: starts, ?_, ArrayRow.cons hvalid (hnext ▸ hrow)⟩
      simp only [hmap, List.map_cons]

/-- **The arrays that the SDK passes to a swap**: neighbours in the direction of the swap, as many
as a swap takes unless the tick range ends, the first being the array that the program searches
first. There is none exactly where the program can search no array.

**Proof sketch.** The loop collects a row by `tickArrayPublicKeysLoop_spec`. Its first array, if
there is one, starts where the shifted tick lies, which is what the program asks of the first array
of a swap. -/
theorem getTickArrayPublicKeys_spec {Address : Type} (getTickArray : ℤ → Address) (hts : 1 ≤ ts)
    (t : ℤ) (aToB : Bool) :
    ∃ starts, getTickArrayPublicKeys getTickArray t ts aToB = starts.map getTickArray ∧
      ArrayRow ts aToB maxSwapTickArrays
        (TickMap.arrayStart ts (t + if aToB then 0 else (ts : ℤ))) starts ∧
      ∀ array : TickArray, Tick.checkIsValidStartTick array.startTickIndex ts = .ok true →
        (array.inSearchRange t ts (!aToB) = true ↔ starts[0]? = some array.startTickIndex) := by
  have hts0 : ts ≠ 0 := by omega
  obtain ⟨starts, hmap, hrow⟩ := tickArrayPublicKeysLoop_spec
    (t := t + if aToB then 0 else (ts : ℤ)) getTickArray hts0 aToB maxSwapTickArrays 0
  rw [zero_mul, add_zero] at hrow
  refine ⟨starts, hmap, hrow, ?_⟩
  intro array hvalid
  have hrange : array.inSearchRange t ts (!aToB) = true ↔
      array.startTickIndex = TickMap.arrayStart ts (t + if aToB then 0 else (ts : ℤ)) := by
    obtain ⟨-, hle, hlt⟩ := arrayStart_spec hts0 (t + if aToB then 0 else (ts : ℤ))
    rw [TickArray.inSearchRange_iff]
    constructor
    · intro h
      refine (TickMap.arrayStart_eq hts0 (Tick.checkIsValidStartTick_dvd hvalid).2 ?_ ?_).symm
      · cases aToB <;> simp at h ⊢ <;> omega
      · cases aToB <;> simp at h ⊢ <;> omega
    · intro h
      rw [h]
      cases aToB <;> simp at hle hlt ⊢ <;> omega
  rw [hrange]
  constructor
  · intro h
    cases starts with
    | nil =>
      -- a row without arrays ends at once, but the first array is accepted
      refine absurd ?_ (hrow.ends (by decide))
      simpa [← h] using hvalid
    | cons s rest =>
      obtain ⟨hs, -⟩ := hrow.start 0 s rfl
      rw [List.getElem?_cons_zero, Option.some.injEq, h, hs]
      simp
  · intro h
    obtain ⟨hs, -⟩ := hrow.start 0 _ h
    simpa using hs

/-- At the tick zero a swap from A to B starts in the array at zero. -/
theorem getTickArrayPublicKeys_spec_zero : ∃ starts,
    getTickArrayPublicKeys id 0 8 true = starts.map id ∧
      ArrayRow 8 true maxSwapTickArrays (TickMap.arrayStart 8 (0 + 0)) starts := by
  obtain ⟨starts, h1, h2, -⟩ := getTickArrayPublicKeys_spec id (show 1 ≤ 8 by norm_num) 0 true
  exact ⟨starts, h1, h2⟩

end Sdk

end NemoSwap
