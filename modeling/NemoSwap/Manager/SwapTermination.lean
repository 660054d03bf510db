import NemoSwap.Manager.SwapStep
import NemoSwap.Math.NextPrice

set_option relaxedAutoImplicit false
set_option autoImplicit false

/-!
# The swap loop terminates

Neither the remaining amount nor the price need change in an iteration, so the measure is the
number of initialized ticks ahead of the current index. It is bounded whatever the tick arrays
hold: an iteration after which the loop goes on has reached the tick that its search found, and
the search found an initialized tick, or the edge of the last array, after which the next search
fails.

## Main definitions

* `NemoSwap.Ahead` — the indices ahead of an index, in the direction of a swap.
* `NemoSwap.SwapTickSequence.initializedAhead` — how many initialized ticks are ahead.
* `NemoSwap.swapIterations` — the number of iterations of the loop.

## Main results

* `NemoSwap.SwapTickSequence.searchArrays_found` — what a search finds in arbitrary arrays.
* `NemoSwap.swapStep_lands` — an iteration that does not end the loop reaches its tick.
* `NemoSwap.swapIterations_le` — the bound on the iterations.
* `NemoSwap.swapLoop_terminates` — the loop terminates.
-/

namespace NemoSwap

/-- The index `n` is ahead of the index `c`: a search to the left includes `c`, one to the right
does not. -/
def Ahead (aToB : Bool) (c n : ℤ) : Prop := if aToB then n ≤ c else c < n

instance (aToB : Bool) (c n : ℤ) : Decidable (Ahead aToB c n) := by
  unfold Ahead
  infer_instance

/-- What is ahead of a tick that was reached was ahead before, and the tick itself is not. -/
theorem Ahead.crossed {aToB : Bool} {c n : ℤ} (h : Ahead aToB c n) :
    (∀ x, Ahead aToB (crossedIndex aToB n) x → Ahead aToB c x) ∧
      ¬Ahead aToB (crossedIndex aToB n) n := by
  unfold Ahead crossedIndex at *
  cases aToB with
  | true =>
    simp only [if_true] at h ⊢
    exact ⟨fun x hx => by omega, by omega⟩
  | false =>
    simp only [Bool.false_eq_true, if_false] at h ⊢
    exact ⟨fun x hx => by omega, by omega⟩

namespace SwapTickSequence

variable {ts : ℕ} {aToB : Bool} {c n : ℤ} {sequence sequence' : SwapTickSequence}

/-! ## Searching arbitrary arrays -/

/-- What a search finds in the array `k`: an initialized tick, or the edge of the last array. -/
def Finds (sequence : SwapTickSequence) (ts : ℕ) (aToB : Bool) (k : ℕ) (n : ℤ) : Prop :=
  ∃ array, sequence[k]? = some array ∧
    ((∃ o : Fin tickArraySize, (array.ticks o).initialized = true ∧
        n = array.startTickIndex + (o : ℕ) * ts) ∨
      k + 1 = sequence.length ∧ n = edge aToB ts array)

/-- What a search finds in the later arrays is found behind another array too. -/
lemma Finds.cons {array : TickArray} {k : ℕ} (h : Finds sequence ts aToB k n) :
    Finds (array :: sequence) ts aToB (k + 1) n := by
  obtain ⟨a, ha, hfound⟩ := h
  refine ⟨a, by simpa using ha, hfound.imp id fun h => ⟨?_, h.2⟩⟩
  rw [List.length_cons, h.1]

/-- **What a search finds in arbitrary arrays**: the bound of the tick range, or something ahead
of the start index.

**Proof sketch.** Induction on the arrays, as the code recurses. Each array either yields an
initialized slot ahead of the start index, or hands over to the next one, or is the last. -/
theorem searchArrays_found {j : ℕ} : ∀ {sequence : SwapTickSequence} (i : ℕ) (idx : ℤ),
    searchArrays ts aToB sequence i idx = .ok (j, n) →
    n = tickBound aToB ∨ Ahead aToB idx n ∧ ∃ k, j = i + k ∧ Finds sequence ts aToB k n
  | [], _, _, h => by simp [searchArrays] at h
  | array :: rest, i, idx, h => by
    rw [searchArrays, Res.bind_eq_ok] at h
    obtain ⟨r, hr, h⟩ := h
    obtain ⟨hts, hrange, hsome, -⟩ := TickArray.getNextInitTickIndex_eq_ok hr
    rw [TickArray.inSearchRange_iff] at hrange
    have hpos : (0 : ℤ) < ts := by exact_mod_cast Nat.pos_of_ne_zero hts
    cases r with
    | some m =>
      simp only at h
      rw [Res.pure_eq_ok, Except.ok.injEq, Prod.mk.injEq] at h
      obtain ⟨rfl, rfl⟩ := h
      obtain ⟨hh, hinit, hnear⟩ := hsome m rfl
      obtain ⟨o, ho, rfl⟩ := (TickArray.holds_iff hts).1 hh
      rw [TickArray.tickAt_eq_slot hts ho rfl, TickArray.slot, dif_pos ho] at hinit
      refine Or.inr ⟨?_, 0, rfl, array, rfl, Or.inl ⟨⟨o, ho⟩, hinit, rfl⟩⟩
      unfold Ahead
      cases aToB
      · exact hnear.1
      · exact hnear.1
    | none =>
      have hgoOn : ∀ idx', (∀ x, Ahead aToB idx' x → Ahead aToB idx x) →
          searchArrays ts aToB rest (i + 1) idx' = .ok (j, n) →
          n = tickBound aToB ∨ Ahead aToB idx n ∧
            ∃ k, j = i + k ∧ Finds (array :: rest) ts aToB k n := fun idx' hmono hrest => by
        rcases searchArrays_found (i + 1) idx' hrest with hb | ⟨hahead, k, rfl, hk⟩
        · exact Or.inl hb
        · exact Or.inr ⟨hmono n hahead, k + 1, by omega, hk.cons⟩
      cases aToB with
      | true =>
        simp only [Bool.not_true, Bool.false_eq_true, if_false, sub_zero, if_true, Bool.true_and,
          Bool.false_and] at h hrange
        split_ifs at h with hmin hrest
        · rw [Res.pure_eq_ok, Except.ok.injEq, Prod.mk.injEq] at h
          exact Or.inl h.2.symm
        · rw [Res.pure_eq_ok, Except.ok.injEq, Prod.mk.injEq] at h
          obtain ⟨rfl, rfl⟩ := h
          exact Or.inr ⟨hrange.1, 0, rfl, array, rfl, Or.inr ⟨by rw [hrest]; rfl, rfl⟩⟩
        · exact hgoOn _ (fun x (hx : x ≤ _) => show x ≤ idx by omega) h
      | false =>
        simp only [Bool.not_false, if_true, Bool.false_eq_true, if_false, Bool.true_and,
          Bool.false_and] at h hrange
        split_ifs at h with hmax hrest
        · rw [Res.pure_eq_ok, Except.ok.injEq, Prod.mk.injEq] at h
          exact Or.inl h.2.symm
        · rw [Res.pure_eq_ok, Except.ok.injEq, Prod.mk.injEq] at h
          obtain ⟨rfl, rfl⟩ := h
          have hlt : idx < array.startTickIndex + tickArraySize * ts - 1 := by omega
          exact Or.inr ⟨hlt, 0, rfl, array, rfl, Or.inr ⟨by rw [hrest]; rfl, rfl⟩⟩
        · exact hgoOn _ (fun x (hx : _ < x) => show idx < x by omega) h

/-! ## Counting initialized ticks -/

/-- The number of initialized ticks of an array whose index has a property. -/
def initializedIn (array : TickArray) (ts : ℕ) (p : ℤ → Bool) : ℕ :=
  (Finset.univ.filter fun o : Fin tickArraySize =>
    (array.ticks o).initialized = true ∧ p (array.startTickIndex + (o : ℕ) * ts) = true).card

/-- The number of initialized ticks of the arrays. -/
def initializedTicks (sequence : SwapTickSequence) : ℕ :=
  (sequence.map fun array => initializedIn array 0 fun _ => true).sum

/-- The number of initialized ticks ahead of an index. -/
def initializedAhead (ts : ℕ) (aToB : Bool) (c : ℤ) (sequence : SwapTickSequence) : ℕ :=
  (sequence.map fun array => initializedIn array ts fun x => decide (Ahead aToB c x)).sum

/-- Where the ticks of an array are, and which are initialized. -/
def flags (array : TickArray) : ℤ × (Fin tickArraySize → Bool) :=
  (array.startTickIndex, fun o => (array.ticks o).initialized)

/-- Counting with a weaker property does not count less. -/
lemma initializedIn_mono {array : TickArray} {ts ts' : ℕ} {p p' : ℤ → Bool}
    (h : ∀ o : Fin tickArraySize, p (array.startTickIndex + (o : ℕ) * ts) = true →
      p' (array.startTickIndex + (o : ℕ) * ts') = true) :
    initializedIn array ts p ≤ initializedIn array ts' p' :=
  Finset.card_le_card fun o ho => by
    simp only [Finset.mem_filter, Finset.mem_univ, true_and] at ho ⊢
    exact ⟨ho.1, h o ho.2⟩

/-- The initialized ticks ahead are some of all. -/
lemma initializedAhead_le : initializedAhead ts aToB c sequence ≤ initializedTicks sequence :=
  List.sum_le_sum fun _ _ => initializedIn_mono fun _ _ => rfl

/-- Reaching an initialized tick ahead leaves fewer of them ahead.

**Proof sketch.** Every tick that is ahead afterwards was ahead before, and the tick that was
reached no longer is, so the array that holds it has one less. -/
lemma initializedAhead_lt {k : ℕ} {array : TickArray} {o : Fin tickArraySize}
    (hk : sequence[k]? = some array) (hinit : (array.ticks o).initialized = true)
    (hn : n = array.startTickIndex + (o : ℕ) * ts) (hahead : Ahead aToB c n) :
    initializedAhead ts aToB (crossedIndex aToB n) sequence <
      initializedAhead ts aToB c sequence := by
  subst hn
  obtain ⟨hmono, hself⟩ := hahead.crossed
  refine List.sum_lt_sum _ _ (fun a _ => initializedIn_mono fun o ho => ?_)
    ⟨array, List.mem_of_getElem? hk, Finset.card_lt_card ?_⟩
  · exact decide_eq_true (hmono _ (of_decide_eq_true ho))
  · rw [Finset.ssubset_iff_of_subset]
    · refine ⟨o, ?_, ?_⟩
      · simp only [Finset.mem_filter, Finset.mem_univ, true_and]
        exact ⟨hinit, decide_eq_true hahead⟩
      · simp only [Finset.mem_filter, Finset.mem_univ, true_and, not_and]
        exact fun _ hcon => hself (of_decide_eq_true hcon)
    · intro i hi
      simp only [Finset.mem_filter, Finset.mem_univ, true_and] at hi ⊢
      exact ⟨hi.1, decide_eq_true (hmono _ (of_decide_eq_true hi.2))⟩

/-- The count depends on the places and flags of the ticks only. -/
lemma initializedAhead_congr (h : sequence'.map flags = sequence.map flags) :
    initializedAhead ts aToB c sequence' = initializedAhead ts aToB c sequence := by
  have hcount : ∀ seq : SwapTickSequence, initializedAhead ts aToB c seq =
      ((seq.map flags).map fun f => (Finset.univ.filter fun o : Fin tickArraySize =>
        f.2 o = true ∧ decide (Ahead aToB c (f.1 + (o : ℕ) * ts)) = true).card).sum := fun seq => by
    rw [List.map_map]
    rfl
  rw [hcount, hcount, h]

/-- Updating a tick with the flag it has keeps the flags.

**Proof sketch.** Only one array is replaced, and in it only one tick, by a tick with the same
flag. -/
lemma flags_updateTick {j : ℕ} {tick : Tick} {u : TickUpdate}
    (ht : sequence.getTick j n ts = .ok tick) (hu : u.initialized = tick.initialized)
    (h : sequence.updateTick j n ts u = .ok sequence') :
    sequence'.map flags = sequence.map flags := by
  unfold updateTick at h
  unfold getTick at ht
  cases hj : sequence[j]? with
  | none => simp [hj] at h
  | some array =>
    rw [hj] at h ht
    simp only [Res.bind_eq_ok, Res.pure_eq_ok, Except.ok.injEq] at h
    obtain ⟨array', harray, rfl⟩ := h
    simp only [TickArray.updateTick, TickArray.getTick, Res.bind_eq_ok, Res.pure_eq_ok,
      Except.ok.injEq] at harray ht
    obtain ⟨i, hi, rfl⟩ := harray
    obtain ⟨i', hi', rfl⟩ := ht
    rw [hi, Except.ok.injEq] at hi'
    subst hi'
    have hflags : flags { array with
        ticks := Function.update array.ticks i ((array.ticks i).update u) } = flags array := by
      unfold flags
      refine Prod.ext rfl (funext fun o => ?_)
      dsimp only
      rcases eq_or_ne o i with rfl | hne
      · rw [Function.update_self, Tick.update_eq, hu]
      · rw [Function.update_of_ne hne]
    refine List.ext_getElem? fun m => ?_
    rw [List.map_set, hflags, List.getElem?_set]
    split_ifs with hm hlt
    · rw [← hm, List.getElem?_map, hj]
      rfl
    · rw [List.getElem?_eq_none (by omega)]
    · rfl

end SwapTickSequence

/-! ## One iteration -/

open SwapTickSequence

/-- `apply_factors` keeps what its multiplication keeps. -/
lemma applyFactors_invariant {mul : ℕ → ℕ → Res ℕ} {P : ℕ → Prop} {tick : ℕ}
    (hmul : ∀ a b r, mul a b = .ok r → P r) :
    ∀ (factors : List ℕ) (i ratio : ℕ) {r : ℕ}, P ratio →
      applyFactors mul tick i factors ratio = .ok r → P r
  | [], _, _, _, hP, h => by
    rw [applyFactors, Except.ok.injEq] at h
    exact h ▸ hP
  | factor :: factors, i, ratio, r, hP, h => by
    rw [applyFactors] at h
    split_ifs at h with hbit
    · rw [Res.bind_eq_ok] at h
      obtain ⟨ratio', hratio, h⟩ := h
      exact applyFactors_invariant hmul factors (i + 1) ratio' (hmul _ _ _ hratio) h
    · rw [Res.ok_bind] at h
      exact applyFactors_invariant hmul factors (i + 1) ratio hP h

/-- A price of a tick is a `u128`, also outside of the tick range.

**Proof sketch.** Every multiplication of the code is checked to fit in 128 bits, and so is the
final shift. -/
lemma sqrtPriceFromTickIndex_lt {n : ℤ} {q : ℕ} (h : sqrtPriceFromTickIndex n = .ok q) :
    q < 2 ^ 128 := by
  unfold sqrtPriceFromTickIndex at h
  split_ifs at h with hn
  · unfold getSqrtPricePositiveTick at h
    simp only [Res.bind_eq_ok, Res.pure_eq_ok, Except.ok.injEq] at h
    obtain ⟨r, hr, rfl⟩ := h
    have hlt : r < 2 ^ 128 := by
      refine applyFactors_invariant (P := (· < 2 ^ 128)) (fun a b x hx => ?_) _ _ _ ?_ hr
      · unfold mulShift96 at hx
        split at hx
        · next y hy =>
          rw [Except.ok.injEq] at hx
          obtain ⟨hlt, rfl⟩ := U256Muldiv.tryIntoU128_eq_ok.1 hy
          exact hx ▸ hlt
        · cases hx
      · split_ifs <;> norm_num [positiveFactor]
    exact (Nat.shiftRight_le r 32).trans_lt hlt
  · unfold getSqrtPriceNegativeTick at h
    refine applyFactors_invariant (P := (· < 2 ^ 128)) (fun a b x hx => ?_) _ _ _ ?_ h
    · rw [Except.ok.injEq] at hx
      rw [← hx]
      exact (Nat.shiftRight_le _ 64).trans_lt (Nat.mod_lt _ (by norm_num))
    · split_ifs <;> norm_num [negativeFactor]

variable {w : Whirlpool} {infos : Fin numRewards → WhirlpoolRewardInfo} {limit : ℕ}
  {input aToB : Bool} {s s' : SwapState}

/-- The bounds on the variables of the loop that the arithmetic of an iteration needs. -/
structure SwapState.Bounded (aToB : Bool) (s : SwapState) : Prop where
  price_lt : s.currSqrtPrice < 2 ^ 128
  price_pos : aToB = true → 0 < s.currSqrtPrice
  liquidity_lt : s.currLiquidity < 2 ^ 128
  remaining_lt : s.amountRemaining < 2 ^ 64

/-- A step that does not reach its target uses the amount up, whatever the target.

**Proof sketch.** Short of its target, an exact-input step takes the rest of the amount as its fee.
An exact-output step goes to a price whose output covers the amount, so its output, which is capped
by the amount, is all of it. -/
lemma computeSwap_exhausts {remaining feeRate l cur target calculated remaining' calculated' : ℕ}
    {comp : SwapStepComputation} (hl : l < 2 ^ 128) (hcur : cur < 2 ^ 128)
    (hpos : aToB = true → 0 < cur) (htarget : target < 2 ^ 128) (hrem : remaining < 2 ^ 64)
    (h : computeSwap remaining feeRate l cur target input aToB = .ok comp)
    (hshort : comp.nextPrice ≠ target)
    (hamounts : nextAmounts input remaining calculated comp = .ok (remaining', calculated')) :
    remaining' = 0 := by
  obtain ⟨hnext, hin, hout, hfee, -⟩ := computeSwap_eq_ok hl hcur htarget hrem h
  obtain ⟨hlt, hnext⟩ := hnext.resolve_left fun h => hshort h.2
  cases input with
  | true =>
    obtain ⟨hle, rfl, -⟩ := nextAmounts_input.1 hamounts
    rw [if_pos ⟨rfl, hshort⟩, wrappingSub_of_le hrem (by omega)] at hfee
    omega
  | false =>
    obtain ⟨-, rfl, -⟩ := nextAmounts_output.1 hamounts
    have hl0 : 0 < l := by
      rcases Nat.eq_zero_or_pos l with rfl | hl0
      · rw [fixedDelta_zero] at hlt
        omega
      · exact hl0
    rcases Nat.eq_zero_or_pos remaining with rfl | hrem0
    · omega
    have hcur0 : 0 < cur := by
      cases aToB with
      | true => exact hpos rfl
      | false =>
        -- the price zero has no next price in token A
        by_contra hcon
        obtain rfl : cur = 0 := by omega
        rcases getNextSqrtPriceFromA_eq_ok hcur hl hrem hnext with ⟨h0, -⟩ | ⟨-, hmin, -, -, hm⟩
        · omega
        · obtain ⟨-, hm⟩ := hm rfl
          rw [mul_zero, zero_mul, roundDiv_zero] at hm
          unfold minSqrtPriceX64 at hmin
          omega
    have hcover := getNextSqrtPrice_fixedDelta hl0 hl hcur0 hcur hrem hnext
    simp only [fixedDelta, Bool.false_eq_true, if_false] at hcover hout
    omega

/-- An iteration that reached the tick `n`, found in the array `j`. -/
structure Lands (w : Whirlpool) (aToB : Bool) (j : ℕ) (n : ℤ) (s s' : SwapState) : Prop where
  search : s.swapTickSequence.getNextInitializedTickIndex s.currTickIndex w.tickSpacing aToB
    s.currArrayIndex = .ok (j, n)
  price : sqrtPriceFromTickIndex n = .ok s'.currSqrtPrice
  tick : s'.currTickIndex = crossedIndex aToB n
  flags : s'.swapTickSequence.map flags = s.swapTickSequence.map flags
  array : ∃ o, s'.swapTickSequence.getTickOffset j n w.tickSpacing = .ok o ∧
    ((aToB = true ∧ o = 0) ∨ (aToB = false ∧ o = tickArraySize - 1) → s'.currArrayIndex = j + 1)

/-- A crossing keeps the places and flags of all ticks, and the liquidity a `u128`.

**Proof sketch.** A tick that is not initialized is not written. For one that is, the update has its
flag, and the new liquidity is checked to be a `u128`. -/
lemma crossTick_flags {j : ℕ} {n : ℤ} {l l' : ℕ} {g : Growth} {seq seq' : SwapTickSequence}
    (hl : l < 2 ^ 128) (h : crossTick w infos aToB j n l g seq = .ok (l', seq')) :
    seq'.map flags = seq.map flags ∧ l' < 2 ^ 128 := by
  unfold crossTick at h
  split at h
  · rw [Except.ok.injEq, Prod.mk.injEq] at h
    exact ⟨by rw [h.2], h.1 ▸ hl⟩
  · cases h
  · next tick htick =>
    by_cases hinit : tick.initialized = true
    · rw [if_pos hinit] at h
      unfold calculateUpdate at h
      cases aToB <;>
        · simp only [Bool.false_eq_true, if_true, if_false, Res.bind_eq_ok, Res.pure_eq_ok,
            Except.ok.injEq, Prod.mk.injEq, Prod.exists] at h
          obtain ⟨update, _, ⟨_, hnext, hupdate, rfl⟩, _, hseq, rfl, rfl⟩ := h
          exact ⟨flags_updateTick htick (hupdate ▸ rfl) hseq, addLiquidityDelta_lt hl hnext⟩
    · rw [if_neg hinit, Except.ok.injEq, Prod.mk.injEq] at h
      exact ⟨by rw [h.2], h.1 ▸ hl⟩

/-- **An iteration after which the loop goes on has reached the tick that its search found**,
which is not the bound of the tick range.

**Proof sketch.** Since the loop goes on, the amount is not used up, so the step has reached its
target, and as the price limit is not reached this is the price of the tick. The iteration then
moves the tick index to the tick and, past the last slot of its array, to the next array. -/
theorem swapStep_lands (hmin : minSqrtPriceX64 ≤ limit) (hmax : limit ≤ maxSqrtPriceX64)
    (hs : s.Bounded aToB) (h : swapStep w infos limit input aToB s = .ok s')
    (hrun : s'.Running limit) :
    s'.Bounded aToB ∧ ∃ j n, n ≠ tickBound aToB ∧ Lands w aToB j n s s' := by
  obtain ⟨j, n, q, comp, hsearch, hq, hcomp, hamounts, -, hprice, hadv⟩ := swapStep_eq_ok h
  have hq128 := sqrtPriceFromTickIndex_lt hq
  have hlimit : 0 < limit ∧ limit < 2 ^ 128 := price_bounds ⟨hmin, hmax⟩
  have htarget : (if aToB then max limit q else min limit q) < 2 ^ 128 := by
    split_ifs
    · exact max_lt hlimit.2 hq128
    · exact (min_le_left _ _).trans_lt hlimit.2
  have hreach : comp.nextPrice = if aToB then max limit q else min limit q := by
    by_contra hshort
    have := computeSwap_exhausts hs.liquidity_lt hs.price_lt hs.price_pos htarget hs.remaining_lt
      hcomp hshort hamounts
    exact absurd hrun.1 (by omega)
  -- the target is not the limit, so it is the price of the tick
  have hne : limit ≠ if aToB then max limit q else min limit q := fun he =>
    hrun.2 (he.trans (hreach.symm.trans hprice.symm))
  have hnextq : comp.nextPrice = q := by
    rw [hreach]
    cases aToB
    · exact (min_choice limit q).resolve_left hne.symm
    · exact (max_choice limit q).resolve_left hne.symm
  unfold advance at hadv
  rw [if_pos hnextq, Res.bind_eq_ok] at hadv
  obtain ⟨⟨l, seq⟩, hcross, hadv⟩ := hadv
  rw [Res.bind_eq_ok] at hadv
  obtain ⟨o, ho, hadv⟩ := hadv
  rw [Res.pure_eq_ok, Except.ok.injEq, Prod.mk.injEq, Prod.mk.injEq, Prod.mk.injEq] at hadv
  obtain ⟨rfl, rfl, harray, htick⟩ := hadv
  obtain ⟨hflags, hl⟩ := crossTick_flags hs.liquidity_lt hcross
  refine ⟨⟨?_, fun ha => ?_, hl, ?_⟩, j, n, ?_, hsearch, ?_, htick.symm, hflags, o, ho,
    fun hend => ?_⟩
  · rw [hprice, hnextq]
    exact hq128
  · rw [hprice, hreach, if_pos ha]
    exact lt_max_of_lt_left hlimit.1
  · refine lt_of_le_of_lt ?_ hs.remaining_lt
    cases input with
    | true => rw [(nextAmounts_input.1 hamounts).2.1]; exact Nat.sub_le _ _
    | false => rw [(nextAmounts_output.1 hamounts).2.1]; exact Nat.sub_le _ _
  · -- at the price of the bound the limit is reached
    rintro rfl
    refine hne ?_
    cases aToB with
    | true =>
      rw [tickBound, if_pos rfl, sqrtPriceFromTickIndex_eq (by decide), Except.ok.injEq] at hq
      rw [if_pos rfl, ← hq, show minTickIndex = -443636 from rfl, tickPrice_min, max_eq_left hmin]
    | false =>
      rw [tickBound, if_neg (by simp), sqrtPriceFromTickIndex_eq (by decide), Except.ok.injEq] at hq
      rw [if_neg (by simp), ← hq, show maxTickIndex = 443636 from rfl, tickPrice_max,
        min_eq_left hmax]
  · rw [hq, hprice, hnextq]
  · rw [← harray, if_pos hend]

/-! ## The number of iterations -/

/-- The number of iterations of the loop, of which at most `count` are run. -/
def swapIterations (w : Whirlpool) (infos : Fin numRewards → WhirlpoolRewardInfo) (limit : ℕ)
    (input aToB : Bool) : ℕ → SwapState → ℕ
  | 0, _ => 0
  | count + 1, s =>
    if s.Running limit then
      match swapStep w infos limit input aToB s with
      | .ok s' => swapIterations w infos limit input aToB count s' + 1
      | .error _ => 1
    else 0

/-- A loop that is done makes no further iteration. -/
lemma swapIterations_done {count : ℕ} (h : ¬s.Running limit) :
    swapIterations w infos limit input aToB count s = 0 := by
  cases count with
  | zero => rfl
  | succ count => exact if_neg h

/-- Past the last array the next iteration fails. -/
theorem swapStep_pastEnd (h : s.swapTickSequence.length ≤ s.currArrayIndex) :
    swapStep w infos limit input aToB s ≠ .ok s' := fun hstep => by
  obtain ⟨j, n, -, -, hsearch, -⟩ := swapStep_eq_ok hstep
  unfold getNextInitializedTickIndex at hsearch
  rw [List.drop_eq_nil_of_le h] at hsearch
  cases hsearch

/-- Past the last array there is at most one iteration, which fails. -/
lemma swapIterations_pastEnd {count : ℕ}
    (h : s.swapTickSequence.length ≤ s.currArrayIndex) :
    swapIterations w infos limit input aToB count s ≤ 1 := by
  cases count with
  | zero => exact Nat.zero_le 1
  | succ count =>
    unfold swapIterations
    split_ifs with hrun
    · rcases hstep : swapStep w infos limit input aToB s with e | s'
      · exact le_rfl
      · exact absurd hstep (swapStep_pastEnd h)
    · exact Nat.zero_le 1

/-- The edge of an array lies in its last slot, in the direction of the search. -/
theorem getOffset_edge {ts : ℕ} {array : TickArray} (hts : ts ≠ 0) :
    TickArray.getOffset (edge aToB ts array) array.startTickIndex ts =
      if aToB then 0 else (tickArraySize : ℤ) - 1 := by
  have hpos : (0 : ℤ) < ts := by exact_mod_cast Nat.pos_of_ne_zero hts
  rw [TickArray.getOffset_eq _ _ hts]
  unfold edge
  cases aToB with
  | true => rw [if_pos rfl, if_pos rfl, sub_self, Int.zero_ediv]
  | false =>
    rw [if_neg Bool.false_ne_true, if_neg Bool.false_ne_true, Int.ediv_eq_iff_of_pos hpos]
    have : (tickArraySize : ℤ) = 88 := rfl
    rw [this]
    constructor <;> linarith

/-- An iteration that reached the last slot of the last array has left the arrays.

**Proof sketch.** An iteration keeps the number of arrays and their starts. The tick is in the slot
of the last array after which the source moves on to the next one, so the index of the current array
is the number of arrays. -/
theorem Lands.pastEnd {j : ℕ} {n : ℤ} (h : Lands w aToB j n s s') {array : TickArray}
    (hj : s.swapTickSequence[j]? = some array) (hlast : j + 1 = s.swapTickSequence.length)
    (hslot : TickArray.getOffset n array.startTickIndex w.tickSpacing =
      if aToB then 0 else (tickArraySize : ℤ) - 1) :
    s'.swapTickSequence.length ≤ s'.currArrayIndex := by
  have hlen : s'.swapTickSequence.length = s.swapTickSequence.length := by
    simpa using congrArg List.length h.flags
  obtain ⟨o, ho, harray⟩ := h.array
  have hstart : ∃ array', s'.swapTickSequence[j]? = some array' ∧
      array'.startTickIndex = array.startTickIndex := by
    have hmap := congrArg (fun l => l[j]?) h.flags
    simp only [List.getElem?_map, hj, Option.map_some] at hmap
    obtain ⟨array', ha, hf⟩ := Option.map_eq_some_iff.1 hmap
    exact ⟨array', ha, congrArg Prod.fst hf⟩
  obtain ⟨array', ha, hs⟩ := hstart
  unfold getTickOffset at ho
  rw [ha] at ho
  unfold TickArray.tickOffset at ho
  rw [ite_err_eq_ok, Except.ok.injEq, hs] at ho
  obtain ⟨-, ho⟩ := ho
  rw [hslot] at ho
  rw [harray ?_]
  · omega
  · cases aToB with
    | true => exact Or.inl ⟨rfl, ho.symm⟩
    | false => exact Or.inr ⟨rfl, ho.symm⟩

/-- An iteration that reached an initialized tick leaves fewer of them ahead; one that reached
anything else has left the arrays. -/
lemma Lands.progress {j : ℕ} {n : ℤ} (h : Lands w aToB j n s s') (hn : n ≠ tickBound aToB) :
    Ahead aToB s.currTickIndex n ∧
      (initializedAhead w.tickSpacing aToB s'.currTickIndex s'.swapTickSequence <
          initializedAhead w.tickSpacing aToB s.currTickIndex s.swapTickSequence ∨
        s'.swapTickSequence.length ≤ s'.currArrayIndex) := by
  have hsearch := h.search
  unfold getNextInitializedTickIndex at hsearch
  obtain ⟨hahead, k, rfl, array, hk, hfound⟩ :=
    (searchArrays_found _ _ hsearch).resolve_left hn
  rw [List.getElem?_drop] at hk
  refine ⟨hahead, ?_⟩
  rcases hfound with ⟨o, hinit, ho⟩ | ⟨hlast, hedge⟩
  · left
    rw [initializedAhead_congr h.flags, h.tick]
    exact initializedAhead_lt hk hinit ho hahead
  · rw [List.length_drop] at hlast
    have hts := spacing_ne_zero h.search
    exact Or.inr (h.pastEnd hk (by omega) (hedge ▸ getOffset_edge hts))

/-- **The bound on the iterations.** -/
theorem swapIterations_le (hmin : minSqrtPriceX64 ≤ limit) (hmax : limit ≤ maxSqrtPriceX64) :
    ∀ (count : ℕ) {s : SwapState}, s.Bounded aToB →
      swapIterations w infos limit input aToB count s ≤
        initializedAhead w.tickSpacing aToB s.currTickIndex s.swapTickSequence + 2
  | 0, _, _ => Nat.zero_le _
  | count + 1, s, hs => by
    unfold swapIterations
    split_ifs with hrun
    · rcases hstep : swapStep w infos limit input aToB s with e | s'
      · simp only
        omega
      simp only
      by_cases hrun' : s'.Running limit
      · obtain ⟨hs', j, n, hn, hlands⟩ := swapStep_lands hmin hmax hs hstep hrun'
        rcases (hlands.progress hn).2 with hlt | hend
        · have := swapIterations_le hmin hmax count hs'
          omega
        · have hone : swapIterations w infos limit input aToB count s' ≤ 1 :=
            swapIterations_pastEnd hend
          omega
      · rw [swapIterations_done hrun']
        omega
    · exact Nat.zero_le _

/-- A loop whose iterations are bounded does the same with any larger bound. -/
lemma swapLoop_of_swapIterations (extra : ℕ) : ∀ (n : ℕ) {s : SwapState},
    (∀ count, swapIterations w infos limit input aToB count s ≤ n) →
      swapLoop w infos limit input aToB (n + 1 + extra) s =
        swapLoop w infos limit input aToB (n + 1) s
  | n, s, h => by
    rw [Nat.add_right_comm]
    by_cases hrun : s.Running limit
    · rw [swapLoop_running hrun, swapLoop_running hrun]
      rcases hstep : swapStep w infos limit input aToB s with e | s'
      · rfl
      have hcount : ∀ count, swapIterations w infos limit input aToB count s' + 1 ≤ n := by
        intro count
        have := h (count + 1)
        rwa [swapIterations, if_pos hrun, hstep] at this
      obtain ⟨m, rfl⟩ : ∃ m, n = m + 1 := ⟨n - 1, by have := hcount 0; omega⟩
      rw [Res.ok_bind, Res.ok_bind]
      exact swapLoop_of_swapIterations extra m fun count => Nat.le_of_succ_le_succ (hcount count)
    · rw [swapLoop_done hrun, swapLoop_done hrun]

/-- While the loop goes on, its variables are in bounds. -/
lemma Iterates.bounded (hmin : minSqrtPriceX64 ≤ limit) (hmax : limit ≤ maxSqrtPriceX64)
    {s₀ : SwapState} (hs₀ : s₀.Bounded aToB) (h : Iterates w infos limit input aToB s₀ s)
    (hrun : s.Running limit) : s.Bounded aToB := by
  induction h with
  | refl => exact hs₀
  | tail _ hnext ih => exact (swapStep_lands hmin hmax (ih hnext.1) hnext.2 hrun).1

/-- Each array has at most 88 initialized ticks. -/
lemma initializedTicks_le (sequence : SwapTickSequence) :
    sequence.initializedTicks ≤ sequence.length * tickArraySize := by
  unfold initializedTicks
  refine (List.sum_le_card_nsmul _ tickArraySize fun x hx => ?_).trans_eq (by simp)
  obtain ⟨array, -, rfl⟩ := List.mem_map.1 hx
  exact (Finset.card_le_univ _).trans_eq (Fintype.card_fin _)

/-- **The swap loop always terminates**: it performs at most two iterations more than there are
initialized ticks in the arrays, and an iteration that does not end it lands on the price of the
next tick and moves the search index in the direction of the trade.

**Proof sketch.** Every iteration that does not end the loop lands on an initialized tick, and moves
the search past it, or on the edge of the last array, after which the search fails. So the number of
initialized ticks ahead bounds the iterations, and the loop has more of them than it needs. -/
theorem swapLoop_terminates {amount : ℕ} (sequence : SwapTickSequence)
    (hlen : 1 ≤ sequence.length ∧ sequence.length ≤ 3)
    (hprice : PriceAt w.tickCurrentIndex w.sqrtPrice) (hliquidity : w.liquidity < 2 ^ 128)
    (hmin : minSqrtPriceX64 ≤ limit) (hmax : limit ≤ maxSqrtPriceX64) (hamount : amount < 2 ^ 64) :
    (∀ count, swapIterations w infos limit input aToB count
        (initialSwapState w sequence amount aToB) ≤ sequence.initializedTicks + 2) ∧
      (∀ extra, swapLoop w infos limit input aToB (swapBound + extra)
          (initialSwapState w sequence amount aToB) =
        swapLoop w infos limit input aToB swapBound (initialSwapState w sequence amount aToB)) ∧
      ∀ s s', Iterates w infos limit input aToB (initialSwapState w sequence amount aToB) s →
        s.Running limit → swapStep w infos limit input aToB s = .ok s' → s'.Running limit →
        ∃ j n, s.swapTickSequence.getNextInitializedTickIndex s.currTickIndex w.tickSpacing aToB
            s.currArrayIndex = .ok (j, n) ∧
          sqrtPriceFromTickIndex n = .ok s'.currSqrtPrice ∧
          (if aToB then s'.currTickIndex < s.currTickIndex
            else s.currTickIndex < s'.currTickIndex) := by
  have hs₀ : (initialSwapState w sequence amount aToB).Bounded aToB :=
    ⟨hprice.lt, fun _ => hprice.pos, hliquidity, hamount⟩
  have hiter : ∀ count, swapIterations w infos limit input aToB count
      (initialSwapState w sequence amount aToB) ≤ sequence.initializedTicks + 2 := fun count =>
    (swapIterations_le hmin hmax count hs₀).trans
      (Nat.add_le_add_right initializedAhead_le 2)
  refine ⟨hiter, fun extra => ?_, fun s s' hs hrun hstep hrun' => ?_⟩
  · have hle := initializedTicks_le sequence
    have hbound : ∀ count, swapIterations w infos limit input aToB count
        (initialSwapState w sequence amount aToB) ≤ 887275 := fun count => by
      have := hiter count
      have hsize : tickArraySize = 88 := rfl
      rw [hsize] at hle
      omega
    exact swapLoop_of_swapIterations extra 887275 hbound
  · obtain ⟨-, j, n, hn, hlands⟩ :=
      swapStep_lands hmin hmax (hs.bounded hmin hmax hs₀ hrun) hstep hrun'
    have hahead := (hlands.progress hn).1
    refine ⟨j, n, hlands.search, hlands.price, ?_⟩
    rw [hlands.tick]
    unfold Ahead at hahead
    unfold crossedIndex
    cases aToB with
    | true =>
      simp only [if_true] at hahead ⊢
      omega
    | false => simpa using hahead

/-- The record of a pool at the price of the tick 100. -/
def sampleTrader : Whirlpool :=
  ⟨true, 1, 64, 3000, 300, 10 ^ 9, 18539204128674405812, 100, 0, 0, 1, 0, 2, 0, 0,
    fun _ => .new 5⟩

/-- The sample pool is at the tick of its price. -/
lemma sampleTrader_priceAt : PriceAt sampleTrader.tickCurrentIndex sampleTrader.sqrtPrice :=
  ⟨by decide +kernel, by decide +kernel, by decide +kernel, by decide +kernel, by decide,
    by decide⟩

/-- The variables before the first iteration of a trade of `10 ^ 8` in the sample arrays. -/
def sampleStart : SwapState := initialSwapState sampleTrader sampleArrays (10 ^ 8) true

/-- A trade through three arrays, in which the first iteration crosses the only initialized tick
and takes the liquidity of its position out. It needs two iterations, and could need three. -/
theorem swapLoop_terminates_sampleArrays :
    (∀ count, swapIterations sampleTrader (fun _ => .new 5) 18000000000000000000 true true count
        sampleStart ≤ 3) ∧
      swapIterations sampleTrader (fun _ => .new 5) 18000000000000000000 true true 9
        sampleStart = 2 ∧
      ∃ s', swapStep sampleTrader (fun _ => .new 5) 18000000000000000000 true true sampleStart =
          .ok s' ∧ s'.currLiquidity = 0 ∧ s'.currArrayIndex = 1 ∧
        s'.currTickIndex < sampleStart.currTickIndex ∧
        ∃ j n, getNextInitializedTickIndex sampleArrays 100 64 true 0 = .ok (j, n) ∧
          sqrtPriceFromTickIndex n = .ok s'.currSqrtPrice := by
  obtain ⟨s', hstep, hcrossed⟩ := Res.map_eq_ok.1 (show
    (swapStep sampleTrader (fun _ => .new 5) 18000000000000000000 true true sampleStart).map
      (fun s => (s.amountRemaining, s.currSqrtPrice, s.currLiquidity, s.currArrayIndex)) =
      .ok (88558200, 18329067761203520168, 0, 1) by decide +kernel)
  simp only [Prod.mk.injEq] at hcrossed
  obtain ⟨hremaining, hprice, hliquidity, harray⟩ := hcrossed
  obtain ⟨hcount, -, hlands⟩ := @swapLoop_terminates sampleTrader (fun _ => .new 5)
    18000000000000000000 true true (10 ^ 8) sampleArrays (by decide) sampleTrader_priceAt
    (by decide) (by decide) (by decide +kernel) (by norm_num)
  have hrunning : s'.Running 18000000000000000000 :=
    ⟨by rw [hremaining]; norm_num, by rw [hprice]; norm_num⟩
  obtain ⟨j, n, hsearch, hn, htick⟩ := hlands sampleStart s' .refl ⟨by decide, by decide⟩ hstep
    hrunning
  have hticks : sampleArrays.initializedTicks = 1 := by decide +kernel
  refine ⟨fun count => ?_, by decide +kernel, s', hstep, hliquidity, harray, htick, j, n, hsearch,
    hn⟩
  have := hcount count
  rwa [hticks] at this

end NemoSwap
