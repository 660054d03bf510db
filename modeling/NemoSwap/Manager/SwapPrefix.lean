import NemoSwap.Manager.SwapStep

set_option relaxedAutoImplicit false
set_option autoImplicit false

/-!
# A swap needs only the arrays that its searches end in

The arrays behind the last one that a search ended in are never read, so a swap without them
goes the same way.

## Main definitions

* `NemoSwap.SwapState.take` — the variables of a swap with its first arrays only.

## Main results

* `NemoSwap.SwapTickSequence.getNextInitializedTickIndex_take` — the search in the first arrays.
* `NemoSwap.swapStep_take` — an iteration with the first arrays.
* `NemoSwap.swapStep_drop` — an iteration writes to none of the other arrays.
-/

namespace NemoSwap

namespace SwapTickSequence

variable {ts : ℕ} {aToB : Bool} {seq seq' : SwapTickSequence}

/-- A search that ends in one of the first arrays needs no others.

**Proof sketch.** Induction on the arrays. The search in the first array is the same; if it goes on
in the next array, the place where it ends is one further, so the next array is kept too. -/
lemma searchArrays_take {j : ℕ} {n : ℤ} : ∀ (seq : SwapTickSequence) (k : ℕ) (idx : ℤ),
    searchArrays ts aToB seq k idx = .ok (j, n) → k ≤ j ∧ ∀ count, j < k + count →
      searchArrays ts aToB (seq.take count) k idx = .ok (j, n)
  | [], _, _, h => by simp [searchArrays] at h
  | array :: rest, k, idx, h => by
    rw [searchArrays, Res.bind_eq_ok] at h
    obtain ⟨r, hr, h⟩ := h
    -- the first array is read; what is left of the others decides only if the search leaves it
    have hhere : ∀ count, k < k + count → ∃ c, (array :: rest).take count = array :: rest.take c ∧
        count = c + 1 := by
      intro count hcount
      obtain ⟨c, rfl⟩ : ∃ c, count = c + 1 := ⟨count - 1, by omega⟩
      exact ⟨c, rfl, rfl⟩
    cases r with
    | some m =>
      simp only [Res.pure_eq_ok, Except.ok.injEq, Prod.mk.injEq] at h
      obtain ⟨rfl, rfl⟩ := h
      refine ⟨le_rfl, fun count hcount => ?_⟩
      obtain ⟨c, hc, -⟩ := hhere count hcount
      rw [hc, searchArrays, hr]
      rfl
    | none =>
      simp only at h
      by_cases hmin : (aToB && array.isMinTickArray) = true
      · rw [if_pos hmin, Res.pure_eq_ok, Except.ok.injEq, Prod.mk.injEq] at h
        obtain ⟨rfl, rfl⟩ := h
        refine ⟨le_rfl, fun count hcount => ?_⟩
        obtain ⟨c, hc, -⟩ := hhere count hcount
        rw [hc, searchArrays, hr, Res.ok_bind]
        simp only
        rw [if_pos hmin]
        rfl
      rw [if_neg hmin] at h
      by_cases hmax : (!aToB && array.isMaxTickArray ts) = true
      · rw [if_pos hmax, Res.pure_eq_ok, Except.ok.injEq, Prod.mk.injEq] at h
        obtain ⟨rfl, rfl⟩ := h
        refine ⟨le_rfl, fun count hcount => ?_⟩
        obtain ⟨c, hc, -⟩ := hhere count hcount
        rw [hc, searchArrays, hr, Res.ok_bind]
        simp only
        rw [if_neg hmin, if_pos hmax]
        rfl
      rw [if_neg hmax] at h
      by_cases hrest : rest = []
      · subst hrest
        have hkj : j = k := by
          rw [if_pos rfl] at h
          split_ifs at h <;>
            · rw [Res.pure_eq_ok, Except.ok.injEq, Prod.mk.injEq] at h
              exact h.1.symm
        subst hkj
        refine ⟨le_rfl, fun count hcount => ?_⟩
        obtain ⟨c, hc, -⟩ := hhere count hcount
        rw [hc, List.take_nil, searchArrays, hr, Res.ok_bind]
        simp only
        rw [if_neg hmin, if_neg hmax]
        exact h
      · rw [if_neg hrest] at h
        obtain ⟨hkj, htake⟩ := searchArrays_take rest (k + 1) _ h
        refine ⟨by omega, fun count hcount => ?_⟩
        obtain ⟨c, hc, rfl⟩ := hhere count (by omega)
        have hne : rest.take c ≠ [] := by
          rw [Ne, List.take_eq_nil_iff, not_or]
          exact ⟨by omega, hrest⟩
        rw [hc, searchArrays, hr, Res.ok_bind]
        simp only
        rw [if_neg hmin, if_neg hmax, if_neg hne]
        exact htake c (by omega)

/-- So does the search of the source. -/
theorem getNextInitializedTickIndex_take {idx n : ℤ} {i j count : ℕ}
    (h : seq.getNextInitializedTickIndex idx ts aToB i = .ok (j, n)) (hj : j < count) :
    getNextInitializedTickIndex (seq.take count) idx ts aToB i = .ok (j, n) := by
  obtain ⟨hij, htake⟩ := searchArrays_take _ i idx h
  unfold getNextInitializedTickIndex
  rw [List.drop_take]
  exact htake (count - i) (by omega)

/-- The arrays that are kept are found where they were. -/
lemma getElem?_take_of_lt {j count : ℕ} (hj : j < count) :
    (seq.take count)[j]? = seq[j]? := by
  rw [List.getElem?_take, if_pos hj]

/-- A tick of an array that is kept is read as before. -/
lemma getTick_take {j count : ℕ} (hj : j < count) (n : ℤ) :
    getTick (seq.take count) j n ts = seq.getTick j n ts := by
  unfold getTick
  rw [getElem?_take_of_lt hj]

/-- A tick of an array that is kept has the same offset as before. -/
lemma getTickOffset_take {j count : ℕ} (hj : j < count) (n : ℤ) :
    getTickOffset (seq.take count) j n ts = seq.getTickOffset j n ts := by
  unfold getTickOffset
  rw [getElem?_take_of_lt hj]

/-- A tick of an array that is kept is updated as before. -/
lemma updateTick_take {j count : ℕ} {n : ℤ} {u : TickUpdate} (hj : j < count)
    (h : seq.updateTick j n ts u = .ok seq') :
    updateTick (seq.take count) j n ts u = .ok (seq'.take count) := by
  unfold updateTick at h ⊢
  rw [getElem?_take_of_lt hj]
  cases hk : seq[j]? with
  | none =>
    rw [hk] at h
    cases h
  | some array =>
    rw [hk] at h
    simp only [Res.bind_eq_ok, Res.pure_eq_ok, Except.ok.injEq] at h ⊢
    obtain ⟨array', harray, rfl⟩ := h
    exact ⟨array', harray, by rw [List.take_set]⟩

/-- An update of an array that is kept leaves the other arrays alone. -/
lemma updateTick_drop {j count : ℕ} {n : ℤ} {u : TickUpdate} (hj : j < count)
    (h : seq.updateTick j n ts u = .ok seq') : seq'.drop count = seq.drop count := by
  unfold updateTick at h
  cases hk : seq[j]? with
  | none =>
    rw [hk] at h
    cases h
  | some array =>
    rw [hk] at h
    simp only [Res.bind_eq_ok, Res.pure_eq_ok, Except.ok.injEq] at h
    obtain ⟨array', -, rfl⟩ := h
    rw [List.drop_set, if_pos hj]

end SwapTickSequence

/-- The variables of a swap with its first arrays only. -/
def SwapState.take (s : SwapState) (count : ℕ) : SwapState :=
  { s with swapTickSequence := s.swapTickSequence.take count }

variable {w : Whirlpool} {infos : Fin numRewards → WhirlpoolRewardInfo} {limit : ℕ}
  {input aToB : Bool} {s s' : SwapState}

/-- A crossing in one of the first arrays.

**Proof sketch.** Reading the tick and updating it happen in its own array, which is kept. -/
lemma crossTick_take {j count : ℕ} {n : ℤ} {l l' : ℕ} {g : Growth}
    {seq seq' : SwapTickSequence} (hj : j < count)
    (h : crossTick w infos aToB j n l g seq = .ok (l', seq')) :
    crossTick w infos aToB j n l g (seq.take count) = .ok (l', seq'.take count) := by
  unfold crossTick at h ⊢
  rw [SwapTickSequence.getTick_take hj]
  cases htick : seq.getTick j n w.tickSpacing with
  | error failure =>
    rw [htick] at h
    cases failure with
    | error code =>
      simp only [Except.ok.injEq, Prod.mk.injEq] at h ⊢
      exact ⟨h.1, by rw [h.2]⟩
    | _ => cases h
  | ok tick =>
    rw [htick] at h
    simp only at h ⊢
    cases hinit : tick.initialized with
    | false =>
      rw [hinit, if_neg Bool.false_ne_true, Except.ok.injEq, Prod.mk.injEq] at h
      rw [if_neg Bool.false_ne_true, h.1, h.2]
    | true =>
      rw [hinit, if_pos rfl, Res.bind_eq_ok] at h
      rw [if_pos rfl, Res.bind_eq_ok]
      obtain ⟨⟨u, l₁⟩, hupdate, h⟩ := h
      rw [Res.bind_eq_ok] at h
      obtain ⟨seq₁, hseq, h⟩ := h
      simp only [Res.pure_eq_ok, Except.ok.injEq, Prod.mk.injEq] at h
      obtain ⟨rfl, rfl⟩ := h
      refine ⟨(u, l₁), hupdate, ?_⟩
      rw [SwapTickSequence.updateTick_take hj hseq]
      rfl

/-- A crossing writes to the array of the tick only.

**Proof sketch.** The only array that is written to is the one of the tick. -/
lemma crossTick_drop {j count : ℕ} {n : ℤ} {l l' : ℕ} {g : Growth}
    {seq seq' : SwapTickSequence} (hj : j < count)
    (h : crossTick w infos aToB j n l g seq = .ok (l', seq')) :
    seq'.drop count = seq.drop count := by
  unfold crossTick at h
  cases htick : seq.getTick j n w.tickSpacing with
  | error failure =>
    rw [htick] at h
    cases failure with
    | error code =>
      simp only [Except.ok.injEq, Prod.mk.injEq] at h
      rw [h.2]
    | _ => cases h
  | ok tick =>
    rw [htick] at h
    simp only at h
    cases hinit : tick.initialized with
    | false =>
      rw [hinit, if_neg Bool.false_ne_true, Except.ok.injEq, Prod.mk.injEq] at h
      rw [h.2]
    | true =>
      rw [hinit, if_pos rfl, Res.bind_eq_ok] at h
      obtain ⟨⟨u, l₁⟩, -, h⟩ := h
      rw [Res.bind_eq_ok] at h
      obtain ⟨seq₁, hseq, h⟩ := h
      simp only [Res.pure_eq_ok, Except.ok.injEq, Prod.mk.injEq] at h
      obtain ⟨-, rfl⟩ := h
      exact SwapTickSequence.updateTick_drop hj hseq

/-- An iteration writes to no array behind the one that its search ends in.

**Proof sketch.** An iteration that does not reach its price, or does not cross a tick, writes
nothing; a crossing writes into the array in which the search ended. -/
theorem swapStep_drop {j count : ℕ} {n : ℤ}
    (hsearch : s.swapTickSequence.getNextInitializedTickIndex s.currTickIndex w.tickSpacing aToB
      s.currArrayIndex = .ok (j, n)) (hj : j < count)
    (h : swapStep w infos limit input aToB s = .ok s') :
    s'.swapTickSequence.drop count = s.swapTickSequence.drop count := by
  obtain ⟨j₁, n₁, q, comp, hsearch₁, -, -, -, -, -, hadv⟩ := swapStep_eq_ok h
  rw [hsearch, Except.ok.injEq, Prod.mk.injEq] at hsearch₁
  obtain ⟨rfl, rfl⟩ := hsearch₁
  unfold advance at hadv
  by_cases hreach : comp.nextPrice = q
  · rw [if_pos hreach] at hadv
    simp only [Res.bind_eq_ok, Prod.exists, Res.pure_eq_ok, Except.ok.injEq,
      Prod.mk.injEq] at hadv
    obtain ⟨l, seq₁, hcross, o, -, -, rfl, -, -⟩ := hadv
    exact crossTick_drop hj hcross
  · rw [if_neg hreach] at hadv
    by_cases hmoved : comp.nextPrice ≠ s.currSqrtPrice
    · rw [if_pos hmoved] at hadv
      simp only [Res.bind_eq_ok, Res.pure_eq_ok, Except.ok.injEq, Prod.mk.injEq] at hadv
      obtain ⟨t, -, -, hseq, -⟩ := hadv
      rw [← hseq]
    · rw [if_neg hmoved] at hadv
      simp only [Except.ok.injEq, Prod.mk.injEq] at hadv
      rw [← hadv.2.1]

/-- **An iteration whose search ends in one of the first arrays needs no others.**

**Proof sketch.** The search, the crossing and the offset of the tick are the same in the arrays
that are kept, and the computation of the step does not read the arrays. -/
theorem swapStep_take {j count : ℕ} {n : ℤ} (hsearch : s.swapTickSequence.getNextInitializedTickIndex
      s.currTickIndex w.tickSpacing aToB s.currArrayIndex = .ok (j, n)) (hj : j < count)
    (h : swapStep w infos limit input aToB s = .ok s') :
    swapStep w infos limit input aToB (s.take count) = .ok (s'.take count) := by
  have htake := SwapTickSequence.getNextInitializedTickIndex_take hsearch hj
  unfold swapStep at h ⊢
  simp only [SwapState.take]
  rw [hsearch, Res.ok_bind] at h
  rw [htake, Res.ok_bind]
  simp only [Res.bind_eq_ok, Prod.exists] at h ⊢
  obtain ⟨q, target, hprices, comp, hcomp, rem, other, hamounts, fee, growth, hfees, liq, seq, array,
    tick, hadv, h⟩ := h
  rw [Res.pure_eq_ok, Except.ok.injEq] at h
  subst h
  refine ⟨q, target, hprices, comp, hcomp, rem, other, hamounts, fee, growth, hfees, liq,
    seq.take count, array, tick, ?_, rfl⟩
  unfold advance at hadv ⊢
  by_cases hreach : comp.nextPrice = q
  · rw [if_pos hreach] at hadv ⊢
    simp only [Res.bind_eq_ok, Prod.exists, Res.pure_eq_ok, Except.ok.injEq,
      Prod.mk.injEq] at hadv ⊢
    obtain ⟨l, seq₁, hcross, o, hoffset, rfl, rfl, harray, htick⟩ := hadv
    refine ⟨l, seq₁.take count, crossTick_take hj hcross, o, ?_, rfl, rfl, harray, htick⟩
    rw [SwapTickSequence.getTickOffset_take hj, hoffset]
  · rw [if_neg hreach] at hadv ⊢
    by_cases hmoved : comp.nextPrice ≠ s.currSqrtPrice
    · rw [if_pos hmoved] at hadv ⊢
      simp only [Res.bind_eq_ok, Res.pure_eq_ok, Except.ok.injEq, Prod.mk.injEq] at hadv ⊢
      obtain ⟨t, ht, rfl, rfl, rfl, rfl⟩ := hadv
      exact ⟨t, ht, rfl, rfl, rfl, rfl⟩
    · rw [if_neg hmoved] at hadv ⊢
      simp only [Except.ok.injEq, Prod.mk.injEq] at hadv ⊢
      obtain ⟨rfl, rfl, rfl, rfl⟩ := hadv
      exact ⟨rfl, rfl, rfl, rfl⟩

end NemoSwap
