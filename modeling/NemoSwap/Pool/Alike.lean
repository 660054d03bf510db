import NemoSwap.Lib.SameOutcome
import NemoSwap.Pool.Trade

set_option relaxedAutoImplicit false
set_option autoImplicit false

/-!
# Pools that look alike

The growths outside the ticks, and the checkpoints of the positions, are the private notes of the
accounting: the program only ever uses differences of them. Two pools are alike if they agree but
for these notes. A swap does the same in pools that are alike: it succeeds in both or fails in both
for the same reason, its iterations log the same growth, and it leaves the pools alike.

## Main definitions

* `NemoSwap.Tick.Alike`, `NemoSwap.TickArray.Alike`, `NemoSwap.Position.Alike`,
  `NemoSwap.Pool.Alike` — agreement but for the notes.

## Main results

* `NemoSwap.SwapState.Alike.swapStep`, `NemoSwap.SwapTrace.Alike.traceLoop` — the loop of a swap.
* `NemoSwap.Pool.Alike.swapLeg`, `NemoSwap.Pool.Alike.swapHandler` — a swap.
-/

namespace NemoSwap

/-! ## Ticks -/

/-- Ticks that agree but for the growths outside. -/
structure Tick.Alike (a b : Tick) : Prop where
  initialized : b.initialized = a.initialized
  liquidityNet : b.liquidityNet = a.liquidityNet
  liquidityGross : b.liquidityGross = a.liquidityGross

/-- A tick is alike itself. -/
lemma Tick.Alike.refl (a : Tick) : a.Alike a := ⟨rfl, rfl, rfl⟩

/-- Tick arrays whose ticks are alike. -/
structure TickArray.Alike (a b : TickArray) : Prop where
  startTickIndex : b.startTickIndex = a.startTickIndex
  ticks : ∀ i, (a.ticks i).Alike (b.ticks i)

namespace TickArray

/-- A tick array is alike itself. -/
lemma Alike.refl (a : TickArray) : a.Alike a := ⟨rfl, fun i => Tick.Alike.refl (a.ticks i)⟩

variable {a b : TickArray} {t : ℤ} {ts : ℕ}

/-- The search in an array reads only which ticks are initialized. -/
lemma searchOffset_congr {ticks ticks' : Fin tickArraySize → Tick}
    (h : ∀ i, (ticks i).Alike (ticks' i)) (aToB : Bool) : ∀ (count : ℕ) (offset : ℤ),
    searchOffset ticks' aToB count offset = searchOffset ticks aToB count offset
  | 0, _ => rfl
  | count + 1, offset => by
    unfold searchOffset
    simp only [(h _).initialized, searchOffset_congr h aToB count]

/-- The functions of an array that read only its start index. -/
lemma Alike.functions (h : a.Alike b) (t : ℤ) (ts : ℕ) :
    (∀ shifted, b.inSearchRange t ts shifted = a.inSearchRange t ts shifted) ∧
      b.isMinTickArray = a.isMinTickArray ∧ b.isMaxTickArray ts = a.isMaxTickArray ts ∧
      b.tickOffset t ts = a.tickOffset t ts ∧ b.checkedOffset t ts = a.checkedOffset t ts := by
  obtain ⟨start, ticks⟩ := a
  obtain ⟨start', ticks'⟩ := b
  obtain rfl : start' = start := h.startTickIndex
  exact ⟨fun _ => rfl, rfl, rfl, rfl, rfl⟩

/-- Arrays that are alike have the same next initialized tick. -/
theorem Alike.getNextInitTickIndex (h : a.Alike b) (t : ℤ) (ts : ℕ) (aToB : Bool) :
    b.getNextInitTickIndex t ts aToB = a.getNextInitTickIndex t ts aToB := by
  obtain ⟨h1, -, -, h2, -⟩ := h.functions t ts
  unfold TickArray.getNextInitTickIndex
  rw [h1, h2, h.startTickIndex]
  simp only [searchOffset_congr h.ticks]

/-- Ticks read from arrays that are alike are alike. -/
lemma Alike.getTick (h : a.Alike b) (t : ℤ) (ts : ℕ) :
    SameOutcome Tick.Alike (a.getTick t ts) (b.getTick t ts) := by
  unfold TickArray.getTick
  rw [(h.functions t ts).2.2.2.2]
  exact .bind_self fun i _ => .ok (h.ticks i)

/-- Updates that are alike leave arrays alike. -/
theorem Alike.updateTick (h : a.Alike b) {u v : TickUpdate} (huv : Tick.Alike u v) (t : ℤ)
    (ts : ℕ) : SameOutcome Alike (a.updateTick t ts u) (b.updateTick t ts v) := by
  unfold TickArray.updateTick
  rw [(h.functions t ts).2.2.2.2]
  refine .bind_self fun i _ => .ok ⟨h.startTickIndex, fun j => ?_⟩
  change Tick.Alike (Function.update a.ticks i u j) (Function.update b.ticks i v j)
  rcases eq_or_ne j i with rfl | hne
  · rw [Function.update_self, Function.update_self]
    exact huv
  · rw [Function.update_of_ne hne, Function.update_of_ne hne]
    exact h.ticks j

end TickArray

/-! ## The tick arrays of a swap -/

namespace SwapTickSequence

/-- Sequences of alike tick arrays. -/
abbrev Alike (q r : SwapTickSequence) : Prop := List.Forall₂ TickArray.Alike q r

variable {q r : SwapTickSequence}

/-- Sequences that are alike have arrays at the same places, and these are alike. -/
lemma Alike.getElem? (h : Alike q r) (i : ℕ) :
    (q[i]? = none ∧ r[i]? = none) ∨ ∃ a b, q[i]? = some a ∧ r[i]? = some b ∧ a.Alike b := by
  induction h generalizing i with
  | nil => exact Or.inl ⟨rfl, rfl⟩
  | cons hab _ ih =>
    cases i with
    | zero => exact Or.inr ⟨_, _, rfl, rfl, hab⟩
    | succ i => exact ih i

/-- Arrays that are alike may replace each other in sequences that are alike. -/
theorem Alike.set (h : Alike q r) {a b : TickArray} (hab : a.Alike b) (i : ℕ) :
    Alike (q.set i a) (r.set i b) := by
  induction h generalizing i with
  | nil => exact .nil
  | cons hcd hrest ih =>
    cases i with
    | zero => exact .cons hab hrest
    | succ i => exact .cons hcd (ih i)

/-- Ticks read from sequences that are alike are alike. -/
theorem Alike.getTick (h : Alike q r) (i : ℕ) (t : ℤ) (ts : ℕ) :
    SameOutcome Tick.Alike (getTick q i t ts) (getTick r i t ts) := by
  unfold SwapTickSequence.getTick
  rcases h.getElem? i with ⟨h1, h2⟩ | ⟨a, b, h1, h2, hab⟩
  · rw [h1, h2]
    exact .error _
  · rw [h1, h2]
    exact hab.getTick t ts

/-- Updates that are alike leave sequences alike. -/
theorem Alike.updateTick (h : Alike q r) {u v : TickUpdate} (huv : Tick.Alike u v) (i : ℕ) (t : ℤ)
    (ts : ℕ) : SameOutcome Alike (updateTick q i t ts u) (updateTick r i t ts v) := by
  unfold SwapTickSequence.updateTick
  rcases h.getElem? i with ⟨h1, h2⟩ | ⟨a, b, h1, h2, hab⟩
  · rw [h1, h2]
    exact .error _
  · rw [h1, h2]
    exact (hab.updateTick huv t ts).bind fun _ _ hab' => .ok (h.set hab' i)

/-- Ticks have the same offsets in sequences that are alike. -/
theorem Alike.getTickOffset (h : Alike q r) (i : ℕ) (t : ℤ) (ts : ℕ) :
    getTickOffset r i t ts = getTickOffset q i t ts := by
  unfold SwapTickSequence.getTickOffset
  rcases h.getElem? i with ⟨h1, h2⟩ | ⟨a, b, h1, h2, hab⟩
  · rw [h1, h2]
  · rw [h1, h2]
    exact (hab.functions t ts).2.2.2.1

/-- The search through sequences that are alike finds the same. -/
theorem Alike.searchArrays (h : Alike q r) (ts : ℕ) (aToB : Bool) (i : ℕ) (t : ℤ) :
    searchArrays ts aToB r i t = searchArrays ts aToB q i t := by
  induction h generalizing i t with
  | nil => rfl
  | @cons a b as bs hab hrest ih =>
    obtain ⟨-, h1, h2, -, -⟩ := hab.functions t ts
    have hnil : (bs = []) = (as = []) := by
      cases hrest <;> simp
    unfold SwapTickSequence.searchArrays
    simp only [hab.getNextInitTickIndex, h1, h2, hab.startTickIndex, hnil, ih]

/-- Sequences that are alike have the same next initialized tick. -/
lemma Alike.getNextInitializedTickIndex (h : Alike q r) (t : ℤ) (ts : ℕ) (aToB : Bool) (i : ℕ) :
    getNextInitializedTickIndex r t ts aToB i = getNextInitializedTickIndex q t ts aToB i :=
  Alike.searchArrays (List.forall₂_drop i h) ts aToB i t

end SwapTickSequence

/-! ## The loop of a swap -/

/-- Variables of the loop that agree but for the notes of the tick arrays. -/
structure SwapState.Alike (s t : SwapState) : Prop where
  agree : t = { s with swapTickSequence := t.swapTickSequence }
  sequence : SwapTickSequence.Alike s.swapTickSequence t.swapTickSequence

section Loop

variable {w : Whirlpool} {infos : Fin numRewards → WhirlpoolRewardInfo} {limit : ℕ}
  {input aToB : Bool}

/-- Crossing ticks that are alike gives the same liquidity and leaves the ticks alike. -/
lemma Tick.Alike.calculateUpdate {a b : Tick} (h : a.Alike b) (aToB : Bool) (l : ℕ)
    (g g' : Growth) (infos : Fin numRewards → WhirlpoolRewardInfo) :
    SameOutcome (fun x y => Tick.Alike x.1 y.1 ∧ y.2 = x.2)
      (calculateUpdate a aToB l g g' infos) (calculateUpdate b aToB l g g' infos) := by
  unfold NemoSwap.calculateUpdate
  rw [h.liquidityNet]
  exact .bind_self fun l' _ => .ok ⟨⟨h.initialized, h.liquidityNet, h.liquidityGross⟩, rfl⟩

/-- Crossing a tick in sequences that are alike gives the same liquidity and leaves them alike.

**Proof sketch.** The ticks that are read are alike, so both are initialized or neither is, and
their net liquidity is the same. The updates differ only in the growth outside, which alike
sequences may. -/
theorem SwapTickSequence.Alike.crossTick {q r : SwapTickSequence} (h : Alike q r) (j : ℕ) (n : ℤ)
    (l : ℕ) (g : Growth) :
    SameOutcome (fun x y => y.1 = x.1 ∧ Alike x.2 y.2) (crossTick w infos aToB j n l g q)
      (crossTick w infos aToB j n l g r) := by
  unfold NemoSwap.crossTick
  have htick := h.getTick j n w.tickSpacing
  generalize SwapTickSequence.getTick q j n w.tickSpacing = x at htick ⊢
  generalize SwapTickSequence.getTick r j n w.tickSpacing = y at htick ⊢
  cases htick with
  | error e => cases e <;> first | exact .ok ⟨rfl, h⟩ | exact .error _
  | @ok a b hab =>
    simp only [hab.initialized]
    refine .ite (fun _ => ?_) fun _ => .ok ⟨rfl, h⟩
    refine (hab.calculateUpdate aToB l _ _ infos).bind ?_
    rintro ⟨u, l'⟩ ⟨v, l''⟩ ⟨huv, hl⟩
    simp only at huv hl
    subst hl
    exact (h.updateTick huv j n w.tickSpacing).bind fun _ _ h' => .ok ⟨rfl, h'⟩

namespace SwapState.Alike

variable {s t : SwapState}

/-- The end of a step, whether it crosses a tick or not, is the same but for the notes of the
tick. -/
theorem advance (h : s.Alike t) (j : ℕ) (n : ℤ) (p p' : ℕ) (g : Growth) :
    SameOutcome (fun x y => y.1 = x.1 ∧ SwapTickSequence.Alike x.2.1 y.2.1 ∧ y.2.2 = x.2.2)
      (advance w infos aToB j n p p' g s) (advance w infos aToB j n p p' g t) := by
  obtain ⟨ht, hseq⟩ := h
  generalize t.swapTickSequence = r at ht hseq
  subst ht
  unfold NemoSwap.advance
  refine .ite (fun _ => ?_) fun _ => .ite (fun _ => ?_) fun _ => .ok ⟨rfl, hseq, rfl⟩
  · refine (hseq.crossTick j n s.currLiquidity g).bind ?_
    rintro ⟨l, q⟩ ⟨l', r⟩ ⟨hl, hqr⟩
    simp only at hl hqr
    subst hl
    simp only [hqr.getTickOffset]
    exact .bind_self fun offset _ => .ok ⟨rfl, hqr, rfl⟩
  · exact .bind_self fun c _ => .ok ⟨rfl, hseq, rfl⟩

/-- **One iteration.** -/
theorem swapStep (h : s.Alike t) :
    SameOutcome SwapState.Alike (swapStep w infos limit input aToB s)
      (swapStep w infos limit input aToB t) := by
  have hadvance := fun j n p p' g => @advance w infos aToB s t h j n p p' g
  obtain ⟨ht, hseq⟩ := h
  generalize t.swapTickSequence = r at ht hseq
  subst ht
  unfold NemoSwap.swapStep
  simp only [hseq.getNextInitializedTickIndex]
  refine .bind_self fun ⟨j, n⟩ _ => .bind_self fun ⟨p, target⟩ _ => .bind_self fun comp _ =>
    .bind_self fun _ _ => .bind_self fun ⟨fee, g⟩ _ => ?_
  refine (hadvance j n p comp.nextPrice g).bind ?_
  rintro ⟨l, q, i, c⟩ ⟨l', q', ic⟩ ⟨hl, hq, hic⟩
  simp only at hl hq hic
  subst hl hic
  exact .ok ⟨rfl, hq⟩

end SwapState.Alike

/-- Traces with the same log. -/
structure SwapTrace.Alike (s t : SwapTrace) : Prop where
  state : s.state.Alike t.state
  grown : t.grown = s.grown
  protocolFees : t.protocolFees = s.protocolFees

namespace SwapTrace.Alike

/-- A recorded step has the same outcome in states that are alike. -/
theorem traceStep {s t : SwapTrace} (h : s.Alike t) :
    SameOutcome SwapTrace.Alike (traceStep w infos limit input aToB s)
      (traceStep w infos limit input aToB t) := by
  unfold NemoSwap.traceStep
  refine h.state.swapStep.bind fun s' t' h' => .ok ⟨h', ?_, ?_⟩
  · change Outside.record t.grown _ _ = Outside.record s.grown _ _
    rw [h.grown, h.state.agree, h'.agree]
  · change t.protocolFees + _ = s.protocolFees + _
    rw [h.protocolFees, h.state.agree, h'.agree]

/-- **The loop**, by induction on its iterations. -/
theorem traceLoop : ∀ (count : ℕ) {s t : SwapTrace}, s.Alike t →
    SameOutcome SwapTrace.Alike (traceLoop w infos limit input aToB count s)
      (traceLoop w infos limit input aToB count t)
  | 0, _, _, _ => .error _
  | count + 1, s, t, h => by
    have hrun : t.state.Running limit ↔ s.state.Running limit := by
      rw [h.state.agree]
      exact Iff.rfl
    unfold NemoSwap.traceLoop
    rw [if_congr hrun rfl rfl]
    exact .ite (fun _ => h.traceStep.bind fun _ _ h' => traceLoop count h') fun _ => .ok h

/-- The loop of a swap has the same outcome in states that are alike. -/
lemma swapLoop {s t : SwapTrace} (h : s.Alike t) (count : ℕ) :
    SameOutcome SwapState.Alike (swapLoop w infos limit input aToB count s.state)
      (swapLoop w infos limit input aToB count t.state) := by
  rw [← traceLoop_state, ← traceLoop_state]
  exact (h.traceLoop count).map fun _ _ h' => h'.state

/-- A swap starts alike on sequences that are alike. -/
lemma initial (w : Whirlpool) {q r : SwapTickSequence} (h : SwapTickSequence.Alike q r)
    (amount : ℕ) (aToB : Bool) :
    (initialTrace w q amount aToB).Alike (initialTrace w r amount aToB) :=
  ⟨⟨rfl, h⟩, rfl, rfl⟩

end SwapTrace.Alike

end Loop

/-! ## Pools -/

/-- Positions that agree but for their checkpoints. -/
structure Position.Alike (a b : Position) : Prop where
  positionMint : b.positionMint = a.positionMint
  liquidity : b.liquidity = a.liquidity
  tickLowerIndex : b.tickLowerIndex = a.tickLowerIndex
  tickUpperIndex : b.tickUpperIndex = a.tickUpperIndex
  feeOwed : b.feeOwed = a.feeOwed
  amountOwed : ∀ i, (b.rewardInfos i).amountOwed = (a.rewardInfos i).amountOwed

/-- A position is alike itself. -/
lemma Position.Alike.refl (a : Position) : a.Alike a := ⟨rfl, rfl, rfl, rfl, rfl, fun _ => rfl⟩

namespace Pool

/-- Pools that agree but for the growths outside their ticks and the checkpoints of their
positions. -/
structure Alike (p q : Pool) : Prop where
  whirlpool : q.whirlpool = p.whirlpool
  tickArrays : ∀ s, Option.Rel TickArray.Alike (p.tickArrays s) (q.tickArrays s)
  positions : q.positions = p.positions
  position : ∀ k, (p.position k).Alike (q.position k)
  vaultA : q.vaultA = p.vaultA
  vaultB : q.vaultB = p.vaultB

namespace Alike

variable {p q : Pool}

/-- Pools that are alike have the same tick arrays, and these are alike. -/
theorem getTickArray (h : p.Alike q) (s : ℤ) :
    SameOutcome TickArray.Alike (p.getTickArray s) (q.getTickArray s) := by
  have hs := h.tickArrays s
  unfold Pool.getTickArray
  generalize p.tickArrays s = x at hs ⊢
  generalize q.tickArrays s = y at hs ⊢
  cases hs with
  | some hab => exact .ok hab
  | none => exact .error _

/-- The arrays of a swap can be loaded in both pools or in neither, and are alike. -/
lemma loadSequence (h : p.Alike q) (a b c : ℤ) :
    SameOutcome SwapTickSequence.Alike (p.loadSequence a b c) (q.loadSequence a b c) := by
  unfold Pool.loadSequence
  exact (h.getTickArray a).bind fun _ _ _ => (h.getTickArray b).bind fun _ _ _ =>
    (h.getTickArray c).bind fun _ _ _ => .mapM h.getTickArray _

/-- Storing alike tick arrays leaves the tick arrays alike. -/
theorem store {arrays arrays' : TickMap}
    (h : ∀ s, Option.Rel TickArray.Alike (arrays s) (arrays' s)) {r r' : SwapTickSequence}
    (hr : SwapTickSequence.Alike r r') (s : ℤ) :
    Option.Rel TickArray.Alike (TickMap.store arrays r s) (TickMap.store arrays' r' s) := by
  induction hr generalizing arrays arrays' with
  | nil => exact h s
  | @cons a b as bs hab _ ih =>
    refine ih fun s => ?_
    change Option.Rel _ (Function.update arrays a.startTickIndex (some a) s)
      (Function.update arrays' b.startTickIndex (some b) s)
    rw [hab.startTickIndex]
    rcases eq_or_ne s a.startTickIndex with rfl | hne
    · rw [Function.update_self, Function.update_self]
      exact .some hab
    · rw [Function.update_of_ne hne, Function.update_of_ne hne]
      exact h s

/-- **The observed loop of a swap.** -/
theorem observeSwap (h : p.Alike q) (args : SwapArgs) (timestamp : ℕ) :
    SameOutcome SwapTrace.Alike (p.observeSwap args timestamp) (q.observeSwap args timestamp) := by
  unfold Pool.observeSwap
  rw [h.whirlpool]
  exact (h.loadSequence _ _ _).bind fun r r' hr => .bind_self fun infos _ =>
    SwapTrace.Alike.traceLoop swapBound (.initial p.whirlpool hr _ _)

/-- A swap computes the same amounts in pools that are alike, and leaves its arrays alike. -/
theorem computeSwapUpdate (h : p.Alike q) (args : SwapArgs) (timestamp : ℕ) :
    SameOutcome (fun x y => y.1 = x.1 ∧ SwapTickSequence.Alike x.2 y.2)
      (p.computeSwapUpdate args timestamp) (q.computeSwapUpdate args timestamp) := by
  unfold Pool.computeSwapUpdate swap
  rw [h.whirlpool]
  refine (h.loadSequence _ _ _).bind fun r r' hr => .guard fun _ => .guard fun _ => .guard fun _ =>
    .bind_self fun infos _ => ?_
  have hinitial := SwapTrace.Alike.initial p.whirlpool hr args.amount.toNat args.aToB
  refine (hinitial.swapLoop swapBound).bind fun s t hst => .ok ⟨?_, hst.sequence⟩
  change postSwapUpdate _ _ _ _ t = postSwapUpdate _ _ _ _ s
  rw [hst.agree]
  rfl

/-- What a swap writes back. -/
theorem updateAndSwapWhirlpool (h : p.Alike q) (swapUpdate : PostSwapUpdate)
    {r r' : SwapTickSequence} (hr : SwapTickSequence.Alike r r') (isTokenFeeInA : Bool)
    (timestamp : ℕ) (funds : OwnerFunds) :
    SameOutcome Alike (p.updateAndSwapWhirlpool swapUpdate r isTokenFeeInA timestamp funds)
      (q.updateAndSwapWhirlpool swapUpdate r' isTokenFeeInA timestamp funds) := by
  unfold Pool.updateAndSwapWhirlpool
  simp only [storeSequence_eq, h.whirlpool, h.vaultA, h.vaultB]
  refine .ite (fun _ => ?_) fun _ => ?_
  · exact .bind_self fun a _ => .bind_self fun b _ =>
      .ok ⟨rfl, store h.tickArrays hr, h.positions, h.position, rfl, rfl⟩
  · exact .bind_self fun b _ => .bind_self fun a _ =>
      .ok ⟨rfl, store h.tickArrays hr, h.positions, h.position, rfl, rfl⟩

/-- **A leg of a swap.** -/
theorem swapLeg (h : p.Alike q) (args : SwapArgs) (clock : Int64) (funds : OwnerFunds) :
    SameOutcome Alike (p.swapLeg args clock funds) (q.swapLeg args clock funds) := by
  unfold Pool.swapLeg
  refine .bind_self fun timestamp _ => (h.computeSwapUpdate args timestamp).bind ?_
  rintro ⟨u, r⟩ ⟨u', r'⟩ ⟨hu, hr⟩
  simp only at hu hr
  subst hu
  exact h.updateAndSwapWhirlpool u' hr _ _ _

/-- **A swap.** -/
theorem swapHandler (h : p.Alike q) (args : SwapArgs) (threshold : UInt64) (clock : Int64)
    (funds : OwnerFunds) : SameOutcome Alike (p.swapHandler args threshold clock funds)
      (q.swapHandler args threshold clock funds) := by
  unfold Pool.swapHandler
  rw [h.whirlpool]
  refine .bind_self fun _ _ => .bind_self fun timestamp _ =>
    (h.computeSwapUpdate args timestamp).bind ?_
  rintro ⟨u, r⟩ ⟨u', r'⟩ ⟨hu, hr⟩
  simp only at hu hr
  subst hu
  exact .bind_self fun _ _ => h.updateAndSwapWhirlpool u' hr _ _ _

end Alike

end Pool

end NemoSwap
