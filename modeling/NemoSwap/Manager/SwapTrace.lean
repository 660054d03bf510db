import NemoSwap.Lib.OutsideGrowth
import NemoSwap.Manager.SwapStep

set_option relaxedAutoImplicit false
set_option autoImplicit false

/-!
# Observing the swap loop

The loop with two observers that it does not look at: a log of the increments of the fee growth
by the tick index at which they are made, and the sum of the protocol fees as an unbounded
number.

## Main definitions

* `NemoSwap.SwapTrace` — the variables of the loop and the observers.
* `NemoSwap.traceStep`, `NemoSwap.traceLoop` — the observed loop.

## Main results

* `NemoSwap.traceLoop_state` — the observed loop is the loop of `swap`.
* `NemoSwap.traceLoop_invariant` — the induction on its iterations.
-/

namespace NemoSwap

/-- The variables of the loop, with observers. -/
structure SwapTrace where
  state : SwapState
  /-- The increments of the fee growth of the input token, by tick index. -/
  grown : ℤ → ℕ
  /-- The protocol fees taken so far. -/
  protocolFees : ℕ

/-- One iteration, observed: the fee is logged at the tick index before any crossing. -/
def traceStep (w : Whirlpool) (infos : Fin numRewards → WhirlpoolRewardInfo) (limit : ℕ)
    (input aToB : Bool) (t : SwapTrace) : Res SwapTrace := do
  let s ← swapStep w infos limit input aToB t.state
  return { state := s
           grown := Outside.record t.grown t.state.currTickIndex
             (s.currFeeGrowthGlobalInput - t.state.currFeeGrowthGlobalInput).toNat
           protocolFees :=
             t.protocolFees + wrappingSub 64 s.currProtocolFee t.state.currProtocolFee }

/-- The loop, observed. -/
def traceLoop (w : Whirlpool) (infos : Fin numRewards → WhirlpoolRewardInfo) (limit : ℕ)
    (input aToB : Bool) : ℕ → SwapTrace → Res SwapTrace
  | 0, _ => .error .outOfFuel
  | count + 1, t =>
    if t.state.Running limit then do
      let t ← traceStep w infos limit input aToB t
      traceLoop w infos limit input aToB count t
    else .ok t

/-- The observed variables before the first iteration. -/
def initialTrace (w : Whirlpool) (sequence : SwapTickSequence) (amount : ℕ) (aToB : Bool) :
    SwapTrace :=
  { state := initialSwapState w sequence amount aToB, grown := fun _ => 0, protocolFees := 0 }

variable {w : Whirlpool} {infos : Fin numRewards → WhirlpoolRewardInfo} {limit : ℕ}
  {input aToB : Bool}

/-- **Observing the loop does not change it.** -/
theorem traceLoop_state : ∀ (count : ℕ) (t : SwapTrace),
    (traceLoop w infos limit input aToB count t).map SwapTrace.state =
      swapLoop w infos limit input aToB count t.state
  | 0, _ => rfl
  | count + 1, t => by
    rw [traceLoop]
    by_cases hrun : t.state.Running limit
    · rw [if_pos hrun, swapLoop_running hrun, traceStep]
      rcases swapStep w infos limit input aToB t.state with e | s
      · rfl
      · exact traceLoop_state count _
    · rw [if_neg hrun, swapLoop_done hrun]
      rfl

/-- A swap that succeeds has a trace. -/
theorem exists_traceLoop {count : ℕ} {t : SwapTrace} {s : SwapState}
    (h : swapLoop w infos limit input aToB count t.state = .ok s) :
    ∃ t', traceLoop w infos limit input aToB count t = .ok t' ∧ t'.state = s := by
  rw [← traceLoop_state] at h
  cases ht : traceLoop w infos limit input aToB count t with
  | error e =>
    rw [ht] at h
    cases h
  | ok t' =>
    rw [ht] at h
    exact ⟨t', rfl, Except.ok.inj h⟩

/-- **The induction on the iterations of the observed loop.** -/
theorem traceLoop_invariant {Inv : SwapTrace → Prop}
    (hstep : ∀ t t', Inv t → t.state.Running limit →
      traceStep w infos limit input aToB t = .ok t' → Inv t') :
    ∀ (count : ℕ) {t t' : SwapTrace}, Inv t →
      traceLoop w infos limit input aToB count t = .ok t' → Inv t' ∧ ¬t'.state.Running limit
  | 0, _, _, _, h => by simp [traceLoop] at h
  | count + 1, t, t', ht, h => by
    rw [traceLoop] at h
    by_cases hrun : t.state.Running limit
    · rw [if_pos hrun, Res.bind_eq_ok] at h
      obtain ⟨t₁, h1, h2⟩ := h
      exact traceLoop_invariant hstep count (hstep t t₁ ht hrun h1) h2
    · rw [if_neg hrun, Except.ok.injEq] at h
      subst h
      exact ⟨ht, hrun⟩

/-- A loop that does not run returns its variables. -/
theorem traceLoop_stopped {count : ℕ} {t t' : SwapTrace} (hrun : ¬t.state.Running limit)
    (h : traceLoop w infos limit input aToB count t = .ok t') : t' = t := by
  cases count with
  | zero => simp [traceLoop] at h
  | succ count =>
    rw [traceLoop, if_neg hrun, Except.ok.injEq] at h
    exact h.symm

/-- The inversion of an observed iteration. -/
theorem traceStep_eq_ok {t t' : SwapTrace} (h : traceStep w infos limit input aToB t = .ok t') :
    swapStep w infos limit input aToB t.state = .ok t'.state ∧
      t'.grown = Outside.record t.grown t.state.currTickIndex
        (t'.state.currFeeGrowthGlobalInput - t.state.currFeeGrowthGlobalInput).toNat ∧
      t'.protocolFees = t.protocolFees +
        wrappingSub 64 t'.state.currProtocolFee t.state.currProtocolFee := by
  unfold traceStep at h
  rw [Res.bind_eq_ok] at h
  obtain ⟨s, hs, h⟩ := h
  rw [Res.pure_eq_ok, Except.ok.injEq] at h
  subst h
  exact ⟨hs, rfl, rfl⟩

end NemoSwap
