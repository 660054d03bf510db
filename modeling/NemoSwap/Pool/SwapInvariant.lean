import NemoSwap.Manager.SwapTrace
import NemoSwap.Pool.Accounting

set_option relaxedAutoImplicit false
set_option autoImplicit false

/-!
# What a whole swap does

The invariant of the swap loop: the books are kept, the input covers the move of the input token's
reserve, the fees logged for the positions and the protocol's fees, the output is covered by the
move of the output token's reserve, and the growth inside every range has increased by what was
logged for it.

## Main definitions

* `NemoSwap.SwapState.paid`, `NemoSwap.SwapState.received` — the trader's amounts so far.
* `NemoSwap.SwapInvariant` — the invariant.

## Main results

* `NemoSwap.SwapInvariant.step` — an iteration keeps the invariant.
* `NemoSwap.SwapInvariant.loop` — so does the loop.
-/

namespace NemoSwap

/-- What the trader has paid so far, fees included. -/
def SwapState.paid (amount : ℕ) (input : Bool) (s : SwapState) : ℕ :=
  if input then amount - s.amountRemaining else s.amountCalculated

/-- What the trader has received so far. -/
def SwapState.received (amount : ℕ) (input : Bool) (s : SwapState) : ℕ :=
  if input then s.amountCalculated else amount - s.amountRemaining

/-- The growth logged for the positions, weighted by their liquidity. -/
def loggedFor {ι : Type} (R : Ranges ι ℤ) (grown : ℤ → ℕ) : ℚ :=
  R.total fun k => (Outside.recorded grown (R.lower k) (R.upper k) : ℚ)

section

variable {ι : Type} {R : Ranges ι ℤ} {w : Whirlpool}
  {infos : Fin numRewards → WhirlpoolRewardInfo} {base : TickMap} {limit amount : ℕ}
  {input aToB : Bool} {s s' s₀ : SwapState} {n : ℤ} {comp : SwapStepComputation}

/-- An increment is logged for the active liquidity. -/
theorem loggedFor_record (grown : ℤ → ℕ) (c : ℤ) (x : ℕ) :
    loggedFor R (Outside.record grown c x) = loggedFor R grown + R.active c * x := by
  unfold loggedFor Ranges.active
  rw [R.natCast_total, ← R.total_mul_right, ← R.total_add]
  refine R.total_congr fun k _ _ => ?_
  rw [Outside.recorded_record, Nat.cast_add]
  congr 1
  by_cases hc : R.Contains k c
  · rw [if_pos hc, if_pos (show R.lower k ≤ c ∧ c < R.upper k from hc), Nat.cast_one, one_mul]
  · rw [if_neg hc, if_neg (show ¬(R.lower k ≤ c ∧ c < R.upper k) from hc), Nat.cast_zero,
      zero_mul]

/-- The amounts after an iteration. -/
lemma StepResult.paid_received (h : StepResult w infos base limit input aToB n comp s s')
    (hrem : s.amountRemaining ≤ amount) :
    s'.paid amount input = s.paid amount input + comp.amountIn + comp.feeAmount ∧
      s'.received amount input = s.received amount input + comp.amountOut ∧
      s'.amountCalculated < 2 ^ 64 := by
  have ha := h.amounts
  unfold SwapState.paid SwapState.received
  cases input with
  | true =>
    obtain ⟨h1, h2, h3, h4⟩ := nextAmounts_input.1 ha
    simp only [if_true]
    omega
  | false =>
    obtain ⟨h1, h2, h3, h4⟩ := nextAmounts_output.1 ha
    simp only [Bool.false_eq_true, if_false]
    omega

/-- What holds where a swap starts. -/
structure SwapStart (R : Ranges ι ℤ) (w : Whirlpool) (limit amount : ℕ) (s₀ : SwapState) :
    Prop where
  bounds : SwapBounds w limit amount
  protocolRate : w.protocolFeeRate ≤ maxProtocolFeeRate
  onTicks : OnTicks R
  reserve_lt : reserve R .B s₀.currSqrtPrice < 2 ^ 64

/-- **The invariant of the swap loop** that started at `s₀`. -/
structure SwapInvariant (R : Ranges ι ℤ) (w : Whirlpool)
    (infos : Fin numRewards → WhirlpoolRewardInfo) (base : TickMap) (limit amount : ℕ)
    (input aToB : Bool) (s₀ : SwapState) (t : SwapTrace) : Prop where
  wellFormed : t.state.WellFormed w base limit amount aToB
  books : Books R (t.state.ticks base w.tickSpacing) t.state.currTickIndex t.state.currLiquidity
  rewardsBlank : RewardsBlank infos (t.state.ticks base w.tickSpacing)
  initialized : ∀ x, (t.state.ticks base w.tickSpacing x).initialized =
    (s₀.ticks base w.tickSpacing x).initialized
  calculated_lt : t.state.amountCalculated < 2 ^ 64
  /-- The protocol's fees have not wrapped. -/
  protocol_eq : t.state.currProtocolFee = t.protocolFees
  protocol_le : t.protocolFees ≤ t.state.paid amount input
  input_covered : reserve R (tokenIn aToB) t.state.currSqrtPrice + loggedFor R t.grown / 2 ^ 64 +
    t.protocolFees ≤ reserve R (tokenIn aToB) s₀.currSqrtPrice + t.state.paid amount input
  output_covered : reserve R (tokenOut aToB) t.state.currSqrtPrice +
    t.state.received amount input ≤ reserve R (tokenOut aToB) s₀.currSqrtPrice
  inside : ∀ ch lo hi, lo ≤ hi → (s₀.ticks base w.tickSpacing lo).initialized = true →
    (s₀.ticks base w.tickSpacing hi).initialized = true →
    rangeInside (t.state.ticks base w.tickSpacing)
        (swapGlobal w infos aToB t.state.currFeeGrowthGlobalInput ch) t.state.currTickIndex ch
        lo hi =
      rangeInside (s₀.ticks base w.tickSpacing)
        (swapGlobal w infos aToB s₀.currFeeGrowthGlobalInput ch) s₀.currTickIndex ch lo hi +
        if ch = .fee (tokenIn aToB) then BitVec.ofNat 128 (Outside.recorded t.grown lo hi) else 0

/-- What a trader has paid is a `u64`. -/
theorem SwapInvariant.paid_lt {t : SwapTrace} (hb : SwapBounds w limit amount)
    (h : SwapInvariant R w infos base limit amount input aToB s₀ t) :
    t.state.paid amount input < 2 ^ 64 := by
  unfold SwapState.paid
  split_ifs
  · exact lt_of_le_of_lt (Nat.sub_le _ _) hb.amount_lt
  · exact h.calculated_lt

/-- The protocol's fee does not wrap in an iteration. -/
theorem SwapInvariant.protocol_step (h₀ : SwapStart R w limit amount s₀) {t : SwapTrace}
    (h : SwapInvariant R w infos base limit amount input aToB s₀ t)
    (hres : StepResult w infos base limit input aToB n comp t.state s') :
    s'.currProtocolFee =
        t.state.currProtocolFee + protocolFeeOn comp.feeAmount w.protocolFeeRate ∧
      s'.currProtocolFee ≤ s'.paid amount input ∧ s'.paid amount input < 2 ^ 64 ∧
      (s'.currFeeGrowthGlobalInput - t.state.currFeeGrowthGlobalInput).toNat = feeGrowth
        (comp.feeAmount - protocolFeeOn comp.feeAmount w.protocolFeeRate)
        t.state.currLiquidity := by
  have hb := h₀.bounds
  obtain ⟨hpaid, -, hcalc⟩ := hres.paid_received h.wellFormed.remaining_le
  have hpaid' : s'.paid amount input < 2 ^ 64 := by
    unfold SwapState.paid
    split_ifs
    · exact lt_of_le_of_lt (Nat.sub_le _ _) hb.amount_lt
    · exact hcalc
  have hprotle := h.protocol_le
  have hproteq := h.protocol_eq
  obtain ⟨hp, hδ⟩ := calculateFees_eq_ok hres.contract.fee_lt h₀.protocolRate (by omega) hres.fees
  have hd := protocolFeeOn_le comp.feeAmount h₀.protocolRate
  rw [wrappingAdd_of_lt (by omega)] at hp
  exact ⟨hp, by omega, hpaid', hδ⟩

/-- **An iteration keeps the invariant.**

**Proof sketch.** The iteration keeps the state well formed and the books balanced. The trader pays
at least the change of the reserve of one token and receives at most that of the other; the fee is
split into the protocol's part and the growth for the active liquidity, each rounded down; and the
growth below every initialized tick grows by what is logged below it. -/
theorem SwapInvariant.step (h₀ : SwapStart R w limit amount s₀) {t t' : SwapTrace}
    (h : SwapInvariant R w infos base limit amount input aToB s₀ t)
    (hrun : t.state.Running limit) (ht : traceStep w infos limit input aToB t = .ok t') :
    SwapInvariant R w infos base limit amount input aToB s₀ t' := by
  have hb := h₀.bounds
  obtain ⟨hstep, hgrown, hprot⟩ := traceStep_eq_ok ht
  obtain ⟨-, n, comp, -, -, hres⟩ := swapStep_cases hb h.wellFormed hrun.2 hstep
  have hwf := hres.wellFormed hb h.wellFormed
  obtain ⟨hpaid, hreceived, hcalc⟩ := hres.paid_received h.wellFormed.remaining_le
  have hpos := h.wellFormed.price.pos
  have hpos' := hwf.price.pos
  have htow : Toward aToB t.state.currSqrtPrice t'.state.currSqrtPrice :=
    (hres.price_bounds hb h.wellFormed).1
  -- the protocol's fee
  obtain ⟨hp1, hprotle, hpaid', hδ⟩ := h.protocol_step h₀ hres
  have hd := protocolFeeOn_le comp.feeAmount h₀.protocolRate
  obtain ⟨d, hdef⟩ : ∃ d, protocolFeeOn comp.feeAmount w.protocolFeeRate = d := ⟨_, rfl⟩
  rw [hdef] at hp1 hδ hd
  have hproteq := h.protocol_eq
  have hprot' : t'.protocolFees = t.protocolFees + d := by
    rw [hprot, hp1, wrappingSub_of_le (by omega) (Nat.le_add_right _ _), Nat.add_sub_cancel_left]
  -- the reserves
  have hin : reserve R (tokenIn aToB) t'.state.currSqrtPrice ≤
      reserve R (tokenIn aToB) t.state.currSqrtPrice + comp.amountIn := by
    rw [hres.reserve hb h₀.onTicks h.wellFormed h.books, hres.contract.in_eq, ← hres.price]
    exact add_le_add_right (le_inDelta hpos hpos' htow) _
  have hout : reserve R (tokenOut aToB) t'.state.currSqrtPrice + comp.amountOut ≤
      reserve R (tokenOut aToB) t.state.currSqrtPrice := by
    have h1 : (comp.amountOut : ℚ) ≤ outDelta aToB t.state.currSqrtPrice t'.state.currSqrtPrice
        t.state.currLiquidity := by
      rw [hres.price]
      exact_mod_cast hres.contract.out_le
    have h2 := outDelta_le (l := t.state.currLiquidity) hpos htow
    rw [hres.reserve hb h₀.onTicks h.wellFormed h.books]
    linarith
  have hlogged : loggedFor R t'.grown / 2 ^ 64 ≤
      loggedFor R t.grown / 2 ^ 64 + (comp.feeAmount - d : ℕ) := by
    have h1 : (t.state.currLiquidity * feeGrowth (comp.feeAmount - d) t.state.currLiquidity : ℚ) ≤
        (comp.feeAmount - d : ℕ) * 2 ^ 64 := by
      rw [mul_comm]
      exact_mod_cast feeGrowth_mul_le (comp.feeAmount - d) t.state.currLiquidity
    rw [hgrown, loggedFor_record, ← h.books.active, hδ, add_div]
    refine add_le_add_right ?_ _
    rw [div_le_iff₀ (by positivity)]
    exact h1
  have hout' : reserve R (tokenOut aToB) t'.state.currSqrtPrice + t'.state.received amount input ≤
      reserve R (tokenOut aToB) s₀.currSqrtPrice := by
    rw [hreceived]
    push_cast
    linarith [h.output_covered]
  have hneg : aToB = true → t'.state.currSqrtPrice = tickPrice n → R.net n ≠ -2 ^ 127 := by
    rintro rfl hreach
    have hlt : reserve R .B (tickPrice n) < 2 ^ 64 := by
      rw [← hreach]
      have h1 : (0 : ℚ) ≤ t'.state.received amount input := Nat.cast_nonneg _
      have h2 := h₀.reserve_lt
      simp only [tokenOut, if_true] at hout'
      linarith
    have := endsAt_lt h₀.onTicks hlt
    unfold Ranges.net
    omega
  refine ⟨hwf, hres.books hb h₀.onTicks h.wellFormed h.books hneg, hres.rewardsBlank h.rewardsBlank,
    fun x => (hres.initialized x).trans (h.initialized x), hcalc, ?_, ?_, ?_, hout', ?_⟩
  · rw [hprot', hp1, hproteq]
  · rw [hprot', hpaid]
    omega
  · have hcov := h.input_covered
    rw [hpaid, hprot']
    push_cast [Nat.cast_sub hd] at hlogged ⊢
    linarith
  · intro ch lo hi hle hlo hhi
    rw [hres.inside hb h.wellFormed h.rewardsBlank ch hle (by rw [h.initialized]; exact hlo)
      (by rw [h.initialized]; exact hhi), h.inside ch lo hi hle hlo hhi, hgrown,
      Outside.recorded_record, add_assoc]
    congr 1
    by_cases hch : ch = .fee (tokenIn aToB)
    · simp only [hch, true_and, if_true, BitVec.ofNat_add]
      congr 1
      split_ifs
      · rw [BitVec.ofNat_toNat, BitVec.setWidth_eq]
      · rfl
    · simp [hch]

/-- **The loop keeps the invariant.** -/
theorem SwapInvariant.loop (h₀ : SwapStart R w limit amount s₀) {count : ℕ} {t t' : SwapTrace}
    (h : SwapInvariant R w infos base limit amount input aToB s₀ t)
    (ht : traceLoop w infos limit input aToB count t = .ok t') :
    SwapInvariant R w infos base limit amount input aToB s₀ t' :=
  (traceLoop_invariant (fun _ _ hinv hrun hstep => hinv.step h₀ hrun hstep) count h ht).1

/-- Every state that the loop passes through satisfies the invariant. -/
theorem SwapInvariant.iterates (h₀ : SwapStart R w limit amount s₀) {t : SwapTrace}
    (h : SwapInvariant R w infos base limit amount input aToB s₀ t) {s : SwapState}
    (hs : Iterates w infos limit input aToB t.state s) :
    ∃ t', t'.state = s ∧ SwapInvariant R w infos base limit amount input aToB s₀ t' := by
  induction hs with
  | refl => exact ⟨t, rfl, h⟩
  | tail _ hstep ih =>
    obtain ⟨hrun, hstep⟩ := hstep
    obtain ⟨t₁, rfl, h₁⟩ := ih
    obtain ⟨t₂, ht₂⟩ : ∃ t₂, traceStep w infos limit input aToB t₁ = .ok t₂ := by
      unfold traceStep
      rw [hstep]
      exact ⟨_, rfl⟩
    obtain ⟨hstate, -, -⟩ := traceStep_eq_ok ht₂
    rw [hstep, Except.ok.injEq] at hstate
    exact ⟨t₂, hstate.symm, h₁.step h₀ hrun ht₂⟩

/-- The invariant holds where the loop starts.

**Proof sketch.** Nothing has been paid, received or logged yet, so the rest is the invariant of the
pool. -/
theorem SwapInvariant.start {t : SwapTrace} (hst : t.state = s₀) (hgrown : t.grown = fun _ => 0)
    (hfees : t.protocolFees = 0) (hrem : s₀.amountRemaining = amount)
    (hcalc : s₀.amountCalculated = 0) (hprot : s₀.currProtocolFee = 0)
    (hwf : s₀.WellFormed w base limit amount aToB)
    (hbooks : Books R (s₀.ticks base w.tickSpacing) s₀.currTickIndex s₀.currLiquidity)
    (hblank : RewardsBlank infos (s₀.ticks base w.tickSpacing)) :
    SwapInvariant R w infos base limit amount input aToB s₀ t := by
  subst hst
  have hpaid : t.state.paid amount input = 0 := by
    unfold SwapState.paid
    split_ifs <;> omega
  have hreceived : t.state.received amount input = 0 := by
    unfold SwapState.received
    split_ifs <;> omega
  have hlogged : loggedFor R (fun _ => 0) = 0 := by
    simp [loggedFor]
  refine ⟨hwf, hbooks, hblank, fun _ => rfl, by omega, by omega, by omega, ?_, ?_,
    fun ch lo hi _ _ _ => ?_⟩
  · rw [hpaid, hfees, hgrown, hlogged]
    simp
  · rw [hreceived]
    simp
  · rw [hgrown]
    simp

end

end NemoSwap
