import NemoSwap.Manager.SwapCapacity

set_option relaxedAutoImplicit false
set_option autoImplicit false

/-!
# Larger swaps

Two swaps from the same state, in the same direction and mode and with the same limit, differ in
their amounts only. They make the same iterations as long as the smaller one has something left;
in its last iteration the larger one goes at least as far, and further iterations only add to
that. So a larger swap moves the price at least as far, takes at least as much and gives at least
as much, in both modes.

## Main results

* `NemoSwap.computeSwap_mono` — one step.
* `NemoSwap.swapLoop_mono` — the loop.
* `NemoSwap.swap_mono` — a swap.
-/

namespace NemoSwap

/-! ## One step -/

section Step

variable {x y feeRate l cur target : ℕ} {input aToB : Bool} {r r' : SwapStepComputation}

/-- A larger amount moves the price at least as far. -/
lemma getNextSqrtPrice_mono {a b m m' : ℕ} (hl : l < 2 ^ 128) (hcur : cur < 2 ^ 128)
    (hc : 0 < cur) (ht : 0 < target) (htow : Toward aToB cur target) (hab : a ≤ b)
    (hb : b < 2 ^ 64) (hlt : b < fixedDelta input aToB cur target l)
    (h : getNextSqrtPrice cur l a input aToB = .ok m)
    (h' : getNextSqrtPrice cur l b input aToB = .ok m') : Toward aToB m m' := by
  have hl0 : l ≠ 0 := by
    rintro rfl
    simp at hlt
  obtain ⟨h1, h2, h3, -⟩ :=
    getNextSqrtPrice_contract hl hcur (hab.trans_lt hb) hc ht htow (hab.trans_lt hlt) h
  obtain ⟨h1', -, -, h4'⟩ := getNextSqrtPrice_contract hl hcur hb hc ht htow hlt h'
  cases input with
  | true =>
    exact toward_getNextSqrtPrice hl hl0 hcur hb hc (toward_pos hc ht h1 h2) h1
      ((h3 rfl).2.trans hab) h'
  | false => exact getNextSqrtPrice_toward hl hcur (hab.trans_lt hb) h1' (hab.trans (h4' rfl)) h

/-- **A step with a larger amount** goes at least as far, and calculates at least as much.

**Proof sketch.** If the larger amount reaches the target there is nothing ahead of it. Otherwise
neither does, and the next price is monotone in the amount; what the step takes and calculates is
monotone in the price. -/
theorem computeSwap_mono (hxy : x ≤ y) (hy : y < 2 ^ 64) (hfee : feeRate < feeRateMulValue)
    (hl : l < 2 ^ 128) (hcur : cur < 2 ^ 128) (htarget : target < 2 ^ 128) (hc : 0 < cur)
    (ht : 0 < target) (htow : Toward aToB cur target)
    (h : computeSwap x feeRate l cur target input aToB = .ok r)
    (h' : computeSwap y feeRate l cur target input aToB = .ok r') :
    Toward aToB r.nextPrice r'.nextPrice ∧ r.taken (!input) ≤ r'.taken (!input) := by
  have hx := hxy.trans_lt hy
  have hcon := computeSwap_contract hl hcur htarget hx hfee hc ht htow h
  have hcon' := computeSwap_contract hl hcur htarget hy hfee hc ht htow h'
  obtain ⟨hnext, hin, hout, hfe, -⟩ := computeSwap_eq_ok hl hcur htarget hx h
  obtain ⟨hnext', hin', hout', hfe', -⟩ := computeSwap_eq_ok hl hcur htarget hy h'
  have hcalc : amountCalc input x feeRate ≤ amountCalc input y feeRate := amountCalc_mono hxy
  have hprice : Toward aToB r.nextPrice r'.nextPrice := by
    rcases hnext' with ⟨-, hn'⟩ | ⟨hlt', hn'⟩
    · rw [hn']
      exact hcon.within
    · -- the larger amount falls short of the target, and so does the smaller one
      rcases hnext with ⟨hge, -⟩ | ⟨-, hn⟩
      · exact absurd (hge.trans hcalc) (not_le.2 hlt')
      · exact getNextSqrtPrice_mono hl hcur hc ht htow hcalc (amountCalc_le.trans_lt hy) hlt' hn hn'
  have hpos := toward_pos hc ht hcon.toward hcon.within
  have hpos' := toward_pos hc ht hcon'.toward hcon'.within
  refine ⟨hprice, ?_⟩
  unfold SwapStepComputation.taken
  cases input with
  | true =>
    simp only [Bool.not_true, Bool.false_eq_true, if_false, if_true] at hout hout' ⊢
    rw [hout, hout']
    exact outDelta_mono hc hpos hcon.toward hprice
  | false =>
    simp only [Bool.not_false, Bool.false_eq_true, false_and, if_true, if_false] at hfe hfe' ⊢
    have hle : r.amountIn ≤ r'.amountIn := by
      rw [hin, hin']
      exact inDelta_mono hc hpos hpos' hcon.toward hprice
    rw [hfe, hfe']
    exact Nat.add_le_add hle (feeOn_mono hfee hle)

/-- A step that uses up its amount takes at most as much as one with a larger amount. -/
lemma le_taken (hxy : x ≤ y) (hy : y < 2 ^ 64) (hfee : feeRate < feeRateMulValue)
    (hl : l < 2 ^ 128) (hcur : cur < 2 ^ 128) (htarget : target < 2 ^ 128) (hc : 0 < cur)
    (ht : 0 < target) (htow : Toward aToB cur target)
    (h : computeSwap x feeRate l cur target input aToB = .ok r) (hall : r.taken input = x)
    (h' : computeSwap y feeRate l cur target input aToB = .ok r') : x ≤ r'.taken input := by
  by_contra hlt
  rw [not_le] at hlt
  have hsame := computeSwap_amount_congr hy (hxy.trans_lt hy) hfee hl hcur htarget hc ht htow h'
    (hlt.trans_le hxy) hlt.le
  rw [h, Except.ok.injEq] at hsame
  rw [← hsame] at hlt
  omega

end Step

/-! ## The loop -/

section Loop

variable {w : Whirlpool} {infos : Fin numRewards → WhirlpoolRewardInfo} {base : TickMap}
  {limit amount : ℕ} {input aToB : Bool} {s s' s'' : SwapState}

/-- One state of the loop is ahead of another: its price is at least as far in the direction of
the trade, and its calculated amount is at least as large. -/
structure SwapState.Ahead (aToB : Bool) (s s' : SwapState) : Prop where
  price : Toward aToB s.currSqrtPrice s'.currSqrtPrice
  calculated : s.amountCalculated ≤ s'.amountCalculated

/-- A state is not behind itself. -/
lemma SwapState.Ahead.refl (s : SwapState) : s.Ahead aToB s := ⟨toward_refl _ _, le_rfl⟩

/-- Being ahead is transitive. -/
lemma SwapState.Ahead.trans (h : s.Ahead aToB s') (h' : s'.Ahead aToB s'') : s.Ahead aToB s'' :=
  ⟨h.price.trans h'.price, h.calculated.trans h'.calculated⟩

/-- The variables with another amount within the bound. -/
lemma SwapState.WellFormed.offered (hs : s.WellFormed w base limit amount aToB) {y : ℕ}
    (hy : y ≤ amount) : (s.offered y).WellFormed w base limit amount aToB :=
  ⟨hs.price, hs.toward, hs.liquidity_lt, hy, hs.nodup, hs.wellPlaced, hs.usable⟩

/-- An iteration moves ahead. -/
lemma StepResult.ahead {n : ℤ} {comp : SwapStepComputation} (hb : SwapBounds w limit amount)
    (hs : s.WellFormed w base limit amount aToB)
    (h : StepResult w infos base limit input aToB n comp s s') : s.Ahead aToB s' := by
  obtain ⟨-, -, hcalc, -⟩ := nextAmounts_taken.1 h.amounts
  exact ⟨(h.price_bounds hb hs).1, hcalc ▸ Nat.le_add_right _ _⟩

/-- The loop moves ahead, and its amount does not grow. -/
lemma swapLoop_ahead (hb : SwapBounds w limit amount) {count : ℕ}
    (hs : s.WellFormed w base limit amount aToB)
    (h : swapLoop w infos limit input aToB count s = .ok s') :
    s.Ahead aToB s' ∧ s'.amountRemaining ≤ s.amountRemaining := by
  have hstep : ∀ t t' : SwapState, (t.WellFormed w base limit amount aToB ∧ s.Ahead aToB t ∧
      t.amountRemaining ≤ s.amountRemaining) → t.Running limit →
      swapStep w infos limit input aToB t = .ok t' → t'.WellFormed w base limit amount aToB ∧
        s.Ahead aToB t' ∧ t'.amountRemaining ≤ s.amountRemaining := by
    rintro t t' ⟨hwf, hahead, hle⟩ hrun hnext
    obtain ⟨j, n, comp, -, -, hres⟩ := swapStep_cases hb hwf hrun.2 hnext
    exact ⟨hres.wellFormed hb hwf, hahead.trans (hres.ahead hb hwf), hres.remaining_le.trans hle⟩
  exact (swapLoop_invariant hstep count ⟨hs, .refl s, le_rfl⟩ h).1.2

/-- **The loop with a larger amount** ends ahead, and takes at least as much.

**Proof sketch.** Induction on the iterations. An iteration that does not use up the smaller amount is
the same with the larger one. The one that does is behind that of the larger amount by
`computeSwap_mono`, whose loop only goes further from there. -/
theorem swapLoop_mono (hb : SwapBounds w limit amount) :
    ∀ (count : ℕ) {s s' s'' : SwapState} {y : ℕ}, s.WellFormed w base limit amount aToB →
      s.amountRemaining ≤ y → y ≤ amount →
      swapLoop w infos limit input aToB count s = .ok s' →
      swapLoop w infos limit input aToB count (s.offered y) = .ok s'' →
      s'.Ahead aToB s'' ∧ s.amountRemaining - s'.amountRemaining ≤ y - s''.amountRemaining
  | 0, _, _, _, _, _, _, _, h, _ => by simp [swapLoop] at h
  | count + 1, s, s', s'', y, hs, hle, hy, h, h' => by
    have hs' := hs.offered hy
    have hahead' := swapLoop_ahead hb hs' h'
    by_cases hrun : s.Running limit
    · have hrun' : (s.offered y).Running limit := ⟨hrun.1.trans_le hle, hrun.2⟩
      rw [swapLoop_running hrun, Res.bind_eq_ok] at h
      rw [swapLoop_running hrun', Res.bind_eq_ok] at h'
      obtain ⟨s₁, h1, h2⟩ := h
      obtain ⟨s₂, h1', h2'⟩ := h'
      obtain ⟨j, n, comp, hsearch, hcomp, hres⟩ := swapStep_cases hb hs hrun.2 h1
      obtain ⟨j', n', comp', hsearch', hcomp', hres'⟩ := swapStep_cases hb hs' hrun'.2 h1'
      have hwf := hres.wellFormed hb hs
      have hle₁ := hres.remaining_le
      rcases Nat.eq_zero_or_pos s₁.amountRemaining with h0 | hpos
      · -- the last iteration of the smaller amount
        change s.swapTickSequence.getNextInitializedTickIndex s.currTickIndex w.tickSpacing aToB
          s.currArrayIndex = .ok (j', n') at hsearch'
        rw [hsearch, Except.ok.injEq, Prod.mk.injEq] at hsearch'
        obtain ⟨rfl, rfl⟩ := hsearch'
        change computeSwap y w.feeRate s.currLiquidity s.currSqrtPrice (stepTarget limit aToB n)
          input aToB = .ok comp' at hcomp'
        obtain ⟨ht, ht', htow⟩ := hs.target_bounds hb hres.search
        have hylt := hy.trans_lt hb.amount_lt
        obtain ⟨-, hrem, hcalc, -⟩ := nextAmounts_taken.1 hres.amounts
        obtain ⟨htaken', hrem', hcalc', -⟩ := nextAmounts_taken.1 hres'.amounts
        change comp'.taken input ≤ y at htaken'
        change s₂.amountRemaining = y - comp'.taken input at hrem'
        change s₂.amountCalculated = s.amountCalculated + comp'.taken (!input) at hcalc'
        obtain ⟨hprice, hother⟩ := computeSwap_mono hle hylt hb.feeRate_lt hs.liquidity_lt
          hs.price.lt ht' hs.price.pos ht htow hcomp hcomp'
        have hall : comp.taken input = s.amountRemaining := by
          have := (nextAmounts_taken.1 hres.amounts).1
          omega
        have hmore := le_taken hle hylt hb.feeRate_lt hs.liquidity_lt hs.price.lt ht' hs.price.pos
          ht htow hcomp hall hcomp'
        have hstep : s₁.Ahead aToB s₂ := by
          refine ⟨?_, ?_⟩
          · rw [hres.price, hres'.price]
            exact hprice
          · rw [hcalc, hcalc']
            omega
        obtain rfl : s₁ = s' := by
          have hdone : ¬s₁.Running limit := fun hr => absurd hr.1 (by omega)
          cases count with
          | zero => simp [swapLoop] at h2
          | succ count =>
            rw [swapLoop_done hdone, Except.ok.injEq] at h2
            exact h2
        obtain ⟨hrest, hle₂⟩ := swapLoop_ahead hb (hres'.wellFormed hb hs') h2'
        exact ⟨hstep.trans hrest, by omega⟩
      · -- both amounts make the same iteration
        have hsame := swapStep_amount_congr hb hs hrun.2 h1 hpos (by omega) (hy.trans_lt hb.amount_lt)
        rw [h1', Except.ok.injEq] at hsame
        subst hsame
        obtain ⟨hrest, hle₂⟩ := swapLoop_mono hb count hwf (by omega) (by omega) h2 h2'
        have hle₃ := (swapLoop_ahead hb hwf h2).2
        have hle₄ := (swapLoop_ahead hb (hwf.offered (by omega)) h2').2
        change s''.amountRemaining ≤ y - (s.amountRemaining - s₁.amountRemaining) at hle₄
        exact ⟨hrest, by omega⟩
    · rw [swapLoop_done hrun, Except.ok.injEq] at h
      subst h
      obtain ⟨hahead, hle'⟩ := hahead'
      exact ⟨⟨hahead.price, hahead.calculated⟩, by omega⟩

end Loop

/-! ## The whole swap -/

section Swap

variable {w : Whirlpool} {base : TickMap} {limit x y : ℕ} {input aToB : Bool}
  {sequence sequence' sequence'' : SwapTickSequence} {update update' : PostSwapUpdate}
  {timestamp : ℕ}

/-- The other amount of the update is the one that the loop has calculated. -/
lemma postSwapUpdate_calculated (amount : ℕ) (infos : Fin numRewards → WhirlpoolRewardInfo)
    (s : SwapState) :
    (postSwapUpdate amount input aToB infos s).specified (!input) aToB = s.amountCalculated := by
  cases input <;> cases aToB <;> rfl

/-- The price of the update is the one that the loop has reached. -/
lemma postSwapUpdate_price (amount : ℕ) (infos : Fin numRewards → WhirlpoolRewardInfo)
    (s : SwapState) :
    (postSwapUpdate amount input aToB infos s).nextSqrtPrice = s.currSqrtPrice := by
  cases input <;> cases aToB <;> rfl

/-- **A larger swap** moves the price at least as far, takes at least as much from the trader and
gives him at least as much.

**Proof sketch.** The loop with the larger amount is ahead at its end by `swapLoop_mono`. What a
swap takes and gives is read off the remaining and the calculated amount, by the mode. -/
theorem swap_mono (hb : SwapBounds w limit y)
    (hs : (initialSwapState w sequence y aToB).WellFormed w base limit y aToB) (hxy : x ≤ y)
    (h : swap w sequence x limit input aToB timestamp = .ok (update, sequence'))
    (h' : swap w sequence y limit input aToB timestamp = .ok (update', sequence'')) :
    Toward aToB update.nextSqrtPrice update'.nextSqrtPrice ∧
      update.amountIn aToB ≤ update'.amountIn aToB ∧
      update.amountOut aToB ≤ update'.amountOut aToB := by
  obtain ⟨-, -, -, infos, s, hinfos, hloop, rfl, -⟩ := swap_eq_ok.1 h
  obtain ⟨-, -, -, infos', s', hinfos', hloop', rfl, -⟩ := swap_eq_ok.1 h'
  rw [hinfos, Except.ok.injEq] at hinfos'
  subst hinfos'
  have hs' : (initialSwapState w sequence x aToB).WellFormed w base limit y aToB := hs.offered hxy
  obtain ⟨hahead, hle⟩ := swapLoop_mono hb swapBound hs' hxy le_rfl hloop hloop'
  change x - s.amountRemaining ≤ y - s'.amountRemaining at hle
  rw [postSwapUpdate_price, postSwapUpdate_price]
  refine ⟨hahead.price, ?_⟩
  have hspecified : (postSwapUpdate x input aToB infos s).specified input aToB ≤
      (postSwapUpdate y input aToB infos s').specified input aToB := by
    rw [postSwapUpdate_specified, postSwapUpdate_specified]
    exact hle
  have hother : (postSwapUpdate x input aToB infos s).specified (!input) aToB ≤
      (postSwapUpdate y input aToB infos s').specified (!input) aToB := by
    rw [postSwapUpdate_calculated, postSwapUpdate_calculated]
    exact hahead.calculated
  cases input with
  | true => exact ⟨hspecified, hother⟩
  | false => exact ⟨hother, hspecified⟩

end Swap

end NemoSwap
