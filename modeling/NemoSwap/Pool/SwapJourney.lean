import NemoSwap.Pool.SwapRoad

set_option relaxedAutoImplicit false
set_option autoImplicit false

/-!
# A swap as a journey

The loop of a swap travels on the road of the trade, from gate to gate, until its specified amount
is used up, and at the latest to the price at which it must stop. With a specified input it is a
trip on a toll road.

## Main definitions

* `NemoSwap.TradeJourney` — the journey of a trade.
* `NemoSwap.Ride` — what an iteration is on the road.
* `NemoSwap.Travels` — what the loop with a specified input is on the road.

## Main results

* `NemoSwap.StepResult.ride` — an iteration is a ride on a clear stretch.
* `NemoSwap.SwapInvariant.journey` — the loop is a journey, in both modes.
* `NemoSwap.SwapInvariant.travels` — with a specified input it is a trip that goes as far as it can.
-/

namespace NemoSwap

/-- Where an amount ends on a stretch: as far as an input pays for, and as soon as an output is
met. -/
def tradeHalts {ι : Type} (R : Ranges ι ℤ) (aToB : Bool) (feeRate : ℕ) :
    Bool → TradePrice aToB → ℕ → TradePrice aToB → TradePrice aToB → Prop
  | true => Journey.Furthest (tradeMeasure R aToB feeRate true)
  | false => Journey.Nearest (tradeMeasure R aToB feeRate false)

/-- **The journey of a trade**: the specified amount is used up, and the other amount adds up. -/
abbrev TradeJourney {ι : Type} (R : Ranges ι ℤ) (aToB : Bool) (feeRate : ℕ) (input : Bool)
    (stop : TradePrice aToB) : TradePrice aToB → ℕ → TradePrice aToB → ℕ → ℕ → Prop :=
  Journey (tradeGate R aToB) (tradeMeasure R aToB feeRate input)
    (tradeMeasure R aToB feeRate (!input)) (tradeHalts R aToB feeRate input) stop

variable {ι : Type} {R : Ranges ι ℤ} {w : Whirlpool}
  {infos : Fin numRewards → WhirlpoolRewardInfo} {base : TickMap} {limit amount j : ℕ}
  {input aToB : Bool} {s s' s₀ : SwapState} {n : ℤ} {comp : SwapStepComputation}
  {u v m stop : TradePrice aToB}

/-! ## One iteration -/

/-- What an iteration towards the price `m` is on the road. -/
structure Ride (R : Ranges ι ℤ) (feeRate : ℕ) (input : Bool) (u m v : TradePrice aToB)
    (s s' : SwapState) : Prop where
  clear : Journey.Clear (tradeGate R aToB) u m
  from_le : u ≤ v
  le : v ≤ m
  calculated : s'.amountCalculated = s.amountCalculated + tradeMeasure R aToB feeRate (!input) u v
  /-- The iteration reaches its target, or its amount ends before. -/
  ends : (v = m ∧ tradeMeasure R aToB feeRate input u m ≤ s.amountRemaining ∧
      s'.amountRemaining = s.amountRemaining - tradeMeasure R aToB feeRate input u m) ∨
    s.amountRemaining < tradeMeasure R aToB feeRate input u m ∧ s'.amountRemaining = 0 ∧
      tradeHalts R aToB feeRate input u s.amountRemaining m v

/-- **An iteration is a ride on a clear stretch** to its target, or until its amount ends.

**Proof sketch.** Up to the next initialized tick there is no gate, and the active liquidity is
what the trade finds at its price, unless the price is that of the tick already; then it does not
move. So the step computes with the measures of the road. -/
lemma StepResult.ride (hb : SwapBounds w limit amount) (hR : OnTicks R)
    (hs : s.WellFormed w base limit amount aToB)
    (hbooks : Books R (s.ticks base w.tickSpacing) s.currTickIndex s.currLiquidity)
    (hcomp : computeSwap s.amountRemaining w.feeRate s.currLiquidity s.currSqrtPrice
      (stepTarget limit aToB n) input aToB = .ok comp)
    (h : StepResult w infos base limit input aToB n comp s s') (hu : u.price = s.currSqrtPrice)
    (hm : m.price = stepTarget limit aToB n) (hv : v.price = s'.currSqrtPrice) :
    Ride R w.feeRate input u m v s s' := by
  obtain ⟨htpos, htlt, htow⟩ := hs.target_bounds hb h.search
  obtain ⟨-, -, htown⟩ := stepTarget_toward hs.price h.search hs.toward
  obtain ⟨hother, hends⟩ := computeSwap_exactStep hs.liquidity_lt hs.price.lt htlt
    (hs.remaining_le.trans_lt hb.amount_lt) hb.feeRate_lt hs.price.pos htpos htow hcomp
  obtain ⟨-, hrem, hcalc, -⟩ := nextAmounts_taken.1 h.amounts
  have huv := h.contract.toward
  have hvm := h.contract.within
  rw [h.price] at hv
  rw [← hv] at hother hends huv hvm
  rw [← hm] at hends hvm htown
  rw [← hu] at hother hends huv
  have hnext : 0 < tickPrice n := by
    have h1 := h.search.lower
    have h2 := h.search.upper
    unfold minTickIndex maxTickIndex at *
    exact tickPrice_pos (by omega) (by omega)
  have hclear : Journey.Clear (tradeGate R aToB) u ⟨tickPrice n, hnext⟩ :=
    hbooks.clear_next hR hs.price h.search hu rfl
  have hum : u ≤ m := TradePrice.le_iff.2 (huv.trans hvm)
  -- up to its target the iteration has the measures of the road
  have hroad : ∀ input (x : TradePrice aToB), u ≤ x → x ≤ m →
      moveTaken input aToB u.price x.price s.currLiquidity w.feeRate =
        tradeMeasure R aToB w.feeRate input u x := by
    intro input x hux hxm
    unfold tradeMeasure
    by_cases he : u.price = tickPrice n
    · have hxu : x.price = u.price :=
        ((TradePrice.le_iff.1 hxm).trans (he ▸ htown)).antisymm (TradePrice.le_iff.1 hux)
      rw [hxu, moveTaken_self, moveTaken_self]
    · rw [hu] at he
      rw [hu, hbooks.liquidity_ahead hR hs.price h.search he]
  have huv' : u ≤ v := TradePrice.le_iff.2 huv
  have hvm' : v ≤ m := TradePrice.le_iff.2 hvm
  refine ⟨hclear.left hum (TradePrice.le_iff.2 htown), huv', hvm', ?_, ?_⟩
  · rw [hcalc, hother, hroad _ v huv' hvm']
  · rw [hroad _ m hum le_rfl] at hends
    rcases hends with ⟨hreach, hle, htaken⟩ | ⟨hlt, htaken, hhalts⟩
    · exact Or.inl ⟨TradePrice.ext hreach, hle, by rw [hrem, htaken]⟩
    · refine Or.inr ⟨hlt, by omega, ?_⟩
      unfold MoveHalts at hhalts
      cases input with
      | true =>
        obtain ⟨hpaid, hfar⟩ := hhalts
        refine ⟨(hroad true v huv' hvm').symm.trans_le hpaid, fun x hux hxm hx => ?_⟩
        rw [← hroad true x hux hxm] at hx
        exact TradePrice.le_iff.2 (hfar x.price x.pos (TradePrice.le_iff.1 hux) hx)
      | false =>
        obtain ⟨hmet, hnear⟩ := hhalts
        refine ⟨hmet.trans_eq (hroad false v huv' hvm'), fun x hux hxm hx => ?_⟩
        rw [← hroad false x hux hxm] at hx
        exact TradePrice.le_iff.2 (hnear x.price (TradePrice.le_iff.1 hux) hx)

/-- **An iteration after which the loop goes on has crossed an initialized tick.** After a tick
that is not initialized comes the price limit, or the end of the last array. -/
lemma SwapState.WellFormed.initialized_of_next {s'' : SwapState}
    (hs : s.WellFormed w base limit amount aToB)
    (hsearch : s.swapTickSequence.getNextInitializedTickIndex s.currTickIndex w.tickSpacing aToB
      s.currArrayIndex = .ok (j, n))
    (hlands : Lands w aToB j n s s') (hn : n ≠ SwapTickSequence.tickBound aToB)
    (hnext : swapStep w infos limit input aToB s' = .ok s'') :
    (s.ticks base w.tickSpacing n).initialized = true := by
  by_contra hcon
  rw [Bool.not_eq_true] at hcon
  obtain ⟨array, harray, hlast, hedge⟩ := (hs.search_edge hsearch hcon).resolve_left hn
  refine swapStep_pastEnd (hlands.pastEnd harray hlast ?_) hnext
  exact hedge ▸ getOffset_edge (SwapTickSequence.spacing_ne_zero hsearch)

/-- A loop that has stopped has used up its amount, or stands where it must stop. -/
lemma SwapState.WellFormed.stopped (hts : w.tickSpacing ≠ 0)
    (hs : s.WellFormed w base limit amount aToB) (hrun : ¬s.Running limit) :
    s.amountRemaining = 0 ∨ s.currSqrtPrice = stopPrice limit aToB w.tickSpacing
      (s.swapTickSequence.map TickArray.startTickIndex) s.currTickIndex := by
  rcases Nat.eq_zero_or_pos s.amountRemaining with hzero | hpos
  · exact Or.inl hzero
  · have hlimit : s.currSqrtPrice = limit := by
      by_contra hne
      exact hrun ⟨hpos, Ne.symm hne⟩
    refine Or.inr ((hs.price.toward_stopPrice hts hs.toward).antisymm ?_)
    exact (congrArg (Toward aToB _) hlimit).mpr stopPrice_toward

/-- The target of an iteration is a gate, or the price at which the swap must stop. -/
lemma SwapState.WellFormed.gate_or_stop (hb : SwapBounds w limit amount)
    (hs : s.WellFormed w base limit amount aToB)
    (hbooks : Books R (s.ticks base w.tickSpacing) s.currTickIndex s.currLiquidity)
    (hne : limit ≠ s.currSqrtPrice)
    (hsearch : s.swapTickSequence.getNextInitializedTickIndex s.currTickIndex w.tickSpacing aToB
      s.currArrayIndex = .ok (j, n)) (hm : m.price = stepTarget limit aToB n)
    (hstop : stop.price = stopPrice limit aToB w.tickSpacing
      (s.swapTickSequence.map TickArray.startTickIndex) s.currTickIndex) :
    (tradeGate R aToB m ∧ m.price ≠ limit) ∨ m = stop := by
  by_cases hend : stepTarget limit aToB n = limit ∨
      (s.ticks base w.tickSpacing n).initialized = false
  · refine Or.inr (TradePrice.ext ?_)
    rw [hm, hstop]
    exact hs.target_eq_stop hb hne hsearch hend
  · rw [not_or, Bool.not_eq_false] at hend
    have hprice := (stepTarget_choice limit aToB n).resolve_left hend.1
    rw [← hm] at hprice hend
    exact Or.inl ⟨gross_atPrices_pos.2 ⟨n, (hbooks.initialized n).1 hend.2, hprice.symm⟩, hend.1⟩

/-- **A loop that goes on has passed a gate**, and must still stop at the same price.

**Proof sketch.** It has landed at its target, which is not the price limit, so it is the price of
the tick that the search has returned. This tick is initialized by `initialized_of_next`. -/
lemma SwapState.WellFormed.passed_gate {s'' : SwapState} (hb : SwapBounds w limit amount)
    (hs : s.WellFormed w base limit amount aToB)
    (hbooks : Books R (s.ticks base w.tickSpacing) s.currTickIndex s.currLiquidity)
    (hne : limit ≠ s.currSqrtPrice)
    (hsearch : s.swapTickSequence.getNextInitializedTickIndex s.currTickIndex w.tickSpacing aToB
      s.currArrayIndex = .ok (j, n)) (hm : m.price = stepTarget limit aToB n)
    (hreached : m.price = s'.currSqrtPrice)
    (hstep : swapStep w infos limit input aToB s = .ok s') (hrun : s'.Running limit)
    (hnext : swapStep w infos limit input aToB s' = .ok s'') :
    tradeGate R aToB m ∧
      stopPrice limit aToB w.tickSpacing (s'.swapTickSequence.map TickArray.startTickIndex)
          s'.currTickIndex =
        stopPrice limit aToB w.tickSpacing (s.swapTickSequence.map TickArray.startTickIndex)
          s.currTickIndex := by
  obtain ⟨-, j', n', hn, hlands⟩ := swapStep_lands hb.min_le hb.le_max
    ⟨hs.price.lt, fun _ => hs.price.pos, hs.liquidity_lt, hs.remaining_le.trans_lt hb.amount_lt⟩
    hstep hrun
  have hsame := hlands.search
  rw [hsearch, Except.ok.injEq, Prod.mk.injEq] at hsame
  obtain ⟨rfl, rfl⟩ := hsame
  have hinit := hs.initialized_of_next hsearch hlands hn hnext
  have hprice : stepTarget limit aToB n = tickPrice n :=
    (stepTarget_choice limit aToB n).resolve_left fun he =>
      hrun.2 (he.symm.trans (hm.symm.trans hreached))
  exact ⟨gross_atPrices_pos.2 ⟨n, (hbooks.initialized n).1 hinit, (hm.trans hprice).symm⟩,
    hlands.stopPrice_eq hb hs hne hinit hnext⟩

/-! ## The whole loop -/

/-- A loop that goes on takes another step. -/
lemma traceLoop_exists_next {count : ℕ} {t t' : SwapTrace} (hrun : t.state.Running limit)
    (h : traceLoop w infos limit input aToB count t = .ok t') :
    ∃ s'', swapStep w infos limit input aToB t.state = .ok s'' := by
  cases count with
  | zero => simp [traceLoop] at h
  | succ count =>
    rw [traceLoop, if_pos hrun, Res.bind_eq_ok] at h
    obtain ⟨t₁, hstep, -⟩ := h
    exact ⟨_, (traceStep_eq_ok hstep).1⟩

/-- **The loop of a swap is a journey on the road of the trade**, up to the price at which the swap
must stop.

**Proof sketch.** Induction on the iterations. The target of an iteration is the price of an
initialized tick, or the price at which the swap must stop. If the amount ends before the target,
the iteration is the last one. If it reaches the target and the loop goes on, then it has crossed a
tick, and the rest of the loop must still stop at the same price. -/
theorem SwapInvariant.journey (h₀ : SwapStart R w limit amount s₀) (hts : w.tickSpacing ≠ 0) :
    ∀ (count : ℕ) {t t' : SwapTrace} {u v : TradePrice aToB},
      SwapInvariant R w infos base limit amount input aToB s₀ t →
      traceLoop w infos limit input aToB count t = .ok t' → u.price = t.state.currSqrtPrice →
      v.price = t'.state.currSqrtPrice →
      stop.price = stopPrice limit aToB w.tickSpacing
        (t.state.swapTickSequence.map TickArray.startTickIndex) t.state.currTickIndex →
      ∃ x, t'.state.amountCalculated = t.state.amountCalculated + x ∧
        TradeJourney R aToB w.feeRate input stop u t.state.amountRemaining v
          t'.state.amountRemaining x := by
  intro count
  have hb := h₀.bounds
  induction count with
  | zero =>
    intro t t' u v _ h
    simp [traceLoop] at h
  | succ count ih =>
    intro t t' u v hinv h hu hv hstop
    have hs := hinv.wellFormed
    by_cases hrun : t.state.Running limit
    swap
    · obtain rfl := traceLoop_stopped hrun h
      obtain rfl : v = u := TradePrice.ext (hv.trans hu.symm)
      refine ⟨0, rfl, ?_⟩
      rcases hs.stopped hts hrun with hzero | hthere
      · rw [hzero]
        exact .done
      · obtain rfl : v = stop := TradePrice.ext (hu.trans (hthere.trans hstop.symm))
        exact .stay (measure_trade R aToB input hb.feeRate_lt)
          (measure_trade R aToB (!input) hb.feeRate_lt) v _
    rw [traceLoop, if_pos hrun, Res.bind_eq_ok] at h
    obtain ⟨t₁, h1, h⟩ := h
    have hinv₁ := hinv.step h₀ hrun h1
    obtain ⟨hstep, -⟩ := traceStep_eq_ok h1
    obtain ⟨j, n, comp, hsearch, hcomp, hres⟩ := swapStep_cases hb hs hrun.2 hstep
    obtain ⟨m, hm⟩ : ∃ m : TradePrice aToB, m.price = stepTarget limit aToB n :=
      ⟨⟨_, (hs.target_bounds hb hres.search).1⟩, rfl⟩
    obtain ⟨v₁, hv₁⟩ : ∃ v₁ : TradePrice aToB, v₁.price = t₁.state.currSqrtPrice :=
      ⟨⟨_, hinv₁.wellFormed.price.pos⟩, rfl⟩
    obtain ⟨hclear, hfrom, hle, hcalc, hends⟩ :=
      hres.ride hb h₀.onTicks hs hinv.books hcomp hu hm hv₁
    have hbefore : m ≤ stop := by
      rw [TradePrice.le_iff, hm, hstop]
      exact hs.target_toward_stop hb hrun.2 hsearch
    have htarget := hs.gate_or_stop hb hinv.books hrun.2 hsearch hm hstop
    rcases hends with ⟨rfl, hcovers, hrem⟩ | ⟨hlt, hrem, hhalts⟩
    · by_cases hrun₁ : t₁.state.Running limit
      · -- the loop goes on
        obtain ⟨s'', hnext⟩ := traceLoop_exists_next hrun₁ h
        obtain ⟨hgate, hsame⟩ :=
          hs.passed_gate hb hinv.books hrun.2 hsearch hm hv₁ hstep hrun₁ hnext
        obtain ⟨x, hx, hrest⟩ := ih hinv₁ h hv₁ hv (hstop.trans hsame.symm)
        refine ⟨_, ?_, .pass hrun.1 hclear hgate hbefore hcovers (hrem ▸ hrest)⟩
        rw [hx, hcalc, add_assoc]
      · obtain rfl := traceLoop_stopped hrun₁ h
        obtain rfl : v = v₁ := TradePrice.ext (hv.trans hv₁.symm)
        refine ⟨_, hcalc, ?_⟩
        rw [hrem]
        rcases htarget with ⟨hgate, hne⟩ | rfl
        · -- the amount is used up at the tick
          have hzero : t.state.amountRemaining - tradeMeasure R aToB w.feeRate input u v = 0 := by
            rw [← hrem]
            by_contra hpos
            exact hrun₁ ⟨Nat.pos_of_ne_zero hpos, (hv₁ ▸ hne).symm⟩
          rw [hzero]
          exact .pass_done hrun.1 hclear hgate hbefore (by omega)
        · exact .arrive hrun.1 hclear hcovers
    · -- the amount ends before the target
      have hstopped : ¬t₁.state.Running limit := fun hr => by
        have := hr.1
        omega
      obtain rfl := traceLoop_stopped hstopped h
      obtain rfl : v = v₁ := TradePrice.ext (hv.trans hv₁.symm)
      refine ⟨_, hcalc, ?_⟩
      rw [hrem]
      exact .short hrun.1 hclear (htarget.imp_left fun h => h.1) hbefore hfrom hle hlt hhalts

/-! ## Trips -/

/-- What the loop with a specified input is on the road, from the variables `s` to the variables
`s'`. -/
structure Travels (T : TollRoad (TradePrice aToB)) (limit ts : ℕ) (u v : TradePrice aToB)
    (s s' : SwapState) : Prop where
  /-- The loop is a trip with the remaining amount, and its output is the gain. -/
  trip : ∃ g, s'.amountCalculated = s.amountCalculated + g ∧ T.Trip u s.amountRemaining v g
  /-- It goes as far as the amount pays for, to the limit, or to the edge of the last array. -/
  ends : T.Furthest u s.amountRemaining v ∨ v.price = limit ∨
    EndsAtEdge aToB ts (s.swapTickSequence.map TickArray.startTickIndex) v.price

/-- **The loop of a swap with a specified input is a trip on the road of the trade.**

**Proof sketch.** The journey of the loop is a trip by `Trip.of_journey`. It goes as far as the
amount pays for, or to the stop, which is the price limit or the edge of the last array. -/
theorem SwapInvariant.travels (h₀ : SwapStart R w limit amount s₀) (hts : w.tickSpacing ≠ 0)
    (count : ℕ) {t t' : SwapTrace}
    (hinv : SwapInvariant R w infos base limit amount true aToB s₀ t)
    (h : traceLoop w infos limit true aToB count t = .ok t') (hu : u.price = t.state.currSqrtPrice)
    (hv : v.price = t'.state.currSqrtPrice) :
    Travels (tradeRoad R aToB h₀.bounds.feeRate_lt) limit w.tickSpacing u v t.state t'.state := by
  have hb := h₀.bounds
  have hs := hinv.wellFormed
  have htoward : Toward aToB t.state.currSqrtPrice (stopPrice limit aToB w.tickSpacing
      (t.state.swapTickSequence.map TickArray.startTickIndex) t.state.currTickIndex) :=
    hs.price.toward_stopPrice hts hs.toward
  obtain ⟨stop, hstop⟩ : ∃ stop : TradePrice aToB, stop.price = stopPrice limit aToB w.tickSpacing
      (t.state.swapTickSequence.map TickArray.startTickIndex) t.state.currTickIndex :=
    ⟨⟨_, toward_pos hs.price.pos (price_bounds ⟨hb.min_le, hb.le_max⟩).1 htoward
      stopPrice_toward⟩, rfl⟩
  obtain ⟨x, hx, hjourney⟩ := hinv.journey h₀ hts count h hu hv hstop
  have hle : u ≤ stop := by
    rw [TradePrice.le_iff, hu, hstop]
    exact htoward
  refine ⟨⟨x, hx, .of_journey hjourney⟩, ?_⟩
  refine (TollRoad.Furthest.of_journey (T := tradeRoad R aToB hb.feeRate_lt) hjourney
    hle).imp_right fun hend => ?_
  rw [hend, hstop]
  exact stopPrice_cases hb.min_le hb.le_max

end NemoSwap
