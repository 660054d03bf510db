import NemoSwap.Pool.SwapJourney
import NemoSwap.Pool.Trade
import NemoSwap.Pool.Solvency

set_option relaxedAutoImplicit false
set_option autoImplicit false

/-!
# What a swap takes and gives

What moving the price of a pool costs and yields is a sum over the stretches between the prices at
which positions start or end. Without running a swap these sums tell whether it exchanges its whole
amount before the price at which it must stop, and which bounds its other amount keeps.

## Main definitions

* `NemoSwap.Pool.stop` — the price at which a swap must stop.
* `NemoSwap.Pool.Moves` — what moving the price of a pool costs and yields.
* `NemoSwap.Pool.HasRoom` — the amount fits in before a swap must stop.
* `NemoSwap.Pool.Settles` — how far a swap with a specified output must move the price.

## Main results

* `NemoSwap.Reachable.swap_journey` — a swap in a reachable pool is a journey.
* `NemoSwap.Reachable.specified_eq_iff` — when a swap exchanges its whole amount.
* `NemoSwap.Reachable.amountOut_le_iff`, `NemoSwap.Reachable.amountIn_le_iff` — when the other
  amount of a swap is within a bound.
-/

namespace NemoSwap

namespace Pool

/-- **The price at which a swap in the pool must stop**: its price limit, or the end of its tick
arrays. -/
def stop (pool : Pool) (args : SwapArgs) : ℕ :=
  stopPrice args.sqrtPriceLimit.toNat args.aToB pool.whirlpool.tickSpacing
    (sequenceKeys args.array0 args.array1 args.array2) pool.whirlpool.tickCurrentIndex

/-- **Moving the price of the pool to `q`**, in the direction of a swap and not beyond the price at
which it must stop, costs `paid` of the input token with the fees on it, and yields `received` of
the output token. Both are sums over the stretches between the prices at which positions start or
end, and each term is rounded against the trader. -/
def Moves (pool : Pool) (args : SwapArgs) (q paid received : ℕ) : Prop :=
  Toward args.aToB q (pool.stop args) ∧ ∃ u v : TradePrice args.aToB,
    u.price = pool.whirlpool.sqrtPrice ∧ v.price = q ∧
      Journey.Total (tradeGate pool.ranges args.aToB)
        (tradeMeasure pool.ranges args.aToB pool.whirlpool.feeRate true) u v paid ∧
      Journey.Total (tradeGate pool.ranges args.aToB)
        (tradeMeasure pool.ranges args.aToB pool.whirlpool.feeRate false) u v received

/-- **The pool has room for an amount**: moving its price to where a swap must stop takes at least
this much of the specified token. -/
def HasRoom (pool : Pool) (args : SwapArgs) (amount : ℕ) : Prop :=
  ∀ paid received, pool.Moves args (pool.stop args) paid received →
    amount ≤ if args.amountSpecifiedIsInput then paid else received

/-- A position of the pool starts or ends at the price. -/
def BoundaryAt (pool : Pool) (q : ℕ) : Prop := 0 < (atPrices pool.ranges).gross q

/-- **How far a swap with a specified output must move the price**: to the price at which it must
stop, or to one up to which it has yielded the amount. Where the amount is yielded exactly up to a
boundary further on, or up to the price at which the swap must stop, it goes there. -/
def Settles (pool : Pool) (args : SwapArgs) (q received : ℕ) : Prop :=
  q = pool.stop args ∨ args.amount.toNat ≤ received ∧ (pool.BoundaryAt q ∨ ∀ n paid,
    q ≠ n → Toward args.aToB q n → pool.BoundaryAt n ∨ n = pool.stop args →
      ¬pool.Moves args n paid args.amount.toNat)

end Pool

/-- The part of a swap that was not specified: its output, or its input. -/
def PostSwapUpdate.unspecified (self : PostSwapUpdate) (input aToB : Bool) : ℕ :=
  self.specified (!input) aToB

variable {pool : Pool} {args : Pool.SwapArgs} {timestamp : ℕ} {update : PostSwapUpdate}
  {sequence : SwapTickSequence} {A : ℕ}

/-- **A swap in a reachable pool is a journey** on the road of the trade, with its specified
amount.

**Proof sketch.** The loop of the swap is a journey from the price of the pool to the price that it
reaches (`SwapInvariant.journey`), with the amount that remains as the rest of the money. The stop
of the arguments is the one of the arrays that have been loaded. -/
theorem Reachable.swap_journey (h : Reachable pool)
    (hswap : pool.computeSwapUpdate args timestamp = .ok (update, sequence)) :
    pool.whirlpool.feeRate < feeRateMulValue ∧ 0 < args.amount.toNat ∧
      ∃ (u v stop : TradePrice args.aToB) (rem : ℕ), u.price = pool.whirlpool.sqrtPrice ∧
        stop.price = pool.stop args ∧ u ≤ stop ∧
        update.specified args.amountSpecifiedIsInput args.aToB + rem = args.amount.toNat ∧
        TradeJourney pool.ranges args.aToB pool.whirlpool.feeRate args.amountSpecifiedIsInput stop
          u args.amount.toNat v rem
          (update.unspecified args.amountSpecifiedIsInput args.aToB) := by
  obtain ⟨s, rfl, hs⟩ := h.invariant
  obtain ⟨infos, t, initial, hinfos, hobs, hloads, hinv, hrun, hupdate, -⟩ :=
    Pool.computeSwapUpdate_eq_ok hs.sound hs.backed hswap
  have hstart := hs.sound.swapStart hs.backed initial args.aToB args.amount hrun.min_le hrun.le_max
  have hstarts : initial.map TickArray.startTickIndex =
      Pool.sequenceKeys args.array0 args.array1 args.array2 := by
    have hl := hrun.loaded
    unfold Pool.loadSequence at hl
    simp only [Res.bind_eq_ok] at hl
    obtain ⟨-, -, -, -, -, -, hl⟩ := hl
    exact (Pool.mapM_getTickArray_eq_ok hs.sound.wellPlaced hl).1
  have hpos : 0 < args.amount.toNat := by
    unfold Pool.computeSwapUpdate at hswap
    rw [hrun.loaded, Res.ok_bind] at hswap
    exact Nat.pos_of_ne_zero (swap_eq_ok.1 hswap).2.2.1
  unfold Pool.observeSwap at hobs
  rw [hrun.loaded, Res.ok_bind, hinfos, Res.ok_bind] at hobs
  have htoward : Toward args.aToB s.pool.whirlpool.sqrtPrice (s.pool.stop args) :=
    hs.sound.price.toward_stopPrice hs.sound.spacing hrun.toward
  obtain ⟨u, hu⟩ : ∃ u : TradePrice args.aToB, u.price = s.pool.whirlpool.sqrtPrice :=
    ⟨⟨_, hs.sound.price.pos⟩, rfl⟩
  obtain ⟨v, hv⟩ : ∃ v : TradePrice args.aToB, v.price = t.state.currSqrtPrice :=
    ⟨⟨_, hinv.wellFormed.price.pos⟩, rfl⟩
  obtain ⟨stop, hstop⟩ : ∃ stop : TradePrice args.aToB, stop.price = s.pool.stop args :=
    ⟨⟨_, toward_pos hs.sound.price.pos (price_bounds ⟨hrun.min_le, hrun.le_max⟩).1 htoward
      stopPrice_toward⟩, rfl⟩
  have hsame : stop.price = stopPrice args.sqrtPriceLimit.toNat args.aToB
      s.pool.whirlpool.tickSpacing (initial.map TickArray.startTickIndex)
      s.pool.whirlpool.tickCurrentIndex := by
    rw [hstop, hstarts]
    rfl
  obtain ⟨x, hx, hjourney⟩ := SwapInvariant.journey hstart hs.sound.spacing _
    (hs.sound.swapInvariant args.amount.toNat hloads hinfos hrun.toward) hobs hu hv hsame
  have hcalc : t.state.amountCalculated = x := hx.trans (Nat.zero_add x)
  have hrem : t.state.amountRemaining ≤ args.amount.toNat := hinv.wellFormed.remaining_le
  have hother : update.unspecified args.amountSpecifiedIsInput args.aToB =
      t.state.amountCalculated := by
    subst hupdate
    unfold PostSwapUpdate.unspecified
    cases args.amountSpecifiedIsInput <;> cases args.aToB <;> rfl
  refine ⟨hstart.bounds.feeRate_lt, hpos, u, v, stop, t.state.amountRemaining, hu, hstop,
    ?_, ?_, ?_⟩
  · rw [TradePrice.le_iff, hu, hstop]
    exact htoward
  · rw [hupdate, postSwapUpdate_specified]
    omega
  · rw [hother, hcalc]
    exact hjourney

/-- The amounts of a swap are `u64`.

**Proof sketch.** What is paid is a `u64` by the invariant of the loop, and what is received is in
the vault. -/
theorem Reachable.computeSwapUpdate_lt {pool : Pool} (h : Reachable pool)
    {args : Pool.SwapArgs} {timestamp : ℕ} {update : PostSwapUpdate} {sequence : SwapTickSequence}
    (hswap : pool.computeSwapUpdate args timestamp = .ok (update, sequence)) :
    update.amountIn args.aToB < 2 ^ 64 ∧ update.amountOut args.aToB < 2 ^ 64 := by
  obtain ⟨s, rfl, hs⟩ := h.invariant
  obtain ⟨infos, t, initial, -, -, -, hinv, hrun, rfl, -⟩ :=
    Pool.computeSwapUpdate_eq_ok hs.sound hs.backed hswap
  have hstart := hs.sound.swapStart hs.backed initial args.aToB args.amount hrun.min_le hrun.le_max
  have hpaid := hinv.paid_lt hstart.bounds
  have hreceived : t.state.received args.amount.toNat args.amountSpecifiedIsInput < 2 ^ 64 := by
    unfold SwapState.received
    split_ifs
    · exact hinv.calculated_lt
    · exact lt_of_le_of_lt (Nat.sub_le _ _) args.amount.toNat_lt
  obtain ⟨hA, hB⟩ := Pool.postSwapUpdate_amounts args.amount.toNat args.amountSpecifiedIsInput
    args.aToB infos t.state
  unfold PostSwapUpdate.amountIn PostSwapUpdate.amountOut
  rw [hA, hB]
  cases args.aToB
  · exact ⟨hpaid, hreceived⟩
  · exact ⟨hpaid, hreceived⟩

/-- Moves in terms of the points of the road. -/
lemma Pool.moves_iff {u v stop : TradePrice args.aToB} (hu : u.price = pool.whirlpool.sqrtPrice)
    (hstop : stop.price = pool.stop args) {paid received : ℕ} :
    pool.Moves args v.price paid received ↔ v ≤ stop ∧
      Journey.Total (tradeGate pool.ranges args.aToB)
        (tradeMeasure pool.ranges args.aToB pool.whirlpool.feeRate true) u v paid ∧
      Journey.Total (tradeGate pool.ranges args.aToB)
        (tradeMeasure pool.ranges args.aToB pool.whirlpool.feeRate false) u v received := by
  unfold Pool.Moves
  rw [TradePrice.le_iff, hstop]
  refine and_congr_right fun _ => ⟨?_, fun h => ⟨u, v, hu, rfl, h⟩⟩
  rintro ⟨u', v', hu', hv', h⟩
  obtain rfl : u' = u := TradePrice.ext (hu'.trans hu.symm)
  obtain rfl : v' = v := TradePrice.ext hv'
  exact h

/-- A move has a point where it ends. -/
lemma Pool.Moves.exists_point {q paid received : ℕ} (h : pool.Moves args q paid received) :
    ∃ v : TradePrice args.aToB, v.price = q := by
  obtain ⟨-, u, v, -, hv, -⟩ := h
  exact ⟨v, hv⟩

/-- How far a swap must move the price in terms of the points of the road. -/
lemma Pool.settles_iff {u x stop : TradePrice args.aToB} (hu : u.price = pool.whirlpool.sqrtPrice)
    (hstop : stop.price = pool.stop args) {received : ℕ} :
    pool.Settles args x.price received ↔ Journey.Settles (tradeGate pool.ranges args.aToB)
      (tradeMeasure pool.ranges args.aToB pool.whirlpool.feeRate false) stop u args.amount.toNat x
      received := by
  unfold Pool.Settles Journey.Settles
  rw [← hstop, ← TradePrice.ext_iff]
  refine or_congr_right (and_congr_right fun _ => or_congr_right ⟨?_, ?_⟩)
  · intro hno n hlt hle hends htotal
    obtain ⟨htow, hne⟩ := TradePrice.lt_iff.1 hlt
    obtain ⟨paid, hpaid⟩ := htotal.exists_other
      (tradeMeasure pool.ranges args.aToB pool.whirlpool.feeRate true)
    exact hno n.price paid hne htow (hends.imp_right (congrArg TradePrice.price))
      ((Pool.moves_iff hu hstop).2 ⟨hle, hpaid, htotal⟩)
  · intro hno q paid hne htow hends hmoves
    obtain ⟨n, rfl⟩ := hmoves.exists_point
    obtain ⟨hle, -, htotal⟩ := (Pool.moves_iff hu hstop).1 hmoves
    exact hno n (TradePrice.lt_iff.2 ⟨htow, hne⟩) hle (hends.imp_right TradePrice.ext) htotal

/-- **A swap exchanges its whole amount** exactly if the pool has room for it. -/
theorem Reachable.specified_eq_iff (h : Reachable pool)
    (hswap : pool.computeSwapUpdate args timestamp = .ok (update, sequence)) :
    update.specified args.amountSpecifiedIsInput args.aToB = args.amount.toNat ↔
      pool.HasRoom args args.amount.toNat := by
  obtain ⟨hfee, -, u, v, stop, rem, hu, hstop, hle, hrem, hjourney⟩ := h.swap_journey hswap
  have hall : update.specified args.amountSpecifiedIsInput args.aToB = args.amount.toNat ↔
      rem = 0 := by omega
  unfold Pool.HasRoom
  rw [hall, hjourney.rem_eq_zero_iff (measure_trade _ _ _ hfee) (measure_trade _ _ _ hfee),
    ← hstop]
  simp only [Pool.moves_iff hu hstop]
  cases args.amountSpecifiedIsInput with
  | true => exact ⟨fun h c x hc => h c x hc.2.1 hc.2.2, fun h c x hc hx => h c x ⟨le_rfl, hc, hx⟩⟩
  | false =>
    exact ⟨fun h c x hc => h x c hc.2.2 hc.2.1, fun h c x hc hx => h x c ⟨le_rfl, hx, hc⟩⟩

/-- **The output of a swap with a specified input is within a bound** exactly if no move that the
amount pays for yields more. -/
theorem Reachable.amountOut_le_iff (h : Reachable pool)
    (hswap : pool.computeSwapUpdate args timestamp = .ok (update, sequence))
    (hinput : args.amountSpecifiedIsInput = true) :
    update.amountOut args.aToB ≤ A ↔ ∀ q paid received, pool.Moves args q paid received →
      paid ≤ args.amount.toNat → received ≤ A := by
  obtain ⟨hfee, -, u, v, stop, rem, hu, hstop, hle, -, hjourney⟩ := h.swap_journey hswap
  rw [hinput] at hjourney
  have hbound := Journey.other_le_iff_furthest (A := A) hjourney
    (measure_trade _ _ _ hfee) (measure_trade _ _ _ hfee) tradeMeasure_free hle
  refine hbound.trans ⟨fun hall q paid received hmoves hpaid => ?_,
    fun hall x c g hc hg hx hpaid => ?_⟩
  · obtain ⟨v, rfl⟩ := hmoves.exists_point
    obtain ⟨hv, hp, hr⟩ := (Pool.moves_iff hu hstop).1 hmoves
    exact hall v paid received hp hr hv hpaid
  · exact hall x.price c g ((Pool.moves_iff hu hstop).2 ⟨hx, hc, hg⟩) hpaid

/-- **The input of a swap with a specified output is within a bound** exactly if that of some move
is which goes as far as the swap must. -/
theorem Reachable.amountIn_le_iff (h : Reachable pool)
    (hswap : pool.computeSwapUpdate args timestamp = .ok (update, sequence))
    (houtput : args.amountSpecifiedIsInput = false) :
    update.amountIn args.aToB ≤ A ↔ ∃ q paid received, pool.Moves args q paid received ∧
      pool.Settles args q received ∧ paid ≤ A := by
  obtain ⟨hfee, hpos, u, v, stop, rem, hu, hstop, hle, -, hjourney⟩ := h.swap_journey hswap
  rw [houtput] at hjourney
  have hbound := Journey.other_le_iff_nearest (A := A) hjourney
    (measure_trade _ _ _ hfee) (measure_trade _ _ _ hfee) hpos hle
  refine hbound.trans ⟨?_, ?_⟩
  · rintro ⟨x, g, c, hg, hc, hx, hs, hA⟩
    exact ⟨x.price, c, g, (Pool.moves_iff hu hstop).2 ⟨hx, hc, hg⟩, (Pool.settles_iff hu hstop).2 hs, hA⟩
  · rintro ⟨q, c, g, hmoves, hs, hA⟩
    obtain ⟨x, rfl⟩ := hmoves.exists_point
    obtain ⟨hx, hc, hg⟩ := (Pool.moves_iff hu hstop).1 hmoves
    exact ⟨x, g, c, hg, hc, hx, (Pool.settles_iff hu hstop).1 hs, hA⟩

end NemoSwap
