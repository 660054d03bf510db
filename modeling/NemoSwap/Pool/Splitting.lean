import NemoSwap.Manager.SwapMono
import NemoSwap.Pool.SwapJourney
import NemoSwap.Pool.Trading

set_option relaxedAutoImplicit false
set_option autoImplicit false

/-!
# Trades of different amounts

Of two swaps that differ in their amounts only, the larger one moves the price at least as far, and
the trader pays and receives at least as much.

A trade with a specified input is compared with two trades that share its amount, in the same
direction and with the same price limit. The second one starts where the first one ends, with the
same positions, so all three travel on one road, and stopping on the way never pays.

There is one exception. A single trade that ends exactly at the edge of its last tick array, which
needs no initialized tick there, has paid for the move to the edge as rounded up. The trades that
share its amount and have more tick arrays are rounded elsewhere, and can move a little beyond the
edge.

## Main definitions

* `NemoSwap.Pool.SwapArgs.Splits` — two trades that share the amount of a third.
* `NemoSwap.Pool.paidOut` — what a trade pays out.

## Main results

* `NemoSwap.Reachable.larger_swap` — a larger swap.
* `NemoSwap.Reachable.split_exactIn` — splitting a trade never pays.
* `NemoSwap.edgePool_split` — it does at the edge of the last tick array.
-/

namespace NemoSwap

/-! ## Larger swaps -/

/-- **A larger swap is larger in everything.** Two swaps in a reachable pool at the same time, with
the same arrays, mode, direction and price limit: with the larger specified amount the price moves
at least as far, and the trader pays and receives at least as much.

**Proof sketch.** Both swaps load the same arrays and start in the same state but for the amount, so
`swap_mono` applies. -/
theorem Reachable.larger_swap {pool : Pool} (h : Reachable pool) (args : Pool.SwapArgs)
    {x y : UInt64} (hle : x.toNat ≤ y.toNat) {timestamp : ℕ} {update update' : PostSwapUpdate}
    {sequence sequence' : SwapTickSequence}
    (hx : pool.computeSwapUpdate { args with amount := x } timestamp = .ok (update, sequence))
    (hy : pool.computeSwapUpdate { args with amount := y } timestamp = .ok (update', sequence')) :
    Toward args.aToB update.nextSqrtPrice update'.nextSqrtPrice ∧
      update.amountIn args.aToB ≤ update'.amountIn args.aToB ∧
      update.amountOut args.aToB ≤ update'.amountOut args.aToB := by
  obtain ⟨s, rfl, hs⟩ := h.invariant
  obtain ⟨infos, t, initial, hinfos, -, hloads, -, hrun, -⟩ :=
    Pool.computeSwapUpdate_eq_ok hs.sound hs.backed hy
  have hstart := hs.sound.swapStart hs.backed initial args.aToB y hrun.min_le hrun.le_max
  have hinv : SwapInvariant s.pool.ranges s.pool.whirlpool infos s.pool.tickArrays
      args.sqrtPriceLimit.toNat y.toNat args.amountSpecifiedIsInput args.aToB
      (initialSwapState s.pool.whirlpool initial y.toNat args.aToB)
      (initialTrace s.pool.whirlpool initial y.toNat args.aToB) :=
    hs.sound.swapInvariant y.toNat hloads hinfos hrun.toward
  have hloaded : s.pool.loadSequence args.array0 args.array1 args.array2 = .ok initial :=
    hrun.loaded
  unfold Pool.computeSwapUpdate at hx hy
  simp only [hloaded, Res.ok_bind] at hx hy
  exact swap_mono hstart.bounds hinv.wellFormed hle hx hy

/-- A swap of 50000 units of token A and one of 100000. -/
theorem Reachable.larger_swap_samplePool :
    ∃ update update' sequence sequence',
      samplePool.computeSwapUpdate ⟨0, -5632, -5632, 50000, 4295048016, true, true⟩ 5 =
        .ok (update, sequence) ∧
      samplePool.computeSwapUpdate ⟨0, -5632, -5632, 100000, 4295048016, true, true⟩ 5 =
        .ok (update', sequence') ∧
      (update.amountB, update'.amountB) = (49847, 99690) ∧ update.amountB ≤ update'.amountB := by
  have hboth : ((samplePool.computeSwapUpdate ⟨0, -5632, -5632, 50000, 4295048016, true, true⟩
      5).map fun r => r.1.amountB) = .ok 49847 ∧
      ((samplePool.computeSwapUpdate ⟨0, -5632, -5632, 100000, 4295048016, true, true⟩
        5).map fun r => r.1.amountB) = .ok 99690 := by
    decide +kernel
  obtain ⟨⟨update, sequence⟩, h, h1⟩ := Res.map_eq_ok.1 hboth.1
  obtain ⟨⟨update', sequence'⟩, h', h2⟩ := Res.map_eq_ok.1 hboth.2
  have hlarger := samplePool_reachable.larger_swap
    ⟨0, -5632, -5632, 50000, 4295048016, true, true⟩
    (show (50000 : UInt64).toNat ≤ (100000 : UInt64).toNat by decide) h h'
  exact ⟨update, update', sequence, sequence', h, h', Prod.ext h1 h2, hlarger.2.2⟩

/-- The road of a trade depends on the ranges and the fee rate only. -/
lemma tradeRoad_congr {ι : Type} {R R' : Ranges ι ℤ} {aToB : Bool} {feeRate feeRate' : ℕ}
    (hfee : feeRate < feeRateMulValue) (hfee' : feeRate' < feeRateMulValue) (hR : R' = R)
    (h : feeRate' = feeRate) : tradeRoad R' aToB hfee' = tradeRoad R aToB hfee := by
  subst hR h
  rfl

namespace Pool

variable {pool pool' : Pool} {earned : Earnings}

/-- Two trades with a specified input that share the amount of a third one, in its direction and
with its price limit. Their tick arrays may be other ones. -/
structure SwapArgs.Splits (single first second : SwapArgs) : Prop where
  input : single.amountSpecifiedIsInput = true
  input_first : first.amountSpecifiedIsInput = true
  input_second : second.amountSpecifiedIsInput = true
  direction_first : first.aToB = single.aToB
  direction_second : second.aToB = single.aToB
  limit_first : first.sqrtPriceLimit = single.sqrtPriceLimit
  limit_second : second.sqrtPriceLimit = single.sqrtPriceLimit
  first_pos : 0 < first.amount.toNat
  second_pos : 0 < second.amount.toNat
  amount : single.amount.toNat = first.amount.toNat + second.amount.toNat

/-- What a trade pays out of a pool. -/
def paidOut (pool pool' : Pool) (aToB : Bool) : ℕ :=
  pool.vault (tokenOut aToB) - pool'.vault (tokenOut aToB)

/-- The trade ended at the edge of its last tick array, short of its price limit. -/
def StoppedAtEdge (pool' : Pool) (args : SwapArgs) : Prop :=
  pool'.whirlpool.sqrtPrice ≠ args.sqrtPriceLimit.toNat ∧
    EndsAtEdge args.aToB pool'.whirlpool.tickSpacing
      (sequenceKeys args.array0 args.array1 args.array2) pool'.whirlpool.sqrtPrice

/-- The fee rate of a sound pool leaves a part of an input. -/
lemma Sound.feeRate_lt (hs : pool.Sound earned) : pool.whirlpool.feeRate < feeRateMulValue :=
  lt_of_le_of_lt hs.feeRate (by decide)

/-- **A trade with a specified input is a trip on the road of its pool.**

**Proof sketch.** The loop of the trade travels on the road (`SwapInvariant.travels`), and what it
gains is what the vault has paid. The arrays it has used are those of its arguments, which tells
where it could have ended. -/
theorem Traded.trip (hs : pool.Sound earned) (hb : pool.Backed earned) {args : SwapArgs}
    {infos : Fin numRewards → WhirlpoolRewardInfo} {timestamp : ℕ} {t : SwapTrace}
    (h : Traded pool pool' args infos timestamp t) (hin : args.amountSpecifiedIsInput = true)
    {u v : TradePrice args.aToB} (hu : u.price = pool.whirlpool.sqrtPrice)
    (hv : v.price = pool'.whirlpool.sqrtPrice) :
    (tradeRoad pool.ranges args.aToB hs.feeRate_lt).Trip u args.amount.toNat v
        (paidOut pool pool' args.aToB) ∧
      Toward args.aToB v.price args.sqrtPriceLimit.toNat ∧
      ((tradeRoad pool.ranges args.aToB hs.feeRate_lt).Furthest u args.amount.toNat v ∨
        v.price = args.sqrtPriceLimit.toNat ∨ StoppedAtEdge pool' args) := by
  obtain ⟨hts, -, hprice, -⟩ := h.record
  obtain ⟨sequence, hinv, hload, hrun⟩ := h.invariant
  have hobs := h.observed
  unfold observeSwap at hobs
  rw [hrun.loaded, Res.ok_bind, h.rewards, Res.ok_bind] at hobs
  have hvault := h.vault (tokenOut args.aToB)
  have hout : paidOut pool pool' args.aToB = t.state.amountCalculated := by
    unfold received paid SwapState.received tokenIn tokenOut at hvault
    unfold paidOut tokenOut
    cases hd : args.aToB <;>
      simp only [hd, hin, Bool.false_eq_true, reduceCtorEq, if_true, if_false] at hvault ⊢ <;> omega
  have hstarts : sequence.map TickArray.startTickIndex =
      sequenceKeys args.array0 args.array1 args.array2 := by
    have hl := hrun.loaded
    unfold loadSequence at hl
    simp only [Res.bind_eq_ok] at hl
    obtain ⟨-, -, -, -, -, -, hl⟩ := hl
    exact (mapM_getTickArray_eq_ok hs.wellPlaced hl).1
  rw [hin] at hobs
  have hstart := hs.swapStart hb sequence args.aToB args.amount hrun.min_le hrun.le_max
  obtain ⟨⟨g, hg, htrip⟩, hends⟩ := SwapInvariant.travels hstart hs.spacing _
    (hs.swapInvariant args.amount.toNat hload h.rewards hrun.toward) hobs hu
    (hv.trans hprice)
  have hgain : g = paidOut pool pool' args.aToB := by
    rw [hout, hg]
    exact (zero_add g).symm
  rw [← hgain]
  refine ⟨htrip, ?_, hends.imp_right fun h => ?_⟩
  · rw [hv, hprice]
    exact hinv.wellFormed.toward
  · by_cases hlimit : v.price = args.sqrtPriceLimit.toNat
    · exact Or.inl hlimit
    · refine Or.inr ⟨hv ▸ hlimit, ?_⟩
      have hedge := h.resolve_left hlimit
      change EndsAtEdge _ _ (sequence.map TickArray.startTickIndex) _ at hedge
      rw [hstarts, hv, ← hts] at hedge
      exact hedge

end Pool

/-- **Splitting a trade with a specified input never pays.** If two trades share the amount of a
single one, in its direction and with its price limit, they pay out at most as much and do not move
the price further, unless the single trade stopped at the edge of its last tick array and they
moved the price beyond it.

**Proof sketch.** The three trades are trips on one road: the first and second in sequence, and the
single one. By `Trip.split_le` the two gain at most as much and get at most as far, unless the
single one ended early; and a trade ends early only at its price limit, which the others share, or
at the edge of its arrays. -/
theorem Reachable.split_exactIn {pool pool' pool₁ pool₂ : Pool} (h : Reachable pool)
    {op op₁ op₂ : PoolOp} {args args₁ args₂ : Pool.SwapArgs} (htrade : op.trade = some args)
    (htrade₁ : op₁.trade = some args₁) (htrade₂ : op₂.trade = some args₂)
    (hsplit : args.Splits args₁ args₂) (hstep : pool.step op = .ok pool')
    (hstep₁ : pool.step op₁ = .ok pool₁) (hstep₂ : pool₁.step op₂ = .ok pool₂) :
    (pool.paidOut pool₁ args.aToB + pool₁.paidOut pool₂ args.aToB ≤ pool.paidOut pool' args.aToB ∧
        Toward args.aToB pool₂.whirlpool.sqrtPrice pool'.whirlpool.sqrtPrice) ∨
      (pool'.StoppedAtEdge args ∧
        ¬Toward args.aToB pool₂.whirlpool.sqrtPrice pool'.whirlpool.sqrtPrice) := by
  obtain ⟨s, rfl, hs⟩ := h.invariant
  obtain ⟨s₁, rfl, hs₁⟩ := (h.step hstep₁).invariant
  obtain ⟨_, _, _, _, _, -, -, -, htr⟩ := Pool.trade_traded hs.sound hs.backed htrade hstep
  obtain ⟨_, _, _, _, _, -, -, -, htr₁⟩ :=
    Pool.trade_traded hs.sound hs.backed htrade₁ hstep₁
  obtain ⟨_, _, _, _, _, -, -, -, htr₂⟩ :=
    Pool.trade_traded hs₁.sound hs₁.backed htrade₂ hstep₂
  obtain ⟨a0, a1, a2, amount, limit, input, aToB⟩ := args
  obtain ⟨b0, b1, b2, x, limit₁, input₁, aToB₁⟩ := args₁
  obtain ⟨c0, c1, c2, y, limit₂, input₂, aToB₂⟩ := args₂
  obtain ⟨hi, hi₁, hi₂, hd₁, hd₂, hl₁, hl₂, -, hy, hamount⟩ := hsplit
  dsimp only at hi hi₁ hi₂ hd₁ hd₂ hl₁ hl₂ hy hamount
  subst hi hi₁ hi₂ hd₁ hd₂ hl₁ hl₂
  -- the three trades on the road of the pool
  have hs' := (htr.sound hs.sound).price
  have hs₂ := (htr₂.sound hs₁.sound).price
  obtain ⟨htrip, -, hends⟩ := htr.trip (u := ⟨_, hs.sound.price.pos⟩) (v := ⟨_, hs'.pos⟩) hs.sound
    hs.backed rfl rfl rfl
  obtain ⟨htrip₁, -, -⟩ := htr₁.trip (u := ⟨_, hs.sound.price.pos⟩) (v := ⟨_, hs₁.sound.price.pos⟩)
    hs.sound hs.backed rfl rfl rfl
  obtain ⟨htrip₂, hlimit, -⟩ := htr₂.trip (u := ⟨_, hs₁.sound.price.pos⟩) (v := ⟨_, hs₂.pos⟩)
    hs₁.sound hs₁.backed rfl rfl rfl
  rw [tradeRoad_congr hs.sound.feeRate_lt hs₁.sound.feeRate_lt htr₁.ranges
    htr₁.record.2.2.2.2.1] at htrip₂
  rw [hamount] at htrip hends
  obtain ⟨hgain, hfar⟩ := htrip₁.split_le htrip₂ hy htrip
  simp only [TradePrice.le_iff] at hgain hfar
  by_cases htow : Toward aToB₂ pool₂.whirlpool.sqrtPrice pool'.whirlpool.sqrtPrice
  · exact Or.inl ⟨hgain htow, htow⟩
  · rcases hends with hfurthest | hend | hedge
    · exact absurd (hfar hfurthest) htow
    · have hprice : pool'.whirlpool.sqrtPrice = limit₂.toNat := hend
      rw [hprice] at htow
      exact absurd hlimit htow
    · exact Or.inr ⟨hedge, htow⟩

/-- The halves of the sample swap. The second one starts in the second array. -/
def sampleHalf : PoolOp :=
  .swap ⟨0, -5632, -5632, 50000, 4295048016, true, true⟩ 0 5 sampleFunds

def sampleOtherHalf : PoolOp :=
  .swap ⟨-5632, -5632, -5632, 50000, 4295048016, true, true⟩ 0 5 sampleFunds

/-- The halves pay out 99689 units of token B. -/
theorem Reachable.split_exactIn_sample :
    samplePool.paidOut (samplePool.next sampleSwap) true = 99690 ∧
      samplePool.paidOut (samplePool.next sampleHalf) true +
          (samplePool.next sampleHalf).paidOut ((samplePool.next sampleHalf).next sampleOtherHalf) true ≤
        samplePool.paidOut (samplePool.next sampleSwap) true := by
  have hstep : samplePool.step sampleSwap = .ok (samplePool.next sampleSwap) :=
    Pool.step_eq_next (by decide +kernel)
  have hstep₁ : samplePool.step sampleHalf = .ok (samplePool.next sampleHalf) :=
    Pool.step_eq_next (by decide +kernel)
  have hstep₂ : (samplePool.next sampleHalf).step sampleOtherHalf =
      .ok ((samplePool.next sampleHalf).next sampleOtherHalf) :=
    Pool.step_eq_next (by decide +kernel)
  refine ⟨by decide +kernel, ?_⟩
  rcases samplePool_reachable.split_exactIn (show sampleSwap.trade = some _ from rfl)
    (show sampleHalf.trade = some _ from rfl) (show sampleOtherHalf.trade = some _ from rfl)
    ⟨rfl, rfl, rfl, rfl, rfl, rfl, rfl, by decide, by decide, by decide⟩ hstep hstep₁ hstep₂
    with h | h
  · exact h.1
  · have htow : Toward true ((samplePool.next sampleHalf).next sampleOtherHalf).whirlpool.sqrtPrice
        (samplePool.next sampleSwap).whirlpool.sqrtPrice := toward_true.2 (by decide +kernel)
    exact absurd htow h.2

/-! ## At the edge of the last tick array -/

/-- The sample pool after a swap that moves the price a little above that of tick `0`, where its
second tick array starts. No position ends there. -/
def edgePool : Pool :=
  samplePool.next (.swap ⟨0, 0, 0, 1002, 79226673515401279992447579055, true, false⟩ 0 5 sampleFunds)

/-- A swap of 1002 units of token A in one tick array, which ends at its edge. -/
def edgeSwap : PoolOp := .swap ⟨0, 0, 0, 1002, 4295048016, true, true⟩ 0 6 sampleFunds

/-- The same in two parts, of 1000 and 2 units, with one more tick array. -/
def edgeFirst : PoolOp := .swap ⟨0, -5632, -5632, 1000, 4295048016, true, true⟩ 0 6 sampleFunds

def edgeSecond : PoolOp := .swap ⟨0, -5632, -5632, 2, 4295048016, true, true⟩ 0 6 sampleFunds

/-- **Splitting a trade pays at the edge of the last tick array**: the swap in two parts pays out
998 units of token B where the single one pays out 997, and moves the price beyond the edge. -/
theorem edgePool_split : Reachable edgePool ∧
    edgePool.step edgeSwap = .ok (edgePool.next edgeSwap) ∧
    edgePool.step edgeFirst = .ok (edgePool.next edgeFirst) ∧
    (edgePool.next edgeFirst).step edgeSecond = .ok ((edgePool.next edgeFirst).next edgeSecond) ∧
    (∃ args args₁ args₂, edgeSwap.trade = some args ∧ edgeFirst.trade = some args₁ ∧
      edgeSecond.trade = some args₂ ∧ args.Splits args₁ args₂) ∧
    edgePool.paidOut (edgePool.next edgeSwap) true = 997 ∧
    edgePool.paidOut (edgePool.next edgeFirst) true +
      (edgePool.next edgeFirst).paidOut ((edgePool.next edgeFirst).next edgeSecond) true = 998 ∧
    ((edgePool.next edgeFirst).next edgeSecond).whirlpool.sqrtPrice <
      (edgePool.next edgeSwap).whirlpool.sqrtPrice := by
  refine ⟨samplePool_reachable.step (Pool.step_eq_next (by decide +kernel)),
    Pool.step_eq_next (by decide +kernel), Pool.step_eq_next (by decide +kernel),
    Pool.step_eq_next (by decide +kernel), ⟨_, _, _, rfl, rfl, rfl, rfl, rfl, rfl, rfl, rfl, rfl,
      rfl, by decide, by decide, by decide⟩, by decide +kernel, by decide +kernel,
    by decide +kernel⟩

end NemoSwap
