import NemoSwap.Program.TwoHop
import NemoSwap.Sdk.SwapQuote

set_option relaxedAutoImplicit false
set_option autoImplicit false

/-!
# `two-hop-swap-quote.ts`: the quote of a two-hop swap

The quotes of two swaps are combined into the arguments of one instruction. The second quote is
asked for the estimate of the first one, in the order in which the program computes the legs, and
the instruction does what both quotes say.

## Main definitions

* `NemoSwap.Sdk.twoHopSwapQuoteFromSwapQuotes` — the combined quote.
* `NemoSwap.Sdk.TwoHopSwapQuote.Carried` — the arguments of an instruction are those of a quote.

## Main results

* `NemoSwap.Sdk.twoHopQuote_executes` — the instruction with the arguments of a combined quote does
  what the two quotes say.
-/

namespace NemoSwap

namespace Sdk

/-- `TwoHopSwapQuote`: the estimates of both swaps, and the arguments of the instruction. -/
structure TwoHopSwapQuote (Address : Type) where
  swapOneEstimates : SwapQuote Address
  swapTwoEstimates : SwapQuote Address
  amount : BN
  otherAmountThreshold : BN
  amountSpecifiedIsInput : Bool
  aToBOne : Bool
  aToBTwo : Bool
  sqrtPriceLimitOne : BN
  sqrtPriceLimitTwo : BN
  tickArrayOne0 : Option Address
  tickArrayOne1 : Option Address
  tickArrayOne2 : Option Address
  tickArrayTwo0 : Option Address
  tickArrayTwo1 : Option Address
  tickArrayTwo2 : Option Address

/-- `twoHopSwapQuoteFromSwapQuotes`. -/
def twoHopSwapQuoteFromSwapQuotes {Address : Type} (swapQuoteOne swapQuoteTwo : SwapQuote Address) :
    TwoHopSwapQuote Address :=
  let amountSpecifiedIsInput := swapQuoteOne.amountSpecifiedIsInput
  let (amount, otherAmountThreshold) :=
    if amountSpecifiedIsInput then (swapQuoteOne.amount, swapQuoteTwo.otherAmountThreshold)
    else (swapQuoteTwo.amount, swapQuoteOne.otherAmountThreshold)
  { amount, otherAmountThreshold, amountSpecifiedIsInput
    aToBOne := swapQuoteOne.aToB
    aToBTwo := swapQuoteTwo.aToB
    sqrtPriceLimitOne := swapQuoteOne.sqrtPriceLimit
    sqrtPriceLimitTwo := swapQuoteTwo.sqrtPriceLimit
    tickArrayOne0 := swapQuoteOne.tickArray0
    tickArrayOne1 := swapQuoteOne.tickArray1
    tickArrayOne2 := swapQuoteOne.tickArray2
    tickArrayTwo0 := swapQuoteTwo.tickArray0
    tickArrayTwo1 := swapQuoteTwo.tickArray1
    tickArrayTwo2 := swapQuoteTwo.tickArray2
    swapOneEstimates := swapQuoteOne
    swapTwoEstimates := swapQuoteTwo }

/-- The arguments of `two_hop_swap` are those of a quote. -/
structure TwoHopSwapQuote.Carried (quote : TwoHopSwapQuote ℤ) (args : TwoHopArgs) : Prop where
  amount : (args.amount.toNat : ℤ) = quote.amount
  otherAmountThreshold : (args.otherAmountThreshold.toNat : ℤ) = quote.otherAmountThreshold
  amountSpecifiedIsInput : args.amountSpecifiedIsInput = quote.amountSpecifiedIsInput
  aToBOne : args.aToBOne = quote.aToBOne
  aToBTwo : args.aToBTwo = quote.aToBTwo
  sqrtPriceLimitOne : (args.sqrtPriceLimitOne.toNat : ℤ) = quote.sqrtPriceLimitOne
  sqrtPriceLimitTwo : (args.sqrtPriceLimitTwo.toNat : ℤ) = quote.sqrtPriceLimitTwo
  tickArrayOne0 : quote.tickArrayOne0 = some args.arrayOne0
  tickArrayOne1 : quote.tickArrayOne1 = some args.arrayOne1
  tickArrayOne2 : quote.tickArrayOne2 = some args.arrayOne2
  tickArrayTwo0 : quote.tickArrayTwo0 = some args.arrayTwo0
  tickArrayTwo1 : quote.tickArrayTwo1 = some args.arrayTwo1
  tickArrayTwo2 : quote.tickArrayTwo2 = some args.arrayTwo2

/-- No step of the legs of a two-hop swap has a rounding gap. -/
def TwoHopRoundsAlike (one two : Pool) (args : TwoHopArgs) : Prop :=
  ∀ timestamp updateOne updateTwo sequenceOne sequenceTwo,
    computeTwoHop one two args timestamp =
      .ok ((updateOne, sequenceOne), updateTwo, sequenceTwo) →
    TradeRoundsAlike one (args.legOne (args.amountOne updateTwo)) ∧
      TradeRoundsAlike two (args.legTwo (args.amountTwo updateOne))

/-! ## Thresholds -/

/-- A two-hop swap checks the output of the second leg, or the input of the first one. -/
lemma checkTwoHopThreshold_iff {args : TwoHopArgs} {updateOne updateTwo : PostSwapUpdate} :
    checkTwoHopThreshold args updateOne updateTwo = .ok () ↔
      if args.amountSpecifiedIsInput then
        args.otherAmountThreshold.toNat ≤ updateTwo.amountOut args.aToBTwo
      else updateOne.amountIn args.aToBOne ≤ args.otherAmountThreshold.toNat := by
  unfold checkTwoHopThreshold PostSwapUpdate.amountIn PostSwapUpdate.amountOut
  cases args.amountSpecifiedIsInput <;> simp

/-! ## Two-hop swaps from their legs -/

section Legs

variable {one two one' two' : Pool} {args : TwoHopArgs} {timestamp : ℕ}
  {updateOne updateTwo : PostSwapUpdate} {sequenceOne sequenceTwo : SwapTickSequence}

/-- The two calls of `swap` in the order of the program.

**Proof sketch.** By the mode: the leg of the specified amount is computed first, and its result is
the amount of the other. -/
lemma computeTwoHop_of_legs
    (h : TwoHop one two args timestamp updateOne updateTwo sequenceOne sequenceTwo one' two') :
    computeTwoHop one two args timestamp =
      .ok ((updateOne, sequenceOne), updateTwo, sequenceTwo) := by
  have h1 := h.legOne
  have h2 := h.legTwo
  unfold TwoHopArgs.amountOne at h1
  unfold TwoHopArgs.amountTwo at h2
  unfold computeTwoHop
  by_cases hin : args.amountSpecifiedIsInput = true
  · rw [if_pos hin] at h1 h2 ⊢
    rw [h1, Res.ok_bind]
    change (two.computeSwapUpdate (args.legTwo (UInt64.ofNat (updateOne.amountOut args.aToBOne)))
      timestamp >>= _) = _
    rw [h2]
    rfl
  · rw [if_neg hin] at h1 h2 ⊢
    rw [h2, Res.ok_bind]
    change (one.computeSwapUpdate (args.legOne (UInt64.ofNat (updateTwo.amountIn args.aToBTwo)))
      timestamp >>= _) = _
    rw [h1]
    rfl

/-- A two-hop swap succeeds if its legs and its payments do. -/
lemma twoHopSwap_of_legs
    (h : TwoHop one two args timestamp updateOne updateTwo sequenceOne sequenceTwo one' two') :
    twoHopSwap one two args = .ok (one', two') := by
  unfold twoHopSwap
  rw [h.clock, Res.ok_bind, if_neg (not_not.2 h.mints), computeTwoHop_of_legs h, Res.ok_bind]
  simp only
  rw [h.threshold, Res.ok_bind, h.payOne, Res.ok_bind, h.payTwo]
  rfl

end Legs

/-! ## Combined quotes -/

section Combined

variable {one two one' two' : Pool} {args : TwoHopArgs} {timestamp : ℕ}
  {updateOne updateTwo : PostSwapUpdate} {sequenceOne sequenceTwo : SwapTickSequence}
  {quoteOne quoteTwo : SwapQuote ℤ}

/-- The amount and the threshold of a combined quote come from the ends of the trade. -/
lemma twoHopSwapQuote_amounts {Address : Type} (swapQuoteOne swapQuoteTwo : SwapQuote Address) :
    (twoHopSwapQuoteFromSwapQuotes swapQuoteOne swapQuoteTwo).amount =
        (if swapQuoteOne.amountSpecifiedIsInput then swapQuoteOne.amount
          else swapQuoteTwo.amount) ∧
      (twoHopSwapQuoteFromSwapQuotes swapQuoteOne swapQuoteTwo).otherAmountThreshold =
        if swapQuoteOne.amountSpecifiedIsInput then swapQuoteTwo.otherAmountThreshold
        else swapQuoteOne.otherAmountThreshold := by
  unfold twoHopSwapQuoteFromSwapQuotes
  cases swapQuoteOne.amountSpecifiedIsInput with
  | true => exact ⟨rfl, rfl⟩
  | false => exact ⟨rfl, rfl⟩

/-- A two-hop swap whose legs are quoted succeeds with the arguments of the combined quote.

**Proof sketch.** The arrays of the quotes are those that the swaps read, so the two legs are
computed as before. The combined threshold is that of the leg that is not specified, which accepts
its update. -/
lemma twoHopSwap_of_quoted
    (h : TwoHop one two args timestamp updateOne updateTwo sequenceOne sequenceTwo one' two')
    (hone : Quoted one (args.legOne (args.amountOne updateTwo)) timestamp updateOne sequenceOne
      quoteOne)
    (htwo : Quoted two (args.legTwo (args.amountTwo updateOne)) timestamp updateTwo sequenceTwo
      quoteTwo) {t : UInt64} (ht : (t.toNat : ℤ) =
      (twoHopSwapQuoteFromSwapQuotes quoteOne quoteTwo).otherAmountThreshold) :
    ∃ args', (twoHopSwapQuoteFromSwapQuotes quoteOne quoteTwo).Carried args' ∧
      (args'.clock, args'.fundsOne, args'.fundsTwo) =
        (args.clock, args.fundsOne, args.fundsTwo) ∧
      twoHopSwap one two args' = .ok (one', two') := by
  obtain ⟨a0, a1, a2, storedOne, ha0, ha1, ha2, hsameOne, hstoredOne⟩ := hone.arrays
  obtain ⟨b0, b1, b2, storedTwo, hb0, hb1, hb2, hsameTwo, hstoredTwo⟩ := htwo.arrays
  obtain ⟨hamount, hthreshold⟩ := twoHopSwapQuote_amounts quoteOne quoteTwo
  have hinput : quoteOne.amountSpecifiedIsInput = args.amountSpecifiedIsInput := hone.input
  rw [hinput] at hamount hthreshold
  have hspecified : (args.amount.toNat : ℤ) =
      (twoHopSwapQuoteFromSwapQuotes quoteOne quoteTwo).amount := by
    have h1 : quoteOne.amount = ((args.amountOne updateTwo).toNat : ℤ) := hone.amount
    have h2 : quoteTwo.amount = ((args.amountTwo updateOne).toNat : ℤ) := htwo.amount
    unfold TwoHopArgs.amountOne at h1
    unfold TwoHopArgs.amountTwo at h2
    rw [hamount]
    split_ifs with hin
    · rw [h1, if_pos hin]
    · rw [h2, if_neg hin]
  have haccepted : if args.amountSpecifiedIsInput then t.toNat ≤ updateTwo.amountOut args.aToBTwo
      else updateOne.amountIn args.aToBOne ≤ t.toNat := by
    split_ifs with hin
    · rw [if_pos hin] at hthreshold
      have hle := checkThreshold_eq_ok.1 (htwo.accepted (ht.trans hthreshold))
      exact (if_pos hin).mp hle
    · rw [if_neg hin] at hthreshold
      have hle := checkThreshold_eq_ok.1 (hone.accepted (ht.trans hthreshold))
      exact (if_neg hin).mp hle
  refine ⟨{ args with
      otherAmountThreshold := t
      arrayOne0 := a0, arrayOne1 := a1, arrayOne2 := a2
      arrayTwo0 := b0, arrayTwo1 := b1, arrayTwo2 := b2 },
    ⟨hspecified, ht, hinput.symm, hone.direction.symm, htwo.direction.symm, hone.limit.symm,
      htwo.limit.symm, ha0, ha1, ha2, hb0, hb1, hb2⟩, rfl, ?_⟩
  have hlegs : TwoHop one two { args with
      otherAmountThreshold := t
      arrayOne0 := a0, arrayOne1 := a1, arrayOne2 := a2
      arrayTwo0 := b0, arrayTwo1 := b1, arrayTwo2 := b2 } timestamp updateOne updateTwo storedOne
      storedTwo one' two' :=
    { clock := h.clock, mints := h.mints, legOne := hsameOne, legTwo := hsameTwo
      threshold := checkTwoHopThreshold_iff.2 haccepted
      payOne := (updateAndSwapWhirlpool_congr hstoredOne _ _ _).trans h.payOne
      payTwo := (updateAndSwapWhirlpool_congr hstoredTwo _ _ _).trans h.payTwo }
  exact twoHopSwap_of_legs hlegs

/-- The threshold of a combined quote can be passed on iff it is a `u64`. -/
lemma combined_threshold_iff
    (hone : Quoted one (args.legOne (args.amountOne updateTwo)) timestamp updateOne sequenceOne
      quoteOne)
    (htwo : Quoted two (args.legTwo (args.amountTwo updateOne)) timestamp updateTwo sequenceTwo
      quoteTwo) (hltOne : updateOne.amountOut args.aToBOne < 2 ^ 64)
    (hltTwo : updateTwo.amountOut args.aToBTwo < 2 ^ 64) :
    (∃ t : UInt64, (t.toNat : ℤ) =
        (twoHopSwapQuoteFromSwapQuotes quoteOne quoteTwo).otherAmountThreshold) ↔
      args.amountSpecifiedIsInput = true ∨
        (twoHopSwapQuoteFromSwapQuotes quoteOne quoteTwo).otherAmountThreshold < 2 ^ 64 := by
  obtain ⟨-, hthreshold⟩ := twoHopSwapQuote_amounts quoteOne quoteTwo
  have hinput : quoteOne.amountSpecifiedIsInput = args.amountSpecifiedIsInput := hone.input
  rw [hinput] at hthreshold
  have hfitsOne := hone.threshold_iff hltOne
  have hfitsTwo := htwo.threshold_iff hltTwo
  rw [hthreshold]
  by_cases hin : args.amountSpecifiedIsInput = true
  · rw [if_pos hin]
    exact hfitsTwo
  · rw [if_neg hin]
    exact hfitsOne

end Combined

/-- **A combined quote is what the instruction does.** Take a two-hop swap that succeeds on two
reachable pools with all the tick arrays that the SDK fetches, and neither of whose price limits is
the price at its start. The SDK quotes both legs, the one that the program computes second at the
estimate of the other, and the vaults move by the estimates. The instruction with the arguments of
the combined quote can be built exactly if its threshold is a `u64`, which it always is for a
specified input, and then it succeeds too and leaves both pools in the same state.

**Proof sketch.** The legs of the hop are inverted and quoted one by one with `quoted_of_update`,
each at the amount that the program computes it with. The amounts that were paid are the estimates,
and with a threshold that fits the instruction runs again by `twoHopSwap_of_quoted`. -/
theorem twoHopQuote_executes {M : MathUtil} (hM : M.Floors) {one two one' two' : Pool}
    (hone : Reachable one) (htwo : Reachable two) {args : TwoHopArgs}
    {slippageOne slippageTwo : Percentage} (hnumOne : 0 ≤ slippageOne.numerator)
    (hdenOne : 0 < slippageOne.denominator) (hnumTwo : 0 ≤ slippageTwo.numerator)
    (hdenTwo : 0 < slippageTwo.denominator)
    (hkeysOne : (TickArraySequence.initializedArrays (fetchTickArrays one args.aToBOne)).map
      InitializedTickArray.address = Pool.sequenceKeys args.arrayOne0 args.arrayOne1 args.arrayOne2)
    (hkeysTwo : (TickArraySequence.initializedArrays (fetchTickArrays two args.aToBTwo)).map
      InitializedTickArray.address = Pool.sequenceKeys args.arrayTwo0 args.arrayTwo1 args.arrayTwo2)
    (hmovesOne : one.whirlpool.sqrtPrice ≠ args.sqrtPriceLimitOne.toNat)
    (hmovesTwo : two.whirlpool.sqrtPrice ≠ args.sqrtPriceLimitTwo.toNat)
    (hround : TwoHopRoundsAlike one two args)
    (hswap : twoHopSwap one two args = .ok (one', two')) :
    ∃ (x y : UInt64) (quoteOne quoteTwo : SwapQuote ℤ),
      swapQuoteWithParams M (swapParam one (args.legOne x)
        (defaultThreshold args.amountSpecifiedIsInput)) slippageOne = .ok quoteOne ∧
      swapQuoteWithParams M (swapParam two (args.legTwo y)
        (defaultThreshold args.amountSpecifiedIsInput)) slippageTwo = .ok quoteTwo ∧
      (if args.amountSpecifiedIsInput then
        x = args.amount ∧ (y.toNat : ℤ) = quoteOne.estimatedAmountOut
      else y = args.amount ∧ (x.toNat : ℤ) = quoteTwo.estimatedAmountIn) ∧
      (one'.vault (tokenIn args.aToBOne) : ℤ) =
        one.vault (tokenIn args.aToBOne) + quoteOne.estimatedAmountIn ∧
      (one'.vault (tokenOut args.aToBOne) : ℤ) =
        one.vault (tokenOut args.aToBOne) - quoteOne.estimatedAmountOut ∧
      (two'.vault (tokenIn args.aToBTwo) : ℤ) =
        two.vault (tokenIn args.aToBTwo) + quoteTwo.estimatedAmountIn ∧
      (two'.vault (tokenOut args.aToBTwo) : ℤ) =
        two.vault (tokenOut args.aToBTwo) - quoteTwo.estimatedAmountOut ∧
      ((∃ args', (twoHopSwapQuoteFromSwapQuotes quoteOne quoteTwo).Carried args' ∧
          (args'.clock, args'.fundsOne, args'.fundsTwo) =
            (args.clock, args.fundsOne, args.fundsTwo) ∧
          twoHopSwap one two args' = .ok (one', two')) ↔
        args.amountSpecifiedIsInput = true ∨
          (twoHopSwapQuoteFromSwapQuotes quoteOne quoteTwo).otherAmountThreshold < 2 ^ 64) := by
  obtain ⟨timestamp, updateOne, updateTwo, sequenceOne, sequenceTwo, hhop⟩ :=
    twoHopSwap_eq_ok hswap
  obtain ⟨hroundOne, hroundTwo⟩ := hround _ _ _ _ _ (computeTwoHop_of_legs hhop)
  obtain ⟨s, rfl, hs⟩ := hone.invariant
  obtain ⟨s₂, rfl, hs₂⟩ := htwo.invariant
  -- each leg is quoted at the amount that the program computes it with
  have hlegOne : ∃ quote, swapQuoteWithParams M (swapParam s.pool
        (args.legOne (args.amountOne updateTwo)) (defaultThreshold args.amountSpecifiedIsInput))
        slippageOne = .ok quote ∧
      Quoted s.pool (args.legOne (args.amountOne updateTwo)) timestamp updateOne sequenceOne
        quote :=
    quoted_of_update hM hs.sound hs.backed hnumOne hdenOne hkeysOne hmovesOne hroundOne hhop.legOne
      (checkThreshold_default hone hhop.legOne)
  have hlegTwo : ∃ quote, swapQuoteWithParams M (swapParam s₂.pool
        (args.legTwo (args.amountTwo updateOne)) (defaultThreshold args.amountSpecifiedIsInput))
        slippageTwo = .ok quote ∧
      Quoted s₂.pool (args.legTwo (args.amountTwo updateOne)) timestamp updateTwo sequenceTwo
        quote :=
    quoted_of_update hM hs₂.sound hs₂.backed hnumTwo hdenTwo hkeysTwo hmovesTwo hroundTwo
      hhop.legTwo (checkThreshold_default htwo hhop.legTwo)
  obtain ⟨quoteOne, hquoteOne, hqOne⟩ := hlegOne
  obtain ⟨quoteTwo, hquoteTwo, hqTwo⟩ := hlegTwo
  obtain ⟨hinOne, houtOne⟩ := updateAndSwapWhirlpool_vault hhop.payOne
  obtain ⟨hinTwo, houtTwo⟩ := updateAndSwapWhirlpool_vault hhop.payTwo
  have hestOne : quoteOne.estimatedAmountIn = updateOne.amountIn args.aToBOne := hqOne.amountIn
  have hestOne' : quoteOne.estimatedAmountOut = updateOne.amountOut args.aToBOne := hqOne.amountOut
  have hestTwo : quoteTwo.estimatedAmountIn = updateTwo.amountIn args.aToBTwo := hqTwo.amountIn
  have hestTwo' : quoteTwo.estimatedAmountOut = updateTwo.amountOut args.aToBTwo := hqTwo.amountOut
  have hltOne : updateOne.amountOut args.aToBOne < 2 ^ 64 :=
    (hone.computeSwapUpdate_lt hhop.legOne).2
  obtain ⟨hltTwo, hltTwo'⟩ : updateTwo.amountIn args.aToBTwo < 2 ^ 64 ∧
      updateTwo.amountOut args.aToBTwo < 2 ^ 64 := htwo.computeSwapUpdate_lt hhop.legTwo
  refine ⟨args.amountOne updateTwo, args.amountTwo updateOne, quoteOne, quoteTwo, hquoteOne,
    hquoteTwo, ?_, ?_, ?_, ?_, ?_, ?_⟩
  · unfold TwoHopArgs.amountOne TwoHopArgs.amountTwo
    rw [hestOne', hestTwo]
    split_ifs with hin
    · exact ⟨rfl, by rw [UInt64.toNat_ofNat_of_lt' hltOne]⟩
    · exact ⟨rfl, by rw [UInt64.toNat_ofNat_of_lt' hltTwo]⟩
  · rw [hestOne, hinOne, Nat.cast_add]
  · rw [hestOne', ← houtOne, Nat.cast_add, add_sub_cancel_right]
  · rw [hestTwo, hinTwo, Nat.cast_add]
  · rw [hestTwo', ← houtTwo, Nat.cast_add, add_sub_cancel_right]
  · rw [← combined_threshold_iff hqOne hqTwo hltOne hltTwo']
    constructor
    · rintro ⟨args', hcarried, -⟩
      exact ⟨_, hcarried.otherAmountThreshold⟩
    · rintro ⟨t, ht⟩
      exact twoHopSwap_of_quoted hhop hqOne hqTwo ht

/-- The record of a second pool, of the tokens `2` and `3`. -/
def sampleRecordTwo : Whirlpool := { sampleRecord with tokenMintA := 2, tokenMintB := 3 }

/-- The record of the second sample pool is that of a new pool. -/
lemma sampleRecordTwo_initialized : Initialized sampleRecordTwo := by
  refine ⟨by decide, 1, 300, 5, 64, 2 ^ 64, 3000, 2, 3, ?_⟩
  decide +kernel

/-- The second pool, filled as the sample pool. -/
def samplePoolTwo : Pool := (Pool.new sampleRecordTwo).run sampleOps

/-- The second sample pool is reached from it by the sample instructions. -/
lemma samplePoolTwo_reachable : Reachable samplePoolTwo :=
  ⟨sampleRecordTwo, sampleOps, sampleRecordTwo_initialized, rfl⟩

/-- The sample hop is quoted at 99690 units of the intermediate token and 99380 units in the end,
and its combined quote can be passed on. -/
theorem twoHopQuote_executes_sample : ∃ quoteOne quoteTwo,
    swapQuoteWithParams .documented (swapParam samplePool (sampleHop.legOne 100000)
      (defaultThreshold true)) ⟨1, 100⟩ = .ok quoteOne ∧
    quoteOne.estimatedAmountOut = 99690 ∧
    swapQuoteWithParams .documented (swapParam samplePoolTwo (sampleHop.legTwo 99690)
      (defaultThreshold true)) ⟨1, 100⟩ = .ok quoteTwo ∧
    quoteTwo.estimatedAmountOut = 99380 ∧
    ∃ args' one' two', (twoHopSwapQuoteFromSwapQuotes quoteOne quoteTwo).Carried args' ∧
      twoHopSwap samplePool samplePoolTwo args' = .ok (one', two') := by
  have hvaults : (twoHopSwap samplePool samplePoolTwo sampleHop).map
      (fun r => (r.1.vaultB, r.2.vaultB)) = .ok (6279556, 6279866) := by
    decide +kernel
  obtain ⟨⟨one', two'⟩, hswap, hends⟩ := Res.map_eq_ok.1 hvaults
  rw [Prod.mk.injEq] at hends
  have hnum : 0 ≤ (Percentage.mk 1 100).numerator := show (0 : ℤ) ≤ 1 by decide
  have hden : 0 < (Percentage.mk 1 100).denominator := show (0 : ℤ) < 100 by decide
  obtain ⟨x, y, quoteOne, quoteTwo, hone, htwo, hamounts, -, hout, -, hout', hbuilt⟩ :=
    twoHopQuote_executes documented_floors samplePool_reachable samplePoolTwo_reachable hnum hden
      hnum hden (by decide +kernel) (by decide +kernel) (by decide +kernel) (by decide +kernel)
      (fun _ _ _ _ _ _ => ⟨tradeRoundsAlike_of_aToB samplePool rfl,
        tradeRoundsAlike_of_aToB samplePoolTwo rfl⟩) hswap
  obtain ⟨rfl, hy⟩ : x = 100000 ∧ (y.toNat : ℤ) = quoteOne.estimatedAmountOut := hamounts
  have hB : samplePool.vaultB = 6379246 := by decide +kernel
  have hB' : samplePoolTwo.vaultB = 6379246 := by decide +kernel
  change (one'.vaultB : ℤ) = samplePool.vaultB - _ at hout
  change (two'.vaultB : ℤ) = samplePoolTwo.vaultB - _ at hout'
  rw [hends.1, hB] at hout
  rw [hends.2, hB'] at hout'
  have hest : quoteOne.estimatedAmountOut = 99690 := by
    push_cast at hout
    linarith
  obtain rfl : y = 99690 := UInt64.toNat_inj.1 (by
    rw [hest] at hy
    exact_mod_cast hy)
  obtain ⟨args', hcarried, -, hok⟩ := hbuilt.2 (Or.inl rfl)
  refine ⟨quoteOne, quoteTwo, hone, hest, htwo, ?_, args', one', two', hcarried, hok⟩
  push_cast at hout'
  linarith

end Sdk

end NemoSwap
