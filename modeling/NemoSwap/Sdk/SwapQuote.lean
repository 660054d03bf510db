import NemoSwap.Manager.SwapCapacity
import NemoSwap.Pool.Market
import NemoSwap.Pool.SwapCost
import NemoSwap.Sdk.PositionUtil
import NemoSwap.Sdk.SwapManager

set_option relaxedAutoImplicit false
set_option autoImplicit false

/-!
# `swap-quote.ts`: the quote of a swap

The SDK fetches the tick arrays of a swap, computes the swap off chain, and returns the arguments
of the instruction: the arrays that the swap needs, and a threshold for the other amount.

## Main definitions

* `NemoSwap.Sdk.simulateSwap`, `NemoSwap.Sdk.swapQuoteWithParams` — the quote.
* `NemoSwap.Sdk.getTickArrays` — the arrays that the SDK fetches.
* `NemoSwap.Sdk.TradeRoundsAlike` — no step of a swap in a pool has a rounding gap.

## Main results

* `NemoSwap.Sdk.quoted_of_update` — a swap on the fetched arrays is quoted.
* `NemoSwap.Sdk.quoted_of_token` — and by its token, if it may go to the end of the price range.
* `NemoSwap.Sdk.swapQuote_executes` — the instruction with the arguments of a quote does what the
  quote says.

## Implementation notes

A tick array of a pool is found by its start index, which stands for its address: an account at
another address is not an array of the pool. A quote on no array has no addresses to return.
-/

namespace NemoSwap

namespace Sdk

/-- `SwapQuoteParam`. -/
structure SwapQuoteParam (Address : Type) where
  whirlpoolData : Whirlpool
  tokenAmount : BN
  otherAmountThreshold : BN
  sqrtPriceLimit : BN
  aToB : Bool
  amountSpecifiedIsInput : Bool
  tickArrays : List (TickArrayAccount Address)

/-- `SwapQuote`: the estimates, and the arguments of the instruction. -/
structure SwapQuote (Address : Type) where
  estimatedAmountIn : BN
  estimatedAmountOut : BN
  estimatedEndTickIndex : ℤ
  estimatedEndSqrtPrice : BN
  estimatedFeeAmount : BN
  amount : BN
  amountSpecifiedIsInput : Bool
  aToB : Bool
  otherAmountThreshold : BN
  sqrtPriceLimit : BN
  tickArray0 : Option Address
  tickArray1 : Option Address
  tickArray2 : Option Address

section Quotes

variable {Address : Type} (M : MathUtil)

/-- `remapAndAdjustTokens`. -/
def remapAndAdjustTokens (amountA amountB : BN) (aToB : Bool) : BN × BN :=
  if aToB then (amountA, amountB) else (amountB, amountA)

/-- The checks of `otherAmountThreshold` in `simulateSwap`. -/
def checkOtherAmountThreshold (otherAmountThreshold : BN) (amountSpecifiedIsInput aToB : Bool)
    (swapResults : SwapResult) : Quote Unit :=
  if amountSpecifiedIsInput then
    if (aToB = true ∧ otherAmountThreshold > swapResults.amountB) ∨
        (aToB = false ∧ otherAmountThreshold > swapResults.amountA) then
      .error (.swap .AmountOutBelowMinimum)
    else .ok ()
  else
    if (aToB = true ∧ otherAmountThreshold < swapResults.amountA) ∨
        (aToB = false ∧ otherAmountThreshold < swapResults.amountB) then
      .error (.swap .AmountInAboveMaximum)
    else .ok ()

/-- `simulateSwap`. -/
def simulateSwap (params : SwapQuoteParam Address) : Quote (SwapQuote Address) :=
  if params.sqrtPriceLimit > (maxSqrtPriceX64 : ℤ) ∨
      params.sqrtPriceLimit < (minSqrtPriceX64 : ℤ) then
    .error (.swap .SqrtPriceOutOfBounds)
  else if (params.aToB = true ∧ params.sqrtPriceLimit > (params.whirlpoolData.sqrtPrice : ℤ)) ∨
      (params.aToB = false ∧ params.sqrtPriceLimit < (params.whirlpoolData.sqrtPrice : ℤ)) then
    .error (.swap .InvalidSqrtPriceLimitDirection)
  else if params.tokenAmount = 0 then .error (.swap .ZeroTradableAmount)
  else do
    let tickSequence ← TickArraySequence.new params.tickArrays params.whirlpoolData.tickSpacing
      params.aToB
    let isValid ← tickSequence.isValidTickArray0 params.whirlpoolData.tickCurrentIndex
    if !isValid then .error (.swap .TickArraySequenceInvalid)
    else do
      let (swapResults, tickSequence) ← SwapManager.computeSwap M params.whirlpoolData tickSequence
        params.tokenAmount params.sqrtPriceLimit params.amountSpecifiedIsInput params.aToB
      checkOtherAmountThreshold params.otherAmountThreshold params.amountSpecifiedIsInput
        params.aToB swapResults
      let (estimatedAmountIn, estimatedAmountOut) :=
        remapAndAdjustTokens swapResults.amountA swapResults.amountB params.aToB
      let numOfTickCrossings := tickSequence.getNumOfTouchedArrays
      if numOfTickCrossings > maxSwapTickArrays then .error (.swap .TickArrayCrossingAboveMax)
      else
        let touchedArrays := tickSequence.getTouchedArrays maxSwapTickArrays
        return { estimatedAmountIn, estimatedAmountOut
                 estimatedEndTickIndex := swapResults.nextTickIndex
                 estimatedEndSqrtPrice := swapResults.nextSqrtPrice
                 estimatedFeeAmount := swapResults.totalFeeAmount
                 amount := params.tokenAmount
                 amountSpecifiedIsInput := params.amountSpecifiedIsInput
                 aToB := params.aToB
                 otherAmountThreshold := params.otherAmountThreshold
                 sqrtPriceLimit := params.sqrtPriceLimit
                 tickArray0 := touchedArrays[0]?
                 tickArray1 := touchedArrays[1]?
                 tickArray2 := touchedArrays[2]? }

/-- `SwapUtils.calculateSwapAmountsFromQuote`. -/
def calculateSwapAmountsFromQuote (amount estAmountIn estAmountOut : BN)
    (slippageTolerance : Percentage) (amountSpecifiedIsInput : Bool) :
    Except SdkError (BN × BN) := do
  let otherAmountThreshold ← (if amountSpecifiedIsInput then
      adjustForSlippage estAmountOut slippageTolerance false
    else adjustForSlippage estAmountIn slippageTolerance true)
  return (amount, otherAmountThreshold)

/-- `swapQuoteWithParams`. -/
def swapQuoteWithParams (params : SwapQuoteParam Address) (slippageTolerance : Percentage) :
    Quote (SwapQuote Address) := do
  let quote ← simulateSwap M params
  let (amount, otherAmountThreshold) ← Quote.lift (calculateSwapAmountsFromQuote quote.amount
    quote.estimatedAmountIn quote.estimatedAmountOut slippageTolerance
    quote.amountSpecifiedIsInput)
  return { quote with amount, otherAmountThreshold }

end Quotes

/-- `SwapUtils.getTickArrays`, for the accounts that `listTickArrays` finds. -/
def getTickArrays {Address : Type} (getTickArray : ℤ → Address)
    (listTickArrays : Address → Option TickArray) (tickCurrentIndex : ℤ) (tickSpacing : ℕ)
    (aToB : Bool) : List (TickArrayAccount Address) :=
  (getTickArrayPublicKeys getTickArray tickCurrentIndex tickSpacing aToB).map fun address =>
    ⟨address, listTickArrays address⟩

/-- `SwapUtils.getDefaultSqrtPriceLimit`. -/
def getDefaultSqrtPriceLimit (aToB : Bool) : BN :=
  if aToB then (minSqrtPriceX64 : ℤ) else (maxSqrtPriceX64 : ℤ)

/-- `SwapUtils.getDefaultOtherAmountThreshold`. -/
def getDefaultOtherAmountThreshold (amountSpecifiedIsInput : Bool) : BN :=
  if amountSpecifiedIsInput then 0 else u64Max

/-- The threshold that a single quote is computed with. -/
def defaultThreshold (amountSpecifiedIsInput : Bool) : UInt64 :=
  UInt64.ofNat (getDefaultOtherAmountThreshold amountSpecifiedIsInput).toNat

/-- `PoolUtil.getTokenType`. -/
def getTokenType (pool : Whirlpool) (mint : Pubkey) : Option Token :=
  if pool.tokenMintA = mint then some .A
  else if pool.tokenMintB = mint then some .B
  else none

/-- The mint of a token of a pool. -/
def mintOf (pool : Whirlpool) : Token → Pubkey
  | .A => pool.tokenMintA
  | .B => pool.tokenMintB

/-- `SwapUtils.getSwapDirection`: whether the swap is from A to B. -/
def getSwapDirection (pool : Whirlpool) (swapTokenMint : Pubkey) (swapTokenIsInput : Bool) :
    Option Bool :=
  (getTokenType pool swapTokenMint).map fun tokenType =>
    decide (decide (tokenType = .A) = swapTokenIsInput)

/-- The tick arrays of a pool that the SDK fetches for a swap. -/
def fetchTickArrays (pool : Pool) (aToB : Bool) : List (TickArrayAccount ℤ) :=
  getTickArrays id pool.tickArrays pool.whirlpool.tickCurrentIndex pool.whirlpool.tickSpacing aToB

/-- `swapQuoteByToken`. -/
def swapQuoteByToken (pool : Pool) (inputTokenMint : Pubkey) (tokenAmount : BN)
    (amountSpecifiedIsInput : Bool) : Except SdkError (SwapQuoteParam ℤ) :=
  match getSwapDirection pool.whirlpool inputTokenMint amountSpecifiedIsInput with
  | none => .error .other
  | some aToB =>
    return { whirlpoolData := pool.whirlpool, tokenAmount, aToB, amountSpecifiedIsInput
             sqrtPriceLimit := getDefaultSqrtPriceLimit aToB
             otherAmountThreshold := getDefaultOtherAmountThreshold amountSpecifiedIsInput
             tickArrays := fetchTickArrays pool aToB }

/-- `swapQuoteByInputToken`. -/
def swapQuoteByInputToken (M : MathUtil) (pool : Pool) (inputTokenMint : Pubkey)
    (tokenAmount : BN) (slippageTolerance : Percentage) : Quote (SwapQuote ℤ) := do
  let params ← Quote.lift (swapQuoteByToken pool inputTokenMint tokenAmount true)
  swapQuoteWithParams M params slippageTolerance

/-- `swapQuoteByOutputToken`. -/
def swapQuoteByOutputToken (M : MathUtil) (pool : Pool) (outputTokenMint : Pubkey)
    (tokenAmount : BN) (slippageTolerance : Percentage) : Quote (SwapQuote ℤ) := do
  let params ← Quote.lift (swapQuoteByToken pool outputTokenMint tokenAmount false)
  swapQuoteWithParams M params slippageTolerance

/-- The parameters of a quote with the limit and the threshold of a swap. -/
def swapParam (pool : Pool) (args : Pool.SwapArgs) (threshold : UInt64) : SwapQuoteParam ℤ :=
  { whirlpoolData := pool.whirlpool
    tokenAmount := (args.amount.toNat : ℤ)
    otherAmountThreshold := (threshold.toNat : ℤ)
    sqrtPriceLimit := (args.sqrtPriceLimit.toNat : ℤ)
    aToB := args.aToB
    amountSpecifiedIsInput := args.amountSpecifiedIsInput
    tickArrays := fetchTickArrays pool args.aToB }

/-- Every step of a swap in a pool is rounded by the SDK as by the program. -/
def TradeRoundsAlike (pool : Pool) (args : Pool.SwapArgs) : Prop :=
  ∀ timestamp infos sequence, nextWhirlpoolRewardInfos pool.whirlpool timestamp = .ok infos →
    pool.loadSequence args.array0 args.array1 args.array2 = .ok sequence →
    StepsRoundAlike pool.whirlpool infos args.sqrtPriceLimit.toNat args.amountSpecifiedIsInput
      args.aToB (initialSwapState pool.whirlpool sequence args.amount.toNat args.aToB)

/-- From A to B nothing is rounded apart. -/
lemma tradeRoundsAlike_of_aToB (pool : Pool) {args : Pool.SwapArgs} (h : args.aToB = true) :
    TradeRoundsAlike pool args := by
  intro timestamp infos sequence _ _
  rw [h]
  exact stepsRoundAlike_true

/-! ## The accounts of the instruction -/

/-- Up to three arrays, the last one repeated, are the accounts of a swap with these arrays.

**Proof sketch.** By the number of arrays, which is one, two or three; the addresses are
different. -/
lemma getTouchedArrays_keys {quote : TickArraySequence ℤ} {keys : List ℤ}
    (hkeys : quote.touchedAddresses = keys) (hnd : keys.Nodup) (hne : keys ≠ [])
    (hle : keys.length ≤ maxSwapTickArrays) :
    ∃ a b c, (quote.getTouchedArrays maxSwapTickArrays)[0]? = some a ∧
      (quote.getTouchedArrays maxSwapTickArrays)[1]? = some b ∧
      (quote.getTouchedArrays maxSwapTickArrays)[2]? = some c ∧
      Pool.sequenceKeys a b c = keys := by
  unfold TickArraySequence.getTouchedArrays
  rw [hkeys]
  unfold maxSwapTickArrays at hle ⊢
  match keys, hnd, hne, hle with
  | [a], _, _, _ => exact ⟨a, a, a, rfl, rfl, rfl, by simp [Pool.sequenceKeys]⟩
  | [a, b], hnd, _, _ =>
    have hab : b ≠ a := by
      rintro rfl
      simp at hnd
    exact ⟨a, b, b, rfl, rfl, rfl, by simp [Pool.sequenceKeys, hab]⟩
  | [a, b, c], hnd, _, _ =>
    simp only [List.nodup_cons, List.mem_cons, List.not_mem_nil, or_false, not_or] at hnd
    obtain ⟨⟨hab, hac⟩, hbc, -⟩ := hnd
    exact ⟨a, b, c, rfl, rfl, rfl, by simp [Pool.sequenceKeys, Ne.symm hab, Ne.symm hac,
      Ne.symm hbc]⟩
  | _ :: _ :: _ :: _ :: _, _, _, hle =>
    simp only [List.length_cons] at hle
    omega

section Accounts

variable {pool pool' : Pool} {earned : Earnings}

/-- Loading the first arrays only.

**Proof sketch.** Induction on the addresses, with a case for the number of arrays that are asked
for. -/
lemma mapM_getTickArray_take : ∀ {keys : List ℤ} {sequence : SwapTickSequence} (m : ℕ),
    keys.mapM pool.getTickArray = .ok sequence →
      (keys.take m).mapM pool.getTickArray = .ok (sequence.take m) := by
  intro keys
  induction keys with
  | nil =>
    intro sequence m h
    rw [List.mapM_nil, Res.pure_eq_ok, Except.ok.injEq] at h
    subst h
    rw [List.take_nil, List.take_nil]
    rfl
  | cons key keys ih =>
    intro sequence m h
    cases m with
    | zero => rfl
    | succ m =>
      rw [List.mapM_cons, Res.bind_eq_ok] at h
      obtain ⟨array, ha, h⟩ := h
      rw [Res.bind_eq_ok] at h
      obtain ⟨rest, hrest, h⟩ := h
      rw [Res.pure_eq_ok, Except.ok.injEq] at h
      subst h
      rw [List.take_succ_cons, List.take_succ_cons, List.mapM_cons, ha, Res.ok_bind,
        ih m hrest]
      rfl

/-- The accounts of a swap can be loaded if its arrays can.

**Proof sketch.** Each of the three accounts is one of the different keys, and these can be
loaded. -/
lemma loadSequence_of_mapM {a b c : ℤ} {sequence : SwapTickSequence}
    (hwp : TickMap.WellPlaced pool.tickArrays pool.whirlpool.tickSpacing)
    (h : (Pool.sequenceKeys a b c).mapM pool.getTickArray = .ok sequence) :
    pool.loadSequence a b c = .ok sequence := by
  obtain ⟨hstarts, hload⟩ := Pool.mapM_getTickArray_eq_ok hwp h
  have hget : ∀ x ∈ Pool.sequenceKeys a b c, ∃ array, pool.getTickArray x = .ok array := by
    intro x hx
    rw [← hstarts, List.mem_map] at hx
    obtain ⟨array, hmem, rfl⟩ := hx
    exact ⟨array, by rw [Pool.getTickArray, hload array hmem]⟩
  have hmem : a ∈ Pool.sequenceKeys a b c ∧ b ∈ Pool.sequenceKeys a b c ∧
      c ∈ Pool.sequenceKeys a b c := by
    unfold Pool.sequenceKeys
    refine ⟨by simp, ?_, ?_⟩
    · by_cases hb : b = a <;> simp [hb]
    · by_cases hc : c = a ∨ c = b
      · rcases hc with rfl | rfl
        · simp
        · by_cases hb : c = a <;> simp [hb]
      · simp [hc]
  obtain ⟨x, hx⟩ := hget a hmem.1
  obtain ⟨y, hy⟩ := hget b hmem.2.1
  obtain ⟨z, hz⟩ := hget c hmem.2.2
  unfold Pool.loadSequence
  rw [hx, Res.ok_bind, hy, Res.ok_bind, hz, Res.ok_bind, h]

/-- Arrays that a swap has not written to need not be stored.

**Proof sketch.** The arrays behind the first ones are those of the pool, so storing them again
changes nothing. -/
lemma storeSequence_take {sequence sequence' : SwapTickSequence} {m : ℕ}
    (hnd : (sequence'.map TickArray.startTickIndex).Nodup)
    (hload : ∀ array ∈ sequence, pool.tickArrays array.startTickIndex = some array)
    (hdrop : sequence'.drop m = sequence.drop m) :
    pool.storeSequence (sequence'.take m) = pool.storeSequence sequence' := by
  rw [Pool.storeSequence_eq, Pool.storeSequence_eq]
  congr 1
  conv_rhs => rw [← List.take_append_drop m sequence']
  rw [← List.take_append_drop m sequence', List.map_append, List.nodup_append] at hnd
  obtain ⟨-, hrest, hdisjoint⟩ := hnd
  have hstore : TickMap.store pool.tickArrays (sequence'.take m ++ sequence'.drop m) =
      TickMap.store (TickMap.store pool.tickArrays (sequence'.take m)) (sequence'.drop m) := by
    unfold TickMap.store
    rw [List.foldl_append]
  rw [hstore]
  refine (TickMap.Loads.store_eq ⟨?_, hrest⟩).symm
  intro array hmem
  rw [TickMap.store_of_notMem]
  · exact hload array (List.mem_of_mem_drop (hdrop ▸ hmem))
  · intro hcon
    exact hdisjoint _ hcon _ (List.mem_map_of_mem hmem) rfl

/-- Arrays of a pool are determined by where they start. -/
lemma arrays_ext {sequence sequence' : SwapTickSequence}
    (h : ∀ array ∈ sequence, pool.tickArrays array.startTickIndex = some array)
    (h' : ∀ array ∈ sequence', pool.tickArrays array.startTickIndex = some array)
    (hstarts : sequence.map TickArray.startTickIndex = sequence'.map TickArray.startTickIndex) :
    sequence = sequence' := by
  have hmap : ∀ {l : SwapTickSequence},
      (∀ array ∈ l, pool.tickArrays array.startTickIndex = some array) →
        (l.map TickArray.startTickIndex).map pool.tickArrays = l.map some := by
    intro l hl
    rw [List.map_map]
    exact List.map_congr_left hl
  have heq := congrArg (List.map pool.tickArrays) hstarts
  rw [hmap h, hmap h'] at heq
  exact List.map_injective_iff.2 (Option.some_injective _) heq

/-- An array that the SDK has fetched is an array of the pool at its place in the row.

**Proof sketch.** What was fetched is a part of the row of arrays that the SDK asks for, and a well
placed pool has its arrays at their starts. -/
lemma fetched_getElem? (hs : pool.Sound earned) {aToB : Bool} {k : ℕ}
    {tickArray : InitializedTickArray ℤ}
    (h : (TickArraySequence.initializedArrays (fetchTickArrays pool aToB))[k]? =
      some tickArray) :
    tickArray.data.startTickIndex = tickArray.address ∧
      pool.tickArrays tickArray.data.startTickIndex = some tickArray.data ∧
      tickArray.data.startTickIndex = TickMap.arrayStart pool.whirlpool.tickSpacing
        (pool.whirlpool.tickCurrentIndex + if aToB then 0 else (pool.whirlpool.tickSpacing : ℤ)) +
          (if aToB then -(k : ℤ) else k) * (tickArraySize * pool.whirlpool.tickSpacing) ∧
      Tick.checkIsValidStartTick tickArray.data.startTickIndex pool.whirlpool.tickSpacing =
        .ok true := by
  obtain ⟨starts, hmap, hrow⟩ := tickArrayPublicKeysLoop_spec
    (t := pool.whirlpool.tickCurrentIndex + if aToB then 0 else (pool.whirlpool.tickSpacing : ℤ))
    id hs.spacing aToB maxSwapTickArrays 0
  rw [zero_mul, add_zero] at hrow
  rw [List.map_id] at hmap
  have hplace := TickArraySequence.initializedArrays_getElem? h
  unfold fetchTickArrays getTickArrays getTickArrayPublicKeys at hplace
  rw [hmap, List.getElem?_map, Option.map_eq_some_iff] at hplace
  obtain ⟨s, hk, he⟩ := hplace
  obtain ⟨haddress, hdata⟩ := TickArrayAccount.mk.inj he
  obtain ⟨hstart, hvalid⟩ := hrow.start k s hk
  obtain ⟨hself, -⟩ := hs.wellPlaced _ _ hdata
  rw [hself]
  exact ⟨haddress, hdata, hstart, hvalid⟩

/-- The arrays that the SDK has fetched are those of a swap with their addresses.

**Proof sketch.** The fetched arrays have the addresses and the data of those that the program
loads, in their order. They start at the neighbours of a well placed pool, so `new_covers` makes a
quote on them. -/
lemma fetched_covers (hs : pool.Sound earned) {args : Pool.SwapArgs}
    (hkeys : (TickArraySequence.initializedArrays (fetchTickArrays pool args.aToB)).map
      InitializedTickArray.address = Pool.sequenceKeys args.array0 args.array1 args.array2)
    {sequence : SwapTickSequence}
    (hload : pool.loadSequence args.array0 args.array1 args.array2 = .ok sequence) :
    ∃ quote : TickArraySequence ℤ, TickArraySequence.new (fetchTickArrays pool args.aToB)
        pool.whirlpool.tickSpacing args.aToB = .ok quote ∧ quote.touch 0 = quote ∧
      (quote.tickSpacing = pool.whirlpool.tickSpacing ∧ quote.aToB = args.aToB ∧
        quote.sequence = TickArraySequence.initializedArrays (fetchTickArrays pool args.aToB)) ∧
      quote.Covers sequence ∧
      quote.isValidTickArray0 pool.whirlpool.tickCurrentIndex = .ok true := by
  obtain ⟨fetched, hfetched⟩ : ∃ fetched, fetched =
    TickArraySequence.initializedArrays (fetchTickArrays pool args.aToB) := ⟨_, rfl⟩
  have hplace : ∀ (k : ℕ) (tickArray : InitializedTickArray ℤ), fetched[k]? = some tickArray →
      _ := fun k tickArray hk => fetched_getElem? hs (hfetched ▸ hk)
  have hmem : ∀ tickArray ∈ fetched, ∃ k : ℕ, fetched[k]? = some tickArray := fun _ h =>
    List.mem_iff_getElem?.1 h
  have hmapM : (Pool.sequenceKeys args.array0 args.array1 args.array2).mapM pool.getTickArray =
      .ok sequence := by
    unfold Pool.loadSequence at hload
    simp only [Res.bind_eq_ok] at hload
    obtain ⟨-, -, -, -, -, -, hload⟩ := hload
    exact hload
  obtain ⟨hstarts, harrays⟩ := Pool.mapM_getTickArray_eq_ok hs.wellPlaced hmapM
  -- the arrays of the swap are those that were fetched
  have hsequence : fetched.map InitializedTickArray.data = sequence := by
    refine arrays_ext ?_ harrays ?_
    · intro array harray
      obtain ⟨tickArray, ht, rfl⟩ := List.mem_map.1 harray
      obtain ⟨k, hk⟩ := hmem tickArray ht
      exact (hplace k tickArray hk).2.1
    · rw [hstarts, ← hkeys, ← hfetched, List.map_map]
      refine List.map_congr_left fun tickArray ht => ?_
      obtain ⟨k, hk⟩ := hmem tickArray ht
      exact (hplace k tickArray hk).1
  have hvalid : SwapTickSequence.Valid (fetched.map InitializedTickArray.data)
      pool.whirlpool.tickSpacing := by
    rw [hsequence]
    refine ⟨fun array harray => ?_, fun array harray i hinit => ?_⟩
    · obtain ⟨tickArray, ht, rfl⟩ := List.mem_map.1 (hsequence ▸ harray)
      obtain ⟨k, hk⟩ := hmem tickArray ht
      exact (hplace k tickArray hk).2.2.2
    · refine hs.usable ?_
      unfold Pool.ticks
      rw [TickMap.tick_eq_tickAt hs.wellPlaced hs.spacing (harrays array harray)
        ((TickArray.holds_iff hs.spacing).2 ⟨i, i.isLt, rfl⟩),
        TickArray.tickAt_eq_slot hs.spacing i.isLt rfl, TickArray.slot, dif_pos i.isLt]
      exact hinit
  have hne : fetched ≠ [] := by
    rintro rfl
    rw [← hfetched] at hkeys
    exact List.cons_ne_nil _ _ hkeys.symm
  rw [hfetched] at hne hvalid hsequence hplace
  obtain ⟨quote, hnew, htouch, ⟨hspacing, hdir, hseq⟩, hcovers⟩ :=
    TickArraySequence.new_covers hne (fun k tickArray hk => (hplace k tickArray hk).2.2.1) hvalid
  refine ⟨quote, hnew, htouch, ⟨hspacing, hdir, hseq⟩, hsequence ▸ hcovers, ?_⟩
  unfold TickArraySequence.isValidTickArray0 TickArraySequence.checkIfIndexIsInTickArrayRange
  rw [hseq, hspacing, hdir]
  cases hlist : TickArraySequence.initializedArrays (fetchTickArrays pool args.aToB) with
  | nil => exact absurd hlist hne
  | cons head rest =>
    rw [hlist] at hplace
    obtain ⟨-, -, hstart, -⟩ := hplace 0 head rfl
    obtain ⟨-, hle, hlt⟩ := arrayStart_spec hs.spacing (pool.whirlpool.tickCurrentIndex +
      if args.aToB then 0 else (pool.whirlpool.tickSpacing : ℤ))
    simp only [Quote.pure_eq_ok, Except.ok.injEq, Bool.and_eq_true, decide_eq_true_eq]
    simp only [CharP.cast_eq_zero, neg_zero, ite_self, zero_mul, add_zero] at hstart
    rw [hstart, mul_comm (pool.whirlpool.tickSpacing : ℤ)]
    exact ⟨hle, hlt⟩

/-- What ends at a tick that a swap to the left can reach is backed by the vault of token B.

**Proof sketch.** A tick that is not initialized has no liquidity. What ends at an initialized one
is bounded by the reserve of token B at its price, which is at most that at the price of the pool
and covered by the vault. -/
lemma net_ne_of_le (hs : pool.Sound earned) (hb : pool.Backed earned) {t : ℤ}
    (ht : t ≤ pool.whirlpool.tickCurrentIndex) : (pool.ticks t).liquidityNet ≠ -2 ^ 127 := by
  rw [hs.books.net t]
  cases hinit : (pool.ticks t).initialized with
  | false =>
    rw [pool.ranges.net_eq_zero (hs.books.gross_eq_zero hinit)]
    norm_num
  | true =>
    obtain ⟨hmin, hmax, -⟩ := hs.usable hinit
    have hcurrent := hs.price.tick_max
    unfold minTickIndex at hmin
    unfold maxTickIndex at hmax hcurrent
    have hprice : tickPrice t ≤ pool.whirlpool.sqrtPrice :=
      (tickPrice_le (by omega) ht (by omega)).trans hs.price.lower
    obtain ⟨-, -, hvault⟩ := hb.le_vault hs .B
    have hlt : (pool.vault .B : ℚ) < 2 ^ 64 := by exact_mod_cast hb.vault_lt .B
    have hends := endsAt_lt hs.onTicks
      ((reserve_B_mono hprice).trans_lt (hvault.trans_lt hlt))
    unfold Ranges.net
    omega

/-- The arrays that the SDK has fetched are arrays that it can quote on. -/
lemma fetched_quotable (hs : pool.Sound earned) (hb : pool.Backed earned)
    {quote : TickArraySequence ℤ} {aToB : Bool}
    (hspacing : quote.tickSpacing = pool.whirlpool.tickSpacing) (hdir : quote.aToB = aToB)
    (hseq : quote.sequence =
      TickArraySequence.initializedArrays (fetchTickArrays pool aToB)) :
    Quotable quote pool.whirlpool aToB := by
  refine ⟨hspacing, hdir, lt_of_le_of_lt hs.feeRate (by decide), ?_⟩
  intro _ tickArray hmem o hle
  rw [hseq] at hmem
  obtain ⟨k, hk⟩ := List.mem_iff_getElem?.1 hmem
  obtain ⟨-, hdata, -, -⟩ := fetched_getElem? hs hk
  have hnet := net_ne_of_le hs hb hle
  unfold Pool.ticks at hnet
  rw [TickMap.tick_eq_tickAt hs.wellPlaced hs.spacing hdata
    ((TickArray.holds_iff hs.spacing).2 ⟨o, o.isLt, rfl⟩),
    TickArray.tickAt_eq_slot hs.spacing o.isLt rfl, TickArray.slot, dif_pos o.isLt] at hnet
  exact hnet

end Accounts

/-! ## The threshold -/

section Threshold

variable {result : SwapResult} {update : PostSwapUpdate} {slippage : Percentage}

/-- A threshold that the program accepts, the SDK accepts.

**Proof sketch.** By the mode; both compare the amount that is not specified with the threshold. -/
lemma checkOtherAmountThreshold_of_checkThreshold {args : Pool.SwapArgs} {threshold : UInt64}
    (hagrees : Agrees result update) (h : Pool.checkThreshold args threshold update = .ok ()) :
    checkOtherAmountThreshold (threshold.toNat : ℤ) args.amountSpecifiedIsInput args.aToB result =
      .ok () := by
  unfold Pool.checkThreshold at h
  unfold checkOtherAmountThreshold
  rw [hagrees.amountA, hagrees.amountB]
  cases hin : args.amountSpecifiedIsInput with
  | true =>
    rw [hin, if_pos rfl, ite_err_eq_ok] at h
    rw [if_pos rfl, if_neg]
    rintro (⟨hd, hgt⟩ | ⟨hd, hgt⟩)
    · exact h.1 (Or.inl ⟨hd, by exact_mod_cast hgt⟩)
    · exact h.1 (Or.inr ⟨hd, by exact_mod_cast hgt⟩)
  | false =>
    rw [hin, if_neg Bool.false_ne_true, ite_err_eq_ok] at h
    rw [if_neg Bool.false_ne_true, if_neg]
    rintro (⟨hd, hgt⟩ | ⟨hd, hgt⟩)
    · exact h.1 (Or.inl ⟨hd, by exact_mod_cast hgt⟩)
    · exact h.1 (Or.inr ⟨hd, by exact_mod_cast hgt⟩)

end Threshold

/-! ## The instruction of a quote -/

/-- The quote that is returned with the result of the loop and the arrays that it has read. -/
def quoteOf {Address : Type} (params : SwapQuoteParam Address) (swapResults : SwapResult)
    (touchedArrays : List Address) (otherAmountThreshold : BN) : SwapQuote Address :=
  let (estimatedAmountIn, estimatedAmountOut) :=
    remapAndAdjustTokens swapResults.amountA swapResults.amountB params.aToB
  { estimatedAmountIn, estimatedAmountOut
    estimatedEndTickIndex := swapResults.nextTickIndex
    estimatedEndSqrtPrice := swapResults.nextSqrtPrice
    estimatedFeeAmount := swapResults.totalFeeAmount
    amount := params.tokenAmount
    amountSpecifiedIsInput := params.amountSpecifiedIsInput
    aToB := params.aToB
    otherAmountThreshold
    sqrtPriceLimit := params.sqrtPriceLimit
    tickArray0 := touchedArrays[0]?
    tickArray1 := touchedArrays[1]?
    tickArray2 := touchedArrays[2]? }

/-- A swap of the program has passed the checks that a quote makes first. -/
lemma swap_checks {w : Whirlpool} {sequence : SwapTickSequence} {amount limit timestamp : ℕ}
    {input aToB : Bool} {r : PostSwapUpdate × SwapTickSequence}
    (h : NemoSwap.swap w sequence amount limit input aToB timestamp = .ok r) :
    (minSqrtPriceX64 ≤ limit ∧ limit ≤ maxSqrtPriceX64) ∧
      (aToB = true → limit ≤ w.sqrtPrice) ∧ (aToB = false → w.sqrtPrice ≤ limit) ∧
        amount ≠ 0 := by
  unfold NemoSwap.swap at h
  rw [ite_err_eq_ok, ite_err_eq_ok, ite_err_eq_ok] at h
  obtain ⟨hlimit, hdir, hzero, -⟩ := h
  rw [not_or, not_lt, not_lt] at hlimit
  refine ⟨hlimit, fun hd => ?_, fun hd => ?_, hzero⟩
  · exact not_lt.1 fun hlt => hdir (Or.inl ⟨hd, hlt⟩)
  · exact not_lt.1 fun hlt => hdir (Or.inr ⟨hd, hlt⟩)

section Executes

variable {pool pool' : Pool} {earned : Earnings} {M : MathUtil}

/-- The quote of a swap, when its loop, its threshold and its arrays are accepted. -/
lemma simulateSwap_eq {args : Pool.SwapArgs} {threshold : UInt64}
    {quote touched : TickArraySequence ℤ} {result : SwapResult}
    (hlimit : minSqrtPriceX64 ≤ args.sqrtPriceLimit.toNat ∧
      args.sqrtPriceLimit.toNat ≤ maxSqrtPriceX64)
    (hleft : args.aToB = true → args.sqrtPriceLimit.toNat ≤ pool.whirlpool.sqrtPrice)
    (hright : args.aToB = false → pool.whirlpool.sqrtPrice ≤ args.sqrtPriceLimit.toNat)
    (hzero : args.amount.toNat ≠ 0)
    (hnew : TickArraySequence.new (fetchTickArrays pool args.aToB) pool.whirlpool.tickSpacing
      args.aToB = .ok quote)
    (hvalid : quote.isValidTickArray0 pool.whirlpool.tickCurrentIndex = .ok true)
    (hcompute : SwapManager.computeSwap M pool.whirlpool quote args.amount.toNat
      args.sqrtPriceLimit.toNat args.amountSpecifiedIsInput args.aToB = .ok (result, touched))
    (hthreshold : checkOtherAmountThreshold (threshold.toNat : ℤ) args.amountSpecifiedIsInput
      args.aToB result = .ok ())
    (htouched : touched.getNumOfTouchedArrays ≤ maxSwapTickArrays) :
    simulateSwap M (swapParam pool args threshold) = .ok (quoteOf (swapParam pool args threshold)
      result (touched.getTouchedArrays maxSwapTickArrays) (threshold.toNat : ℤ)) := by
  unfold simulateSwap swapParam
  simp only
  rw [if_neg, if_neg, if_neg (by exact_mod_cast hzero), hnew, Quote.ok_bind, hvalid, Quote.ok_bind,
    Bool.not_true, if_neg Bool.false_ne_true, hcompute, Quote.ok_bind]
  · simp only
    rw [hthreshold, Quote.ok_bind, if_neg (not_lt.2 htouched)]
    rfl
  · rintro (⟨hd, hgt⟩ | ⟨hd, hlt⟩)
    · exact absurd (hleft hd) (not_le.2 (by exact_mod_cast hgt))
    · exact absurd (hright hd) (not_le.2 (by exact_mod_cast hlt))
  · rintro (hgt | hlt)
    · exact absurd hlimit.2 (not_le.2 (by exact_mod_cast hgt))
    · exact absurd hlimit.1 (not_le.2 (by exact_mod_cast hlt))

/-- A swap checks what the trader receives, or what he pays. -/
lemma checkThreshold_eq_ok {args : Pool.SwapArgs} {t : UInt64} {update : PostSwapUpdate} :
    Pool.checkThreshold args t update = .ok () ↔
      if args.amountSpecifiedIsInput then t.toNat ≤ update.amountOut args.aToB
      else update.amountIn args.aToB ≤ t.toNat := by
  unfold Pool.checkThreshold PostSwapUpdate.amountIn PostSwapUpdate.amountOut
  cases args.amountSpecifiedIsInput <;> cases args.aToB <;> simp

/-- The estimates of a quote that agrees with a swap. -/
lemma remapAndAdjustTokens_agrees {result : SwapResult} {update : PostSwapUpdate}
    (h : Agrees result update) (aToB : Bool) :
    (remapAndAdjustTokens result.amountA result.amountB aToB).1 = update.amountIn aToB ∧
      (remapAndAdjustTokens result.amountA result.amountB aToB).2 = update.amountOut aToB := by
  unfold remapAndAdjustTokens PostSwapUpdate.amountIn PostSwapUpdate.amountOut
  rw [h.amountA, h.amountB]
  cases aToB with
  | true => exact ⟨rfl, rfl⟩
  | false => exact ⟨rfl, rfl⟩

/-- The threshold of a quote, adjusted for slippage, leaves room on the side of the trader: he
accepts to receive less than the estimate, or to pay more.

**Proof sketch.** By the mode: the output is adjusted down, and the input up. -/
lemma calculateSwapAmounts_eq (args : Pool.SwapArgs) {result : SwapResult}
    {update : PostSwapUpdate} {slippage : Percentage} (amount : BN)
    (hnum : 0 ≤ slippage.numerator) (hden : 0 < slippage.denominator)
    (hagrees : Agrees result update) :
    ∃ m : ℕ, calculateSwapAmountsFromQuote amount
        (remapAndAdjustTokens result.amountA result.amountB args.aToB).1
        (remapAndAdjustTokens result.amountA result.amountB args.aToB).2 slippage
        args.amountSpecifiedIsInput = .ok (amount, (m : ℤ)) ∧
      if args.amountSpecifiedIsInput then m ≤ update.amountOut args.aToB
      else update.amountIn args.aToB ≤ m := by
  obtain ⟨hin, hout⟩ := remapAndAdjustTokens_agrees hagrees args.aToB
  unfold calculateSwapAmountsFromQuote
  rw [hin, hout]
  cases args.amountSpecifiedIsInput with
  | true =>
    obtain ⟨m, hm, hle⟩ := adjustForSlippage_down hnum hden (update.amountOut args.aToB)
    refine ⟨m, ?_, hle⟩
    rw [if_pos rfl, hm]
    rfl
  | false =>
    obtain ⟨m, hm, hle⟩ := adjustForSlippage_up hnum hden (update.amountIn args.aToB)
    refine ⟨m, ?_, hle⟩
    rw [if_neg Bool.false_ne_true, hm]
    rfl

/-- The amounts and the price of a swap that has gone through.

**Proof sketch.** The transaction has moved the amounts of the update between the vaults. In each
direction one vault has gained the input and the other has lost the output. -/
lemma handler_amounts (hs : pool.Sound earned) (hb : pool.Backed earned) {args : Pool.SwapArgs}
    {threshold : UInt64} {clock : Int64} {funds : OwnerFunds} {timestamp : ℕ}
    {update : PostSwapUpdate} {sequence : SwapTickSequence}
    (ht : toTimestampU64 clock = .ok timestamp)
    (hc : pool.computeSwapUpdate args timestamp = .ok (update, sequence))
    (hswap : pool.swapHandler args threshold clock funds = .ok pool') :
    pool'.vault (tokenIn args.aToB) = pool.vault (tokenIn args.aToB) + update.amountIn args.aToB ∧
      pool'.vault (tokenOut args.aToB) + update.amountOut args.aToB =
        pool.vault (tokenOut args.aToB) ∧
      pool'.whirlpool.sqrtPrice = update.nextSqrtPrice := by
  obtain ⟨clock', timestamp', infos, t, sequence', hclock, ht', hc', htr⟩ :=
    Pool.trade_traded hs hb (show (PoolOp.swap args threshold clock funds).trade = some args from rfl)
      hswap
  obtain rfl := Option.some.inj hclock
  rw [ht, Except.ok.injEq] at ht'
  subst ht'
  rw [hc, Except.ok.injEq, Prod.mk.injEq] at hc'
  obtain ⟨rfl, rfl⟩ := hc'
  obtain ⟨hA, hB⟩ := Pool.postSwapUpdate_amounts args.amount.toNat args.amountSpecifiedIsInput
    args.aToB infos t.state
  obtain ⟨-, -, hprice, -⟩ := htr.record
  have hIn := htr.vault (tokenIn args.aToB)
  have hOut := htr.vault (tokenOut args.aToB)
  have hne : tokenOut args.aToB ≠ tokenIn args.aToB := by
    cases args.aToB <;> decide
  unfold Pool.received Pool.paid at hIn hOut
  simp only [if_true, if_neg hne, add_zero] at hIn hOut
  unfold PostSwapUpdate.amountIn PostSwapUpdate.amountOut
  rw [hA, hB]
  refine ⟨?_, ?_, hprice⟩
  · cases hd : args.aToB <;>
      · rw [hd] at hIn
        simp only [Bool.false_eq_true, if_false, if_true]
        exact hIn
  · cases hd : args.aToB <;>
      · rw [hd] at hOut
        simp only [Bool.false_eq_true, if_false, if_true]
        exact hOut

/-- A quote of a swap, as far as its computation in the pool goes: the estimates are its results,
and with the arrays of the quote it has the same results and stores the same ticks. -/
structure Quoted (pool : Pool) (args : Pool.SwapArgs) (timestamp : ℕ) (update : PostSwapUpdate)
    (sequence : SwapTickSequence) (quote : SwapQuote ℤ) : Prop where
  amountIn : quote.estimatedAmountIn = update.amountIn args.aToB
  amountOut : quote.estimatedAmountOut = update.amountOut args.aToB
  price : quote.estimatedEndSqrtPrice = update.nextSqrtPrice
  amount : quote.amount = (args.amount.toNat : ℤ)
  input : quote.amountSpecifiedIsInput = args.amountSpecifiedIsInput
  direction : quote.aToB = args.aToB
  limit : quote.sqrtPriceLimit = (args.sqrtPriceLimit.toNat : ℤ)
  threshold : ∃ m : ℕ, quote.otherAmountThreshold = m ∧
    if args.amountSpecifiedIsInput then m ≤ update.amountOut args.aToB
    else update.amountIn args.aToB ≤ m
  arrays : ∃ a b c stored, quote.tickArray0 = some a ∧ quote.tickArray1 = some b ∧
    quote.tickArray2 = some c ∧
    pool.computeSwapUpdate { args with array0 := a, array1 := b, array2 := c } timestamp =
      .ok (update, stored) ∧
    pool.storeSequence stored = pool.storeSequence sequence

/-- **The threshold of a quote is accepted wherever it can be passed on.** -/
theorem Quoted.accepted {args : Pool.SwapArgs} {timestamp : ℕ} {update : PostSwapUpdate}
    {sequence : SwapTickSequence} {quote : SwapQuote ℤ}
    (h : Quoted pool args timestamp update sequence quote) {t : UInt64}
    (ht : (t.toNat : ℤ) = quote.otherAmountThreshold) :
    Pool.checkThreshold args t update = .ok () := by
  obtain ⟨m, hm, haccepted⟩ := h.threshold
  obtain rfl : t.toNat = m := by exact_mod_cast ht.trans hm
  exact checkThreshold_eq_ok.2 haccepted

/-- **A threshold can be passed on iff it is a `u64`**: in a swap with a specified input it always
is, since what the pool pays out is one.

**Proof sketch.** The threshold is not negative. With a specified input it is at most the output,
which is a `u64`. -/
theorem Quoted.threshold_iff {args : Pool.SwapArgs} {timestamp : ℕ} {update : PostSwapUpdate}
    {sequence : SwapTickSequence} {quote : SwapQuote ℤ}
    (h : Quoted pool args timestamp update sequence quote)
    (hout : update.amountOut args.aToB < 2 ^ 64) :
    (∃ t : UInt64, (t.toNat : ℤ) = quote.otherAmountThreshold) ↔
      args.amountSpecifiedIsInput = true ∨ quote.otherAmountThreshold < 2 ^ 64 := by
  obtain ⟨m, hm, haccepted⟩ := h.threshold
  rw [hm]
  constructor
  · rintro ⟨t, ht⟩
    right
    rw [← ht]
    exact_mod_cast t.toNat_lt
  · intro hfits
    have hlt : m < 2 ^ 64 := by
      rcases hfits with hin | hlt
      · rw [if_pos hin] at haccepted
        exact haccepted.trans_lt hout
      · exact_mod_cast hlt
    exact ⟨UInt64.ofNat m, by rw [UInt64.toNat_ofNat_of_lt' hlt]⟩

/-- **A swap on the fetched arrays is quoted.**

**Proof sketch.** The swap is computed on the arrays that the SDK has fetched (`fetched_covers`), so
it is simulated by `computeSwap_of_swap_take`. The checks of the SDK are those of the program, the
accounts of the quote are the arrays that were read, and its amounts those of the update. -/
theorem quoted_of_update {M : MathUtil} (hM : M.Floors) (hs : pool.Sound earned)
    (hb : pool.Backed earned) {args : Pool.SwapArgs} {threshold : UInt64} {slippage : Percentage}
    {timestamp : ℕ} {update : PostSwapUpdate} {sequence : SwapTickSequence}
    (hnum : 0 ≤ slippage.numerator) (hden : 0 < slippage.denominator)
    (hkeys : (TickArraySequence.initializedArrays (fetchTickArrays pool args.aToB)).map
      InitializedTickArray.address = Pool.sequenceKeys args.array0 args.array1 args.array2)
    (hmoves : pool.whirlpool.sqrtPrice ≠ args.sqrtPriceLimit.toNat)
    (hround : TradeRoundsAlike pool args)
    (hc : pool.computeSwapUpdate args timestamp = .ok (update, sequence))
    (hthreshold : Pool.checkThreshold args threshold update = .ok ()) :
    ∃ quote, swapQuoteWithParams M (swapParam pool args threshold) slippage = .ok quote ∧
      Quoted pool args timestamp update sequence quote := by
  unfold Pool.computeSwapUpdate at hc
  rw [Res.bind_eq_ok] at hc
  obtain ⟨initial, hload, hcompute⟩ := hc
  obtain ⟨hlimit, hleft, hright, hzero⟩ := swap_checks hcompute
  -- the quote on the fetched arrays goes the way of the swap
  obtain ⟨quote, hnew, htouch, ⟨hspacing, hdir, hseq⟩, hcovers, hvalid⟩ :=
    fetched_covers hs hkeys hload
  obtain ⟨result, m, hsdk, hagrees, hcovers', hread, htake⟩ :=
    computeSwap_of_swap_take hM (fetched_quotable hs hb hspacing hdir hseq) hcovers hs.price
      hs.liquidity_lt args.amount.toNat_lt (fun infos hinfos => hround timestamp infos initial
        hinfos hload) hcompute
  rw [htouch] at hsdk
  have hfetched : quote.sequence.length ≤ maxSwapTickArrays := by
    have hkeysle : (Pool.sequenceKeys args.array0 args.array1 args.array2).length ≤ 3 := by
      unfold Pool.sequenceKeys
      split_ifs <;> simp
    rw [← hkeys, List.length_map] at hkeysle
    rw [hseq]
    exact hkeysle
  have hsim := simulateSwap_eq hlimit hleft hright hzero hnew hvalid hsdk
    (checkOtherAmountThreshold_of_checkThreshold hagrees hthreshold)
    ((quote.getNumOfTouchedArrays_le m).trans hfetched)
  obtain ⟨m', hamounts, hthreshold'⟩ := calculateSwapAmounts_eq args (args.amount.toNat : ℤ) hnum
    hden hagrees
  -- the accounts of the quote are the arrays that were read
  have htouched : (quote.touch m).touchedAddresses =
      (Pool.sequenceKeys args.array0 args.array1 args.array2).take m := by
    rw [quote.touchedAddresses_touch, hseq, hkeys]
  have hne : (Pool.sequenceKeys args.array0 args.array1 args.array2).take m ≠ [] := by
    have hm := hread hmoves
    unfold Pool.sequenceKeys
    rw [← Nat.sub_add_cancel hm, List.take_succ_cons]
    exact List.cons_ne_nil _ _
  obtain ⟨a, b, c, ha, hb', hc', habc⟩ := getTouchedArrays_keys htouched
    ((Pool.sequenceKeys_nodup _ _ _).sublist (List.take_sublist _ _)) hne
    ((List.length_take_le' _ _).trans (by
      rw [← hkeys, List.length_map, ← hseq]
      exact hfetched))
  obtain ⟨hIn, hOut⟩ := remapAndAdjustTokens_agrees hagrees args.aToB
  refine ⟨quoteOf (swapParam pool args threshold) result
    ((quote.touch m).getTouchedArrays maxSwapTickArrays) m', ?_, hIn, hOut, hagrees.price, rfl, rfl,
    rfl, rfl, ⟨m', rfl, hthreshold'⟩, a, b, c, sequence.take m, ha, hb', hc', ?_⟩
  · unfold swapQuoteWithParams
    rw [hsim, Quote.ok_bind]
    unfold quoteOf swapParam
    simp only
    rw [hamounts]
    rfl
  · have hmapM : (Pool.sequenceKeys args.array0 args.array1 args.array2).mapM
        pool.getTickArray = .ok initial := by
      unfold Pool.loadSequence at hload
      simp only [Res.bind_eq_ok] at hload
      obtain ⟨-, -, -, -, -, -, hload⟩ := hload
      exact hload
    have hload' : pool.loadSequence a b c = .ok (initial.take m) := by
      refine loadSequence_of_mapM hs.wellPlaced ?_
      rw [habc]
      exact mapM_getTickArray_take m hmapM
    obtain ⟨hshort, hdrop⟩ := htake m le_rfl
    have hstored := storeSequence_take (covers_nodup hcovers')
      (Pool.mapM_getTickArray_eq_ok hs.wellPlaced hmapM).2 hdrop
    refine ⟨?_, hstored⟩
    unfold Pool.computeSwapUpdate
    simp only
    rw [hload', Res.ok_bind]
    exact hshort

/-! ## Quotes of a token -/

/-- The default threshold accepts every swap. -/
theorem checkThreshold_default {pool : Pool} (h : Reachable pool) {args : Pool.SwapArgs}
    {timestamp : ℕ} {update : PostSwapUpdate} {sequence : SwapTickSequence}
    (hswap : pool.computeSwapUpdate args timestamp = .ok (update, sequence)) :
    Pool.checkThreshold args (defaultThreshold args.amountSpecifiedIsInput) update = .ok () := by
  rw [checkThreshold_eq_ok]
  have hin : (defaultThreshold true).toNat = 0 := rfl
  have hout : (defaultThreshold false).toNat = 18446744073709551615 := rfl
  have hlt := (h.computeSwapUpdate_lt hswap).1
  cases args.amountSpecifiedIsInput with
  | true =>
    rw [if_pos rfl, hin]
    exact Nat.zero_le _
  | false =>
    rw [if_neg Bool.false_ne_true, hout]
    exact Nat.le_of_lt_succ hlt

/-- The token that an amount is given in is found by its mint, and with it the direction of the
swap. -/
lemma getSwapDirection_mintOf {pool : Whirlpool} (hne : pool.tokenMintA ≠ pool.tokenMintB)
    (input aToB : Bool) :
    getSwapDirection pool (mintOf pool (if input then tokenIn aToB else tokenOut aToB)) input =
      some aToB := by
  unfold getSwapDirection getTokenType mintOf
  cases input <;> cases aToB <;> simp [tokenIn, tokenOut, hne]

/-- The parameters of a quote of a token are those of a swap with the default limit and the default
threshold. -/
lemma swapQuoteByToken_eq (h : Reachable pool) {args : Pool.SwapArgs}
    (hlimit : (args.sqrtPriceLimit.toNat : ℤ) = getDefaultSqrtPriceLimit args.aToB) :
    swapQuoteByToken pool (mintOf pool.whirlpool
        (if args.amountSpecifiedIsInput then tokenIn args.aToB else tokenOut args.aToB))
        args.amount.toNat args.amountSpecifiedIsInput =
      .ok (swapParam pool args (defaultThreshold args.amountSpecifiedIsInput)) := by
  have hthreshold : ((defaultThreshold args.amountSpecifiedIsInput).toNat : ℤ) =
      getDefaultOtherAmountThreshold args.amountSpecifiedIsInput := by
    cases args.amountSpecifiedIsInput with
    | true => rfl
    | false => rfl
  unfold swapQuoteByToken swapParam
  rw [getSwapDirection_mintOf h.mints_lt.ne, hlimit, hthreshold]
  rfl

/-- **A swap up to the end of the price range is quoted by its token**: by the token that goes in if
the input is specified, and by the token that comes out if the output is.

**Proof sketch.** The quote by the token has the parameters of the swap by `swapQuoteByToken_eq`, so
it is that of `quoted_of_update` with the default threshold, which every swap meets. -/
theorem quoted_of_token {M : MathUtil} (hM : M.Floors) (h : Reachable pool) {args : Pool.SwapArgs}
    {slippage : Percentage} {timestamp : ℕ} {update : PostSwapUpdate} {sequence : SwapTickSequence}
    (hnum : 0 ≤ slippage.numerator) (hden : 0 < slippage.denominator)
    (hlimit : (args.sqrtPriceLimit.toNat : ℤ) = getDefaultSqrtPriceLimit args.aToB)
    (hkeys : (TickArraySequence.initializedArrays (fetchTickArrays pool args.aToB)).map
      InitializedTickArray.address = Pool.sequenceKeys args.array0 args.array1 args.array2)
    (hmoves : pool.whirlpool.sqrtPrice ≠ args.sqrtPriceLimit.toNat)
    (hround : TradeRoundsAlike pool args)
    (hc : pool.computeSwapUpdate args timestamp = .ok (update, sequence)) :
    ∃ quote, (if args.amountSpecifiedIsInput then
        swapQuoteByInputToken M pool (mintOf pool.whirlpool (tokenIn args.aToB)) args.amount.toNat
          slippage
      else swapQuoteByOutputToken M pool (mintOf pool.whirlpool (tokenOut args.aToB))
        args.amount.toNat slippage) = .ok quote ∧
      Quoted pool args timestamp update sequence quote := by
  have hparams := swapQuoteByToken_eq h hlimit
  obtain ⟨s, rfl, hinv⟩ := h.invariant
  obtain ⟨quote, hquote, hq⟩ := quoted_of_update hM hinv.sound hinv.backed hnum hden hkeys hmoves
    hround hc (checkThreshold_default h hc)
  refine ⟨quote, ?_, hq⟩
  by_cases hin : args.amountSpecifiedIsInput = true
  · rw [hin, if_pos rfl] at hparams
    rw [if_pos hin]
    unfold swapQuoteByInputToken
    rw [hparams, ← hquote, hin]
    rfl
  · rw [Bool.not_eq_true] at hin
    rw [hin, if_neg Bool.false_ne_true] at hparams
    rw [hin, if_neg Bool.false_ne_true]
    unfold swapQuoteByOutputToken
    rw [hparams, ← hquote, hin]
    rfl

/-! ## The instruction of a quote -/

/-- Of a sequence, a swap pays and stores what its storage makes of the arrays. -/
lemma updateAndSwapWhirlpool_congr {update : PostSwapUpdate} {stored sequence : SwapTickSequence}
    (h : pool.storeSequence stored = pool.storeSequence sequence) (aToB : Bool) (timestamp : ℕ)
    (funds : OwnerFunds) :
    pool.updateAndSwapWhirlpool update stored aToB timestamp funds =
      pool.updateAndSwapWhirlpool update sequence aToB timestamp funds := by
  unfold Pool.updateAndSwapWhirlpool
  simp only [h]

end Executes

/-- **A quote is what the instruction does.** Take a swap that succeeds on a reachable pool with all
the tick arrays that the SDK fetches, and whose price limit is not the price at its start. The SDK
returns a quote for it, whose estimates are what the vaults gain and lose and the price that is
reached. The instruction with the arrays and the threshold of the quote can be built exactly if the
threshold is a `u64`, which it always is for a specified input, and then it succeeds too and leaves
the pool in the same state.

**Proof sketch.** The handler is inverted into its update and its payments. `quoted_of_update` gives
the quote, `handler_amounts` the amounts that were paid, and the arrays of the quote let the
instruction run again with the threshold of the quote, which it meets. -/
theorem swapQuote_executes {M : MathUtil} (hM : M.Floors) {pool pool' : Pool} (h : Reachable pool)
    {args : Pool.SwapArgs} {threshold : UInt64} {clock : Int64} {funds : OwnerFunds}
    {slippage : Percentage} (hnum : 0 ≤ slippage.numerator) (hden : 0 < slippage.denominator)
    (hkeys : (TickArraySequence.initializedArrays (fetchTickArrays pool args.aToB)).map
      InitializedTickArray.address = Pool.sequenceKeys args.array0 args.array1 args.array2)
    (hmoves : pool.whirlpool.sqrtPrice ≠ args.sqrtPriceLimit.toNat)
    (hround : TradeRoundsAlike pool args)
    (hswap : pool.swapHandler args threshold clock funds = .ok pool') :
    ∃ quote, swapQuoteWithParams M (swapParam pool args threshold) slippage = .ok quote ∧
      (pool'.vault (tokenIn args.aToB) : ℤ) =
        pool.vault (tokenIn args.aToB) + quote.estimatedAmountIn ∧
      (pool'.vault (tokenOut args.aToB) : ℤ) =
        pool.vault (tokenOut args.aToB) - quote.estimatedAmountOut ∧
      (pool'.whirlpool.sqrtPrice : ℤ) = quote.estimatedEndSqrtPrice ∧
      ((∃ (a b c : ℤ) (t : UInt64), quote.tickArray0 = some a ∧ quote.tickArray1 = some b ∧
          quote.tickArray2 = some c ∧ (t.toNat : ℤ) = quote.otherAmountThreshold ∧
          pool.swapHandler { args with array0 := a, array1 := b, array2 := c } t clock funds =
            .ok pool') ↔
        args.amountSpecifiedIsInput = true ∨ quote.otherAmountThreshold < 2 ^ 64) := by
  obtain ⟨s, rfl, hinv⟩ := h.invariant
  have hs := hinv.sound
  have hb := hinv.backed
  have hhandler := hswap
  unfold Pool.swapHandler at hhandler
  rw [Res.bind_eq_ok] at hhandler
  obtain ⟨_, hen, hhandler⟩ := hhandler
  rw [Res.bind_eq_ok] at hhandler
  obtain ⟨timestamp, ht, hhandler⟩ := hhandler
  rw [Res.bind_eq_ok] at hhandler
  obtain ⟨⟨update, sequence'⟩, hc, hhandler⟩ := hhandler
  rw [Res.bind_eq_ok] at hhandler
  obtain ⟨_, hthreshold, hupdate⟩ := hhandler
  obtain ⟨quote, hquote, hq⟩ :=
    quoted_of_update hM hs hb hnum hden hkeys hmoves hround hc hthreshold
  obtain ⟨hin, hout, hprice⟩ := handler_amounts hs hb ht hc hswap
  obtain ⟨a, b, c, stored, ha, hb', hc', hsame, hstored⟩ := hq.arrays
  have hlt : update.amountOut args.aToB < 2 ^ 64 :=
    lt_of_le_of_lt (hout ▸ Nat.le_add_left _ _) (hb.vault_lt (tokenOut args.aToB))
  refine ⟨quote, hquote, ?_, ?_, ?_, ?_⟩
  · rw [hq.amountIn, hin, Nat.cast_add]
  · rw [hq.amountOut, ← hout, Nat.cast_add, add_sub_cancel_right]
  · rw [hq.price, hprice]
  · rw [← hq.threshold_iff hlt]
    constructor
    · rintro ⟨_, _, _, t, -, -, -, ht', -⟩
      exact ⟨t, ht'⟩
    · rintro ⟨t, ht'⟩
      refine ⟨a, b, c, t, ha, hb', hc', ht', ?_⟩
      unfold Pool.swapHandler
      rw [hen, Res.ok_bind, ht, Res.ok_bind, hsame, Res.ok_bind]
      change (Pool.checkThreshold args t update >>= fun _ => _) = _
      rw [hq.accepted ht', Res.ok_bind, ← hupdate]
      exact updateAndSwapWhirlpool_congr hstored args.aToB timestamp funds

/-- The sample swap is quoted at 99690 units of token B, and the instruction of the quote does what
the swap does. -/
theorem swapQuote_executes_sample : ∃ quote,
    swapQuoteWithParams .documented
        (swapParam samplePool ⟨0, -5632, -5632, 100000, 4295048016, true, true⟩ 0) ⟨1, 100⟩ =
      .ok quote ∧ quote.estimatedAmountIn = 100000 ∧ quote.estimatedAmountOut = 99690 ∧
      ∃ (a b c : ℤ) (t : UInt64), quote.tickArray0 = some a ∧ quote.tickArray1 = some b ∧
        quote.tickArray2 = some c ∧ (t.toNat : ℤ) = quote.otherAmountThreshold ∧
        samplePool.swapHandler ⟨a, b, c, 100000, 4295048016, true, true⟩ t 5 sampleFunds =
          .ok (samplePool.next sampleSwap) := by
  have hstep : samplePool.swapHandler ⟨0, -5632, -5632, 100000, 4295048016, true, true⟩ 0 5
      sampleFunds = .ok (samplePool.next sampleSwap) :=
    show samplePool.step sampleSwap = .ok (samplePool.next sampleSwap) from
      Pool.step_eq_next (by decide +kernel)
  have hnum : 0 ≤ (Percentage.mk 1 100).numerator := show (0 : ℤ) ≤ 1 by decide
  have hden : 0 < (Percentage.mk 1 100).denominator := show (0 : ℤ) < 100 by decide
  obtain ⟨quote, hquote, hin, hout, -, hbuilt⟩ := swapQuote_executes documented_floors
    samplePool_reachable hnum hden (by decide +kernel) (by decide +kernel)
    (tradeRoundsAlike_of_aToB samplePool rfl) hstep
  have hA : (samplePool.next sampleSwap).vaultA = samplePool.vaultA + 100000 := by decide +kernel
  have hB : (samplePool.next sampleSwap).vaultB + 99690 = samplePool.vaultB := by decide +kernel
  refine ⟨quote, hquote, ?_, ?_, hbuilt.2 (Or.inl rfl)⟩
  · change ((samplePool.next sampleSwap).vaultA : ℤ) = samplePool.vaultA + _ at hin
    rw [hA] at hin
    push_cast at hin
    linarith
  · change ((samplePool.next sampleSwap).vaultB : ℤ) = samplePool.vaultB - _ at hout
    rw [← hB] at hout
    push_cast at hout
    linarith

end Sdk

end NemoSwap
