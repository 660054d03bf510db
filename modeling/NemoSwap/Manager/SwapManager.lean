import NemoSwap.Manager.TickManager
import NemoSwap.Math.SwapMath
import NemoSwap.Util.SwapTickSequence

set_option relaxedAutoImplicit false
set_option autoImplicit false

/-!
# `swap_manager.rs`: the swap loop

A swap trades step by step from one initialized tick to the next, until the amount is used up
or the price limit is reached. The variables that the loop of the source updates form a
`SwapState`, and `swapStep` is one iteration.

## Main definitions

* `NemoSwap.SwapState`, `NemoSwap.swapStep`, `NemoSwap.swapLoop` — the loop.
* `NemoSwap.swap` — the whole function.

## Implementation notes

The loop is bounded by the number of ticks between the bounds of the tick range. In a pool whose
price and tick agree every iteration but the last crosses a tick, so the bound is never used up.
-/

namespace NemoSwap

/-- `PostSwapUpdate`. -/
structure PostSwapUpdate where
  amountA : ℕ
  amountB : ℕ
  nextLiquidity : ℕ
  nextTickIndex : ℤ
  nextSqrtPrice : ℕ
  nextFeeGrowthGlobal : Growth
  nextRewardInfos : Fin numRewards → WhirlpoolRewardInfo
  nextProtocolFee : ℕ

/-- The variables of the loop of `swap`. -/
structure SwapState where
  amountRemaining : ℕ
  amountCalculated : ℕ
  currSqrtPrice : ℕ
  currTickIndex : ℤ
  currLiquidity : ℕ
  currProtocolFee : ℕ
  currArrayIndex : ℕ
  currFeeGrowthGlobalInput : Growth
  swapTickSequence : SwapTickSequence

/-- `calculate_protocol_fee`. -/
def calculateProtocolFee (globalFee protocolFeeRate : ℕ) : Res ℕ :=
  let n := globalFee * protocolFeeRate / protocolFeeRateMulValue
  if n < 2 ^ 64 then .ok n else .error .panicked

/-- `calculate_fees`. -/
def calculateFees (feeAmount protocolFeeRate currLiquidity currProtocolFee : ℕ)
    (currFeeGrowthGlobalInput : Growth) : Res (ℕ × Growth) := do
  let (globalFee, nextProtocolFee) ← (if protocolFeeRate > 0 then do
      let delta ← calculateProtocolFee feeAmount protocolFeeRate
      return (wrappingSub 64 feeAmount delta, wrappingAdd 64 currProtocolFee delta)
    else .ok (feeAmount, currProtocolFee))
  let nextFeeGrowthGlobalInput :=
    if currLiquidity > 0 then
      currFeeGrowthGlobalInput + BitVec.ofNat 128 (globalFee <<< q64Resolution / currLiquidity)
    else currFeeGrowthGlobalInput
  return (nextProtocolFee, nextFeeGrowthGlobalInput)

/-- Negation on `i128`, which leaves the least value as it is. -/
def negI128 (n : ℤ) : ℤ := if n = -2 ^ 127 then n else -n

/-- `calculate_update`. -/
def calculateUpdate (tick : Tick) (aToB : Bool) (liquidity : ℕ)
    (feeGrowthGlobalA feeGrowthGlobalB : Growth)
    (rewardInfos : Fin numRewards → WhirlpoolRewardInfo) : Res (TickUpdate × ℕ) := do
  let signedLiquidityNet := if aToB then negI128 tick.liquidityNet else tick.liquidityNet
  let update := nextTickCrossUpdate tick feeGrowthGlobalA feeGrowthGlobalB rewardInfos
  let nextLiquidity ← addLiquidityDelta liquidity signedLiquidityNet
  return (update, nextLiquidity)

/-- `get_next_sqrt_prices`. -/
def getNextSqrtPrices (nextTickIndex : ℤ) (sqrtPriceLimit : ℕ) (aToB : Bool) : Res (ℕ × ℕ) := do
  let nextTickPrice ← sqrtPriceFromTickIndex nextTickIndex
  let nextSqrtPriceLimit :=
    if aToB then max sqrtPriceLimit nextTickPrice else min sqrtPriceLimit nextTickPrice
  return (nextTickPrice, nextSqrtPriceLimit)

/-- The amounts of the loop after a step: what remains of the specified amount, and the other
amount so far. -/
def nextAmounts (amountSpecifiedIsInput : Bool) (amountRemaining amountCalculated : ℕ)
    (swapComputation : SwapStepComputation) : Res (ℕ × ℕ) :=
  if amountSpecifiedIsInput then do
    let amountRemaining ←
      okOr (checkedSub amountRemaining swapComputation.amountIn) .AmountRemainingOverflow
    let amountRemaining ←
      okOr (checkedSub amountRemaining swapComputation.feeAmount) .AmountRemainingOverflow
    let amountCalculated ←
      okOr (checkedAdd 64 amountCalculated swapComputation.amountOut) .AmountCalcOverflow
    return (amountRemaining, amountCalculated)
  else do
    let amountRemaining ←
      okOr (checkedSub amountRemaining swapComputation.amountOut) .AmountRemainingOverflow
    let amountCalculated ←
      okOr (checkedAdd 64 amountCalculated swapComputation.amountIn) .AmountCalcOverflow
    let amountCalculated ←
      okOr (checkedAdd 64 amountCalculated swapComputation.feeAmount) .AmountCalcOverflow
    return (amountRemaining, amountCalculated)

/-- The lines of the loop that cross the next tick if it is initialized: the liquidity and the
tick arrays after it. -/
def crossTick (whirlpool : Whirlpool) (rewardInfos : Fin numRewards → WhirlpoolRewardInfo)
    (aToB : Bool) (nextArrayIndex : ℕ) (nextTickIndex : ℤ) (currLiquidity : ℕ)
    (currFeeGrowthGlobalInput : Growth) (swapTickSequence : SwapTickSequence) :
    Res (ℕ × SwapTickSequence) :=
  match swapTickSequence.getTick nextArrayIndex nextTickIndex whirlpool.tickSpacing with
  | .error (.error _) => .ok (currLiquidity, swapTickSequence)
  | .error failure => .error failure
  | .ok nextTick =>
    if nextTick.initialized then do
      let (feeGrowthGlobalA, feeGrowthGlobalB) :=
        if aToB then (currFeeGrowthGlobalInput, whirlpool.feeGrowthGlobalB)
        else (whirlpool.feeGrowthGlobalA, currFeeGrowthGlobalInput)
      let (update, nextLiquidity) ← calculateUpdate nextTick aToB currLiquidity feeGrowthGlobalA
        feeGrowthGlobalB rewardInfos
      let swapTickSequence ← swapTickSequence.updateTick nextArrayIndex nextTickIndex
        whirlpool.tickSpacing update
      return (nextLiquidity, swapTickSequence)
    else .ok (currLiquidity, swapTickSequence)

/-- The liquidity, tick arrays, array index and tick index after a step that ended at
`nextPrice`. -/
def advance (whirlpool : Whirlpool) (rewardInfos : Fin numRewards → WhirlpoolRewardInfo)
    (aToB : Bool) (nextArrayIndex : ℕ) (nextTickIndex : ℤ) (nextTickSqrtPrice nextPrice : ℕ)
    (currFeeGrowthGlobalInput : Growth) (s : SwapState) :
    Res (ℕ × SwapTickSequence × ℕ × ℤ) :=
  if nextPrice = nextTickSqrtPrice then do
    let (currLiquidity, swapTickSequence) ← crossTick whirlpool rewardInfos aToB nextArrayIndex
      nextTickIndex s.currLiquidity currFeeGrowthGlobalInput s.swapTickSequence
    let tickOffset ← swapTickSequence.getTickOffset nextArrayIndex nextTickIndex
      whirlpool.tickSpacing
    let currArrayIndex :=
      if (aToB = true ∧ tickOffset = 0) ∨ (aToB = false ∧ tickOffset = tickArraySize - 1) then
        nextArrayIndex + 1
      else nextArrayIndex
    -- the search to the left includes the current index, so it is shifted by one
    let currTickIndex := if aToB then nextTickIndex - 1 else nextTickIndex
    return (currLiquidity, swapTickSequence, currArrayIndex, currTickIndex)
  else if nextPrice ≠ s.currSqrtPrice then do
    let currTickIndex ← tickIndexFromSqrtPrice nextPrice
    return (s.currLiquidity, s.swapTickSequence, s.currArrayIndex, currTickIndex)
  else .ok (s.currLiquidity, s.swapTickSequence, s.currArrayIndex, s.currTickIndex)

/-- One iteration of the loop of `swap`. -/
def swapStep (whirlpool : Whirlpool) (rewardInfos : Fin numRewards → WhirlpoolRewardInfo)
    (sqrtPriceLimit : ℕ) (amountSpecifiedIsInput aToB : Bool) (s : SwapState) :
    Res SwapState := do
  let (nextArrayIndex, nextTickIndex) ← s.swapTickSequence.getNextInitializedTickIndex
    s.currTickIndex whirlpool.tickSpacing aToB s.currArrayIndex
  let (nextTickSqrtPrice, sqrtPriceTarget) ←
    getNextSqrtPrices nextTickIndex sqrtPriceLimit aToB
  let swapComputation ← computeSwap s.amountRemaining whirlpool.feeRate s.currLiquidity
    s.currSqrtPrice sqrtPriceTarget amountSpecifiedIsInput aToB
  let (amountRemaining, amountCalculated) ← nextAmounts amountSpecifiedIsInput
    s.amountRemaining s.amountCalculated swapComputation
  let (currProtocolFee, currFeeGrowthGlobalInput) ← calculateFees swapComputation.feeAmount
    whirlpool.protocolFeeRate s.currLiquidity s.currProtocolFee s.currFeeGrowthGlobalInput
  let (currLiquidity, swapTickSequence, currArrayIndex, currTickIndex) ←
    advance whirlpool rewardInfos aToB nextArrayIndex nextTickIndex nextTickSqrtPrice
      swapComputation.nextPrice currFeeGrowthGlobalInput s
  return { amountRemaining, amountCalculated, currSqrtPrice := swapComputation.nextPrice
           currTickIndex, currLiquidity, currProtocolFee, currArrayIndex
           currFeeGrowthGlobalInput, swapTickSequence }

/-- The loop of `swap`, with at most `count` iterations. -/
def swapLoop (whirlpool : Whirlpool) (rewardInfos : Fin numRewards → WhirlpoolRewardInfo)
    (sqrtPriceLimit : ℕ) (amountSpecifiedIsInput aToB : Bool) : ℕ → SwapState → Res SwapState
  | 0, _ => .error .outOfFuel
  | count + 1, s =>
    if s.amountRemaining > 0 ∧ sqrtPriceLimit ≠ s.currSqrtPrice then do
      let s ← swapStep whirlpool rewardInfos sqrtPriceLimit amountSpecifiedIsInput aToB s
      swapLoop whirlpool rewardInfos sqrtPriceLimit amountSpecifiedIsInput aToB count s
    else .ok s

/-- A bound on the iterations of the loop: the number of ticks, and the last step. -/
def swapBound : ℕ := 887276

/-- The variables before the first iteration. -/
def initialSwapState (whirlpool : Whirlpool) (swapTickSequence : SwapTickSequence) (amount : ℕ)
    (aToB : Bool) : SwapState :=
  { amountRemaining := amount
    amountCalculated := 0
    currSqrtPrice := whirlpool.sqrtPrice
    currTickIndex := whirlpool.tickCurrentIndex
    currLiquidity := whirlpool.liquidity
    currProtocolFee := 0
    currArrayIndex := 0
    currFeeGrowthGlobalInput :=
      if aToB then whirlpool.feeGrowthGlobalA else whirlpool.feeGrowthGlobalB
    swapTickSequence }

/-- The result of `swap` from the variables after the last iteration. -/
def postSwapUpdate (amount : ℕ) (amountSpecifiedIsInput aToB : Bool)
    (nextRewardInfos : Fin numRewards → WhirlpoolRewardInfo) (s : SwapState) : PostSwapUpdate :=
  let specified := amount - s.amountRemaining
  { amountA := if aToB = amountSpecifiedIsInput then specified else s.amountCalculated
    amountB := if aToB = amountSpecifiedIsInput then s.amountCalculated else specified
    nextLiquidity := s.currLiquidity
    nextTickIndex := s.currTickIndex
    nextSqrtPrice := s.currSqrtPrice
    nextFeeGrowthGlobal := s.currFeeGrowthGlobalInput
    nextRewardInfos
    nextProtocolFee := s.currProtocolFee }

/-- `swap`. The tick arrays, which the source updates in place, are returned with the result. -/
def swap (whirlpool : Whirlpool) (swapTickSequence : SwapTickSequence)
    (amount sqrtPriceLimit : ℕ) (amountSpecifiedIsInput aToB : Bool) (timestamp : ℕ) :
    Res (PostSwapUpdate × SwapTickSequence) :=
  if sqrtPriceLimit < minSqrtPriceX64 ∨ sqrtPriceLimit > maxSqrtPriceX64 then
    err .SqrtPriceOutOfBounds
  else if (aToB = true ∧ sqrtPriceLimit > whirlpool.sqrtPrice) ∨
      (aToB = false ∧ sqrtPriceLimit < whirlpool.sqrtPrice) then
    err .InvalidSqrtPriceLimitDirection
  else if amount = 0 then err .ZeroTradableAmount
  else do
    let nextRewardInfos ← nextWhirlpoolRewardInfos whirlpool timestamp
    let s ← swapLoop whirlpool nextRewardInfos sqrtPriceLimit amountSpecifiedIsInput aToB swapBound
      (initialSwapState whirlpool swapTickSequence amount aToB)
    return (postSwapUpdate amount amountSpecifiedIsInput aToB nextRewardInfos s,
      s.swapTickSequence)

end NemoSwap
