import NemoSwap.Manager.TickManager

set_option relaxedAutoImplicit false
set_option autoImplicit false

/-!
# `liquidity_manager.rs`: changing the liquidity of a position

## Main definitions

* `NemoSwap.calculateModifyLiquidity'` — everything that changes with a position's liquidity.
* `NemoSwap.calculateLiquidityTokenDeltas` — the tokens that a change of liquidity is worth.

## Main results

* `NemoSwap.calculateModifyLiquidity_zero` — an update without a change of liquidity succeeds.
-/

namespace NemoSwap

/-- `ModifyLiquidityUpdate`. -/
structure ModifyLiquidityUpdate where
  whirlpoolLiquidity : ℕ
  tickLowerUpdate : TickUpdate
  tickUpperUpdate : TickUpdate
  rewardInfos : Fin numRewards → WhirlpoolRewardInfo
  positionUpdate : PositionUpdate

/-- `_calculate_modify_liquidity`. -/
def calculateModifyLiquidity' (whirlpool : Whirlpool) (position : Position)
    (tickLower tickUpper : Tick) (tickLowerIndex tickUpperIndex : ℤ) (liquidityDelta : ℤ)
    (timestamp : ℕ) : Res ModifyLiquidityUpdate :=
  if liquidityDelta = 0 ∧ position.liquidity = 0 then err .LiquidityZero
  else do
    let nextRewardInfos ← nextWhirlpoolRewardInfos whirlpool timestamp
    let nextGlobalLiquidity ← nextWhirlpoolLiquidity whirlpool position.tickUpperIndex
      position.tickLowerIndex liquidityDelta
    let tickLowerUpdate ← nextTickModifyLiquidityUpdate tickLower tickLowerIndex
      whirlpool.tickCurrentIndex whirlpool.feeGrowthGlobalA whirlpool.feeGrowthGlobalB
      nextRewardInfos liquidityDelta false
    let tickUpperUpdate ← nextTickModifyLiquidityUpdate tickUpper tickUpperIndex
      whirlpool.tickCurrentIndex whirlpool.feeGrowthGlobalA whirlpool.feeGrowthGlobalB
      nextRewardInfos liquidityDelta true
    let (feeGrowthInsideA, feeGrowthInsideB) := nextFeeGrowthsInside whirlpool.tickCurrentIndex
      tickLower tickLowerIndex tickUpper tickUpperIndex whirlpool.feeGrowthGlobalA
      whirlpool.feeGrowthGlobalB
    let rewardGrowthsInside := nextRewardGrowthsInside whirlpool.tickCurrentIndex tickLower
      tickLowerIndex tickUpper tickUpperIndex nextRewardInfos
    let positionUpdate ← nextPositionModifyLiquidityUpdate position liquidityDelta
      feeGrowthInsideA feeGrowthInsideB rewardGrowthsInside
    return { whirlpoolLiquidity := nextGlobalLiquidity, rewardInfos := nextRewardInfos
             positionUpdate, tickLowerUpdate, tickUpperUpdate }

/-- `calculate_modify_liquidity`. -/
def calculateModifyLiquidity (whirlpool : Whirlpool) (position : Position)
    (tickArrayLower tickArrayUpper : TickArray) (liquidityDelta : ℤ) (timestamp : ℕ) :
    Res ModifyLiquidityUpdate := do
  let tickLower ← tickArrayLower.getTick position.tickLowerIndex whirlpool.tickSpacing
  let tickUpper ← tickArrayUpper.getTick position.tickUpperIndex whirlpool.tickSpacing
  calculateModifyLiquidity' whirlpool position tickLower tickUpper position.tickLowerIndex
    position.tickUpperIndex liquidityDelta timestamp

/-- `calculate_fee_and_reward_growths`. -/
def calculateFeeAndRewardGrowths (whirlpool : Whirlpool) (position : Position)
    (tickArrayLower tickArrayUpper : TickArray) (timestamp : ℕ) :
    Res (PositionUpdate × (Fin numRewards → WhirlpoolRewardInfo)) := do
  let update ← calculateModifyLiquidity whirlpool position tickArrayLower tickArrayUpper 0 timestamp
  return (update.positionUpdate, update.rewardInfos)

/-- `calculate_liquidity_token_deltas`. -/
def calculateLiquidityTokenDeltas (currentTickIndex : ℤ) (sqrtPrice : ℕ) (position : Position)
    (liquidityDelta : ℤ) : Res (ℕ × ℕ) :=
  if liquidityDelta = 0 then err .LiquidityZero
  else do
    let liquidity := liquidityDelta.natAbs
    let roundUp := decide (liquidityDelta > 0)
    let lowerPrice ← sqrtPriceFromTickIndex position.tickLowerIndex
    let upperPrice ← sqrtPriceFromTickIndex position.tickUpperIndex
    if currentTickIndex < position.tickLowerIndex then do
      let deltaA ← getAmountDeltaA lowerPrice upperPrice liquidity roundUp
      return (deltaA, 0)
    else if currentTickIndex < position.tickUpperIndex then do
      let deltaA ← getAmountDeltaA sqrtPrice upperPrice liquidity roundUp
      let deltaB ← getAmountDeltaB lowerPrice sqrtPrice liquidity roundUp
      return (deltaA, deltaB)
    else do
      let deltaB ← getAmountDeltaB lowerPrice upperPrice liquidity roundUp
      return (0, deltaB)

/-- **What an update without a change of liquidity stores.**

**Proof sketch.** The rewards are updated, because the clock does not run backwards, and the
liquidity of the pool is the same inside and outside of the range. Without a change of liquidity the
ticks are stored as they are. -/
theorem calculateModifyLiquidity_zero {w : Whirlpool} {position : Position}
    {tickLower tickUpper : Tick} {timestamp : ℕ} (hl : 0 < position.liquidity)
    (ht : w.rewardLastUpdatedTimestamp ≤ timestamp) :
    ∃ infos update, nextWhirlpoolRewardInfos w timestamp = .ok infos ∧
      nextPositionModifyLiquidityUpdate position 0
        (nextFeeGrowthsInside w.tickCurrentIndex tickLower position.tickLowerIndex tickUpper
          position.tickUpperIndex w.feeGrowthGlobalA w.feeGrowthGlobalB).1
        (nextFeeGrowthsInside w.tickCurrentIndex tickLower position.tickLowerIndex tickUpper
          position.tickUpperIndex w.feeGrowthGlobalA w.feeGrowthGlobalB).2
        (nextRewardGrowthsInside w.tickCurrentIndex tickLower position.tickLowerIndex tickUpper
          position.tickUpperIndex infos) = .ok update ∧
      calculateModifyLiquidity' w position tickLower tickUpper position.tickLowerIndex
        position.tickUpperIndex 0 timestamp =
          .ok { whirlpoolLiquidity := w.liquidity, tickLowerUpdate := tickLower
                tickUpperUpdate := tickUpper, rewardInfos := infos, positionUpdate := update } := by
  obtain ⟨infos, hinfos⟩ : ∃ infos, nextWhirlpoolRewardInfos w timestamp = .ok infos := by
    unfold nextWhirlpoolRewardInfos
    simp only
    rw [if_neg (not_lt.2 ht)]
    split_ifs <;> exact ⟨_, rfl⟩
  have hliquidity : nextWhirlpoolLiquidity w position.tickUpperIndex position.tickLowerIndex 0 =
      .ok w.liquidity := by
    unfold nextWhirlpoolLiquidity
    split_ifs <;> rfl
  refine ⟨infos, _, hinfos, rfl, ?_⟩
  unfold calculateModifyLiquidity'
  rw [if_neg (by omega), hinfos, Res.ok_bind, hliquidity, Res.ok_bind]
  rfl

end NemoSwap
