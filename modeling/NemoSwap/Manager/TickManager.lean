import NemoSwap.State.Whirlpool

set_option relaxedAutoImplicit false
set_option autoImplicit false

/-!
# `tick_manager.rs`, `position_manager.rs` and `whirlpool_manager.rs`

How ticks, positions and the reward accumulators of a pool change. Fees of token A, fees of
token B and the three rewards follow the same rules: each tick stores the growth on its other
side, seen from the current tick.

## Main definitions

* `NemoSwap.nextTickCrossUpdate` — a tick when the price crosses it.
* `NemoSwap.nextTickModifyLiquidityUpdate` — a tick when a position on it changes.
* `NemoSwap.growthInside` — one accumulator's growth inside a range; the fee and reward versions
  `NemoSwap.nextFeeGrowthsInside` and `NemoSwap.nextRewardGrowthsInside` apply it.
* `NemoSwap.nextPositionModifyLiquidityUpdate` — a position when it changes.
* `NemoSwap.nextWhirlpoolRewardInfos` — the reward accumulators as time passes.
-/

namespace NemoSwap

/-! ## Ticks -/

/-- `next_tick_cross_update`: the growths outside are seen from the other side. -/
def nextTickCrossUpdate (tick : Tick) (feeGrowthGlobalA feeGrowthGlobalB : Growth)
    (rewardInfos : Fin numRewards → WhirlpoolRewardInfo) : TickUpdate :=
  { tick with
    feeGrowthOutsideA := feeGrowthGlobalA - tick.feeGrowthOutsideA
    feeGrowthOutsideB := feeGrowthGlobalB - tick.feeGrowthOutsideB
    rewardGrowthsOutside := fun i =>
      if (rewardInfos i).initialized then
        (rewardInfos i).growthGlobalX64 - tick.rewardGrowthsOutside i
      else tick.rewardGrowthsOutside i }

/-- `checked_add` on `i128`. -/
def checkedAddI128 (a b : ℤ) : Option ℤ :=
  if -2 ^ 127 ≤ a + b ∧ a + b < 2 ^ 127 then some (a + b) else none

/-- `checked_sub` on `i128`. -/
def checkedSubI128 (a b : ℤ) : Option ℤ :=
  if -2 ^ 127 ≤ a - b ∧ a - b < 2 ^ 127 then some (a - b) else none

/-- `next_tick_modify_liquidity_update`. A tick that is initialized takes over all growth if the
current tick is at or right of it, by the convention that all prior growth happened below. -/
def nextTickModifyLiquidityUpdate (tick : Tick) (tickIndex tickCurrentIndex : ℤ)
    (feeGrowthGlobalA feeGrowthGlobalB : Growth)
    (rewardInfos : Fin numRewards → WhirlpoolRewardInfo) (liquidityDelta : ℤ)
    (isUpperTick : Bool) : Res TickUpdate :=
  if liquidityDelta = 0 then .ok tick
  else do
    let liquidityGross ← addLiquidityDelta tick.liquidityGross liquidityDelta
    if liquidityGross = 0 then return Tick.default
    else do
      let (feeGrowthOutsideA, feeGrowthOutsideB, rewardGrowthsOutside) :=
        if tick.liquidityGross = 0 then
          if tickCurrentIndex ≥ tickIndex then
            (feeGrowthGlobalA, feeGrowthGlobalB, WhirlpoolRewardInfo.toRewardGrowths rewardInfos)
          else (0, 0, fun _ => 0)
        else (tick.feeGrowthOutsideA, tick.feeGrowthOutsideB, tick.rewardGrowthsOutside)
      let liquidityNet ← okOr (if isUpperTick then checkedSubI128 tick.liquidityNet liquidityDelta
        else checkedAddI128 tick.liquidityNet liquidityDelta) .LiquidityNetError
      return { initialized := true, liquidityNet, liquidityGross, feeGrowthOutsideA
               feeGrowthOutsideB, rewardGrowthsOutside }

/-! ## Growth inside a range -/

/-- The growth of one accumulator inside a range, from its global value and the values outside
the two ticks of the range. -/
def growthInside (tickCurrentIndex : ℤ) (lowerInitialized : Bool) (tickLowerIndex : ℤ)
    (upperInitialized : Bool) (tickUpperIndex : ℤ)
    (growthGlobal lowerOutside upperOutside : Growth) : Growth :=
  let growthBelow :=
    if !lowerInitialized then growthGlobal
    else if tickCurrentIndex < tickLowerIndex then growthGlobal - lowerOutside
    else lowerOutside
  let growthAbove :=
    if !upperInitialized then 0
    else if tickCurrentIndex < tickUpperIndex then upperOutside
    else growthGlobal - upperOutside
  growthGlobal - growthBelow - growthAbove

/-- `next_fee_growths_inside`. -/
def nextFeeGrowthsInside (tickCurrentIndex : ℤ) (tickLower : Tick) (tickLowerIndex : ℤ)
    (tickUpper : Tick) (tickUpperIndex : ℤ) (feeGrowthGlobalA feeGrowthGlobalB : Growth) :
    Growth × Growth :=
  (growthInside tickCurrentIndex tickLower.initialized tickLowerIndex tickUpper.initialized
      tickUpperIndex feeGrowthGlobalA tickLower.feeGrowthOutsideA tickUpper.feeGrowthOutsideA,
    growthInside tickCurrentIndex tickLower.initialized tickLowerIndex tickUpper.initialized
      tickUpperIndex feeGrowthGlobalB tickLower.feeGrowthOutsideB tickUpper.feeGrowthOutsideB)

/-- `next_reward_growths_inside`. -/
def nextRewardGrowthsInside (tickCurrentIndex : ℤ) (tickLower : Tick) (tickLowerIndex : ℤ)
    (tickUpper : Tick) (tickUpperIndex : ℤ) (rewardInfos : Fin numRewards → WhirlpoolRewardInfo) :
    Fin numRewards → Growth :=
  fun i =>
    if !(rewardInfos i).initialized then 0
    else growthInside tickCurrentIndex tickLower.initialized tickLowerIndex
      tickUpper.initialized tickUpperIndex (rewardInfos i).growthGlobalX64
      (tickLower.rewardGrowthsOutside i) (tickUpper.rewardGrowthsOutside i)

/-! ## Positions -/

/-- `checked_mul_shift_right(liquidity, growth_delta).unwrap_or(0)`. -/
def owedDelta (liquidity : ℕ) (growthDelta : Growth) : ℕ :=
  match checkedMulShiftRight liquidity growthDelta.toNat with
  | .ok amount => amount
  | .error _ => 0

/-- `next_position_modify_liquidity_update`. -/
def nextPositionModifyLiquidityUpdate (position : Position) (liquidityDelta : ℤ)
    (feeGrowthInsideA feeGrowthInsideB : Growth)
    (rewardGrowthsInside : Fin numRewards → Growth) : Res PositionUpdate := do
  let growthDeltaA := feeGrowthInsideA - position.feeGrowthCheckpointA
  let feeDeltaA := owedDelta position.liquidity growthDeltaA
  let growthDeltaB := feeGrowthInsideB - position.feeGrowthCheckpointB
  let feeDeltaB := owedDelta position.liquidity growthDeltaB
  let rewardInfos : Fin numRewards → PositionRewardInfo := fun i =>
    let rewardGrowthInside := rewardGrowthsInside i
    let currRewardInfo := position.rewardInfos i
    let rewardGrowthDelta := rewardGrowthInside - currRewardInfo.growthInsideCheckpoint
    let amountOwedDelta := owedDelta position.liquidity rewardGrowthDelta
    { growthInsideCheckpoint := rewardGrowthInside
      amountOwed := wrappingAdd 64 currRewardInfo.amountOwed amountOwedDelta }
  let liquidity ← addLiquidityDelta position.liquidity liquidityDelta
  return { liquidity
           feeGrowthCheckpointA := feeGrowthInsideA
           feeOwedA := wrappingAdd 64 position.feeOwedA feeDeltaA
           feeGrowthCheckpointB := feeGrowthInsideB
           feeOwedB := wrappingAdd 64 position.feeOwedB feeDeltaB
           rewardInfos }

/-! ## Pools -/

/-- The growth of a reward over `timeDelta` seconds: `checked_mul_div(..).unwrap_or(0)`. -/
def rewardGrowthDelta (timeDelta emissionsPerSecondX64 liquidity : ℕ) : ℕ :=
  match checkedMulDiv timeDelta emissionsPerSecondX64 liquidity with
  | .ok growth => growth
  | .error _ => 0

/-- `next_whirlpool_reward_infos`. -/
def nextWhirlpoolRewardInfos (whirlpool : Whirlpool) (nextTimestamp : ℕ) :
    Res (Fin numRewards → WhirlpoolRewardInfo) :=
  let currTimestamp := whirlpool.rewardLastUpdatedTimestamp
  if nextTimestamp < currTimestamp then err .InvalidTimestamp
  else if whirlpool.liquidity = 0 ∨ nextTimestamp = currTimestamp then .ok whirlpool.rewardInfos
  else
    let timeDelta := nextTimestamp - currTimestamp
    .ok fun i =>
      let rewardInfo := whirlpool.rewardInfos i
      if !rewardInfo.initialized then rewardInfo
      else { rewardInfo with
             growthGlobalX64 := rewardInfo.growthGlobalX64 + BitVec.ofNat 128
               (rewardGrowthDelta timeDelta rewardInfo.emissionsPerSecondX64
                 whirlpool.liquidity) }

/-- `next_whirlpool_liquidity`. -/
def nextWhirlpoolLiquidity (whirlpool : Whirlpool) (tickUpperIndex tickLowerIndex : ℤ)
    (liquidityDelta : ℤ) : Res ℕ :=
  if whirlpool.tickCurrentIndex < tickUpperIndex ∧ whirlpool.tickCurrentIndex ≥ tickLowerIndex then
    addLiquidityDelta whirlpool.liquidity liquidityDelta
  else .ok whirlpool.liquidity

end NemoSwap
