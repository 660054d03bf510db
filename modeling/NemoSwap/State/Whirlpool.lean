import NemoSwap.Math.TickBounds
import NemoSwap.Math.TokenMath
import NemoSwap.State.Tick

set_option relaxedAutoImplicit false
set_option autoImplicit false

/-!
# `state/whirlpool.rs` and `state/position.rs`: pools and positions

The data of a pool and of a position, with the updates that the instructions apply to them.
Token accounts are not part of these records: the embedding keeps the vault balances of a pool
beside its record.

## Main definitions

* `NemoSwap.Whirlpool`, `NemoSwap.WhirlpoolRewardInfo` — the data of a pool.
* `NemoSwap.Position`, `NemoSwap.PositionRewardInfo` — the data of a position.
-/

namespace NemoSwap

/-- `Pubkey`, with `0` for the default key. -/
abbrev Pubkey : Type := ℕ

/-! ## Pools -/

/-- `WhirlpoolRewardInfo`. -/
structure WhirlpoolRewardInfo where
  mint : Pubkey
  vault : Pubkey
  authority : Pubkey
  emissionsPerSecondX64 : ℕ
  growthGlobalX64 : Growth
  deriving DecidableEq

namespace WhirlpoolRewardInfo

/-- `WhirlpoolRewardInfo::new`. -/
def new (authority : Pubkey) : WhirlpoolRewardInfo := ⟨0, 0, authority, 0, 0⟩

/-- `initialized`. -/
def initialized (self : WhirlpoolRewardInfo) : Bool := decide (self.mint ≠ 0)

/-- `to_reward_growths`. -/
def toRewardGrowths (rewardInfos : Fin numRewards → WhirlpoolRewardInfo) :
    Fin numRewards → Growth :=
  fun i => (rewardInfos i).growthGlobalX64

end WhirlpoolRewardInfo

/-- The seeds of the address of a pool. -/
structure PoolKey where
  whirlpoolsConfig : Pubkey
  tokenMintA : Pubkey
  tokenMintB : Pubkey
  tickSpacing : ℕ
  deriving DecidableEq

/-- `Whirlpool`. -/
structure Whirlpool where
  isEnabled : Bool
  whirlpoolsConfig : Pubkey
  tickSpacing : ℕ
  feeRate : ℕ
  protocolFeeRate : ℕ
  liquidity : ℕ
  sqrtPrice : ℕ
  tickCurrentIndex : ℤ
  protocolFeeOwedA : ℕ
  protocolFeeOwedB : ℕ
  tokenMintA : Pubkey
  feeGrowthGlobalA : Growth
  tokenMintB : Pubkey
  feeGrowthGlobalB : Growth
  rewardLastUpdatedTimestamp : ℕ
  rewardInfos : Fin numRewards → WhirlpoolRewardInfo
  deriving DecidableEq

namespace Whirlpool

/-- `update_fee_rate`. -/
def updateFeeRate (self : Whirlpool) (feeRate : ℕ) : Res Whirlpool :=
  if feeRate > maxFeeRate then err .FeeRateMaxExceeded else return { self with feeRate }

/-- `update_protocol_fee_rate`. -/
def updateProtocolFeeRate (self : Whirlpool) (protocolFeeRate : ℕ) : Res Whirlpool :=
  if protocolFeeRate > maxProtocolFeeRate then err .ProtocolFeeRateMaxExceeded
  else return { self with protocolFeeRate }

/-- `initialize`: a new pool of the given config, with the config's default protocol fee rate
and reward super authority. -/
def initializeWhirlpool (whirlpoolsConfig : Pubkey) (defaultProtocolFeeRate : ℕ)
    (rewardEmissionsSuperAuthority : Pubkey) (tickSpacing sqrtPrice defaultFeeRate : ℕ)
    (tokenMintA tokenMintB : Pubkey) : Res Whirlpool := do
  if tokenMintA ≥ tokenMintB then err .InvalidTokenMintOrder
  else if sqrtPrice < minSqrtPriceX64 ∨ sqrtPrice > maxSqrtPriceX64 then err .SqrtPriceOutOfBounds
  else do
    let self : Whirlpool :=
      { isEnabled := true, whirlpoolsConfig, tickSpacing, feeRate := 0, protocolFeeRate := 0
        liquidity := 0, sqrtPrice, tickCurrentIndex := 0
        protocolFeeOwedA := 0, protocolFeeOwedB := 0
        tokenMintA, feeGrowthGlobalA := 0, tokenMintB, feeGrowthGlobalB := 0
        rewardLastUpdatedTimestamp := 0
        rewardInfos := fun _ => WhirlpoolRewardInfo.new rewardEmissionsSuperAuthority }
    let self ← self.updateFeeRate defaultFeeRate
    let self ← self.updateProtocolFeeRate defaultProtocolFeeRate
    let tickCurrentIndex ← tickIndexFromSqrtPrice sqrtPrice
    return { self with tickCurrentIndex }

/-- `require_enabled`. -/
def requireEnabled (self : Whirlpool) : Res Unit :=
  if !self.isEnabled then err .PoolWasDisabled else return ()

/-- `set_enable_flag`. -/
def setEnableFlag (self : Whirlpool) (isEnabled : Bool) : Whirlpool := { self with isEnabled }

/-- `update_rewards`. -/
def updateRewards (self : Whirlpool) (rewardInfos : Fin numRewards → WhirlpoolRewardInfo)
    (rewardLastUpdatedTimestamp : ℕ) : Whirlpool :=
  { self with rewardInfos, rewardLastUpdatedTimestamp }

/-- `update_rewards_and_liquidity`. -/
def updateRewardsAndLiquidity (self : Whirlpool)
    (rewardInfos : Fin numRewards → WhirlpoolRewardInfo) (liquidity : ℕ)
    (rewardLastUpdatedTimestamp : ℕ) : Whirlpool :=
  { self.updateRewards rewardInfos rewardLastUpdatedTimestamp with liquidity }

/-- Change one reward. -/
def updateReward (self : Whirlpool) (i : Fin numRewards)
    (f : WhirlpoolRewardInfo → WhirlpoolRewardInfo) : Whirlpool :=
  { self with rewardInfos := Function.update self.rewardInfos i (f (self.rewardInfos i)) }

/-- `update_reward_authority`. -/
def updateRewardAuthority (self : Whirlpool) (index : ℕ) (authority : Pubkey) : Res Whirlpool :=
  if h : index < numRewards then
    return self.updateReward ⟨index, h⟩ fun info => { info with authority }
  else err .InvalidRewardIndex

/-- `update_emissions`. -/
def updateEmissions (self : Whirlpool) (index : ℕ)
    (rewardInfos : Fin numRewards → WhirlpoolRewardInfo) (timestamp : ℕ)
    (emissionsPerSecondX64 : ℕ) : Res Whirlpool :=
  if h : index < numRewards then
    return (self.updateRewards rewardInfos timestamp).updateReward ⟨index, h⟩
      fun info => { info with emissionsPerSecondX64 }
  else err .InvalidRewardIndex

/-- The position of the first uninitialized reward. -/
def lowestUninitialized (self : Whirlpool) : Option (Fin numRewards) :=
  (List.finRange numRewards).find? fun i => !(self.rewardInfos i).initialized

/-- `initialize_reward`. -/
def initializeReward (self : Whirlpool) (index : ℕ) (mint vault : Pubkey) : Res Whirlpool :=
  if h : index < numRewards then
    match self.lowestUninitialized with
    | none => err .InvalidRewardIndex
    | some lowestIndex =>
      if lowestIndex ≠ ⟨index, h⟩ then err .InvalidRewardIndex
      else return self.updateReward ⟨index, h⟩ fun info => { info with mint, vault }
  else err .InvalidRewardIndex

/-- `update_after_swap`. The additions to the owed protocol fees are plain ones. -/
def updateAfterSwap (self : Whirlpool) (liquidity : ℕ) (tickIndex : ℤ) (sqrtPrice : ℕ)
    (feeGrowthGlobal : Growth) (rewardInfos : Fin numRewards → WhirlpoolRewardInfo)
    (protocolFee : ℕ) (isTokenFeeInA : Bool) (rewardLastUpdatedTimestamp : ℕ) : Whirlpool :=
  let self :=
    { self with tickCurrentIndex := tickIndex, sqrtPrice, liquidity, rewardInfos,
                rewardLastUpdatedTimestamp }
  if isTokenFeeInA then
    { self with feeGrowthGlobalA := feeGrowthGlobal
                protocolFeeOwedA := wrappingAdd 64 self.protocolFeeOwedA protocolFee }
  else
    { self with feeGrowthGlobalB := feeGrowthGlobal
                protocolFeeOwedB := wrappingAdd 64 self.protocolFeeOwedB protocolFee }

/-- `seeds`. -/
def seeds (self : Whirlpool) : PoolKey :=
  ⟨self.whirlpoolsConfig, self.tokenMintA, self.tokenMintB, self.tickSpacing⟩

/-- `reset_protocol_fees_owed`. -/
def resetProtocolFeesOwed (self : Whirlpool) : Whirlpool :=
  { self with protocolFeeOwedA := 0, protocolFeeOwedB := 0 }

/-- **The inversion of `initialize`**: its checks, one for each branch of the code, and the record
of the new pool. -/
theorem initializeWhirlpool_eq_ok {config authority mintA mintB : Pubkey}
    {protocolRate spacing price rate : ℕ} {w : Whirlpool} :
    initializeWhirlpool config protocolRate authority spacing price rate mintA mintB = .ok w ↔
      mintA < mintB ∧ (minSqrtPriceX64 ≤ price ∧ price ≤ maxSqrtPriceX64) ∧ rate ≤ maxFeeRate ∧
        protocolRate ≤ maxProtocolFeeRate ∧ ∃ tick, tickIndexFromSqrtPrice price = .ok tick ∧
        w = { isEnabled := true, whirlpoolsConfig := config, tickSpacing := spacing,
              feeRate := rate, protocolFeeRate := protocolRate, liquidity := 0,
              sqrtPrice := price, tickCurrentIndex := tick, protocolFeeOwedA := 0,
              protocolFeeOwedB := 0, tokenMintA := mintA, feeGrowthGlobalA := 0,
              tokenMintB := mintB, feeGrowthGlobalB := 0, rewardLastUpdatedTimestamp := 0,
              rewardInfos := fun _ => WhirlpoolRewardInfo.new authority } := by
  unfold initializeWhirlpool updateFeeRate updateProtocolFeeRate
  simp only [ite_err_eq_ok, Res.bind_eq_ok, Res.pure_eq_ok, Except.ok.injEq, not_or, not_lt,
    not_le, gt_iff_lt, ge_iff_le]
  constructor
  · rintro ⟨hmints, hprice, _, ⟨hrate, rfl⟩, _, ⟨hprotocol, rfl⟩, tick, htick, rfl⟩
    exact ⟨hmints, hprice, hrate, hprotocol, tick, htick, rfl⟩
  · rintro ⟨hmints, hprice, hrate, hprotocol, tick, htick, rfl⟩
    exact ⟨hmints, hprice, _, ⟨hrate, rfl⟩, _, ⟨hprotocol, rfl⟩, tick, htick, rfl⟩

/-- A new pool has the seeds and the fee rate that it was created with. -/
lemma initializeWhirlpool_seeds {config authority mintA mintB : Pubkey}
    {protocolRate spacing price rate : ℕ} {w : Whirlpool}
    (h : initializeWhirlpool config protocolRate authority spacing price rate mintA mintB =
      .ok w) :
    w.seeds = ⟨config, mintA, mintB, spacing⟩ ∧ w.feeRate = rate := by
  obtain ⟨-, -, -, -, tick, -, rfl⟩ := initializeWhirlpool_eq_ok.1 h
  exact ⟨rfl, rfl⟩

end Whirlpool

/-! ## Positions -/

/-- `PositionRewardInfo`. -/
structure PositionRewardInfo where
  growthInsideCheckpoint : Growth
  amountOwed : ℕ
  deriving DecidableEq

/-- `Position`. The key of its pool is the pool that the embedding stores it in. -/
structure Position where
  positionMint : Pubkey
  liquidity : ℕ
  tickLowerIndex : ℤ
  tickUpperIndex : ℤ
  feeGrowthCheckpointA : Growth
  feeOwedA : ℕ
  feeGrowthCheckpointB : Growth
  feeOwedB : ℕ
  rewardInfos : Fin numRewards → PositionRewardInfo
  deriving DecidableEq

/-- `PositionUpdate`. -/
structure PositionUpdate where
  liquidity : ℕ
  feeGrowthCheckpointA : Growth
  feeOwedA : ℕ
  feeGrowthCheckpointB : Growth
  feeOwedB : ℕ
  rewardInfos : Fin numRewards → PositionRewardInfo

namespace Position

/-- `Position::default`. -/
def default : Position := ⟨0, 0, 0, 0, 0, 0, 0, 0, fun _ => ⟨0, 0⟩⟩

instance : Inhabited Position := ⟨Position.default⟩

/-- `is_position_empty`. -/
def isPositionEmpty (position : Position) : Bool :=
  let feesNotOwed := decide (position.feeOwedA = 0) && decide (position.feeOwedB = 0)
  let rewardsNotOwed :=
    (List.finRange numRewards).all fun i => decide ((position.rewardInfos i).amountOwed = 0)
  decide (position.liquidity = 0) && feesNotOwed && rewardsNotOwed

/-- `update`. -/
def update (self : Position) (update : PositionUpdate) : Position :=
  { self with
    liquidity := update.liquidity
    feeGrowthCheckpointA := update.feeGrowthCheckpointA
    feeGrowthCheckpointB := update.feeGrowthCheckpointB
    feeOwedA := update.feeOwedA
    feeOwedB := update.feeOwedB
    rewardInfos := update.rewardInfos }

/-- `open_position`. -/
def openPosition (self : Position) (tickSpacing : ℕ) (positionMint : Pubkey)
    (tickLowerIndex tickUpperIndex : ℤ) : Res Position := do
  let lowerUsable ← Tick.checkIsUsableTick tickLowerIndex tickSpacing
  if !lowerUsable then err .InvalidTickIndex
  else do
    let upperUsable ← Tick.checkIsUsableTick tickUpperIndex tickSpacing
    if !upperUsable || decide (tickLowerIndex ≥ tickUpperIndex) then err .InvalidTickIndex
    else return { self with positionMint, tickLowerIndex, tickUpperIndex }

/-- `reset_fees_owed`. -/
def resetFeesOwed (self : Position) : Position := { self with feeOwedA := 0, feeOwedB := 0 }

/-- `update_reward_owed`. An index out of range panics before this is reached. -/
def updateRewardOwed (self : Position) (index : Fin numRewards) (amountOwed : ℕ) : Position :=
  { self with rewardInfos :=
      Function.update self.rewardInfos index { self.rewardInfos index with amountOwed } }

/-- An empty position owes nothing and holds no liquidity. -/
lemma isPositionEmpty_iff (p : Position) : p.isPositionEmpty = true ↔
    p.liquidity = 0 ∧ p.feeOwedA = 0 ∧ p.feeOwedB = 0 ∧
      ∀ i, (p.rewardInfos i).amountOwed = 0 := by
  unfold isPositionEmpty
  simp [and_assoc]

/-- A position is opened on usable ticks, in order.

**Proof sketch.** The three checks of the source are taken apart one after another. -/
theorem openPosition_eq_ok {p q : Position} {ts : ℕ} {m : Pubkey} {lo hi : ℤ} (hts : ts ≠ 0)
    (h : p.openPosition ts m lo hi = .ok q) :
    UsableTick ts lo ∧ UsableTick ts hi ∧ lo < hi ∧
      q = { p with positionMint := m, tickLowerIndex := lo, tickUpperIndex := hi } := by
  unfold openPosition at h
  simp only [Res.bind_eq_ok, Tick.checkIsUsableTick_eq_ok hts] at h
  obtain ⟨_, rfl, h⟩ := h
  rw [ite_err_eq_ok] at h
  obtain ⟨h1, h⟩ := h
  rw [Res.bind_eq_ok] at h
  obtain ⟨_, h2, h⟩ := h
  rw [Tick.checkIsUsableTick_eq_ok hts] at h2
  subst h2
  rw [ite_err_eq_ok, Res.pure_eq_ok, Except.ok.injEq] at h
  obtain ⟨h2, rfl⟩ := h
  simp only [Bool.not_eq_true', decide_eq_false_iff_not, not_not, Bool.or_eq_true,
    decide_eq_true_eq, not_or, not_le] at h1 h2
  exact ⟨h1, h2.1, h2.2, rfl⟩

end Position

end NemoSwap
