import NemoSwap.Pool.Settlement
import NemoSwap.Sdk.BitMath

set_option relaxedAutoImplicit false
set_option autoImplicit false

/-!
# `collect-fees-quote.ts` and `collect-rewards-quote.ts`

The quotes for the fees and rewards that a position has earned, computed by the SDK from the same
accounts, and compared with what the program stores when it updates the position.

## Main definitions

* `NemoSwap.Sdk.collectFeesQuote`, `NemoSwap.Sdk.collectRewardsQuote` — the quotes.
* `NemoSwap.Sdk.NoOverflow` — no product and no owed total of the update leaves its type.

## Main results

* `NemoSwap.Sdk.growthInside_ofGrowth` — the modular subtractions of both sides agree.
* `NemoSwap.Sdk.feeOwedQuote_eq`, `NemoSwap.Sdk.rewardOwedQuote_eq` — one quote against an update.
* `NemoSwap.Sdk.collectQuotes_exact` — the quotes are what the program would credit.
-/

namespace NemoSwap

namespace Sdk

/-- A growth counter of an account, as the SDK decodes it. -/
def ofGrowth (g : Growth) : BN := (g.toNat : ℤ)

/-- `CollectFeesQuote`. -/
structure CollectFeesQuote where
  feeOwedA : BN
  feeOwedB : BN
  deriving DecidableEq

variable (M : MathUtil)

/-- The lines of `collectFeesQuote` for one of the tokens. -/
def feeOwedQuote (tickCurrentIndex tickLowerIndex tickUpperIndex : ℤ) (liquidity feeOwed
    feeGrowthGlobalX64 tickLowerFeeGrowthOutsideX64 tickUpperFeeGrowthOutsideX64
    feeGrowthCheckpointX64 : BN) : BN :=
  let feeGrowthBelowX64 :=
    if tickCurrentIndex < tickLowerIndex then
      M.subUnderflowU128 feeGrowthGlobalX64 tickLowerFeeGrowthOutsideX64
    else tickLowerFeeGrowthOutsideX64
  let feeGrowthAboveX64 :=
    if tickCurrentIndex < tickUpperIndex then tickUpperFeeGrowthOutsideX64
    else M.subUnderflowU128 feeGrowthGlobalX64 tickUpperFeeGrowthOutsideX64
  let feeGrowthInsideX64 :=
    M.subUnderflowU128 (M.subUnderflowU128 feeGrowthGlobalX64 feeGrowthBelowX64) feeGrowthAboveX64
  let feeOwedDelta :=
    BN.shrn (M.subUnderflowU128 feeGrowthInsideX64 feeGrowthCheckpointX64 * liquidity) 64
  feeOwed + feeOwedDelta

/-- `collectFeesQuote`. -/
def collectFeesQuote (whirlpool : Whirlpool) (position : Position) (tickLower tickUpper : Tick) :
    CollectFeesQuote :=
  { feeOwedA := feeOwedQuote M whirlpool.tickCurrentIndex position.tickLowerIndex
      position.tickUpperIndex position.liquidity position.feeOwedA
      (ofGrowth whirlpool.feeGrowthGlobalA) (ofGrowth tickLower.feeGrowthOutsideA)
      (ofGrowth tickUpper.feeGrowthOutsideA) (ofGrowth position.feeGrowthCheckpointA)
    feeOwedB := feeOwedQuote M whirlpool.tickCurrentIndex position.tickLowerIndex
      position.tickUpperIndex position.liquidity position.feeOwedB
      (ofGrowth whirlpool.feeGrowthGlobalB) (ofGrowth tickLower.feeGrowthOutsideB)
      (ofGrowth tickUpper.feeGrowthOutsideB) (ofGrowth position.feeGrowthCheckpointB) }

/-- `PoolUtil.isRewardInitialized`. -/
def isRewardInitialized (rewardInfo : WhirlpoolRewardInfo) : Bool :=
  decide (rewardInfo.mint ≠ 0) && decide (rewardInfo.vault ≠ 0)

/-- The body of the loop of `collectRewardsQuote`, for an initialized reward. -/
def rewardOwedQuote (whirlpool : Whirlpool) (position : Position) (tickLower tickUpper : Tick)
    (timestampDelta : BN) (i : Fin numRewards) : Except SdkError BN := do
  let rewardInfo := whirlpool.rewardInfos i
  let positionRewardInfo := position.rewardInfos i
  let growthGlobalX64 := ofGrowth rewardInfo.growthGlobalX64
  let adjustedRewardGrowthGlobalX64 ← (if whirlpool.liquidity ≠ 0 then do
      let rewardGrowthDelta ← BitMath.mulDiv timestampDelta rewardInfo.emissionsPerSecondX64
        whirlpool.liquidity 128
      return growthGlobalX64 + rewardGrowthDelta
    else return growthGlobalX64)
  let tickLowerRewardGrowthsOutsideX64 := ofGrowth (tickLower.rewardGrowthsOutside i)
  let tickUpperRewardGrowthsOutsideX64 := ofGrowth (tickUpper.rewardGrowthsOutside i)
  let rewardGrowthsBelowX64 :=
    if tickLower.initialized then
      if whirlpool.tickCurrentIndex < position.tickLowerIndex then
        M.subUnderflowU128 adjustedRewardGrowthGlobalX64 tickLowerRewardGrowthsOutsideX64
      else tickLowerRewardGrowthsOutsideX64
    else adjustedRewardGrowthGlobalX64
  let rewardGrowthsAboveX64 :=
    if tickUpper.initialized then
      if whirlpool.tickCurrentIndex < position.tickUpperIndex then
        tickUpperRewardGrowthsOutsideX64
      else M.subUnderflowU128 adjustedRewardGrowthGlobalX64 tickUpperRewardGrowthsOutsideX64
    else 0
  let rewardGrowthInsideX64 :=
    M.subUnderflowU128 (M.subUnderflowU128 adjustedRewardGrowthGlobalX64 rewardGrowthsBelowX64)
      rewardGrowthsAboveX64
  let amountOwedX64 := BN.shln positionRewardInfo.amountOwed 64
  return BN.shrn (amountOwedX64 + M.subUnderflowU128 rewardGrowthInsideX64
    (ofGrowth positionRewardInfo.growthInsideCheckpoint) * position.liquidity) 64

/-- One turn of the loop of `collectRewardsQuote`, which skips rewards that are not
initialized. -/
def rewardQuote (whirlpool : Whirlpool) (position : Position) (tickLower tickUpper : Tick)
    (timestampDelta : BN) (i : Fin numRewards) : Except SdkError (Option BN) :=
  if isRewardInitialized (whirlpool.rewardInfos i) then do
    let owed ← rewardOwedQuote M whirlpool position tickLower tickUpper timestampDelta i
    return some owed
  else return none

/-- `collectRewardsQuote`, at a given time. -/
def collectRewardsQuote (whirlpool : Whirlpool) (position : Position) (tickLower tickUpper : Tick)
    (timeStampInSeconds : BN) : Except SdkError (Fin numRewards → Option BN) := do
  let timestampDelta := timeStampInSeconds - whirlpool.rewardLastUpdatedTimestamp
  let owed0 ← rewardQuote M whirlpool position tickLower tickUpper timestampDelta 0
  let owed1 ← rewardQuote M whirlpool position tickLower tickUpper timestampDelta 1
  let owed2 ← rewardQuote M whirlpool position tickLower tickUpper timestampDelta 2
  return ![owed0, owed1, owed2]

/-! ## Growth inside a range -/

/-- `subUnderflowU128` subtracts modulo `2 ^ 128`. -/
def MathUtil.SubWraps (M : MathUtil) : Prop :=
  ∀ a b : BN, 0 ≤ a → 0 ≤ b → b < 2 ^ 128 → M.subUnderflowU128 a b = (a - b) % 2 ^ 128

variable {M} {w : Whirlpool} {position : Position} {tickLower tickUpper : Tick} {timestamp : ℕ}

/-- A growth is read as a number of 128 bits. -/
lemma ofGrowth_bounds (g : Growth) : 0 ≤ ofGrowth g ∧ ofGrowth g < 2 ^ 128 :=
  ⟨Int.natCast_nonneg _, by unfold ofGrowth; exact_mod_cast g.isLt⟩

/-- Such a number is its own remainder. -/
lemma ofGrowth_mod (g : Growth) : ofGrowth g % 2 ^ 128 = ofGrowth g :=
  Int.emod_eq_of_lt (ofGrowth_bounds g).1 (ofGrowth_bounds g).2

/-- Differences modulo `2 ^ 128` are differences of counters. -/
lemma sub_mod_growth {x : ℤ} {g : Growth} (h : Growth) (hx : x % 2 ^ 128 = (g.toNat : ℤ)) :
    (x - h.toNat) % 2 ^ 128 = ((g - h).toNat : ℤ) := by
  have hg := g.isLt
  have hh := h.isLt
  rw [BitVec.toNat_sub]
  omega

/-- Adding an amount that is not wrapped stands for the wrapped sum. -/
lemma add_mod_growth (g : Growth) (n : ℕ) :
    (ofGrowth g + n) % 2 ^ 128 = ofGrowth (g + BitVec.ofNat 128 n) := by
  unfold ofGrowth
  rw [BitVec.toNat_add, BitVec.toNat_ofNat, Nat.add_mod_mod, Int.natCast_mod, Nat.cast_add]
  rfl

/-- An integer that stands for a wrapped counter, less a counter, is their wrapped difference. -/
lemma subUnderflowU128_ofGrowth (hM : M.SubWraps) {x : BN} {g : Growth} (h : Growth)
    (hx0 : 0 ≤ x) (hx : x % 2 ^ 128 = ofGrowth g) :
    M.subUnderflowU128 x (ofGrowth h) = ofGrowth (g - h) := by
  obtain ⟨h0, hlt⟩ := ofGrowth_bounds h
  rw [hM x _ hx0 h0 hlt]
  exact sub_mod_growth h hx

/-- **The growth inside a range with initialized ticks**, from any integer that stands for the
global counter. -/
theorem growthInside_ofGrowth (hM : M.SubWraps) {x : BN} {g : Growth} (lower upper : Growth)
    (c tl tu : ℤ) (hx0 : 0 ≤ x) (hx : x % 2 ^ 128 = ofGrowth g) :
    M.subUnderflowU128 (M.subUnderflowU128 x
        (if c < tl then M.subUnderflowU128 x (ofGrowth lower) else ofGrowth lower))
      (if c < tu then ofGrowth upper else M.subUnderflowU128 x (ofGrowth upper)) =
    ofGrowth (growthInside c true tl true tu g lower upper) := by
  have hbelow : (if c < tl then ofGrowth (g - lower) else ofGrowth lower) =
      ofGrowth (if c < tl then g - lower else lower) := (apply_ite ofGrowth _ _ _).symm
  have habove : (if c < tu then ofGrowth upper else ofGrowth (g - upper)) =
      ofGrowth (if c < tu then upper else g - upper) := (apply_ite ofGrowth _ _ _).symm
  rw [subUnderflowU128_ofGrowth hM lower hx0 hx, subUnderflowU128_ofGrowth hM upper hx0 hx, hbelow,
    habove, subUnderflowU128_ofGrowth hM _ hx0 hx,
    subUnderflowU128_ofGrowth hM _ (ofGrowth_bounds _).1 (ofGrowth_mod _)]
  rfl

/-- What the SDK adds to an owed amount is what the program adds, if the product fits. -/
lemma shrn_growthDelta {l : ℕ} {delta : Growth} (h : l * delta.toNat < 2 ^ 128) :
    BN.shrn (ofGrowth delta * l) 64 = (owedDelta l delta : ℕ) := by
  rw [(owedDelta_of_lt h).2]
  unfold BN.shrn ofGrowth
  rw [mul_comm l]
  push_cast
  rfl

/-! ## Quotes and updates -/

/-- No product of the update at the given time reaches `2 ^ 128`, and no owed total `2 ^ 64`. -/
structure NoOverflow (w : Whirlpool) (position : Position) (timestamp : ℕ)
    (update : PositionUpdate) : Prop where
  emissions : ∀ i, (w.rewardInfos i).initialized = true →
    (timestamp - w.rewardLastUpdatedTimestamp) *
      (w.rewardInfos i).emissionsPerSecondX64 < 2 ^ 128
  feeA : position.liquidity *
    (update.feeGrowthCheckpointA - position.feeGrowthCheckpointA).toNat < 2 ^ 128
  feeB : position.liquidity *
    (update.feeGrowthCheckpointB - position.feeGrowthCheckpointB).toNat < 2 ^ 128
  reward : ∀ i, (w.rewardInfos i).initialized = true →
    position.liquidity * ((update.rewardInfos i).growthInsideCheckpoint -
      (position.rewardInfos i).growthInsideCheckpoint).toNat < 2 ^ 128
  owedA : position.feeOwedA + owedDelta position.liquidity
    (update.feeGrowthCheckpointA - position.feeGrowthCheckpointA) < 2 ^ 64
  owedB : position.feeOwedB + owedDelta position.liquidity
    (update.feeGrowthCheckpointB - position.feeGrowthCheckpointB) < 2 ^ 64
  rewardOwed : ∀ i, (w.rewardInfos i).initialized = true →
    (position.rewardInfos i).amountOwed + owedDelta position.liquidity
      ((update.rewardInfos i).growthInsideCheckpoint -
        (position.rewardInfos i).growthInsideCheckpoint) < 2 ^ 64

/-- The fee of one token against an update. -/
theorem feeOwedQuote_eq (hM : M.SubWraps) {c tl tu : ℤ} {l owed : ℕ}
    {g lower upper checkpoint : Growth}
    (hmul : l * (growthInside c true tl true tu g lower upper - checkpoint).toNat < 2 ^ 128)
    (howed : owed + owedDelta l (growthInside c true tl true tu g lower upper - checkpoint) <
      2 ^ 64) :
    feeOwedQuote M c tl tu l owed (ofGrowth g) (ofGrowth lower) (ofGrowth upper)
        (ofGrowth checkpoint) =
      (wrappingAdd 64 owed
        (owedDelta l (growthInside c true tl true tu g lower upper - checkpoint)) : ℕ) := by
  unfold feeOwedQuote
  simp only
  rw [growthInside_ofGrowth hM lower upper c tl tu (ofGrowth_bounds g).1 (ofGrowth_mod g),
    subUnderflowU128_ofGrowth hM _ (ofGrowth_bounds _).1 (ofGrowth_mod _), shrn_growthDelta hmul,
    wrappingAdd_of_lt howed, Nat.cast_add]

/-- The global counter of a reward at a later time, as an integer that the SDK does not wrap.

**Proof sketch.** Without liquidity or at the time of the last update neither of them adds anything.
Otherwise both add the same quotient; the program wraps the sum at `2 ^ 128`. -/
lemma adjustedRewardGrowth_eq {infos : Fin numRewards → WhirlpoolRewardInfo} {i : Fin numRewards}
    (hinit : (w.rewardInfos i).initialized = true)
    (hmul : (timestamp - w.rewardLastUpdatedTimestamp) *
      (w.rewardInfos i).emissionsPerSecondX64 < 2 ^ 128)
    (ht : w.rewardLastUpdatedTimestamp ≤ timestamp)
    (hinfos : nextWhirlpoolRewardInfos w timestamp = .ok infos) :
    ∃ x : BN, (if w.liquidity ≠ 0 then do
        let rewardGrowthDelta ← BitMath.mulDiv ((timestamp : ℤ) - w.rewardLastUpdatedTimestamp)
          (w.rewardInfos i).emissionsPerSecondX64 w.liquidity 128
        return ofGrowth (w.rewardInfos i).growthGlobalX64 + rewardGrowthDelta
      else return ofGrowth (w.rewardInfos i).growthGlobalX64 : Except SdkError BN) = .ok x ∧
      0 ≤ x ∧ x % 2 ^ 128 = ofGrowth (infos i).growthGlobalX64 := by
  have hcast : ((timestamp : ℤ) - w.rewardLastUpdatedTimestamp) =
      ((timestamp - w.rewardLastUpdatedTimestamp : ℕ) : ℤ) := (Nat.cast_sub ht).symm
  unfold nextWhirlpoolRewardInfos at hinfos
  simp only at hinfos
  rw [if_neg (not_lt.2 ht)] at hinfos
  rcases eq_or_ne w.liquidity 0 with hl | hl
  · rw [if_pos (Or.inl hl), Except.ok.injEq] at hinfos
    rw [if_neg (not_not.2 hl), ← hinfos]
    exact ⟨_, rfl, (ofGrowth_bounds _).1, ofGrowth_mod _⟩
  · rw [if_pos hl, hcast, BitMath.mulDiv_natCast hl hmul]
    refine ⟨_, rfl, add_nonneg (ofGrowth_bounds _).1 (Int.natCast_nonneg _), ?_⟩
    rcases eq_or_ne timestamp w.rewardLastUpdatedTimestamp with he | hne
    · -- no time has passed
      rw [if_pos (Or.inr he), Except.ok.injEq] at hinfos
      rw [← hinfos, he, Nat.sub_self, zero_mul, Nat.zero_div, Nat.cast_zero, add_zero]
      exact ofGrowth_mod _
    · rw [if_neg (by tauto), Except.ok.injEq] at hinfos
      have hdelta : rewardGrowthDelta (timestamp - w.rewardLastUpdatedTimestamp)
          (w.rewardInfos i).emissionsPerSecondX64 w.liquidity =
          (timestamp - w.rewardLastUpdatedTimestamp) *
            (w.rewardInfos i).emissionsPerSecondX64 / w.liquidity := by
        have hok : checkedMulDiv (timestamp - w.rewardLastUpdatedTimestamp)
            (w.rewardInfos i).emissionsPerSecondX64 w.liquidity =
            .ok ((timestamp - w.rewardLastUpdatedTimestamp) *
              (w.rewardInfos i).emissionsPerSecondX64 / w.liquidity) :=
          checkedMulDivRoundUpIf_eq_ok.2 ⟨hl, hmul, roundDiv_false _ _⟩
        unfold rewardGrowthDelta
        rw [hok]
      rw [← hinfos]
      simp only [hinit, Bool.not_true, Bool.false_eq_true, if_false, hdelta]
      exact add_mod_growth _ _

/-- The quote for an initialized reward against an update. -/
theorem rewardOwedQuote_eq (hM : M.SubWraps) {infos : Fin numRewards → WhirlpoolRewardInfo}
    {i : Fin numRewards} {inside : Growth} (hlower : tickLower.initialized = true)
    (hupper : tickUpper.initialized = true) (hinit : (w.rewardInfos i).initialized = true)
    (hmul : (timestamp - w.rewardLastUpdatedTimestamp) *
      (w.rewardInfos i).emissionsPerSecondX64 < 2 ^ 128)
    (ht : w.rewardLastUpdatedTimestamp ≤ timestamp)
    (hinfos : nextWhirlpoolRewardInfos w timestamp = .ok infos)
    (hinside : inside = growthInside w.tickCurrentIndex true position.tickLowerIndex true
      position.tickUpperIndex (infos i).growthGlobalX64 (tickLower.rewardGrowthsOutside i)
      (tickUpper.rewardGrowthsOutside i))
    (hmul' : position.liquidity *
      (inside - (position.rewardInfos i).growthInsideCheckpoint).toNat < 2 ^ 128)
    (howed : (position.rewardInfos i).amountOwed + owedDelta position.liquidity
      (inside - (position.rewardInfos i).growthInsideCheckpoint) < 2 ^ 64) :
    rewardOwedQuote M w position tickLower tickUpper
        ((timestamp : ℤ) - w.rewardLastUpdatedTimestamp) i =
      .ok (wrappingAdd 64 (position.rewardInfos i).amountOwed (owedDelta position.liquidity
        (inside - (position.rewardInfos i).growthInsideCheckpoint)) : ℕ) := by
  obtain ⟨x, hx, hx0, hmod⟩ := adjustedRewardGrowth_eq hinit hmul ht hinfos
  unfold rewardOwedQuote
  simp only [hlower, hupper, if_true]
  rw [hx, ok_bind, growthInside_ofGrowth hM _ _ _ _ _ hx0 hmod, ← hinside,
    subUnderflowU128_ofGrowth hM _ (ofGrowth_bounds _).1 (ofGrowth_mod _),
    wrappingAdd_of_lt howed, Nat.cast_add, ← shrn_growthDelta hmul']
  refine congrArg Except.ok ?_
  unfold BN.shrn BN.shln
  exact Int.mul_add_ediv_right _ _ (by norm_num)

/-- The turns of the loop, put together. -/
lemma collectRewardsQuote_eq {owed : Fin numRewards → Option BN}
    (h : ∀ i, rewardQuote M w position tickLower tickUpper
      ((timestamp : ℤ) - w.rewardLastUpdatedTimestamp) i = .ok (owed i)) :
    collectRewardsQuote M w position tickLower tickUpper timestamp = .ok owed := by
  unfold collectRewardsQuote
  simp only [h, ok_bind]
  refine congrArg Except.ok (funext fun i => ?_)
  fin_cases i <;> rfl

/-- **The quotes are what the program would credit**: the fees owed, and the amount owed of each
initialized reward, that an update at the same time without a change of liquidity stores.

**Proof sketch.** The update of the program succeeds, and stores the growth and the credit as
formulas in the state. The fees of the SDK are the same formula with the differences reduced, and by
`adjustedRewardGrowth_eq` so are the rewards of each slot. -/
theorem collectQuotes_exact (hM : M.SubWraps) (hl : 0 < position.liquidity)
    (hlower : tickLower.initialized = true) (hupper : tickUpper.initialized = true)
    (ht : w.rewardLastUpdatedTimestamp ≤ timestamp) :
    ∃ update, calculateModifyLiquidity' w position tickLower tickUpper position.tickLowerIndex
        position.tickUpperIndex 0 timestamp = .ok update ∧
      (NoOverflow w position timestamp update.positionUpdate →
        collectFeesQuote M w position tickLower tickUpper =
          ⟨update.positionUpdate.feeOwedA, update.positionUpdate.feeOwedB⟩ ∧
        collectRewardsQuote M w position tickLower tickUpper timestamp =
          .ok fun i => if isRewardInitialized (w.rewardInfos i) then
            some ((update.positionUpdate.rewardInfos i).amountOwed : ℤ) else none) := by
  obtain ⟨infos, update, hinfos, hupdate, hcalc⟩ :=
    @calculateModifyLiquidity_zero w position tickLower tickUpper timestamp hl ht
  refine ⟨_, hcalc, fun hno => ?_⟩
  unfold nextPositionModifyLiquidityUpdate at hupdate
  rw [show addLiquidityDelta position.liquidity 0 = .ok position.liquidity from rfl, Res.ok_bind,
    Res.pure_eq_ok, Except.ok.injEq] at hupdate
  subst hupdate
  unfold nextFeeGrowthsInside at hno ⊢
  rw [hlower, hupper] at hno ⊢
  refine ⟨?_, collectRewardsQuote_eq fun i => ?_⟩
  · unfold collectFeesQuote
    rw [feeOwedQuote_eq hM hno.feeA hno.owedA, feeOwedQuote_eq hM hno.feeB hno.owedB]
  · unfold rewardQuote
    rcases hsdk : isRewardInitialized (w.rewardInfos i) with _ | _
    · rfl
    · -- the SDK also asks for a vault, the program for the mint only
      have hinit : (w.rewardInfos i).initialized = true := by
        unfold isRewardInitialized at hsdk
        exact (Bool.and_eq_true_iff.1 hsdk).1
      have hinside : nextRewardGrowthsInside w.tickCurrentIndex tickLower position.tickLowerIndex
          tickUpper position.tickUpperIndex infos i = growthInside w.tickCurrentIndex true
            position.tickLowerIndex true position.tickUpperIndex (infos i).growthGlobalX64
            (tickLower.rewardGrowthsOutside i) (tickUpper.rewardGrowthsOutside i) := by
        unfold nextRewardGrowthsInside
        rw [((nextWhirlpoolRewardInfos_eq_ok hinfos).2 i).1, hinit, hlower, hupper]
        rfl
      rw [if_pos rfl, rewardOwedQuote_eq hM hlower hupper hinit (hno.emissions i hinit) ht hinfos
        hinside (hno.reward i hinit) (hno.rewardOwed i hinit)]
      rfl

/-- The documented `subUnderflowU128` subtracts modulo `2 ^ 128`. -/
lemma documented_subWraps : MathUtil.documented.SubWraps := fun a b _ _ _ => by
  have hmod : ∀ x y : ℤ, (x + 2 ^ 128 - y) % 2 ^ 128 = (x - y) % 2 ^ 128 := fun x y => by omega
  exact hmod a b

/-- A pool with one reward of one unit a second, whose fee counter for token A has wrapped. -/
def sampleWhirlpool : Whirlpool :=
  ⟨true, 1, 64, 3000, 300, 1000, 2 ^ 64, 0, 0, 0, 1, 5, 2, 0, 10,
    fun i => if i = 0 then ⟨3, 4, 5, 2 ^ 64, 0⟩ else .new 5⟩

/-- A position around its price, with a unit of growth since its checkpoint. -/
def samplePosition : Position :=
  ⟨1, 1000, -64, 64, 2 ^ 128 - 2 ^ 64, 7, 0, 0, fun _ => ⟨0, 0⟩⟩

/-- An initialized tick without growth outside. -/
def sampleTick : Tick := { Tick.default with initialized := true }

/-- Over a hundred seconds the position earns the reward, rounded down, and the wrapped fee. -/
theorem collectQuotes_exact_sample :
    collectFeesQuote .documented sampleWhirlpool samplePosition sampleTick sampleTick =
        ⟨1007, 0⟩ ∧
      collectRewardsQuote .documented sampleWhirlpool samplePosition sampleTick sampleTick 110 =
        .ok ![some 99, none, none] := by
  obtain ⟨update, hcalc, hquote⟩ := @collectQuotes_exact _ sampleWhirlpool samplePosition sampleTick
    sampleTick 110 documented_subWraps (by decide) rfl rfl (by decide)
  obtain rfl := Except.ok.inj hcalc
  obtain ⟨hfees, hrewards⟩ := hquote ⟨by decide +kernel, by decide +kernel, by decide +kernel,
    by decide +kernel, by decide +kernel, by decide +kernel, by decide +kernel⟩
  refine ⟨hfees.trans ?_, hrewards.trans (congrArg Except.ok (funext fun i => ?_))⟩
  · decide +kernel
  · fin_cases i <;> decide +kernel

end Sdk

end NemoSwap
