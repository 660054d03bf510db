import NemoSwap.Pool.History
import NemoSwap.Pool.Trade

set_option relaxedAutoImplicit false
set_option autoImplicit false

/-!
# The market of a pool

The market of a pool is what trades and changes of liquidity move: its price, its tick index, its
liquidity, the liquidity of its ticks, its positions and their liquidity. All other instructions
leave the market as it is, and those that move it on their own account ask first whether the pool
is enabled.

## Main definitions

* `NemoSwap.Market`, `NemoSwap.Pool.market` — the market of a pool.
* `NemoSwap.PoolOp.trades` — the instructions that may move it.
* `NemoSwap.Pool.Kept` — the market, the seeds and the flag of a pool are unchanged.

## Main results

* `NemoSwap.Pool.step_kept` — what the instructions that do not trade keep.
* `NemoSwap.Pool.step_seeds`, `NemoSwap.Pool.run_seeds` — no instruction and no run changes the
  seeds of a pool.
* `NemoSwap.Pool.step_disabled` — in a disabled pool the instructions that trade fail, apart from a
  leg of `two_hop_swap`.
-/

namespace NemoSwap

/-- What trades and changes of liquidity move. -/
structure Market where
  sqrtPrice : ℕ
  tickCurrentIndex : ℤ
  liquidity : ℕ
  /-- The gross and net liquidity of the ticks, by start index and offset of their array. -/
  tickLiquidity : ℤ → Fin tickArraySize → ℕ × ℤ
  positions : Finset Pubkey
  positionLiquidity : Pubkey → ℕ

namespace Pool

/-- The gross and net liquidity of a tick. A tick without an account has none. -/
def tickLiquidity (pool : Pool) (start : ℤ) (offset : Fin tickArraySize) : ℕ × ℤ :=
  match pool.tickArrays start with
  | some array => ((array.ticks offset).liquidityGross, (array.ticks offset).liquidityNet)
  | none => (0, 0)

/-- The market of a pool. -/
def market (pool : Pool) : Market :=
  { sqrtPrice := pool.whirlpool.sqrtPrice
    tickCurrentIndex := pool.whirlpool.tickCurrentIndex
    liquidity := pool.whirlpool.liquidity
    tickLiquidity := pool.tickLiquidity
    positions := pool.positions
    positionLiquidity := fun key => (pool.position key).liquidity }

end Pool

/-- The instructions that may move the market. -/
def PoolOp.trades : PoolOp → Bool
  | .openPosition .. => true
  | .closePosition .. => true
  | .increaseLiquidity .. => true
  | .decreaseLiquidity .. => true
  | .swap .. => true
  | .twoHopLeg .. => true
  | _ => false

namespace Pool

/-- An instruction that leaves the market, the seeds and the flag alone. -/
structure Kept (pool pool' : Pool) : Prop where
  market : pool'.market = pool.market
  seeds : pool'.whirlpool.seeds = pool.whirlpool.seeds
  isEnabled : pool'.whirlpool.isEnabled = pool.whirlpool.isEnabled
  /-- With a tick spacing of zero no tick array is created. -/
  noArrays : pool.whirlpool.tickSpacing = 0 → (∀ s, pool.tickArrays s = none) →
    ∀ s, pool'.tickArrays s = none

variable {pool pool' : Pool} {key : Pubkey}

/-! ## What is kept -/

/-- A change of a position that keeps its liquidity. -/
lemma market_setPosition {position : Position}
    (h : position.liquidity = (pool.position key).liquidity) :
    (pool.setPosition key position).market = pool.market := by
  unfold market
  congr 1
  funext k
  rcases eq_or_ne k key with rfl | hne
  · rw [setPosition_self, h]
  · rw [setPosition_of_ne _ _ hne]

/-- A change of rewards keeps the market. -/
lemma market_setPosition_record {position : Position}
    (h : position.liquidity = (pool.position key).liquidity)
    (infos : Fin numRewards → WhirlpoolRewardInfo) (timestamp : ℕ) :
    { (pool.setPosition key position) with
        whirlpool := pool.whirlpool.updateRewards infos timestamp }.market = pool.market :=
  market_setPosition h

/-- `update_fees_and_rewards` changes what a position is owed, not its liquidity. -/
lemma updateFeesAndRewards_kept {arrayLower arrayUpper : ℤ} {clock : Int64}
    (h : pool.updateFeesAndRewards key arrayLower arrayUpper clock = .ok pool') :
    pool.Kept pool' := by
  unfold updateFeesAndRewards calculateFeeAndRewardGrowths calculateModifyLiquidity
    calculateModifyLiquidity' nextPositionModifyLiquidityUpdate at h
  simp only [Res.bind_eq_ok, ite_err_eq_ok, Res.pure_eq_ok, Except.ok.injEq] at h
  obtain ⟨position, hp, _, -, _, -, _, -, _, ⟨update, hupdate, rfl⟩, rfl⟩ := h
  obtain ⟨_, -, _, -, -, _, -, _, -, _, -, _, -, _, ⟨l, hl, rfl⟩, rfl⟩ := hupdate
  have hl' : l = position.liquidity := by
    have := addLiquidityDelta_eq_ok hl
    omega
  rw [(getPosition_eq_ok hp).2] at hl'
  exact ⟨market_setPosition_record hl' _ _, rfl, rfl, fun _ h => h⟩

/-- `collect_fees` keeps the market. -/
lemma collectFees_kept {auth : PositionAuthority} {funds : OwnerFunds}
    (h : pool.collectFees key auth funds = .ok pool') : pool.Kept pool' := by
  unfold collectFees at h
  simp only [Res.bind_eq_ok, Res.pure_eq_ok, Except.ok.injEq] at h
  obtain ⟨position, hp, _, -, _, -, rfl⟩ := h
  obtain ⟨-, rfl⟩ := getOwnedPosition_eq_ok hp
  have hm : (pool.setPosition key (pool.position key).resetFeesOwed).market = pool.market :=
    market_setPosition rfl
  exact ⟨hm, rfl, rfl, fun _ h => h⟩

/-- `collect_protocol_fees` keeps the market. -/
lemma collectProtocolFees_kept {funds : OwnerFunds}
    (h : pool.collectProtocolFees funds = .ok pool') : pool.Kept pool' := by
  unfold collectProtocolFees at h
  simp only [Res.bind_eq_ok, Res.pure_eq_ok, Except.ok.injEq] at h
  obtain ⟨_, -, _, -, rfl⟩ := h
  exact ⟨rfl, rfl, rfl, fun _ h => h⟩

/-- `collect_reward` keeps the market. -/
lemma collectReward_kept {auth : PositionAuthority} {index : ℕ}
    {rewardVault rewardOwner : UInt64}
    (h : pool.collectReward key auth index rewardVault rewardOwner = .ok pool') :
    pool.Kept pool' := by
  unfold collectReward at h
  rw [Res.bind_eq_ok] at h
  obtain ⟨position, hp, h⟩ := h
  obtain ⟨-, rfl⟩ := getOwnedPosition_eq_ok hp
  split_ifs at h
  simp only [Res.bind_eq_ok, Res.pure_eq_ok, Except.ok.injEq] at h
  obtain ⟨_, -, rfl⟩ := h
  exact ⟨market_setPosition rfl, rfl, rfl, fun _ h => h⟩

/-- A new tick array adds ticks without liquidity.

**Proof sketch.** There was no array at its start, so the ticks in it were not initialized, and
neither are the new ones. -/
lemma initializeTickArray_kept {start : ℤ} (h : pool.initializeTickArray start = .ok pool') :
    pool.Kept pool' := by
  unfold initializeTickArray TickArray.initializeArray at h
  rw [ite_error_eq_ok] at h
  simp only [Res.bind_eq_ok, ite_err_eq_ok, Res.pure_eq_ok, Except.ok.injEq] at h
  obtain ⟨hnone, _, ⟨valid, hstart, hvalid, rfl⟩, rfl⟩ := h
  rw [Option.not_isSome_iff_eq_none] at hnone
  have hts : pool.whirlpool.tickSpacing ≠ 0 := by
    rw [Bool.not_eq_true', Bool.not_eq_false] at hvalid
    exact (Tick.checkIsValidStartTick_dvd (hvalid ▸ hstart)).1
  refine ⟨?_, rfl, rfl, fun h0 => absurd h0 hts⟩
  unfold market
  congr 1
  funext s i
  unfold tickLiquidity setTickArray
  rcases eq_or_ne s start with rfl | hne
  · dsimp only
    rw [Function.update_self, hnone]
    rfl
  · dsimp only
    rw [Function.update_of_ne hne]

/-- `set_fee_rate` keeps the market. -/
lemma setFeeRate_kept {feeRate : ℕ} (h : pool.setFeeRate feeRate = .ok pool') :
    pool.Kept pool' := by
  unfold setFeeRate Whirlpool.updateFeeRate at h
  simp only [Res.bind_eq_ok, ite_err_eq_ok, Res.pure_eq_ok, Except.ok.injEq] at h
  obtain ⟨_, ⟨-, rfl⟩, rfl⟩ := h
  exact ⟨rfl, rfl, rfl, fun _ h => h⟩

/-- `set_protocol_fee_rate` keeps the market. -/
lemma setProtocolFeeRate_kept {protocolFeeRate : ℕ}
    (h : pool.setProtocolFeeRate protocolFeeRate = .ok pool') : pool.Kept pool' := by
  unfold setProtocolFeeRate Whirlpool.updateProtocolFeeRate at h
  simp only [Res.bind_eq_ok, ite_err_eq_ok, Res.pure_eq_ok, Except.ok.injEq] at h
  obtain ⟨_, ⟨-, rfl⟩, rfl⟩ := h
  exact ⟨rfl, rfl, rfl, fun _ h => h⟩

/-- `initialize_reward` keeps the market. -/
lemma initializeReward_kept {index : ℕ} {mint vault : Pubkey}
    (h : pool.initializeReward index mint vault = .ok pool') : pool.Kept pool' := by
  unfold Pool.initializeReward Whirlpool.initializeReward at h
  simp only [Res.bind_eq_ok, Res.pure_eq_ok, Except.ok.injEq] at h
  obtain ⟨w, hw, rfl⟩ := h
  split_ifs at hw with hi
  · split at hw
    · simp at hw
    · rw [ite_err_eq_ok, Except.ok.injEq] at hw
      obtain ⟨-, rfl⟩ := hw
      exact ⟨rfl, rfl, rfl, fun _ h => h⟩
  · simp at hw

/-- `set_reward_authority` keeps the market. -/
lemma setRewardAuthority_kept {index : ℕ} {authority : Pubkey}
    (h : pool.setRewardAuthority index authority = .ok pool') : pool.Kept pool' := by
  unfold setRewardAuthority Whirlpool.updateRewardAuthority at h
  simp only [Res.bind_eq_ok, Res.pure_eq_ok, Except.ok.injEq] at h
  obtain ⟨w, hw, rfl⟩ := h
  split_ifs at hw with hi
  · cases hw
    exact ⟨rfl, rfl, rfl, fun _ h => h⟩
  · simp at hw

/-- `set_reward_emissions` keeps the market. -/
lemma setRewardEmissions_kept {index : ℕ} {emissions : BitVec 128} {rewardVault : UInt64}
    {clock : Int64} (h : pool.setRewardEmissions index emissions rewardVault clock = .ok pool') :
    pool.Kept pool' := by
  unfold setRewardEmissions Whirlpool.updateEmissions at h
  split_ifs at h with hi
  simp only [Res.bind_eq_ok, ite_err_eq_ok, Res.pure_eq_ok, Except.ok.injEq] at h
  obtain ⟨_, -, -, _, -, _, -, _, rfl, rfl⟩ := h
  exact ⟨rfl, rfl, rfl, fun _ h => h⟩

/-- **What the instructions that do not trade keep.**

**Proof sketch.** One case for each instruction, with the lemma about it. -/
theorem step_kept {op : PoolOp} (htrades : op.trades = false) (hflag : ∀ b, op ≠ .setEnableFlag b)
    (h : pool.step op = .ok pool') : pool.Kept pool' := by
  cases op with
  | openPosition => cases htrades
  | closePosition => cases htrades
  | increaseLiquidity => cases htrades
  | decreaseLiquidity => cases htrades
  | swap => cases htrades
  | twoHopLeg => cases htrades
  | updateFeesAndRewards => exact updateFeesAndRewards_kept h
  | collectFees => exact collectFees_kept h
  | collectProtocolFees => exact collectProtocolFees_kept h
  | collectReward => exact collectReward_kept h
  | initializeTickArray => exact initializeTickArray_kept h
  | setFeeRate => exact setFeeRate_kept h
  | setProtocolFeeRate => exact setProtocolFeeRate_kept h
  | setEnableFlag b => exact absurd rfl (hflag b)
  | initializeReward => exact initializeReward_kept h
  | setRewardEmissions => exact setRewardEmissions_kept h
  | setRewardAuthority => exact setRewardAuthority_kept h

/-! ## The seeds -/

/-- `open_position` keeps the seeds. -/
lemma openPosition_seeds {mint : Pubkey} {lo hi : ℤ}
    (h : pool.openPosition key mint lo hi = .ok pool') :
    pool'.whirlpool.seeds = pool.whirlpool.seeds := by
  unfold openPosition at h
  rw [ite_error_eq_ok] at h
  simp only [Res.bind_eq_ok, Res.pure_eq_ok, Except.ok.injEq] at h
  obtain ⟨-, _, -, _, -, rfl⟩ := h
  rfl

/-- `close_position` keeps the seeds. -/
lemma closePosition_seeds {auth : PositionAuthority}
    (h : pool.closePosition key auth = .ok pool') :
    pool'.whirlpool.seeds = pool.whirlpool.seeds := by
  obtain ⟨_, -, -, -, -, rfl⟩ := closePosition_eq_ok.1 h
  rfl

/-- A change of liquidity keeps the seeds. -/
lemma modifyLiquidity_seeds {auth : PositionAuthority} {lo hi : ℤ} {amount : BitVec 128}
    {positive : Bool} {clock : Int64} {a b : ℕ}
    (h : pool.modifyLiquidity key auth lo hi amount positive clock = .ok (pool', a, b)) :
    pool'.whirlpool.seeds = pool.whirlpool.seeds := by
  unfold modifyLiquidity syncModifyLiquidityValues at h
  simp only [Res.bind_eq_ok, ite_err_eq_ok, Res.pure_eq_ok, Except.ok.injEq, Prod.mk.injEq] at h
  obtain ⟨_, -, _, -, _, -, _, -, -, _, -, _, -, _, -, _, ⟨_, -, _, -, _, -, _, -, rfl⟩, _, -,
    rfl, -, -⟩ := h
  rfl

/-- `increase_liquidity` keeps the seeds. -/
lemma increaseLiquidity_seeds {auth : PositionAuthority} {lo hi : ℤ} {amount : BitVec 128}
    {maxA maxB : UInt64} {clock : Int64} {funds : OwnerFunds}
    (h : pool.increaseLiquidity key auth lo hi amount maxA maxB clock funds = .ok pool') :
    pool'.whirlpool.seeds = pool.whirlpool.seeds := by
  unfold increaseLiquidity at h
  simp only [Res.bind_eq_ok, ite_err_eq_ok, Res.pure_eq_ok, Except.ok.injEq, Prod.exists] at h
  obtain ⟨_, _, _, hm, -, -, _, -, _, -, rfl⟩ := h
  have hseeds := modifyLiquidity_seeds hm
  exact hseeds

/-- `decrease_liquidity` keeps the seeds. -/
lemma decreaseLiquidity_seeds {auth : PositionAuthority} {lo hi : ℤ} {amount : BitVec 128}
    {minA minB : UInt64} {clock : Int64} {funds : OwnerFunds}
    (h : pool.decreaseLiquidity key auth lo hi amount minA minB clock funds = .ok pool') :
    pool'.whirlpool.seeds = pool.whirlpool.seeds := by
  unfold decreaseLiquidity at h
  simp only [Res.bind_eq_ok, ite_err_eq_ok, Res.pure_eq_ok, Except.ok.injEq, Prod.exists] at h
  obtain ⟨_, _, _, hm, -, -, _, -, _, -, rfl⟩ := h
  have hseeds := modifyLiquidity_seeds hm
  exact hseeds

/-- The update of the record after a swap keeps the seeds. -/
lemma updateAfterSwap_seeds (w : Whirlpool) (l : ℕ) (t : ℤ) (p : ℕ) (g : Growth)
    (infos : Fin numRewards → WhirlpoolRewardInfo) (fee : ℕ) (isTokenFeeInA : Bool)
    (timestamp : ℕ) :
    (w.updateAfterSwap l t p g infos fee isTokenFeeInA timestamp).seeds = w.seeds := by
  unfold Whirlpool.updateAfterSwap
  cases isTokenFeeInA <;> rfl

/-- The end of a swap keeps the seeds. -/
lemma updateAndSwapWhirlpool_seeds {update : PostSwapUpdate} {sequence : SwapTickSequence}
    {isTokenFeeInA : Bool} {timestamp : ℕ} {funds : OwnerFunds}
    (h : pool.updateAndSwapWhirlpool update sequence isTokenFeeInA timestamp funds = .ok pool') :
    pool'.whirlpool.seeds = pool.whirlpool.seeds := by
  unfold updateAndSwapWhirlpool at h
  rw [storeSequence_eq] at h
  cases isTokenFeeInA <;>
  · simp only [Bool.false_eq_true, if_false, if_true, Res.bind_eq_ok, Res.pure_eq_ok,
      Except.ok.injEq] at h
    obtain ⟨_, -, _, -, rfl⟩ := h
    exact updateAfterSwap_seeds _ _ _ _ _ _ _ _ _

/-- A leg of `two_hop_swap` keeps the seeds. -/
lemma swapLeg_seeds {args : SwapArgs} {clock : Int64} {funds : OwnerFunds}
    (h : pool.swapLeg args clock funds = .ok pool') :
    pool'.whirlpool.seeds = pool.whirlpool.seeds := by
  unfold swapLeg at h
  simp only [Res.bind_eq_ok, Prod.exists] at h
  obtain ⟨_, -, _, _, -, h⟩ := h
  exact updateAndSwapWhirlpool_seeds h

/-- `swap` keeps the seeds. -/
lemma swapHandler_seeds {args : SwapArgs} {threshold : UInt64} {clock : Int64}
    {funds : OwnerFunds} (h : pool.swapHandler args threshold clock funds = .ok pool') :
    pool'.whirlpool.seeds = pool.whirlpool.seeds := by
  unfold swapHandler at h
  simp only [Res.bind_eq_ok, Prod.exists] at h
  obtain ⟨_, -, _, -, _, _, -, _, -, h⟩ := h
  exact updateAndSwapWhirlpool_seeds h

/-- **No instruction changes the seeds of a pool.** -/
theorem step_seeds {op : PoolOp} (h : pool.step op = .ok pool') :
    pool'.whirlpool.seeds = pool.whirlpool.seeds := by
  cases op with
  | openPosition => exact openPosition_seeds h
  | closePosition => exact closePosition_seeds h
  | increaseLiquidity => exact increaseLiquidity_seeds h
  | decreaseLiquidity => exact decreaseLiquidity_seeds h
  | swap => exact swapHandler_seeds h
  | twoHopLeg => exact swapLeg_seeds h
  | setEnableFlag =>
    cases h
    rfl
  | _ => exact (step_kept rfl (fun _ hop => by cases hop) h).seeds

/-- No run changes the seeds of a pool. -/
theorem run_seeds (pool : Pool) (ops : List PoolOp) :
    (pool.run ops).whirlpool.seeds = pool.whirlpool.seeds := by
  induction ops generalizing pool with
  | nil => rfl
  | cons op ops ih =>
    rcases pool.run_cons op ops with ⟨-, hrun⟩ | ⟨pool₁, hstep, -, hrun⟩
    · rw [hrun, ih]
    · rw [hrun, ih, step_seeds hstep]

/-! ## Pools without tick arrays -/

/-- Without tick arrays none can be loaded. -/
lemma getTickArray_none (hnone : ∀ s, pool.tickArrays s = none) (s : ℤ) (array : TickArray) :
    pool.getTickArray s ≠ .ok array := by
  rw [Ne, getTickArray_eq_ok, hnone]
  simp

/-- Without tick arrays no liquidity can be changed. -/
lemma modifyLiquidity_none (hnone : ∀ s, pool.tickArrays s = none) (auth : PositionAuthority)
    (lo hi : ℤ) (amount : BitVec 128) (positive : Bool) (clock : Int64)
    (result : Pool × ℕ × ℕ) :
    pool.modifyLiquidity key auth lo hi amount positive clock ≠ .ok result := by
  intro h
  unfold modifyLiquidity at h
  rw [Res.bind_eq_ok] at h
  obtain ⟨_, -, h⟩ := h
  rw [Res.bind_eq_ok] at h
  obtain ⟨array, harray, -⟩ := h
  exact getTickArray_none hnone _ _ harray

/-- Without tick arrays no swap can be computed. -/
theorem computeSwapUpdate_none (hnone : ∀ s, pool.tickArrays s = none) (args : SwapArgs)
    (timestamp : ℕ) (result : PostSwapUpdate × SwapTickSequence) :
    pool.computeSwapUpdate args timestamp ≠ .ok result := by
  intro h
  unfold computeSwapUpdate loadSequence at h
  simp only [Res.bind_eq_ok] at h
  obtain ⟨_, ⟨array, harray, -⟩, -⟩ := h
  exact getTickArray_none hnone _ _ harray

/-- **A pool with a tick spacing of zero never has tick arrays.**

**Proof sketch.** The only instruction that creates a tick array checks its start, which fails for a
spacing of zero; and without tick arrays no liquidity changes and no swap is computed. -/
theorem step_noArrays {op : PoolOp} (h0 : pool.whirlpool.tickSpacing = 0)
    (hnone : ∀ s, pool.tickArrays s = none) (h : pool.step op = .ok pool') :
    ∀ s, pool'.tickArrays s = none := by
  cases op with
  | openPosition =>
    unfold Pool.step openPosition at h
    rw [ite_error_eq_ok] at h
    simp only [Res.bind_eq_ok, Res.pure_eq_ok, Except.ok.injEq] at h
    obtain ⟨-, _, -, _, -, rfl⟩ := h
    exact hnone
  | closePosition =>
    obtain ⟨_, -, -, -, -, rfl⟩ := closePosition_eq_ok.1 h
    exact hnone
  | increaseLiquidity =>
    unfold Pool.step increaseLiquidity at h
    rw [Res.bind_eq_ok] at h
    obtain ⟨_, hm, -⟩ := h
    exact absurd hm (modifyLiquidity_none hnone _ _ _ _ _ _ _)
  | decreaseLiquidity =>
    unfold Pool.step decreaseLiquidity at h
    rw [Res.bind_eq_ok] at h
    obtain ⟨_, hm, -⟩ := h
    exact absurd hm (modifyLiquidity_none hnone _ _ _ _ _ _ _)
  | swap =>
    unfold Pool.step swapHandler at h
    simp only [Res.bind_eq_ok] at h
    obtain ⟨_, -, _, -, _, hc, -⟩ := h
    exact absurd hc (computeSwapUpdate_none hnone _ _ _)
  | twoHopLeg =>
    unfold Pool.step swapLeg at h
    simp only [Res.bind_eq_ok] at h
    obtain ⟨_, -, _, hc, -⟩ := h
    exact absurd hc (computeSwapUpdate_none hnone _ _ _)
  | setEnableFlag =>
    cases h
    exact hnone
  | _ => exact (step_kept rfl (fun _ hop => by cases hop) h).noArrays h0 hnone

/-! ## Disabled pools -/

/-- A disabled pool does not pass `require_enabled`. -/
lemma requireEnabled_of_disabled {w : Whirlpool} (h : w.isEnabled = false) :
    w.requireEnabled = err .PoolWasDisabled := by
  unfold Whirlpool.requireEnabled
  rw [h]
  rfl

/-- In a disabled pool no liquidity can be changed. -/
lemma modifyLiquidity_disabled (hdis : pool.whirlpool.isEnabled = false)
    (auth : PositionAuthority) (lo hi : ℤ) (amount : BitVec 128) (positive : Bool)
    (clock : Int64) (result : Pool × ℕ × ℕ) :
    pool.modifyLiquidity key auth lo hi amount positive clock ≠ .ok result := by
  intro h
  unfold modifyLiquidity at h
  rw [requireEnabled_of_disabled hdis] at h
  simp only [Res.bind_eq_ok, err_ne_ok, false_and, exists_false, and_false] at h

/-- **In a disabled pool the instructions that trade fail**, apart from a leg of `two_hop_swap`.

**Proof sketch.** Each of these instructions asks for `require_enabled` before it changes
anything. -/
theorem step_disabled {op : PoolOp} (hdis : pool.whirlpool.isEnabled = false)
    (htrades : op.trades = true) (hleg : ∀ a c f, op ≠ .twoHopLeg a c f) :
    pool.step op ≠ .ok pool' := by
  intro h
  cases op with
  | openPosition =>
    unfold Pool.step openPosition at h
    rw [ite_error_eq_ok, requireEnabled_of_disabled hdis] at h
    simp [Res.bind_eq_ok] at h
  | closePosition =>
    obtain ⟨_, -, -, henabled, -⟩ := closePosition_eq_ok.1 h
    rw [requireEnabled_of_disabled hdis] at henabled
    cases henabled
  | increaseLiquidity =>
    unfold Pool.step increaseLiquidity at h
    rw [Res.bind_eq_ok] at h
    obtain ⟨_, hm, -⟩ := h
    exact modifyLiquidity_disabled hdis _ _ _ _ _ _ _ hm
  | decreaseLiquidity =>
    unfold Pool.step decreaseLiquidity at h
    rw [Res.bind_eq_ok] at h
    obtain ⟨_, hm, -⟩ := h
    exact modifyLiquidity_disabled hdis _ _ _ _ _ _ _ hm
  | swap =>
    unfold Pool.step swapHandler at h
    rw [requireEnabled_of_disabled hdis] at h
    simp [Res.bind_eq_ok] at h
  | twoHopLeg a c f => exact hleg a c f rfl
  | _ => cases htrades

end Pool

/-- The mints of a reachable pool are in the order that `initialize` has checked. -/
theorem Reachable.mints_lt {pool : Pool} (h : Reachable pool) :
    pool.whirlpool.tokenMintA < pool.whirlpool.tokenMintB := by
  obtain ⟨w, ops, ⟨-, _, _, _, _, _, _, _, _, hw⟩, rfl⟩ := h
  have hseeds := Pool.run_seeds (Pool.new w) ops
  obtain ⟨hmints, -, -, -, tick, -, rfl⟩ := Whirlpool.initializeWhirlpool_eq_ok.1 hw
  obtain ⟨-, hA, hB, -⟩ := PoolKey.mk.inj hseeds
  rw [hA, hB]
  exact hmints

end NemoSwap
