import NemoSwap.Pool.Trade

set_option relaxedAutoImplicit false
set_option autoImplicit false

/-!
# What an instruction can do to a pool

Every instruction that succeeds does one of four things: it leaves the market alone, it accrues
the rewards and does no more to the market, it updates one position, or it swaps. The invariant of
the pool and every property of a run are derived from this case distinction.

## Main definitions

* `NemoSwap.Pool.Updated` — the update of one position.
* `NemoSwap.PoolOp.clock`, `NemoSwap.PoolOp.updated`, `NemoSwap.PoolOp.trade` — what an instruction
  reads and writes.
* `NemoSwap.Pool.Effect` — the four cases.

## Main results

* `NemoSwap.Pool.step_effect` — the case distinction.
-/

namespace NemoSwap

namespace Pool

variable {pool pool' : Pool} {earned : Earnings} {key : Pubkey} {delta : ℤ}
  {infos : Fin numRewards → WhirlpoolRewardInfo} {timestamp : ℕ}

/-! ## The update of a position -/

/-- The rewards are accrued, a position is settled and resized, and the vaults are paid, or pay. -/
structure Updated (pool pool' : Pool) (key : Pubkey) (infos : Fin numRewards → WhirlpoolRewardInfo)
    (timestamp : ℕ) (delta : ℤ) : Prop where
  mem : key ∈ pool.positions
  rewards : nextWhirlpoolRewardInfos pool.whirlpool timestamp = .ok infos
  resized : Resized ((pool.accrue infos timestamp).settle key) pool' key delta
  /-- The vaults receive at least the exact value of the new liquidity. -/
  paid : ∀ X, (delta : ℚ) * holding X (pool.position key).tickLowerIndex
    (pool.position key).tickUpperIndex pool.whirlpool.sqrtPrice + pool.vault X ≤ pool'.vault X
  vault_lt : ∀ X, pool.vault X < 2 ^ 64 → pool'.vault X < 2 ^ 64

/-- Settling a position leaves its range and its liquidity. -/
lemma settle_position (pool : Pool) (key : Pubkey) :
    ((pool.settle key).position key).tickLowerIndex = (pool.position key).tickLowerIndex ∧
      ((pool.settle key).position key).tickUpperIndex = (pool.position key).tickUpperIndex ∧
      ((pool.settle key).position key).liquidity = (pool.position key).liquidity := by
  unfold Pool.settle
  rw [setPosition_self]
  exact ⟨rfl, rfl, rfl⟩

/-- The vaults play no part in resizing. -/
lemma Resized.setVaults (h : Resized pool pool' key delta) (a b : ℕ) :
    Resized pool { pool' with vaultA := a, vaultB := b } key delta :=
  ⟨h.positions, h.position, h.liquidity, h.liquidity_lt, h.whirlpool, h.active, h.active_lt,
    h.wellPlaced, h.lower, h.upper, h.other⟩

/-- Resizing by nothing.

**Proof sketch.** What is initialized stays so, and each tick keeps its liquidity and its growth. -/
theorem Resized.refl (hs : pool.Sound earned) (key : Pubkey) : Resized pool pool key 0 := by
  have hinit : ∀ t, (pool.ticks t).liquidityGross ≠ 0 → (pool.ticks t).initialized = true :=
    fun t h0 => by
      rw [hs.books.initialized, ← hs.books.gross]
      exact Nat.pos_of_ne_zero h0
  have htick : ∀ t, TickResized pool.whirlpool.growthGlobal pool.whirlpool.tickCurrentIndex t 0 0
      (pool.ticks t) (pool.ticks t) := fun t => by
    refine ⟨(add_zero _).symm, fun h0 => hs.books.blank t ?_, hinit t, fun _ => (add_zero _).symm,
      fun h0 ch => (if_neg h0).symm⟩
    rw [← Bool.not_eq_true, hs.books.initialized, ← hs.books.gross, h0]
    exact lt_irrefl 0
  refine ⟨rfl, (Function.update_eq_self key pool.position).symm, (add_zero _).symm, id, rfl, ?_, id,
    hs.wellPlaced, htick _, ?_, fun _ _ _ => rfl⟩
  · split_ifs <;> exact (add_zero _).symm
  · rw [neg_zero]
    exact htick _

/-- The effect of `update_fees_and_rewards`: the position is settled, and no liquidity moves. -/
theorem updateFeesAndRewards_updated (hs : pool.Sound earned) {arrayLower arrayUpper : ℤ}
    {clock : Int64} (h : pool.updateFeesAndRewards key arrayLower arrayUpper clock = .ok pool') :
    ∃ infos timestamp, toTimestampU64 clock = .ok timestamp ∧
      Updated pool pool' key infos timestamp 0 := by
  obtain ⟨hk, infos, timestamp, ht, hinfos, rfl⟩ := updateFeesAndRewards_eq_ok hs h
  refine ⟨infos, timestamp, ht, hk, hinfos,
    Resized.refl ((hs.accrue hinfos).settle key) key, fun X => ?_, fun _ h => h⟩
  rw [Int.cast_zero, zero_mul, zero_add]
  rfl

/-- The token amounts of a change of liquidity, and the exact values that they round. -/
theorem modifyLiquidity_amounts (hs : pool.Sound earned) {amounts : ℕ × ℕ}
    (hk : key ∈ pool.positions) (hdelta : delta.natAbs < 2 ^ 127)
    (hr : Resized ((pool.accrue infos timestamp).settle key) pool' key delta)
    (h : calculateLiquidityTokenDeltas pool.whirlpool.tickCurrentIndex pool.whirlpool.sqrtPrice
      (pool'.position key) delta = .ok amounts) (X : Token) :
    tokenAmount amounts X = rangeDelta X (pool.position key).tickLowerIndex
      (pool.position key).tickUpperIndex pool.whirlpool.sqrtPrice delta.natAbs
      (decide (delta > 0)) := by
  obtain ⟨h1, h2, h3⟩ := hs.onUsableTicks key hk
  obtain ⟨hlo, hhi, -⟩ := (pool.accrue infos timestamp).settle_position key
  have hpos := congrFun hr.position key
  rw [Function.update_self] at hpos
  have hlo' : (pool'.position key).tickLowerIndex = (pool.position key).tickLowerIndex := by
    rw [hpos]
    exact hlo
  have hhi' : (pool'.position key).tickUpperIndex = (pool.position key).tickUpperIndex := by
    rw [hpos]
    exact hhi
  rw [← hlo', ← hhi']
  exact calculateLiquidityTokenDeltas_eq_ok hs.price (hlo' ▸ h1.1) (by rw [hlo', hhi']; exact h3)
    (hhi' ▸ h2.2.1) (hdelta.trans (by norm_num)) h X

/-- The effect of `increase_liquidity`: the position is settled and gains the liquidity, and the
vaults gain what its range costs, rounded up.

**Proof sketch.** The inversion of `modify_liquidity` gives the settled position and the amounts,
and the two transfers add these to the vaults. -/
theorem increaseLiquidity_updated (hs : pool.Sound earned) {auth : PositionAuthority}
    {arrayLower arrayUpper : ℤ} {liquidityAmount : BitVec 128} {tokenMaxA tokenMaxB : UInt64}
    {clock : Int64} {funds : OwnerFunds}
    (h : pool.increaseLiquidity key auth arrayLower arrayUpper liquidityAmount tokenMaxA tokenMaxB
      clock funds = .ok pool') :
    ∃ infos timestamp delta, toTimestampU64 clock = .ok timestamp ∧ 0 < delta ∧
      delta.natAbs = liquidityAmount.toNat ∧ Updated pool pool' key infos timestamp delta ∧
      ∀ X, pool'.vault X = pool.vault X + rangeDelta X (pool.position key).tickLowerIndex
        (pool.position key).tickUpperIndex pool.whirlpool.sqrtPrice delta.natAbs true := by
  unfold increaseLiquidity at h
  rw [Res.bind_eq_ok] at h
  obtain ⟨⟨pool₁, deltaA, deltaB⟩, hm, h⟩ := h
  obtain ⟨hk, infos, timestamp, delta, ht, hinfos, -, hlt, hpos, habs, hres, hd, hvault⟩ :=
    modifyLiquidity_eq_ok hs hm
  rw [ite_err_eq_ok, ite_err_eq_ok, Res.bind_eq_ok] at h
  obtain ⟨-, -, a, ha, h⟩ := h
  rw [Res.bind_eq_ok] at h
  obtain ⟨b, hb, h⟩ := h
  rw [Res.pure_eq_ok, Except.ok.injEq] at h
  obtain ⟨ha, halt⟩ := transferFromOwnerToVault_eq_ok ha
  obtain ⟨hb, hblt⟩ := transferFromOwnerToVault_eq_ok hb
  rw [decide_eq_true_eq] at hpos
  obtain ⟨h1, h2, h3⟩ := hs.onUsableTicks key hk
  have hamount := modifyLiquidity_amounts hs hk hlt hres hd
  rw [decide_eq_true hpos] at hamount
  have hle : ∀ X, (delta : ℚ) * holding X (pool.position key).tickLowerIndex
      (pool.position key).tickUpperIndex pool.whirlpool.sqrtPrice ≤
        tokenAmount (deltaA, deltaB) X := fun X => by
    have := le_rangeDelta (X := X) (p := pool.whirlpool.sqrtPrice) (l := delta.natAbs) h1.1 h3
      h2.2.1
    rw [hamount]
    rwa [Nat.cast_natAbs, abs_of_pos hpos] at this
  subst h
  refine ⟨infos, timestamp, delta, ht, hpos, habs, ⟨hk, hinfos, hres.setVaults a b, fun X => ?_,
    fun X _ => ?_⟩, fun X => ?_⟩
  · have h4 := hle X
    have h5 := hvault X
    cases X with
    | A =>
      change _ + (pool.vaultA : ℚ) ≤ (a : ℚ)
      change _ ≤ (deltaA : ℚ) at h4
      change pool₁.vaultA = pool.vaultA at h5
      rw [ha, h5, Nat.cast_add]
      linarith
    | B =>
      change _ + (pool.vaultB : ℚ) ≤ (b : ℚ)
      change _ ≤ (deltaB : ℚ) at h4
      change pool₁.vaultB = pool.vaultB at h5
      rw [hb, h5, Nat.cast_add]
      linarith
  · cases X
    · exact halt
    · exact hblt
  · rw [← hamount X, ← hvault X]
    cases X
    · exact ha
    · exact hb

/-- The effect of `decrease_liquidity`: the position is settled and loses the liquidity, and the
vaults pay what its range yields, rounded down.

**Proof sketch.** As for `increase_liquidity`, with the transfers out of the vaults: each of them
has found enough in its vault. -/
theorem decreaseLiquidity_updated (hs : pool.Sound earned) {auth : PositionAuthority}
    {arrayLower arrayUpper : ℤ} {liquidityAmount : BitVec 128} {tokenMinA tokenMinB : UInt64}
    {clock : Int64} {funds : OwnerFunds}
    (h : pool.decreaseLiquidity key auth arrayLower arrayUpper liquidityAmount tokenMinA tokenMinB
      clock funds = .ok pool') :
    ∃ infos timestamp delta, toTimestampU64 clock = .ok timestamp ∧ delta < 0 ∧
      delta.natAbs = liquidityAmount.toNat ∧ Updated pool pool' key infos timestamp delta ∧
      ∀ X, pool'.vault X + rangeDelta X (pool.position key).tickLowerIndex
        (pool.position key).tickUpperIndex pool.whirlpool.sqrtPrice delta.natAbs false =
          pool.vault X := by
  unfold decreaseLiquidity at h
  rw [Res.bind_eq_ok] at h
  obtain ⟨⟨pool₁, deltaA, deltaB⟩, hm, h⟩ := h
  obtain ⟨hk, infos, timestamp, delta, ht, hinfos, hne, hlt, hneg, habs, hres, hd, hvault⟩ :=
    modifyLiquidity_eq_ok hs hm
  rw [ite_err_eq_ok, ite_err_eq_ok, Res.bind_eq_ok] at h
  obtain ⟨-, -, a, ha, h⟩ := h
  rw [Res.bind_eq_ok] at h
  obtain ⟨b, hb, h⟩ := h
  rw [Res.pure_eq_ok, Except.ok.injEq] at h
  have ha := transferFromVaultToOwner_eq_ok ha
  have hb := transferFromVaultToOwner_eq_ok hb
  have hamount := modifyLiquidity_amounts hs hk hlt hres hd
  rw [hneg] at hamount
  rw [decide_eq_false_iff_not, not_lt] at hneg
  obtain ⟨h1, h2, h3⟩ := hs.onUsableTicks key hk
  have hle : ∀ X, (delta : ℚ) * holding X (pool.position key).tickLowerIndex
      (pool.position key).tickUpperIndex pool.whirlpool.sqrtPrice +
        tokenAmount (deltaA, deltaB) X ≤ 0 := fun X => by
    have := rangeDelta_le (X := X) (p := pool.whirlpool.sqrtPrice) (l := delta.natAbs) h1.1 h3
      h2.2.1
    rw [hamount]
    rw [Nat.cast_natAbs, abs_of_nonpos hneg] at this
    push_cast at this
    linarith
  subst h
  refine ⟨infos, timestamp, delta, ht, lt_of_le_of_ne hneg hne, habs, ⟨hk, hinfos,
    hres.setVaults a b, fun X => ?_, fun X hX => ?_⟩, fun X => ?_⟩
  · have h4 := hle X
    have h5 := hvault X
    cases X with
    | A =>
      change _ + (pool.vaultA : ℚ) ≤ (a : ℚ)
      change _ + (deltaA : ℚ) ≤ 0 at h4
      change pool₁.vaultA = pool.vaultA at h5
      rw [← h5, ← ha, Nat.cast_add]
      linarith
    | B =>
      change _ + (pool.vaultB : ℚ) ≤ (b : ℚ)
      change _ + (deltaB : ℚ) ≤ 0 at h4
      change pool₁.vaultB = pool.vaultB at h5
      rw [← h5, ← hb, Nat.cast_add]
      linarith
  · have h5 := hvault X
    cases X with
    | A =>
      change pool₁.vaultA = pool.vaultA at h5
      exact lt_of_le_of_lt (show a ≤ pool.vaultA by omega) hX
    | B =>
      change pool₁.vaultB = pool.vaultB at h5
      exact lt_of_le_of_lt (show b ≤ pool.vaultB by omega) hX
  · rw [← hamount X, ← hvault X]
    cases X
    · exact ha
    · exact hb

/-- A settled position has no earnings. -/
lemma settled_settle (pool : Pool) (earned : Earnings) (key : Pubkey) :
    (pool.settle key).Settled (earned.clear key) key := fun ch => by
  obtain ⟨hlo, hhi, -⟩ := pool.settle_position key
  refine ⟨by rw [Earnings.clear, Function.update_self], ?_⟩
  have hcheck : ((pool.settle key).position key).growthCheckpoint ch =
      pool.insidePosition key ch := by
    unfold Pool.settle
    rw [setPosition_self, Position.settle_growthCheckpoint]
  rw [hcheck]
  unfold insidePosition
  rw [hlo, hhi]
  rfl

/-- **The update of a position keeps the invariant.** -/
theorem Updated.sound (hs : pool.Sound earned) (h : Updated pool pool' key infos timestamp delta) :
    pool'.Sound ((earned.add pool (pool.rewardLog infos)).clear key) :=
  h.resized.sound ((hs.accrue h.rewards).settle key) h.mem (settled_settle _ _ _)

/-- **The update of a position keeps the vaults covered.**

**Proof sketch.** The new liquidity adds no more to the obligations than is paid for it. Crediting
the position moves what it has earned to what it is owed, rounded down. -/
theorem Updated.backed (hs : pool.Sound earned) (hb : pool.Backed earned)
    (h : Updated pool pool' key infos timestamp delta) :
    pool'.Backed ((earned.add pool (pool.rewardLog infos)).clear key) := by
  refine ⟨fun X => ?_, fun X => h.vault_lt X (hb.vault_lt X)⟩
  obtain ⟨hlo, hhi, -⟩ := (pool.accrue infos timestamp).settle_position key
  have hmem : key ∈ ((pool.accrue infos timestamp).settle key).positions := h.mem
  have hset := (pool.accrue infos timestamp).settled_settle
    (earned.add pool (pool.rewardLog infos)) key
  have h1 := h.resized.obligations hmem hset X
  have h2 := obligations_settle_le (hs.accrue h.rewards) h.mem X
  rw [pool.obligations_accrue] at h2
  have h3 := hb.covered X
  have h4 := h.paid X
  rw [hlo, hhi] at h1
  change _ = _ + delta * holding X (pool.position key).tickLowerIndex
    (pool.position key).tickUpperIndex pool.whirlpool.sqrtPrice at h1
  linarith

end Pool

/-! ## The four cases -/

/-- The clock of an instruction that accrues the rewards. -/
def PoolOp.clock : PoolOp → Option Int64
  | .increaseLiquidity _ _ _ _ _ _ _ clock _ => some clock
  | .decreaseLiquidity _ _ _ _ _ _ _ clock _ => some clock
  | .updateFeesAndRewards _ _ _ clock => some clock
  | .swap _ _ clock _ => some clock
  | .twoHopLeg _ clock _ => some clock
  | .setRewardEmissions _ _ _ clock => some clock
  | _ => none

/-- The position that an instruction updates. -/
def PoolOp.updated : PoolOp → Option Pubkey
  | .increaseLiquidity key _ _ _ _ _ _ _ _ => some key
  | .decreaseLiquidity key _ _ _ _ _ _ _ _ => some key
  | .updateFeesAndRewards key _ _ _ => some key
  | _ => none

/-- The arguments of a swap, also of a leg of `two_hop_swap`. -/
def PoolOp.trade : PoolOp → Option Pool.SwapArgs
  | .swap args _ _ _ => some args
  | .twoHopLeg args _ _ => some args
  | _ => none

namespace Pool

variable {pool pool' : Pool} {earned : Earnings} {op : PoolOp}

/-- **What an instruction that succeeds can do.** -/
inductive Effect (pool pool' : Pool) (op : PoolOp) : Prop
  | quiet (hclock : op.clock = none) (hupdated : op.updated = none) (htrade : op.trade = none)
      (h : pool.Quiet pool')
  | accrue (clock : Int64) (infos : Fin numRewards → WhirlpoolRewardInfo) (timestamp : ℕ)
      (hclock : op.clock = some clock) (ht : toTimestampU64 clock = .ok timestamp)
      (hupdated : op.updated = none) (htrade : op.trade = none)
      (rewards : nextWhirlpoolRewardInfos pool.whirlpool timestamp = .ok infos)
      (h : (pool.accrue infos timestamp).Quiet pool')
  | update (clock : Int64) (key : Pubkey) (infos : Fin numRewards → WhirlpoolRewardInfo)
      (timestamp : ℕ) (delta : ℤ) (hclock : op.clock = some clock)
      (ht : toTimestampU64 clock = .ok timestamp) (hupdated : op.updated = some key)
      (htrade : op.trade = none) (h : Updated pool pool' key infos timestamp delta)
  | trade (clock : Int64) (args : SwapArgs) (infos : Fin numRewards → WhirlpoolRewardInfo)
      (timestamp : ℕ) (t : SwapTrace) (hclock : op.clock = some clock)
      (ht : toTimestampU64 clock = .ok timestamp) (hupdated : op.updated = none)
      (htrade : op.trade = some args) (h : Traded pool pool' args infos timestamp t)

/-- **The case distinction on a successful instruction.**

**Proof sketch.** One case for each instruction, with the lemma about its effect. -/
theorem step_effect (hs : pool.Sound earned) (hb : pool.Backed earned)
    (h : pool.step op = .ok pool') : Effect pool pool' op := by
  cases op with
  | openPosition key mint lo hi => exact .quiet rfl rfl rfl (openPosition_quiet hs h)
  | closePosition key auth => exact .quiet rfl rfl rfl (closePosition_quiet hs h)
  | increaseLiquidity key auth lo hi amount maxA maxB clock funds =>
    obtain ⟨infos, timestamp, delta, ht, -, -, hu, -⟩ := increaseLiquidity_updated hs h
    exact .update clock key infos timestamp delta rfl ht rfl rfl hu
  | decreaseLiquidity key auth lo hi amount minA minB clock funds =>
    obtain ⟨infos, timestamp, delta, ht, -, -, hu, -⟩ := decreaseLiquidity_updated hs h
    exact .update clock key infos timestamp delta rfl ht rfl rfl hu
  | updateFeesAndRewards key lo hi clock =>
    obtain ⟨infos, timestamp, ht, hu⟩ := updateFeesAndRewards_updated hs h
    exact .update clock key infos timestamp 0 rfl ht rfl rfl hu
  | collectFees key auth funds => exact .quiet rfl rfl rfl (collectFees_quiet hs h)
  | collectProtocolFees funds => exact .quiet rfl rfl rfl (collectProtocolFees_quiet hs h)
  | collectReward key auth index vault owner =>
    exact .quiet rfl rfl rfl (collectReward_quiet hs h)
  | swap args threshold clock funds =>
    obtain ⟨infos, timestamp, t, ht, htr⟩ := swapLeg_eq_ok hs hb (swapHandler_eq_ok h).2
    exact .trade clock args infos timestamp t rfl ht rfl rfl htr
  | twoHopLeg args clock funds =>
    obtain ⟨infos, timestamp, t, ht, htr⟩ := swapLeg_eq_ok hs hb h
    exact .trade clock args infos timestamp t rfl ht rfl rfl htr
  | initializeTickArray start => exact .quiet rfl rfl rfl (initializeTickArray_quiet hs h)
  | setFeeRate rate => exact .quiet rfl rfl rfl (setFeeRate_quiet hs h)
  | setProtocolFeeRate rate => exact .quiet rfl rfl rfl (setProtocolFeeRate_quiet hs h)
  | setEnableFlag flag =>
    obtain rfl := Except.ok.inj h
    exact .quiet rfl rfl rfl (setEnableFlag_quiet hs flag)
  | initializeReward index mint vault =>
    exact .quiet rfl rfl rfl (initializeReward_quiet hs h)
  | setRewardEmissions index emissions vault clock =>
    obtain ⟨infos, timestamp, ht, hinfos, hq⟩ := setRewardEmissions_quiet hs h
    exact .accrue clock infos timestamp rfl ht rfl rfl hinfos hq
  | setRewardAuthority index authority =>
    exact .quiet rfl rfl rfl (setRewardAuthority_quiet hs h)

/-- What an instruction does that updates a position. -/
theorem step_updated (hs : pool.Sound earned) (hb : pool.Backed earned) {key : Pubkey}
    (hupdated : op.updated = some key) (h : pool.step op = .ok pool') :
    ∃ clock infos timestamp delta, op.clock = some clock ∧
      toTimestampU64 clock = .ok timestamp ∧ Updated pool pool' key infos timestamp delta := by
  rcases step_effect hs hb h with ⟨-, hno, -⟩ | ⟨-, -, -, -, -, hno, -⟩ |
    ⟨clock, key', infos, timestamp, delta, hclock, ht, hupd, -, hu⟩ | ⟨-, -, -, -, -, -, -, hno, -⟩
  · rw [hupdated] at hno
    cases hno
  · rw [hupdated] at hno
    cases hno
  · rw [hupdated, Option.some.injEq] at hupd
    subst hupd
    exact ⟨clock, infos, timestamp, delta, hclock, ht, hu⟩
  · rw [hupdated] at hno
    cases hno

end Pool

end NemoSwap
