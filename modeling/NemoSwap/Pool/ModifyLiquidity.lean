import NemoSwap.Pool.LiquidityChange

set_option relaxedAutoImplicit false
set_option autoImplicit false

/-!
# The handlers that change liquidity

`increase_liquidity`, `decrease_liquidity` and `update_fees_and_rewards` read two ticks, compute
an update and write it back. Here their common part is decomposed into the elementary steps:
accrue the rewards, settle the position, resize it.

## Main results

* `NemoSwap.Pool.calculateModifyLiquidity_eq_ok` — the update, read as a settlement.
* `NemoSwap.Pool.syncModifyLiquidityValues_eq_ok` — the ticks that are written back.
* `NemoSwap.Pool.modifyLiquidity_eq_ok`, `NemoSwap.Pool.updateFeesAndRewards_eq_ok` — the
  handlers as elementary steps.
-/

namespace NemoSwap

namespace Pool

variable {pool pool' : Pool} {earned : Earnings} {key : Pubkey} {delta : ℤ}

/-! ## Reading -/

/-- A tick array can be loaded exactly if the pool has it. -/
theorem getTickArray_eq_ok {s : ℤ} {array : TickArray} :
    pool.getTickArray s = .ok array ↔ pool.tickArrays s = some array := by
  unfold getTickArray
  split
  · next a ha => rw [ha, Except.ok.injEq, Option.some.injEq]
  · next ha => simp [ha]

/-- A position that can be loaded is one of the pool. -/
lemma getPosition_eq_ok {position : Position} (h : pool.getPosition key = .ok position) :
    key ∈ pool.positions ∧ position = pool.position key := by
  unfold getPosition at h
  split_ifs at h with hk
  exact ⟨hk, (Except.ok.inj h).symm⟩

/-- A position whose owner is accepted is one of the pool. -/
theorem getOwnedPosition_eq_ok {auth : PositionAuthority} {position : Position}
    (h : pool.getOwnedPosition key auth = .ok position) :
    key ∈ pool.positions ∧ position = pool.position key := by
  unfold getOwnedPosition at h
  rw [Res.bind_eq_ok] at h
  obtain ⟨p, hp, h⟩ := h
  split_ifs at h
  rw [Res.bind_eq_ok] at h
  obtain ⟨-, -, h⟩ := h
  rw [Res.pure_eq_ok, Except.ok.injEq] at h
  subst h
  exact getPosition_eq_ok hp

/-- What `close_position` does: it forgets an empty position whose token can be burned and whose
token account can be closed. -/
theorem closePosition_eq_ok {auth : PositionAuthority} :
    pool.closePosition key auth = .ok pool' ↔ ∃ position,
      pool.getOwnedPosition key auth = .ok position ∧ position.isPositionEmpty = true ∧
        pool.whirlpool.requireEnabled = .ok () ∧ burnAndCloseUserPositionToken auth = .ok () ∧
          { pool with positions := pool.positions.erase key } = pool' := by
  unfold closePosition
  simp only [Res.bind_eq_ok, ite_err_eq_ok, Bool.not_eq_true', Bool.not_eq_false, Res.pure_eq_ok,
    Except.ok.injEq]
  constructor
  · rintro ⟨position, hp, hempty, _, henabled, _, hburn, rfl⟩
    exact ⟨position, hp, hempty, henabled, hburn, rfl⟩
  · rintro ⟨position, hp, hempty, henabled, hburn, rfl⟩
    exact ⟨position, hp, hempty, (), henabled, (), hburn, rfl⟩

/-- `validate_owner` accepts exactly the expected owner, if he signs. -/
lemma validateOwner_eq_ok {expected owner : Pubkey} {isSigner : Bool} :
    validateOwner expected owner isSigner = .ok () ↔ expected = owner ∧ isSigner = true := by
  unfold validateOwner
  rw [ite_err_eq_ok, not_or, not_not, Bool.not_eq_false]
  exact and_iff_left rfl

/-- A token account is closed exactly if it is empty and its close authority, by default its owner,
signs. -/
lemma closeAccount_eq_ok {auth : PositionAuthority} :
    closeAccount auth = .ok () ↔ auth.amount = 0 ∧
      auth.closeAuthority.getD auth.owner = auth.authority ∧ auth.isSigner = true := by
  unfold closeAccount checkTokenAuthority
  rw [ite_error_eq_ok, ite_error_eq_ok, not_not, not_or, not_not, Bool.not_eq_false]
  exact and_congr_right fun _ => and_iff_left rfl

/-- Who can act for a position can burn its token, which leaves its token account empty.

**Proof sketch.** By whether the signer is the delegate. A delegate must be allowed to spend one
token, which is burned; an owner may always burn it. -/
lemma burnChecked_of_verify {auth : PositionAuthority} (hamount : auth.amount = 1)
    (h : verifyPositionAuthority auth = .ok ()) :
    auth.isSigner = true ∧ ∃ auth', burnChecked auth = .ok auth' ∧ auth'.amount = 0 ∧
      auth'.closeAuthority = auth.closeAuthority ∧ auth'.owner = auth.owner ∧
        auth'.authority = auth.authority ∧ auth'.isSigner = auth.isSigner := by
  have hempty : auth.amount - 1 = 0 := by
    rw [hamount]
    rfl
  unfold verifyPositionAuthority at h
  unfold burnChecked checkTokenAuthority
  rw [if_neg (by rw [hamount]; decide)]
  by_cases hdelegate : auth.delegate = some auth.authority
  · rw [if_pos hdelegate, Res.bind_eq_ok] at h
    obtain ⟨_, hsigner, h⟩ := h
    rw [ite_err_eq_ok, not_not] at h
    obtain ⟨-, hsigner⟩ := validateOwner_eq_ok.1 hsigner
    rw [if_pos hdelegate, if_neg (by simp [hsigner]), Res.ok_bind, if_neg (by rw [h.1]; decide)]
    exact ⟨hsigner, _, rfl, hempty, rfl, rfl, rfl, rfl⟩
  · rw [if_neg hdelegate] at h
    obtain ⟨howner, hsigner⟩ := validateOwner_eq_ok.1 h
    rw [if_neg hdelegate, if_neg (by simp [howner, hsigner]), Res.ok_bind]
    exact ⟨hsigner, _, rfl, hempty, rfl, rfl, rfl, rfl⟩

/-- **Who can close the token account of a position**: of those who can act for the position, the
one with the close authority. The owner of the account has it until another key is set, and a
delegate has not. -/
theorem burnAndCloseUserPositionToken_iff {auth : PositionAuthority} {position : Position}
    (h : pool.getOwnedPosition key auth = .ok position) :
    burnAndCloseUserPositionToken auth = .ok () ↔
      auth.closeAuthority.getD auth.owner = auth.authority := by
  unfold getOwnedPosition at h
  rw [Res.bind_eq_ok] at h
  obtain ⟨_, -, h⟩ := h
  split_ifs at h with hone
  rw [Res.bind_eq_ok] at h
  obtain ⟨_, hverify, -⟩ := h
  obtain ⟨hsigner, auth', hburn, h0, hclose, howner, hauthority, hsigner'⟩ :=
    burnChecked_of_verify hone.2 hverify
  unfold burnAndCloseUserPositionToken
  rw [hburn, Res.ok_bind, closeAccount_eq_ok, hclose, howner, hauthority, hsigner', hsigner]
  exact ⟨fun h => h.2.1, fun h => ⟨h0, h, rfl⟩⟩

/-- A tick of a stored array is the pool's tick. -/
lemma Sound.getTick_eq_ok (hs : pool.Sound earned) {s t : ℤ} {array : TickArray} {tick : Tick}
    (ha : pool.tickArrays s = some array)
    (h : array.getTick t pool.whirlpool.tickSpacing = .ok tick) : tick = pool.ticks t := by
  obtain ⟨hts, -, hh, rfl⟩ := TickArray.getTick_eq_ok (hs.wellPlaced.dvd_start ha) h
  obtain ⟨rfl, -⟩ := hs.wellPlaced _ _ ha
  exact (TickMap.tick_eq_tickAt hs.wellPlaced hts ha hh).symm

/-! ## The growth inside a position -/

/-- The source's fee growths inside a range. -/
lemma nextFeeGrowthsInside_eq (pool : Pool) (lo hi : ℤ) :
    nextFeeGrowthsInside pool.whirlpool.tickCurrentIndex (pool.ticks lo) lo (pool.ticks hi) hi
        pool.whirlpool.feeGrowthGlobalA pool.whirlpool.feeGrowthGlobalB =
      (pool.inside (.fee .A) lo hi, pool.inside (.fee .B) lo hi) := by
  unfold nextFeeGrowthsInside
  rw [growthInside_eq, growthInside_eq]
  rfl

/-- The source's reward growths inside a range. It returns zero for a reward that is not
initialized, which has not grown anywhere.

**Proof sketch.** A reward that is initialized is computed as in the state. One that is not has no
growth anywhere, so the growth inside is zero as well. -/
theorem nextRewardGrowthsInside_eq (pool : Pool)
    (hblank : RewardsBlank pool.whirlpool.rewardInfos pool.ticks) (lo hi : ℤ) :
    nextRewardGrowthsInside pool.whirlpool.tickCurrentIndex (pool.ticks lo) lo (pool.ticks hi) hi
        pool.whirlpool.rewardInfos = fun i => pool.inside (.reward i) lo hi := by
  funext i
  unfold nextRewardGrowthsInside
  cases hi' : (pool.whirlpool.rewardInfos i).initialized with
  | true =>
    rw [Bool.not_true, if_neg Bool.false_ne_true, growthInside_eq]
    rfl
  | false =>
    obtain ⟨h1, h2⟩ := hblank i hi'
    have hg : pool.whirlpool.growthGlobal (.reward i) = 0 := h1
    have ho : ∀ t, (pool.ticks t).growthOutside (.reward i) = 0 := h2
    rw [Bool.not_false, if_pos rfl]
    unfold inside rangeInside Outside.inside Outside.below
    rw [hg, ho, ho]
    simp

/-! ## The update -/

/-- **The update that the source computes**: the rewards are accrued, the position is settled, and
the liquidity of the pool, the position and its two ticks changes.

**Proof sketch.** The steps of the code in order. The ticks that are read are those of the pool, and
the growths that are computed for the range are those inside it once the rewards have accrued. -/
theorem calculateModifyLiquidity_eq_ok (hs : pool.Sound earned) {arrayLower arrayUpper : ℤ}
    {tickArrayLower tickArrayUpper : TickArray} {timestamp : ℕ} {update : ModifyLiquidityUpdate}
    (hl : pool.tickArrays arrayLower = some tickArrayLower)
    (hu : pool.tickArrays arrayUpper = some tickArrayUpper)
    (h : calculateModifyLiquidity pool.whirlpool (pool.position key) tickArrayLower tickArrayUpper
      delta timestamp = .ok update) :
    nextWhirlpoolRewardInfos pool.whirlpool timestamp = .ok update.rewardInfos ∧
      nextWhirlpoolLiquidity pool.whirlpool (pool.position key).tickUpperIndex
        (pool.position key).tickLowerIndex delta = .ok update.whirlpoolLiquidity ∧
      nextTickModifyLiquidityUpdate (pool.ticks (pool.position key).tickLowerIndex)
        (pool.position key).tickLowerIndex pool.whirlpool.tickCurrentIndex
        pool.whirlpool.feeGrowthGlobalA pool.whirlpool.feeGrowthGlobalB update.rewardInfos delta
        false = .ok update.tickLowerUpdate ∧
      nextTickModifyLiquidityUpdate (pool.ticks (pool.position key).tickUpperIndex)
        (pool.position key).tickUpperIndex pool.whirlpool.tickCurrentIndex
        pool.whirlpool.feeGrowthGlobalA pool.whirlpool.feeGrowthGlobalB update.rewardInfos delta
        true = .ok update.tickUpperUpdate ∧
      addLiquidityDelta (pool.position key).liquidity delta =
        .ok update.positionUpdate.liquidity ∧
      (pool.position key).update update.positionUpdate =
        { (pool.position key).settle
            ((pool.accrue update.rewardInfos timestamp).insidePosition key) with
          liquidity := update.positionUpdate.liquidity } := by
  unfold calculateModifyLiquidity at h
  rw [Res.bind_eq_ok] at h
  obtain ⟨tickLower, htl, h⟩ := h
  rw [Res.bind_eq_ok] at h
  obtain ⟨tickUpper, htu, h⟩ := h
  have h1 := hs.getTick_eq_ok hl htl
  have h2 := hs.getTick_eq_ok hu htu
  subst h1 h2
  unfold calculateModifyLiquidity' at h
  rw [ite_err_eq_ok] at h
  obtain ⟨-, h⟩ := h
  simp only [Res.bind_eq_ok] at h
  obtain ⟨infos, hinfos, l, hliq, lower, hlower, upper, hupper, position, hposition, h⟩ := h
  rw [Res.pure_eq_ok, Except.ok.injEq] at h
  subst h
  have hacc := hs.accrue hinfos
  have hfee := (pool.accrue infos timestamp).nextFeeGrowthsInside_eq
    (pool.position key).tickLowerIndex (pool.position key).tickUpperIndex
  have hreward := (pool.accrue infos timestamp).nextRewardGrowthsInside_eq hacc.rewardsBlank
    (pool.position key).tickLowerIndex (pool.position key).tickUpperIndex
  change nextFeeGrowthsInside pool.whirlpool.tickCurrentIndex (pool.ticks _) _ (pool.ticks _) _
    pool.whirlpool.feeGrowthGlobalA pool.whirlpool.feeGrowthGlobalB = _ at hfee
  change nextRewardGrowthsInside pool.whirlpool.tickCurrentIndex (pool.ticks _) _ (pool.ticks _) _
    infos = _ at hreward
  rw [hfee, hreward] at hposition
  change nextPositionModifyLiquidityUpdate _ _
    ((pool.accrue infos timestamp).insidePosition key (.fee .A))
    ((pool.accrue infos timestamp).insidePosition key (.fee .B))
    (fun i => (pool.accrue infos timestamp).insidePosition key (.reward i)) = _ at hposition
  obtain ⟨hadd, hupd⟩ := nextPositionModifyLiquidityUpdate_eq_ok hposition
  exact ⟨hinfos, hliq, hlower, hupper, hadd, hupd⟩

/-! ## Writing back -/

/-- **What is written back**: the position, both ticks in turn, and the pool's record. If both
ticks lie in one array, the second write sees the first. -/
theorem syncModifyLiquidityValues_eq_ok (hs : pool.Sound earned) {arrayLower arrayUpper : ℤ}
    {update : ModifyLiquidityUpdate} {timestamp : ℕ}
    (h : pool.syncModifyLiquidityValues key arrayLower arrayUpper update timestamp = .ok pool') :
    pool'.positions = pool.positions ∧
      pool'.position = Function.update pool.position key
        ((pool.position key).update update.positionUpdate) ∧
      pool'.whirlpool = pool.whirlpool.updateRewardsAndLiquidity update.rewardInfos
        update.whirlpoolLiquidity timestamp ∧
      TickMap.WellPlaced pool'.tickArrays pool.whirlpool.tickSpacing ∧
      pool'.ticks = Function.update
        (Function.update pool.ticks (pool.position key).tickLowerIndex update.tickLowerUpdate)
        (pool.position key).tickUpperIndex update.tickUpperUpdate ∧
      pool'.vaultA = pool.vaultA ∧ pool'.vaultB = pool.vaultB := by
  unfold syncModifyLiquidityValues at h
  simp only [Res.bind_eq_ok, getTickArray_eq_ok] at h
  obtain ⟨lower, hl, lower', hl', upper, hu, upper', hu', h⟩ := h
  rw [Res.pure_eq_ok, Except.ok.injEq] at h
  subst h
  obtain ⟨-, -, hwp1, ht1⟩ := TickMap.updateTick_eq_ok hs.wellPlaced hl hl'
  obtain ⟨-, -, hwp2, ht2⟩ := TickMap.updateTick_eq_ok hwp1 hu hu'
  refine ⟨rfl, rfl, rfl, hwp2, ?_, rfl, rfl⟩
  rw [ht1] at ht2
  exact ht2

/-- The two writes, seen from the settled pool, resize the position.

**Proof sketch.** The accrued pool with the position settled differs from the result by the
liquidity of the position, of the pool and of two ticks. These are the values that the update has
computed, and the two writes put them in place. -/
lemma resized_of_update (hs : pool.Sound earned) (hk : key ∈ pool.positions)
    {arrayLower arrayUpper : ℤ} {tickArrayLower tickArrayUpper : TickArray} {timestamp : ℕ}
    {update : ModifyLiquidityUpdate} (hdelta : delta ≠ 0)
    (hl : pool.tickArrays arrayLower = some tickArrayLower)
    (hu : pool.tickArrays arrayUpper = some tickArrayUpper)
    (h : calculateModifyLiquidity pool.whirlpool (pool.position key) tickArrayLower tickArrayUpper
      delta timestamp = .ok update)
    (hsync : pool.syncModifyLiquidityValues key arrayLower arrayUpper update timestamp =
      .ok pool') :
    Resized ((pool.accrue update.rewardInfos timestamp).settle key) pool' key delta := by
  obtain ⟨hinfos, hliq, hlower, hupper, hadd, hupd⟩ := calculateModifyLiquidity_eq_ok hs hl hu h
  obtain ⟨h1, h2, h3, h4, h5, -⟩ := syncModifyLiquidityValues_eq_ok hs hsync
  have hlt := (hs.onUsableTicks key hk).2.2
  have hglobal : ∀ i, (update.rewardInfos i).growthGlobalX64 =
      (pool.accrue update.rewardInfos timestamp).whirlpool.growthGlobal (.reward i) := fun _ => rfl
  have hlow := nextTickModifyLiquidityUpdate_eq_ok hglobal hdelta hlower
  have hupp := nextTickModifyLiquidityUpdate_eq_ok hglobal hdelta hupper
  rw [if_neg Bool.false_ne_true] at hlow
  rw [if_pos rfl] at hupp
  obtain ⟨q, hq⟩ : ∃ q, (pool.accrue update.rewardInfos timestamp).settle key = q := ⟨_, rfl⟩
  obtain ⟨settled, hset⟩ : ∃ settled, (pool.position key).settle
    ((pool.accrue update.rewardInfos timestamp).insidePosition key) = settled := ⟨_, rfl⟩
  have hq1 : q.positions = pool.positions := hq ▸ rfl
  have hq2 : q.position = Function.update pool.position key settled := hset ▸ hq ▸ rfl
  have hq3 : q.whirlpool = pool.whirlpool.updateRewards update.rewardInfos timestamp := hq ▸ rfl
  have hq4 : q.ticks = pool.ticks := hq ▸ rfl
  have hs1 : settled.tickLowerIndex = (pool.position key).tickLowerIndex := hset ▸ rfl
  have hs2 : settled.tickUpperIndex = (pool.position key).tickUpperIndex := hset ▸ rfl
  have hs3 : settled.liquidity = (pool.position key).liquidity := hset ▸ rfl
  have hqk : q.position key = settled := by rw [hq2, Function.update_self]
  have hp' : pool'.position key = { settled with liquidity := update.positionUpdate.liquidity } := by
    rw [h2, Function.update_self, hupd, hset]
  have hcontains : q.ranges.Contains key q.whirlpool.tickCurrentIndex ↔
      pool.whirlpool.tickCurrentIndex < (pool.position key).tickUpperIndex ∧
        pool.whirlpool.tickCurrentIndex ≥ (pool.position key).tickLowerIndex := by
    change (q.position key).tickLowerIndex ≤ q.whirlpool.tickCurrentIndex ∧
      q.whirlpool.tickCurrentIndex < (q.position key).tickUpperIndex ↔ _
    rw [hqk, hs1, hs2, hq3, and_comm]
    rfl
  unfold nextWhirlpoolLiquidity at hliq
  rw [hq]
  refine ⟨h1.trans hq1.symm, ?_, ?_, fun hb => ?_, ?_, ?_, fun hb => ?_, ?_, ?_, ?_,
    fun t ht1 ht2 => ?_⟩
  · rw [hqk, hp', h2, hq2, Function.update_idem, hupd, hset]
  · rw [hqk, hp', hs3]
    exact addLiquidityDelta_eq_ok hadd
  · rw [hqk, hs3] at hb
    rw [hp']
    exact addLiquidityDelta_lt hb hadd
  · rw [h3, hq3]
    rfl
  · rw [h3, if_congr hcontains rfl rfl, hq3]
    split_ifs at hliq ⊢
    · exact addLiquidityDelta_eq_ok hliq
    · rw [Except.ok.injEq] at hliq
      rw [← hliq, add_zero]
      rfl
  · rw [hq3] at hb
    rw [h3]
    split_ifs at hliq
    · exact addLiquidityDelta_lt hb hliq
    · rw [Except.ok.injEq] at hliq
      exact hliq ▸ hb
  · rw [hq3]
    exact h4
  · rw [hqk, hs1, hq3, hq4, h5, Function.update_of_ne hlt.ne, Function.update_self]
    exact hlow
  · rw [hqk, hs2, hq3, hq4, h5, Function.update_self]
    exact hupp
  · rw [hqk, hs1] at ht1
    rw [hqk, hs2] at ht2
    rw [h5, hq4, Function.update_of_ne ht2, Function.update_of_ne ht1]

/-! ## The handlers -/

/-- **`update_fees_and_rewards` accrues the rewards and settles the position.**

**Proof sketch.** The steps of the source are taken apart. The change of liquidity is zero, so the
update is the settlement of the position. -/
theorem updateFeesAndRewards_eq_ok (hs : pool.Sound earned) {arrayLower arrayUpper : ℤ}
    {clock : Int64} (h : pool.updateFeesAndRewards key arrayLower arrayUpper clock = .ok pool') :
    key ∈ pool.positions ∧ ∃ infos timestamp,
      toTimestampU64 clock = .ok timestamp ∧
      nextWhirlpoolRewardInfos pool.whirlpool timestamp = .ok infos ∧
      pool' = (pool.accrue infos timestamp).settle key := by
  unfold updateFeesAndRewards at h
  simp only [Res.bind_eq_ok, getTickArray_eq_ok] at h
  obtain ⟨position, hp, lower, hl, upper, hu, timestamp, ht, ⟨positionUpdate, infos⟩, hc, h⟩ := h
  obtain ⟨hk, rfl⟩ := getPosition_eq_ok hp
  unfold calculateFeeAndRewardGrowths at hc
  rw [Res.bind_eq_ok] at hc
  obtain ⟨update, hc, he⟩ := hc
  rw [Res.pure_eq_ok, Except.ok.injEq] at he
  obtain ⟨rfl, rfl⟩ := Prod.mk.inj he
  obtain ⟨hinfos, -, -, -, hadd, hupd⟩ := calculateModifyLiquidity_eq_ok hs hl hu hc
  refine ⟨hk, _, _, ht, hinfos, ?_⟩
  have hliq : update.positionUpdate.liquidity = (pool.position key).liquidity := by
    have := addLiquidityDelta_eq_ok hadd
    omega
  rw [Res.pure_eq_ok, Except.ok.injEq] at h
  subst h
  rw [hupd, hliq]
  rfl

/-- **`increase_liquidity` and `decrease_liquidity` accrue the rewards, settle the position and
resize it**, and compute the token amounts of the change.

**Proof sketch.** The inversion of the handler, with the update of `calculateModifyLiquidity_eq_ok`
and the writes of `resized_of_update`. The sign of the change is that of the instruction, and its
size the given amount. -/
theorem modifyLiquidity_eq_ok (hs : pool.Sound earned) {auth : PositionAuthority}
    {arrayLower arrayUpper : ℤ} {liquidityAmount : BitVec 128} {positive : Bool} {clock : Int64}
    {amounts : ℕ × ℕ} (h : pool.modifyLiquidity key auth arrayLower arrayUpper liquidityAmount
      positive clock = .ok (pool', amounts)) :
    key ∈ pool.positions ∧ ∃ infos timestamp delta,
      toTimestampU64 clock = .ok timestamp ∧
      nextWhirlpoolRewardInfos pool.whirlpool timestamp = .ok infos ∧
      delta ≠ 0 ∧ delta.natAbs < 2 ^ 127 ∧ decide (delta > 0) = positive ∧
      delta.natAbs = liquidityAmount.toNat ∧
      Resized ((pool.accrue infos timestamp).settle key) pool' key delta ∧
      calculateLiquidityTokenDeltas pool.whirlpool.tickCurrentIndex pool.whirlpool.sqrtPrice
        (pool'.position key) delta = .ok amounts ∧
      ∀ X, pool'.vault X = pool.vault X := by
  unfold modifyLiquidity at h
  rw [Res.bind_eq_ok] at h
  obtain ⟨position, hp, h⟩ := h
  obtain ⟨hk, rfl⟩ := getOwnedPosition_eq_ok hp
  simp only [Res.bind_eq_ok, getTickArray_eq_ok, ite_err_eq_ok] at h
  obtain ⟨lower, hl, upper, hu, -, -, hne, delta, hdelta, timestamp, ht, update, hc, pool₁, hsync,
    ⟨deltaA, deltaB⟩, hd, h⟩ := h
  rw [Res.pure_eq_ok, Except.ok.injEq] at h
  obtain ⟨rfl, rfl⟩ := Prod.mk.inj h
  obtain ⟨hlt, hdef⟩ := convertToLiquidityDelta_eq_ok.1 hdelta
  obtain ⟨hinfos, -⟩ := calculateModifyLiquidity_eq_ok hs hl hu hc
  obtain ⟨-, -, hw, -, -, hA, hB⟩ := syncModifyLiquidityValues_eq_ok hs hsync
  have hne0 : delta ≠ 0 := by
    rw [hdef]
    split_ifs <;> omega
  refine ⟨hk, update.rewardInfos, timestamp, delta, ht, hinfos, hne0, ?_, ?_, ?_,
    resized_of_update hs hk hne0 hl hu hc hsync, ?_, fun X => ?_⟩
  · rw [hdef]
    split_ifs <;> omega
  · rw [hdef]
    cases positive with
    | true => rw [if_pos rfl, decide_eq_true_eq]; omega
    | false => rw [if_neg Bool.false_ne_true, decide_eq_false_iff_not]; omega
  · rw [hdef]
    split_ifs <;> omega
  · rw [hw] at hd
    exact hd
  · cases X
    · exact hA
    · exact hB

end Pool

end NemoSwap
