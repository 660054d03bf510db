import NemoSwap.Pool.ModifyLiquidity

set_option relaxedAutoImplicit false
set_option autoImplicit false

/-!
# Instructions that leave the market alone

Opening and closing positions, collecting, creating tick arrays and setting rates change neither
the price, nor the ticks, nor any position with liquidity. What they pay out of a vault they take
off the amounts owed. One lemma says that every such step keeps the invariant of the pool, and one
lemma for each instruction says that it is such a step.

## Main definitions

* `NemoSwap.Pool.Quiet` — the steps that leave the market alone.

## Main results

* `NemoSwap.Pool.Quiet.sound`, `NemoSwap.Pool.Quiet.backed` — they keep the invariant.
* `NemoSwap.Pool.openPosition_quiet`, `NemoSwap.Pool.collectFees_quiet`, … — the instructions.
-/

namespace NemoSwap

namespace Pool

variable {pool pool' : Pool} {earned : Earnings} {key : Pubkey}

/-- What the accounts owe of a token: fees to the protocol and fees to positions. -/
def owed (pool : Pool) (X : Token) : ℕ := pool.whirlpool.protocolFeeOwed X + pool.feesOwed X

/-- A step that leaves the market and the nonempty positions as they are. -/
structure Quiet (pool pool' : Pool) : Prop where
  tickSpacing : pool'.whirlpool.tickSpacing = pool.whirlpool.tickSpacing
  tickCurrentIndex : pool'.whirlpool.tickCurrentIndex = pool.whirlpool.tickCurrentIndex
  sqrtPrice : pool'.whirlpool.sqrtPrice = pool.whirlpool.sqrtPrice
  liquidity : pool'.whirlpool.liquidity = pool.whirlpool.liquidity
  growthGlobal : pool'.whirlpool.growthGlobal = pool.whirlpool.growthGlobal
  feeRate : pool.whirlpool.feeRate ≤ maxFeeRate → pool'.whirlpool.feeRate ≤ maxFeeRate
  protocolFeeRate : pool.whirlpool.protocolFeeRate ≤ maxProtocolFeeRate →
    pool'.whirlpool.protocolFeeRate ≤ maxProtocolFeeRate
  uninitialized : ∀ i, (pool'.whirlpool.rewardInfos i).initialized = false →
    (pool.whirlpool.rewardInfos i).initialized = false
  wellPlaced : TickMap.WellPlaced pool'.tickArrays pool.whirlpool.tickSpacing
  ticks : pool'.ticks = pool.ticks
  ranges : pool.ranges.SameNonempty pool'.ranges
  onUsableTicks : ∀ k ∈ pool'.positions,
    UsableTick pool.whirlpool.tickSpacing (pool'.position k).tickLowerIndex ∧
      UsableTick pool.whirlpool.tickSpacing (pool'.position k).tickUpperIndex ∧
      (pool'.position k).tickLowerIndex < (pool'.position k).tickUpperIndex
  checkpoint : ∀ k ∈ pool.positions, (pool.position k).liquidity ≠ 0 →
    (pool'.position k).growthCheckpoint = (pool.position k).growthCheckpoint
  /-- What leaves a vault was owed. -/
  paid : ∀ X, pool'.owed X + pool.vault X = pool.owed X + pool'.vault X
  vault_lt : ∀ X, pool.vault X < 2 ^ 64 → pool'.vault X < 2 ^ 64

/-! ## The invariant -/

/-- The books depend on the nonempty positions only. -/
lemma books_of_sameNonempty {R R' : Ranges Pubkey ℤ} {T : ℤ → Tick} {c : ℤ} {l : ℕ}
    (h : R.SameNonempty R') (hb : Books R T c l) : Books R' T c l :=
  ⟨by rw [h.active]; exact hb.active, fun t => by rw [h.net]; exact hb.net t,
    fun t => by rw [h.gross]; exact hb.gross t, fun t => by rw [h.gross]; exact hb.initialized t,
    hb.blank⟩

/-- **A quiet step keeps the invariant.**

**Proof sketch.** The ticks and the nonempty ranges stay, so the books and the growths inside do.
The fields that a quiet step may change are the ones that it states bounds for. -/
theorem Quiet.sound (h : pool.Quiet pool') (hs : pool.Sound earned) : pool'.Sound earned := by
  refine ⟨h.tickSpacing ▸ hs.spacing, h.tickSpacing ▸ h.wellPlaced, ?_, h.feeRate hs.feeRate,
    h.protocolFeeRate hs.protocolFeeRate, h.liquidity ▸ hs.liquidity_lt, fun k hk => ?_,
    fun k hk => ?_, ?_, fun i hi => ?_, fun k hk h0 ch => ?_⟩
  · rw [h.tickCurrentIndex, h.sqrtPrice]
    exact hs.price
  · rcases eq_or_ne (pool'.position k).liquidity 0 with h0 | h0
    · rw [h0]
      positivity
    · obtain ⟨hk', h0'⟩ := (h.ranges.mem k).1 ⟨hk, h0⟩
      have hsize : (pool'.position k).liquidity = (pool.position k).liquidity :=
        h.ranges.size k hk' h0'
      exact hsize ▸ hs.position_lt k hk'
  · rw [h.tickSpacing]
    exact h.onUsableTicks k hk
  · rw [h.ticks, h.tickCurrentIndex, h.liquidity]
    exact books_of_sameNonempty h.ranges hs.books
  · obtain ⟨h1, h2⟩ := hs.rewardsBlank i (h.uninitialized i hi)
    have hg := congrFun h.growthGlobal (.reward i)
    change (pool'.whirlpool.rewardInfos i).growthGlobalX64 = _ at hg
    rw [hg, h.ticks]
    exact ⟨h1, h2⟩
  · obtain ⟨hk', h0'⟩ := (h.ranges.mem k).1 ⟨hk, h0⟩
    have hlo : (pool'.position k).tickLowerIndex = (pool.position k).tickLowerIndex :=
      h.ranges.lower k hk' h0'
    have hhi : (pool'.position k).tickUpperIndex = (pool.position k).tickUpperIndex :=
      h.ranges.upper k hk' h0'
    rw [h.checkpoint k hk' h0', hlo, hhi, inside, h.ticks, h.growthGlobal, h.tickCurrentIndex]
    exact hs.checkpoints k hk' h0' ch

/-- A quiet step changes the obligations by what it pays.

**Proof sketch.** The fees that are earned and the reserve are the same, so the obligations change
by what is owed, and `paid` says that the vault changes by as much. -/
theorem Quiet.obligations (h : pool.Quiet pool') (earned : Earnings) (X : Token) :
    pool'.obligations earned X + pool.vault X = pool.obligations earned X + pool'.vault X := by
  have hfees : pool'.feesEarned earned X = pool.feesEarned earned X := by
    unfold feesEarned
    rw [h.ranges.total fun _ _ _ => rfl]
  have hres : reserve pool'.ranges X pool'.whirlpool.sqrtPrice =
      reserve pool.ranges X pool.whirlpool.sqrtPrice := by
    rw [h.sqrtPrice]
    exact h.ranges.total fun k hk h0 => by rw [h.ranges.lower k hk h0, h.ranges.upper k hk h0]
  have hpaid : ((pool'.owed X + pool.vault X : ℕ) : ℚ) = (pool.owed X + pool'.vault X : ℕ) := by
    rw [h.paid]
  unfold owed at hpaid
  push_cast at hpaid
  unfold Pool.obligations
  rw [hfees, hres]
  linarith

/-- **A quiet step keeps the vaults covered.** -/
theorem Quiet.backed (h : pool.Quiet pool') (hb : pool.Backed earned) : pool'.Backed earned := by
  refine ⟨fun X => ?_, fun X => h.vault_lt X (hb.vault_lt X)⟩
  have h1 := h.obligations earned X
  have h2 := hb.covered X
  linarith

/-! ## Token transfers -/

/-- A transfer out of a vault takes the amount from it. -/
theorem transferFromVaultToOwner_eq_ok {balance : UInt64} {v v' amount : ℕ}
    (h : transferFromVaultToOwner balance v amount = .ok v') : v' + amount = v := by
  unfold transferFromVaultToOwner at h
  split_ifs at h with h1
  rw [Except.ok.injEq] at h
  omega

/-- A transfer into a vault adds the amount, and the vault remains a `u64`. -/
theorem transferFromOwnerToVault_eq_ok {balance : UInt64} {v v' amount : ℕ}
    (h : transferFromOwnerToVault balance v amount = .ok v') :
    v' = v + amount ∧ v' < 2 ^ 64 := by
  unfold transferFromOwnerToVault at h
  split_ifs at h with h1 h2
  rw [Except.ok.injEq] at h
  omega

/-! ## Changes of the pool's record -/

/-- A change of the rates, the flag or the data of a reward is quiet.

**Proof sketch.** The positions, the ticks and the vaults are not touched, and nor is what the
protocol is owed. -/
lemma quiet_whirlpool (hs : pool.Sound earned) {w : Whirlpool}
    (hspacing : w.tickSpacing = pool.whirlpool.tickSpacing)
    (htick : w.tickCurrentIndex = pool.whirlpool.tickCurrentIndex)
    (hprice : w.sqrtPrice = pool.whirlpool.sqrtPrice)
    (hliq : w.liquidity = pool.whirlpool.liquidity)
    (hgrowth : w.growthGlobal = pool.whirlpool.growthGlobal)
    (hfee : pool.whirlpool.feeRate ≤ maxFeeRate → w.feeRate ≤ maxFeeRate)
    (hprot : pool.whirlpool.protocolFeeRate ≤ maxProtocolFeeRate →
      w.protocolFeeRate ≤ maxProtocolFeeRate)
    (huninit : ∀ i, (w.rewardInfos i).initialized = false →
      (pool.whirlpool.rewardInfos i).initialized = false)
    (howed : w.protocolFeeOwed = pool.whirlpool.protocolFeeOwed) :
    pool.Quiet { pool with whirlpool := w } where
  tickSpacing := hspacing
  tickCurrentIndex := htick
  sqrtPrice := hprice
  liquidity := hliq
  growthGlobal := hgrowth
  feeRate := hfee
  protocolFeeRate := hprot
  uninitialized := huninit
  wellPlaced := hs.wellPlaced
  ticks := by
    unfold Pool.ticks
    rw [hspacing]
  ranges := ⟨fun _ => Iff.rfl, fun _ _ _ => rfl, fun _ _ _ => rfl, fun _ _ _ => rfl⟩
  onUsableTicks := hs.onUsableTicks
  checkpoint := fun _ _ _ => rfl
  paid := fun X => by
    unfold owed
    rw [howed]
    rfl
  vault_lt := fun _ h => h

/-- `set_fee_rate` is quiet. -/
theorem setFeeRate_quiet (hs : pool.Sound earned) {feeRate : ℕ}
    (h : pool.setFeeRate feeRate = .ok pool') : pool.Quiet pool' := by
  unfold setFeeRate Whirlpool.updateFeeRate at h
  rw [Res.bind_eq_ok] at h
  obtain ⟨w, hw, h⟩ := h
  rw [ite_err_eq_ok, Res.pure_eq_ok, Except.ok.injEq] at hw
  rw [Res.pure_eq_ok, Except.ok.injEq] at h
  obtain ⟨hle, rfl⟩ := hw
  subst h
  exact quiet_whirlpool hs rfl rfl rfl rfl rfl (fun _ => not_lt.1 hle) id (fun _ h => h) rfl

/-- `set_protocol_fee_rate` is quiet. -/
theorem setProtocolFeeRate_quiet (hs : pool.Sound earned) {protocolFeeRate : ℕ}
    (h : pool.setProtocolFeeRate protocolFeeRate = .ok pool') : pool.Quiet pool' := by
  unfold setProtocolFeeRate Whirlpool.updateProtocolFeeRate at h
  rw [Res.bind_eq_ok] at h
  obtain ⟨w, hw, h⟩ := h
  rw [ite_err_eq_ok, Res.pure_eq_ok, Except.ok.injEq] at hw
  rw [Res.pure_eq_ok, Except.ok.injEq] at h
  obtain ⟨hle, rfl⟩ := hw
  subst h
  exact quiet_whirlpool hs rfl rfl rfl rfl rfl id (fun _ => not_lt.1 hle) (fun _ h => h) rfl

/-- `set_enable_flag` is quiet. -/
lemma setEnableFlag_quiet (hs : pool.Sound earned) (isEnabled : Bool) :
    pool.Quiet (pool.setEnableFlag isEnabled) :=
  quiet_whirlpool hs rfl rfl rfl rfl rfl id id (fun _ h => h) rfl

/-- A change of one reward that keeps its growth is quiet.

**Proof sketch.** By `quiet_whirlpool`: the fees do not grow, another reward is not touched, and
this one keeps its growth. -/
lemma quiet_updateReward (hs : pool.Sound earned) (i : Fin numRewards)
    {f : WhirlpoolRewardInfo → WhirlpoolRewardInfo}
    (hf : (f (pool.whirlpool.rewardInfos i)).growthGlobalX64 =
      (pool.whirlpool.rewardInfos i).growthGlobalX64)
    (hinit : (f (pool.whirlpool.rewardInfos i)).initialized = false →
      (pool.whirlpool.rewardInfos i).initialized = false) :
    pool.Quiet { pool with whirlpool := pool.whirlpool.updateReward i f } := by
  have howed : (pool.whirlpool.updateReward i f).protocolFeeOwed =
      pool.whirlpool.protocolFeeOwed := funext fun X => by cases X <;> rfl
  refine quiet_whirlpool hs rfl rfl rfl rfl ?_ id id (fun j hj => ?_) howed
  · funext ch
    rcases ch with X | j
    · cases X <;> rfl
    · change (Function.update pool.whirlpool.rewardInfos i _ j).growthGlobalX64 =
        (pool.whirlpool.rewardInfos j).growthGlobalX64
      rcases eq_or_ne j i with rfl | hne
      · rw [Function.update_self, hf]
      · rw [Function.update_of_ne hne]
  · change (Function.update pool.whirlpool.rewardInfos i _ j).initialized = false at hj
    rcases eq_or_ne j i with rfl | hne
    · rw [Function.update_self] at hj
      exact hinit hj
    · rwa [Function.update_of_ne hne] at hj

/-- `initialize_reward` is quiet: a reward starts without growth.

**Proof sketch.** By `quiet_updateReward`: the reward was not initialized, so it has not grown, and
the new one starts at zero. -/
theorem initializeReward_quiet (hs : pool.Sound earned) {index : ℕ} {mint vault : Pubkey}
    (h : pool.initializeReward index mint vault = .ok pool') : pool.Quiet pool' := by
  unfold Pool.initializeReward Whirlpool.initializeReward at h
  rw [Res.bind_eq_ok] at h
  obtain ⟨w, hw, h⟩ := h
  rw [Res.pure_eq_ok, Except.ok.injEq] at h
  subst h
  split_ifs at hw with hi
  · split at hw
    · simp at hw
    · next lowest hlow =>
      rw [ite_err_eq_ok, Res.pure_eq_ok, Except.ok.injEq, not_not] at hw
      obtain ⟨rfl, rfl⟩ := hw
      refine quiet_updateReward hs _ rfl fun _ => ?_
      have := List.find?_some hlow
      simpa using this
  · simp at hw

/-- `set_reward_authority` is quiet. -/
theorem setRewardAuthority_quiet (hs : pool.Sound earned) {index : ℕ} {authority : Pubkey}
    (h : pool.setRewardAuthority index authority = .ok pool') : pool.Quiet pool' := by
  unfold setRewardAuthority Whirlpool.updateRewardAuthority at h
  rw [Res.bind_eq_ok] at h
  obtain ⟨w, hw, h⟩ := h
  rw [Res.pure_eq_ok, Except.ok.injEq] at h
  subst h
  split_ifs at hw with hi
  · rw [Res.pure_eq_ok, Except.ok.injEq] at hw
    subst hw
    exact quiet_updateReward hs _ rfl fun h => h
  · simp at hw

/-- `set_reward_emissions` accrues the rewards at the old rate, and is quiet apart from that. -/
theorem setRewardEmissions_quiet (hs : pool.Sound earned) {index : ℕ} {emissions : BitVec 128}
    {rewardVault : UInt64} {clock : Int64}
    (h : pool.setRewardEmissions index emissions rewardVault clock = .ok pool') :
    ∃ infos timestamp, toTimestampU64 clock = .ok timestamp ∧
      nextWhirlpoolRewardInfos pool.whirlpool timestamp = .ok infos ∧
      (pool.accrue infos timestamp).Quiet pool' := by
  unfold setRewardEmissions at h
  split_ifs at h with hi hv
  rw [Res.bind_eq_ok] at h
  obtain ⟨perDay, -, h⟩ := h
  rw [ite_err_eq_ok, Res.bind_eq_ok] at h
  obtain ⟨-, timestamp, ht, h⟩ := h
  rw [Res.bind_eq_ok] at h
  obtain ⟨infos, hinfos, h⟩ := h
  unfold Whirlpool.updateEmissions at h
  rw [dif_pos hi, Res.pure_eq_ok, Res.ok_bind, Res.pure_eq_ok, Except.ok.injEq] at h
  subst h
  exact ⟨infos, timestamp, ht, hinfos,
    quiet_updateReward (hs.accrue hinfos) ⟨index, hi⟩ rfl fun h => h⟩

/-! ## Changes of a position -/

/-- A change of what a position is owed is quiet, if the vaults pay the difference.

**Proof sketch.** The range and the liquidity of the position stay, so the nonempty ranges do. What
it is owed falls by what the vaults pay. -/
lemma quiet_setPosition (hs : pool.Sound earned) (hk : key ∈ pool.positions)
    (position : Position) (hlo : position.tickLowerIndex = (pool.position key).tickLowerIndex)
    (hhi : position.tickUpperIndex = (pool.position key).tickUpperIndex)
    (hliq : position.liquidity = (pool.position key).liquidity)
    (hcheck : position.growthCheckpoint = (pool.position key).growthCheckpoint)
    {a b : ℕ} (ha : position.feeOwedA + pool.vaultA = (pool.position key).feeOwedA + a)
    (hb : position.feeOwedB + pool.vaultB = (pool.position key).feeOwedB + b)
    (hale : a ≤ pool.vaultA) (hble : b ≤ pool.vaultB) :
    pool.Quiet { (pool.setPosition key position) with vaultA := a, vaultB := b } where
  tickSpacing := rfl
  tickCurrentIndex := rfl
  sqrtPrice := rfl
  liquidity := rfl
  growthGlobal := rfl
  feeRate := id
  protocolFeeRate := id
  uninitialized := fun _ h => h
  wellPlaced := hs.wellPlaced
  ticks := rfl
  ranges := by
    change pool.ranges.SameNonempty (pool.setPosition key position).ranges
    rw [ranges_setPosition hlo hhi hliq]
    exact ⟨fun _ => Iff.rfl, fun _ _ _ => rfl, fun _ _ _ => rfl, fun _ _ _ => rfl⟩
  onUsableTicks := fun k hk' => by
    change UsableTick _ ((pool.setPosition key position).position k).tickLowerIndex ∧
      UsableTick _ ((pool.setPosition key position).position k).tickUpperIndex ∧ _
    rcases eq_or_ne k key with rfl | hne
    · rw [setPosition_self, hlo, hhi]
      exact hs.onUsableTicks k hk
    · rw [setPosition_of_ne _ _ hne]
      exact hs.onUsableTicks k hk'
  checkpoint := fun k _ _ => by
    change ((pool.setPosition key position).position k).growthCheckpoint = _
    rcases eq_or_ne k key with rfl | hne
    · rw [setPosition_self, hcheck]
    · rw [setPosition_of_ne _ _ hne]
  paid := fun X => by
    have hsum := pool.feesOwed_setPosition position hk X
    change pool.whirlpool.protocolFeeOwed X + (pool.setPosition key position).feesOwed X +
      pool.vault X = pool.whirlpool.protocolFeeOwed X + pool.feesOwed X + _
    cases X with
    | A =>
      change _ + (pool.position key).feeOwedA = _ + position.feeOwedA at hsum
      change _ + pool.vaultA = _ + a
      omega
    | B =>
      change _ + (pool.position key).feeOwedB = _ + position.feeOwedB at hsum
      change _ + pool.vaultB = _ + b
      omega
  vault_lt := fun X h => by
    cases X with
    | A => exact lt_of_le_of_lt hale h
    | B => exact lt_of_le_of_lt hble h

/-- `collect_fees` is quiet.

**Proof sketch.** The fees that the position was owed leave the vault and the books together, and
the position earns as before. -/
theorem collectFees_quiet (hs : pool.Sound earned) {auth : PositionAuthority} {funds : OwnerFunds}
    (h : pool.collectFees key auth funds = .ok pool') : pool.Quiet pool' := by
  unfold collectFees at h
  simp only [Res.bind_eq_ok] at h
  obtain ⟨position, hp, vaultA, ha, vaultB, hb, h⟩ := h
  obtain ⟨hk, rfl⟩ := getOwnedPosition_eq_ok hp
  rw [Res.pure_eq_ok, Except.ok.injEq] at h
  subst h
  have ha' : vaultA + (pool.position key).feeOwedA = pool.vaultA :=
    transferFromVaultToOwner_eq_ok ha
  have hb' : vaultB + (pool.position key).feeOwedB = pool.vaultB :=
    transferFromVaultToOwner_eq_ok hb
  have hcheck : (pool.position key).resetFeesOwed.growthCheckpoint =
      (pool.position key).growthCheckpoint := funext fun ch => by
    rcases ch with X | i
    · cases X <;> rfl
    · rfl
  have h1 : (pool.position key).resetFeesOwed.feeOwedA = 0 := rfl
  have h2 : (pool.position key).resetFeesOwed.feeOwedB = 0 := rfl
  have hle1 : vaultA ≤ pool.vaultA := by omega
  have hle2 : vaultB ≤ pool.vaultB := by omega
  exact quiet_setPosition hs hk (pool.position key).resetFeesOwed rfl rfl rfl hcheck (by omega)
    (by omega) hle1 hle2

/-- `collect_reward` is quiet.

**Proof sketch.** Only what the position is owed of the reward changes, by the part that its vault
could pay. -/
theorem collectReward_quiet (hs : pool.Sound earned) {auth : PositionAuthority} {index : ℕ}
    {rewardVault rewardOwner : UInt64}
    (h : pool.collectReward key auth index rewardVault rewardOwner = .ok pool') :
    pool.Quiet pool' := by
  unfold collectReward at h
  rw [Res.bind_eq_ok] at h
  obtain ⟨position, hp, h⟩ := h
  obtain ⟨hk, rfl⟩ := getOwnedPosition_eq_ok hp
  split_ifs at h with hi hv
  rw [Res.bind_eq_ok] at h
  obtain ⟨-, -, h⟩ := h
  rw [Res.pure_eq_ok, Except.ok.injEq] at h
  subst h
  obtain ⟨amount, hamount⟩ : ∃ amount, (calculateCollectReward
    ((pool.position key).rewardInfos ⟨index, hi⟩).amountOwed rewardVault.toNat).2 = amount :=
    ⟨_, rfl⟩
  rw [hamount]
  have hcheck : ((pool.position key).updateRewardOwed ⟨index, hi⟩ amount).growthCheckpoint =
      (pool.position key).growthCheckpoint := by
    funext ch
    rcases ch with X | i
    · cases X <;> rfl
    change (Function.update (pool.position key).rewardInfos ⟨index, hi⟩ _ i).growthInsideCheckpoint =
      ((pool.position key).rewardInfos i).growthInsideCheckpoint
    rcases eq_or_ne i ⟨index, hi⟩ with rfl | hne
    · rw [Function.update_self]
    · rw [Function.update_of_ne hne]
  exact quiet_setPosition hs hk ((pool.position key).updateRewardOwed ⟨index, hi⟩ amount) rfl rfl
    rfl hcheck rfl rfl le_rfl le_rfl

/-- `collect_protocol_fees` is quiet.

**Proof sketch.** The fees that the protocol was owed leave the vaults and the books together. -/
theorem collectProtocolFees_quiet (hs : pool.Sound earned) {funds : OwnerFunds}
    (h : pool.collectProtocolFees funds = .ok pool') : pool.Quiet pool' := by
  unfold collectProtocolFees at h
  simp only [Res.bind_eq_ok] at h
  obtain ⟨vaultA, ha, vaultB, hb, h⟩ := h
  have ha' := transferFromVaultToOwner_eq_ok ha
  have hb' := transferFromVaultToOwner_eq_ok hb
  rw [Res.pure_eq_ok, Except.ok.injEq] at h
  subst h
  refine ⟨rfl, rfl, rfl, rfl, funext fun ch => ?_, id, id, fun _ h => h, hs.wellPlaced, rfl,
    ⟨fun _ => Iff.rfl, fun _ _ _ => rfl, fun _ _ _ => rfl, fun _ _ _ => rfl⟩, hs.onUsableTicks,
    fun _ _ _ => rfl, fun X => ?_, fun X hlt => ?_⟩
  · rcases ch with X | i
    · cases X <;> rfl
    · rfl
  · cases X with
    | A =>
      change 0 + pool.feesOwed .A + pool.vaultA =
        pool.whirlpool.protocolFeeOwedA + pool.feesOwed .A + vaultA
      omega
    | B =>
      change 0 + pool.feesOwed .B + pool.vaultB =
        pool.whirlpool.protocolFeeOwedB + pool.feesOwed .B + vaultB
      omega
  · cases X with
    | A => exact lt_of_le_of_lt (show vaultA ≤ pool.vaultA by omega) hlt
    | B => exact lt_of_le_of_lt (show vaultB ≤ pool.vaultB by omega) hlt

/-! ## Opening and closing -/

/-- `open_position` is quiet.

**Proof sketch.** The new position is empty, so it changes neither the books nor what is owed, and
its range lies on usable ticks, as the instruction has checked. -/
theorem openPosition_quiet (hs : pool.Sound earned) {mint : Pubkey} {lo hi : ℤ}
    (h : pool.openPosition key mint lo hi = .ok pool') : pool.Quiet pool' := by
  unfold Pool.openPosition at h
  split_ifs at h with hk
  simp only [Res.bind_eq_ok] at h
  obtain ⟨-, -, position, hp, h⟩ := h
  obtain ⟨h1, h2, h3, hpos⟩ := Position.openPosition_eq_ok hs.spacing hp
  rw [Res.pure_eq_ok, Except.ok.injEq] at h
  subst h
  have hold : ∀ k ∈ pool.positions, (pool.setPosition key position).position k =
      pool.position k := fun k hk' => setPosition_of_ne _ _ fun he => hk (he ▸ hk')
  have hnew : (pool.setPosition key position).position key = position := setPosition_self _ _ _
  have hzero : position.liquidity = 0 := hpos ▸ rfl
  refine ⟨rfl, rfl, rfl, rfl, rfl, id, id, fun _ h => h, hs.wellPlaced, rfl,
    ⟨fun k => ?_, fun k hk' _ => ?_, fun k hk' _ => ?_, fun k hk' _ => ?_⟩, fun k hk' => ?_,
    fun k hk' _ => ?_, fun X => ?_, fun _ h => h⟩
  · change k ∈ insert key pool.positions ∧
      ((pool.setPosition key position).position k).liquidity ≠ 0 ↔
        k ∈ pool.positions ∧ (pool.position k).liquidity ≠ 0
    rcases eq_or_ne k key with rfl | hne
    · rw [hnew]
      exact ⟨fun h => absurd hzero h.2, fun h => absurd h.1 hk⟩
    · rw [setPosition_of_ne _ _ hne, Finset.mem_insert, or_iff_right hne]
  · exact congrArg Position.tickLowerIndex (hold k hk')
  · exact congrArg Position.tickUpperIndex (hold k hk')
  · exact congrArg Position.liquidity (hold k hk')
  · change UsableTick _ ((pool.setPosition key position).position k).tickLowerIndex ∧
      UsableTick _ ((pool.setPosition key position).position k).tickUpperIndex ∧ _
    rcases Finset.mem_insert.1 hk' with rfl | hk'
    · rw [hnew, hpos]
      exact ⟨h1, h2, h3⟩
    · rw [hold k hk']
      exact hs.onUsableTicks k hk'
  · exact congrArg Position.growthCheckpoint (hold k hk')
  · have hfee : position.feeOwed X = 0 := by
      rw [hpos]
      cases X <;> rfl
    have hsum : ∑ k ∈ pool.positions, ((pool.setPosition key position).position k).feeOwed X =
        pool.feesOwed X := Finset.sum_congr rfl fun k hk' => by rw [hold k hk']
    change pool.whirlpool.protocolFeeOwed X +
      ∑ k ∈ insert key pool.positions, ((pool.setPosition key position).position k).feeOwed X +
        pool.vault X = pool.whirlpool.protocolFeeOwed X + pool.feesOwed X + pool.vault X
    rw [Finset.sum_insert hk, hnew, hfee, hsum, zero_add]

/-- `close_position` is quiet.

**Proof sketch.** The position was empty, so the books and what is owed do not lose anything with
it. -/
theorem closePosition_quiet (hs : pool.Sound earned) {auth : PositionAuthority}
    (h : pool.closePosition key auth = .ok pool') : pool.Quiet pool' := by
  obtain ⟨position, hp, hempty, -, -, rfl⟩ := closePosition_eq_ok.1 h
  obtain ⟨hk, rfl⟩ := getOwnedPosition_eq_ok hp
  rw [Position.isPositionEmpty_iff] at hempty
  obtain ⟨h0, hA, hB, -⟩ := hempty
  refine ⟨rfl, rfl, rfl, rfl, rfl, id, id, fun _ h => h, hs.wellPlaced, rfl,
    ⟨fun k => ?_, fun _ _ _ => rfl, fun _ _ _ => rfl, fun _ _ _ => rfl⟩,
    fun k hk' => hs.onUsableTicks k (Finset.mem_of_mem_erase hk'), fun _ _ _ => rfl, fun X => ?_,
    fun _ h => h⟩
  · change k ∈ pool.positions.erase key ∧ (pool.position k).liquidity ≠ 0 ↔
      k ∈ pool.positions ∧ (pool.position k).liquidity ≠ 0
    rw [Finset.mem_erase]
    exact ⟨fun h => ⟨h.1.2, h.2⟩, fun h => ⟨⟨fun he => h.2 (he ▸ h0), h.1⟩, h.2⟩⟩
  · have hfee : (pool.position key).feeOwed X = 0 := by
      cases X
      · exact hA
      · exact hB
    have hsum : ∑ k ∈ pool.positions.erase key, (pool.position k).feeOwed X = pool.feesOwed X :=
      Finset.sum_erase _ hfee
    change pool.whirlpool.protocolFeeOwed X + ∑ k ∈ pool.positions.erase key,
      (pool.position k).feeOwed X + pool.vault X = _
    rw [hsum]
    rfl

/-! ## Tick arrays -/

/-- `initialize_tick_array` is quiet.

**Proof sketch.** The ticks of the new array are default ones, as all ticks without an account are,
and its start is one that `check_is_valid_start_tick` has accepted. -/
theorem initializeTickArray_quiet (hs : pool.Sound earned) {start : ℤ}
    (h : pool.initializeTickArray start = .ok pool') : pool.Quiet pool' := by
  unfold initializeTickArray at h
  split_ifs at h with hsome
  rw [Res.bind_eq_ok] at h
  obtain ⟨array, ha, h⟩ := h
  rw [Res.pure_eq_ok, Except.ok.injEq] at h
  subst h
  unfold TickArray.initializeArray at ha
  rw [Res.bind_eq_ok] at ha
  obtain ⟨valid, hvalid, ha⟩ := ha
  rw [ite_err_eq_ok, Res.pure_eq_ok, Except.ok.injEq, Bool.not_eq_true', Bool.not_eq_false] at ha
  obtain ⟨rfl, ha⟩ := ha
  obtain ⟨-, hdvd⟩ := Tick.checkIsValidStartTick_dvd hvalid
  obtain rfl : array.startTickIndex = start := ha ▸ rfl
  have hnone : pool.tickArrays array.startTickIndex = none := by
    rwa [Option.not_isSome_iff_eq_none] at hsome
  have hempty : ∀ t, array.tickAt pool.whirlpool.tickSpacing t = Tick.default := fun t => by
    rw [← ha]
    unfold TickArray.tickAt TickArray.slot TickArray.default
    simp
  exact ⟨rfl, rfl, rfl, rfl, rfl, id, id, fun _ h => h, hs.wellPlaced.update hdvd,
    funext fun t => TickMap.tick_update_new hnone hempty t,
    ⟨fun _ => Iff.rfl, fun _ _ _ => rfl, fun _ _ _ => rfl, fun _ _ _ => rfl⟩, hs.onUsableTicks,
    fun _ _ _ => rfl, fun _ => rfl, fun _ h => h⟩

end Pool

end NemoSwap
