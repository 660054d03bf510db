import NemoSwap.Pool.Equivalent
import NemoSwap.Pool.RoundTrip

set_option relaxedAutoImplicit false
set_option autoImplicit false

/-!
# Changes of liquidity commute

Two changes of liquidity of different positions at one time lead to equivalent pools in either
order. The growths outside the ticks and the checkpoints may differ, since a shared tick may be
emptied and initialized again in one order only, but what the positions have earned does not.

## Main definitions

* `NemoSwap.PoolOp.liquidityChange` — the position, the signed liquidity and the clock of an
  instruction that changes liquidity.
* `NemoSwap.signedDelta` — what a change of liquidity adds to a vault.

## Main results

* `NemoSwap.Pool.step_liquidityChange` — the inversion of a change of liquidity.
* `NemoSwap.Pool.Updated.equivalent` — the two orders lead to equivalent pools.
* `NemoSwap.Reachable.liquidityChanges_commute` — what this means for the accounts.
-/

namespace NemoSwap

/-- The position, the signed liquidity and the clock of a change of liquidity. -/
def PoolOp.liquidityChange : PoolOp → Option (Pubkey × ℤ × Int64)
  | .increaseLiquidity key _ _ _ amount _ _ clock _ => some (key, amount.toNat, clock)
  | .decreaseLiquidity key _ _ _ amount _ _ clock _ => some (key, -amount.toNat, clock)
  | _ => none

/-- What a change of liquidity adds to the vault of a token. -/
def signedDelta (X : Token) (lo hi : ℤ) (p : ℕ) (delta : ℤ) : ℤ :=
  if 0 < delta then rangeDelta X lo hi p delta.natAbs true
  else -rangeDelta X lo hi p delta.natAbs false

namespace Pool

variable {pool pool₁ pool₂ pool' : Pool} {earned : Earnings} {key k₁ k₂ : Pubkey} {d d₁ d₂ : ℤ}
  {infos infos' : Fin numRewards → WhirlpoolRewardInfo} {timestamp : ℕ}

/-! ## The inversion of a change of liquidity -/

/-- Writing an array over another. -/
lemma isSome_update {arrays : TickMap} {s : ℤ} (h : (arrays s).isSome = true) (array : TickArray)
    (t : ℤ) : (Function.update arrays s (some array) t).isSome = (arrays t).isSome := by
  rcases eq_or_ne t s with rfl | hne
  · rw [Function.update_self, h]
    rfl
  · rw [Function.update_of_ne hne]

/-- A change of liquidity creates no tick array. -/
lemma syncModifyLiquidityValues_isSome {arrayLower arrayUpper : ℤ}
    {update : ModifyLiquidityUpdate}
    (h : pool.syncModifyLiquidityValues key arrayLower arrayUpper update timestamp = .ok pool')
    (s : ℤ) : (pool'.tickArrays s).isSome = (pool.tickArrays s).isSome := by
  unfold syncModifyLiquidityValues at h
  simp only [Res.bind_eq_ok, getTickArray_eq_ok] at h
  obtain ⟨lower, hl, lower', -, upper, hu, upper', -, h⟩ := h
  obtain rfl := Except.ok.inj h
  have hl' : (pool.tickArrays arrayLower).isSome = true := Option.isSome_of_eq_some hl
  exact (isSome_update (Option.isSome_of_eq_some hu) upper' s).trans (isSome_update hl' lower' s)

/-- A change of liquidity creates no tick array and removes none. -/
lemma modifyLiquidity_isSome {auth : PositionAuthority} {arrayLower arrayUpper : ℤ}
    {amount : BitVec 128} {positive : Bool} {clock : Int64} {amounts : ℕ × ℕ}
    (h : pool.modifyLiquidity key auth arrayLower arrayUpper amount positive clock =
      .ok (pool', amounts)) (s : ℤ) : (pool'.tickArrays s).isSome = (pool.tickArrays s).isSome := by
  unfold modifyLiquidity at h
  simp only [Res.bind_eq_ok, ite_err_eq_ok] at h
  obtain ⟨_, -, _, -, _, -, _, -, -, _, -, _, -, _, -, pool₁, hsync, ⟨_, _⟩, -, h⟩ := h
  obtain ⟨rfl, -⟩ := Prod.mk.inj (Except.ok.inj h)
  exact syncModifyLiquidityValues_isSome hsync s

/-- **The inversion of a change of liquidity.**

**Proof sketch.** By the two instructions, whose effects are known; what the vaults gain or lose is
the amount of the range. -/
theorem step_liquidityChange (hs : pool.Sound earned) {op : PoolOp} {clock : Int64}
    (hop : op.liquidityChange = some (key, d, clock)) (h : pool.step op = .ok pool') :
    (∃ infos timestamp, toTimestampU64 clock = .ok timestamp ∧
      Updated pool pool' key infos timestamp d) ∧
    (∀ X, (pool'.vault X : ℤ) = pool.vault X + signedDelta X (pool.position key).tickLowerIndex
      (pool.position key).tickUpperIndex pool.whirlpool.sqrtPrice d) ∧
    ∀ s, (pool'.tickArrays s).isSome = (pool.tickArrays s).isSome := by
  cases op with
  | increaseLiquidity k auth lo hi amount maxA maxB clock' funds =>
    obtain ⟨rfl, rfl, rfl⟩ : k = key ∧ (amount.toNat : ℤ) = d ∧ clock' = clock := by
      simpa [PoolOp.liquidityChange] using hop
    obtain ⟨infos, timestamp, delta, ht, hpos, habs, hu, hvault⟩ := increaseLiquidity_updated hs h
    obtain rfl : delta = amount.toNat := by omega
    refine ⟨⟨infos, timestamp, ht, hu⟩, fun X => ?_, fun s => ?_⟩
    · rw [signedDelta, if_pos hpos, hvault X, Nat.cast_add]
    · unfold step increaseLiquidity at h
      simp only [Res.bind_eq_ok, ite_err_eq_ok] at h
      obtain ⟨⟨pool₁, _⟩, hm, -, -, _, -, _, -, h⟩ := h
      obtain rfl := Except.ok.inj h
      exact modifyLiquidity_isSome hm s
  | decreaseLiquidity k auth lo hi amount minA minB clock' funds =>
    obtain ⟨rfl, rfl, rfl⟩ : k = key ∧ -(amount.toNat : ℤ) = d ∧ clock' = clock := by
      simpa [PoolOp.liquidityChange] using hop
    obtain ⟨infos, timestamp, delta, ht, hneg, habs, hu, hvault⟩ := decreaseLiquidity_updated hs h
    obtain rfl : delta = -amount.toNat := by omega
    refine ⟨⟨infos, timestamp, ht, hu⟩, fun X => ?_, fun s => ?_⟩
    · rw [signedDelta, if_neg hneg.not_gt, ← hvault X, Nat.cast_add]
      ring
    · unfold step decreaseLiquidity at h
      simp only [Res.bind_eq_ok, ite_err_eq_ok] at h
      obtain ⟨⟨pool₁, _⟩, hm, -, -, _, -, _, -, h⟩ := h
      obtain rfl := Except.ok.inj h
      exact modifyLiquidity_isSome hm s
  | _ => cases hop

/-! ## One change of liquidity -/

/-- The positions after an update. -/
lemma Updated.position_eq (h : Updated pool pool' key infos timestamp d) :
    pool'.position = Function.update pool.position key
      { (pool.position key).settle ((pool.accrue infos timestamp).insidePosition key) with
        liquidity := (pool'.position key).liquidity } := by
  have hpos := h.resized.position
  unfold Pool.settle setPosition at hpos
  simp only [Function.update_self, Function.update_idem] at hpos
  exact hpos

/-- The liquidity after an update. -/
lemma Updated.liquidity_eq (h : Updated pool pool' key infos timestamp d) :
    ((pool'.position key).liquidity : ℤ) = (pool.position key).liquidity + d ∧
      (pool'.whirlpool.liquidity : ℤ) = pool.whirlpool.liquidity +
        if pool.ranges.Contains key pool.whirlpool.tickCurrentIndex then d else 0 := by
  have hl := h.resized.liquidity
  have hactive := h.resized.active
  rw [((pool.accrue infos timestamp).settle_position key).2.2] at hl
  rw [ranges_settle] at hactive
  exact ⟨hl, hactive⟩

/-- An update does not change what another range contains. -/
lemma Updated.contains (h : Updated pool pool' key infos timestamp d) (k : Pubkey) :
    pool'.ranges.Contains k pool'.whirlpool.tickCurrentIndex ↔
      pool.ranges.Contains k pool.whirlpool.tickCurrentIndex := by
  rw [h.resized.ranges, ranges_settle, h.resized.whirlpool_eq.2.1]
  exact Iff.rfl

/-- After an update there is nothing to accrue at the same time.

**Proof sketch.** The clock of the pool has not moved, so no reward has grown, and an update logs no
fees. -/
lemma Updated.earned_again (h : Updated pool pool' key infos timestamp d) (e : Earnings) :
    e.add pool' (pool'.rewardLog infos) = e := by
  have hlog : pool'.rewardLog infos = fun _ _ => 0 := by
    funext ch
    rcases ch with X | i
    · rfl
    · unfold rewardLog
      rw [h.whirlpool]
      simp only [sub_self]
      funext c
      unfold Outside.record
      rw [Function.update_apply]
      split_ifs <;> rfl
  funext k ch
  unfold Earnings.add
  rw [hlog, Outside.recorded_zero, add_zero]

/-- The growth inside another position is the same before and after an update. -/
lemma Updated.credit_other (hs : pool.Sound earned)
    (h : Updated pool pool' k₂ infos timestamp d) (hne : k₁ ≠ k₂) (hk : k₁ ∈ pool.positions)
    (ch : Channel) :
    owedDelta (pool.position k₁).liquidity
        (pool'.insidePosition k₁ ch - (pool.position k₁).growthCheckpoint ch) =
      owedDelta (pool.position k₁).liquidity ((pool.accrue infos timestamp).insidePosition k₁ ch -
        (pool.position k₁).growthCheckpoint ch) := by
  rcases eq_or_ne (pool.position k₁).liquidity 0 with h0 | h0
  · rw [h0, owedDelta_zero_left, owedDelta_zero_left]
  · have hpos : pool'.position k₁ = pool.position k₁ := by
      rw [h.position_eq, Function.update_of_ne hne]
    have hmem : k₁ ∈ pool'.positions := by
      rw [h.resized.positions]
      exact hk
    have hbefore := (hs.accrue h.rewards).checkpoints k₁ hk h0 ch
    have hafter := (h.sound hs).checkpoints k₁ hmem (hpos ▸ h0) ch
    rw [hpos, Earnings.clear, Function.update_of_ne hne] at hafter
    unfold insidePosition
    rw [hpos]
    exact congrArg _ (hafter.trans hbefore.symm)

/-! ## Two changes of liquidity -/

/-- A position is credited the same before and after a change of another position. -/
lemma Updated.position_alike (hs : pool.Sound earned)
    (h₁ : Updated pool pool₁ k₁ infos timestamp d₁) (h₂ : Updated pool pool₂ k₂ infos timestamp d₂)
    (h₂₁ : Updated pool₂ pool' k₁ infos timestamp d₁) (hne : k₁ ≠ k₂) :
    (pool₁.position k₁).Alike (pool'.position k₁) := by
  have hpos : pool₂.position k₁ = pool.position k₁ := by
    rw [h₂.position_eq, Function.update_of_ne hne]
  have haccrue := (h₂.accrue_again h₂₁.rewards).2
  have hl : (pool'.position k₁).liquidity = (pool₁.position k₁).liquidity := by
    have h1 := h₁.liquidity_eq.1
    have h2 := h₂₁.liquidity_eq.1
    rw [hpos] at h2
    omega
  have hcredit := fun ch => h₂.credit_other hs hne h₁.mem ch
  rw [h₁.position_eq, h₂₁.position_eq, Function.update_self, Function.update_self, hl, hpos,
    haccrue]
  exact Position.settle_alike _ hcredit _

variable {pool₁₂ pool₂₁ : Pool}

/-- The records after the two orders are equal. -/
lemma Updated.whirlpool_comm (h₁ : Updated pool pool₁ k₁ infos timestamp d₁)
    (h₁₂ : Updated pool₁ pool₁₂ k₂ infos timestamp d₂)
    (h₂ : Updated pool pool₂ k₂ infos timestamp d₂)
    (h₂₁ : Updated pool₂ pool₂₁ k₁ infos timestamp d₁) :
    pool₂₁.whirlpool = pool₁₂.whirlpool := by
  have hl : pool₂₁.whirlpool.liquidity = pool₁₂.whirlpool.liquidity := by
    have e1 := h₁.liquidity_eq.2
    have e2 := h₁₂.liquidity_eq.2
    have e3 := h₂.liquidity_eq.2
    have e4 := h₂₁.liquidity_eq.2
    rw [if_congr (h₁.contains k₂) rfl rfl] at e2
    rw [if_congr (h₂.contains k₁) rfl rfl] at e4
    omega
  rw [h₂₁.whirlpool, h₁₂.whirlpool, h₁.whirlpool, h₂.whirlpool, hl]

/-- The positions after the two orders are alike.

**Proof sketch.** By the position. Each of the two is changed by its own update only, and the other
update leaves it as it is; every other position is left alone by both. -/
lemma Updated.positions_comm (hs : pool.Sound earned)
    (h₁ : Updated pool pool₁ k₁ infos timestamp d₁)
    (h₁₂ : Updated pool₁ pool₁₂ k₂ infos timestamp d₂)
    (h₂ : Updated pool pool₂ k₂ infos timestamp d₂)
    (h₂₁ : Updated pool₂ pool₂₁ k₁ infos timestamp d₁) (hne : k₁ ≠ k₂) (k : Pubkey) :
    (pool₁₂.position k).Alike (pool₂₁.position k) := by
  have hsymm : ∀ {a b : Position}, a.Alike b → b.Alike a := fun h =>
    ⟨h.positionMint.symm, h.liquidity.symm, h.tickLowerIndex.symm, h.tickUpperIndex.symm,
      h.feeOwed.symm, fun i => (h.amountOwed i).symm⟩
  have hother : ∀ {p p' : Pool} {key k : Pubkey} {d : ℤ}, Updated p p' key infos timestamp d →
      k ≠ key → p'.position k = p.position k := fun h hne => by
    rw [h.position_eq, Function.update_of_ne hne]
  rcases eq_or_ne k k₁ with rfl | h1
  · rw [hother h₁₂ hne]
    exact h₁.position_alike hs h₂ h₂₁ hne
  · rcases eq_or_ne k k₂ with rfl | h2
    · rw [hother h₂₁ hne.symm]
      exact hsymm (h₂.position_alike hs h₁ h₁₂ hne.symm)
    · rw [hother h₁₂ h2, hother h₁ h1, hother h₂₁ h1, hother h₂ h2]
      exact .refl _

/-- The ranges of alike positions. -/
lemma ranges_congr {p q : Pool} (hkeys : q.positions = p.positions)
    (hpos : ∀ k, (p.position k).Alike (q.position k)) : q.ranges = p.ranges := by
  unfold ranges
  rw [hkeys]
  congr 1
  · exact funext fun k => (hpos k).tickLowerIndex
  · exact funext fun k => (hpos k).tickUpperIndex
  · exact funext fun k => (hpos k).liquidity

/-- The ticks of pools with the same ranges are alike. -/
lemma Sound.ticks_alike {p q : Pool} {e e' : Earnings} (hp : p.Sound e) (hq : q.Sound e')
    (hranges : q.ranges = p.ranges) (t : ℤ) : (p.ticks t).Alike (q.ticks t) := by
  have hbooks := hq.books
  rw [hranges] at hbooks
  refine ⟨?_, ?_, ?_⟩
  · rw [Bool.eq_iff_iff, hbooks.initialized, hp.books.initialized]
  · rw [hbooks.net, hp.books.net]
  · rw [hbooks.gross, hp.books.gross]

/-- Every slot of a tick array is a tick of the pool. -/
theorem Sound.slot {p : Pool} (hp : p.Sound earned) {s : ℤ} {array : TickArray}
    (h : p.tickArrays s = some array) (i : Fin tickArraySize) :
    array.ticks i = p.ticks (array.startTickIndex + (i : ℕ) * p.whirlpool.tickSpacing) := by
  obtain ⟨hstart, -⟩ := hp.wellPlaced _ _ h
  have hslot : array.tickAt p.whirlpool.tickSpacing
      (array.startTickIndex + (i : ℕ) * p.whirlpool.tickSpacing) = array.slot i :=
    TickArray.tickAt_eq_slot hp.spacing i.2 rfl
  have hticks : p.ticks (array.startTickIndex + (i : ℕ) * p.whirlpool.tickSpacing) =
      array.tickAt p.whirlpool.tickSpacing
        (array.startTickIndex + (i : ℕ) * p.whirlpool.tickSpacing) :=
    TickMap.tick_eq_tickAt hp.wellPlaced hp.spacing (hstart ▸ h)
      ((TickArray.holds_iff hp.spacing).2 ⟨i, i.2, rfl⟩)
  rw [hticks, hslot]
  unfold TickArray.slot
  rw [dif_pos i.2]

/-- **The two orders lead to equivalent pools.**

**Proof sketch.** The records, the positions and the ticks of both pools are those of the same
ranges, up to the growths outside the ticks. The notes differ, but what they say about growth inside
a range does not. -/
theorem Updated.equivalent (hs : pool.Sound earned) (hb : pool.Backed earned)
    (h₁ : Updated pool pool₁ k₁ infos timestamp d₁)
    (h₁₂ : Updated pool₁ pool₁₂ k₂ infos timestamp d₂)
    (h₂ : Updated pool pool₂ k₂ infos timestamp d₂)
    (h₂₁ : Updated pool₂ pool₂₁ k₁ infos timestamp d₁) (hne : k₁ ≠ k₂)
    (hvault : ∀ X, pool₂₁.vault X = pool₁₂.vault X)
    (harrays : ∀ s, (pool₂₁.tickArrays s).isSome = (pool₁₂.tickArrays s).isSome) :
    pool₁₂.Equivalent pool₂₁ := by
  have hpos := fun k => h₁.positions_comm hs h₁₂ h₂ h₂₁ hne k
  have hkeys : pool₂₁.positions = pool₁₂.positions := by
    rw [h₂₁.resized.positions, h₁₂.resized.positions]
    change pool₂.positions = pool₁.positions
    rw [h₂.resized.positions, h₁.resized.positions]
    rfl
  have hwhirlpool := h₁.whirlpool_comm h₁₂ h₂ h₂₁
  have hs₁ := h₁.sound hs
  have hs₂ := h₂.sound hs
  have hs₁₂ := h₁₂.sound hs₁
  have hs₂₁ := h₂₁.sound hs₂
  have hb₁₂ := h₁₂.backed hs₁ (h₁.backed hs hb)
  have hb₂₁ := h₂₁.backed hs₂ (h₂.backed hs hb)
  have hticks := hs₁₂.ticks_alike hs₂₁ (ranges_congr hkeys hpos)
  refine ⟨⟨hwhirlpool, fun s => ?_, hkeys, hpos, hvault .A, hvault .B⟩, ?_⟩
  · have hsome := harrays s
    rcases ha : pool₁₂.tickArrays s with _ | a
    · rw [ha] at hsome
      have hnone : pool₂₁.tickArrays s = none :=
        Option.not_isSome_iff_eq_none.1 (by rw [hsome]; exact Bool.false_ne_true)
      rw [hnone]
      exact .none
    · rw [ha] at hsome
      obtain ⟨b, hb⟩ := Option.isSome_iff_exists.1 hsome
      rw [hb]
      have hstart : b.startTickIndex = a.startTickIndex :=
        (hs₂₁.wellPlaced _ _ hb).1.trans (hs₁₂.wellPlaced _ _ ha).1.symm
      refine .some ⟨hstart, fun i => ?_⟩
      rw [hs₁₂.slot ha, hs₂₁.slot hb, hstart, hwhirlpool]
      exact hticks _
  · rw [h₁.earned_again] at hs₁₂ hb₁₂
    rw [h₂.earned_again] at hs₂₁ hb₂₁
    refine ⟨_, ⟨hs₁₂, hb₁₂⟩, ?_⟩
    unfold Earnings.clear at hs₂₁ hb₂₁ ⊢
    rw [Function.update_comm hne.symm] at hs₂₁ hb₂₁
    exact ⟨hs₂₁, hb₂₁⟩

end Pool

/-! ## Changes of liquidity commute -/

/-- **Changes of liquidity of different positions commute.** If both orders succeed at one time,
they lead to the same liquidity, rewards and ticks, charge or pay each position the same, and leave
the positions with the same liquidity and the same amounts owed. Whatever instructions follow, each
position is owed the same in both pools.

**Proof sketch.** All four instructions happen at one time, so only the first of each order accrues
rewards. The changes of the two positions touch different records, the amounts depend on the price
and the range alone, and the resulting pools are equivalent, so `Equivalent.run` covers whatever
follows. -/
theorem Reachable.liquidityChanges_commute {pool pool₁ pool₁₂ pool₂ pool₂₁ : Pool}
    (h : Reachable pool) {k₁ k₂ : Pubkey} {d₁ d₂ : ℤ} {clock : Int64} {op₁ op₁' op₂ op₂' : PoolOp}
    (hne : k₁ ≠ k₂) (h₁ : op₁.liquidityChange = some (k₁, d₁, clock))
    (h₁' : op₁'.liquidityChange = some (k₁, d₁, clock))
    (h₂ : op₂.liquidityChange = some (k₂, d₂, clock))
    (h₂' : op₂'.liquidityChange = some (k₂, d₂, clock)) (hstep₁ : pool.step op₁ = .ok pool₁)
    (hstep₁₂ : pool₁.step op₂ = .ok pool₁₂) (hstep₂ : pool.step op₂' = .ok pool₂)
    (hstep₂₁ : pool₂.step op₁' = .ok pool₂₁) :
    pool₁₂.whirlpool.liquidity = pool₂₁.whirlpool.liquidity ∧
    pool₁₂.whirlpool.rewardInfos = pool₂₁.whirlpool.rewardInfos ∧
    (∀ t, (pool₁₂.ticks t).initialized = (pool₂₁.ticks t).initialized ∧
      (pool₁₂.ticks t).liquidityNet = (pool₂₁.ticks t).liquidityNet ∧
      (pool₁₂.ticks t).liquidityGross = (pool₂₁.ticks t).liquidityGross) ∧
    (∀ X, (pool₁.vault X : ℤ) - pool.vault X = pool₂₁.vault X - pool₂.vault X ∧
      (pool₁₂.vault X : ℤ) - pool₁.vault X = pool₂.vault X - pool.vault X) ∧
    (∀ k, (pool₁₂.position k).liquidity = (pool₂₁.position k).liquidity) ∧
    ∀ ops k, (∀ X, ((pool₁₂.run ops).position k).feeOwed X =
        ((pool₂₁.run ops).position k).feeOwed X) ∧
      ∀ i, (pool₁₂.run ops).rewardOwed k i = (pool₂₁.run ops).rewardOwed k i := by
  obtain ⟨s, rfl, hinv⟩ := h.invariant
  have hs := hinv.sound
  obtain ⟨⟨infos, timestamp, ht, hu₁⟩, hv₁, ha₁⟩ := Pool.step_liquidityChange hs h₁ hstep₁
  obtain ⟨⟨infos₂, timestamp₂, ht₂, hu₂⟩, hv₂, ha₂⟩ := Pool.step_liquidityChange hs h₂' hstep₂
  have hs₁ := hu₁.sound hs
  have hs₂ := hu₂.sound hs
  obtain ⟨⟨infos₁₂, timestamp₁₂, ht₁₂, hu₁₂⟩, hv₁₂, ha₁₂⟩ :=
    Pool.step_liquidityChange hs₁ h₂ hstep₁₂
  obtain ⟨⟨infos₂₁, timestamp₂₁, ht₂₁, hu₂₁⟩, hv₂₁, ha₂₁⟩ :=
    Pool.step_liquidityChange hs₂ h₁' hstep₂₁
  -- all four happen at one time, so only the first of each order accrues
  obtain rfl : timestamp = timestamp₂ := Except.ok.inj (ht.symm.trans ht₂)
  obtain rfl : timestamp = timestamp₁₂ := Except.ok.inj (ht.symm.trans ht₁₂)
  obtain rfl : timestamp = timestamp₂₁ := Except.ok.inj (ht.symm.trans ht₂₁)
  obtain rfl : infos = infos₂ := Except.ok.inj (hu₁.rewards.symm.trans hu₂.rewards)
  obtain rfl := (hu₁.accrue_again hu₁₂.rewards).1
  obtain rfl := (hu₂.accrue_again hu₂₁.rewards).1
  have hrange : ∀ {p p' : Pool} {key k : Pubkey} {d : ℤ},
      Pool.Updated p p' key infos₂₁ timestamp d → k ≠ key → p'.position k = p.position k ∧
        p'.whirlpool.sqrtPrice = p.whirlpool.sqrtPrice := fun hu hk => by
    rw [hu.position_eq, Function.update_of_ne hk, hu.whirlpool]
    exact ⟨rfl, rfl⟩
  obtain ⟨hp1, hq1⟩ := hrange hu₁ hne.symm
  obtain ⟨hp2, hq2⟩ := hrange hu₂ hne
  rw [hp1, hq1] at hv₁₂
  rw [hp2, hq2] at hv₂₁
  have hvault : ∀ X, pool₂₁.vault X = pool₁₂.vault X := fun X => by
    have e1 := hv₁ X
    have e2 := hv₁₂ X
    have e3 := hv₂ X
    have e4 := hv₂₁ X
    omega
  have hequiv := hu₁.equivalent hs hinv.backed hu₁₂ hu₂ hu₂₁ hne hvault fun s => by
    rw [ha₂₁, ha₂, ha₁₂, ha₁]
  have hticks := (hu₁₂.sound hs₁).ticks_alike (hu₂₁.sound hs₂)
    (Pool.ranges_congr hequiv.alike.positions hequiv.alike.position)
  refine ⟨by rw [hequiv.alike.whirlpool], by rw [hequiv.alike.whirlpool],
    fun t => ⟨(hticks t).initialized.symm, (hticks t).liquidityNet.symm,
      (hticks t).liquidityGross.symm⟩, fun X => ⟨?_, ?_⟩,
    fun k => (hequiv.alike.position k).liquidity.symm, fun ops k => ?_⟩
  · rw [hv₁ X, hv₂₁ X]
    ring
  · rw [hv₁₂ X, hv₂ X]
    ring
  · obtain ⟨hfee, hreward⟩ := (hequiv.run ops).owed k
    exact ⟨fun X => (hfee X).symm, fun i => (hreward i).symm⟩

/-- The sample pool after a swap, with an empty second position that shares a tick with the
first. -/
def sampleShared : Pool := sampleTraded.next (.openPosition 2 10 (-128) 0)

/-- The first position is emptied. -/
def sampleEmptying : PoolOp := .decreaseLiquidity 1 sampleAuth (-5632) 0 1000000000 0 0 7 sampleFunds

/-- The second position is filled. -/
def sampleFilling : PoolOp :=
  .increaseLiquidity 2 sampleAuth₂ (-5632) 0 500000 1000000 1000000 7 sampleFunds

/-- The shared tick is emptied and initialized again in one order only, which leaves different
growths outside, but the same liquidity. -/
theorem Reachable.liquidityChanges_commute_sample :
    ((((sampleShared.next sampleEmptying).next sampleFilling).ticks (-128)).feeGrowthOutsideA.toNat,
        (((sampleShared.next sampleFilling).next sampleEmptying).ticks (-128)).feeGrowthOutsideA.toNat)
        = (5368002525449, 0) ∧
      ((sampleShared.next sampleEmptying).next sampleFilling).whirlpool.liquidity =
        ((sampleShared.next sampleFilling).next sampleEmptying).whirlpool.liquidity := by
  have htrade : samplePool.step sampleSwap = .ok sampleTraded :=
    Pool.step_eq_next (by decide +kernel)
  have hopen : sampleTraded.step (.openPosition 2 10 (-128) 0) = .ok sampleShared :=
    Pool.step_eq_next (by decide +kernel)
  exact ⟨by decide +kernel, (((samplePool_reachable.step htrade).step hopen).liquidityChanges_commute
    (show (1 : ℕ) ≠ 2 by decide) (show sampleEmptying.liquidityChange = some (1, -1000000000, 7)
      from rfl) rfl (show sampleFilling.liquidityChange = some (2, 500000, 7) from rfl) rfl
    (Pool.step_eq_next (by decide +kernel)) (Pool.step_eq_next (by decide +kernel))
    (Pool.step_eq_next (by decide +kernel)) (Pool.step_eq_next (by decide +kernel))).1⟩

end NemoSwap
