import NemoSwap.Pool.Growth

set_option relaxedAutoImplicit false
set_option autoImplicit false

/-!
# Adding and removing the same liquidity

Two updates at one time accrue and settle only once: after the first the rewards are up to date,
and the checkpoints of its position are the growths inside its range, whether or not the update
has initialized a tick. So a deposit followed by the withdrawal of the same liquidity does no more
than a plain update, and costs the depositor at most one unit of each token.

## Main results

* `NemoSwap.Pool.Updated.accrue_again` — a second accrual at the same time does nothing.
* `NemoSwap.Pool.Updated.settle_again` — a second settlement does nothing.
* `NemoSwap.Pool.Resized.undo` — a change of liquidity and its inverse.
* `NemoSwap.Reachable.increase_decrease` — a deposit and its withdrawal are a plain update.
-/

namespace NemoSwap

/-! ## Amounts -/

/-- Rounding up adds at most one. -/
lemma rangeDelta_roundUp (X : Token) (lo hi : ℤ) (p l : ℕ) :
    rangeDelta X lo hi p l true = rangeDelta X lo hi p l false ∨
      rangeDelta X lo hi p l true = rangeDelta X lo hi p l false + 1 := by
  have hround : ∀ n d : ℕ, roundDiv n d true = roundDiv n d false ∨
      roundDiv n d true = roundDiv n d false + 1 := fun n d => by
    have h1 := roundDiv_false_le n d true
    have h2 := roundDiv_le_succ n d true
    rw [roundDiv_false]
    omega
  cases X
  · exact hround _ _
  · exact hround _ _

/-- Rewards that are up to date do not accrue. -/
lemma nextWhirlpoolRewardInfos_self {w : Whirlpool} {infos : Fin numRewards → WhirlpoolRewardInfo}
    (h : nextWhirlpoolRewardInfos w w.rewardLastUpdatedTimestamp = .ok infos) :
    infos = w.rewardInfos := by
  unfold nextWhirlpoolRewardInfos at h
  rw [if_neg (lt_irrefl _), if_pos (Or.inr rfl)] at h
  exact (Except.ok.inj h).symm

/-- A position that has grown nothing is settled already.

**Proof sketch.** The growth since the checkpoint is zero for every channel, so the checkpoints
stay, and the credits are zero. -/
lemma Position.settle_self {position : Position} {inside : Channel → Growth}
    (hinside : ∀ ch, inside ch = position.growthCheckpoint ch)
    (hfee : ∀ X, position.feeOwed X < 2 ^ 64)
    (hreward : ∀ i, (position.rewardInfos i).amountOwed < 2 ^ 64) :
    position.settle inside = position := by
  have hzero : ∀ ch, inside ch - position.growthCheckpoint ch = 0 := fun ch => by
    rw [hinside ch, sub_self]
  have hA : position.feeOwedA < 2 ^ 64 := hfee .A
  have hB : position.feeOwedB < 2 ^ 64 := hfee .B
  have hinfos : (fun i => PositionRewardInfo.mk (inside (.reward i))
      (wrappingAdd 64 (position.rewardInfos i).amountOwed (owedDelta position.liquidity
        (inside (.reward i) - (position.rewardInfos i).growthInsideCheckpoint)))) =
      position.rewardInfos := funext fun i => by
    have h0 : inside (.reward i) - (position.rewardInfos i).growthInsideCheckpoint = 0 :=
      hzero (.reward i)
    rw [h0, owedDelta_zero, wrappingAdd_of_lt (hreward i), add_zero, hinside]
    rfl
  have h1 : inside (.fee .A) - position.feeGrowthCheckpointA = 0 := hzero (.fee .A)
  have h2 : inside (.fee .B) - position.feeGrowthCheckpointB = 0 := hzero (.fee .B)
  unfold Position.settle
  rw [h1, h2, owedDelta_zero, wrappingAdd_of_lt hA, wrappingAdd_of_lt hB, hinfos, hinside, hinside]
  rfl

namespace Pool

variable {pool pool₁ pool₂ : Pool} {earned : Earnings} {key : Pubkey} {delta : ℤ}
  {infos infos' : Fin numRewards → WhirlpoolRewardInfo} {timestamp : ℕ}

/-! ## Two updates at one time -/

/-- The record after an update differs in its liquidity from that of the accrued pool. -/
lemma Updated.whirlpool (h : Updated pool pool₁ key infos timestamp delta) :
    pool₁.whirlpool = { pool.whirlpool with
      rewardInfos := infos, rewardLastUpdatedTimestamp := timestamp
      liquidity := pool₁.whirlpool.liquidity } :=
  h.resized.whirlpool

/-- **A second accrual at the same time does nothing.** -/
theorem Updated.accrue_again (h : Updated pool pool₁ key infos timestamp delta)
    (h' : nextWhirlpoolRewardInfos pool₁.whirlpool timestamp = .ok infos') :
    infos' = infos ∧ pool₁.accrue infos' timestamp = pool₁ := by
  have htime : pool₁.whirlpool.rewardLastUpdatedTimestamp = timestamp := by rw [h.whirlpool]
  have hinfos : pool₁.whirlpool.rewardInfos = infos := by rw [h.whirlpool]
  rw [← htime] at h'
  obtain rfl := nextWhirlpoolRewardInfos_self h'
  refine ⟨hinfos, ?_⟩
  unfold accrue Whirlpool.updateRewards
  rw [← htime]

/-- The checkpoints after an update are the growths inside the range, also if the update has
initialized one of its ticks. -/
lemma Updated.inside_checkpoint (hs : pool.Sound earned)
    (h : Updated pool pool₁ key infos timestamp delta) (h0 : (pool₁.position key).liquidity ≠ 0)
    (ch : Channel) : pool₁.insidePosition key ch = (pool₁.position key).growthCheckpoint ch := by
  have hk : key ∈ pool₁.positions := by
    rw [h.resized.positions]
    exact h.mem
  have hcheck := (h.sound hs).checkpoints key hk h0 ch
  rw [Earnings.clear, Function.update_self] at hcheck
  exact sub_eq_zero.1 hcheck

/-- What is owed after an update is a `u64`. -/
theorem Updated.owed_lt (h : Updated pool pool₁ key infos timestamp delta) :
    (∀ X, (pool₁.position key).feeOwed X < 2 ^ 64) ∧ ∀ i, pool₁.rewardOwed key i < 2 ^ 64 := by
  have hpos := congrFun h.resized.position key
  rw [Function.update_self] at hpos
  unfold Pool.rewardOwed
  rw [hpos]
  unfold Pool.settle
  rw [setPosition_self]
  refine ⟨fun X => ?_, fun i => wrappingAdd_lt _ _ _⟩
  cases X <;> exact wrappingAdd_lt _ _ _

/-- **A second settlement at the same time does nothing.** -/
theorem Updated.settle_again (hs : pool.Sound earned)
    (h : Updated pool pool₁ key infos timestamp delta) (h0 : (pool₁.position key).liquidity ≠ 0) :
    pool₁.settle key = pool₁ := by
  obtain ⟨hfee, hreward⟩ := h.owed_lt
  unfold Pool.settle setPosition
  rw [Position.settle_self (h.inside_checkpoint hs h0) hfee hreward, Function.update_eq_self]

/-- **A change of liquidity and its inverse** leave the positions and the record as they were.

**Proof sketch.** The two changes of the position add up to zero. The range contains the current
tick in both or in neither, so they add up to zero in the active liquidity as well. -/
theorem Resized.undo (h : Resized pool pool₁ key delta) (h' : Resized pool₁ pool₂ key (-delta)) :
    pool₂.positions = pool.positions ∧ pool₂.position = pool.position ∧
      pool₂.whirlpool = pool.whirlpool := by
  have hl : (pool₂.position key).liquidity = (pool.position key).liquidity := by
    have h1 := h.liquidity
    have h2 := h'.liquidity
    omega
  have hcontains : pool₁.ranges.Contains key pool₁.whirlpool.tickCurrentIndex ↔
      pool.ranges.Contains key pool.whirlpool.tickCurrentIndex := by
    rw [h.ranges, h.whirlpool_eq.2.1]
    exact Iff.rfl
  have hactive : pool₂.whirlpool.liquidity = pool.whirlpool.liquidity := by
    have h1 := h.active
    have h2 := h'.active
    rw [if_congr hcontains rfl rfl] at h2
    split_ifs at h1 h2 <;> omega
  refine ⟨h'.positions.trans h.positions, ?_, ?_⟩
  · rw [h'.position, hl, h.position, Function.update_self, Function.update_idem]
    exact Function.update_eq_self key pool.position
  · rw [h'.whirlpool, hactive, h.whirlpool]

end Pool

/-! ## The plain update -/

/-- A change of liquidity that succeeds has everything that a plain update of the position needs.

**Proof sketch.** The checks of a plain update are among those of a change of liquidity: the
position, the two arrays and their ticks, and the clock. -/
lemma Pool.modifyLiquidity_updates {pool : Pool} {key : Pubkey} {auth : PositionAuthority}
    {arrayLower arrayUpper : ℤ} {amount : BitVec 128} {positive : Bool} {clock : Int64}
    {r : Pool × ℕ × ℕ} (h0 : 0 < (pool.position key).liquidity)
    (h : pool.modifyLiquidity key auth arrayLower arrayUpper amount positive clock = .ok r) :
    ∃ pool', pool.updateFeesAndRewards key arrayLower arrayUpper clock = .ok pool' := by
  unfold Pool.modifyLiquidity at h
  rw [Res.bind_eq_ok] at h
  obtain ⟨position, hp, h⟩ := h
  obtain ⟨hk, rfl⟩ := Pool.getOwnedPosition_eq_ok hp
  simp only [Res.bind_eq_ok, ite_err_eq_ok] at h
  obtain ⟨lower, hl, upper, hu, -, -, -, delta, -, timestamp, ht, update, hc, -⟩ := h
  unfold calculateModifyLiquidity at hc
  simp only [Res.bind_eq_ok] at hc
  obtain ⟨tickLower, htl, tickUpper, htu, hc⟩ := hc
  unfold calculateModifyLiquidity' at hc
  rw [ite_err_eq_ok, Res.bind_eq_ok] at hc
  obtain ⟨-, infos, hinfos, -⟩ := hc
  have hle : pool.whirlpool.rewardLastUpdatedTimestamp ≤ timestamp :=
    (nextWhirlpoolRewardInfos_eq_ok hinfos).1
  obtain ⟨infos', update', -, -, hzero⟩ := @calculateModifyLiquidity_zero pool.whirlpool
    (pool.position key) tickLower tickUpper timestamp h0 hle
  have hget : pool.getPosition key = .ok (pool.position key) := if_pos hk
  unfold Pool.updateFeesAndRewards calculateFeeAndRewardGrowths calculateModifyLiquidity
  rw [hget, hl, hu, ht]
  simp only [Res.ok_bind, htl, htu, hzero]
  exact ⟨_, rfl⟩

/-! ## Rewards owed -/

/-- The reward owed to a position is a `u64`.

**Proof sketch.** Induction on the run from its end. An update stores a `u64` in its position and
leaves the others as they are, and no other instruction adds to what is owed. -/
lemma rewardOwed_lt_run {w : Whirlpool} (hw : Initialized w) (ops : List PoolOp) (k : Pubkey)
    (i : Fin numRewards) : ((Pool.new w).run ops).rewardOwed k i < 2 ^ 64 := by
  induction ops using List.reverseRecOn with
  | nil => exact Nat.two_pow_pos 64
  | append_singleton ops op ih =>
    have hinv := (History.new_invariant hw).run ops
    have hpool : ((History.new w).run ops).pool = (Pool.new w).run ops :=
      History.run_pool ops (History.new w)
    have hs := hpool ▸ hinv.sound
    have hb := hpool ▸ hinv.backed
    rw [Pool.run_concat]
    unfold Pool.next
    split
    · next pool' hstep =>
      rcases hupd : op.updated with _ | key
      · exact (Pool.rewardOwed_le hs hb hupd hstep k i).trans_lt ih
      · obtain ⟨-, infos, timestamp, delta, -, -, hu⟩ := Pool.step_updated hs hb hupd hstep
        rcases eq_or_ne k key with rfl | hne
        · exact hu.owed_lt.2 i
        · rw [(hu.rewardOwed hupd i).2 k hne]
          exact ih
    · exact ih

/-! ## A deposit and its withdrawal -/

/-- **Adding and removing the same liquidity** at one time leaves the liquidity of the pool, of its
ticks and of the position as it was. The position is credited as by a plain update of its original
liquidity, and with nothing if it had none. Of each token the depositor pays in what he is paid
out, or one more.

**Proof sketch.** Both instructions update the position, by opposite amounts and at one time, so the
second one accrues and settles nothing. The two resizings undo each other. The range costs its exact
value rounded up and yields it rounded down, and the two differ by at most one. -/
theorem Reachable.increase_decrease {pool pool₁ pool₂ : Pool} (h : Reachable pool) {key : Pubkey}
    {auth auth' : PositionAuthority} {arrayLower arrayUpper arrayLower' arrayUpper' : ℤ}
    {amount : BitVec 128} {maxA maxB minA minB : UInt64} {clock : Int64} {funds funds' : OwnerFunds}
    (hinc : pool.step (.increaseLiquidity key auth arrayLower arrayUpper amount maxA maxB clock
      funds) = .ok pool₁)
    (hdec : pool₁.step (.decreaseLiquidity key auth' arrayLower' arrayUpper' amount minA minB clock
      funds') = .ok pool₂) :
    pool₂.whirlpool.liquidity = pool.whirlpool.liquidity ∧
    (∀ t, (pool₂.ticks t).initialized = (pool.ticks t).initialized ∧
      (pool₂.ticks t).liquidityNet = (pool.ticks t).liquidityNet ∧
      (pool₂.ticks t).liquidityGross = (pool.ticks t).liquidityGross) ∧
    (pool₂.position key).liquidity = (pool.position key).liquidity ∧
    ((pool.position key).liquidity ≠ 0 → ∃ updated,
      pool.step (.updateFeesAndRewards key arrayLower arrayUpper clock) = .ok updated ∧
        pool₂.position key = updated.position key) ∧
    ((pool.position key).liquidity = 0 →
      (∀ X, (pool₂.position key).feeOwed X = (pool.position key).feeOwed X) ∧
        ∀ i, pool₂.rewardOwed key i = pool.rewardOwed key i) ∧
    ∀ X, ∃ paidIn paidOut, pool₁.vault X = pool.vault X + paidIn ∧
      pool₂.vault X + paidOut = pool₁.vault X ∧ (paidIn = paidOut ∨ paidIn = paidOut + 1) := by
  obtain ⟨w, ops, hw, rfl⟩ := h
  have hinv := (History.new_invariant hw).run ops
  have hrun : ((History.new w).run ops).pool = (Pool.new w).run ops :=
    History.run_pool ops (History.new w)
  have howed := rewardOwed_lt_run hw ops key
  obtain ⟨earned, hearned⟩ : ∃ earned, ((History.new w).run ops).earned = earned := ⟨_, rfl⟩
  have hs : ((Pool.new w).run ops).Sound earned := hearned ▸ hrun ▸ hinv.sound
  have hb : ((Pool.new w).run ops).Backed earned := hearned ▸ hrun ▸ hinv.backed
  generalize (Pool.new w).run ops = pool at *
  obtain ⟨infos, timestamp, d, ht, hd, hamount, hu, hpaid⟩ := Pool.increaseLiquidity_updated hs hinc
  have hs₁ := hu.sound hs
  obtain ⟨infos', timestamp', d', ht', hd', hamount', hu', hpaid'⟩ :=
    Pool.decreaseLiquidity_updated hs₁ hdec
  rw [ht, Except.ok.injEq] at ht'
  subst ht'
  obtain rfl : d' = -d := by omega
  have h0 : (pool₁.position key).liquidity ≠ 0 := by
    have := hu.resized.liquidity
    omega
  -- the second update accrues and settles nothing
  obtain ⟨rfl, haccrue⟩ := hu.accrue_again hu'.rewards
  have hr := hu'.resized
  rw [haccrue, hu.settle_again hs h0] at hr
  obtain ⟨hkeys, hpos, hrecord⟩ := hu.resized.undo hr
  obtain ⟨hlo, hhi, hl⟩ := (pool.accrue infos' timestamp).settle_position key
  have hranges : pool₂.ranges = pool.ranges := by
    have he : pool₂.ranges = ((pool.accrue infos' timestamp).settle key).ranges := by
      unfold Pool.ranges
      rw [hkeys, hpos]
    rw [he, Pool.ranges_settle]
    rfl
  have hposition : pool₂.position key = (pool.position key).settle
      ((pool.accrue infos' timestamp).insidePosition key) := by
    rw [hpos]
    unfold Pool.settle
    rw [Pool.setPosition_self]
    rfl
  have hbooks := (hu'.sound hs₁).books
  rw [hranges] at hbooks
  refine ⟨?_, fun t => ⟨?_, ?_, ?_⟩, ?_, fun hne => ?_, fun hzero => ⟨fun X => ?_, fun i => ?_⟩,
    fun X => ⟨_, _, hpaid X, hpaid' X, ?_⟩⟩
  · rw [hrecord]
    rfl
  · rw [Bool.eq_iff_iff, hbooks.initialized, hs.books.initialized]
  · rw [hbooks.net, hs.books.net]
  · rw [hbooks.gross, hs.books.gross]
  · rw [hpos, hl]
    rfl
  · obtain ⟨r, hm, -⟩ := Res.bind_eq_ok.1 hinc
    obtain ⟨updated, hupdated⟩ := Pool.modifyLiquidity_updates (Nat.pos_of_ne_zero hne) hm
    refine ⟨updated, hupdated, ?_⟩
    obtain ⟨-, infos, timestamp'', ht'', hinfos, rfl⟩ := Pool.updateFeesAndRewards_eq_ok hs hupdated
    rw [ht, Except.ok.injEq] at ht''
    subst ht''
    obtain rfl : infos' = infos := Except.ok.inj (hu.rewards.symm.trans hinfos)
    rw [hpos]
  · have hlt := (hs.liquidity_mul_earned_lt hb hu.mem X).1
    rw [hzero, zero_mul, Nat.zero_div, add_zero] at hlt
    rw [hposition, Position.settle_feeOwed, hzero, owedDelta_zero_left,
      wrappingAdd_of_lt (by simpa using hlt), add_zero]
  · have hlt := howed i
    unfold Pool.rewardOwed at hlt ⊢
    rw [hposition]
    unfold Position.settle
    rw [hzero]
    simp only [owedDelta_zero_left]
    rw [wrappingAdd_of_lt (by simpa using hlt), add_zero]
  · have hrange : (pool₁.position key).tickLowerIndex = (pool.position key).tickLowerIndex ∧
        (pool₁.position key).tickUpperIndex = (pool.position key).tickUpperIndex := by
      rw [hu.resized.position, Function.update_self]
      exact ⟨hlo, hhi⟩
    have hprice : pool₁.whirlpool.sqrtPrice = pool.whirlpool.sqrtPrice := by rw [hu.whirlpool]
    rw [hrange.1, hrange.2, hprice, Int.natAbs_neg]
    exact rangeDelta_roundUp _ _ _ _ _

/-- A deposit into the sample position. -/
def sampleDeposit : PoolOp :=
  .increaseLiquidity 1 sampleAuth (-5632) 0 1000000 1000000 1000000 7 sampleFunds

/-- The withdrawal of the sample deposit. -/
def sampleUndo : PoolOp :=
  .decreaseLiquidity 1 sampleAuth (-5632) 0 1000000 0 0 7 sampleFunds

/-- The sample pool after a swap, after a deposit, and after its withdrawal. -/
def sampleTraded : Pool := samplePool.next sampleSwap

def sampleDeposited : Pool := sampleTraded.next sampleDeposit

def sampleUndone : Pool := sampleDeposited.next sampleUndo

/-- The depositor loses one unit of token A. -/
theorem Reachable.increase_decrease_sample :
    (sampleTraded.vaultA, sampleDeposited.vaultA, sampleUndone.vaultA) =
        (6479246, 6485725, 6479247) ∧
      sampleUndone.whirlpool.liquidity = sampleTraded.whirlpool.liquidity := by
  have htrade : samplePool.step sampleSwap = .ok sampleTraded :=
    Pool.step_eq_next (by decide +kernel)
  have hinc : sampleTraded.step sampleDeposit = .ok sampleDeposited :=
    Pool.step_eq_next (by decide +kernel)
  have hdec : sampleDeposited.step sampleUndo = .ok sampleUndone :=
    Pool.step_eq_next (by decide +kernel)
  exact ⟨by decide +kernel, ((samplePool_reachable.step htrade).increase_decrease hinc hdec).1⟩

end NemoSwap
