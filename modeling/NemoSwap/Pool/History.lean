import NemoSwap.Pool.Effect

set_option relaxedAutoImplicit false
set_option autoImplicit false

/-!
# Runs of a pool

A run is a list of instructions in any order. Beside the pool a history keeps what no account
stores: what each position has earned since its last update, the growth of every accumulator by
the tick index at which it was made, and the rewards emitted and credited so far.

## Main definitions

* `NemoSwap.Pool.run` — a pool after a list of instructions.
* `NemoSwap.Pool.growthLog`, `NemoSwap.Pool.emission`, `NemoSwap.Pool.credit` — what an instruction
  adds to a history.
* `NemoSwap.History`, `NemoSwap.History.run` — a pool with its history.
* `NemoSwap.History.Invariant` — the invariant of a history.
* `NemoSwap.Initialized` — the pools that `initialize_pool` creates with a tick spacing of at
  least one.

## Main results

* `NemoSwap.History.Invariant.extend` — every instruction keeps the invariant.
* `NemoSwap.History.Invariant.run`, `NemoSwap.Reachable.invariant` — the invariant holds after
  every run.
-/

namespace NemoSwap

/-! ## Runs -/

/-- A failed instruction changes nothing. -/
def Pool.next (pool : Pool) (op : PoolOp) : Pool :=
  match pool.step op with
  | .ok pool' => pool'
  | .error _ => pool

/-- An instruction that succeeds leads to the next state. -/
lemma Pool.next_eq_of_ok {pool pool' : Pool} {op : PoolOp} (h : pool.step op = .ok pool') :
    pool.next op = pool' := by
  rw [Pool.next, h]

/-- A pool after a list of instructions. -/
def Pool.run (pool : Pool) (ops : List PoolOp) : Pool := ops.foldl Pool.next pool

/-- The last instruction of a run. -/
lemma Pool.run_concat (pool : Pool) (ops : List PoolOp) (op : PoolOp) :
    pool.run (ops ++ [op]) = (pool.run ops).next op := by
  unfold Pool.run
  rw [List.foldl_append]
  rfl

/-- The record of a new pool with a tick spacing of at least one. -/
def Initialized (w : Whirlpool) : Prop :=
  w.tickSpacing ≠ 0 ∧ ∃ config protocolRate authority spacing price rate mintA mintB,
    Whirlpool.initializeWhirlpool config protocolRate authority spacing price rate mintA mintB =
      .ok w

/-- The pools that a run reaches. -/
def Reachable (pool : Pool) : Prop := ∃ w ops, Initialized w ∧ pool = (Pool.new w).run ops

/-! ## What an instruction adds to a history -/

namespace Pool

/-- The rewards that an instruction accrues, and their time. -/
def accrual (pool : Pool) (op : PoolOp) : Option ((Fin numRewards → WhirlpoolRewardInfo) × ℕ) :=
  match op.clock with
  | none => none
  | some clock =>
    match toTimestampU64 clock with
    | .error _ => none
    | .ok timestamp =>
      match nextWhirlpoolRewardInfos pool.whirlpool timestamp with
      | .error _ => none
      | .ok infos => some (infos, timestamp)

/-- The increments of the accumulators, by the tick index at which they are made. -/
def growthLog (pool : Pool) (op : PoolOp) : Channel → ℤ → ℕ :=
  match pool.accrual op with
  | none => fun _ _ => 0
  | some (infos, timestamp) =>
    match op.trade with
    | none => pool.rewardLog infos
    | some args =>
      match pool.observeSwap args timestamp with
      | .ok t => pool.tradeLog args infos t
      | .error _ => fun _ _ => 0

/-- What a reward emits, in Q64.64, over the time that an instruction accrues: nothing while the
pool has no liquidity. -/
def emission (pool : Pool) (op : PoolOp) (i : Fin numRewards) : ℕ :=
  match pool.accrual op with
  | none => 0
  | some (_, timestamp) =>
    if pool.whirlpool.liquidity = 0 then 0
    else (timestamp - pool.whirlpool.rewardLastUpdatedTimestamp) *
      (pool.whirlpool.rewardInfos i).emissionsPerSecondX64

/-- What an instruction credits to the reward of a position. -/
def credit (pool : Pool) (op : PoolOp) (pool' : Pool) (i : Fin numRewards) : ℕ :=
  match op.updated with
  | none => 0
  | some key => owedDelta (pool.position key).liquidity
      ((pool'.position key).growthCheckpoint (.reward i) -
        (pool.position key).growthCheckpoint (.reward i))

end Pool

/-! ## Histories -/

/-- A pool with its history. -/
structure History where
  pool : Pool
  /-- What each position has earned since its last update, per unit of liquidity. -/
  earned : Earnings
  /-- The increments of the accumulators, by tick index. -/
  grown : Channel → ℤ → ℕ
  /-- What each reward has emitted, in Q64.64. -/
  emitted : Fin numRewards → ℕ
  /-- What has been credited of each reward. -/
  credited : Fin numRewards → ℕ

namespace History

/-- The history of a new pool. -/
def new (w : Whirlpool) : History :=
  { pool := Pool.new w, earned := fun _ _ => 0, grown := fun _ _ => 0, emitted := fun _ => 0
    credited := fun _ => 0 }

/-- The history after an instruction that succeeds. -/
def extend (s : History) (op : PoolOp) (pool' : Pool) : History :=
  { pool := pool'
    earned := match op.updated with
      | none => s.earned.add s.pool (s.pool.growthLog op)
      | some key => (s.earned.add s.pool (s.pool.growthLog op)).clear key
    grown := fun ch c => s.grown ch c + s.pool.growthLog op ch c
    emitted := fun i => s.emitted i + s.pool.emission op i
    credited := fun i => s.credited i + s.pool.credit op pool' i }

/-- The history after an instruction. -/
def next (s : History) (op : PoolOp) : History :=
  match s.pool.step op with
  | .ok pool' => s.extend op pool'
  | .error _ => s

/-- The history after a list of instructions. -/
def run (s : History) (ops : List PoolOp) : History := ops.foldl next s

/-- The invariant of a history. -/
structure Invariant (s : History) : Prop where
  sound : s.pool.Sound s.earned
  backed : s.pool.Backed s.earned
  /-- What was credited of a reward, and what is earned of it, was emitted. -/
  rewards : ∀ i, (s.credited i : ℚ) * 2 ^ 64 +
    s.pool.ranges.total (fun k => (s.earned k (.reward i) : ℚ)) ≤ s.emitted i

/-- A history does not change the step that it observes. -/
lemma next_pool (s : History) (op : PoolOp) : (s.next op).pool = s.pool.next op := by
  unfold next Pool.next
  cases s.pool.step op <;> rfl

/-- A history does not change the run that it observes. -/
theorem run_pool (ops : List PoolOp) : ∀ s : History, (s.run ops).pool = s.pool.run ops := by
  induction ops with
  | nil => exact fun _ => rfl
  | cons op ops ih =>
    intro s
    change ((s.next op).run ops).pool = (s.pool.next op).run ops
    rw [ih, next_pool]

end History

/-! ## The start -/

/-- A new pool is at the tick of its price, and has no liquidity, rewards or fees. -/
theorem Initialized.record {w : Whirlpool} (h : Initialized w) :
    w.tickSpacing ≠ 0 ∧ PriceAt w.tickCurrentIndex w.sqrtPrice ∧
      w.sqrtPrice < tickPrice (w.tickCurrentIndex + 1) ∧ w.feeRate ≤ maxFeeRate ∧
      w.protocolFeeRate ≤ maxProtocolFeeRate ∧ w.liquidity = 0 ∧ w.protocolFeeOwedA = 0 ∧
      w.protocolFeeOwedB = 0 ∧ ∀ i, (w.rewardInfos i).growthGlobalX64 = 0 := by
  obtain ⟨hts, config, protocolRate, authority, spacing, price, rate, mintA, mintB, h⟩ := h
  obtain ⟨-, hprice, hfee, hprot, tick, htick, rfl⟩ := Whirlpool.initializeWhirlpool_eq_ok.1 h
  obtain ⟨t, ht, hmin, hmax, hle, hlt⟩ := tickIndexFromSqrtPrice_spec hprice.1 hprice.2
  rw [show tickIndexFromSqrtPrice price = .ok tick from htick, Except.ok.injEq] at ht
  subst ht
  have hmin' : minTickIndex - 1 ≤ tick := by
    unfold minTickIndex
    omega
  exact ⟨hts, ⟨hprice.1, hprice.2, hle, hlt.le, hmin', hmax⟩, hlt, hfee, hprot, rfl, rfl, rfl,
    fun _ => rfl⟩

/-- **A new pool satisfies the invariant.**

**Proof sketch.** A new pool has no positions, so its ranges are empty and all totals are zero; its
price and its rates are those that `initialize` has checked. -/
theorem History.new_invariant {w : Whirlpool} (h : Initialized w) :
    (History.new w).Invariant := by
  obtain ⟨hts, hprice, -, hfee, hprot, hliq, hA, hB, hgrowth⟩ := h.record
  have htotal : ∀ {M : Type} [Semiring M] (v : Pubkey → M), (Pool.new w).ranges.total v = 0 :=
    fun v => Finset.sum_empty
  have htick : ∀ t, (Pool.new w).ticks t = Tick.default := fun _ => rfl
  have hgross : ∀ t, (Pool.new w).ranges.gross t = 0 := fun t => by
    unfold Ranges.gross Ranges.startsAt Ranges.endsAt
    rw [htotal, htotal, add_zero]
  have hnone : ∀ k, k ∉ (Pool.new w).positions := Finset.notMem_empty
  refine ⟨⟨hts, fun _ _ h => (Option.some_ne_none _ h.symm).elim, hprice, hfee, hprot, ?_,
    fun k hk => (hnone k hk).elim, fun k hk => (hnone k hk).elim,
    ⟨?_, fun t => ?_, fun t => ?_, fun t => ?_, fun t _ => htick t⟩,
    fun i _ => ⟨hgrowth i, fun t => ?_⟩, fun k hk => (hnone k hk).elim⟩,
    ⟨fun X => ?_, fun X => ?_⟩, fun i => ?_⟩
  · exact hliq ▸ (by positivity)
  · exact hliq.trans (htotal _).symm
  · exact ((Pool.new w).ranges.net_eq_zero (hgross t)).symm
  · exact (hgross t).symm
  · exact iff_of_false Bool.false_ne_true (hgross t).not_gt
  · rfl
  · have howed : (Pool.new w).whirlpool.protocolFeeOwed X = 0 := by
      cases X
      · exact hA
      · exact hB
    have hfees : (Pool.new w).feesOwed X = 0 := Finset.sum_empty
    change (Pool.new w).obligations _ X ≤ _
    unfold Pool.obligations Pool.feesEarned reserve
    rw [howed, htotal, htotal, hfees]
    simp
  · cases X <;> exact Nat.two_pow_pos 64
  · change (0 : ℕ) * (2 : ℚ) ^ 64 + (Pool.new w).ranges.total _ ≤ (0 : ℕ)
    rw [htotal]
    simp

/-! ## One instruction -/

namespace Pool

variable {pool pool' : Pool} {earned : Earnings} {op : PoolOp}
  {infos : Fin numRewards → WhirlpoolRewardInfo} {timestamp : ℕ}

/-- An instruction that reads no clock accrues no rewards. -/
lemma accrual_none (h : op.clock = none) : pool.accrual op = none := by
  unfold accrual
  rw [h]

/-- An instruction that reads the clock accrues the rewards up to its timestamp. -/
lemma accrual_some {clock : Int64} (h : op.clock = some clock)
    (ht : toTimestampU64 clock = .ok timestamp)
    (hr : nextWhirlpoolRewardInfos pool.whirlpool timestamp = .ok infos) :
    pool.accrual op = some (infos, timestamp) := by
  unfold accrual
  rw [h]
  simp only [ht, hr]

/-- Without a swap only rewards grow. -/
lemma growthLog_of_accrual (h : pool.accrual op = some (infos, timestamp))
    (htrade : op.trade = none) : pool.growthLog op = pool.rewardLog infos := by
  unfold growthLog
  rw [h, htrade]

/-- In a swap rewards and fees grow. -/
lemma growthLog_of_trade {args : SwapArgs} {t : SwapTrace}
    (h : pool.accrual op = some (infos, timestamp)) (htrade : op.trade = some args)
    (ht : pool.observeSwap args timestamp = .ok t) :
    pool.growthLog op = pool.tradeLog args infos t := by
  unfold growthLog
  rw [h, htrade]
  simp only [ht]

/-- What is emitted of a reward until the timestamp, as long as there is liquidity. -/
lemma emission_of_accrual (h : pool.accrual op = some (infos, timestamp)) (i : Fin numRewards) :
    pool.emission op i = if pool.whirlpool.liquidity = 0 then 0
      else (timestamp - pool.whirlpool.rewardLastUpdatedTimestamp) *
        (pool.whirlpool.rewardInfos i).emissionsPerSecondX64 := by
  unfold emission
  rw [h]

/-- Accruing does not touch the vaults. -/
lemma Backed.accrue (hb : pool.Backed earned) :
    (pool.accrue infos timestamp).Backed (earned.add pool (pool.rewardLog infos)) :=
  ⟨fun X => by
    rw [pool.obligations_accrue]
    exact hb.covered X, hb.vault_lt⟩

/-- The update of a position credits its reward with no more than it has earned.

**Proof sketch.** The position is credited with the growth inside its range since its checkpoint,
which is what it has earned, rounded down. Its earnings are cleared with the credit. -/
lemma Updated.credit_le {key : Pubkey} {delta : ℤ} (hs : pool.Sound earned)
    (h : Updated pool pool' key infos timestamp delta) (hupd : op.updated = some key)
    (i : Fin numRewards) :
    (pool.credit op pool' i : ℚ) * 2 ^ 64 + pool'.ranges.total (fun k =>
        ((earned.add pool (pool.rewardLog infos)).clear key k (.reward i) : ℚ)) ≤
      pool.ranges.total fun k => (earned.add pool (pool.rewardLog infos) k (.reward i) : ℚ) := by
  have hsound := hs.accrue h.rewards
  have hmem : key ∈ (pool.accrue infos timestamp).positions := h.mem
  have hcheck : (pool'.position key).growthCheckpoint (.reward i) =
      (pool.accrue infos timestamp).insidePosition key (.reward i) := by
    have hpos := congrFun h.resized.position key
    rw [Function.update_self] at hpos
    have hset : ((((pool.accrue infos timestamp).settle key).position key).growthCheckpoint
        (.reward i)) = (pool.accrue infos timestamp).insidePosition key (.reward i) := by
      unfold Pool.settle
      rw [setPosition_self, Position.settle_growthCheckpoint]
    rw [hpos]
    exact hset
  have hle := hsound.owedDelta_le hmem (.reward i)
  have hclear : (pool.accrue infos timestamp).ranges.total (fun k =>
      ((earned.add pool (pool.rewardLog infos)).clear key k (.reward i) : ℚ)) + _ = _ :=
    total_clear hmem (.reward i)
  have htotal := h.resized.total hmem (fun k =>
    ((earned.add pool (pool.rewardLog infos)).clear key k (.reward i) : ℚ))
  have hzero : (earned.add pool (pool.rewardLog infos)).clear key key (.reward i) = 0 := by
    rw [Earnings.clear, Function.update_self]
  rw [hzero, Nat.cast_zero, mul_zero, add_zero, ranges_settle] at htotal
  unfold credit
  rw [hupd]
  simp only
  rw [hcheck, htotal]
  change _ ≤ (pool.accrue infos timestamp).ranges.total _
  rw [← hclear, add_comm]
  refine add_le_add_right ?_ _
  exact_mod_cast hle

/-- The rewards that ranges earn are emitted.

**Proof sketch.** A reward grows by what is emitted per unit of liquidity, rounded down, and the
ranges that earn it are the active ones, so together they earn at most what is emitted. -/
lemma total_rewardLog_le (hs : pool.Sound earned)
    (hr : nextWhirlpoolRewardInfos pool.whirlpool timestamp = .ok infos) (i : Fin numRewards) :
    pool.ranges.total (fun k =>
        (earned.add pool (pool.rewardLog infos) k (.reward i) : ℚ)) ≤
      pool.ranges.total (fun k => (earned k (.reward i) : ℚ)) +
        (if pool.whirlpool.liquidity = 0 then 0
          else (timestamp - pool.whirlpool.rewardLastUpdatedTimestamp) *
            (pool.whirlpool.rewardInfos i).emissionsPerSecondX64 : ℕ) := by
  obtain ⟨-, hspec⟩ := nextWhirlpoolRewardInfos_eq_ok hr
  obtain ⟨-, -, hgrowth, -⟩ := hspec i
  obtain ⟨x, hx⟩ : ∃ x, ((infos i).growthGlobalX64 -
    (pool.whirlpool.rewardInfos i).growthGlobalX64).toNat = x := ⟨_, rfl⟩
  rw [hx] at hgrowth
  have hlog : pool.rewardLog infos (.reward i) =
      Outside.record (fun _ => 0) pool.whirlpool.tickCurrentIndex x := by
    rw [← hx]
    rfl
  have hterm : ∀ k, ((earned.add pool (pool.rewardLog infos) k (.reward i) : ℕ) : ℚ) =
      earned k (.reward i) + (Outside.recorded
        (Outside.record (fun _ => 0) pool.whirlpool.tickCurrentIndex x) (pool.ranges.lower k)
        (pool.ranges.upper k) : ℚ) := fun k => by
    unfold Earnings.add
    rw [hlog, Nat.cast_add]
    rfl
  have hzero : loggedFor pool.ranges (fun _ => 0) = 0 := by simp [loggedFor]
  simp only [hterm]
  rw [pool.ranges.total_add]
  change _ + loggedFor pool.ranges _ ≤ _
  rw [loggedFor_record, hzero, zero_add, ← hs.books.active, mul_comm]
  refine add_le_add_right ?_ _
  split_ifs with h0
  · rw [h0]
    simp
  · exact_mod_cast hgrowth

end Pool

namespace History

/-- **Every instruction keeps the invariant.**

**Proof sketch.** By the effect of the instruction. A quiet step logs no growth and keeps what is
earned; an update logs the rewards, clears the earnings of its position and credits it; a trade logs
rewards and fees. Each keeps the accounts sound and backed, and adds to credits no more than to
earnings. -/
theorem Invariant.extend {s : History} (h : s.Invariant) {op : PoolOp} {pool' : Pool}
    (hstep : s.pool.step op = .ok pool') : (s.extend op pool').Invariant := by
  have hs := h.sound
  rcases Pool.step_effect hs h.backed hstep with ⟨hclock, hupd, htrade, hq⟩ |
    ⟨clock, infos, timestamp, hclock, ht, hupd, htrade, hr, hq⟩ |
    ⟨clock, key, infos, timestamp, delta, hclock, ht, hupd, htrade, hu⟩ |
    ⟨clock, args, infos, timestamp, t, hclock, ht, hupd, htrade, htr⟩
  · have hlog : s.pool.growthLog op = fun _ _ => 0 := by
      unfold Pool.growthLog
      rw [Pool.accrual_none hclock]
    have hearned : (s.extend op pool').earned = s.earned := by
      unfold History.extend Earnings.add
      simp [hupd, hlog]
    refine ⟨hearned ▸ hq.sound hs, hearned ▸ hq.backed h.backed, fun i => ?_⟩
    rw [hearned]
    have hcredit : s.pool.credit op pool' i = 0 := by
      unfold Pool.credit
      rw [hupd]
    have hemission : s.pool.emission op i = 0 := by
      unfold Pool.emission
      rw [Pool.accrual_none hclock]
    change ((s.credited i + s.pool.credit op pool' i : ℕ) : ℚ) * 2 ^ 64 + pool'.ranges.total _ ≤
      (s.emitted i + s.pool.emission op i : ℕ)
    rw [hcredit, hemission, add_zero, add_zero, hq.ranges.total fun _ _ _ => rfl]
    exact h.rewards i
  · have hacc := Pool.accrual_some hclock ht hr
    have hearned : (s.extend op pool').earned =
        s.earned.add s.pool (s.pool.rewardLog infos) := by
      unfold History.extend
      simp only [hupd, Pool.growthLog_of_accrual hacc htrade]
    refine ⟨hearned ▸ hq.sound (hs.accrue hr), hearned ▸ hq.backed h.backed.accrue, fun i => ?_⟩
    have hcredit : s.pool.credit op pool' i = 0 := by
      unfold Pool.credit
      rw [hupd]
    have hle := Pool.total_rewardLog_le hs hr i
    have hold := h.rewards i
    rw [hearned]
    change ((s.credited i + s.pool.credit op pool' i : ℕ) : ℚ) * 2 ^ 64 + pool'.ranges.total _ ≤
      (s.emitted i + s.pool.emission op i : ℕ)
    rw [hcredit, add_zero, Pool.emission_of_accrual hacc, hq.ranges.total fun _ _ _ => rfl,
      Nat.cast_add]
    change _ + s.pool.ranges.total _ ≤ _
    linarith
  · have hacc := Pool.accrual_some hclock ht hu.rewards
    have hearned : (s.extend op pool').earned =
        (s.earned.add s.pool (s.pool.rewardLog infos)).clear key := by
      unfold History.extend
      simp only [hupd, Pool.growthLog_of_accrual hacc htrade]
    refine ⟨hearned ▸ hu.sound hs, hearned ▸ hu.backed hs h.backed, fun i => ?_⟩
    have hcredit := hu.credit_le hs hupd i
    have hle := Pool.total_rewardLog_le hs hu.rewards i
    have hold := h.rewards i
    rw [hearned]
    change ((s.credited i + s.pool.credit op pool' i : ℕ) : ℚ) * 2 ^ 64 + pool'.ranges.total _ ≤
      (s.emitted i + s.pool.emission op i : ℕ)
    rw [Pool.emission_of_accrual hacc, Nat.cast_add, Nat.cast_add]
    linarith
  · have hacc := Pool.accrual_some hclock ht htr.rewards
    have hearned : (s.extend op pool').earned =
        s.earned.add s.pool (s.pool.tradeLog args infos t) := by
      unfold History.extend
      simp only [hupd, Pool.growthLog_of_trade hacc htrade htr.observed]
    refine ⟨hearned ▸ htr.sound hs, hearned ▸ htr.backed h.backed, fun i => ?_⟩
    have hcredit : s.pool.credit op pool' i = 0 := by
      unfold Pool.credit
      rw [hupd]
    have hle := Pool.total_rewardLog_le hs htr.rewards i
    have hold := h.rewards i
    rw [hearned]
    change ((s.credited i + s.pool.credit op pool' i : ℕ) : ℚ) * 2 ^ 64 + pool'.ranges.total
      (fun k => (s.earned.add s.pool (s.pool.rewardLog infos) k (.reward i) : ℚ)) ≤
      (s.emitted i + s.pool.emission op i : ℕ)
    rw [hcredit, add_zero, Pool.emission_of_accrual hacc, htr.ranges, Nat.cast_add]
    linarith

/-- The invariant holds after an instruction, whether it succeeds or not. -/
theorem Invariant.next {s : History} (h : s.Invariant) (op : PoolOp) : (s.next op).Invariant := by
  unfold History.next
  split
  · next pool' hstep => exact h.extend hstep
  · exact h

/-- **The invariant holds after every run.** -/
theorem Invariant.run {s : History} (h : s.Invariant) (ops : List PoolOp) :
    (s.run ops).Invariant := by
  induction ops generalizing s with
  | nil => exact h
  | cons op ops ih => exact ih (h.next op)

end History

/-- A step of a reachable pool leads to a reachable pool. -/
lemma Reachable.step {pool pool' : Pool} {op : PoolOp} (h : Reachable pool)
    (hstep : pool.step op = .ok pool') : Reachable pool' := by
  obtain ⟨w, ops, hw, rfl⟩ := h
  refine ⟨w, ops ++ [op], hw, ?_⟩
  rw [Pool.run_concat, Pool.next_eq_of_ok hstep]

/-- The step of an instruction that succeeds. -/
lemma Pool.step_eq_next {pool : Pool} {op : PoolOp}
    (h : (pool.step op).map (fun _ => ()) = .ok ()) : pool.step op = .ok (pool.next op) := by
  obtain ⟨pool', hstep, -⟩ := Res.map_eq_ok.1 h
  rw [Pool.next_eq_of_ok hstep, hstep]

/-- The first instruction of a run fails and changes nothing, or succeeds. -/
theorem Pool.run_cons (pool : Pool) (op : PoolOp) (ops : List PoolOp) :
    (pool.next op = pool ∧ pool.run (op :: ops) = pool.run ops) ∨
      ∃ pool', pool.step op = .ok pool' ∧ pool.next op = pool' ∧
        pool.run (op :: ops) = pool'.run ops := by
  have hrun : pool.run (op :: ops) = (pool.next op).run ops := rfl
  cases hstep : pool.step op with
  | error failure =>
    have hnext : pool.next op = pool := by
      unfold Pool.next
      rw [hstep]
    exact .inl ⟨hnext, by rw [hrun, hnext]⟩
  | ok pool' =>
    have hnext := Pool.next_eq_of_ok hstep
    exact .inr ⟨pool', rfl, hnext, by rw [hrun, hnext]⟩

/-- Every reachable pool has a history. -/
theorem Reachable.invariant {pool : Pool} (h : Reachable pool) :
    ∃ s : History, s.pool = pool ∧ s.Invariant := by
  obtain ⟨w, ops, hw, rfl⟩ := h
  exact ⟨(History.new w).run ops, History.run_pool _ _, (History.new_invariant hw).run ops⟩

/-! ## A run -/

/-- A new pool at price one, with a tick spacing of 64. -/
def sampleRecord : Whirlpool :=
  { isEnabled := true, whirlpoolsConfig := 1, tickSpacing := 64, feeRate := 3000
    protocolFeeRate := 300, liquidity := 0, sqrtPrice := 2 ^ 64, tickCurrentIndex := 0
    protocolFeeOwedA := 0, protocolFeeOwedB := 0, tokenMintA := 1, feeGrowthGlobalA := 0
    tokenMintB := 2, feeGrowthGlobalB := 0, rewardLastUpdatedTimestamp := 0
    rewardInfos := fun _ => WhirlpoolRewardInfo.new 5 }

/-- The sample record is that of a new pool. -/
lemma sampleRecord_initialized : Initialized sampleRecord := by
  refine ⟨by decide, 1, 300, 5, 64, 2 ^ 64, 3000, 1, 2, ?_⟩
  decide +kernel

/-- The owner of the position of the sample run, and his funds. -/
def sampleAuth : PositionAuthority := ⟨9, 3, 1, none, 0, none, 3, true⟩

/-- The owner of a second position. -/
def sampleAuth₂ : PositionAuthority := ⟨10, 4, 1, none, 0, none, 4, true⟩
def sampleFunds : OwnerFunds := ⟨10 ^ 12, 10 ^ 12⟩

/-- A position on `[-128, 128)` is opened and filled. -/
def sampleOps : List PoolOp :=
  [.initializeTickArray (-5632), .initializeTickArray 0, .openPosition 1 9 (-128) 128,
    .increaseLiquidity 1 sampleAuth (-5632) 0 1000000000 1000000000 1000000000 0 sampleFunds]

/-- A swap that sells token A. -/
def sampleSwap : PoolOp :=
  .swap ⟨0, -5632, -5632, 100000, 4295048016, true, true⟩ 0 5 sampleFunds

/-- A swap that sells what the sample swap has received. -/
def sampleBack : PoolOp :=
  .swap ⟨0, 0, 0, 99690, 79226673515401279992447579055, true, false⟩ 0 6 sampleFunds

/-- A swap that sells token A down to the price of tick `-128`, which it crosses. -/
def sampleCrossing : PoolOp :=
  .swap ⟨0, -5632, -5632, 10 ^ 10, 18329067761203520168, true, true⟩ 0 5 sampleFunds

/-- After the sample run a second position is opened below the first one's upper half, and filled.
The two share the tick `-128`, and the sample swap crosses the tick `0` into the second one. -/
def sampleSharing : List PoolOp :=
  sampleOps ++ [.openPosition 2 10 (-128) 0,
    .increaseLiquidity 2 sampleAuth₂ (-5632) 0 500000 1000000 1000000 0 sampleFunds, sampleSwap]

/-- The pool after the sample run. -/
def samplePool : Pool := (Pool.new sampleRecord).run sampleOps

/-- The sample pool is reached from it by the sample instructions. -/
lemma samplePool_reachable : Reachable samplePool :=
  ⟨sampleRecord, sampleOps, sampleRecord_initialized, rfl⟩

end NemoSwap
