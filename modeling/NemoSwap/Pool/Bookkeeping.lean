import NemoSwap.Pool.History

set_option relaxedAutoImplicit false
set_option autoImplicit false

/-!
# Liquidity, ticks and prices of a reachable pool

## Main results

* `NemoSwap.Reachable.bookkeeping` — the active liquidity and the ticks are sums over the
  positions.
* `NemoSwap.price_tick_run` — the price and the tick index agree, and the price is that of the
  next tick only after a crossing to the left.
* `NemoSwap.Reachable.calculateUpdate_ok` — a crossing never fails.
-/

namespace NemoSwap

/-! ## Bookkeeping -/

/-- **The liquidity of a pool and of its ticks is a sum over its positions.**

**Proof sketch.** These are the books of the invariant, whose totals are written out as sums over
the positions. -/
theorem Reachable.bookkeeping {pool : Pool} (h : Reachable pool) :
    pool.whirlpool.liquidity = ∑ k ∈ pool.positions with
        (pool.position k).tickLowerIndex ≤ pool.whirlpool.tickCurrentIndex ∧
          pool.whirlpool.tickCurrentIndex < (pool.position k).tickUpperIndex,
      (pool.position k).liquidity ∧
    ∀ t, (pool.ticks t).liquidityNet =
        (∑ k ∈ pool.positions with (pool.position k).tickLowerIndex = t,
          (pool.position k).liquidity : ℕ) -
        (∑ k ∈ pool.positions with (pool.position k).tickUpperIndex = t,
          (pool.position k).liquidity : ℕ) ∧
      (pool.ticks t).liquidityGross =
        ∑ k ∈ pool.positions with (pool.position k).tickLowerIndex = t,
          (pool.position k).liquidity +
        ∑ k ∈ pool.positions with (pool.position k).tickUpperIndex = t,
          (pool.position k).liquidity ∧
      ((pool.ticks t).initialized = true ↔ 0 < (pool.ticks t).liquidityGross) ∧
      ((pool.ticks t).initialized = false → pool.ticks t = Tick.default) := by
  obtain ⟨s, rfl, hs⟩ := h.invariant
  have hbooks := hs.sound.books
  have hstart : ∀ t, s.pool.ranges.startsAt t = _ := fun t =>
    s.pool.ranges.total_ite fun k => s.pool.ranges.lower k = t
  have hend : ∀ t, s.pool.ranges.endsAt t = _ := fun t =>
    s.pool.ranges.total_ite fun k => s.pool.ranges.upper k = t
  refine ⟨?_, fun t => ⟨?_, ?_, ?_, hbooks.blank t⟩⟩
  · exact hbooks.active.trans (s.pool.ranges.total_ite fun k =>
      s.pool.ranges.Contains k s.pool.whirlpool.tickCurrentIndex)
  · rw [hbooks.net, Ranges.net, hstart, hend]
    rfl
  · rw [hbooks.gross, Ranges.gross, hstart, hend]
    rfl
  · rw [hbooks.gross]
    exact hbooks.initialized t

/-- The pool after the run with two positions. -/
def samplePair : Pool := (Pool.new sampleRecord).run sampleSharing

/-- After the crossing of the tick `0` both positions are active. The gross liquidity of the shared
tick is that of both, and the net liquidity of the tick `0` that of the second one, which ends
there. -/
theorem Reachable.bookkeeping_samplePair :
    samplePair.whirlpool.liquidity = 10 ^ 9 + 500000 ∧
      samplePair.whirlpool.liquidity = ∑ k ∈ samplePair.positions with
          (samplePair.position k).tickLowerIndex ≤ samplePair.whirlpool.tickCurrentIndex ∧
            samplePair.whirlpool.tickCurrentIndex < (samplePair.position k).tickUpperIndex,
        (samplePair.position k).liquidity ∧
      10 ^ 9 + 500000 =
        ∑ k ∈ samplePair.positions with (samplePair.position k).tickLowerIndex = -128,
          (samplePair.position k).liquidity +
        ∑ k ∈ samplePair.positions with (samplePair.position k).tickUpperIndex = -128,
          (samplePair.position k).liquidity ∧
      (-500000 : ℤ) =
        (∑ k ∈ samplePair.positions with (samplePair.position k).tickLowerIndex = 0,
          (samplePair.position k).liquidity : ℕ) -
        (∑ k ∈ samplePair.positions with (samplePair.position k).tickUpperIndex = 0,
          (samplePair.position k).liquidity : ℕ) ∧
      samplePair.ticks 64 = Tick.default := by
  have hreachable : Reachable samplePair :=
    ⟨sampleRecord, sampleSharing, sampleRecord_initialized, rfl⟩
  have hliquidity : samplePair.whirlpool.liquidity = 10 ^ 9 + 500000 := by decide +kernel
  have hgross : (samplePair.ticks (-128)).liquidityGross = 10 ^ 9 + 500000 := by decide +kernel
  have hnet : (samplePair.ticks 0).liquidityNet = -500000 := by decide +kernel
  have hblank : (samplePair.ticks 64).initialized = false := by decide +kernel
  obtain ⟨hactive, hticks⟩ := hreachable.bookkeeping
  obtain ⟨-, hshared, -, -⟩ := hticks (-128)
  obtain ⟨hend, -, -, -⟩ := hticks 0
  obtain ⟨-, -, -, hdefault⟩ := hticks 64
  exact ⟨hliquidity, hactive, hgross ▸ hshared, hnet ▸ hend, hdefault hblank⟩

/-! ## Price and tick -/

/-- An instruction whose swap crosses a tick to the left, and leaves the pool there. -/
def Pool.CrossedLeft (pool : Pool) (op : PoolOp) (pool' : Pool) : Prop :=
  pool.step op = .ok pool' ∧ ∃ args infos timestamp sequence s s', op.trade = some args ∧
    args.aToB = true ∧ pool.accrual op = some (infos, timestamp) ∧
    Pool.Run pool args infos sequence s ∧
    CrossesLeft pool.whirlpool infos args.sqrtPriceLimit.toNat args.amountSpecifiedIsInput s s' ∧
    pool'.whirlpool.sqrtPrice = s'.currSqrtPrice ∧
    pool'.whirlpool.tickCurrentIndex = s'.currTickIndex

/-- A swap that leaves the price at that of the next tick has crossed a tick to the left, or has
not moved.

**Proof sketch.** Induction on the iterations that the swap has made, with `swapStep_next_tick` for
the last one. -/
lemma Pool.Traded.crossedLeft {pool pool' : Pool} {earned : Earnings} {args : Pool.SwapArgs}
    {infos : Fin numRewards → WhirlpoolRewardInfo} {timestamp : ℕ} {t : SwapTrace}
    (hs : pool.Sound earned) (hb : pool.Backed earned)
    (h : pool.Traded pool' args infos timestamp t)
    (hnext : pool'.whirlpool.sqrtPrice = tickPrice (pool'.whirlpool.tickCurrentIndex + 1)) :
    (args.aToB = true ∧ ∃ sequence s s', Pool.Run pool args infos sequence s ∧
      CrossesLeft pool.whirlpool infos args.sqrtPriceLimit.toNat args.amountSpecifiedIsInput s s' ∧
      pool'.whirlpool.sqrtPrice = s'.currSqrtPrice ∧
      pool'.whirlpool.tickCurrentIndex = s'.currTickIndex) ∨
    (pool'.whirlpool.sqrtPrice = pool.whirlpool.sqrtPrice ∧
      pool'.whirlpool.tickCurrentIndex = pool.whirlpool.tickCurrentIndex) := by
  obtain ⟨sequence, -, -, hrun⟩ := h.invariant
  obtain ⟨-, htick, hprice, -⟩ := h.record
  rw [htick, hprice] at hnext ⊢
  have hiter := hrun.iterates
  -- along the iterations the price is that of the next tick only after a crossing to the left
  revert hnext
  generalize t.state = s at hiter hrun ⊢
  clear htick hprice
  induction hiter with
  | refl => exact fun _ => Or.inr ⟨rfl, rfl⟩
  | @tail s₁ s₂ hiter₁ hstep ih =>
    intro hnext
    have hrun₁ : Pool.Run pool args infos sequence s₁ :=
      ⟨hrun.loaded, hrun.min_le, hrun.le_max, hrun.toward, hiter₁⟩
    obtain ⟨-, t₂, rfl, hinv⟩ := hrun.invariant hs hb h.rewards
    rcases swapStep_next_tick hinv.wellFormed.price hstep.1 hstep.2 hnext with ⟨hd, hc⟩ | ⟨hp, hc⟩
    · exact Or.inl ⟨hd, sequence, s₁, t₂.state, hrun₁, hc, rfl, rfl⟩
    · rw [hp, hc] at hnext ⊢
      exact ih hrun₁ hnext

/-- One instruction that leaves the price at that of the next tick.

**Proof sketch.** An instruction that fails changes nothing. One that succeeds is quiet or an
update, and keeps price and tick index, or is a trade, for which it is `Pool.Traded.crossedLeft`. -/
lemma Pool.next_crossedLeft {pool : Pool} {earned : Earnings} (hs : pool.Sound earned)
    (hb : pool.Backed earned) (op : PoolOp)
    (hnext : (pool.next op).whirlpool.sqrtPrice =
      tickPrice ((pool.next op).whirlpool.tickCurrentIndex + 1)) :
    Pool.CrossedLeft pool op (pool.next op) ∨
      ((pool.next op).whirlpool.sqrtPrice = pool.whirlpool.sqrtPrice ∧
        (pool.next op).whirlpool.tickCurrentIndex = pool.whirlpool.tickCurrentIndex) := by
  have hcases : (∃ pool', pool.step op = .ok pool' ∧ pool.next op = pool') ∨
      pool.next op = pool := by
    unfold Pool.next
    cases pool.step op with
    | ok pool' => exact Or.inl ⟨pool', rfl, rfl⟩
    | error e => exact Or.inr rfl
  rcases hcases with ⟨pool', hstep, he⟩ | he
  · rw [he] at hnext ⊢
    rcases Pool.step_effect hs hb hstep with ⟨-, -, -, hq⟩ | ⟨_, _, _, -, -, -, -, -, hq⟩ |
      ⟨_, key, infos, timestamp, _, -, -, -, -, hu⟩ |
      ⟨clock, args, infos, timestamp, t, hclock, ht, -, htrade, htr⟩
    · exact Or.inr ⟨hq.sqrtPrice, hq.tickCurrentIndex⟩
    · exact Or.inr ⟨hq.sqrtPrice, hq.tickCurrentIndex⟩
    · obtain ⟨-, h1, -, h2, -⟩ := hu.resized.whirlpool_eq
      exact Or.inr ⟨h2, h1⟩
    · rcases htr.crossedLeft hs hb hnext with ⟨hd, sequence, s, s', hrun, hc, h1, h2⟩ | hsame
      · exact Or.inl ⟨hstep, args, infos, timestamp, sequence, s, s', htrade, hd,
          Pool.accrual_some hclock ht htr.rewards, hrun, hc, h1, h2⟩
      · exact Or.inr hsame
  · rw [he]
    exact Or.inr ⟨rfl, rfl⟩

/-- **Tick and price never drift apart.** After every run the price is one between the bounds, the
tick index is the tick of the price, and the price is that of the next tick only if the last
instruction that changed either crossed a tick to the left.

**Proof sketch.** The bounds and the tick index are part of the invariant of a run. For the last
part, induction on the run from its end: an instruction that changes neither price nor tick index
leaves the claim about the earlier ones, and one that changes them ends in a crossing to the
left. -/
theorem price_tick_run {w : Whirlpool} (hw : Initialized w) (ops : List PoolOp) :
    (minSqrtPriceX64 ≤ ((Pool.new w).run ops).whirlpool.sqrtPrice ∧
      ((Pool.new w).run ops).whirlpool.sqrtPrice ≤ maxSqrtPriceX64) ∧
    (minTickIndex - 1 ≤ ((Pool.new w).run ops).whirlpool.tickCurrentIndex ∧
      ((Pool.new w).run ops).whirlpool.tickCurrentIndex ≤ maxTickIndex) ∧
    (minTickIndex ≤ ((Pool.new w).run ops).whirlpool.tickCurrentIndex →
      ∃ q, sqrtPriceFromTickIndex ((Pool.new w).run ops).whirlpool.tickCurrentIndex = .ok q ∧
        q ≤ ((Pool.new w).run ops).whirlpool.sqrtPrice) ∧
    (((Pool.new w).run ops).whirlpool.tickCurrentIndex < maxTickIndex →
      ∃ q, sqrtPriceFromTickIndex (((Pool.new w).run ops).whirlpool.tickCurrentIndex + 1) = .ok q ∧
        ((Pool.new w).run ops).whirlpool.sqrtPrice ≤ q ∧
        (((Pool.new w).run ops).whirlpool.sqrtPrice = q → ∃ pre op post, ops = pre ++ op :: post ∧
          Pool.CrossedLeft ((Pool.new w).run pre) op ((Pool.new w).run (pre ++ [op])) ∧
          ∀ mid, mid <+: post →
            ((Pool.new w).run (pre ++ op :: mid)).whirlpool.sqrtPrice =
              ((Pool.new w).run ops).whirlpool.sqrtPrice ∧
            ((Pool.new w).run (pre ++ op :: mid)).whirlpool.tickCurrentIndex =
              ((Pool.new w).run ops).whirlpool.tickCurrentIndex)) := by
  have hall : ∀ ops, ∃ earned, ((Pool.new w).run ops).Sound earned ∧
      ((Pool.new w).run ops).Backed earned := fun ops => by
    have hinv := (History.new_invariant hw).run ops
    have hpool := History.run_pool ops (History.new w)
    exact ⟨_, hpool ▸ hinv.sound, hpool ▸ hinv.backed⟩
  obtain ⟨earned, hs, -⟩ := hall ops
  have hp := hs.price
  refine ⟨⟨hp.min_le, hp.le_max⟩, ⟨hp.tick_min, hp.tick_max⟩, fun _ => ?_, fun hlt => ?_⟩
  · exact ⟨_, sqrtPriceFromTickIndex_eq hp.tick_max, hp.lower⟩
  · refine ⟨_, sqrtPriceFromTickIndex_eq (by unfold maxTickIndex at hlt; omega), hp.upper, ?_⟩
    clear hlt hp hs earned
    -- by induction on the run: an instruction that changed neither leaves the last one that did
    induction ops using List.reverseRecOn with
    | nil =>
      intro hnext
      exact absurd hnext hw.record.2.2.1.ne
    | append_singleton ops op ih =>
      intro hnext
      obtain ⟨earned, hs, hb⟩ := hall ops
      rw [Pool.run_concat] at hnext
      rcases Pool.next_crossedLeft hs hb op hnext with hc | ⟨h1, h2⟩
      · refine ⟨ops, op, [], rfl, by rwa [Pool.run_concat], fun mid hmid => ?_⟩
        rw [List.prefix_nil.1 hmid]
        exact ⟨rfl, rfl⟩
      · rw [h1, h2] at hnext
        obtain ⟨pre, op', post, rfl, hc, hmid⟩ := ih hnext
        refine ⟨pre, op', post ++ [op], by simp, hc, fun mid hpre => ?_⟩
        rw [Pool.run_concat, h1, h2]
        rcases List.prefix_concat_iff.1 hpre with rfl | hpre
        · rw [show pre ++ op' :: (post ++ [op]) = (pre ++ op' :: post) ++ [op] by simp,
            Pool.run_concat]
          exact ⟨h1, h2⟩
        · exact hmid mid hpre

/-- A swap that stops at the price of the tick it crosses leaves the price at the next tick. -/
theorem price_tick_run_sampleCrossing :
    ((Pool.new sampleRecord).run (sampleOps ++ [sampleCrossing])).whirlpool.tickCurrentIndex = -129 ∧
      ∃ pre op post, sampleOps ++ [sampleCrossing] = pre ++ op :: post ∧
        Pool.CrossedLeft ((Pool.new sampleRecord).run pre) op
          ((Pool.new sampleRecord).run (pre ++ [op])) := by
  have htick : ((Pool.new sampleRecord).run
      (sampleOps ++ [sampleCrossing])).whirlpool.tickCurrentIndex = -129 := by decide +kernel
  have hprice : ((Pool.new sampleRecord).run (sampleOps ++ [sampleCrossing])).whirlpool.sqrtPrice =
      18329067761203520168 := by decide +kernel
  have hnext : sqrtPriceFromTickIndex (-129 + 1) = .ok 18329067761203520168 := by decide +kernel
  obtain ⟨-, -, -, h⟩ := price_tick_run sampleRecord_initialized (sampleOps ++ [sampleCrossing])
  rw [htick, hprice] at h
  obtain ⟨q, hq, -, hcrossed⟩ := h (by decide)
  rw [hnext, Except.ok.injEq] at hq
  obtain ⟨pre, op, post, he, hc, -⟩ := hcrossed hq
  exact ⟨htick, pre, op, post, he, hc⟩

/-! ## Crossings -/

/-- **A crossing never fails.** Where a swap stands at a tick that its search found, the negation
of the tick's net liquidity does not overflow, and the new active liquidity is a `u128`.

**Proof sketch.** The net liquidity of the tick is the net size of the positions there, and the new
liquidity is the active size on its other side. What the trader has yet to receive comes out of a
vault that is a `u64`, and the reserve of a range with that much liquidity is more than that, which
bounds both. -/
theorem Reachable.calculateUpdate_ok {pool : Pool} (h : Reachable pool) {args : Pool.SwapArgs}
    {infos : Fin numRewards → WhirlpoolRewardInfo} {timestamp : ℕ} {sequence : SwapTickSequence}
    {s : SwapState} (hinfos : nextWhirlpoolRewardInfos pool.whirlpool timestamp = .ok infos)
    (hrun : Pool.Run pool args infos sequence s) (hgo : s.Running args.sqrtPriceLimit.toNat)
    {j : ℕ} {n : ℤ} {tick : Tick}
    (hsearch : s.swapTickSequence.getNextInitializedTickIndex s.currTickIndex
      pool.whirlpool.tickSpacing args.aToB s.currArrayIndex = .ok (j, n))
    (htick : s.swapTickSequence.getTick j n pool.whirlpool.tickSpacing = .ok tick)
    (growthA growthB : Growth) :
    (args.aToB = true → tick.liquidityNet ≠ -2 ^ 127) ∧ ∃ nextLiquidity : ℕ, nextLiquidity < 2 ^ 128 ∧
      (nextLiquidity : ℤ) = s.currLiquidity +
        (if args.aToB then -tick.liquidityNet else tick.liquidityNet) ∧
      calculateUpdate tick args.aToB s.currLiquidity growthA growthB infos =
        .ok (nextTickCrossUpdate tick growthA growthB infos, nextLiquidity) := by
  obtain ⟨s₀, rfl, hs₀⟩ := h.invariant
  obtain ⟨hstart, t, rfl, hinv⟩ := hrun.invariant hs₀.sound hs₀.backed hinfos
  have hwf := hinv.wellFormed
  obtain ⟨hres, -⟩ := hwf.search hstart.bounds hgo.2 hsearch
  have hnet : tick.liquidityNet = s₀.pool.ranges.net n := by
    rw [TickMap.getTick_eq_ok hwf.wellPlaced (TickMap.loads_store hwf.nodup) htick]
    exact hinv.books.net n
  have hact := hinv.books.active_crossed hstart.onTicks hres
  -- the reserve of the token that the trader receives bounds the liquidity beyond the tick
  have hout : reserve s₀.pool.ranges (tokenOut args.aToB) t.state.currSqrtPrice < 2 ^ 64 := by
    obtain ⟨-, -, hcov⟩ := hs₀.backed.le_vault hs₀.sound (tokenOut args.aToB)
    have hvault : (s₀.pool.vault (tokenOut args.aToB) : ℚ) < 2 ^ 64 := by
      exact_mod_cast hs₀.backed.vault_lt _
    have hreceived : (0 : ℚ) ≤ t.state.received args.amount.toNat args.amountSpecifiedIsInput :=
      Nat.cast_nonneg _
    have hcovered := hinv.output_covered
    change _ ≤ reserve _ _ s₀.pool.whirlpool.sqrtPrice at hcovered
    linarith
  have hmin := hwf.price.tick_min
  have hmax := hwf.price.tick_max
  have hn1 := hres.lower
  have hn2 := hres.upper
  unfold minTickIndex at hmin hn1
  unfold maxTickIndex at hmax hn2
  have hlt : s₀.pool.ranges.active (crossedIndex args.aToB n) < 2 ^ 128 ∧
      (args.aToB = true → s₀.pool.ranges.net n ≠ -2 ^ 127) := by
    cases hd : args.aToB with
    | true =>
      rw [hd] at hout hres
      obtain ⟨hle, -⟩ := hres.left rfl
      have hp : tickPrice n ≤ t.state.currSqrtPrice :=
        (tickPrice_le (by omega) hle (by omega)).trans hwf.price.lower
      have hres' : reserve s₀.pool.ranges .B (tickPrice n) < 2 ^ 64 :=
        (reserve_B_mono hp).trans_lt hout
      have h1 := active_left_lt hstart.onTicks hres'
      have h2 := endsAt_lt hstart.onTicks hres'
      refine ⟨h1.trans (by norm_num), fun _ => ?_⟩
      unfold Ranges.net
      omega
    | false =>
      rw [hd] at hout hres
      obtain ⟨hle, -⟩ := hres.right rfl
      have hp : t.state.currSqrtPrice ≤ tickPrice n :=
        hwf.price.upper.trans (tickPrice_le (by omega) hle (by omega))
      have h1 := active_right_lt hstart.onTicks ((reserve_A_anti hstart.onTicks hp).trans_lt hout)
      exact ⟨h1.trans (by norm_num), fun he => by cases he⟩
  rw [hnet]
  refine ⟨hlt.2, _, hlt.1, hact, ?_⟩
  unfold calculateUpdate
  have hneg : (if args.aToB then negI128 tick.liquidityNet else tick.liquidityNet) =
      if args.aToB then -s₀.pool.ranges.net n else s₀.pool.ranges.net n := by
    rw [hnet]
    cases hd : args.aToB with
    | true =>
      unfold negI128
      rw [if_pos rfl, if_pos rfl, if_neg (hlt.2 hd)]
    | false => rfl
  simp only [hneg]
  rw [exists_addLiquidityDelta_eq_ok hact hlt.1]
  rfl

/-- The sample swap can cross the tick `-128`, which takes the position's liquidity away. -/
theorem Reachable.calculateUpdate_ok_samplePool :
    ∃ nextLiquidity : ℕ, (nextLiquidity : ℤ) = samplePool.whirlpool.liquidity + -10 ^ 9 ∧
      calculateUpdate ⟨true, 10 ^ 9, 10 ^ 9, 0, 0, fun _ => 0⟩ true samplePool.whirlpool.liquidity
          0 0 samplePool.whirlpool.rewardInfos =
        .ok (nextTickCrossUpdate ⟨true, 10 ^ 9, 10 ^ 9, 0, 0, fun _ => 0⟩ 0 0
          samplePool.whirlpool.rewardInfos, nextLiquidity) := by
  obtain ⟨array0, h0⟩ : ∃ array, (samplePool.tickArrays 0).getD TickArray.default = array :=
    ⟨_, rfl⟩
  obtain ⟨array1, h1⟩ : ∃ array, (samplePool.tickArrays (-5632)).getD TickArray.default = array :=
    ⟨_, rfl⟩
  have hload : samplePool.loadSequence 0 (-5632) (-5632) = .ok [array0, array1] := by
    subst h0 h1
    decide +kernel
  have hsearch : SwapTickSequence.getNextInitializedTickIndex [array0, array1]
      samplePool.whirlpool.tickCurrentIndex samplePool.whirlpool.tickSpacing true 0 =
        .ok (1, -128) := by
    subst h0 h1
    decide +kernel
  have htick : SwapTickSequence.getTick [array0, array1] 1 (-128)
      samplePool.whirlpool.tickSpacing = .ok ⟨true, 10 ^ 9, 10 ^ 9, 0, 0, fun _ => 0⟩ := by
    subst h0 h1
    decide +kernel
  have hinfos : nextWhirlpoolRewardInfos samplePool.whirlpool 0 =
      .ok samplePool.whirlpool.rewardInfos := by decide +kernel
  have hdown : 18329067761203520168 < samplePool.whirlpool.sqrtPrice := by decide +kernel
  have hrun : Pool.Run samplePool ⟨0, -5632, -5632, 10 ^ 10, 18329067761203520168, true, true⟩
      samplePool.whirlpool.rewardInfos [array0, array1]
      (initialSwapState samplePool.whirlpool [array0, array1] (10 ^ 10) true) :=
    ⟨hload, by decide +kernel, by decide +kernel, toward_true.2 hdown.le, .refl⟩
  have hgo : (initialSwapState samplePool.whirlpool [array0, array1] (10 ^ 10) true).Running
      18329067761203520168 := ⟨by norm_num [initialSwapState], hdown.ne⟩
  obtain ⟨-, nextLiquidity, -, he, hok⟩ := samplePool_reachable.calculateUpdate_ok hinfos hrun hgo
    hsearch htick 0 0
  exact ⟨nextLiquidity, he, hok⟩

end NemoSwap
