import NemoSwap.Pool.History

set_option relaxedAutoImplicit false
set_option autoImplicit false

/-!
# Solvency

The vaults of a reachable pool hold the fees that it owes, the fees that its positions have earned
since their last updates, and what all liquidity could be withdrawn for. So no payout fails for
lack of funds, and no fee is lost to an overflow: everything that could overflow is still in a
vault, whose balance is a `u64`.

## Main definitions

* `NemoSwap.Pool.pendingFee` — what the next update of a position would credit.
* `NemoSwap.Pool.removalAmount` — what the whole liquidity of a position would be paid.
* `NemoSwap.Pool.payout` — what an instruction takes out of the vaults.
* `NemoSwap.Pool.FeesKept` — no fee of a pool is lost to an overflow.

## Main results

* `NemoSwap.Reachable.solvent` — the vaults cover everything that can be claimed from them.
* `NemoSwap.History.fees_kept` — fees are credited exactly, and never lost.
-/

namespace NemoSwap

namespace Pool

variable {pool pool' : Pool} {earned : Earnings} {key : Pubkey} {X : Token}

/-! ## What can be claimed -/

/-- The growth of a token's fees inside a position since its last update. -/
def feeGrowthDelta (pool : Pool) (key : Pubkey) (X : Token) : Growth :=
  let position := pool.position key
  let (feeGrowthInsideA, feeGrowthInsideB) := nextFeeGrowthsInside pool.whirlpool.tickCurrentIndex
    (pool.ticks position.tickLowerIndex) position.tickLowerIndex
    (pool.ticks position.tickUpperIndex) position.tickUpperIndex
    pool.whirlpool.feeGrowthGlobalA pool.whirlpool.feeGrowthGlobalB
  match X with
  | .A => feeGrowthInsideA - position.feeGrowthCheckpointA
  | .B => feeGrowthInsideB - position.feeGrowthCheckpointB

/-- The fee of a token that a position has earned since its last update, rounded down. -/
def pendingFee (pool : Pool) (key : Pubkey) (X : Token) : ℕ :=
  (pool.position key).liquidity * (pool.feeGrowthDelta key X).toNat / 2 ^ 64

/-- What `calculate_liquidity_token_deltas` pays for all the liquidity of a position: nothing if
there is none. -/
def removalAmount (pool : Pool) (key : Pubkey) (X : Token) : ℕ :=
  match calculateLiquidityTokenDeltas pool.whirlpool.tickCurrentIndex pool.whirlpool.sqrtPrice
    (pool.position key) (-((pool.position key).liquidity : ℤ)) with
  | .ok amounts => tokenAmount amounts X
  | .error _ => 0

/-- The amounts of both tokens that an instruction computes and takes out of the vaults. -/
def payout (pool : Pool) : PoolOp → Res (ℕ × ℕ)
  | .decreaseLiquidity key auth lo hi amount _ _ clock _ => do
    let (_, amounts) ← pool.modifyLiquidity key auth lo hi amount false clock
    return amounts
  | .collectFees key auth _ => do
    let position ← pool.getOwnedPosition key auth
    return (position.feeOwedA, position.feeOwedB)
  | .collectProtocolFees _ =>
    .ok (pool.whirlpool.protocolFeeOwedA, pool.whirlpool.protocolFeeOwedB)
  | .swap args _ clock _ | .twoHopLeg args clock _ => do
    let timestamp ← toTimestampU64 clock
    let (swapUpdate, _) ← pool.computeSwapUpdate args timestamp
    return if args.aToB then (0, swapUpdate.amountB) else (swapUpdate.amountA, 0)
  | _ => .ok (0, 0)

/-! ## Single positions -/

/-- The growth since the checkpoint of a position is a difference in the 128-bit numbers. -/
lemma feeGrowthDelta_eq (pool : Pool) (key : Pubkey) (X : Token) :
    pool.feeGrowthDelta key X =
      pool.insidePosition key (.fee X) - (pool.position key).growthCheckpoint (.fee X) := by
  unfold feeGrowthDelta
  simp only [nextFeeGrowthsInside_eq]
  cases X <;> rfl

/-- A pending fee is at most what the position has earned. -/
lemma Sound.pendingFee_le (hs : pool.Sound earned) (hk : key ∈ pool.positions) (X : Token) :
    (pool.pendingFee key X : ℚ) ≤
      (pool.position key).liquidity * earned key (.fee X) / 2 ^ 64 := by
  unfold pendingFee
  rcases eq_or_ne (pool.position key).liquidity 0 with h0 | h0
  · simp [h0]
  have hle : (pool.feeGrowthDelta key X).toNat ≤ earned key (.fee X) := by
    rw [feeGrowthDelta_eq, insidePosition, hs.checkpoints key hk h0, BitVec.toNat_ofNat]
    exact Nat.mod_le _ _
  refine Nat.cast_div_le.trans ?_
  rw [Nat.cast_mul, Nat.cast_pow, Nat.cast_ofNat]
  gcongr

/-- A position is paid at most its exact value. -/
lemma Sound.removalAmount_le (hs : pool.Sound earned) (hk : key ∈ pool.positions) (X : Token) :
    (pool.removalAmount key X : ℚ) ≤ (pool.position key).liquidity *
      holding X (pool.position key).tickLowerIndex (pool.position key).tickUpperIndex
        pool.whirlpool.sqrtPrice := by
  obtain ⟨h1, h2, h3⟩ := hs.onUsableTicks key hk
  unfold removalAmount
  split
  · next amounts h =>
    have hlt := hs.position_lt key hk
    rw [calculateLiquidityTokenDeltas_eq_ok hs.price h1.1 h3 h2.2.1 (by omega) h X,
      Int.natAbs_neg, Int.natAbs_natCast, decide_eq_false (by omega)]
    exact rangeDelta_le h1.1 h3 h2.2.1
  · rw [Nat.cast_zero]
    exact mul_nonneg (Nat.cast_nonneg _) (holding_nonneg h1.1 h3 h2.2.1)

/-- **The vaults cover everything that can be claimed from them.**

**Proof sketch.** The pending fees are at most what has been earned, and removing liquidity pays at
most the reserve. The sum of these and what is owed is covered. -/
theorem Backed.covers (hs : pool.Sound earned) (hb : pool.Backed earned) (X : Token) :
    pool.whirlpool.protocolFeeOwed X + pool.feesOwed X +
        ∑ k ∈ pool.positions, pool.pendingFee k X +
        ∑ k ∈ pool.positions, pool.removalAmount k X ≤ pool.vault X := by
  have hfees : ((∑ k ∈ pool.positions, pool.pendingFee k X : ℕ) : ℚ) ≤
      pool.feesEarned earned X := by
    unfold feesEarned Ranges.total
    rw [Nat.cast_sum, Finset.sum_div]
    exact Finset.sum_le_sum fun k hk => hs.pendingFee_le hk X
  have hremoved : ((∑ k ∈ pool.positions, pool.removalAmount k X : ℕ) : ℚ) ≤
      reserve pool.ranges X pool.whirlpool.sqrtPrice := by
    unfold reserve Ranges.total
    rw [Nat.cast_sum]
    exact Finset.sum_le_sum fun k hk => hs.removalAmount_le hk X
  have hcovered := hb.covered X
  unfold obligations at hcovered
  have hle : ((pool.whirlpool.protocolFeeOwed X + pool.feesOwed X +
      ∑ k ∈ pool.positions, pool.pendingFee k X +
      ∑ k ∈ pool.positions, pool.removalAmount k X : ℕ) : ℚ) ≤ pool.vault X := by
    push_cast at hfees hremoved ⊢
    linarith
  exact_mod_cast hle

/-! ## Payouts -/

/-- What a withdrawal of liquidity is paid.

**Proof sketch.** The amount is at most the liquidity of the position, whose exact value is part of
the reserve, which the vault covers; the payment is this value rounded down. -/
lemma Backed.decrease_le (hs : pool.Sound earned) (hb : pool.Backed earned)
    {auth : PositionAuthority} {arrayLower arrayUpper : ℤ} {liquidityAmount : BitVec 128}
    {clock : Int64} {amounts : ℕ × ℕ}
    (h : pool.modifyLiquidity key auth arrayLower arrayUpper liquidityAmount false clock =
      .ok (pool', amounts)) (X : Token) : tokenAmount amounts X ≤ pool.vault X := by
  obtain ⟨hk, infos, timestamp, delta, -, -, -, hlt, hneg, -, hres, hd, -⟩ :=
    modifyLiquidity_eq_ok hs h
  obtain ⟨h1, h2, h3⟩ := hs.onUsableTicks key hk
  have hamount := modifyLiquidity_amounts hs hk hlt hres hd X
  rw [hneg] at hamount
  rw [decide_eq_false_iff_not, not_lt] at hneg
  have hle : delta.natAbs ≤ (pool.position key).liquidity := by
    have hl := hres.liquidity
    rw [((pool.accrue infos timestamp).settle_position key).2.2] at hl
    change _ = ((pool.position key).liquidity : ℤ) + delta at hl
    omega
  have hsize : (delta.natAbs : ℚ) * holding X (pool.position key).tickLowerIndex
      (pool.position key).tickUpperIndex pool.whirlpool.sqrtPrice ≤
        reserve pool.ranges X pool.whirlpool.sqrtPrice := by
    refine (mul_le_mul_of_nonneg_right (Nat.cast_le.2 hle)
      (holding_nonneg h1.1 h3 h2.2.1)).trans ?_
    refine pool.ranges.size_mul_le_total (w := fun k => holding X (pool.ranges.lower k)
      (pool.ranges.upper k) pool.whirlpool.sqrtPrice) (fun k hk' => ?_) hk
    obtain ⟨h1, h2, h3⟩ := hs.onUsableTicks k hk'
    exact holding_nonneg h1.1 h3 h2.2.1
  have hround : (tokenAmount amounts X : ℚ) ≤ delta.natAbs * holding X
      (pool.position key).tickLowerIndex (pool.position key).tickUpperIndex
        pool.whirlpool.sqrtPrice := by
    rw [hamount]
    exact rangeDelta_le h1.1 h3 h2.2.1
  exact_mod_cast hround.trans (hsize.trans (hb.le_vault hs X).2.2)

/-- What a swap pays to the trader.

**Proof sketch.** At the end of the swap the reserve of the token that is paid out still covers the
liquidity, so what was paid is at most what the vault had more than that. -/
lemma Backed.received_le (hs : pool.Sound earned) (hb : pool.Backed earned) {args : SwapArgs}
    {timestamp : ℕ} {swapUpdate : PostSwapUpdate} {sequence : SwapTickSequence}
    (h : pool.computeSwapUpdate args timestamp = .ok (swapUpdate, sequence)) :
    (if args.aToB then swapUpdate.amountB else swapUpdate.amountA) ≤
      pool.vault (tokenOut args.aToB) := by
  obtain ⟨infos, t, initial, -, -, -, hinv, -, rfl, -⟩ := computeSwapUpdate_eq_ok hs hb h
  obtain ⟨hA, hB⟩ := postSwapUpdate_amounts args.amount.toNat args.amountSpecifiedIsInput
    args.aToB infos t.state
  have hreceived : (if args.aToB then (postSwapUpdate args.amount.toNat
      args.amountSpecifiedIsInput args.aToB infos t.state).amountB else
      (postSwapUpdate args.amount.toNat args.amountSpecifiedIsInput args.aToB infos
        t.state).amountA) = t.state.received args.amount.toNat args.amountSpecifiedIsInput := by
    rw [hA, hB]
    cases args.aToB <;> rfl
  rw [hreceived]
  have hcovered := hinv.output_covered
  change _ ≤ reserve _ _ pool.whirlpool.sqrtPrice at hcovered
  have hnonneg := reserve_nonneg (X := tokenOut args.aToB) (p := t.state.currSqrtPrice) hs.onTicks
  have hvault := (hb.le_vault hs (tokenOut args.aToB)).2.2
  have hle : (t.state.received args.amount.toNat args.amountSpecifiedIsInput : ℚ) ≤
      pool.vault (tokenOut args.aToB) := by
    linarith
  exact_mod_cast hle

/-- **No payout exceeds its vault.**

**Proof sketch.** One case for each instruction that pays. A withdrawal is covered by the reserve,
collected fees by what is owed, a swap by its own accounting; the others pay nothing. -/
theorem Backed.payout_le (hs : pool.Sound earned) (hb : pool.Backed earned) {op : PoolOp}
    {amounts : ℕ × ℕ} (h : pool.payout op = .ok amounts) (X : Token) :
    tokenAmount amounts X ≤ pool.vault X := by
  have hnone : ∀ {amounts : ℕ × ℕ}, (.ok (0, 0) : Res (ℕ × ℕ)) = .ok amounts →
      tokenAmount amounts X ≤ pool.vault X := fun he => by
    obtain rfl := Except.ok.inj he
    cases X <;> exact Nat.zero_le _
  have hswap : ∀ {args : SwapArgs} {clock : Int64}, (do
      let timestamp ← toTimestampU64 clock
      let (swapUpdate, _) ← pool.computeSwapUpdate args timestamp
      return if args.aToB then (0, swapUpdate.amountB) else (swapUpdate.amountA, 0)) =
        (.ok amounts : Res (ℕ × ℕ)) → tokenAmount amounts X ≤ pool.vault X := fun {args _} he => by
    rw [Res.bind_eq_ok] at he
    obtain ⟨timestamp, -, he⟩ := he
    rw [Res.bind_eq_ok] at he
    obtain ⟨⟨swapUpdate, sequence⟩, hc, he⟩ := he
    simp only [Res.pure_eq_ok, Except.ok.injEq] at he
    have hle := hb.received_le hs hc
    subst he
    cases hd : args.aToB with
    | true =>
      rw [hd] at hle
      cases X
      · exact Nat.zero_le _
      · exact hle
    | false =>
      rw [hd] at hle
      cases X
      · exact hle
      · exact Nat.zero_le _
  have howed := (hb.le_vault hs X).1
  cases op with
  | decreaseLiquidity key auth lo hi amount minA minB clock funds =>
    change (pool.modifyLiquidity key auth lo hi amount false clock >>= fun r => pure r.2) = _ at h
    rw [Res.bind_eq_ok] at h
    obtain ⟨⟨pool', amounts'⟩, hm, h⟩ := h
    rw [Res.pure_eq_ok, Except.ok.injEq] at h
    subst h
    exact hb.decrease_le hs hm X
  | collectFees key auth funds =>
    change (pool.getOwnedPosition key auth >>= fun position =>
      pure (position.feeOwedA, position.feeOwedB)) = _ at h
    rw [Res.bind_eq_ok] at h
    obtain ⟨position, hp, h⟩ := h
    obtain ⟨hk, rfl⟩ := getOwnedPosition_eq_ok hp
    rw [Res.pure_eq_ok, Except.ok.injEq] at h
    subst h
    have hsum : (pool.position key).feeOwed X ≤ pool.feesOwed X :=
      Finset.single_le_sum (f := fun k => (pool.position k).feeOwed X)
        (fun _ _ => Nat.zero_le _) hk
    have hfee : tokenAmount ((pool.position key).feeOwedA, (pool.position key).feeOwedB) X =
        (pool.position key).feeOwed X := by
      cases X <;> rfl
    omega
  | collectProtocolFees funds =>
    obtain rfl := Except.ok.inj h
    have hfee : tokenAmount (pool.whirlpool.protocolFeeOwedA, pool.whirlpool.protocolFeeOwedB) X =
        pool.whirlpool.protocolFeeOwed X := by
      cases X <;> rfl
    omega
  | swap args threshold clock funds => exact hswap h
  | twoHopLeg args clock funds => exact hswap h
  | openPosition key mint lo hi => exact hnone h
  | closePosition key auth => exact hnone h
  | increaseLiquidity key auth lo hi amount maxA maxB clock funds => exact hnone h
  | updateFeesAndRewards key lo hi clock => exact hnone h
  | collectReward key auth index vault owner => exact hnone h
  | initializeTickArray start => exact hnone h
  | setFeeRate rate => exact hnone h
  | setProtocolFeeRate rate => exact hnone h
  | setEnableFlag flag => exact hnone h
  | initializeReward index mint vault => exact hnone h
  | setRewardEmissions index emissions vault clock => exact hnone h
  | setRewardAuthority index authority => exact hnone h

/-! ## Fees -/

/-- **The update of a position credits what it has earned**: the product does not overflow, and
the fees owed do not wrap. -/
theorem Sound.credit_exact (hs : pool.Sound earned) (hb : pool.Backed earned)
    (hk : key ∈ pool.positions) (X : Token) :
    checkedMulShiftRight (pool.position key).liquidity (pool.feeGrowthDelta key X).toNat =
        .ok ((pool.position key).liquidity * earned key (.fee X) / 2 ^ 64) ∧
      owedDelta (pool.position key).liquidity (pool.feeGrowthDelta key X) =
        (pool.position key).liquidity * earned key (.fee X) / 2 ^ 64 := by
  obtain ⟨-, hlt⟩ := hs.liquidity_mul_earned_lt hb hk X
  have hproduct : (pool.position key).liquidity * (pool.feeGrowthDelta key X).toNat =
      (pool.position key).liquidity * earned key (.fee X) := by
    rcases Nat.eq_zero_or_pos (pool.position key).liquidity with h0 | h0
    · rw [h0, zero_mul, zero_mul]
    · have hfits : earned key (.fee X) < 2 ^ 128 :=
        lt_of_le_of_lt (Nat.le_mul_of_pos_left _ h0) hlt
      rw [feeGrowthDelta_eq, insidePosition, hs.checkpoints key hk h0.ne', BitVec.toNat_ofNat,
        Nat.mod_eq_of_lt hfits]
  rw [← hproduct] at hlt ⊢
  exact owedDelta_of_lt hlt

/-- The fees that an update credits. -/
theorem Updated.feeOwed (hs : pool.Sound earned) (hb : pool.Backed earned)
    {infos : Fin numRewards → WhirlpoolRewardInfo} {timestamp : ℕ} {delta : ℤ}
    (h : Updated pool pool' key infos timestamp delta) (X : Token) :
    (pool'.position key).feeOwed X = (pool.position key).feeOwed X +
      (pool.position key).liquidity * earned key (.fee X) / 2 ^ 64 := by
  have hpos := congrFun h.resized.position key
  rw [Function.update_self] at hpos
  have hset : (pool'.position key).feeOwed X = ((pool.position key).settle
      ((pool.accrue infos timestamp).insidePosition key)).feeOwed X := by
    rw [hpos]
    unfold Pool.settle
    rw [setPosition_self]
    cases X <;> rfl
  have hinside : (pool.accrue infos timestamp).insidePosition key (.fee X) =
      pool.insidePosition key (.fee X) := by
    cases X <;> rfl
  rw [hset, Position.settle_feeOwed, hinside, ← feeGrowthDelta_eq, (hs.credit_exact hb h.mem X).2,
    wrappingAdd_of_lt (hs.liquidity_mul_earned_lt hb h.mem X).1]

/-- **The fees owed to the protocol do not wrap**: with those of a swap added they are covered by
the vault that the trader has paid.

**Proof sketch.** After the trade the pool is backed, so its vault covers what the protocol is owed
together with the fees of the swap. That is a `u64`, so the sum did not wrap. -/
theorem Traded.protocolFeeOwed_add (hs : pool.Sound earned) (hb : pool.Backed earned)
    {args : SwapArgs} {infos : Fin numRewards → WhirlpoolRewardInfo} {timestamp : ℕ} {t : SwapTrace}
    (h : Traded pool pool' args infos timestamp t) (X : Token) :
    pool'.whirlpool.protocolFeeOwed X = pool.whirlpool.protocolFeeOwed X +
        (if X = tokenIn args.aToB then t.state.currProtocolFee else 0) ∧
      pool'.whirlpool.protocolFeeOwed X < 2 ^ 64 := by
  have hb' := h.backed hb
  have hlt' : pool'.whirlpool.protocolFeeOwed X < 2 ^ 64 :=
    (Nat.le_add_right _ _).trans_lt ((hb'.le_vault (h.sound hs) X).1.trans_lt (hb'.vault_lt X))
  refine ⟨?_, hlt'⟩
  have hprot := h.protocolFeeOwed_eq X
  obtain ⟨sequence, hinv, -⟩ := h.invariant
  rw [hprot, hinv.protocol_eq]
  split_ifs with hX
  · refine wrappingAdd_of_lt ?_
    -- what the protocol is owed and the fees of the swap are in the vault afterwards
    have hcov := hb.covered X
    have hres := h.reserve_le X
    rw [if_pos hX] at hres
    have hvault : ((pool'.vault X + received args t X : ℕ) : ℚ) =
        (pool.vault X + paid args t X : ℕ) := by rw [h.vault]
    have hlogged : 0 ≤ loggedFor pool.ranges t.grown / 2 ^ 64 :=
      div_nonneg (pool.ranges.total_nonneg fun _ _ => Nat.cast_nonneg _) (by positivity)
    have hfees := pool.feesEarned_nonneg earned X
    have hreserve := (h.sound hs).reserve_nonneg X
    have howed : (0 : ℚ) ≤ pool.feesOwed X := Nat.cast_nonneg _
    unfold obligations at hcov
    have hle : ((pool.whirlpool.protocolFeeOwed X + t.protocolFees : ℕ) : ℚ) ≤ pool'.vault X := by
      push_cast at hvault ⊢
      linarith
    have hle' : pool.whirlpool.protocolFeeOwed X + t.protocolFees ≤ pool'.vault X := by
      exact_mod_cast hle
    exact hle'.trans_lt (hb'.vault_lt X)
  · rw [add_zero]

/-- A swap runs its leg. -/
lemma trade_swapLeg {op : PoolOp} {args : SwapArgs} (htrade : op.trade = some args)
    (h : pool.step op = .ok pool') :
    ∃ clock funds, op.clock = some clock ∧ pool.swapLeg args clock funds = .ok pool' := by
  cases op with
  | swap args' threshold clock funds =>
    obtain rfl := Option.some.inj htrade
    exact ⟨clock, funds, rfl, (swapHandler_eq_ok h).2⟩
  | twoHopLeg args' clock funds =>
    obtain rfl := Option.some.inj htrade
    exact ⟨clock, funds, rfl, h⟩
  | _ => cases htrade

/-- What a swap computes, and its effect. -/
theorem trade_traded (hs : pool.Sound earned) (hb : pool.Backed earned) {op : PoolOp}
    {args : SwapArgs} (htrade : op.trade = some args) (h : pool.step op = .ok pool') :
    ∃ clock timestamp infos t sequence, op.clock = some clock ∧
      toTimestampU64 clock = .ok timestamp ∧
      pool.computeSwapUpdate args timestamp = .ok (postSwapUpdate args.amount.toNat
        args.amountSpecifiedIsInput args.aToB infos t.state, sequence) ∧
      Traded pool pool' args infos timestamp t := by
  obtain ⟨clock, funds, hclock, hleg⟩ := trade_swapLeg htrade h
  obtain ⟨infos, timestamp, t, ht, htr⟩ := swapLeg_eq_ok hs hb hleg
  unfold swapLeg at hleg
  rw [ht, Res.ok_bind, Res.bind_eq_ok] at hleg
  obtain ⟨⟨swapUpdate, sequence⟩, hc, -⟩ := hleg
  obtain ⟨infos', t', initial, hinfos, hobs, -, -, -, rfl, rfl⟩ := computeSwapUpdate_eq_ok hs hb hc
  have hinfos' := htr.rewards
  rw [hinfos, Except.ok.injEq] at hinfos'
  subst hinfos'
  have hobs' := htr.observed
  rw [hobs, Except.ok.injEq] at hobs'
  subst hobs'
  exact ⟨clock, timestamp, infos', t', _, hclock, ht, hc, htr⟩

/-- **No fee of a pool is lost to an overflow.** -/
structure FeesKept (pool : Pool) (earned : Earnings) : Prop where
  /-- The default for an overflow is not used, and the amount is the exact one. -/
  product : ∀ k ∈ pool.positions, ∀ X,
    checkedMulShiftRight (pool.position k).liquidity (pool.feeGrowthDelta k X).toNat =
      .ok ((pool.position k).liquidity * earned k (.fee X) / 2 ^ 64)
  /-- The fees owed to a position have room for it. -/
  owed_lt : ∀ k ∈ pool.positions, ∀ X, (pool.position k).feeOwed X +
    (pool.position k).liquidity * earned k (.fee X) / 2 ^ 64 < 2 ^ 64
  /-- An update credits exactly this amount. -/
  credited : ∀ op k pool', op.updated = some k → pool.step op = .ok pool' → ∀ X,
    (pool'.position k).feeOwed X = (pool.position k).feeOwed X +
      (pool.position k).liquidity * earned k (.fee X) / 2 ^ 64
  /-- Within a swap the protocol's fee is a sum of natural numbers. -/
  iteration : ∀ args infos timestamp sequence s s',
    nextWhirlpoolRewardInfos pool.whirlpool timestamp = .ok infos →
    Run pool args infos sequence s → s.Running args.sqrtPriceLimit.toNat →
    swapStep pool.whirlpool infos args.sqrtPriceLimit.toNat args.amountSpecifiedIsInput args.aToB
      s = .ok s' →
    ∃ j n comp, s.swapTickSequence.getNextInitializedTickIndex s.currTickIndex
        pool.whirlpool.tickSpacing args.aToB s.currArrayIndex = .ok (j, n) ∧
      computeSwap s.amountRemaining pool.whirlpool.feeRate s.currLiquidity s.currSqrtPrice
        (stepTarget args.sqrtPriceLimit.toNat args.aToB n) args.amountSpecifiedIsInput args.aToB =
          .ok comp ∧
      s'.currProtocolFee = s.currProtocolFee +
        comp.feeAmount * pool.whirlpool.protocolFeeRate / protocolFeeRateMulValue ∧
      s'.currProtocolFee < 2 ^ 64
  /-- Across swaps the fees owed to the protocol are a sum of natural numbers. -/
  swap : ∀ op args pool', op.trade = some args → pool.step op = .ok pool' →
    ∃ timestamp swapUpdate sequence,
      pool.computeSwapUpdate args timestamp = .ok (swapUpdate, sequence) ∧
      ∀ X, pool'.whirlpool.protocolFeeOwed X = pool.whirlpool.protocolFeeOwed X +
          (if X = tokenIn args.aToB then swapUpdate.nextProtocolFee else 0) ∧
        pool'.whirlpool.protocolFeeOwed X < 2 ^ 64

/-- **A backed pool keeps its fees.** -/
theorem Backed.feesKept (hs : pool.Sound earned) (hb : pool.Backed earned) :
    pool.FeesKept earned := by
  refine ⟨fun k hk X => (hs.credit_exact hb hk X).1,
    fun k hk X => (hs.liquidity_mul_earned_lt hb hk X).1, fun op k pool' hupd hstep X => ?_,
    fun args infos timestamp sequence s s' hinfos hrun hgo hnext => ?_,
    fun op args pool' htrade hstep => ?_⟩
  · obtain ⟨-, infos, timestamp, delta, -, -, hu⟩ := step_updated hs hb hupd hstep
    exact hu.feeOwed hs hb X
  · obtain ⟨hstart, t, rfl, hinv⟩ := hrun.invariant hs hb hinfos
    obtain ⟨j, n, comp, hsearch, hcomp, hres⟩ :=
      swapStep_cases hstart.bounds hinv.wellFormed hgo.2 hnext
    obtain ⟨hsum, hle, hlt, -⟩ := hinv.protocol_step hstart hres
    exact ⟨j, n, comp, hsearch, hcomp, hsum, hle.trans_lt hlt⟩
  · obtain ⟨-, timestamp, infos, t, sequence, -, -, hc, htr⟩ := trade_traded hs hb htrade hstep
    exact ⟨timestamp, _, sequence, hc, htr.protocolFeeOwed_add hs hb⟩

end Pool

/-! ## Reachable pools -/

/-- **Vault solvency.** In every reachable state each vault holds the protocol's fees, the fees
owed to positions, their pending fees, and what all their liquidity would be paid. So no payout
fails for lack of funds. -/
theorem Reachable.solvent {pool : Pool} (h : Reachable pool) (X : Token) :
    pool.whirlpool.protocolFeeOwed X + ∑ k ∈ pool.positions, (pool.position k).feeOwed X +
        ∑ k ∈ pool.positions, pool.pendingFee k X +
        ∑ k ∈ pool.positions, pool.removalAmount k X ≤ pool.vault X ∧
      ∀ (op : PoolOp) (amounts : ℕ × ℕ) (balance : UInt64), pool.payout op = .ok amounts →
        transferFromVaultToOwner balance (pool.vault X) (tokenAmount amounts X) ≠
          .error .vaultFunds := by
  obtain ⟨s, rfl, hs⟩ := h.invariant
  refine ⟨hs.backed.covers hs.sound X, fun op amounts balance hop he => ?_⟩
  have hle := hs.backed.payout_le hs.sound hop X
  unfold transferFromVaultToOwner at he
  rw [if_neg (not_lt.2 hle)] at he
  split_ifs at he
  cases he

/-- After a swap the vault covers the pending fee and the withdrawal of the sample position. -/
theorem Reachable.solvent_sampleSwap :
    (samplePool.next sampleSwap).pendingFee 1 .A = 290 ∧
      (samplePool.next sampleSwap).removalAmount 1 .A = 6478945 ∧
      ∑ k ∈ (samplePool.next sampleSwap).positions, (samplePool.next sampleSwap).pendingFee k .A +
        ∑ k ∈ (samplePool.next sampleSwap).positions,
          (samplePool.next sampleSwap).removalAmount k .A ≤
        (samplePool.next sampleSwap).vaultA := by
  have hreach : Reachable (samplePool.next sampleSwap) :=
    ⟨sampleRecord, sampleOps ++ [sampleSwap], sampleRecord_initialized,
      (Pool.run_concat _ _ _).symm⟩
  have h := (hreach.solvent .A).1
  change _ ≤ (samplePool.next sampleSwap).vaultA at h
  exact ⟨by decide +kernel, by decide +kernel, by omega⟩

/-- **Trading fees are never lost to overflow.** After every run, whatever instruction comes next
credits exactly what a position has earned in the run since its last update, and adds exactly the
protocol's fees of each step of a swap. -/
theorem History.fees_kept {w : Whirlpool} (hw : Initialized w) (ops : List PoolOp) :
    ((Pool.new w).run ops).FeesKept ((History.new w).run ops).earned := by
  have hinv := (History.new_invariant hw).run ops
  have hpool : ((History.new w).run ops).pool = (Pool.new w).run ops :=
    History.run_pool ops (History.new w)
  rw [← hpool]
  exact hinv.backed.feesKept hinv.sound

/-- The fees of the sample position after a swap. -/
theorem History.fees_kept_sampleSwap :
    checkedMulShiftRight (((Pool.new sampleRecord).run (sampleOps ++ [sampleSwap])).position
        1).liquidity (((Pool.new sampleRecord).run (sampleOps ++ [sampleSwap])).feeGrowthDelta
          1 .A).toNat =
      .ok ((((Pool.new sampleRecord).run (sampleOps ++ [sampleSwap])).position 1).liquidity *
        ((History.new sampleRecord).run (sampleOps ++ [sampleSwap])).earned 1 (.fee .A) / 2 ^ 64) :=
  (History.fees_kept sampleRecord_initialized (sampleOps ++ [sampleSwap])).product 1
    (by decide +kernel) .A

end NemoSwap
