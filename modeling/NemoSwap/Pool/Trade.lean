import NemoSwap.Pool.Quiet

set_option relaxedAutoImplicit false
set_option autoImplicit false

/-!
# Swaps in a pool

A swap loads its tick arrays, runs the loop of `swap` on the pool's record, and writes the result
back. Here the invariant of the loop is lifted to the pool: the rewards are accrued, the fees are
logged, the trader pays one vault and is paid from the other.

## Main definitions

* `NemoSwap.Pool.observeSwap` — the loop of a swap with its observers.
* `NemoSwap.Pool.tradeLog` — the growth that a swap logs, fees and rewards.
* `NemoSwap.Pool.Traded` — the effect of a swap on a pool.

## Main results

* `NemoSwap.Pool.swapLeg_eq_ok` — the inversion of a swap.
* `NemoSwap.Pool.Traded.sound`, `NemoSwap.Pool.Traded.backed` — a swap keeps the invariant.
* `NemoSwap.Pool.Traded.reserve_le` — what the trader gains of a token the reserve loses.
-/

namespace NemoSwap

namespace Pool

variable {pool pool' : Pool} {earned : Earnings}

/-! ## Loading and storing tick arrays -/

/-- Loading the arrays with the given starts returns the arrays of the pool with these starts. -/
theorem mapM_getTickArray_eq_ok (hwp : TickMap.WellPlaced pool.tickArrays
    pool.whirlpool.tickSpacing) : ∀ {keys : List ℤ} {sequence : SwapTickSequence},
    keys.mapM pool.getTickArray = .ok sequence →
      sequence.map TickArray.startTickIndex = keys ∧
        ∀ array ∈ sequence, pool.tickArrays array.startTickIndex = some array
  | [], sequence, h => by
    rw [List.mapM_nil, Res.pure_eq_ok, Except.ok.injEq] at h
    subst h
    exact ⟨rfl, fun _ h => by cases h⟩
  | key :: keys, sequence, h => by
    rw [List.mapM_cons, Res.bind_eq_ok] at h
    obtain ⟨array, ha, h⟩ := h
    rw [Res.bind_eq_ok] at h
    obtain ⟨rest, hrest, h⟩ := h
    rw [Res.pure_eq_ok, Except.ok.injEq] at h
    subst h
    obtain ⟨h1, h2⟩ := mapM_getTickArray_eq_ok hwp hrest
    rw [getTickArray_eq_ok] at ha
    obtain ⟨hs, -⟩ := hwp _ _ ha
    refine ⟨by rw [List.map_cons, hs, h1], fun a hmem => ?_⟩
    rcases List.mem_cons.1 hmem with rfl | hmem
    · rwa [hs]
    · exact h2 a hmem

/-- An account given twice is used once. -/
theorem sequenceKeys_nodup (a b c : ℤ) : (sequenceKeys a b c).Nodup := by
  unfold sequenceKeys
  split_ifs with h1 h2 h2
  · simp
  · rw [not_or] at h2
    simpa using Ne.symm h2.1
  · simpa using Ne.symm h1
  · rw [not_or] at h2
    simp only [List.singleton_append, List.nodup_cons, List.mem_cons, List.not_mem_nil, or_false,
      not_or, not_false_eq_true, List.nodup_nil, and_true]
    exact ⟨⟨Ne.symm h1, Ne.symm h2.1⟩, Ne.symm h2.2⟩

/-- The arrays of a swap are distinct arrays of the pool. -/
lemma loadSequence_eq_ok (hwp : TickMap.WellPlaced pool.tickArrays pool.whirlpool.tickSpacing)
    {a b c : ℤ} {sequence : SwapTickSequence} (h : pool.loadSequence a b c = .ok sequence) :
    TickMap.Loads pool.tickArrays sequence := by
  unfold loadSequence at h
  simp only [Res.bind_eq_ok] at h
  obtain ⟨-, -, -, -, -, -, h⟩ := h
  obtain ⟨h1, h2⟩ := mapM_getTickArray_eq_ok hwp h
  exact ⟨h2, h1 ▸ sequenceKeys_nodup a b c⟩

/-- Storing a sequence changes only the tick arrays. -/
lemma storeSequence_eq : ∀ (sequence : SwapTickSequence) (pool : Pool),
    pool.storeSequence sequence =
      { pool with tickArrays := TickMap.store pool.tickArrays sequence }
  | [], _ => rfl
  | array :: rest, pool => storeSequence_eq rest (pool.setTickArray array.startTickIndex array)

/-! ## The observed swap -/

/-- The loop of a swap, observed. -/
def observeSwap (pool : Pool) (args : SwapArgs) (timestamp : ℕ) : Res SwapTrace := do
  let sequence ← pool.loadSequence args.array0 args.array1 args.array2
  let infos ← nextWhirlpoolRewardInfos pool.whirlpool timestamp
  traceLoop pool.whirlpool infos args.sqrtPriceLimit.toNat args.amountSpecifiedIsInput args.aToB
    swapBound (initialTrace pool.whirlpool sequence args.amount.toNat args.aToB)

/-- The growth that a swap logs: the fees at the tick indices of the loop, and the rewards at the
tick index of the pool. -/
def tradeLog (pool : Pool) (args : SwapArgs) (infos : Fin numRewards → WhirlpoolRewardInfo)
    (t : SwapTrace) : Channel → ℤ → ℕ
  | .fee X => if X = tokenIn args.aToB then t.grown else fun _ => 0
  | .reward i => pool.rewardLog infos (.reward i)

/-- What the trader pays of a token. -/
def paid (args : SwapArgs) (t : SwapTrace) (X : Token) : ℕ :=
  if X = tokenIn args.aToB then t.state.paid args.amount.toNat args.amountSpecifiedIsInput else 0

/-- What the trader receives of a token. -/
def received (args : SwapArgs) (t : SwapTrace) (X : Token) : ℕ :=
  if X = tokenIn args.aToB then 0
  else t.state.received args.amount.toNat args.amountSpecifiedIsInput

/-- The loop of a swap that passes its guards reaches a state. -/
structure Run (pool : Pool) (args : SwapArgs) (infos : Fin numRewards → WhirlpoolRewardInfo)
    (sequence : SwapTickSequence) (s : SwapState) : Prop where
  loaded : pool.loadSequence args.array0 args.array1 args.array2 = .ok sequence
  min_le : minSqrtPriceX64 ≤ args.sqrtPriceLimit.toNat
  le_max : args.sqrtPriceLimit.toNat ≤ maxSqrtPriceX64
  toward : Toward args.aToB pool.whirlpool.sqrtPrice args.sqrtPriceLimit.toNat
  iterates : Iterates pool.whirlpool infos args.sqrtPriceLimit.toNat args.amountSpecifiedIsInput
    args.aToB (initialSwapState pool.whirlpool sequence args.amount.toNat args.aToB) s

/-- **The effect of a swap on a pool.** -/
structure Traded (pool pool' : Pool) (args : SwapArgs)
    (infos : Fin numRewards → WhirlpoolRewardInfo) (timestamp : ℕ) (t : SwapTrace) : Prop where
  observed : pool.observeSwap args timestamp = .ok t
  rewards : nextWhirlpoolRewardInfos pool.whirlpool timestamp = .ok infos
  invariant : ∃ sequence, SwapInvariant pool.ranges pool.whirlpool infos pool.tickArrays
    args.sqrtPriceLimit.toNat args.amount.toNat args.amountSpecifiedIsInput args.aToB
    (initialSwapState pool.whirlpool sequence args.amount.toNat args.aToB) t ∧
    TickMap.Loads pool.tickArrays sequence ∧ Run pool args infos sequence t.state
  whirlpool : pool'.whirlpool = pool.whirlpool.updateAfterSwap t.state.currLiquidity
    t.state.currTickIndex t.state.currSqrtPrice t.state.currFeeGrowthGlobalInput infos
    t.state.currProtocolFee args.aToB timestamp
  tickArrays : pool'.tickArrays = TickMap.store pool.tickArrays t.state.swapTickSequence
  positions : pool'.positions = pool.positions
  position : pool'.position = pool.position
  vault : ∀ X, pool'.vault X + received args t X = pool.vault X + paid args t X
  vault_lt : ∀ X, pool.vault X < 2 ^ 64 → pool'.vault X < 2 ^ 64

/-! ## The inversion of a swap -/

/-- The amounts of a swap are what the trader pays and receives. -/
lemma postSwapUpdate_amounts (amount : ℕ) (input aToB : Bool)
    (infos : Fin numRewards → WhirlpoolRewardInfo) (s : SwapState) :
    (postSwapUpdate amount input aToB infos s).amountA =
        (if aToB then s.paid amount input else s.received amount input) ∧
      (postSwapUpdate amount input aToB infos s).amountB =
        if aToB then s.received amount input else s.paid amount input := by
  unfold postSwapUpdate SwapState.paid SwapState.received
  cases aToB <;> cases input <;> exact ⟨rfl, rfl⟩

/-- A swap starts with the ticks of the pool. -/
lemma initialSwapState_ticks {sequence : SwapTickSequence}
    (hload : TickMap.Loads pool.tickArrays sequence) (amount : ℕ) (aToB : Bool) :
    (initialSwapState pool.whirlpool sequence amount aToB).ticks pool.tickArrays
      pool.whirlpool.tickSpacing = pool.ticks := by
  have hstore := hload.store_eq
  change TickMap.tick (TickMap.store pool.tickArrays sequence) _ = _
  rw [hstore]
  rfl

/-- Where a swap starts. -/
theorem Sound.swapStart (hs : pool.Sound earned) (hb : pool.Backed earned)
    (sequence : SwapTickSequence) {limit : ℕ} (aToB : Bool) (amount : UInt64)
    (hmin : minSqrtPriceX64 ≤ limit) (hmax : limit ≤ maxSqrtPriceX64) :
    SwapStart pool.ranges pool.whirlpool limit amount.toNat
      (initialSwapState pool.whirlpool sequence amount.toNat aToB) := by
  refine ⟨⟨lt_of_le_of_lt hs.feeRate (by decide), hmin, hmax, amount.toNat_lt⟩,
    hs.protocolFeeRate, hs.onTicks, ?_⟩
  obtain ⟨-, -, h⟩ := hb.le_vault hs .B
  have hlt : (pool.vault .B : ℚ) < 2 ^ 64 := by exact_mod_cast hb.vault_lt .B
  exact lt_of_le_of_lt h hlt

/-- The invariant of the loop holds where a swap starts. -/
theorem Sound.swapInvariant (hs : pool.Sound earned) {sequence : SwapTickSequence}
    {infos : Fin numRewards → WhirlpoolRewardInfo} {timestamp limit : ℕ} {input aToB : Bool}
    (amount : ℕ) (hload : TickMap.Loads pool.tickArrays sequence)
    (hinfos : nextWhirlpoolRewardInfos pool.whirlpool timestamp = .ok infos)
    (hdir : Toward aToB pool.whirlpool.sqrtPrice limit) :
    SwapInvariant pool.ranges pool.whirlpool infos pool.tickArrays limit amount input aToB
      (initialSwapState pool.whirlpool sequence amount aToB)
      (initialTrace pool.whirlpool sequence amount aToB) := by
  have hticks := initialSwapState_ticks hload amount aToB
  refine SwapInvariant.start rfl rfl rfl rfl rfl rfl ⟨hs.price, hdir, hs.liquidity_lt, le_rfl,
    hload.nodup, ?_, fun t ht => ?_⟩ ?_ ?_
  · change TickMap.WellPlaced (TickMap.store pool.tickArrays sequence) _
    rw [hload.store_eq]
    exact hs.wellPlaced
  · rw [hticks] at ht
    exact hs.usable ht
  · rw [hticks]
    exact hs.books
  · rw [hticks]
    exact (hs.accrue hinfos).rewardsBlank

/-- **The inversion of `swap` on the accounts of a pool.**

**Proof sketch.** The checks of the code give the bounds of the swap, and the loaded arrays are
those of the pool. The loop is replaced by its recorded run, which keeps the invariant of the
swap. -/
theorem computeSwapUpdate_eq_ok (hs : pool.Sound earned) (hb : pool.Backed earned)
    {args : SwapArgs} {timestamp : ℕ} {swapUpdate : PostSwapUpdate} {sequence : SwapTickSequence}
    (h : pool.computeSwapUpdate args timestamp = .ok (swapUpdate, sequence)) :
    ∃ infos t initial, nextWhirlpoolRewardInfos pool.whirlpool timestamp = .ok infos ∧
      pool.observeSwap args timestamp = .ok t ∧ TickMap.Loads pool.tickArrays initial ∧
      SwapInvariant pool.ranges pool.whirlpool infos pool.tickArrays args.sqrtPriceLimit.toNat
        args.amount.toNat args.amountSpecifiedIsInput args.aToB
        (initialSwapState pool.whirlpool initial args.amount.toNat args.aToB) t ∧
      Run pool args infos initial t.state ∧
      swapUpdate = postSwapUpdate args.amount.toNat args.amountSpecifiedIsInput args.aToB infos
        t.state ∧ sequence = t.state.swapTickSequence := by
  unfold computeSwapUpdate at h
  rw [Res.bind_eq_ok] at h
  obtain ⟨initial, hload, h⟩ := h
  have hloads := loadSequence_eq_ok hs.wellPlaced hload
  unfold swap at h
  rw [ite_err_eq_ok, ite_err_eq_ok, ite_err_eq_ok, Res.bind_eq_ok] at h
  obtain ⟨hlimit, hdir, -, infos, hinfos, h⟩ := h
  rw [not_or, not_lt, not_lt] at hlimit
  rw [Res.bind_eq_ok] at h
  obtain ⟨s, hloop, h⟩ := h
  rw [Res.pure_eq_ok, Except.ok.injEq] at h
  obtain ⟨rfl, rfl⟩ := Prod.mk.inj h
  have hdir' : Toward args.aToB pool.whirlpool.sqrtPrice args.sqrtPriceLimit.toNat := by
    cases hd : args.aToB with
    | true =>
      rw [toward_true]
      exact not_lt.1 fun hlt => hdir (Or.inl ⟨hd, hlt⟩)
    | false =>
      rw [toward_false]
      exact not_lt.1 fun hlt => hdir (Or.inr ⟨hd, hlt⟩)
  obtain ⟨t, ht, rfl⟩ := exists_traceLoop
    (t := initialTrace pool.whirlpool initial args.amount.toNat args.aToB) hloop
  have hinv := (hs.swapInvariant args.amount.toNat hloads hinfos hdir').loop
    (hs.swapStart hb initial args.aToB args.amount hlimit.1 hlimit.2) ht
  refine ⟨infos, t, initial, hinfos, ?_, hloads, hinv,
    ⟨hload, hlimit.1, hlimit.2, hdir', swapLoop_iterates hloop⟩, rfl, rfl⟩
  unfold observeSwap
  rw [hload, Res.ok_bind, hinfos, Res.ok_bind, ht]

/-- **The inversion of a swap.**

**Proof sketch.** The computation is that of `computeSwapUpdate_eq_ok`. By the direction of the
trade and the token, the two transfers add what is paid to one vault and take what is received from
the other. -/
theorem swapLeg_eq_ok (hs : pool.Sound earned) (hb : pool.Backed earned) {args : SwapArgs}
    {clock : Int64} {funds : OwnerFunds} (h : pool.swapLeg args clock funds = .ok pool') :
    ∃ infos timestamp t, toTimestampU64 clock = .ok timestamp ∧
      Traded pool pool' args infos timestamp t := by
  unfold swapLeg at h
  rw [Res.bind_eq_ok] at h
  obtain ⟨timestamp, ht, h⟩ := h
  rw [Res.bind_eq_ok] at h
  obtain ⟨⟨swapUpdate, sequence⟩, hc, h⟩ := h
  obtain ⟨infos, t, initial, hinfos, hobs, hload, hinv, hrun, rfl, rfl⟩ :=
    computeSwapUpdate_eq_ok hs hb hc
  obtain ⟨hA, hB⟩ := postSwapUpdate_amounts args.amount.toNat args.amountSpecifiedIsInput
    args.aToB infos t.state
  refine ⟨infos, timestamp, t, ht, ?_⟩
  unfold updateAndSwapWhirlpool at h
  simp only [storeSequence_eq] at h
  rw [hA, hB] at h
  cases hd : args.aToB with
  | true =>
    rw [hd] at h
    simp only [if_true] at h
    rw [Res.bind_eq_ok] at h
    obtain ⟨a, ha, h⟩ := h
    rw [Res.bind_eq_ok] at h
    obtain ⟨b, hb', h⟩ := h
    have ha' := transferFromOwnerToVault_eq_ok ha
    have hb' := transferFromVaultToOwner_eq_ok hb'
    rw [Res.pure_eq_ok, Except.ok.injEq] at h
    subst h
    refine ⟨hobs, hinfos, ⟨initial, hinv, hload, hrun⟩, ?_, rfl, rfl, rfl, fun X => ?_, fun X hX => ?_⟩
    · rw [hd]
      rfl
    · unfold received paid tokenIn
      rw [hd]
      cases X with
      | A =>
        simp only [if_true]
        change a + 0 = pool.vaultA + _
        omega
      | B =>
        simp only [if_true, reduceCtorEq, if_false]
        change b + _ = pool.vaultB + 0
        omega
    · cases X with
      | A => exact ha'.2
      | B => exact lt_of_le_of_lt (show b ≤ pool.vaultB by omega) hX
  | false =>
    rw [hd] at h
    simp only [Bool.false_eq_true, if_false] at h
    rw [Res.bind_eq_ok] at h
    obtain ⟨b, hb', h⟩ := h
    rw [Res.bind_eq_ok] at h
    obtain ⟨a, ha, h⟩ := h
    have hb' := transferFromOwnerToVault_eq_ok hb'
    have ha' := transferFromVaultToOwner_eq_ok ha
    rw [Res.pure_eq_ok, Except.ok.injEq] at h
    subst h
    refine ⟨hobs, hinfos, ⟨initial, hinv, hload, hrun⟩, ?_, rfl, rfl, rfl, fun X => ?_, fun X hX => ?_⟩
    · rw [hd]
      rfl
    · unfold received paid tokenIn
      rw [hd]
      cases X with
      | A =>
        simp only [Bool.false_eq_true, if_false, reduceCtorEq]
        change a + _ = pool.vaultA + 0
        omega
      | B =>
        simp only [Bool.false_eq_true, if_false, if_true]
        change b + 0 = pool.vaultB + _
        omega
    · cases X with
      | A => exact lt_of_le_of_lt (show a ≤ pool.vaultA by omega) hX
      | B => exact hb'.2

/-- Every state that a swap passes through satisfies the invariant of the loop. -/
theorem Run.invariant (hs : pool.Sound earned) (hb : pool.Backed earned) {args : SwapArgs}
    {infos : Fin numRewards → WhirlpoolRewardInfo} {timestamp : ℕ} {sequence : SwapTickSequence}
    {s : SwapState} (hinfos : nextWhirlpoolRewardInfos pool.whirlpool timestamp = .ok infos)
    (h : Run pool args infos sequence s) :
    SwapStart pool.ranges pool.whirlpool args.sqrtPriceLimit.toNat args.amount.toNat
        (initialSwapState pool.whirlpool sequence args.amount.toNat args.aToB) ∧
      ∃ t : SwapTrace, t.state = s ∧ SwapInvariant pool.ranges pool.whirlpool infos
        pool.tickArrays args.sqrtPriceLimit.toNat args.amount.toNat args.amountSpecifiedIsInput
        args.aToB (initialSwapState pool.whirlpool sequence args.amount.toNat args.aToB) t := by
  have hstart := hs.swapStart hb sequence args.aToB args.amount h.min_le h.le_max
  have hload := loadSequence_eq_ok hs.wellPlaced h.loaded
  exact ⟨hstart, (hs.swapInvariant args.amount.toNat hload hinfos h.toward).iterates hstart
    h.iterates⟩

/-- The handler of `swap` does what its leg does, after its checks.

**Proof sketch.** The handler is a check of the flag, the leg, and a check of the threshold, taken
apart one by one. -/
theorem swapHandler_eq_ok {args : SwapArgs} {threshold : UInt64} {clock : Int64}
    {funds : OwnerFunds} (h : pool.swapHandler args threshold clock funds = .ok pool') :
    pool.whirlpool.isEnabled = true ∧ pool.swapLeg args clock funds = .ok pool' := by
  unfold swapHandler at h
  rw [Res.bind_eq_ok] at h
  obtain ⟨_, hen, h⟩ := h
  unfold Whirlpool.requireEnabled at hen
  rw [ite_err_eq_ok, Bool.not_eq_true', Bool.not_eq_false] at hen
  refine ⟨hen.1, ?_⟩
  rw [Res.bind_eq_ok] at h
  obtain ⟨timestamp, ht, h⟩ := h
  rw [Res.bind_eq_ok] at h
  obtain ⟨⟨swapUpdate, sequence⟩, hc, h⟩ := h
  rw [Res.bind_eq_ok] at h
  obtain ⟨-, -, h⟩ := h
  unfold swapLeg
  rw [ht, Res.ok_bind, hc, Res.ok_bind]
  exact h

/-! ## The invariant after a swap -/

namespace Traded

variable {args : SwapArgs} {infos : Fin numRewards → WhirlpoolRewardInfo} {timestamp : ℕ}
  {t : SwapTrace}

/-- The parts of the record that a swap writes, and those that it does not. -/
theorem record (h : Traded pool pool' args infos timestamp t) :
    pool'.whirlpool.tickSpacing = pool.whirlpool.tickSpacing ∧
      pool'.whirlpool.tickCurrentIndex = t.state.currTickIndex ∧
      pool'.whirlpool.sqrtPrice = t.state.currSqrtPrice ∧
      pool'.whirlpool.liquidity = t.state.currLiquidity ∧
      pool'.whirlpool.feeRate = pool.whirlpool.feeRate ∧
      pool'.whirlpool.protocolFeeRate = pool.whirlpool.protocolFeeRate ∧
      pool'.whirlpool.rewardInfos = infos ∧
      pool'.whirlpool.growthGlobal =
        swapGlobal pool.whirlpool infos args.aToB t.state.currFeeGrowthGlobalInput := by
  have hw := h.whirlpool
  unfold Whirlpool.updateAfterSwap at hw
  simp only at hw
  refine ⟨?_, ?_, ?_, ?_, ?_, ?_, ?_, ?_⟩
  all_goals rw [hw]
  any_goals split_ifs <;> rfl
  funext ch
  unfold swapGlobal tokenIn
  rcases ch with X | i
  · cases args.aToB <;> cases X <;> rfl
  · split_ifs <;> rfl

/-- A swap leaves the ranges alone. -/
lemma ranges (h : Traded pool pool' args infos timestamp t) : pool'.ranges = pool.ranges := by
  unfold Pool.ranges
  rw [h.positions, h.position]

/-- The ticks after a swap are those of its last state. -/
lemma ticks (h : Traded pool pool' args infos timestamp t) :
    pool'.ticks = t.state.ticks pool.tickArrays pool.whirlpool.tickSpacing := by
  unfold Pool.ticks SwapState.ticks
  rw [h.record.1, h.tickArrays]

/-- **A swap adds the logged growth to every range between initialized ticks**, and keeps these
ticks initialized.

**Proof sketch.** The rewards accrue first, which adds their growth to the ranges around the tick of
the pool. The swap then adds the fees that it logs, in the token that it takes. -/
theorem inside (h : Traded pool pool' args infos timestamp t) (ch : Channel)
    {lo hi : ℤ} (hle : lo ≤ hi) (hlo : (pool.ticks lo).initialized = true)
    (hhi : (pool.ticks hi).initialized = true) :
    pool'.inside ch lo hi = pool.inside ch lo hi +
      BitVec.ofNat 128 (Outside.recorded (pool.tradeLog args infos t ch) lo hi) := by
  obtain ⟨sequence, hinv, hload, -⟩ := h.invariant
  have hticks := initialSwapState_ticks hload args.amount.toNat args.aToB
  have hglobal : swapGlobal pool.whirlpool infos args.aToB
      (initialSwapState pool.whirlpool sequence args.amount.toNat
        args.aToB).currFeeGrowthGlobalInput =
      (pool.accrue infos timestamp).whirlpool.growthGlobal := by
    funext ch
    unfold swapGlobal tokenIn
    rcases ch with X | i
    · cases hd : args.aToB <;> cases X <;> rfl
    · rfl
  have hmain := hinv.inside ch lo hi hle (hticks ▸ hlo) (hticks ▸ hhi)
  rw [hticks, hglobal] at hmain
  have hacc := pool.inside_accrue infos timestamp ch hle hlo hhi
  change _ = pool.inside ch lo hi + _ at hacc
  unfold Pool.inside
  rw [h.ticks, h.record.2.2.2.2.2.2.2, h.record.2.1, hmain]
  change (pool.accrue infos timestamp).inside ch lo hi + _ = _
  rw [hacc, add_assoc]
  congr 1
  rcases ch with X | i
  · have hzero : Outside.recorded (pool.rewardLog infos (.fee X)) lo hi = 0 :=
      Outside.recorded_zero lo hi
    rw [hzero]
    have hlog : pool.tradeLog args infos t (.fee X) =
        if X = tokenIn args.aToB then t.grown else fun _ => 0 := rfl
    rw [hlog]
    by_cases hX : X = tokenIn args.aToB
    · rw [if_pos (by rw [hX]), if_pos hX]
      exact zero_add _
    · rw [if_neg (by simpa using hX), if_neg hX, Outside.recorded_zero]
      rfl
  · rw [if_neg (by simp), add_zero]
    rfl

/-- **A swap keeps the invariant.**

**Proof sketch.** The invariant of the swap gives the price, the books, the ticks and their growths;
the record keeps the rest. -/
theorem sound (hs : pool.Sound earned) (h : Traded pool pool' args infos timestamp t) :
    pool'.Sound (earned.add pool (pool.tradeLog args infos t)) := by
  obtain ⟨sequence, hinv, hload, -⟩ := h.invariant
  obtain ⟨hts, htick, hprice, hliq, hfee, hprot, hrewards, -⟩ := h.record
  refine ⟨hts ▸ hs.spacing, ?_, ?_, hfee ▸ hs.feeRate, hprot ▸ hs.protocolFeeRate,
    hliq ▸ hinv.wellFormed.liquidity_lt, ?_, ?_, ?_, ?_, fun k hk h0 ch => ?_⟩
  · rw [hts, h.tickArrays]
    exact hinv.wellFormed.wellPlaced
  · rw [htick, hprice]
    exact hinv.wellFormed.price
  · rw [h.positions, h.position]
    exact hs.position_lt
  · rw [h.positions, h.position, hts]
    exact hs.onUsableTicks
  · rw [h.ranges, h.ticks, htick, hliq]
    exact hinv.books
  · rw [h.ticks, hrewards]
    exact hinv.rewardsBlank
  · rw [h.positions] at hk
    rw [h.position] at h0 ⊢
    have hold := hs.checkpoints k hk h0 ch
    rw [h.inside ch (hs.onUsableTicks k hk).2.2.le (hs.books.lower_initialized hk h0)
      (hs.books.upper_initialized hk h0), Earnings.add, BitVec.ofNat_add, ← hold]
    ring

/-- The fees that a swap logs for the positions.

**Proof sketch.** What a position earns is what the swap logs while its range is active, so the sum
over the positions is the growth times the active liquidity. -/
theorem feesEarned (h : Traded pool pool' args infos timestamp t) (earned : Earnings) (X : Token) :
    pool'.feesEarned (earned.add pool (pool.tradeLog args infos t)) X =
      pool.feesEarned earned X +
        if X = tokenIn args.aToB then loggedFor pool.ranges t.grown / 2 ^ 64 else 0 := by
  unfold Pool.feesEarned
  rw [h.ranges]
  have hadd : ∀ k, ((earned.add pool (pool.tradeLog args infos t) k (.fee X) : ℕ) : ℚ) =
      earned k (.fee X) + if X = tokenIn args.aToB then
        (Outside.recorded t.grown (pool.ranges.lower k) (pool.ranges.upper k) : ℚ) else 0 :=
    fun k => by
      have hlog : pool.tradeLog args infos t (.fee X) =
          if X = tokenIn args.aToB then t.grown else fun _ => 0 := rfl
      unfold Earnings.add
      rw [hlog, Nat.cast_add]
      split_ifs
      · rfl
      · rw [Outside.recorded_zero, Nat.cast_zero]
  simp only [hadd]
  rw [pool.ranges.total_add, add_div]
  split_ifs
  · rfl
  · rw [pool.ranges.total_zero, zero_div]

/-- **A swap changes the reserve of a token by at most what the trader pays, and by at least what
he receives**, and the difference on the side he pays covers the fees.

**Proof sketch.** By the token. For the input and the output it is the invariant of the loop at its
end; a pool has no other token. -/
theorem reserve_le (h : Traded pool pool' args infos timestamp t) (X : Token) :
    reserve pool'.ranges X pool'.whirlpool.sqrtPrice + received args t X +
        (if X = tokenIn args.aToB then loggedFor pool.ranges t.grown / 2 ^ 64 + t.protocolFees
          else 0) ≤
      reserve pool.ranges X pool.whirlpool.sqrtPrice + paid args t X := by
  obtain ⟨sequence, hinv, -⟩ := h.invariant
  rw [h.ranges, h.record.2.2.1]
  unfold received paid
  have hin := hinv.input_covered
  have hout := hinv.output_covered
  by_cases hX : X = tokenIn args.aToB
  · simp only [if_pos hX, Nat.cast_zero]
    rw [hX]
    change _ ≤ reserve _ _ pool.whirlpool.sqrtPrice + _ at hin
    linarith
  · simp only [if_neg hX, Nat.cast_zero]
    have hX' : X = tokenOut args.aToB := by
      revert hX
      unfold tokenIn tokenOut
      cases args.aToB <;> cases X <;> simp
    rw [hX']
    change _ ≤ reserve _ _ pool.whirlpool.sqrtPrice at hout
    linarith

/-- The protocol's fees of a swap. -/
theorem protocolFeeOwed_eq (h : Traded pool pool' args infos timestamp t) (X : Token) :
    pool'.whirlpool.protocolFeeOwed X = if X = tokenIn args.aToB then
      wrappingAdd 64 (pool.whirlpool.protocolFeeOwed X) t.protocolFees
      else pool.whirlpool.protocolFeeOwed X := by
  obtain ⟨sequence, hinv, -⟩ := h.invariant
  have hw := h.whirlpool
  unfold Whirlpool.updateAfterSwap at hw
  simp only at hw
  rw [hw, hinv.protocol_eq]
  unfold tokenIn
  cases args.aToB <;> cases X <;> rfl

/-- **A swap keeps the vaults covered**, and the fees owed to the protocol do not wrap.

**Proof sketch.** The obligations grow by the change of the reserve, the fees for the positions and
those for the protocol, and by `reserve_le` the vault gains at least as much. -/
theorem backed (hb : pool.Backed earned) (h : Traded pool pool' args infos timestamp t) :
    pool'.Backed (earned.add pool (pool.tradeLog args infos t)) := by
  have howed : pool'.feesOwed = pool.feesOwed := by
    unfold Pool.feesOwed
    rw [h.positions, h.position]
  refine ⟨fun X => ?_, fun X => h.vault_lt X (hb.vault_lt X)⟩
  have hcov := hb.covered X
  have hres := h.reserve_le X
  have hprot := h.protocolFeeOwed_eq X
  have hvault : ((pool'.vault X + received args t X : ℕ) : ℚ) =
      (pool.vault X + paid args t X : ℕ) := by rw [h.vault]
  push_cast at hvault
  unfold obligations at hcov ⊢
  rw [h.feesEarned, howed, hprot]
  split_ifs at hres ⊢
  · have hwrap : ((wrappingAdd 64 (pool.whirlpool.protocolFeeOwed X) t.protocolFees : ℕ) : ℚ) ≤
        pool.whirlpool.protocolFeeOwed X + t.protocolFees := by
      exact_mod_cast wrappingAdd_le _ _ _
    linarith
  · linarith

end Traded

end Pool

end NemoSwap
