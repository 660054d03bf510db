import NemoSwap.Pool.LiquidityBounds
import NemoSwap.Pool.Solvency
import NemoSwap.Util.TickTiling

set_option relaxedAutoImplicit false
set_option autoImplicit false

/-!
# When liquidity can be added and withdrawn

The checks on the way of `increase_liquidity` and `decrease_liquidity` guard against overflows, a
tick array that does not match, a clock that runs backwards, and limits of the caller. In a
reachable pool only the checks on the caller's own accounts, limits and funds, on the clock and on
the flag of the pool can fail: the liquidity is far from all bounds, the arrays of a position with
liquidity exist, the division of the token amounts does not panic, and the vaults can pay.

## Main definitions

* `NemoSwap.Pool.CanModify` — what a change of liquidity asks for.

## Main results

* `NemoSwap.Pool.Sound.modifyLiquidity_returns` — a change of liquidity is computed.
* `NemoSwap.Reachable.increaseLiquidity_iff`, `NemoSwap.Reachable.decreaseLiquidity_iff` — when
  the two instructions succeed.
-/

namespace NemoSwap

/-- The balance of the owner's account for a token. -/
def OwnerFunds.balance (funds : OwnerFunds) : Token → ℕ
  | .A => funds.balanceA.toNat
  | .B => funds.balanceB.toNat

/-! ## Ticks -/

/-- An array that has a usable tick can be written at it. -/
lemma TickArray.exists_updateTick_eq_ok {ts : ℕ} {t : ℤ} (array : TickArray) (hts : ts ≠ 0)
    (hh : array.Holds ts t) (hu : UsableTick ts t) (update : TickUpdate) :
    ∃ array', array.updateTick t ts update = .ok array' := by
  obtain ⟨tick, h⟩ := array.exists_getTick_eq_ok hts hh hu
  unfold TickArray.getTick at h
  rw [Res.bind_eq_ok] at h
  obtain ⟨i, hi, -⟩ := h
  unfold TickArray.updateTick
  rw [hi]
  exact ⟨_, rfl⟩

/-- The array at the start of a tick's array has the tick. -/
lemma TickMap.WellPlaced.holds {arrays : TickMap} {ts : ℕ} (hwp : arrays.WellPlaced ts)
    (hts : ts ≠ 0) {array : TickArray} {t : ℤ} (hdvd : (ts : ℤ) ∣ t)
    (ha : arrays (arrayStart ts t) = some array) : array.Holds ts t := by
  obtain ⟨hstart, -⟩ := hwp _ _ ha
  obtain ⟨-, hlo, hhi⟩ := arrayStart_spec hts t
  refine ⟨by rw [hstart]; exact hlo, by rw [hstart]; exact hhi, ?_⟩
  exact hdvd.sub (hwp.dvd_start ha)

/-- A tick takes a change of liquidity that keeps its gross liquidity within bounds.

**Proof sketch.** By whether the change and the new gross liquidity are zero; each of the additions
stays within its type. -/
lemma nextTickModifyLiquidityUpdate_returns {tick : Tick} {delta : ℤ}
    (hgross : tick.liquidityGross < 2 ^ 115) (hnet : |tick.liquidityNet| < 2 ^ 114)
    (hsize : delta.natAbs < 2 ^ 114) (hle : 0 ≤ (tick.liquidityGross : ℤ) + delta)
    (tickIndex tickCurrentIndex : ℤ) (feeGrowthGlobalA feeGrowthGlobalB : Growth)
    (rewardInfos : Fin numRewards → WhirlpoolRewardInfo) (isUpperTick : Bool) :
    ∃ update, nextTickModifyLiquidityUpdate tick tickIndex tickCurrentIndex feeGrowthGlobalA
      feeGrowthGlobalB rewardInfos delta isUpperTick = .ok update := by
  obtain ⟨m, hm⟩ := Int.eq_ofNat_of_zero_le hle
  rw [abs_lt] at hnet
  have hadd : addLiquidityDelta tick.liquidityGross delta = .ok m :=
    exists_addLiquidityDelta_eq_ok (by omega) (by omega)
  have hsub : checkedSubI128 tick.liquidityNet delta = some (tick.liquidityNet - delta) :=
    if_pos (by omega)
  have hsum : checkedAddI128 tick.liquidityNet delta = some (tick.liquidityNet + delta) :=
    if_pos (by omega)
  unfold nextTickModifyLiquidityUpdate
  by_cases h0 : delta = 0
  · rw [if_pos h0]
    exact ⟨_, rfl⟩
  rw [if_neg h0, hadd, Res.ok_bind, hsub, hsum]
  by_cases hm0 : m = 0
  · rw [if_pos hm0]
    exact ⟨_, rfl⟩
  rw [if_neg hm0]
  cases isUpperTick with
  | false => exact ⟨_, rfl⟩
  | true => exact ⟨_, rfl⟩

/-- The rewards accrue as long as the clock does not run backwards. -/
lemma nextWhirlpoolRewardInfos_returns {w : Whirlpool} {timestamp : ℕ}
    (h : w.rewardLastUpdatedTimestamp ≤ timestamp) :
    ∃ infos, nextWhirlpoolRewardInfos w timestamp = .ok infos := by
  unfold nextWhirlpoolRewardInfos
  simp only
  rw [if_neg (not_lt.2 h)]
  split_ifs
  · exact ⟨_, rfl⟩
  · exact ⟨_, rfl⟩

namespace Pool

variable {pool pool' : Pool} {earned : Earnings} {key : Pubkey} {auth : PositionAuthority}
  {arrayLower arrayUpper : ℤ} {delta : ℤ} {clock : Int64} {timestamp : ℕ}

/-! ## The update -/

/-- The change of a position's liquidity fits the liquidity of the pool and of both ticks. -/
lemma Sound.delta_fits (hs : pool.Sound earned) (hk : key ∈ pool.positions)
    (hneg : 0 ≤ ((pool.position key).liquidity : ℤ) + delta) :
    0 ≤ ((pool.ticks (pool.position key).tickLowerIndex).liquidityGross : ℤ) + delta ∧
      0 ≤ ((pool.ticks (pool.position key).tickUpperIndex).liquidityGross : ℤ) + delta ∧
      (pool.ranges.Contains key pool.whirlpool.tickCurrentIndex →
        0 ≤ (pool.whirlpool.liquidity : ℤ) + delta) := by
  have h1 := pool.ranges.size_le_gross_lower hk
  have h2 := pool.ranges.size_le_gross_upper hk
  rw [hs.books.gross, hs.books.gross, hs.books.active]
  change (pool.position key).liquidity ≤ pool.ranges.gross (pool.position key).tickLowerIndex at h1
  change (pool.position key).liquidity ≤ pool.ranges.gross (pool.position key).tickUpperIndex at h2
  refine ⟨by omega, by omega, fun hc => ?_⟩
  have h3 := pool.ranges.active_le_of_contains hk hc
  change (pool.position key).liquidity ≤ _ at h3
  omega

/-- **The update of a position is computed**: no liquidity leaves the bounds of its type.

**Proof sketch.** The steps of the code in order, each of which has what it needs: the ticks lie in
their arrays, the clock does not go back, and the new liquidities of the pool, the position and the
ticks fit. -/
theorem Sound.calculateModifyLiquidity_returns (hs : pool.Sound earned) (hb : pool.Backed earned)
    (hk : key ∈ pool.positions) {tickArrayLower tickArrayUpper : TickArray}
    (hl : pool.tickArrays arrayLower = some tickArrayLower)
    (hu : pool.tickArrays arrayUpper = some tickArrayUpper)
    (hhl : tickArrayLower.Holds pool.whirlpool.tickSpacing (pool.position key).tickLowerIndex)
    (hhu : tickArrayUpper.Holds pool.whirlpool.tickSpacing (pool.position key).tickUpperIndex)
    (hdelta : delta ≠ 0) (hsize : delta.natAbs < 2 ^ 114)
    (hneg : 0 ≤ ((pool.position key).liquidity : ℤ) + delta)
    (ht : pool.whirlpool.rewardLastUpdatedTimestamp ≤ timestamp) :
    ∃ update, calculateModifyLiquidity pool.whirlpool (pool.position key) tickArrayLower
      tickArrayUpper delta timestamp = .ok update := by
  obtain ⟨hul, huu, -⟩ := hs.onUsableTicks key hk
  obtain ⟨hpool, hposition, htick⟩ := hb.liquidity_lt hs
  obtain ⟨hgl, hgu, hactive⟩ := hs.delta_fits hk hneg
  obtain ⟨lower, hlower⟩ := tickArrayLower.exists_getTick_eq_ok hs.spacing hhl hul
  obtain ⟨upper, hupper⟩ := tickArrayUpper.exists_getTick_eq_ok hs.spacing hhu huu
  obtain rfl := hs.getTick_eq_ok hl hlower
  obtain rfl := hs.getTick_eq_ok hu hupper
  obtain ⟨infos, hinfos⟩ := nextWhirlpoolRewardInfos_returns ht
  have hliquidity : ∃ l, nextWhirlpoolLiquidity pool.whirlpool (pool.position key).tickUpperIndex
      (pool.position key).tickLowerIndex delta = .ok l := by
    unfold nextWhirlpoolLiquidity
    split_ifs with hc
    · obtain ⟨m, hm⟩ := Int.eq_ofNat_of_zero_le (hactive ⟨hc.2, hc.1⟩)
      exact ⟨m, exists_addLiquidityDelta_eq_ok hm.symm (by omega)⟩
    · exact ⟨_, rfl⟩
  obtain ⟨l, hliquidity⟩ := hliquidity
  obtain ⟨lower', hlower'⟩ := nextTickModifyLiquidityUpdate_returns (htick _).1 (htick _).2 hsize
    hgl (pool.position key).tickLowerIndex pool.whirlpool.tickCurrentIndex
    pool.whirlpool.feeGrowthGlobalA pool.whirlpool.feeGrowthGlobalB infos false
  obtain ⟨upper', hupper'⟩ := nextTickModifyLiquidityUpdate_returns (htick _).1 (htick _).2 hsize
    hgu (pool.position key).tickUpperIndex pool.whirlpool.tickCurrentIndex
    pool.whirlpool.feeGrowthGlobalA pool.whirlpool.feeGrowthGlobalB infos true
  obtain ⟨m, hm⟩ := Int.eq_ofNat_of_zero_le hneg
  have hadd : addLiquidityDelta (pool.position key).liquidity delta = .ok m :=
    exists_addLiquidityDelta_eq_ok hm.symm (by have := hposition key hk; omega)
  unfold calculateModifyLiquidity
  rw [hlower, Res.ok_bind, hupper, Res.ok_bind]
  unfold calculateModifyLiquidity'
  rw [if_neg (fun h => hdelta h.1), hinfos, Res.ok_bind, hliquidity, Res.ok_bind, hlower',
    Res.ok_bind, hupper', Res.ok_bind]
  unfold nextPositionModifyLiquidityUpdate
  simp only [hadd, Res.ok_bind]
  exact ⟨_, rfl⟩

/-- The update can be written back, also where both ticks lie in one array.

**Proof sketch.** The array of the upper tick is read after the one of the lower tick has been
written. If they are the same array, the second write sees the first. -/
lemma Sound.syncModifyLiquidityValues_returns (hs : pool.Sound earned)
    (hk : key ∈ pool.positions) {tickArrayLower tickArrayUpper : TickArray}
    (hl : pool.tickArrays arrayLower = some tickArrayLower)
    (hu : pool.tickArrays arrayUpper = some tickArrayUpper)
    (hhl : tickArrayLower.Holds pool.whirlpool.tickSpacing (pool.position key).tickLowerIndex)
    (hhu : tickArrayUpper.Holds pool.whirlpool.tickSpacing (pool.position key).tickUpperIndex)
    (update : ModifyLiquidityUpdate) :
    ∃ pool', pool.syncModifyLiquidityValues key arrayLower arrayUpper update timestamp =
      .ok pool' := by
  obtain ⟨hul, huu, -⟩ := hs.onUsableTicks key hk
  obtain ⟨lower', hlower'⟩ := tickArrayLower.exists_updateTick_eq_ok hs.spacing hhl hul
    update.tickLowerUpdate
  obtain ⟨-, -, -, hstart, -⟩ := TickArray.updateTick_eq_ok (hs.wellPlaced.dvd_start hl) hlower'
  -- the second write sees the first
  obtain ⟨upper₁, hupper₁, hhu₁⟩ : ∃ upper₁, Function.update pool.tickArrays arrayLower
      (some lower') arrayUpper = some upper₁ ∧
        upper₁.Holds pool.whirlpool.tickSpacing (pool.position key).tickUpperIndex := by
    by_cases he : arrayUpper = arrayLower
    · subst he
      rw [hl, Option.some.injEq] at hu
      subst hu
      refine ⟨lower', Function.update_self _ _ _, ?_⟩
      unfold TickArray.Holds at hhu ⊢
      rw [hstart]
      exact hhu
    · exact ⟨tickArrayUpper, by rw [Function.update_of_ne he, hu], hhu⟩
  obtain ⟨upper', hupper'⟩ := upper₁.exists_updateTick_eq_ok hs.spacing hhu₁ huu
    update.tickUpperUpdate
  have hget : (pool.setPosition key ((pool.position key).update update.positionUpdate)).getTickArray
      arrayLower = .ok tickArrayLower := getTickArray_eq_ok.2 hl
  have hget' : ((pool.setPosition key ((pool.position key).update
      update.positionUpdate)).setTickArray arrayLower lower').getTickArray arrayUpper =
        .ok upper₁ := getTickArray_eq_ok.2 hupper₁
  unfold syncModifyLiquidityValues
  simp only []
  rw [hget, Res.ok_bind]
  change ∃ pool', (tickArrayLower.updateTick (pool.position key).tickLowerIndex
    pool.whirlpool.tickSpacing update.tickLowerUpdate >>= _) = _
  rw [hlower', Res.ok_bind, hget', Res.ok_bind]
  change ∃ pool', (upper₁.updateTick (pool.position key).tickUpperIndex
    pool.whirlpool.tickSpacing update.tickUpperUpdate >>= _) = _
  rw [hupper', Res.ok_bind]
  exact ⟨_, rfl⟩

/-! ## Changes of liquidity -/

/-- What a change of liquidity asks of the accounts, of the flag of the pool and of the clock. -/
structure CanModify (pool : Pool) (key : Pubkey) (auth : PositionAuthority)
    (arrayLower arrayUpper : ℤ) (clock : Int64) : Prop where
  owned : pool.getOwnedPosition key auth = .ok (pool.position key)
  enabled : pool.whirlpool.isEnabled = true
  lower : arrayLower =
    TickMap.arrayStart pool.whirlpool.tickSpacing (pool.position key).tickLowerIndex
  upper : arrayUpper =
    TickMap.arrayStart pool.whirlpool.tickSpacing (pool.position key).tickUpperIndex
  clock_nonneg : 0 ≤ clock.toInt
  clock_le : pool.whirlpool.rewardLastUpdatedTimestamp ≤ clock.toInt.toNat

/-- The rounded token amount of a liquidity on the range of a position. -/
def positionDelta (pool : Pool) (key : Pubkey) (X : Token) (liquidity : ℕ) (roundUp : Bool) : ℕ :=
  rangeDelta X (pool.position key).tickLowerIndex (pool.position key).tickUpperIndex
    pool.whirlpool.sqrtPrice liquidity roundUp

/-- What a position yields, rounded down, is at most what it costs, rounded up. -/
theorem positionDelta_down_le (pool : Pool) (key : Pubkey) (X : Token) (liquidity : ℕ) :
    pool.positionDelta key X liquidity false ≤ pool.positionDelta key X liquidity true := by
  unfold positionDelta rangeDelta
  cases X with
  | A => exact roundDiv_false_le _ _ true
  | B => exact roundDiv_false_le _ _ true

/-- **A change of liquidity is computed** if its amounts fit a token account.

**Proof sketch.** The amounts bound the liquidity that is moved, so it fits with a sign; the update
is computed by `Sound.calculateModifyLiquidity_returns`, the amounts by
`calculateLiquidityTokenDeltas_fits`, and the writes are
`Sound.syncModifyLiquidityValues_returns`. -/
theorem Sound.modifyLiquidity_returns (hs : pool.Sound earned) (hb : pool.Backed earned)
    (h : pool.CanModify key auth arrayLower arrayUpper clock)
    (hl : (pool.tickArrays arrayLower).isSome = true)
    (hu : (pool.tickArrays arrayUpper).isSome = true) {amount : BitVec 128} {positive : Bool}
    (hne : amount.toNat ≠ 0)
    (hneg : positive = false → amount.toNat ≤ (pool.position key).liquidity)
    (hfits : ∀ X, pool.positionDelta key X amount.toNat true < 2 ^ 64) :
    ∃ pool', pool.modifyLiquidity key auth arrayLower arrayUpper amount positive clock =
      .ok (pool', pool.positionDelta key .A amount.toNat positive,
        pool.positionDelta key .B amount.toNat positive) := by
  obtain ⟨hk, -⟩ := getOwnedPosition_eq_ok h.owned
  obtain ⟨hul, huu, hlt⟩ := hs.onUsableTicks key hk
  obtain ⟨lower, hlower⟩ := Option.isSome_iff_exists.1 hl
  obtain ⟨upper, hupper⟩ := Option.isSome_iff_exists.1 hu
  have hhl : lower.Holds pool.whirlpool.tickSpacing (pool.position key).tickLowerIndex :=
    hs.wellPlaced.holds hs.spacing hul.2.2 (h.lower ▸ hlower)
  have hhu : upper.Holds pool.whirlpool.tickSpacing (pool.position key).tickUpperIndex :=
    hs.wellPlaced.holds hs.spacing huu.2.2 (h.upper ▸ hupper)
  have hsize : amount.toNat < 2 ^ 114 :=
    liquidity_lt_of_rangeDelta hul.1 hlt huu.2.1 (hfits .A) (hfits .B)
  obtain ⟨delta, hdelta⟩ : ∃ delta : ℤ, delta =
      if positive then (amount.toNat : ℤ) else -(amount.toNat : ℤ) := ⟨_, rfl⟩
  have habs : delta.natAbs = amount.toNat := by
    rw [hdelta]
    split_ifs <;> omega
  have hsign : decide (delta > 0) = positive := by
    rw [hdelta]
    cases positive with
    | true => simpa using Nat.pos_of_ne_zero hne
    | false => simp
  have hdelta0 : delta ≠ 0 := by omega
  have hleft : 0 ≤ ((pool.position key).liquidity : ℤ) + delta := by
    rw [hdelta]
    cases positive with
    | true => exact add_nonneg (Int.natCast_nonneg _) (Int.natCast_nonneg _)
    | false =>
      have := hneg rfl
      rw [if_neg Bool.false_ne_true]
      omega
  have hclock : toTimestampU64 clock = .ok clock.toInt.toNat := by
    unfold toTimestampU64
    rw [if_neg (not_lt.2 h.clock_nonneg)]
  have hflag : pool.whirlpool.requireEnabled = .ok () := by
    unfold Whirlpool.requireEnabled
    rw [h.enabled]
    rfl
  obtain ⟨update, hupdate⟩ := hs.calculateModifyLiquidity_returns hb hk hlower hupper hhl hhu
    hdelta0 (by omega) hleft h.clock_le
  obtain ⟨pool', hsync⟩ : ∃ pool', pool.syncModifyLiquidityValues key arrayLower arrayUpper update
      clock.toInt.toNat = .ok pool' :=
    hs.syncModifyLiquidityValues_returns hk hlower hupper hhl hhu update
  obtain ⟨-, hposition, hrecord, -⟩ := syncModifyLiquidityValues_eq_ok hs hsync
  have hrange : (pool'.position key).tickLowerIndex = (pool.position key).tickLowerIndex ∧
      (pool'.position key).tickUpperIndex = (pool.position key).tickUpperIndex := by
    rw [hposition, Function.update_self]
    exact ⟨rfl, rfl⟩
  have hfits' : ∀ X, rangeDelta X (pool'.position key).tickLowerIndex
      (pool'.position key).tickUpperIndex pool.whirlpool.sqrtPrice delta.natAbs true < 2 ^ 64 :=
    fun X => by
      rw [hrange.1, hrange.2, habs]
      exact hfits X
  have hamounts := calculateLiquidityTokenDeltas_fits hs.price (by rw [hrange.1]; exact hul.1)
    (by rw [hrange.1, hrange.2]; exact hlt) (by rw [hrange.2]; exact huu.2.1) hdelta0
    (hfits' .A) (hfits' .B)
  rw [habs, hsign, hrange.1, hrange.2] at hamounts
  refine ⟨pool', ?_⟩
  unfold modifyLiquidity
  rw [h.owned, Res.ok_bind, getTickArray_eq_ok.2 hlower, Res.ok_bind, getTickArray_eq_ok.2 hupper,
    Res.ok_bind, hflag, Res.ok_bind, if_neg hne,
    convertToLiquidityDelta_eq_ok.2 ⟨by omega, hdelta⟩, Res.ok_bind, hclock, Res.ok_bind, hupdate,
    Res.ok_bind, hsync, Res.ok_bind, hrecord]
  change (calculateLiquidityTokenDeltas pool.whirlpool.tickCurrentIndex pool.whirlpool.sqrtPrice
    (pool'.position key) delta >>= _) = _
  rw [hamounts]
  rfl

/-- What a change of liquidity needs.

**Proof sketch.** The inversion of the handler: it has checked the owner, the flag, the clock and
the accounts of the two arrays, and the amounts that it returns fit. -/
theorem Sound.canModify (hs : pool.Sound earned) {amount : BitVec 128} {positive : Bool}
    {amounts : ℕ × ℕ} (h : pool.modifyLiquidity key auth arrayLower arrayUpper amount positive
      clock = .ok (pool', amounts)) :
    pool.CanModify key auth arrayLower arrayUpper clock ∧
      (pool.tickArrays arrayLower).isSome = true ∧ (pool.tickArrays arrayUpper).isSome = true ∧
      amount.toNat ≠ 0 ∧ (positive = false → amount.toNat ≤ (pool.position key).liquidity) ∧
      (∀ X, tokenAmount amounts X = pool.positionDelta key X amount.toNat positive) ∧
      ∀ X, pool'.vault X = pool.vault X := by
  obtain ⟨hk, infos, timestamp, delta, ht, hinfos, hne, hlt, hsign, habs, hres, hd, hvault⟩ :=
    modifyLiquidity_eq_ok hs h
  have hamount := modifyLiquidity_amounts hs hk hlt hres hd
  have hclock := (nextWhirlpoolRewardInfos_eq_ok hinfos).1
  have hliquidity := hres.liquidity
  rw [((pool.accrue infos timestamp).settle_position key).2.2] at hliquidity
  change _ = ((pool.position key).liquidity : ℤ) + delta at hliquidity
  unfold modifyLiquidity at h
  rw [Res.bind_eq_ok] at h
  obtain ⟨position, hp, h⟩ := h
  obtain ⟨-, rfl⟩ := getOwnedPosition_eq_ok hp
  simp only [Res.bind_eq_ok, getTickArray_eq_ok] at h
  obtain ⟨lower, hl, upper, hu, u, hflag, h⟩ := h
  rw [ite_err_eq_ok] at h
  obtain ⟨-, h⟩ := h
  simp only [Res.bind_eq_ok] at h
  obtain ⟨_, _, _, _, update, hupdate, _⟩ := h
  unfold calculateModifyLiquidity at hupdate
  simp only [Res.bind_eq_ok] at hupdate
  obtain ⟨tickLower, htl, tickUpper, htu, _⟩ := hupdate
  obtain ⟨hts, -, hhl, -⟩ := TickArray.getTick_eq_ok (hs.wellPlaced.dvd_start hl) htl
  obtain ⟨-, -, hhu, -⟩ := TickArray.getTick_eq_ok (hs.wellPlaced.dvd_start hu) htu
  obtain ⟨hsl, hdl⟩ := hs.wellPlaced _ _ hl
  obtain ⟨hsu, hdu⟩ := hs.wellPlaced _ _ hu
  refine ⟨⟨hp, ?_, ?_, ?_, ?_, ?_⟩, Option.isSome_of_eq_some hl, Option.isSome_of_eq_some hu, ?_,
    fun hp => ?_, fun X => ?_, hvault⟩
  · unfold Whirlpool.requireEnabled at hflag
    rw [ite_err_eq_ok] at hflag
    simpa using hflag.1
  · rw [← hsl]
    exact (TickMap.arrayStart_eq hts (hsl ▸ hdl) hhl.1 hhl.2.1).symm
  · rw [← hsu]
    exact (TickMap.arrayStart_eq hts (hsu ▸ hdu) hhu.1 hhu.2.1).symm
  · unfold toTimestampU64 at ht
    rw [ite_err_eq_ok] at ht
    exact not_lt.1 ht.1
  · unfold toTimestampU64 at ht
    rw [ite_err_eq_ok, Except.ok.injEq] at ht
    rw [ht.2]
    exact hclock
  · omega
  · rw [hp, decide_eq_false_iff_not, not_lt] at hsign
    omega
  · rw [hamount X, habs, hsign]
    rfl

/-! ## The instructions -/

/-- A transfer into a vault succeeds exactly if the owner has the amount and it fits in the
vault. -/
lemma transferFromOwnerToVault_returns_iff {balance : UInt64} {v amount : ℕ} :
    (∃ v', transferFromOwnerToVault balance v amount = .ok v') ↔
      amount ≤ balance.toNat ∧ v + amount < 2 ^ 64 := by
  unfold transferFromOwnerToVault
  constructor
  · rintro ⟨v', h⟩
    split_ifs at h with h1 h2
    exact ⟨not_lt.1 h1, h2⟩
  · rintro ⟨h1, h2⟩
    exact ⟨v + amount, by rw [if_neg (not_lt.2 h1), if_pos h2]⟩

/-- A transfer out of a vault succeeds exactly if the vault has the amount and it fits in the
owner's account. -/
lemma transferFromVaultToOwner_returns_iff {balance : UInt64} {v amount : ℕ} :
    (∃ v', transferFromVaultToOwner balance v amount = .ok v') ↔
      amount ≤ v ∧ balance.toNat + amount < 2 ^ 64 := by
  unfold transferFromVaultToOwner
  constructor
  · rintro ⟨v', h⟩
    split_ifs at h with h1 h2
    exact ⟨not_lt.1 h1, h2⟩
  · rintro ⟨h1, h2⟩
    exact ⟨v - amount, by rw [if_neg (not_lt.2 h1), if_pos h2]⟩

/-- **When a deposit succeeds.**

**Proof sketch.** From left to right by `Sound.canModify` and the two checks and transfers that
follow the change. From right to left the change is computed, and the transfers find what they
need. -/
theorem Sound.increase_iff (hs : pool.Sound earned) (hb : pool.Backed earned)
    {amount : BitVec 128} {tokenMaxA tokenMaxB : UInt64} {funds : OwnerFunds} :
    (∃ pool', pool.increaseLiquidity key auth arrayLower arrayUpper amount tokenMaxA tokenMaxB clock
        funds = .ok pool') ↔
      pool.CanModify key auth arrayLower arrayUpper clock ∧
        ((pool.tickArrays arrayLower).isSome = true ∧
          (pool.tickArrays arrayUpper).isSome = true) ∧ amount.toNat ≠ 0 ∧
        ∀ X, pool.positionDelta key X amount.toNat true ≤
              tokenAmount (tokenMaxA.toNat, tokenMaxB.toNat) X ∧
            pool.positionDelta key X amount.toNat true ≤ funds.balance X ∧
            pool.vault X + pool.positionDelta key X amount.toNat true < 2 ^ 64 := by
  unfold increaseLiquidity
  constructor
  · rintro ⟨pool', h⟩
    rw [Res.bind_eq_ok] at h
    obtain ⟨⟨pool₁, deltaA, deltaB⟩, hm, h⟩ := h
    rw [ite_err_eq_ok, ite_err_eq_ok, Res.bind_eq_ok] at h
    obtain ⟨hmaxA, hmaxB, a, ha, h⟩ := h
    rw [Res.bind_eq_ok] at h
    obtain ⟨b, hb', -⟩ := h
    obtain ⟨hcan, hl, hu, hne, -, hamounts, hvault⟩ := hs.canModify hm
    have hA := transferFromOwnerToVault_returns_iff.1 ⟨a, ha⟩
    have hB := transferFromOwnerToVault_returns_iff.1 ⟨b, hb'⟩
    refine ⟨hcan, ⟨hl, hu⟩, hne, fun X => ?_⟩
    rw [← hamounts X, ← hvault X]
    cases X with
    | A => exact ⟨not_lt.1 hmaxA, hA⟩
    | B => exact ⟨not_lt.1 hmaxB, hB⟩
  · rintro ⟨hcan, ⟨hl, hu⟩, hne, hle⟩
    have hfits : ∀ X, pool.positionDelta key X amount.toNat true < 2 ^ 64 := fun X => by
      have := (hle X).2.2
      omega
    obtain ⟨pool₁, hm⟩ : ∃ pool₁, pool.modifyLiquidity key auth arrayLower arrayUpper amount true
        clock = .ok (pool₁, _, _) :=
      hs.modifyLiquidity_returns hb hcan hl hu hne (fun h => by cases h) hfits
    have hmaxA : pool.positionDelta key .A amount.toNat true ≤ tokenMaxA.toNat := (hle .A).1
    have hmaxB : pool.positionDelta key .B amount.toNat true ≤ tokenMaxB.toNat := (hle .B).1
    obtain ⟨-, -, -, -, -, -, hvault⟩ := hs.canModify hm
    obtain ⟨a, ha⟩ := transferFromOwnerToVault_returns_iff.2 (hle .A).2
    obtain ⟨b, hb'⟩ := transferFromOwnerToVault_returns_iff.2 (hle .B).2
    rw [← hvault .A] at ha
    rw [← hvault .B] at hb'
    change transferFromOwnerToVault funds.balanceA pool₁.vaultA _ = _ at ha
    change transferFromOwnerToVault funds.balanceB pool₁.vaultB _ = _ at hb'
    rw [hm, Res.ok_bind]
    simp only []
    rw [if_neg (not_lt.2 hmaxA), if_neg (not_lt.2 hmaxB), ha, Res.ok_bind, hb', Res.ok_bind]
    exact ⟨_, rfl⟩

/-- The array of an initialized tick exists. -/
lemma tickArray_isSome {t : ℤ} (h : (pool.ticks t).initialized = true) :
    (pool.tickArrays (TickMap.arrayStart pool.whirlpool.tickSpacing t)).isSome = true := by
  unfold ticks TickMap.tick at h
  cases ha : pool.tickArrays (TickMap.arrayStart pool.whirlpool.tickSpacing t) with
  | some array => rfl
  | none =>
    rw [ha] at h
    cases h

/-- A part of a position's liquidity is worth at most what is in the vault, also rounded up. -/
theorem Backed.positionDelta_le (hs : pool.Sound earned) (hb : pool.Backed earned)
    (hk : key ∈ pool.positions) {l : ℕ} (hle : l ≤ (pool.position key).liquidity) (X : Token) :
    pool.positionDelta key X l true ≤ pool.vault X := by
  obtain ⟨h1, h2, h3⟩ := hs.onUsableTicks key hk
  refine rangeDelta_true_le h1.1 h3 h2.2.1 ?_
  have hsize := pool.ranges.size_mul_le_total (w := fun k => holding X (pool.ranges.lower k)
    (pool.ranges.upper k) pool.whirlpool.sqrtPrice) (fun k hk' => by
      obtain ⟨h1, h2, h3⟩ := hs.onUsableTicks k hk'
      exact holding_nonneg h1.1 h3 h2.2.1) hk
  calc (l : ℚ) * holding X (pool.position key).tickLowerIndex (pool.position key).tickUpperIndex
        pool.whirlpool.sqrtPrice
      ≤ (pool.position key).liquidity * holding X (pool.position key).tickLowerIndex
          (pool.position key).tickUpperIndex pool.whirlpool.sqrtPrice :=
        mul_le_mul_of_nonneg_right (Nat.cast_le.2 hle) (holding_nonneg h1.1 h3 h2.2.1)
    _ ≤ reserve pool.ranges X pool.whirlpool.sqrtPrice := hsize
    _ ≤ pool.vault X := (hb.le_vault hs X).2.2

/-- **When a withdrawal succeeds.**

**Proof sketch.** As for a deposit; here the vaults have the funds, because the pool is backed. -/
theorem Sound.decrease_iff (hs : pool.Sound earned) (hb : pool.Backed earned)
    {amount : BitVec 128} {tokenMinA tokenMinB : UInt64} {funds : OwnerFunds} :
    (∃ pool', pool.decreaseLiquidity key auth arrayLower arrayUpper amount tokenMinA tokenMinB clock
        funds = .ok pool') ↔
      pool.CanModify key auth arrayLower arrayUpper clock ∧
        (amount.toNat ≠ 0 ∧ amount.toNat ≤ (pool.position key).liquidity) ∧
        ∀ X, tokenAmount (tokenMinA.toNat, tokenMinB.toNat) X ≤
              pool.positionDelta key X amount.toNat false ∧
            funds.balance X + pool.positionDelta key X amount.toNat false < 2 ^ 64 := by
  unfold decreaseLiquidity
  constructor
  · rintro ⟨pool', h⟩
    rw [Res.bind_eq_ok] at h
    obtain ⟨⟨pool₁, deltaA, deltaB⟩, hm, h⟩ := h
    rw [ite_err_eq_ok, ite_err_eq_ok, Res.bind_eq_ok] at h
    obtain ⟨hminA, hminB, a, ha, h⟩ := h
    rw [Res.bind_eq_ok] at h
    obtain ⟨b, hb', -⟩ := h
    obtain ⟨hcan, -, -, hne, hle, hamounts, -⟩ := hs.canModify hm
    have hA := transferFromVaultToOwner_returns_iff.1 ⟨a, ha⟩
    have hB := transferFromVaultToOwner_returns_iff.1 ⟨b, hb'⟩
    refine ⟨hcan, ⟨hne, hle rfl⟩, fun X => ?_⟩
    rw [← hamounts X]
    cases X with
    | A => exact ⟨not_lt.1 hminA, hA.2⟩
    | B => exact ⟨not_lt.1 hminB, hB.2⟩
  · rintro ⟨hcan, ⟨hne, hle⟩, hmin⟩
    obtain ⟨hk, -⟩ := getOwnedPosition_eq_ok hcan.owned
    have h0 : pool.ranges.size key ≠ 0 := by
      change (pool.position key).liquidity ≠ 0
      omega
    have hl : (pool.tickArrays arrayLower).isSome = true :=
      hcan.lower ▸ tickArray_isSome (hs.books.lower_initialized hk h0)
    have hu : (pool.tickArrays arrayUpper).isSome = true :=
      hcan.upper ▸ tickArray_isSome (hs.books.upper_initialized hk h0)
    have hup := hb.positionDelta_le hs hk hle
    have hdown : ∀ X, pool.positionDelta key X amount.toNat false ≤ pool.vault X := fun X =>
      (pool.positionDelta_down_le key X amount.toNat).trans (hup X)
    obtain ⟨pool₁, hm⟩ : ∃ pool₁, pool.modifyLiquidity key auth arrayLower arrayUpper amount false
        clock = .ok (pool₁, _, _) :=
      hs.modifyLiquidity_returns hb hcan hl hu hne (fun _ => hle)
        fun X => (hup X).trans_lt (hb.vault_lt X)
    have hminA : tokenMinA.toNat ≤ pool.positionDelta key .A amount.toNat false := (hmin .A).1
    have hminB : tokenMinB.toNat ≤ pool.positionDelta key .B amount.toNat false := (hmin .B).1
    obtain ⟨-, -, -, -, -, -, hvault⟩ := hs.canModify hm
    obtain ⟨a, ha⟩ := transferFromVaultToOwner_returns_iff.2 ⟨hdown .A, (hmin .A).2⟩
    obtain ⟨b, hb'⟩ := transferFromVaultToOwner_returns_iff.2 ⟨hdown .B, (hmin .B).2⟩
    rw [← hvault .A] at ha
    rw [← hvault .B] at hb'
    change transferFromVaultToOwner funds.balanceA pool₁.vaultA _ = _ at ha
    change transferFromVaultToOwner funds.balanceB pool₁.vaultB _ = _ at hb'
    rw [hm, Res.ok_bind]
    simp only []
    rw [if_neg (not_lt.2 hminA), if_neg (not_lt.2 hminB), ha, Res.ok_bind, hb', Res.ok_bind]
    exact ⟨_, rfl⟩

/-- When the fees of a position can be collected.

**Proof sketch.** The vaults cover what is owed, so only the owner's accounts can be too full. -/
theorem Sound.collect_iff (hs : pool.Sound earned) (hb : pool.Backed earned)
    {funds : OwnerFunds} :
    (∃ pool', pool.collectFees key auth funds = .ok pool') ↔
      pool.getOwnedPosition key auth = .ok (pool.position key) ∧
        ∀ X, funds.balance X + (pool.position key).feeOwed X < 2 ^ 64 := by
  unfold collectFees
  constructor
  · rintro ⟨pool', h⟩
    rw [Res.bind_eq_ok] at h
    obtain ⟨position, hp, h⟩ := h
    obtain ⟨-, rfl⟩ := getOwnedPosition_eq_ok hp
    simp only [Res.bind_eq_ok] at h
    obtain ⟨a, ha, b, hb', -⟩ := h
    refine ⟨hp, fun X => ?_⟩
    cases X with
    | A => exact (transferFromVaultToOwner_returns_iff.1 ⟨a, ha⟩).2
    | B => exact (transferFromVaultToOwner_returns_iff.1 ⟨b, hb'⟩).2
  · rintro ⟨hp, hroom⟩
    obtain ⟨hk, -⟩ := getOwnedPosition_eq_ok hp
    have howed : ∀ X, (pool.position key).feeOwed X ≤ pool.vault X := fun X =>
      (Finset.single_le_sum (f := fun k => (pool.position k).feeOwed X)
        (fun _ _ => Nat.zero_le _) hk).trans
          ((Nat.le_add_left _ _).trans (hb.le_vault hs X).1)
    obtain ⟨a, ha⟩ := transferFromVaultToOwner_returns_iff.2 ⟨howed .A, hroom .A⟩
    obtain ⟨b, hb'⟩ := transferFromVaultToOwner_returns_iff.2 ⟨howed .B, hroom .B⟩
    rw [hp, Res.ok_bind]
    change ∃ pool', (transferFromVaultToOwner funds.balanceA (pool.vault .A)
      ((pool.position key).feeOwed .A) >>= fun _ => transferFromVaultToOwner funds.balanceB
        (pool.vault .B) ((pool.position key).feeOwed .B) >>= _) = _
    rw [ha, Res.ok_bind, hb', Res.ok_bind]
    exact ⟨_, rfl⟩

end Pool

/-! ## Reachable pools -/

section Reachable

variable {pool : Pool} {key : Pubkey} {auth : PositionAuthority} {arrayLower arrayUpper : ℤ}
  {clock : Int64}

/-- **When a deposit succeeds.** In a reachable pool `increase_liquidity` succeeds exactly if the
signer owns the position, the pool is enabled, the arrays of the two ticks exist and are given, the
amount is not zero, the clock does not run backwards, and the rounded up amounts are within the
limits, the owner's funds and the room in the vaults. No other check fails. -/
theorem Reachable.increaseLiquidity_iff (h : Reachable pool) (amount : BitVec 128)
    (tokenMaxA tokenMaxB : UInt64) (funds : OwnerFunds) :
    (∃ pool', pool.step (.increaseLiquidity key auth arrayLower arrayUpper amount tokenMaxA
        tokenMaxB clock funds) = .ok pool') ↔
      pool.CanModify key auth arrayLower arrayUpper clock ∧
        ((pool.tickArrays arrayLower).isSome = true ∧
          (pool.tickArrays arrayUpper).isSome = true) ∧ amount.toNat ≠ 0 ∧
        ∀ X, pool.positionDelta key X amount.toNat true ≤
              tokenAmount (tokenMaxA.toNat, tokenMaxB.toNat) X ∧
            pool.positionDelta key X amount.toNat true ≤ funds.balance X ∧
            pool.vault X + pool.positionDelta key X amount.toNat true < 2 ^ 64 := by
  obtain ⟨s, rfl, hs⟩ := h.invariant
  exact hs.sound.increase_iff hs.backed

/-- The owner of the sample position can change its liquidity. -/
lemma samplePool_canModify : samplePool.CanModify 1 sampleAuth (-5632) 0 7 :=
  ⟨rfl, rfl, by decide +kernel, by decide +kernel, by decide, by decide +kernel⟩

/-- A deposit within its limits, and one that exceeds a limit by one unit. -/
theorem Reachable.increaseLiquidity_iff_samplePool :
    (∃ pool', samplePool.step (.increaseLiquidity 1 sampleAuth (-5632) 0 1000000 6380 6380 7
        sampleFunds) = .ok pool') ∧
      ¬∃ pool', samplePool.step (.increaseLiquidity 1 sampleAuth (-5632) 0 1000000 6379 6380 7
        sampleFunds) = .ok pool' := by
  refine ⟨(samplePool_reachable.increaseLiquidity_iff _ _ _ _).2 ⟨samplePool_canModify,
    by decide +kernel, by decide, fun X => ?_⟩, fun h => ?_⟩
  · cases X
    · decide +kernel
    · decide +kernel
  · have hle := ((samplePool_reachable.increaseLiquidity_iff _ _ _ _).1 h).2.2.2 .A
    exact absurd hle.1 (by decide +kernel)

/-- **When a withdrawal succeeds.** In a reachable pool `decrease_liquidity` succeeds exactly if
the signer owns the position, the pool is enabled, the arrays are those of the two ticks, the
position has the liquidity, the clock does not run backwards, the rounded down amounts reach the
limits, and the owner's accounts have room for them. The vaults always have the funds. -/
theorem Reachable.decreaseLiquidity_iff (h : Reachable pool) (amount : BitVec 128)
    (tokenMinA tokenMinB : UInt64) (funds : OwnerFunds) :
    (∃ pool', pool.step (.decreaseLiquidity key auth arrayLower arrayUpper amount tokenMinA
        tokenMinB clock funds) = .ok pool') ↔
      pool.CanModify key auth arrayLower arrayUpper clock ∧
        (amount.toNat ≠ 0 ∧ amount.toNat ≤ (pool.position key).liquidity) ∧
        ∀ X, tokenAmount (tokenMinA.toNat, tokenMinB.toNat) X ≤
              pool.positionDelta key X amount.toNat false ∧
            funds.balance X + pool.positionDelta key X amount.toNat false < 2 ^ 64 := by
  obtain ⟨s, rfl, hs⟩ := h.invariant
  exact hs.sound.decrease_iff hs.backed

/-- A withdrawal of all the liquidity of the sample position, and one of more than it has. -/
theorem Reachable.decreaseLiquidity_iff_samplePool :
    (∃ pool', samplePool.step (.decreaseLiquidity 1 sampleAuth (-5632) 0 1000000000 0 0 7
        sampleFunds) = .ok pool') ∧
      ¬∃ pool', samplePool.step (.decreaseLiquidity 1 sampleAuth (-5632) 0 1000000001 0 0 7
        sampleFunds) = .ok pool' := by
  refine ⟨(samplePool_reachable.decreaseLiquidity_iff _ _ _ _).2 ⟨samplePool_canModify,
    by decide +kernel, fun X => ?_⟩, fun h => ?_⟩
  · cases X
    · decide +kernel
    · decide +kernel
  · have hle := ((samplePool_reachable.decreaseLiquidity_iff _ _ _ _).1 h).2.1
    exact absurd hle.2 (by decide +kernel)

end Reachable

end NemoSwap
