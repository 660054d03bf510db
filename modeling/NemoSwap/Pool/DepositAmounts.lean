import NemoSwap.Math.U256Total
import NemoSwap.Pool.ModifyLiquidity

set_option relaxedAutoImplicit false
set_option autoImplicit false

/-!
# The amounts of a deposit

When both amounts of a deposit fit a token account, the program computes them: the long division
does not panic, and the liquidity is far below the bound of its type. `increase_liquidity` then
fails with `TokenMaxExceeded` only if one of them exceeds its limit.

## Main definitions

* `NemoSwap.Res.Avoids` — a computation does not stop with an error code.

## Main results

* `NemoSwap.getAmountDeltaA_returns` — an amount of token A that fits is returned.
* `NemoSwap.liquidity_lt_of_rangeDelta` — amounts that fit bound the liquidity.
* `NemoSwap.calculateLiquidityTokenDeltas_fits`, `NemoSwap.calculateLiquidityTokenDeltas_returns` —
  the amounts of a change of liquidity, and of a deposit, are returned.
* `NemoSwap.Pool.increaseLiquidity_avoids` — a deposit within its limits.
-/

namespace NemoSwap

/-! ## The amounts -/

section Amounts

variable {p q l : ℕ}

/-- **An amount of token A that fits a `u64`, also when it is rounded up, is returned.**

**Proof sketch.** The quotient fits in 64 bits and the denominator in 192, so the shifted numerator
fits in 256. The denominator has at most three words, so the division returns, and its rounded
result is the amount. -/
theorem getAmountDeltaA_returns {r : Bool} (hp : 0 < p) (hpq : p ≤ q) (hq : q ≤ maxSqrtPriceX64)
    (hl : l < 2 ^ 128) (h : deltaA p q l true < 2 ^ 64) :
    getAmountDeltaA p q l r = .ok (deltaA p q l r) := by
  have hq96 : q < 2 ^ 96 := hq.trans_lt (by norm_num [maxSqrtPriceX64])
  have hq128 : q < 2 ^ 128 := hq96.trans (by norm_num)
  have hpos : 0 < q * p := Nat.mul_pos (hp.trans_le hpq) hp
  have hden : q * p < 2 ^ 192 := by
    calc q * p < 2 ^ 96 * 2 ^ 96 := Nat.mul_lt_mul'' hq96 (hpq.trans_lt hq96)
      _ = 2 ^ 192 := by norm_num
  have hnum : l * (q - p) * 2 ^ 64 ≤ (2 ^ 64 - 1) * (q * p) :=
    (roundDiv_true_le_iff hpos _).1 (Nat.le_sub_one_of_lt h)
  have hnum256 : l * (q - p) * 2 ^ 64 < 2 ^ 256 := by omega
  have hprod : (U256Muldiv.mulU256 l (q - p)).toNat = l * (q - p) :=
    U256Muldiv.toNat_mulU256 hl (lt_of_le_of_lt (Nat.sub_le _ _) hq128)
  have hv : (U256Muldiv.mulU256 q p).toNat = q * p :=
    U256Muldiv.toNat_mulU256 hq128 (hpq.trans_lt hq128)
  have hx : (U256Muldiv.mulU256 l (q - p)).shiftWordLeft.toNat = l * (q - p) * 2 ^ 64 := by
    rw [U256Muldiv.toNat_shiftWordLeft, hprod, Nat.mod_eq_of_lt hnum256]
  -- the product of two prices has at most three words
  have hwords : (U256Muldiv.mulU256 q p).numWords ≤ 3 := by
    by_contra hcon
    have := U256Muldiv.le_toNat_of_lt_numWords (not_le.1 hcon)
    rw [hv] at this
    exact absurd (lt_of_le_of_lt this hden) (by norm_num)
  obtain ⟨⟨quo, rem⟩, hdiv⟩ := U256Muldiv.div_ok (by rw [hv]; exact hpos.ne') r fun _ h3 =>
    U256Muldiv.estimateExact_of_three (le_antisymm hwords h3) (by rw [hx, hv]; exact hnum)
  obtain ⟨y, hy, hval⟩ := divRoundUpIfU256_of_div hdiv
  rw [hx, hv, ← deltaA] at hval
  have hle : deltaA p q l r ≤ deltaA p q l true := by
    cases r with
    | true => exact le_rfl
    | false => exact roundDiv_false_le _ _ true
  have hcast : y.tryIntoU128 = .ok (deltaA p q l r) :=
    U256Muldiv.tryIntoU128_eq_ok.2 ⟨by omega, hval⟩
  unfold getAmountDeltaA
  rw [increasingPriceOrder_eq, min_eq_left hpq, max_eq_right hpq]
  simp only []
  rw [U256Muldiv.checkedShiftWordLeft_eq_some.2 ⟨by rw [hprod]; exact hnum256, rfl⟩, okOr_some,
    Res.ok_bind, hy, hcast, Res.ok_bind, if_neg (by omega)]
  rfl

/-- An amount of token B that fits a `u64` is returned. -/
lemma getAmountDeltaB_returns {r : Bool} (hpq : p ≤ q) (h : deltaB p q l r < 2 ^ 64) :
    getAmountDeltaB p q l r = .ok (deltaB p q l r) := by
  rw [getAmountDeltaB_eq_ok, min_eq_left hpq, max_eq_right hpq]
  exact ⟨rfl, h⟩

end Amounts

section Deposit

variable {c lo hi : ℤ} {p l : ℕ}

/-- The prices of a range differ by at least one part in `2 ^ 16` of the lower one. -/
lemma tickPrice_le_diff (hlo : minTickIndex ≤ lo) (hlt : lo < hi) (hhi : hi ≤ maxTickIndex) :
    tickPrice lo + tickPrice lo / 2 ^ 16 ≤ tickPrice hi := by
  unfold minTickIndex at hlo
  unfold maxTickIndex at hhi
  have hratio := tickPrice_ratio (t := lo) (by omega) (by omega)
  have hle := tickPrice_le (a := lo + 1) (b := hi) (by omega) (by omega) (by omega)
  omega

/-- **Amounts that fit bound the liquidity**: it is far from the end of its type.

**Proof sketch.** The part of the range below the price holds token B and the part above it token A.
Multiplied out and added, the two amounts bound the liquidity times the whole range, and a range is
at least one tick wide. -/
theorem liquidity_lt_of_rangeDelta (hlo : minTickIndex ≤ lo) (hlt : lo < hi)
    (hhi : hi ≤ maxTickIndex) (hA : rangeDelta .A lo hi p l true < 2 ^ 64)
    (hB : rangeDelta .B lo hi p l true < 2 ^ 64) : l < 2 ^ 114 := by
  have hle := tickPrice_le_of_le hlo hlt.le hhi
  have hdiff := tickPrice_le_diff hlo hlt hhi
  have hlow : tickPrice lo ≤ rangePrice lo hi p := Ranges.lower_le_clamp _ _ _
  have hupp : rangePrice lo hi p ≤ tickPrice hi := Ranges.clamp_le_upper _ hle
  have hmin : 2 ^ 32 ≤ tickPrice lo := by
    unfold minTickIndex at hlo
    unfold maxTickIndex at hhi
    exact le_trans (by norm_num [minSqrtPriceX64]) (min_le_tickPrice hlo (by omega))
  have hmax : tickPrice hi < 2 ^ 96 := by
    unfold minTickIndex at hlo
    unfold maxTickIndex at hhi
    exact (tickPrice_le_max (by omega) hhi).trans_lt (by norm_num [maxSqrtPriceX64])
  set pl := tickPrice lo
  set pu := tickPrice hi
  set q := rangePrice lo hi p
  have h1 : l * (pu - q) * 2 ^ 64 ≤ (2 ^ 64 - 1) * (pu * q) :=
    (roundDiv_true_le_iff (Nat.mul_pos (by omega) (by omega)) _).1 (Nat.le_sub_one_of_lt hA)
  have h2 : l * (q - pl) ≤ (2 ^ 64 - 1) * 2 ^ 64 :=
    (roundDiv_true_le_iff (by norm_num) _).1 (Nat.le_sub_one_of_lt hB)
  have h3 : pu * q ≤ pu * pu := Nat.mul_le_mul_left _ hupp
  -- the two parts of the range add up
  have hsum : l * (pu - pl) = l * (pu - q) + l * (q - pl) := by
    rw [← mul_add]
    congr 1
    omega
  have hwhole : l * (pu - pl) ≤ pu * pu + 2 ^ 128 := by omega
  have hpu : pu ≤ 2 ^ 17 * (pu - pl) := by omega
  have hgap : 2 ^ 16 ≤ pu - pl := by omega
  by_contra hcon
  have hbig : 2 ^ 114 * (pu - pl) ≤ l * (pu - pl) := Nat.mul_le_mul_right _ (not_lt.1 hcon)
  have hsq : pu * pu ≤ 2 ^ 96 * (2 ^ 17 * (pu - pl)) := Nat.mul_le_mul hmax.le hpu
  omega

/-- **The amounts of a change of liquidity are returned** when they fit a `u64`, also when they
are rounded up.

**Proof sketch.** By the place of the tick index: below the range only token A is needed, above it
only token B, and inside it both. In each case the amounts are those of the clamped price, and
fit. -/
theorem calculateLiquidityTokenDeltas_fits {position : Position} {delta : ℤ} (hprice : PriceAt c p)
    (hlo : minTickIndex ≤ position.tickLowerIndex)
    (hlt : position.tickLowerIndex < position.tickUpperIndex)
    (hhi : position.tickUpperIndex ≤ maxTickIndex) (hdelta : delta ≠ 0)
    (hA : rangeDelta .A position.tickLowerIndex position.tickUpperIndex p delta.natAbs true <
      2 ^ 64)
    (hB : rangeDelta .B position.tickLowerIndex position.tickUpperIndex p delta.natAbs true <
      2 ^ 64) :
    calculateLiquidityTokenDeltas c p position delta =
      .ok (rangeDelta .A position.tickLowerIndex position.tickUpperIndex p delta.natAbs
          (decide (delta > 0)),
        rangeDelta .B position.tickLowerIndex position.tickUpperIndex p delta.natAbs
          (decide (delta > 0))) := by
  obtain ⟨l, hl⟩ : ∃ l, delta.natAbs = l := ⟨_, rfl⟩
  obtain ⟨r, hr⟩ : ∃ r, decide (delta > 0) = r := ⟨_, rfl⟩
  rw [hl] at hA hB
  rw [hl, hr]
  have hbound := (liquidity_lt_of_rangeDelta hlo hlt hhi hA hB).trans
    (show 2 ^ 114 < 2 ^ 128 by norm_num)
  have hle := tickPrice_le_of_le hlo hlt.le hhi
  have hlopos := (tickPrice_bounds hlo (hlt.le.trans hhi)).1
  have hmax : tickPrice position.tickUpperIndex ≤ maxSqrtPriceX64 := by
    unfold minTickIndex at hlo
    unfold maxTickIndex at hhi
    exact tickPrice_le_max (by omega) hhi
  have hrange := hprice.rangePrice_eq hlo hlt hhi
  have hlow : tickPrice position.tickLowerIndex ≤
      rangePrice position.tickLowerIndex position.tickUpperIndex p := Ranges.lower_le_clamp _ _ _
  have hupp : rangePrice position.tickLowerIndex position.tickUpperIndex p ≤
      tickPrice position.tickUpperIndex := Ranges.clamp_le_upper _ hle
  have hretA := getAmountDeltaA_returns (r := r) (hlopos.trans_le hlow) hupp hmax hbound hA
  have hretB := getAmountDeltaB_returns (r := r) hlow (lt_of_le_of_lt (by
    cases r with
    | true => exact le_rfl
    | false => exact roundDiv_false_le _ _ true) hB)
  unfold calculateLiquidityTokenDeltas
  rw [if_neg hdelta, sqrtPriceFromTickIndex_eq (hlt.le.trans hhi), sqrtPriceFromTickIndex_eq hhi]
  simp only [Res.ok_bind, hl, hr]
  unfold rangeDelta
  rcases lt_or_ge c position.tickLowerIndex with hcl | hcl
  · rw [if_pos hcl] at hrange ⊢
    rw [hrange] at hretA ⊢
    rw [hretA, deltaB_self]
    rfl
  rw [if_neg (not_lt.2 hcl)] at hrange ⊢
  rcases lt_or_ge c position.tickUpperIndex with hch | hch
  · rw [if_pos hch] at hrange ⊢
    rw [hrange] at hretA hretB ⊢
    rw [hretA, Res.ok_bind, hretB]
    rfl
  · rw [if_neg (not_lt.2 hch)] at hrange ⊢
    rw [hrange] at hretB ⊢
    rw [hretB, deltaA_self]
    rfl

/-- The amounts of a deposit are returned when they fit a `u64`. -/
theorem calculateLiquidityTokenDeltas_returns {position : Position} (hprice : PriceAt c p)
    (hlo : minTickIndex ≤ position.tickLowerIndex)
    (hlt : position.tickLowerIndex < position.tickUpperIndex)
    (hhi : position.tickUpperIndex ≤ maxTickIndex) (hl : 0 < l)
    (hA : rangeDelta .A position.tickLowerIndex position.tickUpperIndex p l true < 2 ^ 64)
    (hB : rangeDelta .B position.tickLowerIndex position.tickUpperIndex p l true < 2 ^ 64) :
    calculateLiquidityTokenDeltas c p position l =
      .ok (rangeDelta .A position.tickLowerIndex position.tickUpperIndex p l true,
        rangeDelta .B position.tickLowerIndex position.tickUpperIndex p l true) := by
  have hpos : (l : ℤ) > 0 := by exact_mod_cast hl
  have h := calculateLiquidityTokenDeltas_fits hprice hlo hlt hhi hpos.ne' hA hB
  rw [Int.natAbs_natCast, decide_eq_true hpos] at h
  exact h

end Deposit

/-! ## Error codes -/

section Avoids

variable {α β : Type} {e : ErrorCode}

/-- A computation does not stop with an error code. -/
def Res.Avoids (x : Res α) (e : ErrorCode) : Prop := x ≠ err e

/-- A success is not the error. -/
lemma Res.Avoids.ok (a : α) : Res.Avoids (.ok a) e := by
  unfold Res.Avoids err
  exact fun h => by cases h

/-- Another error is not the error. -/
lemma Res.Avoids.err {e' : ErrorCode} (h : e' ≠ e) : (NemoSwap.err e' : Res α).Avoids e := by
  unfold Res.Avoids NemoSwap.err
  exact fun heq => h (by injection heq with heq; injection heq)

/-- A panic is not an error of the program. -/
lemma Res.Avoids.panicked : Res.Avoids (.error .panicked : Res α) e := by
  unfold Res.Avoids NemoSwap.err
  exact fun h => by injection h with h; cases h

/-- A constraint of an account is not an error of the program. -/
lemma Res.Avoids.constraint : Res.Avoids (.error .constraint : Res α) e := by
  unfold Res.Avoids NemoSwap.err
  exact fun h => by injection h with h; cases h

/-- `ok_or` with another error avoids the error. -/
lemma Res.Avoids.okOr {x : Option α} {e' : ErrorCode} (h : e' ≠ e) :
    (NemoSwap.okOr x e').Avoids e := by
  cases x with
  | none => exact Res.Avoids.err h
  | some a => exact Res.Avoids.ok a

/-- A sequence of steps avoids the error if each step does. -/
theorem Res.Avoids.bind {x : Res α} {f : α → Res β} (hx : x.Avoids e)
    (hf : ∀ a, x = .ok a → (f a).Avoids e) : (x >>= f).Avoids e := by
  cases x with
  | ok a => exact hf a rfl
  | error failure =>
    unfold Res.Avoids NemoSwap.err at hx ⊢
    rw [Res.error_bind]
    exact fun h => hx (by injection h with h; rw [h])

/-- A branch avoids the error if both sides do, each under its condition. -/
lemma Res.Avoids.ite {c : Prop} [Decidable c] {x y : Res α} (hx : c → x.Avoids e)
    (hy : ¬c → y.Avoids e) : (if c then x else y).Avoids e := by
  split_ifs with h
  · exact hx h
  · exact hy h

end Avoids

/-! ## Changing liquidity does not exceed a limit -/

/-- Adding to the liquidity does not exceed the maximum of a token. -/
lemma addLiquidityDelta_avoids (l : ℕ) (delta : ℤ) :
    (addLiquidityDelta l delta).Avoids .TokenMaxExceeded := by
  unfold addLiquidityDelta
  exact .ite (fun _ => .ok _) fun _ =>
    .ite (fun _ => .okOr (by decide)) fun _ => .okOr (by decide)

/-- A remainder does not exceed the maximum of a token. -/
lemma remI32_avoids (a b : ℤ) : (remI32 a b).Avoids .TokenMaxExceeded := by
  unfold remI32
  exact .ite (fun _ => .panicked) fun _ => .ok _

/-- Finding a tick in its array does not exceed the maximum of a token. -/
lemma checkedOffset_avoids (array : TickArray) (t : ℤ) (ts : ℕ) :
    (array.checkedOffset t ts).Avoids .TokenMaxExceeded := by
  unfold TickArray.checkedOffset
  refine .ite (fun _ => .err (by decide)) fun _ => .bind ?_ fun _ _ => ?_
  · unfold Tick.checkIsUsableTick
    exact .ite (fun _ => .ok _) fun _ => .bind (remI32_avoids _ _) fun _ _ => .ok _
  refine .ite (fun _ => .err (by decide)) fun _ => .bind ?_ fun _ _ => ?_
  · unfold TickArray.tickOffset
    exact .ite (fun _ => .err (by decide)) fun _ => .ok _
  refine .ite (fun _ => .err (by decide)) fun _ => ?_
  split
  · exact .ok _
  · exact .panicked

/-- Changing the liquidity of a tick does not exceed the maximum of a token. -/
lemma nextTickModifyLiquidityUpdate_avoids (tick : Tick) (t c : ℤ) (gA gB : Growth)
    (infos : Fin numRewards → WhirlpoolRewardInfo) (delta : ℤ) (upper : Bool) :
    (nextTickModifyLiquidityUpdate tick t c gA gB infos delta upper).Avoids .TokenMaxExceeded := by
  unfold nextTickModifyLiquidityUpdate
  refine .ite (fun _ => .ok _) fun _ => .bind (addLiquidityDelta_avoids _ _) fun _ _ => ?_
  exact .ite (fun _ => .ok _) fun _ => .bind (.okOr (by decide)) fun _ _ => .ok _

/-- Computing a change of liquidity does not exceed the maximum of a token: only the amounts of the
change, which come after it, can.

**Proof sketch.** The computation is followed from step to step, and none of its functions reports
this error. -/
lemma calculateModifyLiquidity_avoids (w : Whirlpool) (position : Position)
    (lower upper : TickArray) (delta : ℤ) (timestamp : ℕ) :
    (calculateModifyLiquidity w position lower upper delta timestamp).Avoids
      .TokenMaxExceeded := by
  unfold calculateModifyLiquidity TickArray.getTick
  refine .bind (.bind (checkedOffset_avoids _ _ _) fun _ _ => .ok _) fun _ _ => ?_
  refine .bind (.bind (checkedOffset_avoids _ _ _) fun _ _ => .ok _) fun _ _ => ?_
  unfold calculateModifyLiquidity'
  refine .ite (fun _ => .err (by decide)) fun _ => .bind ?_ fun _ _ => .bind ?_ fun _ _ => ?_
  · unfold nextWhirlpoolRewardInfos
    exact .ite (fun _ => .err (by decide)) fun _ => .ite (fun _ => .ok _) fun _ => .ok _
  · unfold nextWhirlpoolLiquidity
    exact .ite (fun _ => addLiquidityDelta_avoids _ _) fun _ => .ok _
  refine .bind (nextTickModifyLiquidityUpdate_avoids _ _ _ _ _ _ _ _) fun _ _ => ?_
  refine .bind (nextTickModifyLiquidityUpdate_avoids _ _ _ _ _ _ _ _) fun _ _ => ?_
  refine .bind ?_ fun _ _ => .ok _
  unfold nextPositionModifyLiquidityUpdate
  exact .bind (addLiquidityDelta_avoids _ _) fun _ _ => .ok _

namespace Pool

variable {pool : Pool} {earned : Earnings} {key : Pubkey} {auth : PositionAuthority}

/-- Checking the owner of a position does not exceed the maximum of a token. -/
lemma getOwnedPosition_avoids (pool : Pool) (key : Pubkey) (auth : PositionAuthority) :
    (pool.getOwnedPosition key auth).Avoids .TokenMaxExceeded := by
  have howner : ∀ expected owner isSigner,
      (validateOwner expected owner isSigner).Avoids .TokenMaxExceeded := fun _ _ _ => by
    unfold validateOwner
    exact .ite (fun _ => .err (by decide)) fun _ => .ok _
  unfold getOwnedPosition getPosition
  refine .bind (.ite (fun _ => .ok _) fun _ => .constraint) fun _ _ => ?_
  refine .ite (fun _ => .bind ?_ fun _ _ => .ok _) fun _ => .constraint
  unfold verifyPositionAuthority
  exact .ite (fun _ => .bind (howner _ _ _) fun _ _ =>
    .ite (fun _ => .err (by decide)) fun _ => .ok _) fun _ => howner _ _ _

/-- Loading a tick array does not exceed the maximum of a token. -/
lemma getTickArray_avoids (pool : Pool) (start : ℤ) :
    (pool.getTickArray start).Avoids .TokenMaxExceeded := by
  unfold getTickArray
  split
  · exact .ok _
  · exact .constraint

/-- Storing a change of liquidity does not exceed the maximum of a token. -/
lemma syncModifyLiquidityValues_avoids (pool : Pool) (key : Pubkey) (arrayLower arrayUpper : ℤ)
    (update : ModifyLiquidityUpdate) (timestamp : ℕ) :
    (pool.syncModifyLiquidityValues key arrayLower arrayUpper update timestamp).Avoids
      .TokenMaxExceeded := by
  unfold syncModifyLiquidityValues TickArray.updateTick
  refine .bind (getTickArray_avoids _ _) fun _ _ => ?_
  refine .bind (.bind (checkedOffset_avoids _ _ _) fun _ _ => .ok _) fun _ _ => ?_
  refine .bind (getTickArray_avoids _ _) fun _ _ => ?_
  exact .bind (.bind (checkedOffset_avoids _ _ _) fun _ _ => .ok _) fun _ _ => .ok _

/-- After the writes, the token amounts are those of the position before them. -/
lemma syncModifyLiquidityValues_deltas (hs : pool.Sound earned) {arrayLower arrayUpper : ℤ}
    {update : ModifyLiquidityUpdate} {timestamp : ℕ} {pool' : Pool}
    (h : pool.syncModifyLiquidityValues key arrayLower arrayUpper update timestamp = .ok pool')
    (delta : ℤ) :
    calculateLiquidityTokenDeltas pool'.whirlpool.tickCurrentIndex pool'.whirlpool.sqrtPrice
        (pool'.position key) delta =
      calculateLiquidityTokenDeltas pool.whirlpool.tickCurrentIndex pool.whirlpool.sqrtPrice
        (pool.position key) delta := by
  obtain ⟨-, hposition, hw, -⟩ := syncModifyLiquidityValues_eq_ok hs h
  rw [hposition, hw, Function.update_self]
  rfl

/-- With the amounts given, `increase_liquidity` and `decrease_liquidity` do not stop with
`TokenMaxExceeded` before the transfers.

**Proof sketch.** The steps before the amounts do not stop with this error, one lemma each; the
amounts are returned by `calculateLiquidityTokenDeltas_fits`. -/
lemma modifyLiquidity_avoids (hs : pool.Sound earned) {arrayLower arrayUpper : ℤ}
    {liquidityAmount : BitVec 128} {clock : Int64} {amounts : ℕ × ℕ}
    (h : calculateLiquidityTokenDeltas pool.whirlpool.tickCurrentIndex pool.whirlpool.sqrtPrice
      (pool.position key) liquidityAmount.toNat = .ok amounts) :
    (pool.modifyLiquidity key auth arrayLower arrayUpper liquidityAmount true clock).Avoids
        .TokenMaxExceeded ∧
      ∀ pool' amounts', pool.modifyLiquidity key auth arrayLower arrayUpper liquidityAmount true
        clock = .ok (pool', amounts') → amounts' = amounts := by
  have hdeltas : ∀ delta update timestamp pool₁,
      convertToLiquidityDelta liquidityAmount.toNat true = .ok delta →
      pool.syncModifyLiquidityValues key arrayLower arrayUpper update timestamp = .ok pool₁ →
      calculateLiquidityTokenDeltas pool₁.whirlpool.tickCurrentIndex pool₁.whirlpool.sqrtPrice
        (pool₁.position key) delta = .ok amounts := fun delta update timestamp pool₁ hd hsync => by
    obtain ⟨-, rfl⟩ := convertToLiquidityDelta_eq_ok.1 hd
    rw [if_pos rfl, syncModifyLiquidityValues_deltas hs hsync, h]
  constructor
  · unfold modifyLiquidity
    refine .bind (getOwnedPosition_avoids _ _ _) fun position hp => ?_
    obtain ⟨-, rfl⟩ := getOwnedPosition_eq_ok hp
    refine .bind (getTickArray_avoids _ _) fun lower _ => ?_
    refine .bind (getTickArray_avoids _ _) fun upper _ => .bind ?_ fun _ _ => ?_
    · unfold Whirlpool.requireEnabled
      exact .ite (fun _ => .err (by decide)) fun _ => .ok _
    refine .ite (fun _ => .err (by decide)) fun _ => .bind ?_ fun delta hd => .bind ?_ fun t _ => ?_
    · unfold convertToLiquidityDelta
      exact .ite (fun _ => .err (by decide)) fun _ => .ok _
    · unfold toTimestampU64
      exact .ite (fun _ => .err (by decide)) fun _ => .ok _
    refine .bind (calculateModifyLiquidity_avoids _ _ _ _ _ _) fun update _ => ?_
    refine .bind (syncModifyLiquidityValues_avoids _ _ _ _ _ _) fun pool₁ hsync => ?_
    rw [hdeltas _ _ _ _ hd hsync, Res.ok_bind]
    exact .ok _
  · intro pool' amounts' hok
    unfold modifyLiquidity at hok
    rw [Res.bind_eq_ok] at hok
    obtain ⟨position, hp, hok⟩ := hok
    obtain ⟨-, rfl⟩ := getOwnedPosition_eq_ok hp
    simp only [Res.bind_eq_ok, ite_err_eq_ok] at hok
    obtain ⟨_, -, _, -, -, -, -, delta, hd, _, -, update, -, pool₁, hsync, deltas, hcalc, hok⟩ :=
      hok
    rw [hdeltas _ _ _ _ hd hsync, Except.ok.injEq] at hcalc
    rw [Res.pure_eq_ok, Except.ok.injEq] at hok
    rw [hcalc]
    exact (Prod.mk.inj hok).2.symm

/-- **A deposit within its limits does not exceed them**: `increase_liquidity` fails with
`TokenMaxExceeded` only if an amount exceeds its limit. -/
theorem increaseLiquidity_avoids (hs : pool.Sound earned) {arrayLower arrayUpper : ℤ}
    {liquidityAmount : BitVec 128} {tokenMaxA tokenMaxB : UInt64} {clock : Int64}
    {funds : OwnerFunds} {amounts : ℕ × ℕ}
    (h : calculateLiquidityTokenDeltas pool.whirlpool.tickCurrentIndex pool.whirlpool.sqrtPrice
      (pool.position key) liquidityAmount.toNat = .ok amounts)
    (hA : amounts.1 ≤ tokenMaxA.toNat) (hB : amounts.2 ≤ tokenMaxB.toNat) :
    (pool.increaseLiquidity key auth arrayLower arrayUpper liquidityAmount tokenMaxA tokenMaxB
      clock funds).Avoids .TokenMaxExceeded := by
  have htransfer : ∀ (owner : UInt64) (vault amount : ℕ),
      (transferFromOwnerToVault owner vault amount).Avoids .TokenMaxExceeded := fun _ _ _ => by
    unfold transferFromOwnerToVault Res.Avoids err
    split_ifs <;> simp
  obtain ⟨havoids, hamounts⟩ :=
    @modifyLiquidity_avoids _ _ _ auth hs arrayLower arrayUpper _ clock _ h
  unfold increaseLiquidity
  refine .bind havoids ?_
  rintro ⟨pool', deltaA, deltaB⟩ hok
  obtain rfl := hamounts _ _ hok
  simp only []
  rw [if_neg (not_lt.2 hA), if_neg (not_lt.2 hB)]
  exact .bind (htransfer _ _ _) fun _ _ => .bind (htransfer _ _ _) fun _ _ => .ok _

end Pool

end NemoSwap
