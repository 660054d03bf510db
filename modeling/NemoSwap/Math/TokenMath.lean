import NemoSwap.Math.TickMath
import NemoSwap.Math.U256Div

set_option relaxedAutoImplicit false
set_option autoImplicit false

/-!
# `token_math.rs` and `liquidity_math.rs`: token amounts and prices

The amount of each token between two square-root prices, the price reached by a given amount,
and signed changes of liquidity.

## Main definitions

* `NemoSwap.getAmountDeltaA`, `NemoSwap.getAmountDeltaB` — token amounts between two prices.
* `NemoSwap.getNextSqrtPrice` — the price reached by a given amount.
* `NemoSwap.addLiquidityDelta`, `NemoSwap.convertToLiquidityDelta` — liquidity changes.
* `NemoSwap.deltaA`, `NemoSwap.deltaB` — the mathematical amounts.

## Main results

* `NemoSwap.getAmountDeltaA_eq_ok`, `NemoSwap.getAmountDeltaB_eq_ok` — successful calls return
  the rounded mathematical amounts.
* `NemoSwap.getNextSqrtPriceFromA_eq_ok`, `NemoSwap.getNextSqrtPriceFromB_eq_ok` — the prices.
-/

namespace NemoSwap

/-- `MAX_FEE_RATE`. -/
def maxFeeRate : ℕ := 10000

/-- `FEE_RATE_MUL_VALUE`. -/
def feeRateMulValue : ℕ := 1000000

/-- `MAX_PROTOCOL_FEE_RATE`. -/
def maxProtocolFeeRate : ℕ := 2500

/-- `PROTOCOL_FEE_RATE_MUL_VALUE`. -/
def protocolFeeRateMulValue : ℕ := 10000

/-! ## Token amounts -/

/-- `increasing_price_order`. -/
def increasingPriceOrder (sqrtPrice0 sqrtPrice1 : ℕ) : ℕ × ℕ :=
  if sqrtPrice0 > sqrtPrice1 then (sqrtPrice1, sqrtPrice0) else (sqrtPrice0, sqrtPrice1)

/-- The quotient of a `U256Muldiv` division, rounded up if asked and needed: the lines shared by
`get_amount_delta_a` and `div_round_up_if_u256`. -/
def divRoundUpIfU256 (n d : U256Muldiv) (roundUp : Bool) : Res ℕ := do
  let (quotient, remainder) ← n.div d roundUp
  if roundUp && !remainder.isZero then (quotient.add (U256Muldiv.new 0 1)).tryIntoU128
  else quotient.tryIntoU128

/-- `get_amount_delta_a`. -/
def getAmountDeltaA (sqrtPrice0 sqrtPrice1 liquidity : ℕ) (roundUp : Bool) : Res ℕ := do
  let (sqrtPriceLower, sqrtPriceUpper) := increasingPriceOrder sqrtPrice0 sqrtPrice1
  let sqrtPriceDiff := sqrtPriceUpper - sqrtPriceLower
  let numerator ←
    okOr (U256Muldiv.mulU256 liquidity sqrtPriceDiff).checkedShiftWordLeft .MultiplicationOverflow
  let denominator := U256Muldiv.mulU256 sqrtPriceUpper sqrtPriceLower
  let result ← divRoundUpIfU256 numerator denominator roundUp
  if result > 2 ^ 64 - 1 then err .TokenMaxExceeded else return result

/-- `get_amount_delta_b`. -/
def getAmountDeltaB (sqrtPrice0 sqrtPrice1 liquidity : ℕ) (roundUp : Bool) : Res ℕ :=
  let (priceLower, priceUpper) := increasingPriceOrder sqrtPrice0 sqrtPrice1
  checkedMulShiftRightRoundUpIf liquidity (priceUpper - priceLower) roundUp

/-! ## Prices -/

/-- `get_next_sqrt_price_from_a_round_up`. -/
def getNextSqrtPriceFromARoundUp (sqrtPrice liquidity amount : ℕ)
    (amountSpecifiedIsInput : Bool) : Res ℕ :=
  if amount = 0 then .ok sqrtPrice
  else do
    let product := U256Muldiv.mulU256 sqrtPrice amount
    let numerator ←
      okOr (U256Muldiv.mulU256 liquidity sqrtPrice).checkedShiftWordLeft .MultiplicationOverflow
    let liquidityShiftLeft := (U256Muldiv.new 0 liquidity).shiftWordLeft
    if !amountSpecifiedIsInput && liquidityShiftLeft.lte product then err .DivideByZero
    else
      let denominator :=
        if amountSpecifiedIsInput then liquidityShiftLeft.add product
        else liquidityShiftLeft.sub product
      let price ← divRoundUpIfU256 numerator denominator true
      if price < minSqrtPriceX64 then err .TokenMinSubceeded
      else if price > maxSqrtPriceX64 then err .TokenMaxExceeded
      else return price

/-- `get_next_sqrt_price_from_b_round_down`. -/
def getNextSqrtPriceFromBRoundDown (sqrtPrice liquidity amount : ℕ)
    (amountSpecifiedIsInput : Bool) : Res ℕ := do
  let amountX64 := amount <<< q64Resolution
  let delta ← divRoundUpIf amountX64 liquidity (!amountSpecifiedIsInput)
  if amountSpecifiedIsInput then okOr (checkedAdd 128 sqrtPrice delta) .SqrtPriceOutOfBounds
  else okOr (checkedSub sqrtPrice delta) .SqrtPriceOutOfBounds

/-- `get_next_sqrt_price`. -/
def getNextSqrtPrice (sqrtPrice liquidity amount : ℕ) (amountSpecifiedIsInput aToB : Bool) :
    Res ℕ :=
  if amountSpecifiedIsInput = aToB then
    getNextSqrtPriceFromARoundUp sqrtPrice liquidity amount amountSpecifiedIsInput
  else getNextSqrtPriceFromBRoundDown sqrtPrice liquidity amount amountSpecifiedIsInput

/-! ## Liquidity -/

/-- `add_liquidity_delta`. -/
def addLiquidityDelta (liquidity : ℕ) (delta : ℤ) : Res ℕ :=
  if delta = 0 then .ok liquidity
  else if delta > 0 then okOr (checkedAdd 128 liquidity delta.natAbs) .LiquidityOverflow
  else okOr (checkedSub liquidity delta.natAbs) .LiquidityUnderflow

/-- `convert_to_liquidity_delta`. -/
def convertToLiquidityDelta (liquidityAmount : ℕ) (positive : Bool) : Res ℤ :=
  if liquidityAmount > 2 ^ 127 - 1 then err .LiquidityTooHigh
  else return if positive then (liquidityAmount : ℤ) else -(liquidityAmount : ℤ)

/-- A successful `add_liquidity_delta` is exact. -/
theorem addLiquidityDelta_eq_ok {l m : ℕ} {d : ℤ} (h : addLiquidityDelta l d = .ok m) :
    (m : ℤ) = l + d := by
  unfold addLiquidityDelta at h
  split_ifs at h with h0 h1
  · rw [Except.ok.injEq] at h
    omega
  · rw [okOr_eq_ok, checkedAdd_eq_some] at h
    omega
  · rw [okOr_eq_ok, checkedSub_eq_some] at h
    omega

/-- `add_liquidity_delta` succeeds where the exact sum is a `u128`. -/
theorem exists_addLiquidityDelta_eq_ok {l m : ℕ} {d : ℤ} (h : (m : ℤ) = l + d) (hm : m < 2 ^ 128) :
    addLiquidityDelta l d = .ok m := by
  unfold addLiquidityDelta
  split_ifs with h0 h1
  · rw [Except.ok.injEq]
    omega
  · rw [okOr_eq_ok, checkedAdd_eq_some]
    omega
  · rw [okOr_eq_ok, checkedSub_eq_some]
    omega

/-- A liquidity that `add_liquidity_delta` returns is a `u128`. -/
theorem addLiquidityDelta_lt {l m : ℕ} {d : ℤ} (hl : l < 2 ^ 128)
    (h : addLiquidityDelta l d = .ok m) : m < 2 ^ 128 := by
  unfold addLiquidityDelta at h
  split_ifs at h with h0 h1
  · rw [Except.ok.injEq] at h
    omega
  · rw [okOr_eq_ok, checkedAdd_eq_some] at h
    omega
  · rw [okOr_eq_ok, checkedSub_eq_some] at h
    omega

/-- A change of liquidity can be made exactly of an amount below `2 ^ 127`, with either sign. -/
theorem convertToLiquidityDelta_eq_ok {n : ℕ} {positive : Bool} {d : ℤ} :
    convertToLiquidityDelta n positive = .ok d ↔
      n < 2 ^ 127 ∧ d = if positive then (n : ℤ) else -(n : ℤ) := by
  unfold convertToLiquidityDelta
  rw [ite_err_eq_ok, Res.pure_eq_ok, Except.ok.injEq]
  constructor
  · rintro ⟨h, rfl⟩
    exact ⟨by omega, rfl⟩
  · rintro ⟨h, rfl⟩
    exact ⟨by omega, rfl⟩

/-! ## The mathematical amounts -/

/-- The amount of token A between two prices: `liquidity * (1 / lower - 1 / upper)` in Q64.64,
rounded. -/
def deltaA (lower upper liquidity : ℕ) (roundUp : Bool) : ℕ :=
  roundDiv (liquidity * (upper - lower) * 2 ^ 64) (upper * lower) roundUp

/-- The amount of token B between two prices: `liquidity * (upper - lower)` in Q64.64,
rounded. -/
def deltaB (lower upper liquidity : ℕ) (roundUp : Bool) : ℕ :=
  roundDiv (liquidity * (upper - lower)) (2 ^ 64) roundUp

/-- Two prices in order are their minimum and their maximum. -/
theorem increasingPriceOrder_eq (p q : ℕ) : increasingPriceOrder p q = (min p q, max p q) := by
  unfold increasingPriceOrder
  split_ifs with h
  · rw [min_eq_right h.le, max_eq_left h.le]
  · rw [min_eq_left (not_lt.1 h), max_eq_right (not_lt.1 h)]

/-- After a division that returns, `div_round_up_if_u256` casts the rounded quotient.

**Proof sketch.** The division is exact, and the remainder tells whether to round up. A quotient
that is rounded has a divisor of at least two, so adding one does not wrap. -/
theorem divRoundUpIfU256_of_div {n d q s : U256Muldiv} {r : Bool}
    (hdiv : n.div d r = .ok (q, s)) :
    ∃ y : U256Muldiv, divRoundUpIfU256 n d r = y.tryIntoU128 ∧
      y.toNat = roundDiv n.toNat d.toNat r := by
  obtain ⟨hd, hq, hrem⟩ := U256Muldiv.div_eq_ok hdiv
  unfold divRoundUpIfU256 roundDiv
  rw [hdiv, Res.ok_bind]
  simp only []
  cases r with
  | false =>
    simp only [Bool.false_and, Bool.false_eq_true, if_false]
    exact ⟨q, rfl, hq⟩
  | true =>
    have hz : s.isZero = true ↔ n.toNat % d.toNat = 0 := by
      rw [U256Muldiv.isZero_iff, hrem rfl]
    rcases Nat.eq_zero_or_pos (n.toNat % d.toNat) with h0 | h0
    · rw [hz.2 h0, h0]
      simp only [Bool.not_true, Bool.and_false, gt_iff_lt, lt_irrefl, decide_false,
        Bool.false_eq_true, if_false]
      exact ⟨q, rfl, hq⟩
    · have hnz : s.isZero = false := by
        rw [← Bool.not_eq_true, hz]
        omega
      have hge2 : 2 ≤ d.toNat := by
        by_contra hcon
        rw [show d.toNat = 1 by omega, Nat.mod_one] at h0
        omega
      -- a rounded quotient has a divisor of at least `2`, so adding one does not wrap
      have hhalf : n.toNat / d.toNat ≤ n.toNat / 2 := Nat.div_le_div_left hge2 (by norm_num)
      have hn := n.toNat_lt
      rw [hnz]
      simp only [Bool.not_false, Bool.and_self, if_true, Bool.true_and, decide_eq_true_eq,
        gt_iff_lt, if_pos h0]
      refine ⟨_, rfl, ?_⟩
      rw [U256Muldiv.toNat_add, U256Muldiv.toNat_new_zero (by norm_num), hq]
      omega

/-- A successful `div_round_up_if_u256` is the rounded quotient. -/
lemma divRoundUpIfU256_eq_ok {n d : U256Muldiv} {r : Bool} {m : ℕ}
    (h : divRoundUpIfU256 n d r = .ok m) :
    d.toNat ≠ 0 ∧ m = roundDiv n.toNat d.toNat r ∧ m < 2 ^ 128 := by
  have hdiv := h
  unfold divRoundUpIfU256 at hdiv
  rw [Res.bind_eq_ok] at hdiv
  obtain ⟨⟨q, s⟩, hdiv, -⟩ := hdiv
  obtain ⟨y, hy, hval⟩ := divRoundUpIfU256_of_div hdiv
  rw [hy, U256Muldiv.tryIntoU128_eq_ok] at h
  obtain ⟨hlt, rfl⟩ := h
  exact ⟨(U256Muldiv.div_eq_ok hdiv).1, hval, hlt⟩

/-- **`get_amount_delta_a` computes the rounded amount of token A.**

**Proof sketch.** The steps of the source are taken apart: the numerator and the denominator do not
wrap, the quotient is rounded by `divRoundUpIfU256_eq_ok`, and it is returned if it is a `u64`. -/
theorem getAmountDeltaA_eq_ok {p q l m : ℕ} {r : Bool} (hp : p < 2 ^ 128) (hq : q < 2 ^ 128)
    (hl : l < 2 ^ 128) (h : getAmountDeltaA p q l r = .ok m) :
    max p q * min p q ≠ 0 ∧ m = deltaA (min p q) (max p q) l r ∧ m < 2 ^ 64 := by
  unfold getAmountDeltaA at h
  rw [increasingPriceOrder_eq] at h
  simp only [Res.bind_eq_ok, okOr_eq_ok, U256Muldiv.checkedShiftWordLeft_eq_some] at h
  obtain ⟨n, ⟨hn, rfl⟩, x, hx, h⟩ := h
  rw [ite_err_eq_ok, Res.pure_eq_ok, Except.ok.injEq] at h
  obtain ⟨hlt, rfl⟩ := h
  have hmax : max p q < 2 ^ 128 := max_lt hp hq
  have hmin : min p q < 2 ^ 128 := lt_of_le_of_lt (min_le_left p q) hp
  obtain ⟨h1, h2, -⟩ := divRoundUpIfU256_eq_ok hx
  rw [U256Muldiv.toNat_shiftWordLeft, Nat.mod_eq_of_lt hn,
    U256Muldiv.toNat_mulU256 hl (lt_of_le_of_lt (Nat.sub_le _ _) hmax),
    U256Muldiv.toNat_mulU256 hmax hmin] at h2
  rw [U256Muldiv.toNat_mulU256 hmax hmin] at h1
  exact ⟨h1, h2, by omega⟩

/-- **`get_amount_delta_b` computes the rounded amount of token B.** -/
theorem getAmountDeltaB_eq_ok {p q l m : ℕ} {r : Bool} :
    getAmountDeltaB p q l r = .ok m ↔
      m = deltaB (min p q) (max p q) l r ∧ m < 2 ^ 64 := by
  unfold getAmountDeltaB
  rw [increasingPriceOrder_eq]
  simp only [checkedMulShiftRightRoundUpIf_eq_ok]
  unfold deltaB
  constructor
  · rintro ⟨h, rfl⟩
    exact ⟨rfl, h⟩
  · rintro ⟨rfl, h⟩
    exact ⟨h, rfl⟩

/-- **The price reached by an amount of token A**: `liquidity * price` divided by
`liquidity ± amount * price`, rounded up.

**Proof sketch.** The code in order: the shifted numerator and the sum or difference in the divisor
fit in 256 bits, so the words denote the numbers, and the division is that of
`divRoundUpIfU256_eq_ok`. -/
theorem getNextSqrtPriceFromA_eq_ok {p l a m : ℕ} {input : Bool} (hp : p < 2 ^ 128)
    (hl : l < 2 ^ 128) (ha : a < 2 ^ 64)
    (h : getNextSqrtPriceFromARoundUp p l a input = .ok m) :
    (a = 0 ∧ m = p) ∨ (a ≠ 0 ∧ minSqrtPriceX64 ≤ m ∧ m ≤ maxSqrtPriceX64 ∧
      (input = true → l * 2 ^ 64 + p * a ≠ 0 ∧
        m = roundDiv (l * p * 2 ^ 64) (l * 2 ^ 64 + p * a) true) ∧
      (input = false → p * a < l * 2 ^ 64 ∧
        m = roundDiv (l * p * 2 ^ 64) (l * 2 ^ 64 - p * a) true)) := by
  unfold getNextSqrtPriceFromARoundUp at h
  rcases eq_or_ne a 0 with ha0 | ha0
  · rw [if_pos ha0, Except.ok.injEq] at h
    exact Or.inl ⟨ha0, h.symm⟩
  refine Or.inr ⟨ha0, ?_⟩
  rw [if_neg ha0] at h
  simp only [Res.bind_eq_ok, okOr_eq_ok, U256Muldiv.checkedShiftWordLeft_eq_some] at h
  obtain ⟨n, ⟨hn, rfl⟩, h⟩ := h
  rw [ite_err_eq_ok, Res.bind_eq_ok] at h
  obtain ⟨hlte, x, hx, h⟩ := h
  rw [ite_err_eq_ok, ite_err_eq_ok, Res.pure_eq_ok, Except.ok.injEq] at h
  obtain ⟨hmin, hmax, rfl⟩ := h
  obtain ⟨h1, h2, -⟩ := divRoundUpIfU256_eq_ok hx
  have ha' : a < 2 ^ 128 := lt_trans ha (by norm_num)
  have hls : (U256Muldiv.new 0 l).shiftWordLeft.toNat = l * 2 ^ 64 := by
    have hlt : l * 2 ^ 64 < 2 ^ 256 :=
      (Nat.mul_lt_mul_of_pos_right hl (by positivity)).trans (by norm_num)
    rw [U256Muldiv.toNat_shiftWordLeft, U256Muldiv.toNat_new_zero hl, Nat.mod_eq_of_lt hlt]
  have hprod := U256Muldiv.toNat_mulU256 hp ha'
  have hsum : l * 2 ^ 64 + p * a < 2 ^ 256 := by
    calc l * 2 ^ 64 + p * a < 2 ^ 128 * 2 ^ 64 + 2 ^ 128 * 2 ^ 64 :=
          Nat.add_lt_add (Nat.mul_lt_mul_of_pos_right hl (by positivity)) (Nat.mul_lt_mul'' hp ha)
      _ ≤ 2 ^ 256 := by norm_num
  rw [U256Muldiv.toNat_shiftWordLeft, Nat.mod_eq_of_lt hn, U256Muldiv.toNat_mulU256 hl hp] at h2
  refine ⟨not_lt.1 hmin, not_lt.1 hmax, fun hi => ?_, fun hi => ?_⟩
  · rw [if_pos hi, U256Muldiv.toNat_add, hls, hprod,
      Nat.mod_eq_of_lt hsum] at h1 h2
    exact ⟨h1, h2⟩
  · rw [hi] at hlte
    have hle : p * a < l * 2 ^ 64 := by
      by_contra hcon
      refine hlte ?_
      rw [Bool.not_false, Bool.true_and, U256Muldiv.lte_iff, hls, hprod]
      omega
    rw [if_neg (by simp [hi]), U256Muldiv.toNat_sub (by rw [hls, hprod]; exact hle.le), hls,
      hprod] at h1 h2
    exact ⟨hle, h2⟩

/-- **The price reached by an amount of token B**: the price plus or minus
`amount / liquidity`, rounded towards the lower price.

**Proof sketch.** By the mode. The shifted amount divided by the liquidity is rounded down and
added, or rounded up and subtracted; the sum must fit, and the difference must not be negative. -/
theorem getNextSqrtPriceFromB_eq_ok {p l a m : ℕ} {input : Bool} :
    getNextSqrtPriceFromBRoundDown p l a input = .ok m ↔
      l ≠ 0 ∧ (input = true → p + a * 2 ^ 64 / l < 2 ^ 128 ∧ m = p + a * 2 ^ 64 / l) ∧
        (input = false → roundDiv (a * 2 ^ 64) l true ≤ p ∧
          m = p - roundDiv (a * 2 ^ 64) l true) := by
  unfold getNextSqrtPriceFromBRoundDown
  simp only [Res.bind_eq_ok, divRoundUpIf_eq_ok, Nat.shiftLeft_eq, q64Resolution]
  cases input with
  | true =>
    simp only [Bool.not_true, if_true, okOr_eq_ok, checkedAdd_eq_some, roundDiv_false]
    constructor
    · rintro ⟨_, ⟨h0, rfl⟩, h1, rfl⟩
      exact ⟨h0, fun _ => ⟨h1, rfl⟩, by simp⟩
    · rintro ⟨h0, h1, -⟩
      obtain ⟨h2, rfl⟩ := h1 trivial
      exact ⟨_, ⟨h0, rfl⟩, h2, rfl⟩
  | false =>
    simp only [Bool.not_false, Bool.false_eq_true, if_false, okOr_eq_ok, checkedSub_eq_some]
    constructor
    · rintro ⟨_, ⟨h0, rfl⟩, h1, rfl⟩
      exact ⟨h0, by simp, fun _ => ⟨h1, rfl⟩⟩
    · rintro ⟨h0, -, h1⟩
      obtain ⟨h2, rfl⟩ := h1 trivial
      exact ⟨_, ⟨h0, rfl⟩, h2, rfl⟩

end NemoSwap
