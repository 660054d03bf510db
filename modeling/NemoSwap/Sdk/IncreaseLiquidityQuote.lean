import NemoSwap.Pool.DepositAmounts
import NemoSwap.Pool.History
import NemoSwap.Sdk.PositionUtil
import NemoSwap.Sdk.PriceMath

set_option relaxedAutoImplicit false
set_option autoImplicit false

/-!
# `increase-liquidity-quote.ts`

The quote for a deposit of an amount of one of the tokens: the liquidity that the amount buys, and
the amounts of both tokens that the program will charge for it.

## Main definitions

* `NemoSwap.Sdk.increaseLiquidityQuoteByInputTokenWithParams` — the quote.
* `NemoSwap.Sdk.SufficientQuote` — the program charges what the quote says.
* `NemoSwap.Sdk.DegenerateDeposit` — the price is at the end of the range where the input token is
  worth no liquidity.

## Main results

* `NemoSwap.Sdk.quote_ok` — the quote of a deposit that is not degenerate.
* `NemoSwap.Sdk.depositQuote_sufficient_iff` — when the SDK returns a sufficient quote.

## Implementation notes

In range the liquidity is a quotient by the distance from the price to an end of the range, which
is zero at that end: at the lower end's own price, or one tick below the upper end after a swap
has crossed it leftwards.
-/

namespace NemoSwap

namespace Sdk

/-- `IncreaseLiquidityQuoteParam`. -/
structure IncreaseLiquidityQuoteParam where
  inputTokenAmount : BN
  inputTokenMint : Pubkey
  tokenMintA : Pubkey
  tokenMintB : Pubkey
  tickCurrentIndex : ℤ
  sqrtPrice : BN
  tickLowerIndex : ℤ
  tickUpperIndex : ℤ
  slippageTolerance : Percentage

/-- `IncreaseLiquidityQuote`. -/
structure IncreaseLiquidityQuote where
  tokenMaxA : BN
  tokenMaxB : BN
  tokenEstA : BN
  tokenEstB : BN
  liquidityAmount : BN
  deriving DecidableEq

/-- The quote for a token that the range does not take. -/
def zeroQuote : IncreaseLiquidityQuote := ⟨0, 0, 0, 0, 0⟩

section Quotes

variable (M : MathUtil)

/-- `quotePositionBelowRange`. -/
def quotePositionBelowRange (param : IncreaseLiquidityQuoteParam) :
    Except SdkError IncreaseLiquidityQuote :=
  if param.tokenMintA ≠ param.inputTokenMint then return zeroQuote
  else do
    let sqrtPriceLowerX64 := PriceMath.tickIndexToSqrtPriceX64 param.tickLowerIndex
    let sqrtPriceUpperX64 := PriceMath.tickIndexToSqrtPriceX64 param.tickUpperIndex
    let liquidityAmount ← getLiquidityFromTokenA M param.inputTokenAmount sqrtPriceLowerX64
      sqrtPriceUpperX64 false
    let tokenEstA ← getTokenAFromLiquidity M liquidityAmount sqrtPriceLowerX64 sqrtPriceUpperX64
      true
    let tokenMaxA ← adjustForSlippage tokenEstA param.slippageTolerance true
    return { tokenMaxA, tokenMaxB := 0, tokenEstA, tokenEstB := 0, liquidityAmount }

/-- `quotePositionInRange`. -/
def quotePositionInRange (param : IncreaseLiquidityQuoteParam) :
    Except SdkError IncreaseLiquidityQuote := do
  let sqrtPriceX64 := param.sqrtPrice
  let sqrtPriceLowerX64 := PriceMath.tickIndexToSqrtPriceX64 param.tickLowerIndex
  let sqrtPriceUpperX64 := PriceMath.tickIndexToSqrtPriceX64 param.tickUpperIndex
  let liquidityAmount ← (if param.tokenMintA = param.inputTokenMint then
      getLiquidityFromTokenA M param.inputTokenAmount sqrtPriceX64 sqrtPriceUpperX64 false
    else getLiquidityFromTokenB M param.inputTokenAmount sqrtPriceLowerX64 sqrtPriceX64 false)
  let tokenEstA ← getTokenAFromLiquidity M liquidityAmount sqrtPriceX64 sqrtPriceUpperX64 true
  let tokenEstB := getTokenBFromLiquidity M liquidityAmount sqrtPriceLowerX64 sqrtPriceX64 true
  let tokenMaxA ← adjustForSlippage tokenEstA param.slippageTolerance true
  let tokenMaxB ← adjustForSlippage tokenEstB param.slippageTolerance true
  return { tokenMaxA, tokenMaxB, tokenEstA, tokenEstB, liquidityAmount }

/-- `quotePositionAboveRange`. -/
def quotePositionAboveRange (param : IncreaseLiquidityQuoteParam) :
    Except SdkError IncreaseLiquidityQuote :=
  if param.tokenMintB ≠ param.inputTokenMint then return zeroQuote
  else do
    let sqrtPriceLowerX64 := PriceMath.tickIndexToSqrtPriceX64 param.tickLowerIndex
    let sqrtPriceUpperX64 := PriceMath.tickIndexToSqrtPriceX64 param.tickUpperIndex
    let liquidityAmount ← getLiquidityFromTokenB M param.inputTokenAmount sqrtPriceLowerX64
      sqrtPriceUpperX64 false
    let tokenEstB := getTokenBFromLiquidity M liquidityAmount sqrtPriceLowerX64 sqrtPriceUpperX64
      true
    let tokenMaxB ← adjustForSlippage tokenEstB param.slippageTolerance true
    return { tokenMaxA := 0, tokenMaxB, tokenEstA := 0, tokenEstB, liquidityAmount }

/-- `increaseLiquidityQuoteByInputTokenWithParams`. -/
def increaseLiquidityQuoteByInputTokenWithParams (param : IncreaseLiquidityQuoteParam) :
    Except SdkError IncreaseLiquidityQuote :=
  if !checkTickInBounds param.tickLowerIndex then .error .other
  else if !checkTickInBounds param.tickUpperIndex then .error .other
  else if ¬(param.inputTokenMint = param.tokenMintA ∨ param.inputTokenMint = param.tokenMintB) then
    .error .other
  else
    match getPositionStatus param.tickCurrentIndex param.tickLowerIndex param.tickUpperIndex with
    | .BelowRange => quotePositionBelowRange M param
    | .InRange => quotePositionInRange M param
    | .AboveRange => quotePositionAboveRange M param

end Quotes

/-- The parameters of a quote on a pool, as `increaseLiquidityQuoteByInputToken` gives them. -/
def depositParam (w : Whirlpool) (inputTokenMint : Pubkey) (inputTokenAmount : UInt64)
    (tickLowerIndex tickUpperIndex : ℤ) (slippageTolerance : Percentage) :
    IncreaseLiquidityQuoteParam :=
  { inputTokenAmount := (inputTokenAmount.toNat : ℤ), inputTokenMint
    tokenMintA := w.tokenMintA, tokenMintB := w.tokenMintB
    tickCurrentIndex := w.tickCurrentIndex, sqrtPrice := (w.sqrtPrice : ℤ)
    tickLowerIndex, tickUpperIndex, slippageTolerance }

/-! ## Sufficient quotes -/

/-- A deposit on a range of a pool uses at most the input, and when both amounts fit a `u64` the
program charges them: without slippage `increase_liquidity` does not exceed the limits. -/
structure SufficientQuote (pool : Pool) (param : IncreaseLiquidityQuoteParam)
    (quote : IncreaseLiquidityQuote) : Prop where
  input_le : (if param.inputTokenMint = param.tokenMintA then quote.tokenEstA
    else quote.tokenEstB) ≤ param.inputTokenAmount
  charged : 0 < quote.liquidityAmount → quote.tokenEstA < 2 ^ 64 → quote.tokenEstB < 2 ^ 64 →
    ∀ position : Position, position.tickLowerIndex = param.tickLowerIndex →
      position.tickUpperIndex = param.tickUpperIndex →
      ∃ deltaA deltaB : ℕ, calculateLiquidityTokenDeltas pool.whirlpool.tickCurrentIndex
          pool.whirlpool.sqrtPrice position quote.liquidityAmount = .ok (deltaA, deltaB) ∧
        quote.tokenEstA = deltaA ∧ quote.tokenEstB = deltaB
  accepted : 0 < quote.liquidityAmount → quote.tokenEstA < 2 ^ 64 → quote.tokenEstB < 2 ^ 64 →
    param.slippageTolerance.numerator = 0 →
    ∀ key auth arrayLower arrayUpper clock funds,
      (pool.position key).tickLowerIndex = param.tickLowerIndex →
      (pool.position key).tickUpperIndex = param.tickUpperIndex →
      pool.increaseLiquidity key auth arrayLower arrayUpper
        (BitVec.ofNat 128 quote.liquidityAmount.toNat) (UInt64.ofNat quote.tokenMaxA.toNat)
        (UInt64.ofNat quote.tokenMaxB.toNat) clock funds ≠ err .TokenMaxExceeded

/-- The price lies in the range, at the end where the input token is worth no liquidity. -/
def DegenerateDeposit (w : Whirlpool) (inputTokenMint : Pubkey) (lo hi : ℤ) : Prop :=
  lo ≤ w.tickCurrentIndex ∧ w.tickCurrentIndex < hi ∧
    w.sqrtPrice = if inputTokenMint = w.tokenMintA then tickPrice hi else tickPrice lo

/-! ## The quote of a liquidity -/

/-- `adjustForSlippage`, upwards. -/
def withSlippage (n : BN) (slippage : Percentage) : BN :=
  (n * (slippage.denominator + slippage.numerator)).tdiv slippage.denominator

/-- The quote of a liquidity on a range at a price: the amounts that the program charges. -/
def liquidityQuote (lo hi : ℤ) (p : ℕ) (slippage : Percentage) (l : ℕ) :
    IncreaseLiquidityQuote :=
  let tokenEstA : BN := rangeDelta .A lo hi p l true
  let tokenEstB : BN := rangeDelta .B lo hi p l true
  { tokenMaxA := withSlippage tokenEstA slippage, tokenMaxB := withSlippage tokenEstB slippage
    tokenEstA, tokenEstB, liquidityAmount := (l : ℤ) }

section Quote

variable {M : MathUtil} {slippage : Percentage} {w : Whirlpool} {mint : Pubkey} {amount : UInt64}
  {lo hi : ℤ} {pool : Pool} {earned : Earnings}

/-- An amount that is adjusted up for the slippage. -/
lemma adjustForSlippage_eq (h : slippage.denominator ≠ 0) (n : BN) :
    adjustForSlippage n slippage true = .ok (withSlippage n slippage) := by
  unfold adjustForSlippage BN.div
  rw [if_pos rfl, if_neg h]
  rfl

/-- Zero stays zero under any slippage. -/
@[simp] lemma withSlippage_zero (slippage : Percentage) : withSlippage 0 slippage = 0 := by
  unfold withSlippage
  rw [zero_mul, Int.zero_tdiv]

/-- Without slippage the amount stays. -/
lemma withSlippage_none (h : slippage.denominator ≠ 0) (h0 : slippage.numerator = 0) (n : BN) :
    withSlippage n slippage = n := by
  unfold withSlippage
  rw [h0, add_zero, Int.mul_tdiv_cancel _ h]

/-- No liquidity costs nothing. -/
lemma rangeDelta_zero (X : Token) (lo hi : ℤ) (p : ℕ) : rangeDelta X lo hi p 0 true = 0 := by
  cases X <;> simp [rangeDelta, deltaA, deltaB]

/-- No liquidity is worth nothing. -/
lemma liquidityQuote_zero (lo hi : ℤ) (p : ℕ) (slippage : Percentage) :
    liquidityQuote lo hi p slippage 0 = zeroQuote := by
  unfold liquidityQuote
  simp only [rangeDelta_zero, Nat.cast_zero]
  rw [show ((0 : ℤ) : BN) = 0 from rfl, withSlippage_zero]
  rfl

/-- What a quote says of the input token. -/
def inputEst (w : Whirlpool) (mint : Pubkey) (lo hi : ℤ) (l : ℕ) : ℕ :=
  if mint = w.tokenMintA then rangeDelta .A lo hi w.sqrtPrice l true
  else rangeDelta .B lo hi w.sqrtPrice l true

/-- The price of a tick within the bounds, as the SDK computes it. -/
lemma tickIndexToSqrtPrices_eq (hlt : lo < hi) (hhi : hi ≤ maxTickIndex) :
    PriceMath.tickIndexToSqrtPriceX64 lo = (tickPrice lo : ℤ) ∧
      PriceMath.tickIndexToSqrtPriceX64 hi = (tickPrice hi : ℤ) :=
  ⟨PriceMath.tickIndexToSqrtPriceX64_eq (hlt.le.trans hhi),
    PriceMath.tickIndexToSqrtPriceX64_eq hhi⟩

/-- The prices of two ticks within the bounds are in the strict order of the ticks. -/
lemma tickPrice_lt_of_lt (hlo : minTickIndex ≤ lo) (hlt : lo < hi) (hhi : hi ≤ maxTickIndex) :
    tickPrice lo < tickPrice hi := by
  unfold minTickIndex at hlo
  unfold maxTickIndex at hhi
  exact tickPrice_lt (by omega) hlt (by omega)

section Sides

variable (hM : M.RoundsUp) (hd : slippage.denominator ≠ 0) (hlo : minTickIndex ≤ lo)
  (hlt : lo < hi) (hhi : hi ≤ maxTickIndex)

include hM hd hlo hlt hhi

/-- Left of the range, token A buys liquidity and token B does not.

**Proof sketch.** The liquidity is that bought with the amount between the two ends, if the mint is
that of token A, and zero otherwise. -/
lemma quoteBelow_ok (hrange : rangePrice lo hi w.sqrtPrice = tickPrice lo) :
    ∃ l, quotePositionBelowRange M (depositParam w mint amount lo hi slippage) =
        .ok (liquidityQuote lo hi w.sqrtPrice slippage l) ∧
      inputEst w mint lo hi l ≤ amount.toNat := by
  have hpos := (tickPrice_bounds hlo (hlt.le.trans hhi)).1
  have hprices := tickPrice_lt_of_lt hlo hlt hhi
  obtain ⟨hlower, hupper⟩ := tickIndexToSqrtPrices_eq hlt hhi
  unfold quotePositionBelowRange depositParam inputEst
  simp only []
  by_cases hmint : w.tokenMintA = mint
  · refine ⟨boughtWithA amount.toNat (tickPrice lo) (tickPrice hi), ?_, ?_⟩
    · rw [if_neg (not_not.2 hmint), hlower, hupper, getLiquidityFromTokenA_eq hprices, ok_bind,
        getTokenAFromLiquidity_eq hM hpos hprices.le, ok_bind, adjustForSlippage_eq hd, ok_bind]
      unfold liquidityQuote rangeDelta
      simp only []
      rw [hrange, deltaB_self, Nat.cast_zero, withSlippage_zero]
      rfl
    · rw [if_pos hmint.symm, rangeDelta, hrange]
      exact deltaA_boughtWithA_le hpos hprices
  · refine ⟨0, ?_, ?_⟩
    · rw [if_pos hmint, liquidityQuote_zero]
      rfl
    · rw [rangeDelta_zero, rangeDelta_zero, ite_self]
      exact Nat.zero_le _

/-- Right of the range, token B buys liquidity and token A does not.

**Proof sketch.** The liquidity is that bought with the amount between the two ends, if the mint is
that of token B, and zero otherwise. -/
lemma quoteAbove_ok (hrange : rangePrice lo hi w.sqrtPrice = tickPrice hi) :
    ∃ l, quotePositionAboveRange M (depositParam w mint amount lo hi slippage) =
        .ok (liquidityQuote lo hi w.sqrtPrice slippage l) ∧
      inputEst w mint lo hi l ≤ amount.toNat := by
  have hprices := tickPrice_lt_of_lt hlo hlt hhi
  obtain ⟨hlower, hupper⟩ := tickIndexToSqrtPrices_eq hlt hhi
  unfold quotePositionAboveRange depositParam inputEst
  simp only []
  by_cases hmint : w.tokenMintB = mint
  · refine ⟨boughtWithB amount.toNat (tickPrice lo) (tickPrice hi), ?_, ?_⟩
    · rw [if_neg (not_not.2 hmint), hlower, hupper, getLiquidityFromTokenB_eq hprices, ok_bind,
        getTokenBFromLiquidity_eq hM hprices.le, adjustForSlippage_eq hd, ok_bind]
      unfold liquidityQuote rangeDelta
      simp only []
      rw [hrange, deltaA_self, Nat.cast_zero, withSlippage_zero]
      rfl
    · unfold rangeDelta
      rw [hrange, deltaA_self]
      split_ifs
      · exact Nat.zero_le _
      · exact deltaB_boughtWithB_le
  · refine ⟨0, ?_, ?_⟩
    · rw [if_pos hmint, liquidityQuote_zero]
      rfl
    · rw [rangeDelta_zero, rangeDelta_zero, ite_self]
      exact Nat.zero_le _

/-- In the range, away from the end where it is worth nothing, each token buys liquidity.

**Proof sketch.** Token A buys between the price and the upper end, token B between the lower end
and the price. The tokens of the liquidity are then quoted in the same way for both. -/
lemma quoteIn_ok (hrange : rangePrice lo hi w.sqrtPrice = w.sqrtPrice)
    (hne : w.sqrtPrice ≠ if mint = w.tokenMintA then tickPrice hi else tickPrice lo) :
    ∃ l, quotePositionInRange M (depositParam w mint amount lo hi slippage) =
        .ok (liquidityQuote lo hi w.sqrtPrice slippage l) ∧
      inputEst w mint lo hi l ≤ amount.toNat := by
  have hlopos := (tickPrice_bounds hlo (hlt.le.trans hhi)).1
  have hprices := tickPrice_lt_of_lt hlo hlt hhi
  obtain ⟨hlower, hupper⟩ := tickIndexToSqrtPrices_eq hlt hhi
  have hp1 : tickPrice lo ≤ w.sqrtPrice := hrange ▸ Ranges.lower_le_clamp _ _ _
  have hp2 : w.sqrtPrice ≤ tickPrice hi := hrange ▸ Ranges.clamp_le_upper _ hprices.le
  have hpos := hlopos.trans_le hp1
  -- once the liquidity is known, both tokens are quoted alike
  have hquote : ∀ l : ℕ, (if w.tokenMintA = mint then
        getLiquidityFromTokenA M (amount.toNat : ℤ) (w.sqrtPrice : ℤ) (tickPrice hi : ℤ) false
      else getLiquidityFromTokenB M (amount.toNat : ℤ) (tickPrice lo : ℤ) (w.sqrtPrice : ℤ)
        false) = .ok (l : ℤ) →
      quotePositionInRange M (depositParam w mint amount lo hi slippage) =
        .ok (liquidityQuote lo hi w.sqrtPrice slippage l) := fun l hl => by
    unfold quotePositionInRange depositParam
    simp only []
    rw [hlower, hupper, hl, ok_bind, getTokenAFromLiquidity_eq hM hpos hp2, ok_bind,
      getTokenBFromLiquidity_eq hM hp1, adjustForSlippage_eq hd, ok_bind,
      adjustForSlippage_eq hd, ok_bind]
    unfold liquidityQuote rangeDelta
    simp only []
    rw [hrange]
    rfl
  unfold inputEst
  by_cases hmint : mint = w.tokenMintA
  · rw [if_pos hmint] at hne
    have hlt2 := lt_of_le_of_ne hp2 hne
    refine ⟨boughtWithA amount.toNat w.sqrtPrice (tickPrice hi), hquote _ ?_, ?_⟩
    · rw [if_pos hmint.symm, getLiquidityFromTokenA_eq hlt2]
    · rw [if_pos hmint, rangeDelta, hrange]
      exact deltaA_boughtWithA_le hpos hlt2
  · rw [if_neg hmint] at hne
    have hlt1 := lt_of_le_of_ne hp1 hne.symm
    refine ⟨boughtWithB amount.toNat (tickPrice lo) w.sqrtPrice, hquote _ ?_, ?_⟩
    · rw [if_neg fun h => hmint h.symm, getLiquidityFromTokenB_eq hlt1]
    · rw [if_neg hmint, rangeDelta, hrange]
      exact deltaB_boughtWithB_le

end Sides

/-- The check accepts the ticks within the bounds. -/
lemma checkTickInBounds_eq {t : ℤ} (hlo : minTickIndex ≤ t) (hhi : t ≤ maxTickIndex) :
    checkTickInBounds t = true := by
  unfold checkTickInBounds
  rw [decide_eq_true hhi, decide_eq_true hlo]
  rfl

/-- After the checks, the quote is that of the position's status. -/
lemma increaseLiquidityQuote_eq (hlo : minTickIndex ≤ lo) (hlt : lo < hi)
    (hhi : hi ≤ maxTickIndex) (hmint : mint = w.tokenMintA ∨ mint = w.tokenMintB) :
    increaseLiquidityQuoteByInputTokenWithParams M (depositParam w mint amount lo hi slippage) =
      if w.tickCurrentIndex < lo then
        quotePositionBelowRange M (depositParam w mint amount lo hi slippage)
      else if w.tickCurrentIndex < hi then
        quotePositionInRange M (depositParam w mint amount lo hi slippage)
      else quotePositionAboveRange M (depositParam w mint amount lo hi slippage) := by
  unfold increaseLiquidityQuoteByInputTokenWithParams getPositionStatus
  rw [if_neg, if_neg, if_neg]
  · unfold depositParam
    split_ifs <;> rfl
  · exact not_not.2 hmint
  · unfold depositParam
    simp [checkTickInBounds_eq (hlo.trans hlt.le) hhi]
  · unfold depositParam
    simp [checkTickInBounds_eq hlo (hlt.le.trans hhi)]

/-- **The quote of a deposit that is not degenerate**: the amounts that the program charges for
some liquidity, of which the input token's is at most the input. -/
theorem quote_ok (hM : M.RoundsUp) (hd : slippage.denominator ≠ 0)
    (hprice : PriceAt w.tickCurrentIndex w.sqrtPrice) (hlo : minTickIndex ≤ lo) (hlt : lo < hi)
    (hhi : hi ≤ maxTickIndex) (hmint : mint = w.tokenMintA ∨ mint = w.tokenMintB)
    (h : ¬DegenerateDeposit w mint lo hi) :
    ∃ l, increaseLiquidityQuoteByInputTokenWithParams M
          (depositParam w mint amount lo hi slippage) =
        .ok (liquidityQuote lo hi w.sqrtPrice slippage l) ∧
      inputEst w mint lo hi l ≤ amount.toNat := by
  have hrange := hprice.rangePrice_eq hlo hlt hhi
  rw [increaseLiquidityQuote_eq hlo hlt hhi hmint]
  rcases lt_or_ge w.tickCurrentIndex lo with hcl | hcl
  · rw [if_pos hcl] at hrange ⊢
    exact quoteBelow_ok hM hd hlo hlt hhi hrange
  rw [if_neg (not_lt.2 hcl)] at hrange ⊢
  rcases lt_or_ge w.tickCurrentIndex hi with hch | hch
  · rw [if_pos hch] at hrange ⊢
    exact quoteIn_ok hM hd hlo hlt hhi hrange fun heq => h ⟨hcl, hch, heq⟩
  · rw [if_neg (not_lt.2 hch)] at hrange ⊢
    exact quoteAbove_ok hM hd hlo hlt hhi hrange

/-- A degenerate deposit makes the SDK divide by zero. -/
lemma quote_throws (hlo : minTickIndex ≤ lo) (hlt : lo < hi) (hhi : hi ≤ maxTickIndex)
    (hmint : mint = w.tokenMintA ∨ mint = w.tokenMintB) (h : DegenerateDeposit w mint lo hi) :
    increaseLiquidityQuoteByInputTokenWithParams M (depositParam w mint amount lo hi slippage) =
      .error .other := by
  obtain ⟨hcl, hch, hp⟩ := h
  obtain ⟨hlower, hupper⟩ := tickIndexToSqrtPrices_eq hlt hhi
  rw [increaseLiquidityQuote_eq hlo hlt hhi hmint, if_neg (not_lt.2 hcl), if_pos hch]
  unfold quotePositionInRange depositParam
  simp only []
  rw [hlower, hupper]
  by_cases hA : mint = w.tokenMintA
  · rw [if_pos hA] at hp
    rw [if_pos hA.symm, hp, getLiquidityFromTokenA_self]
    rfl
  · rw [if_neg hA] at hp
    rw [if_neg fun h => hA h.symm, hp, getLiquidityFromTokenB_self]
    rfl

/-- The program charges what the quote of a liquidity says.

**Proof sketch.** What is charged is the delta of the range, rounded up, and the quote is the same
delta. Its maxima are adjusted up, so they are not below it. -/
lemma liquidityQuote_sufficient (hs : pool.Sound earned) (hd : slippage.denominator ≠ 0)
    (hlo : minTickIndex ≤ lo) (hlt : lo < hi) (hhi : hi ≤ maxTickIndex) {l : ℕ}
    (hinput : inputEst pool.whirlpool mint lo hi l ≤ amount.toNat) :
    SufficientQuote pool (depositParam pool.whirlpool mint amount lo hi slippage)
      (liquidityQuote lo hi pool.whirlpool.sqrtPrice slippage l) := by
  have hcharged : ∀ position : Position, position.tickLowerIndex = lo →
      position.tickUpperIndex = hi → 0 < l →
      rangeDelta .A lo hi pool.whirlpool.sqrtPrice l true < 2 ^ 64 →
      rangeDelta .B lo hi pool.whirlpool.sqrtPrice l true < 2 ^ 64 →
      calculateLiquidityTokenDeltas pool.whirlpool.tickCurrentIndex pool.whirlpool.sqrtPrice
        position l = .ok (rangeDelta .A lo hi pool.whirlpool.sqrtPrice l true,
          rangeDelta .B lo hi pool.whirlpool.sqrtPrice l true) := by
    rintro position rfl rfl hl hA hB
    exact calculateLiquidityTokenDeltas_returns hs.price hlo hlt hhi hl hA hB
  have hnat : ∀ n : ℕ, ((n : ℤ) : BN).toNat = n := Int.toNat_natCast
  have hpos : 0 < (liquidityQuote lo hi pool.whirlpool.sqrtPrice slippage l).liquidityAmount →
      0 < l := fun hl => Int.natCast_pos.1 hl
  have hfits : ∀ n : ℕ, ((n : ℤ) : BN) < 2 ^ 64 → n < 2 ^ 64 := fun n hn => by
    have : (n : ℤ) < ((2 ^ 64 : ℕ) : ℤ) := by
      push_cast
      exact hn
    exact_mod_cast this
  refine ⟨?_, ?_, ?_⟩
  · unfold inputEst at hinput
    unfold depositParam liquidityQuote
    simp only []
    split_ifs at hinput ⊢ <;> exact_mod_cast hinput
  · intro hl hA hB position hlower hupper
    exact ⟨_, _, hcharged position hlower hupper (hpos hl) (hfits _ hA) (hfits _ hB), rfl, rfl⟩
  · intro hl hA hB hnum key auth arrayLower arrayUpper clock funds hlower hupper
    have hA' := hfits _ hA
    have hB' := hfits _ hB
    have hbound := liquidity_lt_of_rangeDelta hlo hlt hhi hA' hB'
    have hcalc := hcharged (pool.position key) hlower hupper (hpos hl) hA' hB'
    have hliq : (BitVec.ofNat 128 l).toNat = l := by
      rw [BitVec.toNat_ofNat]
      exact Nat.mod_eq_of_lt (hbound.trans (by norm_num))
    unfold liquidityQuote
    simp only []
    rw [withSlippage_none hd hnum, withSlippage_none hd hnum, hnat, hnat, hnat]
    refine Pool.increaseLiquidity_avoids hs (by rw [hliq]; exact hcalc) ?_ ?_
    · exact (UInt64.toNat_ofNat_of_lt' hA').ge
    · exact (UInt64.toNat_ofNat_of_lt' hB').ge

end Quote

/-! ## Deposit quotes -/

/-- **When the SDK returns a sufficient quote**: on a reachable pool, for every range within the
bounds and every amount of either token, if and only if the price is not at the end of the range
where the input token is worth no liquidity. -/
theorem depositQuote_sufficient_iff {M : MathUtil} (hM : M.RoundsUp) {pool : Pool}
    (h : Reachable pool) {mint : Pubkey}
    (hmint : mint = pool.whirlpool.tokenMintA ∨ mint = pool.whirlpool.tokenMintB) {lo hi : ℤ}
    (hlo : minTickIndex ≤ lo) (hlt : lo < hi) (hhi : hi ≤ maxTickIndex) (amount : UInt64)
    {slippage : Percentage} (hslippage : slippage.denominator ≠ 0) :
    (∃ quote, increaseLiquidityQuoteByInputTokenWithParams M
          (depositParam pool.whirlpool mint amount lo hi slippage) = .ok quote ∧
        SufficientQuote pool (depositParam pool.whirlpool mint amount lo hi slippage) quote) ↔
      ¬DegenerateDeposit pool.whirlpool mint lo hi := by
  obtain ⟨s, rfl, hinv⟩ := h.invariant
  constructor
  · rintro ⟨quote, hquote, -⟩ hdeg
    rw [quote_throws hlo hlt hhi hmint hdeg] at hquote
    cases hquote
  · intro hdeg
    obtain ⟨l, hquote, hinput⟩ := quote_ok hM hslippage hinv.sound.price hlo hlt hhi hmint hdeg
    exact ⟨_, hquote, liquidityQuote_sufficient hinv.sound hslippage hlo hlt hhi hinput⟩

/-- At price one, token A buys liquidity above tick `0`. -/
theorem depositQuote_sufficient_iff_one : ∃ quote,
    increaseLiquidityQuoteByInputTokenWithParams .documented
        (depositParam samplePool.whirlpool 1 1000 0 64 ⟨0, 100⟩) = .ok quote ∧
      SufficientQuote samplePool (depositParam samplePool.whirlpool 1 1000 0 64 ⟨0, 100⟩) quote :=
  (depositQuote_sufficient_iff documented_roundsUp samplePool_reachable (by decide +kernel)
    (by decide) (by decide) (by decide) 1000 (show (100 : ℤ) ≠ 0 by decide)).2 fun h =>
      absurd h.2.2 (by decide +kernel)

/-- Token B does not: the SDK throws. -/
theorem depositQuote_throws : Reachable (Pool.new sampleRecord) ∧
    increaseLiquidityQuoteByInputTokenWithParams .documented
      (depositParam (Pool.new sampleRecord).whirlpool 2 1000 0 64 ⟨0, 100⟩) = .error .other :=
  ⟨⟨sampleRecord, [], sampleRecord_initialized, rfl⟩, by decide +kernel⟩

end Sdk

end NemoSwap
