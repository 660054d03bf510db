import NemoSwap.Pool.Withdrawal
import NemoSwap.Sdk.IncreaseLiquidityQuote
import NemoSwap.Sdk.TickUtil

set_option relaxedAutoImplicit false
set_option autoImplicit false

/-!
# `decrease-liquidity-quote.ts`

The quote for a withdrawal of liquidity: the amounts of both tokens that the program will pay, and
the least amounts that the owner accepts.

## Main definitions

* `NemoSwap.Sdk.decreaseLiquidityQuoteByLiquidityWithParams` — the quote.
* `NemoSwap.Sdk.decreaseLiquidityQuoteByLiquidity` — the quote for a position of a pool.

## Main results

* `NemoSwap.Sdk.DecreaseLiquidityQuote.withParams_eq` — the estimates are the program's amounts.
* `NemoSwap.Sdk.decreaseQuote_executes` — when there is a quote, and what the program does with it.

## Implementation notes

The quote checks the current tick as well as the ticks of the position. A swap down to the end of
the tick range leaves the current tick one below it. Then the SDK throws, and only the program can
tell what a withdrawal pays.
-/

namespace NemoSwap

namespace Sdk

/-- `DecreaseLiquidityQuoteParam`. -/
structure DecreaseLiquidityQuoteParam where
  liquidity : BN
  tickCurrentIndex : ℤ
  sqrtPrice : BN
  tickLowerIndex : ℤ
  tickUpperIndex : ℤ
  slippageTolerance : Percentage

/-- `DecreaseLiquidityQuote`. -/
structure DecreaseLiquidityQuote where
  tokenMinA : BN
  tokenMinB : BN
  tokenEstA : BN
  tokenEstB : BN
  liquidityAmount : BN
  deriving DecidableEq

section Quotes

variable (M : MathUtil)

namespace DecreaseLiquidityQuote

/-- `quotePositionBelowRange`. -/
def quotePositionBelowRange (param : DecreaseLiquidityQuoteParam) :
    Except SdkError DecreaseLiquidityQuote := do
  let sqrtPriceLowerX64 := PriceMath.tickIndexToSqrtPriceX64 param.tickLowerIndex
  let sqrtPriceUpperX64 := PriceMath.tickIndexToSqrtPriceX64 param.tickUpperIndex
  let tokenEstA ← getTokenAFromLiquidity M param.liquidity sqrtPriceLowerX64 sqrtPriceUpperX64 false
  let tokenMinA ← adjustForSlippage tokenEstA param.slippageTolerance false
  return { tokenMinA, tokenMinB := 0, tokenEstA, tokenEstB := 0, liquidityAmount := param.liquidity }

/-- `quotePositionInRange`. -/
def quotePositionInRange (param : DecreaseLiquidityQuoteParam) :
    Except SdkError DecreaseLiquidityQuote := do
  let sqrtPriceX64 := param.sqrtPrice
  let sqrtPriceLowerX64 := PriceMath.tickIndexToSqrtPriceX64 param.tickLowerIndex
  let sqrtPriceUpperX64 := PriceMath.tickIndexToSqrtPriceX64 param.tickUpperIndex
  let tokenEstA ← getTokenAFromLiquidity M param.liquidity sqrtPriceX64 sqrtPriceUpperX64 false
  let tokenMinA ← adjustForSlippage tokenEstA param.slippageTolerance false
  let tokenEstB := getTokenBFromLiquidity M param.liquidity sqrtPriceLowerX64 sqrtPriceX64 false
  let tokenMinB ← adjustForSlippage tokenEstB param.slippageTolerance false
  return { tokenMinA, tokenMinB, tokenEstA, tokenEstB, liquidityAmount := param.liquidity }

/-- `quotePositionAboveRange`. -/
def quotePositionAboveRange (param : DecreaseLiquidityQuoteParam) :
    Except SdkError DecreaseLiquidityQuote := do
  let sqrtPriceLowerX64 := PriceMath.tickIndexToSqrtPriceX64 param.tickLowerIndex
  let sqrtPriceUpperX64 := PriceMath.tickIndexToSqrtPriceX64 param.tickUpperIndex
  let tokenEstB := getTokenBFromLiquidity M param.liquidity sqrtPriceLowerX64 sqrtPriceUpperX64 false
  let tokenMinB ← adjustForSlippage tokenEstB param.slippageTolerance false
  return { tokenMinA := 0, tokenMinB, tokenEstA := 0, tokenEstB, liquidityAmount := param.liquidity }

end DecreaseLiquidityQuote

/-- `decreaseLiquidityQuoteByLiquidityWithParams`. -/
def decreaseLiquidityQuoteByLiquidityWithParams (param : DecreaseLiquidityQuoteParam) :
    Except SdkError DecreaseLiquidityQuote := do
  invariant (checkTickInBounds param.tickLowerIndex)
  invariant (checkTickInBounds param.tickUpperIndex)
  invariant (checkTickInBounds param.tickCurrentIndex)
  match getPositionStatus param.tickCurrentIndex param.tickLowerIndex param.tickUpperIndex with
  | .BelowRange => DecreaseLiquidityQuote.quotePositionBelowRange M param
  | .InRange => DecreaseLiquidityQuote.quotePositionInRange M param
  | .AboveRange => DecreaseLiquidityQuote.quotePositionAboveRange M param

/-- `decreaseLiquidityQuoteByLiquidity`. -/
def decreaseLiquidityQuoteByLiquidity (liquidity : BN) (slippageTolerance : Percentage)
    (positionData : Position) (whirlpoolData : Whirlpool) :
    Except SdkError DecreaseLiquidityQuote := do
  invariant (decide (liquidity ≤ positionData.liquidity))
  decreaseLiquidityQuoteByLiquidityWithParams M
    { liquidity, slippageTolerance, tickLowerIndex := positionData.tickLowerIndex
      tickUpperIndex := positionData.tickUpperIndex, sqrtPrice := whirlpoolData.sqrtPrice
      tickCurrentIndex := whirlpoolData.tickCurrentIndex }

end Quotes

/-! ## The estimates -/

section Estimates

variable {M : MathUtil} {slippage : Percentage} {c lo hi : ℤ} {p l : ℕ}

/-- **The estimates are the amounts that the program pays**, and the minima are not above them.

**Proof sketch.** By the place of the current tick. Left of the range only token A is estimated,
right of it only token B, and inside of it both, between the price of the pool and the ends; these
are the deltas of the range at the price clamped to it. A minimum is its amount adjusted down. -/
theorem DecreaseLiquidityQuote.withParams_eq (hnum : 0 ≤ slippage.numerator)
    (hden : 0 < slippage.denominator) (hprice : PriceAt c p) (hlo : minTickIndex ≤ lo)
    (hlt : lo < hi) (hhi : hi ≤ maxTickIndex) (hc : minTickIndex ≤ c) :
    ∃ minA minB : ℕ, decreaseLiquidityQuoteByLiquidityWithParams M
        { liquidity := (l : ℤ), tickCurrentIndex := c, sqrtPrice := (p : ℤ), tickLowerIndex := lo
          tickUpperIndex := hi, slippageTolerance := slippage } =
          .ok ⟨minA, minB, rangeDelta .A lo hi p l false, rangeDelta .B lo hi p l false, l⟩ ∧
      minA ≤ rangeDelta .A lo hi p l false ∧ minB ≤ rangeDelta .B lo hi p l false := by
  have hrange := hprice.rangePrice_eq hlo hlt hhi
  have hprices := tickPrice_le_of_le hlo hlt.le hhi
  have hpos := (tickPrice_bounds hlo (hlt.le.trans hhi)).1
  obtain ⟨hlower, hupper⟩ := tickIndexToSqrtPrices_eq hlt hhi
  obtain ⟨minA, hminA, hleA⟩ := adjustForSlippage_down hnum hden (rangeDelta .A lo hi p l false)
  obtain ⟨minB, hminB, hleB⟩ := adjustForSlippage_down hnum hden (rangeDelta .B lo hi p l false)
  have hlow : tickPrice lo ≤ rangePrice lo hi p := Ranges.lower_le_clamp _ _ _
  have hupp : rangePrice lo hi p ≤ tickPrice hi := Ranges.clamp_le_upper _ hprices
  unfold decreaseLiquidityQuoteByLiquidityWithParams invariant
  rw [checkTickInBounds_eq hlo (hlt.le.trans hhi), checkTickInBounds_eq (hlo.trans hlt.le) hhi,
    checkTickInBounds_eq hc hprice.tick_max]
  unfold getPositionStatus
  rcases lt_or_ge c lo with hcl | hcl
  · rw [if_pos hcl] at hrange ⊢
    refine ⟨minA, 0, ?_, hleA, Nat.zero_le _⟩
    unfold DecreaseLiquidityQuote.quotePositionBelowRange
    unfold rangeDelta at hminA ⊢
    rw [hrange] at hminA ⊢
    simp only [hlower, hupper, getTokenAFromLiquidity_down hpos hprices, ok_bind, hminA, deltaB_self]
    rfl
  rw [if_neg (not_lt.2 hcl)] at hrange ⊢
  rcases lt_or_ge c hi with hch | hch
  · rw [if_pos hch] at hrange ⊢
    refine ⟨minA, minB, ?_, hleA, hleB⟩
    unfold DecreaseLiquidityQuote.quotePositionInRange
    unfold rangeDelta at hminA hminB ⊢
    rw [hrange] at hminA hminB hlow hupp ⊢
    simp only [hlower, hupper, getTokenAFromLiquidity_down (hpos.trans_le hlow) hupp,
      getTokenBFromLiquidity_down hlow, ok_bind, hminA, hminB]
    rfl
  · rw [if_neg (not_lt.2 hch)] at hrange ⊢
    refine ⟨0, minB, ?_, Nat.zero_le _, hleB⟩
    unfold DecreaseLiquidityQuote.quotePositionAboveRange
    unfold rangeDelta at hminB ⊢
    rw [hrange] at hminB ⊢
    simp only [hlower, hupper, getTokenBFromLiquidity_down hprices, ok_bind, hminB, deltaA_self]
    rfl

end Estimates

/-! ## The instruction -/

/-- Minima that are not above the amounts of a withdrawal have no effect on it. -/
lemma decreaseLiquidity_minima {pool : Pool} {earned : Earnings} (hs : pool.Sound earned)
    {key : Pubkey} {amount : BitVec 128} {minA minB : UInt64}
    (hA : minA.toNat ≤ pool.positionDelta key .A amount.toNat false)
    (hB : minB.toNat ≤ pool.positionDelta key .B amount.toNat false) (auth : PositionAuthority)
    (arrayLower arrayUpper : ℤ) (clock : Int64) (funds : OwnerFunds) :
    pool.decreaseLiquidity key auth arrayLower arrayUpper amount minA minB clock funds =
      pool.decreaseLiquidity key auth arrayLower arrayUpper amount 0 0 clock funds := by
  unfold Pool.decreaseLiquidity
  cases hm : pool.modifyLiquidity key auth arrayLower arrayUpper amount false clock with
  | error failure => rfl
  | ok result =>
    obtain ⟨pool', deltaA, deltaB⟩ := result
    obtain ⟨-, -, -, -, -, hamounts, -⟩ := hs.canModify hm
    have h1 : deltaA = pool.positionDelta key .A amount.toNat false := hamounts .A
    have h2 : deltaB = pool.positionDelta key .B amount.toNat false := hamounts .B
    rw [Res.ok_bind, Res.ok_bind]
    simp only []
    have h0 : (0 : UInt64).toNat = 0 := rfl
    rw [if_neg (by omega), if_neg (by omega), if_neg (by omega), if_neg (by omega)]

/-- **The quote for a withdrawal is what the program pays.** On a reachable pool the SDK returns a
quote exactly if the position has the liquidity and the current tick is not one below the tick
range. Then its estimates are the amounts that leave the vaults, and its minima never make the
instruction fail, whatever the slippage.

**Proof sketch.** On a reachable pool the price lies where the current tick says, so the estimates
are the amounts of `modifyLiquidity`. A withdrawal of at most what the position has succeeds by the
invariant, and minima that are not above these amounts are met. -/
theorem decreaseQuote_executes {M : MathUtil} {pool : Pool} (h : Reachable pool) {key : Pubkey}
    (hk : key ∈ pool.positions) (liquidity : BitVec 128) {slippage : Percentage}
    (hnum : 0 ≤ slippage.numerator) (hden : 0 < slippage.denominator) :
    ((∃ quote, decreaseLiquidityQuoteByLiquidity M liquidity.toNat slippage (pool.position key)
        pool.whirlpool = .ok quote) ↔
      liquidity.toNat ≤ (pool.position key).liquidity ∧
        minTickIndex ≤ pool.whirlpool.tickCurrentIndex) ∧
    ∀ quote, decreaseLiquidityQuoteByLiquidity M liquidity.toNat slippage (pool.position key)
        pool.whirlpool = .ok quote →
      quote.liquidityAmount = liquidity.toNat ∧
      ∀ auth arrayLower arrayUpper clock funds,
        pool.step (.decreaseLiquidity key auth arrayLower arrayUpper liquidity
            (UInt64.ofNat quote.tokenMinA.toNat) (UInt64.ofNat quote.tokenMinB.toNat) clock funds) =
          pool.step (.decreaseLiquidity key auth arrayLower arrayUpper liquidity 0 0 clock funds) ∧
        ∀ pool', pool.step (.decreaseLiquidity key auth arrayLower arrayUpper liquidity 0 0 clock
            funds) = .ok pool' →
          pool'.vault .A + quote.tokenEstA = pool.vault .A ∧
            pool'.vault .B + quote.tokenEstB = pool.vault .B := by
  obtain ⟨s, rfl, hinv⟩ := h.invariant
  have hs := hinv.sound
  have hb := hinv.backed
  obtain ⟨pool, hpool⟩ : ∃ pool, s.pool = pool := ⟨_, rfl⟩
  rw [hpool] at hs hb hk ⊢
  obtain ⟨h1, h2, h3⟩ := hs.onUsableTicks key hk
  have hquote : liquidity.toNat ≤ (pool.position key).liquidity →
      minTickIndex ≤ pool.whirlpool.tickCurrentIndex → ∃ minA minB : ℕ,
        decreaseLiquidityQuoteByLiquidity M liquidity.toNat slippage (pool.position key)
          pool.whirlpool = .ok ⟨minA, minB, pool.positionDelta key .A liquidity.toNat false,
            pool.positionDelta key .B liquidity.toNat false, liquidity.toNat⟩ ∧
        minA ≤ pool.positionDelta key .A liquidity.toNat false ∧
        minB ≤ pool.positionDelta key .B liquidity.toNat false := fun hle hc => by
    obtain ⟨minA, minB, hparams, hA, hB⟩ := DecreaseLiquidityQuote.withParams_eq (M := M) hnum hden
      hs.price h1.1 h3 h2.2.1 hc
    refine ⟨minA, minB, ?_, hA, hB⟩
    unfold decreaseLiquidityQuoteByLiquidity invariant
    rw [decide_eq_true (by exact_mod_cast hle)]
    exact hparams
  have hneeds : ∀ quote, decreaseLiquidityQuoteByLiquidity M liquidity.toNat slippage
      (pool.position key) pool.whirlpool = .ok quote →
        liquidity.toNat ≤ (pool.position key).liquidity ∧
          minTickIndex ≤ pool.whirlpool.tickCurrentIndex := fun quote hok => by
    unfold decreaseLiquidityQuoteByLiquidity decreaseLiquidityQuoteByLiquidityWithParams at hok
    simp only [bind_eq_ok, invariant_eq_ok, exists_const] at hok
    obtain ⟨hle, -, -, hc, -⟩ := hok
    unfold checkTickInBounds at hc
    rw [Bool.and_eq_true, decide_eq_true_eq, decide_eq_true_eq] at hc
    exact ⟨by exact_mod_cast of_decide_eq_true hle, hc.2⟩
  refine ⟨⟨?_, ?_⟩, fun quote hok => ?_⟩
  · rintro ⟨quote, hok⟩
    exact hneeds quote hok
  · rintro ⟨hle, hc⟩
    obtain ⟨minA, minB, hok, -⟩ := hquote hle hc
    exact ⟨_, hok⟩
  · obtain ⟨hle, hc⟩ := hneeds quote hok
    obtain ⟨minA, minB, hok', hA, hB⟩ := hquote hle hc
    rw [hok', Except.ok.injEq] at hok
    subst hok
    refine ⟨rfl, fun auth arrayLower arrayUpper clock funds => ⟨?_, fun pool' hstep => ?_⟩⟩
    · have hfits : ∀ X, pool.positionDelta key X liquidity.toNat false < 2 ^ 64 := fun X =>
        ((pool.positionDelta_down_le key X _).trans (hb.positionDelta_le hs hk hle X)).trans_lt
          (hb.vault_lt X)
      have hmin : ∀ {X : Token} {m : ℕ}, m ≤ pool.positionDelta key X liquidity.toNat false →
          (UInt64.ofNat ((m : ℤ)).toNat).toNat ≤ pool.positionDelta key X liquidity.toNat false :=
        fun {X m} hm => by
          rw [Int.toNat_natCast, UInt64.toNat_ofNat_of_lt' (hm.trans_lt (hfits X))]
          exact hm
      exact decreaseLiquidity_minima hs (hmin hA) (hmin hB) auth arrayLower arrayUpper clock funds
    · obtain ⟨infos, timestamp, delta, -, -, habs, -, hvault⟩ :=
        Pool.decreaseLiquidity_updated hs hstep
      rw [habs] at hvault
      have hA' : pool'.vault .A + pool.positionDelta key .A liquidity.toNat false =
        pool.vault .A := hvault .A
      have hB' : pool'.vault .B + pool.positionDelta key .B liquidity.toNat false =
        pool.vault .B := hvault .B
      exact ⟨(Nat.cast_add _ _).symm.trans (congrArg Nat.cast hA'),
        (Nat.cast_add _ _).symm.trans (congrArg Nat.cast hB')⟩

/-- A quote for a thousandth of the sample position, with a slippage of one percent. -/
theorem decreaseQuote_executes_samplePool :
    ∃ quote, decreaseLiquidityQuoteByLiquidity MathUtil.documented
        (1000000 : BitVec 128).toNat ⟨1, 100⟩ (samplePool.position 1) samplePool.whirlpool =
          .ok quote ∧ quote.liquidityAmount = (1000000 : BitVec 128).toNat := by
  have hspec := decreaseQuote_executes (M := MathUtil.documented) samplePool_reachable
    (by decide +kernel : (1 : Pubkey) ∈ samplePool.positions) (1000000 : BitVec 128)
    (by norm_num : 0 ≤ (⟨1, 100⟩ : Percentage).numerator) (by norm_num)
  obtain ⟨quote, hquote⟩ := hspec.1.2 ⟨by decide +kernel, by decide +kernel⟩
  exact ⟨quote, hquote, (hspec.2 quote hquote).1⟩

end Sdk

end NemoSwap
