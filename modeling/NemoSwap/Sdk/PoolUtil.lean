import NemoSwap.Pool.Withdrawal
import NemoSwap.Sdk.IncreaseLiquidityQuote
import NemoSwap.Sdk.TokenMath

set_option relaxedAutoImplicit false
set_option autoImplicit false

/-!
# `pool-utils.ts`: the liquidity that two token amounts buy

`estimateLiquidityFromTokenAmounts` computes with the price of the current tick, and the program
with the price of the pool, which is at least as high. Outside the range of a position, or at the
price of a tick, the estimate is the largest liquidity whose deposit the program prices within both
amounts. Between two ticks it still is within the amount of token A, and exceeds that of token B by
at most what lies between the two prices. At the lower tick of a position the estimate divides by
zero.

## Main definitions

* `NemoSwap.Sdk.PoolUtil.estimateLiquidityFromTokenAmounts` — the estimate.

## Main results

* `NemoSwap.Sdk.PoolUtil.estimate_spec` — the estimate is the largest liquidity within both amounts.
* `NemoSwap.Sdk.liquidityEstimate_deposits` — what a deposit of the estimate costs.
-/

namespace NemoSwap

namespace Sdk

/-- `TokenAmounts`. -/
structure TokenAmounts where
  tokenA : BN
  tokenB : BN

namespace PoolUtil

variable (M : MathUtil)

/-- `estLiquidityForTokenA`. -/
def estLiquidityForTokenA (sqrtPrice1 sqrtPrice2 tokenAmount : BN) : Except SdkError BN :=
  let lowerSqrtPriceX64 := min sqrtPrice1 sqrtPrice2
  let upperSqrtPriceX64 := max sqrtPrice1 sqrtPrice2
  let num := M.fromX64_BN (tokenAmount * upperSqrtPriceX64 * lowerSqrtPriceX64)
  let dem := upperSqrtPriceX64 - lowerSqrtPriceX64
  BN.div num dem

/-- `estLiquidityForTokenB`. -/
def estLiquidityForTokenB (sqrtPrice1 sqrtPrice2 tokenAmount : BN) : Except SdkError BN :=
  let lowerSqrtPriceX64 := min sqrtPrice1 sqrtPrice2
  let upperSqrtPriceX64 := max sqrtPrice1 sqrtPrice2
  let delta := upperSqrtPriceX64 - lowerSqrtPriceX64
  BN.div (BN.shln tokenAmount 64) delta

/-- `PoolUtil.estimateLiquidityFromTokenAmounts`. -/
def estimateLiquidityFromTokenAmounts (currTick lowerTick upperTick : ℤ)
    (tokenAmount : TokenAmounts) : Except SdkError BN :=
  if upperTick < lowerTick then .error .other
  else
    let currSqrtPrice := PriceMath.tickIndexToSqrtPriceX64 currTick
    let lowerSqrtPrice := PriceMath.tickIndexToSqrtPriceX64 lowerTick
    let upperSqrtPrice := PriceMath.tickIndexToSqrtPriceX64 upperTick
    if currTick ≥ upperTick then
      estLiquidityForTokenB upperSqrtPrice lowerSqrtPrice tokenAmount.tokenB
    else if currTick < lowerTick then
      estLiquidityForTokenA M lowerSqrtPrice upperSqrtPrice tokenAmount.tokenA
    else do
      let estLiquidityAmountA ←
        estLiquidityForTokenA M currSqrtPrice upperSqrtPrice tokenAmount.tokenA
      let estLiquidityAmountB ←
        estLiquidityForTokenB currSqrtPrice lowerSqrtPrice tokenAmount.tokenB
      return min estLiquidityAmountA estLiquidityAmountB

end PoolUtil

/-! ## Amounts between prices -/

section Deltas

variable {p q r l : ℕ}

/-- The amount of token A falls with the lower price.

**Proof sketch.** Multiplied out, the claim compares two products of differences of prices, and the
rounded quotient is the least number that covers its product. -/
lemma deltaA_antitone (hp : 0 < p) (hpq : p ≤ q) (hqr : q ≤ r) :
    deltaA q r l true ≤ deltaA p r l true := by
  have hq := hp.trans_le hpq
  have hr := hq.trans_le hqr
  have hA : deltaA p r l true ≤ deltaA p r l true := le_rfl
  unfold deltaA at hA ⊢
  rw [roundDiv_true_le_iff (Nat.mul_pos hr hp)] at hA
  rw [roundDiv_true_le_iff (Nat.mul_pos hr hq)]
  obtain ⟨m, hm⟩ : ∃ m, roundDiv (l * (r - p) * 2 ^ 64) (r * p) true = m := ⟨_, rfl⟩
  rw [hm] at hA ⊢
  have hcross : (r - q) * p ≤ (r - p) * q := Nat.mul_le_mul (by omega) hpq
  refine Nat.le_of_mul_le_mul_right ?_ hp
  calc l * (r - q) * 2 ^ 64 * p = l * 2 ^ 64 * ((r - q) * p) := by ring
    _ ≤ l * 2 ^ 64 * ((r - p) * q) := Nat.mul_le_mul_left _ hcross
    _ = l * (r - p) * 2 ^ 64 * q := by ring
    _ ≤ m * (r * p) * q := Nat.mul_le_mul_right _ hA
    _ = m * (r * q) * p := by ring

/-- The amount of token B over two parts of a price range. -/
lemma deltaB_le_add (hpq : p ≤ q) (hqr : q ≤ r) :
    deltaB p r l true ≤ deltaB p q l true + deltaB q r l true := by
  have h1 : deltaB p q l true ≤ deltaB p q l true := le_rfl
  have h2 : deltaB q r l true ≤ deltaB q r l true := le_rfl
  unfold deltaB at h1 h2 ⊢
  rw [roundDiv_true_le_iff (by norm_num)] at h1 h2 ⊢
  have hsplit : l * (r - p) = l * (q - p) + l * (r - q) := by
    rw [← Nat.mul_add]
    congr 1
    omega
  rw [hsplit, Nat.add_mul]
  exact Nat.add_le_add h1 h2

end Deltas

namespace PoolUtil

variable {M : MathUtil}

section Single

variable {p q : ℕ}

/-- **The liquidity of an amount of token A** is the largest that costs no more. -/
theorem estLiquidityForTokenA_eq (hM : M.Floors) (hp : 0 < p) (hpq : p < q) (a : ℕ) :
    ∃ L : ℕ, estLiquidityForTokenA M p q a = .ok (L : ℤ) ∧
      ∀ l, l ≤ L ↔ deltaA p q l true ≤ a := by
  refine ⟨a * q * p / 2 ^ 64 / (q - p), ?_, fun l => ?_⟩
  · unfold estLiquidityForTokenA
    simp only
    rw [min_eq_left (by exact_mod_cast hpq.le), max_eq_right (by exact_mod_cast hpq.le),
      show (a : ℤ) * q * p = ((a * q * p : ℕ) : ℤ) by push_cast; rfl, hM,
      ← Nat.cast_sub hpq.le]
    unfold BN.div
    rw [if_neg (by exact_mod_cast (Nat.sub_pos_of_lt hpq).ne')]
    rfl
  · unfold deltaA
    rw [Nat.le_div_iff_mul_le (Nat.sub_pos_of_lt hpq), Nat.le_div_iff_mul_le (by norm_num),
      roundDiv_true_le_iff (Nat.mul_pos (hp.trans hpq) hp), Nat.mul_assoc a]

/-- **The liquidity of an amount of token B** is the largest that costs no more. -/
theorem estLiquidityForTokenB_eq (hpq : p < q) (b : ℕ) :
    ∃ L : ℕ, estLiquidityForTokenB q p b = .ok (L : ℤ) ∧
      ∀ l, l ≤ L ↔ deltaB p q l true ≤ b := by
  refine ⟨b * 2 ^ 64 / (q - p), ?_, fun l => ?_⟩
  · unfold estLiquidityForTokenB
    simp only
    rw [min_eq_right (by exact_mod_cast hpq.le), max_eq_left (by exact_mod_cast hpq.le),
      BN.shln_natCast, ← Nat.cast_sub hpq.le]
    unfold BN.div
    rw [if_neg (by exact_mod_cast (Nat.sub_pos_of_lt hpq).ne')]
    rfl
  · unfold deltaB
    rw [Nat.le_div_iff_mul_le (Nat.sub_pos_of_lt hpq), roundDiv_true_le_iff (by norm_num)]

end Single

/-! ## The estimate -/

/-- The price that the estimate computes with: that of the current tick in the range, and that of
an end of the range outside. -/
def estimatePrice (currTick lowerTick upperTick : ℤ) : ℕ :=
  if currTick < lowerTick then tickPrice lowerTick
  else if currTick < upperTick then tickPrice currTick
  else tickPrice upperTick

variable {c lo hi : ℤ}

/-- At the lower tick the estimate divides by zero. -/
lemma estimate_lowerTick (hM : M.Floors) (hlo : minTickIndex ≤ lo) (hlt : lo < hi)
    (hhi : hi ≤ maxTickIndex) (a b : ℕ) :
    estimateLiquidityFromTokenAmounts M lo lo hi ⟨a, b⟩ = .error .other := by
  obtain ⟨hlower, hupper⟩ := tickIndexToSqrtPrices_eq hlt hhi
  have hpos := (tickPrice_bounds hlo (hlt.le.trans hhi)).1
  obtain ⟨L, hL, -⟩ := estLiquidityForTokenA_eq hM hpos (tickPrice_lt_of_lt hlo hlt hhi) a
  unfold estimateLiquidityFromTokenAmounts
  simp only
  rw [if_neg (not_lt.2 hlt.le), if_neg (not_le.2 hlt), if_neg (lt_irrefl _), hlower, hupper, hL,
    ok_bind]
  unfold estLiquidityForTokenB BN.div
  simp only
  rw [min_self, max_self, if_pos (sub_self _)]
  rfl

/-- **The estimate is the largest liquidity within both amounts**, at its price.

**Proof sketch.** By the place of the current tick. Outside of the range one token limits the
liquidity; inside of it the estimate is the smaller of the two, so it is within both amounts exactly
if it is within each. -/
theorem estimate_spec (hM : M.Floors) (hlo : minTickIndex ≤ lo) (hlt : lo < hi)
    (hhi : hi ≤ maxTickIndex) (hc : c ≠ lo) (a b : ℕ) :
    ∃ L : ℕ, estimateLiquidityFromTokenAmounts M c lo hi ⟨a, b⟩ = .ok (L : ℤ) ∧
      ∀ l, l ≤ L ↔ deltaA (estimatePrice c lo hi) (tickPrice hi) l true ≤ a ∧
        deltaB (tickPrice lo) (estimatePrice c lo hi) l true ≤ b := by
  obtain ⟨hlower, hupper⟩ := tickIndexToSqrtPrices_eq hlt hhi
  have hpos := (tickPrice_bounds hlo (hlt.le.trans hhi)).1
  have hprices := tickPrice_lt_of_lt hlo hlt hhi
  unfold estimateLiquidityFromTokenAmounts estimatePrice
  simp only
  rw [if_neg (not_lt.2 hlt.le)]
  rcases lt_or_ge c lo with hcl | hcl
  · obtain ⟨L, hL, hspec⟩ := estLiquidityForTokenA_eq hM hpos hprices a
    rw [if_neg (not_le.2 (hcl.trans hlt)), if_pos hcl, if_pos hcl, hlower, hupper]
    refine ⟨L, hL, fun l => ?_⟩
    rw [hspec l, deltaB_self]
    exact (and_iff_left (Nat.zero_le _)).symm
  rw [if_neg (not_lt.2 hcl), if_neg (not_lt.2 hcl)]
  rcases lt_or_ge c hi with hch | hch
  · have hcurr := (tickIndexToSqrtPrices_eq hch hhi).1
    have hlc : lo < c := lt_of_le_of_ne hcl (Ne.symm hc)
    obtain ⟨L₁, hL₁, hspec₁⟩ := estLiquidityForTokenA_eq hM
      (tickPrice_bounds (hlo.trans hcl) (hch.le.trans hhi)).1
      (tickPrice_lt_of_lt (hlo.trans hcl) hch hhi) a
    obtain ⟨L₂, hL₂, hspec₂⟩ := estLiquidityForTokenB_eq
      (tickPrice_lt_of_lt hlo hlc (hch.le.trans hhi)) b
    rw [if_neg (not_le.2 hch), if_pos hch, hcurr, hlower, hupper, hL₁, ok_bind, hL₂, ok_bind]
    refine ⟨min L₁ L₂, ?_, fun l => ?_⟩
    · rw [Nat.cast_min]
      rfl
    · rw [le_min_iff, hspec₁ l, hspec₂ l]
  · obtain ⟨L, hL, hspec⟩ := estLiquidityForTokenB_eq hprices b
    rw [if_pos hch, if_neg (not_lt.2 hch), hlower, hupper]
    refine ⟨L, hL, fun l => ?_⟩
    rw [hspec l, deltaA_self]
    exact (and_iff_right (Nat.zero_le _)).symm

/-- The estimate computes with a price of the range, which is not above that of the pool.

**Proof sketch.** By the place of the current tick: the price of the lower end, of the tick, or of
the upper end. -/
lemma estimatePrice_bounds {p : ℕ} (hprice : PriceAt c p) (hlo : minTickIndex ≤ lo)
    (hlt : lo < hi) (hhi : hi ≤ maxTickIndex) :
    tickPrice lo ≤ estimatePrice c lo hi ∧ estimatePrice c lo hi ≤ rangePrice lo hi p ∧
      (∀ l, deltaB (estimatePrice c lo hi) (rangePrice lo hi p) l true ≤
        deltaB (tickPrice c) p l true) ∧
      (p = tickPrice c ∨ c < lo ∨ hi ≤ c → rangePrice lo hi p = estimatePrice c lo hi) := by
  rw [hprice.rangePrice_eq hlo hlt hhi]
  unfold estimatePrice
  split_ifs with h1 h2
  · refine ⟨le_rfl, le_rfl, fun l => ?_, fun _ => rfl⟩
    rw [deltaB_self]
    exact Nat.zero_le _
  · refine ⟨tickPrice_le_of_le hlo (not_lt.1 h1) (h2.le.trans hhi), hprice.lower,
      fun l => le_rfl, fun h => ?_⟩
    rcases h with h | h | h
    · exact h
    · exact absurd h h1
    · exact absurd h2 (not_lt.2 h)
  · refine ⟨tickPrice_le_of_le hlo hlt.le hhi, le_rfl, fun l => ?_, fun _ => rfl⟩
    rw [deltaB_self]
    exact Nat.zero_le _

end PoolUtil

/-! ## Deposits -/

/-- **What a deposit of the estimate costs.** For a position of a reachable pool the estimate
divides by zero at the lower tick. Otherwise a deposit of at most the estimate costs no more than
the amount of token A, and no more than the amount of token B and what the liquidity is worth
between the price of the current tick and that of the pool. If the two prices agree, or the range
does not contain the current tick, a deposit that succeeds without limits succeeds with both amounts
as limits exactly if it is at most the estimate.

**Proof sketch.** The prices of the ticks and of the pool are ordered as the current tick says, and
`estimate_spec` states the cost at the price of the current tick. The costs at the two prices differ
by what the liquidity is worth between them, and not at all where the prices agree or the range does
not contain the tick. -/
theorem liquidityEstimate_deposits {M : MathUtil} (hM : M.Floors) {pool : Pool} (h : Reachable pool)
    {key : Pubkey} (hk : key ∈ pool.positions) (a b : UInt64) :
    (pool.whirlpool.tickCurrentIndex = (pool.position key).tickLowerIndex →
      PoolUtil.estimateLiquidityFromTokenAmounts M pool.whirlpool.tickCurrentIndex
        (pool.position key).tickLowerIndex (pool.position key).tickUpperIndex
        ⟨a.toNat, b.toNat⟩ = .error .other) ∧
    (pool.whirlpool.tickCurrentIndex ≠ (pool.position key).tickLowerIndex →
      ∃ L : ℕ, PoolUtil.estimateLiquidityFromTokenAmounts M pool.whirlpool.tickCurrentIndex
          (pool.position key).tickLowerIndex (pool.position key).tickUpperIndex
          ⟨a.toNat, b.toNat⟩ = .ok (L : ℤ) ∧
        (∀ liquidity auth arrayLower arrayUpper maxA maxB clock funds pool',
          liquidity.toNat ≤ L →
          pool.step (.increaseLiquidity key auth arrayLower arrayUpper liquidity maxA maxB clock
            funds) = .ok pool' →
          pool'.vaultA ≤ pool.vaultA + a.toNat ∧
            pool'.vaultB ≤ pool.vaultB + (b.toNat + deltaB
              (tickPrice pool.whirlpool.tickCurrentIndex) pool.whirlpool.sqrtPrice
                liquidity.toNat true)) ∧
        (pool.whirlpool.sqrtPrice = tickPrice pool.whirlpool.tickCurrentIndex ∨
            pool.whirlpool.tickCurrentIndex < (pool.position key).tickLowerIndex ∨
            (pool.position key).tickUpperIndex ≤ pool.whirlpool.tickCurrentIndex →
          ∀ liquidity auth arrayLower arrayUpper clock funds,
            (∃ pool', pool.step (.increaseLiquidity key auth arrayLower arrayUpper liquidity
              18446744073709551615 18446744073709551615 clock funds) = .ok pool') →
            ((∃ pool', pool.step (.increaseLiquidity key auth arrayLower arrayUpper liquidity a b
              clock funds) = .ok pool') ↔ liquidity.toNat ≤ L))) := by
  obtain ⟨s, rfl, hs⟩ := h.invariant
  obtain ⟨h1, h2, hlt⟩ := hs.sound.onUsableTicks key hk
  obtain ⟨hlower, hupper, hgap, hexact⟩ :=
    PoolUtil.estimatePrice_bounds hs.sound.price h1.1 hlt h2.2.1
  refine ⟨fun hc => ?_, fun hc => ?_⟩
  · rw [hc]
    exact PoolUtil.estimate_lowerTick hM h1.1 hlt h2.2.1 _ _
  obtain ⟨L, hL, hspec⟩ :=
    PoolUtil.estimate_spec hM h1.1 hlt h2.2.1 hc a.toNat b.toNat
  refine ⟨L, hL, ?_, fun hstands liquidity auth arrayLower arrayUpper clock funds hmax => ?_⟩
  · intro liquidity auth arrayLower arrayUpper maxA maxB clock funds pool' hle hstep
    obtain ⟨hA, hB⟩ := (hspec _).1 hle
    obtain ⟨_, _, delta, -, -, habs, -, hvault⟩ := Pool.increaseLiquidity_updated hs.sound hstep
    rw [habs] at hvault
    have hpos := (tickPrice_bounds h1.1 (hlt.le.trans h2.2.1)).1
    have hcostA : deltaA (rangePrice (s.pool.position key).tickLowerIndex
        (s.pool.position key).tickUpperIndex s.pool.whirlpool.sqrtPrice)
        (tickPrice (s.pool.position key).tickUpperIndex) liquidity.toNat true ≤ a.toNat :=
      (deltaA_antitone (hpos.trans_le hlower) hupper (Ranges.clamp_le_upper _
        (tickPrice_le_of_le h1.1 hlt.le h2.2.1))).trans hA
    have hcostB := (deltaB_le_add hlower hupper).trans (Nat.add_le_add hB (hgap liquidity.toNat))
    have hvaultA : pool'.vaultA = s.pool.vaultA + _ := hvault .A
    have hvaultB : pool'.vaultB = s.pool.vaultB + _ := hvault .B
    rw [hvaultA, hvaultB]
    exact ⟨Nat.add_le_add_left hcostA _, Nat.add_le_add_left hcostB _⟩
  · have hprice := hexact hstands
    obtain ⟨hcan, harrays, hzero, hroom⟩ := (hs.sound.increase_iff hs.backed).1 hmax
    have hcosts : liquidity.toNat ≤ L ↔
        s.pool.positionDelta key .A liquidity.toNat true ≤ a.toNat ∧
          s.pool.positionDelta key .B liquidity.toNat true ≤ b.toNat := by
      unfold Pool.positionDelta rangeDelta
      rw [hprice]
      exact hspec _
    rw [hcosts]
    refine (hs.sound.increase_iff hs.backed).trans ⟨fun hin => ?_, fun hin => ?_⟩
    · exact ⟨(hin.2.2.2 .A).1, (hin.2.2.2 .B).1⟩
    · refine ⟨hcan, harrays, hzero, fun X => ⟨?_, (hroom X).2⟩⟩
      cases X with
      | A => exact hin.1
      | B => exact hin.2

/-- 1000 units of each token buy a liquidity of 156758 in the sample position: the program deposits
that much within these limits, and no more. -/
theorem liquidityEstimate_deposits_samplePool :
    PoolUtil.estimateLiquidityFromTokenAmounts .documented 0 (-128) 128 ⟨1000, 1000⟩ =
      .ok 156758 := by
  obtain ⟨L, hL, -, hiff⟩ := (liquidityEstimate_deposits documented_floors samplePool_reachable
    (by decide +kernel : (1 : Pubkey) ∈ samplePool.positions) 1000 1000).2 (by decide +kernel)
  have hlimits := hiff (Or.inl (by decide +kernel))
  have hfits : 156758 ≤ L := (hlimits 156758 sampleAuth (-5632) 0 5 sampleFunds
    ⟨_, Pool.step_eq_next (by decide +kernel)⟩).1 ⟨_, Pool.step_eq_next (by decide +kernel)⟩
  have hmore : ¬156759 ≤ L := fun hle => by
    obtain ⟨pool', hok⟩ := (hlimits 156759 sampleAuth (-5632) 0 5 sampleFunds
      ⟨_, Pool.step_eq_next (by decide +kernel)⟩).2 hle
    have hfails : (samplePool.step (.increaseLiquidity 1 sampleAuth (-5632) 0 156759 1000 1000 5
        sampleFunds)).isOk = false := by decide +kernel
    rw [hok] at hfails
    cases hfails
  have hticks : (samplePool.whirlpool.tickCurrentIndex, (samplePool.position 1).tickLowerIndex,
      (samplePool.position 1).tickUpperIndex) = (0, -128, 128) := by decide +kernel
  rw [Prod.mk.injEq, Prod.mk.injEq] at hticks
  rw [hticks.1, hticks.2.1, hticks.2.2] at hL
  obtain rfl : L = 156758 := by omega
  exact hL

end Sdk

end NemoSwap
