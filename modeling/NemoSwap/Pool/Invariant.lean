import NemoSwap.Pool.Instructions
import NemoSwap.Pool.SwapInvariant

set_option relaxedAutoImplicit false
set_option autoImplicit false

/-!
# The invariant of a pool

What holds of a pool in every reachable state: its price and tick agree, its ticks are a summary
of its positions, its growth counters measure what each position has earned since its last
update, and its vaults hold what it owes. What positions have earned is a history variable, which
no account stores.

## Main definitions

* `NemoSwap.Pool.ticks`, `NemoSwap.Pool.ranges` — a pool as a family of ranges on a line.
* `NemoSwap.Pool.inside` — the growth inside a range.
* `NemoSwap.Pool.obligations` — what the vault of a token must hold.
* `NemoSwap.Pool.Sound` — the invariant, but for the vaults.
* `NemoSwap.Pool.Backed` — the vaults cover the obligations.

## Main results

* `NemoSwap.Pool.Backed.le_vault` — each part of the obligations is covered by the vault.
* `NemoSwap.Pool.Sound.liquidity_mul_earned_lt` — with backed vaults, what a position has earned
  in fees fits the wrapping counters.
-/

namespace NemoSwap

/-- The earnings of positions since their last update, per unit of liquidity in Q64.64. -/
abbrev Earnings : Type := Pubkey → Channel → ℕ

/-- The fees of a token that a position is owed. -/
def Position.feeOwed (position : Position) : Token → ℕ
  | .A => position.feeOwedA
  | .B => position.feeOwedB

/-- The fees of a token that the protocol is owed. -/
def Whirlpool.protocolFeeOwed (w : Whirlpool) : Token → ℕ
  | .A => w.protocolFeeOwedA
  | .B => w.protocolFeeOwedB

namespace Pool

/-- The ticks of a pool. -/
def ticks (pool : Pool) : ℤ → Tick :=
  TickMap.tick pool.tickArrays pool.whirlpool.tickSpacing

/-- The positions of a pool as ranges. -/
def ranges (pool : Pool) : Ranges Pubkey ℤ where
  keys := pool.positions
  lower k := (pool.position k).tickLowerIndex
  upper k := (pool.position k).tickUpperIndex
  size k := (pool.position k).liquidity

/-- The balance of a vault. -/
def vault (pool : Pool) : Token → ℕ
  | .A => pool.vaultA
  | .B => pool.vaultB

/-- The growth of an accumulator inside a range. -/
def inside (pool : Pool) (ch : Channel) (lo hi : ℤ) : Growth :=
  rangeInside pool.ticks (pool.whirlpool.growthGlobal ch) pool.whirlpool.tickCurrentIndex ch lo hi

/-- The fees of a token that the positions are owed. -/
def feesOwed (pool : Pool) (X : Token) : ℕ :=
  ∑ k ∈ pool.positions, (pool.position k).feeOwed X

/-- The fees of a token that the positions have earned since their last updates. -/
def feesEarned (pool : Pool) (earned : Earnings) (X : Token) : ℚ :=
  pool.ranges.total (fun k => (earned k (.fee X) : ℚ)) / 2 ^ 64

/-- What the vault of a token must hold: fees owed, fees earned, and the exact amount behind the
positions. -/
def obligations (pool : Pool) (earned : Earnings) (X : Token) : ℚ :=
  pool.whirlpool.protocolFeeOwed X + pool.feesOwed X + pool.feesEarned earned X +
    reserve pool.ranges X pool.whirlpool.sqrtPrice

/-- The invariant of a pool, but for its vaults. -/
structure Sound (pool : Pool) (earned : Earnings) : Prop where
  spacing : pool.whirlpool.tickSpacing ≠ 0
  wellPlaced : TickMap.WellPlaced pool.tickArrays pool.whirlpool.tickSpacing
  price : PriceAt pool.whirlpool.tickCurrentIndex pool.whirlpool.sqrtPrice
  feeRate : pool.whirlpool.feeRate ≤ maxFeeRate
  protocolFeeRate : pool.whirlpool.protocolFeeRate ≤ maxProtocolFeeRate
  liquidity_lt : pool.whirlpool.liquidity < 2 ^ 128
  position_lt : ∀ k ∈ pool.positions, (pool.position k).liquidity < 2 ^ 128
  onUsableTicks : ∀ k ∈ pool.positions,
    UsableTick pool.whirlpool.tickSpacing (pool.position k).tickLowerIndex ∧
      UsableTick pool.whirlpool.tickSpacing (pool.position k).tickUpperIndex ∧
      (pool.position k).tickLowerIndex < (pool.position k).tickUpperIndex
  books : Books pool.ranges pool.ticks pool.whirlpool.tickCurrentIndex pool.whirlpool.liquidity
  rewardsBlank : RewardsBlank pool.whirlpool.rewardInfos pool.ticks
  /-- The growth inside a position's range since its last update is what it has earned. -/
  checkpoints : ∀ k ∈ pool.positions, (pool.position k).liquidity ≠ 0 → ∀ ch,
    pool.inside ch (pool.position k).tickLowerIndex (pool.position k).tickUpperIndex -
      (pool.position k).growthCheckpoint ch = BitVec.ofNat 128 (earned k ch)

/-- The vaults cover the obligations. -/
structure Backed (pool : Pool) (earned : Earnings) : Prop where
  covered : ∀ X, pool.obligations earned X ≤ pool.vault X
  vault_lt : ∀ X, pool.vault X < 2 ^ 64

variable {pool : Pool} {earned : Earnings}

/-- The bounds of the positions are in order, between the least and the greatest tick. -/
lemma Sound.onTicks (h : pool.Sound earned) : OnTicks pool.ranges := fun k hk _ => by
  obtain ⟨h1, h2, h3⟩ := h.onUsableTicks k hk
  exact ⟨h1.1, h3, h2.2.1⟩

/-- Only usable ticks are initialized. -/
theorem Sound.usable (h : pool.Sound earned) {t : ℤ} (ht : (pool.ticks t).initialized = true) :
    UsableTick pool.whirlpool.tickSpacing t := by
  have hg : pool.ranges.gross t ≠ 0 := by
    have := (h.books.initialized t).1 ht
    omega
  by_contra hcon
  refine hg (pool.ranges.gross_eq_zero_iff.2 fun k hk _ => ?_)
  obtain ⟨h1, h2, -⟩ := h.onUsableTicks k hk
  exact ⟨fun he => hcon (he ▸ h1), fun he => hcon (he ▸ h2)⟩

/-- The fees that have been earned are not negative. -/
lemma feesEarned_nonneg (pool : Pool) (earned : Earnings) (X : Token) :
    0 ≤ pool.feesEarned earned X :=
  div_nonneg (pool.ranges.total_nonneg fun _ _ => Nat.cast_nonneg _) (by positivity)

/-- The reserve of a sound pool is not negative. -/
lemma Sound.reserve_nonneg (h : pool.Sound earned) (X : Token) :
    0 ≤ reserve pool.ranges X pool.whirlpool.sqrtPrice :=
  NemoSwap.reserve_nonneg h.onTicks

/-- Each part of the obligations is covered by the vault. -/
theorem Backed.le_vault (hs : pool.Sound earned) (hb : pool.Backed earned) (X : Token) :
    pool.whirlpool.protocolFeeOwed X + pool.feesOwed X ≤ pool.vault X ∧
      pool.feesOwed X + pool.feesEarned earned X ≤ pool.vault X ∧
      reserve pool.ranges X pool.whirlpool.sqrtPrice ≤ pool.vault X := by
  have h1 := pool.feesEarned_nonneg earned X
  have h2 := hs.reserve_nonneg X
  have h3 := hb.covered X
  have h4 : (0 : ℚ) ≤ pool.whirlpool.protocolFeeOwed X := Nat.cast_nonneg _
  have h5 : (0 : ℚ) ≤ pool.feesOwed X := Nat.cast_nonneg _
  unfold obligations at h3
  refine ⟨?_, by linarith, by linarith⟩
  have : ((pool.whirlpool.protocolFeeOwed X + pool.feesOwed X : ℕ) : ℚ) ≤ pool.vault X := by
    push_cast
    linarith
  exact_mod_cast this

/-- A position's fees since its last update, in Q64.64, fit twice the width of a vault.

**Proof sketch.** What the position has earned is owed to it and covered by the vault, which is a
`u64`. -/
theorem Sound.liquidity_mul_earned_lt (hs : pool.Sound earned) (hb : pool.Backed earned)
    {k : Pubkey} (hk : k ∈ pool.positions) (X : Token) :
    (pool.position k).feeOwed X + (pool.position k).liquidity * earned k (.fee X) / 2 ^ 64 <
        2 ^ 64 ∧
      (pool.position k).liquidity * earned k (.fee X) < 2 ^ 128 := by
  obtain ⟨-, h1, -⟩ := hb.le_vault hs X
  have h2 : (pool.vault X : ℚ) < 2 ^ 64 := by exact_mod_cast hb.vault_lt X
  have h3 : ((pool.position k).feeOwed X : ℚ) ≤ pool.feesOwed X := by
    have := Finset.single_le_sum (f := fun k => (pool.position k).feeOwed X)
      (fun _ _ => Nat.zero_le _) hk
    exact_mod_cast this
  have h4 : ((pool.position k).liquidity * earned k (.fee X) : ℚ) / 2 ^ 64 ≤
      pool.feesEarned earned X :=
    div_le_div_of_nonneg_right (pool.ranges.size_mul_le_total
      (w := fun k => (earned k (.fee X) : ℚ)) (fun _ _ => Nat.cast_nonneg _) hk) (by positivity)
  have h5 : (0 : ℚ) ≤ (pool.position k).feeOwed X := Nat.cast_nonneg _
  obtain ⟨y, hy⟩ : ∃ y, (pool.position k).liquidity * earned k (.fee X) = y := ⟨_, rfl⟩
  have hy' : ((pool.position k).liquidity * earned k (.fee X) : ℚ) = y := by exact_mod_cast hy
  rw [hy'] at h4
  rw [hy]
  constructor
  · have hdiv : ((y / 2 ^ 64 : ℕ) : ℚ) ≤ y / 2 ^ 64 := by
      have := Nat.cast_div_le (α := ℚ) (m := y) (n := 2 ^ 64)
      exact_mod_cast this
    have : (((pool.position k).feeOwed X + y / 2 ^ 64 : ℕ) : ℚ) < 2 ^ 64 := by
      rw [Nat.cast_add]
      linarith
    exact_mod_cast this
  · have : (y : ℚ) < 2 ^ 64 * 2 ^ 64 := by
      rw [← div_lt_iff₀ (by positivity)]
      linarith
    have h6 : y < 2 ^ 64 * 2 ^ 64 := by exact_mod_cast this
    exact h6.trans_eq (by norm_num)

end Pool

end NemoSwap
