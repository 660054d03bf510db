import NemoSwap.Pool.DepositAmounts
import NemoSwap.Pool.History

set_option relaxedAutoImplicit false
set_option autoImplicit false

/-!
# How much liquidity a pool can have

The vaults hold what the liquidity of a reachable pool could be withdrawn for, and the balance of a
vault is a `u64`. Between neighbouring ticks a unit of liquidity is worth a fixed share of a token
at least. So the liquidity of a pool, of its positions and of its ticks stays far below the bounds
of its types, although nothing in the source limits it.

## Main results

* `NemoSwap.holding_le_holding` — a wider range holds at least as much.
* `NemoSwap.active_lt` — the liquidity at a tick, from the reserves.
* `NemoSwap.Pool.Backed.liquidity_lt` — the bounds in a backed pool.
* `NemoSwap.Reachable.liquidity_bounds` — the bounds in a reachable pool.
-/

namespace NemoSwap

/-! ## Ranges -/

section Range

variable {X : Token} {lo hi lo' hi' : ℤ} {p l n : ℕ}

/-- A wider range holds at least as much.

**Proof sketch.** By the place of the price. Inside the wider range its holding is that of the part
of the range on one side of the price, which contains the part of the narrower one. -/
theorem holding_le_holding (hmin : minTickIndex ≤ lo') (hlo : lo' ≤ lo) (hlt : lo < hi)
    (hhi : hi ≤ hi') (hmax : hi' ≤ maxTickIndex) : holding X lo hi p ≤ holding X lo' hi' p := by
  have hnonneg : 0 ≤ holding X lo' hi' p := holding_nonneg hmin (by omega) hmax
  have ha : tickPrice lo' ≤ tickPrice lo := tickPrice_le_of_le hmin hlo (by omega)
  have hab : tickPrice lo ≤ tickPrice hi := tickPrice_le_of_le (by omega) hlt.le (by omega)
  have hb : tickPrice hi ≤ tickPrice hi' := tickPrice_le_of_le (by omega) hhi hmax
  have hpos : 0 < rangePrice lo' hi' p := rangePrice_pos hmin (by omega) hmax
  unfold holding rangePrice at hnonneg hpos ⊢
  cases X with
  | A =>
    rcases le_or_gt p (tickPrice hi) with hp | hp
    · have hclamp : Ranges.clamp (tickPrice lo') (tickPrice hi') p ≤
          Ranges.clamp (tickPrice lo) (tickPrice hi) p := by
        unfold Ranges.clamp
        rw [min_eq_left hp, min_eq_left (hp.trans hb)]
        exact max_le_max ha le_rfl
      have h1 := potential_A_anti hpos hclamp
      have hpos' : 0 < tickPrice hi := (tickPrice_bounds (by omega) (by omega)).1
      have h2 := potential_A_anti hpos' hb
      exact sub_le_sub h1 h2
    · -- the narrow range lies below the price and holds nothing
      rw [Ranges.clamp_of_upper_le hab hp.le, Token.emptyEnd, sub_self]
      exact hnonneg
  | B =>
    rcases le_or_gt (tickPrice lo) p with hp | hp
    · have hclamp : Ranges.clamp (tickPrice lo) (tickPrice hi) p ≤
          Ranges.clamp (tickPrice lo') (tickPrice hi') p := by
        unfold Ranges.clamp
        rw [max_eq_right (le_min hp hab), max_eq_right (le_min (ha.trans hp) (ha.trans (hab.trans hb)))]
        exact min_le_min le_rfl hb
      exact sub_le_sub (potential_B_mono hclamp) (potential_B_mono ha)
    · rw [Ranges.clamp_of_le_lower hp.le, Token.emptyEnd, sub_self]
      exact hnonneg

/-- The rounded up amount is the least integer above the exact one.

**Proof sketch.** By the token. The rounded up quotient is at most a number exactly if the exact one
is. -/
theorem rangeDelta_true_le (hlo : minTickIndex ≤ lo) (hlt : lo < hi) (hhi : hi ≤ maxTickIndex)
    (h : (l : ℚ) * holding X lo hi p ≤ n) : rangeDelta X lo hi p l true ≤ n := by
  have hle := tickPrice_le_of_le hlo hlt.le hhi
  unfold holding at h
  cases X with
  | A =>
    have hpos : 0 < rangePrice lo hi p := rangePrice_pos hlo hlt hhi
    have hupp : rangePrice lo hi p ≤ tickPrice hi := Ranges.clamp_le_upper _ hle
    rw [Token.emptyEnd, deltaA_exact hpos hupp] at h
    unfold rangeDelta deltaA
    rw [roundDiv_eq_ceil (Nat.mul_pos (hpos.trans_le hupp) hpos), Nat.ceil_le]
    exact h
  | B =>
    have hlow : tickPrice lo ≤ rangePrice lo hi p := Ranges.lower_le_clamp _ _ _
    rw [Token.emptyEnd, deltaB_exact hlow] at h
    unfold rangeDelta deltaB
    rw [roundDiv_eq_ceil (by norm_num), Nat.ceil_le]
    exact h

end Range

/-! ## Families of positions -/

section Positions

variable {ι : Type} {R : Ranges ι ℤ} {p : ℕ} {v : Token → ℕ}

/-- Outside of the tick range there is no liquidity. -/
lemma active_eq_zero (hR : OnTicks R) {t : ℤ} (ht : t < minTickIndex ∨ maxTickIndex ≤ t) :
    R.active t = 0 := by
  have hnone : R.active t = R.total fun _ => (0 : ℕ) := by
    refine R.total_congr fun k hk h0 => if_neg ?_
    obtain ⟨h1, -, h3⟩ := hR k hk h0
    rintro ⟨hlo, hhi⟩
    omega
  rw [hnone, R.total_zero]

/-- The liquidity at a tick is worth at most the reserves. -/
lemma active_mul_holding_le (hR : OnTicks R) (X : Token) (t : ℤ) :
    (R.active t : ℚ) * holding X t (t + 1) p ≤ reserve R X p := by
  refine R.total_ite_mul_le (fun k hk h0 hc => ?_) fun k hk h0 => ?_
  · obtain ⟨h1, -, h3⟩ := hR k hk h0
    exact holding_le_holding h1 hc.1 (by omega) (by have := hc.2; omega) h3
  · obtain ⟨h1, h2, h3⟩ := hR k hk h0
    exact holding_nonneg h1 h2 h3

/-- **The liquidity at a tick is bounded by the reserves.** -/
theorem active_lt (hR : OnTicks R) (hle : ∀ X, reserve R X p ≤ v X) (hv : ∀ X, v X < 2 ^ 64)
    (t : ℤ) : R.active t < 2 ^ 114 := by
  by_cases ht : t < minTickIndex ∨ maxTickIndex ≤ t
  · rw [active_eq_zero hR ht]
    norm_num
  · rw [not_or, not_lt, not_le] at ht
    have hdelta : ∀ X, rangeDelta X t (t + 1) p (R.active t) true < 2 ^ 64 := fun X =>
      lt_of_le_of_lt (rangeDelta_true_le ht.1 (by omega) (by omega)
        ((active_mul_holding_le hR X t).trans (hle X))) (hv X)
    exact liquidity_lt_of_rangeDelta ht.1 (by omega) (by omega) (hdelta .A) (hdelta .B)

/-- What starts at a tick is active there. -/
lemma startsAt_le_active (hR : OnTicks R) (t : ℤ) : R.startsAt t ≤ R.active t := by
  refine R.total_le_total fun k hk h0 => ?_
  obtain ⟨-, h2, -⟩ := hR k hk h0
  split_ifs with h h'
  · exact le_rfl
  · exact absurd ⟨h.le, h ▸ h2⟩ h'
  · exact Nat.zero_le _
  · exact le_rfl

/-- What ends at a tick is active left of it. -/
lemma endsAt_le_active (hR : OnTicks R) (t : ℤ) : R.endsAt t ≤ R.active (t - 1) := by
  refine R.total_le_total fun k hk h0 => ?_
  obtain ⟨-, h2, -⟩ := hR k hk h0
  split_ifs with h h'
  · exact le_rfl
  · exact absurd ⟨by omega, by omega⟩ h'
  · exact Nat.zero_le _
  · exact le_rfl

end Positions

/-! ## Pools -/

namespace Pool

variable {pool : Pool} {earned : Earnings}

/-- **The liquidity of a backed pool is far below the bounds of its types.**

**Proof sketch.** A position is part of what is active at its lower tick, and so is what starts or
ends at a tick; and what is active at some tick is bounded by the vaults, which are `u64`. -/
theorem Backed.liquidity_lt (hs : pool.Sound earned) (hb : pool.Backed earned) :
    pool.whirlpool.liquidity < 2 ^ 114 ∧
      (∀ k ∈ pool.positions, (pool.position k).liquidity < 2 ^ 114) ∧
      ∀ t, (pool.ticks t).liquidityGross < 2 ^ 115 ∧ |(pool.ticks t).liquidityNet| < 2 ^ 114 := by
  have hR := hs.onTicks
  have hactive : ∀ t, pool.ranges.active t < 2 ^ 114 :=
    active_lt hR (fun X => (hb.le_vault hs X).2.2) hb.vault_lt
  refine ⟨?_, fun k hk => ?_, fun t => ?_⟩
  · rw [hs.books.active]
    exact hactive _
  · obtain ⟨-, -, hlt⟩ := hs.onUsableTicks k hk
    refine lt_of_le_of_lt (pool.ranges.active_le_of_contains hk ?_)
      (hactive (pool.position k).tickLowerIndex)
    exact ⟨le_rfl, hlt⟩
  · have h1 := (startsAt_le_active hR t).trans_lt (hactive t)
    have h2 := (endsAt_le_active hR t).trans_lt (hactive (t - 1))
    rw [hs.books.gross, hs.books.net, abs_lt]
    unfold Ranges.gross Ranges.net
    omega

end Pool

/-- **Liquidity never comes near the bounds of its types.** In every reachable pool the liquidity
of the pool and of each position, and the net liquidity of each tick, is below `2 ^ 114`, and the
gross liquidity of each tick is below `2 ^ 115`. -/
theorem Reachable.liquidity_bounds {pool : Pool} (h : Reachable pool) :
    pool.whirlpool.liquidity < 2 ^ 114 ∧
      (∀ k ∈ pool.positions, (pool.position k).liquidity < 2 ^ 114) ∧
      ∀ t, (pool.ticks t).liquidityGross < 2 ^ 115 ∧ |(pool.ticks t).liquidityNet| < 2 ^ 114 := by
  obtain ⟨s, rfl, hs⟩ := h.invariant
  exact hs.backed.liquidity_lt hs.sound

/-- The sample pool has liquidity, on both of the ticks of its position. -/
theorem Reachable.liquidity_bounds_samplePool :
    0 < samplePool.whirlpool.liquidity ∧ samplePool.whirlpool.liquidity < 2 ^ 114 :=
  ⟨by decide +kernel, samplePool_reachable.liquidity_bounds.1⟩

end NemoSwap
