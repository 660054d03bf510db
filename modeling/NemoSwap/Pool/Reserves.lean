import NemoSwap.Lib.Ranges
import NemoSwap.Math.ExactAmounts
import NemoSwap.Math.TickBounds
import NemoSwap.State.Tick

set_option relaxedAutoImplicit false
set_option autoImplicit false

/-!
# The exact reserves behind a family of positions

A position with liquidity `L` on the ticks `[lower, upper)` is worth, at the price `p`, a rational
amount of each token. Summed over all positions this is what the vaults must hold at least, and a
price move between two initialized ticks changes it by the exact amounts that a step of a swap
rounds.

## Main definitions

* `NemoSwap.reserve` — the exact amount of a token behind a family of positions.

## Main results

* `NemoSwap.reserve_shift` — between initialized ticks the reserves move with the active liquidity.
* `NemoSwap.reserve_eq_of_le` — the reserves of the two tokens move in opposite directions, and
  only together.
* `NemoSwap.active_left_lt`, `NemoSwap.active_right_lt` — how much liquidity can lie at one tick.
-/

namespace NemoSwap

/-- The end of a range at which it holds nothing of the token. -/
def Token.emptyEnd : Token → ℤ → ℤ → ℤ
  | .A, _, upper => upper
  | .B, lower, _ => lower

/-- The price at which a range stands while the pool is at price `p`. -/
def rangePrice (lower upper : ℤ) (p : ℕ) : ℕ :=
  Ranges.clamp (tickPrice lower) (tickPrice upper) p

/-- The amount of a token per unit of liquidity of a range. -/
def holding (X : Token) (lower upper : ℤ) (p : ℕ) : ℚ :=
  potential X (rangePrice lower upper p) - potential X (tickPrice (X.emptyEnd lower upper))

variable {ι : Type} {R : Ranges ι ℤ} {X : Token} {p q : ℕ}

/-- **The exact amount of a token behind a family of positions.** -/
def reserve (R : Ranges ι ℤ) (X : Token) (p : ℕ) : ℚ :=
  R.total fun k => holding X (R.lower k) (R.upper k) p

/-- Nonempty ranges lie between the bounds of the tick range. -/
def OnTicks (R : Ranges ι ℤ) : Prop :=
  ∀ k ∈ R.keys, R.size k ≠ 0 →
    minTickIndex ≤ R.lower k ∧ R.lower k < R.upper k ∧ R.upper k ≤ maxTickIndex

/-- A price clamped to a range is positive. -/
lemma rangePrice_pos {lower upper : ℤ} (hlo : minTickIndex ≤ lower) (hlt : lower < upper)
    (hhi : upper ≤ maxTickIndex) : 0 < rangePrice lower upper p := by
  unfold minTickIndex at hlo
  unfold maxTickIndex at hhi
  exact lt_of_lt_of_le (tickPrice_pos (by omega) (by omega)) (Ranges.lower_le_clamp _ _ _)

/-- The holding of a range is not negative. -/
theorem holding_nonneg {lower upper : ℤ} (hlo : minTickIndex ≤ lower) (hlt : lower < upper)
    (hhi : upper ≤ maxTickIndex) : 0 ≤ holding X lower upper p := by
  have hpos := rangePrice_pos (p := p) hlo hlt hhi
  unfold minTickIndex at hlo
  unfold maxTickIndex at hhi
  have hle : tickPrice lower ≤ tickPrice upper := tickPrice_le (by omega) hlt.le (by omega)
  unfold holding
  rw [sub_nonneg]
  cases X with
  | A => exact potential_A_anti hpos (Ranges.clamp_le_upper p hle)
  | B => exact potential_B_mono (Ranges.lower_le_clamp _ _ _)

/-! ## Reserves -/

/-- The reserve of positions on ticks is not negative. -/
theorem reserve_nonneg (hR : OnTicks R) : 0 ≤ reserve R X p := by
  rw [reserve, ← R.total_zero (M := ℚ)]
  exact R.total_le_total fun k hk h0 => by
    obtain ⟨h1, h2, h3⟩ := hR k hk h0
    exact holding_nonneg h1 h2 h3

/-- The reserve of token A falls with the price. -/
theorem reserve_A_anti (hR : OnTicks R) (h : p ≤ q) : reserve R .A q ≤ reserve R .A p :=
  R.total_le_total fun k hk h0 => by
    obtain ⟨h1, h2, h3⟩ := hR k hk h0
    exact sub_le_sub_right
      (potential_A_anti (rangePrice_pos h1 h2 h3) (Ranges.clamp_mono _ _ h)) _

/-- The reserve of token B rises with the price. -/
lemma reserve_B_mono (h : p ≤ q) : reserve R .B p ≤ reserve R .B q :=
  R.total_le_total fun _ _ _ => sub_le_sub_right (potential_B_mono (Ranges.clamp_mono _ _ h)) _

/-- If one token's reserve is the same at two prices, so is the other's.

**Proof sketch.** Each range holds at most as much at the one price as at the other, and the totals
are equal, so no range differs. The holding of a range determines the clamped price, and with it the
holding of the other token. -/
lemma reserve_congr (hR : OnTicks R) {Y : Token} (h : p ≤ q)
    (he : reserve R X p = reserve R X q) : reserve R Y p = reserve R Y q := by
  refine R.total_congr fun k hk h0 => ?_
  obtain ⟨h1, h2, h3⟩ := hR k hk h0
  suffices hc : rangePrice (R.lower k) (R.upper k) p = rangePrice (R.lower k) (R.upper k) q by
    unfold holding
    rw [hc]
  -- the reserves differ range by range in one direction, so none differs
  have hk' : ∀ w w' : ι → ℚ, (∀ j ∈ R.keys, R.size j ≠ 0 → w j ≤ w' j) →
      R.total w = R.total w' → w k = w' k := fun w w' hle heq => by
    have hterm : ∀ j ∈ R.keys, (R.size j : ℚ) * w j ≤ R.size j * w' j := fun j hj => by
      rcases eq_or_ne (R.size j) 0 with hj0 | hj0
      · simp [hj0]
      · exact mul_le_mul_of_nonneg_left (hle j hj hj0) (Nat.cast_nonneg _)
    have := (Finset.sum_eq_sum_iff_of_le hterm).1 heq k hk
    exact mul_left_cancel₀ (by exact_mod_cast h0) this
  have hpos := fun p => rangePrice_pos (p := p) h1 h2 h3
  cases X with
  | A =>
    have := hk' _ _ (fun j hj hj0 => by
      obtain ⟨h1, h2, h3⟩ := hR j hj hj0
      exact sub_le_sub_right
        (potential_A_anti (rangePrice_pos h1 h2 h3) (Ranges.clamp_mono _ _ h)) _) he.symm
    exact (potential_inj (hpos q) (hpos p) (sub_left_injective this)).symm
  | B =>
    have := hk' _ _ (fun j _ _ =>
      sub_le_sub_right (potential_B_mono (Ranges.clamp_mono _ _ h)) _) he
    exact potential_inj (hpos p) (hpos q) (sub_left_injective this)

/-- **The reserves of the two tokens move in opposite directions, and only together**: if neither
grows, neither changes. -/
theorem reserve_eq_of_le (hR : OnTicks R) (hA : reserve R .A q ≤ reserve R .A p)
    (hB : reserve R .B q ≤ reserve R .B p) (X : Token) : reserve R X q = reserve R X p := by
  rcases le_total p q with h | h
  · exact (reserve_congr hR h (le_antisymm (reserve_B_mono h) hB)).symm
  · exact reserve_congr hR h (le_antisymm hA (reserve_A_anti hR h))

/-- **Between initialized ticks the reserves move with the active liquidity.**

**Proof sketch.** No range has a bound strictly between the two ticks. So a range contains both
prices, and its holding moves with them, or neither, and its holding stays. -/
theorem reserve_shift (hR : OnTicks R) {a b c : ℤ} (ha : minTickIndex - 1 ≤ a)
    (hb : b ≤ maxTickIndex + 1) (hac : a ≤ c) (hcb : c < b)
    (hdark : ∀ t, a < t → t < b → R.gross t = 0)
    (hp : tickPrice a ≤ p ∧ p ≤ tickPrice b) (hq : tickPrice a ≤ q ∧ q ≤ tickPrice b) :
    reserve R X q = reserve R X p + R.active c * (potential X q - potential X p) := by
  unfold minTickIndex at ha
  unfold maxTickIndex at hb
  unfold reserve holding rangePrice Ranges.active
  rw [R.total_clamp_shift (potential X) (fun k => tickPrice (R.lower k))
    (fun k => tickPrice (R.upper k)) _ (p := p) (P := fun k => R.Contains k c), R.natCast_total]
  · simp
  intro k hk h0
  obtain ⟨h1, h2, h3⟩ := hR k hk h0
  unfold minTickIndex at h1
  unfold maxTickIndex at h3
  have hend : ∀ t, R.lower k = t ∨ R.upper k = t → t ≤ a ∨ b ≤ t := fun t ht => by
    by_contra hcon
    rw [not_or, not_le, not_le] at hcon
    obtain ⟨hl, hu⟩ := R.gross_eq_zero_iff.1 (hdark t hcon.1 hcon.2) k hk h0
    exact ht.elim hl hu
  have hle : tickPrice (R.lower k) ≤ tickPrice (R.upper k) :=
    tickPrice_le (by omega) h2.le (by omega)
  rcases hend _ (Or.inl rfl) with hl | hl
  · have hla : tickPrice (R.lower k) ≤ tickPrice a := tickPrice_le (by omega) hl (by omega)
    rcases hend _ (Or.inr rfl) with hu | hu
    · have hua : tickPrice (R.upper k) ≤ tickPrice a := tickPrice_le (by omega) hu (by omega)
      refine Or.inr ⟨fun hc => ?_, ?_⟩
      · have := hc.2
        omega
      · rw [Ranges.clamp_of_upper_le hle (hua.trans hp.1),
          Ranges.clamp_of_upper_le hle (hua.trans hq.1)]
    · have hub : tickPrice b ≤ tickPrice (R.upper k) := tickPrice_le (by omega) hu (by omega)
      exact Or.inl ⟨⟨by omega, by omega⟩, ⟨hla.trans hp.1, hp.2.trans hub⟩, hla.trans hq.1,
        hq.2.trans hub⟩
  · have hlb : tickPrice b ≤ tickPrice (R.lower k) := tickPrice_le (by omega) hl (by omega)
    refine Or.inr ⟨fun hc => ?_, ?_⟩
    · have := hc.1
      omega
    · rw [Ranges.clamp_of_le_lower (hp.2.trans hlb), Ranges.clamp_of_le_lower (hq.2.trans hlb)]

/-- **The liquidity left of a tick is bounded by the reserve of token B at its price**: between
neighbouring ticks each unit of liquidity is worth at least two units in Q64.64.

**Proof sketch.** The ranges that are active left of the tick all contain the stretch below it, and
each unit of their liquidity is worth the difference of two prices there. The reserve is less than a
`u64`. -/
theorem active_left_lt (hR : OnTicks R) {n : ℤ} (h : reserve R .B (tickPrice n) < 2 ^ 64) :
    R.active (n - 1) < 2 ^ 127 := by
  have hle : (R.active (n - 1) : ℚ) * (2 / 2 ^ 64) ≤ reserve R .B (tickPrice n) := by
    refine R.total_ite_mul_le (fun k hk h0 hc => ?_) fun k hk h0 => ?_
    · obtain ⟨h1, h2, h3⟩ := hR k hk h0
      obtain ⟨hlo, hhi⟩ := hc
      unfold minTickIndex at h1
      unfold maxTickIndex at h3
      have hstep : tickPrice (R.lower k) ≤ tickPrice (n - 1) :=
        tickPrice_le (by omega) hlo (by omega)
      have hup : tickPrice n ≤ tickPrice (R.upper k) := tickPrice_le (by omega) (by omega) (by omega)
      have hgap := tickPrice_gap (t := n - 1) (by omega) (by omega)
      rw [sub_add_cancel] at hgap
      have hnat : tickPrice (R.lower k) + 2 ≤ tickPrice n := by omega
      have hq : (tickPrice (R.lower k) : ℚ) + 2 ≤ tickPrice n := by exact_mod_cast hnat
      simp only [holding, rangePrice, potential, Token.emptyEnd,
        Ranges.clamp_of_le (show tickPrice (R.lower k) ≤ tickPrice n by omega) hup]
      rw [← sub_div]
      exact div_le_div_of_nonneg_right (by linarith) (by positivity)
    · obtain ⟨h1, h2, h3⟩ := hR k hk h0
      exact holding_nonneg h1 h2 h3
  have hlt : (R.active (n - 1) : ℚ) < 2 ^ 127 := by linarith
  exact_mod_cast hlt

/-- The liquidity that ends at a tick lies left of it. -/
theorem endsAt_lt (hR : OnTicks R) {n : ℤ} (h : reserve R .B (tickPrice n) < 2 ^ 64) :
    R.endsAt n < 2 ^ 127 := by
  refine lt_of_le_of_lt (R.total_le_total fun k hk h0 => ?_) (active_left_lt hR h)
  obtain ⟨-, h2, -⟩ := hR k hk h0
  rcases eq_or_ne (R.upper k) n with rfl | hne
  · rw [if_pos rfl, if_pos ⟨by omega, by omega⟩]
  · rw [if_neg hne]
    exact Nat.zero_le _

/-- **The liquidity at a tick is bounded by the reserve of token A at its price**: up to the next
tick each unit of liquidity is worth a part in `2 ^ 17` of the inverse of the price.

**Proof sketch.** Every range that contains the tick reaches to the next tick at least, and holds
token A for the way up to it. The gap between two neighbouring prices is at least a part in `2 ^ 17`
of the price, so the reserve bounds the sum of their sizes. -/
theorem active_right_lt (hR : OnTicks R) {n : ℤ} (h : reserve R .A (tickPrice n) < 2 ^ 64) :
    R.active n < 2 ^ 127 := by
  have hle : (R.active n : ℚ) * (1 / 2 ^ 50) ≤ reserve R .A (tickPrice n) := by
    refine R.total_ite_mul_le (fun k hk h0 hc => ?_) fun k hk h0 => ?_
    · obtain ⟨h1, h2, h3⟩ := hR k hk h0
      obtain ⟨hlo, hhi⟩ := hc
      unfold minTickIndex at h1
      unfold maxTickIndex at h3
      have hlow : tickPrice (R.lower k) ≤ tickPrice n := tickPrice_le (by omega) hlo (by omega)
      have hnext : tickPrice (n + 1) ≤ tickPrice (R.upper k) :=
        tickPrice_le (by omega) (by omega) (by omega)
      have hpos := tickPrice_pos (t := n) (by omega) (by omega)
      have hmax := (tickPrice_le_max (t := n) (by omega) (by omega)).trans_lt maxSqrtPriceX64_lt
      have hratio := tickPrice_ratio (t := n) (by omega) (by omega)
      have hup : tickPrice n ≤ tickPrice (R.upper k) := by omega
      simp only [holding, rangePrice, potential, Token.emptyEnd, Ranges.clamp_of_le hlow hup]
      obtain ⟨p, hp⟩ : ∃ p, tickPrice n = p := ⟨_, rfl⟩
      obtain ⟨q, hq⟩ : ∃ q, tickPrice (R.upper k) = q := ⟨_, rfl⟩
      rw [hp] at hpos hmax hratio ⊢
      rw [hq] at hnext ⊢
      have hp0 : (0 : ℚ) < p := by exact_mod_cast hpos
      have hpm : (p : ℚ) ≤ 2 ^ 97 := by exact_mod_cast hmax.le
      have hpq : (p : ℚ) * (2 ^ 16 + 1) ≤ q * 2 ^ 16 := by
        exact_mod_cast hratio.trans (Nat.mul_le_mul_right _ hnext)
      have hq0 : (0 : ℚ) < q := by linarith
      have hinv : (1 : ℚ) / q ≤ 2 ^ 16 / (2 ^ 16 + 1) * (1 / p) := by
        rw [← mul_div_mul_comm, div_le_div_iff₀ hq0 (by positivity)]
        linarith
      have hbound : (1 : ℚ) / 2 ^ 97 ≤ 1 / p := one_div_le_one_div_of_le hp0 hpm
      rw [div_eq_mul_one_div _ (p : ℚ), div_eq_mul_one_div _ (q : ℚ)]
      linarith
    · obtain ⟨h1, h2, h3⟩ := hR k hk h0
      exact holding_nonneg h1 h2 h3
  have hlt : (R.active n : ℚ) < 2 ^ 127 := by linarith
  exact_mod_cast hlt

end NemoSwap
