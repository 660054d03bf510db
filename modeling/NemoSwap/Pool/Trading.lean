import NemoSwap.Pool.Solvency

set_option relaxedAutoImplicit false
set_option autoImplicit false

/-!
# Trading gains nothing

Between changes of liquidity the exact reserves behind the positions are a function of the price.
A swap never lets a reserve fall by more than the trader leaves in the vault, and the two reserves
move in opposite directions, so no sequence of swaps leaves the trader with a gain in one token
and no loss in the other.

## Main definitions

* `NemoSwap.Pool.Trades` — a sequence of swaps with the amounts that the trader pays and receives.

## Main results

* `NemoSwap.Pool.Trades.reserve_le` — the reserves after a sequence of swaps.
* `NemoSwap.Reachable.no_free_money` — the trader never gains.
-/

namespace NemoSwap

namespace Pool

variable {pool pool' : Pool} {earned : Earnings} {op : PoolOp} {X : Token}

/-! ## Sequences of swaps -/

/-- What the trader pays of a token in a swap. -/
def amountPaid (aToB : Bool) (swapUpdate : PostSwapUpdate) (X : Token) : ℕ :=
  if X = tokenIn aToB then tokenAmount (swapUpdate.amountA, swapUpdate.amountB) X else 0

/-- What the trader receives of a token in a swap. -/
def amountReceived (aToB : Bool) (swapUpdate : PostSwapUpdate) (X : Token) : ℕ :=
  if X = tokenIn aToB then 0 else tokenAmount (swapUpdate.amountA, swapUpdate.amountB) X

/-- The instructions that change the liquidity of positions. -/
def changesLiquidity : PoolOp → Bool
  | .increaseLiquidity .. | .decreaseLiquidity .. => true
  | _ => false

/-- A sequence of successful swaps in a pool, with the total amounts that the trader pays and
receives. Between the swaps anything may happen but changes of liquidity. -/
inductive Trades (pool : Pool) : (Token → ℕ) → (Token → ℕ) → Pool → Prop
  | nil : Trades pool (fun _ => 0) (fun _ => 0) pool
  | swap {paid received : Token → ℕ} {pool₁ pool₂ : Pool} {op : PoolOp} {args : SwapArgs}
      {clock : Int64} {timestamp : ℕ} {swapUpdate : PostSwapUpdate} {sequence : SwapTickSequence}
      (h : Trades pool paid received pool₁) (htrade : op.trade = some args)
      (hclock : op.clock = some clock) (ht : toTimestampU64 clock = .ok timestamp)
      (hc : pool₁.computeSwapUpdate args timestamp = .ok (swapUpdate, sequence))
      (hstep : pool₁.step op = .ok pool₂) :
      Trades pool (fun X => paid X + amountPaid args.aToB swapUpdate X)
        (fun X => received X + amountReceived args.aToB swapUpdate X) pool₂
  | other {paid received : Token → ℕ} {pool₁ pool₂ : Pool} {op : PoolOp}
      (h : Trades pool paid received pool₁) (htrade : op.trade = none)
      (hliq : changesLiquidity op = false) (hstep : pool₁.step op = .ok pool₂) :
      Trades pool paid received pool₂

/-! ## Reserves -/

/-- The reserves at any price depend on the positions only through their nonempty ranges. -/
theorem Quiet.reserve (h : pool.Quiet pool') (X : Token) (p : ℕ) :
    reserve pool'.ranges X p = reserve pool.ranges X p :=
  h.ranges.total fun k hk h0 => by rw [h.ranges.lower k hk h0, h.ranges.upper k hk h0]

/-- An update without a change of liquidity leaves the reserves at every price. -/
theorem Updated.reserve {key : Pubkey} {infos : Fin numRewards → WhirlpoolRewardInfo}
    {timestamp : ℕ} (h : Updated pool pool' key infos timestamp 0) (X : Token) (p : ℕ) :
    reserve pool'.ranges X p = reserve pool.ranges X p := by
  have hranges := h.resized.ranges
  have htotal := h.resized.total (M := ℚ) h.mem fun k =>
    holding X (pool'.ranges.lower k) (pool'.ranges.upper k) p
  rw [Int.cast_zero, zero_mul, add_zero, ranges_settle] at htotal
  have hlo : pool'.ranges.lower = pool.ranges.lower := by
    rw [hranges, ranges_settle]
    rfl
  have hhi : pool'.ranges.upper = pool.ranges.upper := by
    rw [hranges, ranges_settle]
    rfl
  unfold NemoSwap.reserve
  rw [htotal, hlo, hhi]
  rfl

/-- An instruction that neither swaps nor changes liquidity leaves the price, and the reserves at
every price. -/
lemma reserve_other (hs : pool.Sound earned) (hb : pool.Backed earned) (htrade : op.trade = none)
    (hliq : changesLiquidity op = false) (h : pool.step op = .ok pool') :
    pool'.whirlpool.sqrtPrice = pool.whirlpool.sqrtPrice ∧
      ∀ X p, reserve pool'.ranges X p = reserve pool.ranges X p := by
  rcases step_effect hs hb h with ⟨-, -, -, hq⟩ | ⟨-, infos, timestamp, -, -, -, -, -, hq⟩ |
    ⟨-, key, -, -, -, -, -, hupd, -, -⟩ | ⟨-, args, -, -, -, -, -, -, h', -⟩
  · exact ⟨hq.sqrtPrice, hq.reserve⟩
  · exact ⟨hq.sqrtPrice, hq.reserve⟩
  · cases op with
    | updateFeesAndRewards key' lo hi clock =>
      obtain ⟨infos, timestamp, -, hu⟩ := updateFeesAndRewards_updated hs h
      exact ⟨hu.resized.whirlpool_eq.2.2.2.1, hu.reserve⟩
    | increaseLiquidity => cases hliq
    | decreaseLiquidity => cases hliq
    | _ => cases hupd
  · rw [htrade] at h'
    cases h'

/-- The amounts of a swap are those of its trace. -/
lemma amounts_eq (args : SwapArgs) (infos : Fin numRewards → WhirlpoolRewardInfo)
    (t : SwapTrace) (X : Token) :
    amountPaid args.aToB (postSwapUpdate args.amount.toNat args.amountSpecifiedIsInput args.aToB
        infos t.state) X = paid args t X ∧
      amountReceived args.aToB (postSwapUpdate args.amount.toNat args.amountSpecifiedIsInput
        args.aToB infos t.state) X = received args t X := by
  obtain ⟨hA, hB⟩ := postSwapUpdate_amounts args.amount.toNat args.amountSpecifiedIsInput
    args.aToB infos t.state
  unfold amountPaid amountReceived paid received tokenAmount tokenIn
  rw [hA, hB]
  cases args.aToB <;> cases X <;> exact ⟨rfl, rfl⟩

/-- **The reserves after a sequence of swaps**: at every price they are what they were, and at the
current price they have fallen by no more than the trader has left in the vault.

**Proof sketch.** Induction on the sequence. A swap keeps the ranges, and the vaults gain at least
what the reserves gain; any other instruction in between keeps the liquidity, so the reserves are
the same at every price. -/
theorem Trades.reserve_le (hr : Reachable pool) {paid received : Token → ℕ}
    (h : Trades pool paid received pool') :
    Reachable pool' ∧ (∀ X p, reserve pool'.ranges X p = reserve pool.ranges X p) ∧
      ∀ X, reserve pool'.ranges X pool'.whirlpool.sqrtPrice + received X ≤
        reserve pool.ranges X pool.whirlpool.sqrtPrice + paid X := by
  induction h with
  | nil => exact ⟨hr, fun _ _ => rfl, fun X => by simp⟩
  | @swap paid received pool₁ pool₂ op args clock timestamp swapUpdate sequence h htrade hclock ht
      hc hstep ih =>
    obtain ⟨hr₁, hrange, hle⟩ := ih
    obtain ⟨s, rfl, hs⟩ := hr₁.invariant
    obtain ⟨clock', timestamp', infos, t, sequence', hclock', ht', hc', htr⟩ :=
      trade_traded hs.sound hs.backed htrade hstep
    rw [hclock, Option.some.injEq] at hclock'
    subst hclock'
    rw [ht, Except.ok.injEq] at ht'
    subst ht'
    rw [hc, Except.ok.injEq, Prod.mk.injEq] at hc'
    obtain ⟨rfl, rfl⟩ := hc'
    refine ⟨hr₁.step hstep, fun X p => by rw [htr.ranges, hrange], fun X => ?_⟩
    obtain ⟨hpaid, hreceived⟩ := amounts_eq args infos t X
    have hmove := htr.reserve_le X
    have hold := hle X
    have hfees : (0 : ℚ) ≤ if X = tokenIn args.aToB then
        loggedFor s.pool.ranges t.grown / 2 ^ 64 + t.protocolFees else 0 := by
      split_ifs
      · exact add_nonneg (div_nonneg (s.pool.ranges.total_nonneg fun _ _ => Nat.cast_nonneg _)
          (by positivity)) (Nat.cast_nonneg _)
      · exact le_rfl
    simp only [hpaid, hreceived, Nat.cast_add]
    linarith
  | other h htrade hliq hstep ih =>
    obtain ⟨hr₁, hrange, hle⟩ := ih
    obtain ⟨s, rfl, hs⟩ := hr₁.invariant
    obtain ⟨hp, hrange'⟩ := reserve_other hs.sound hs.backed htrade hliq hstep
    refine ⟨hr₁.step hstep, fun X p => (hrange' X p).trans (hrange X p), fun X => ?_⟩
    rw [hp, hrange']
    exact hle X

end Pool

/-- **No free money from trading.** After any sequence of swaps the trader has lost in one token,
or has neither gained nor lost in any.

**Proof sketch.** If the trader had gained in one token and not lost in the other, no reserve would
have grown. Then neither has changed, by `reserve_eq_of_le`, and he has gained nothing. -/
theorem Reachable.no_free_money {pool pool' : Pool} (h : Reachable pool)
    {paid received : Token → ℕ} (ht : Pool.Trades pool paid received pool') :
    (∃ X, received X < paid X) ∨ ∀ X, received X = paid X := by
  obtain ⟨-, hrange, hle⟩ := ht.reserve_le h
  obtain ⟨s, rfl, hs⟩ := h.invariant
  rw [or_iff_not_imp_left, not_exists]
  intro hgain
  -- no reserve has grown, so neither has changed
  have hfall : ∀ X, reserve s.pool.ranges X pool'.whirlpool.sqrtPrice ≤
      reserve s.pool.ranges X s.pool.whirlpool.sqrtPrice := fun X => by
    have h1 := hle X
    have h2 : (paid X : ℚ) ≤ received X := by exact_mod_cast not_lt.1 (hgain X)
    rw [hrange] at h1
    linarith
  have heq := reserve_eq_of_le hs.sound.onTicks (hfall .A) (hfall .B)
  intro X
  have h1 := hle X
  rw [hrange, heq X] at h1
  have h2 : (received X : ℚ) ≤ paid X := by linarith
  exact le_antisymm (by exact_mod_cast h2) (not_lt.1 (hgain X))

/-- A swap and its way back: the trader has lost 601 units of token A. -/
theorem Reachable.no_free_money_sampleBack : ∃ paid received : Token → ℕ,
    Pool.Trades samplePool paid received ((samplePool.next sampleSwap).next sampleBack) ∧
      (paid .A = 100000 ∧ received .A = 99399 ∧ paid .B = 99690 ∧ received .B = 99690) ∧
      ((∃ X, received X < paid X) ∨ ∀ X, received X = paid X) := by
  obtain ⟨⟨u₁, sequence₁⟩, hc₁, hu₁⟩ := Res.map_eq_ok.1 (show (samplePool.computeSwapUpdate
    ⟨0, -5632, -5632, 100000, 4295048016, true, true⟩ 5).map (fun r => (r.1.amountA, r.1.amountB)) =
      .ok (100000, 99690) by decide +kernel)
  obtain ⟨⟨u₂, sequence₂⟩, hc₂, hu₂⟩ := Res.map_eq_ok.1
    (show ((samplePool.next sampleSwap).computeSwapUpdate
      ⟨0, 0, 0, 99690, 79226673515401279992447579055, true, false⟩ 6).map
        (fun r => (r.1.amountA, r.1.amountB)) = .ok (99399, 99690) by decide +kernel)
  have hstep₁ : samplePool.step sampleSwap = .ok (samplePool.next sampleSwap) :=
    Pool.step_eq_next (by decide +kernel)
  have hstep₂ : (samplePool.next sampleSwap).step sampleBack =
      .ok ((samplePool.next sampleSwap).next sampleBack) :=
    Pool.step_eq_next (by decide +kernel)
  have ht := (Pool.Trades.nil.swap (show sampleSwap.trade = some _ from rfl) rfl (by decide) hc₁
    hstep₁).swap (show sampleBack.trade = some _ from rfl) rfl (by decide) hc₂ hstep₂
  obtain ⟨hA₁, hB₁⟩ := Prod.mk.inj hu₁
  obtain ⟨hA₂, hB₂⟩ := Prod.mk.inj hu₂
  refine ⟨_, _, ht, ?_, samplePool_reachable.no_free_money ht⟩
  simp only [Pool.amountPaid, Pool.amountReceived, tokenIn, tokenAmount] at hA₁ hB₁ hA₂ hB₂ ⊢
  simp [hA₁, hB₁, hA₂, hB₂]

end NemoSwap
