import NemoSwap.Pool.Ownership

set_option relaxedAutoImplicit false
set_option autoImplicit false

/-!
# Positions out of range

A trade logs its fees at the tick indices that it passes, which lie between the tick index before
it and the one after it. So a position earns nothing while the tick index of the pool stays on one
side of its range, and what its liquidity would be paid stays the same as well: it consists of one
token, whose amount does not depend on the price.

## Main definitions

* `NemoSwap.Pool.StaysOutside` — the tick index stays on one side of a range.

## Main results

* `NemoSwap.traceLoop_grown` — a swap logs nothing beyond its first and its last tick index.
* `NemoSwap.Reachable.out_of_range` — a position in a run on one side of its range.
-/

namespace NemoSwap

/-! ## The tick indices of a swap -/

section Loop

variable {w : Whirlpool} {infos : Fin numRewards → WhirlpoolRewardInfo} {base : TickMap}
  {limit amount : ℕ} {input aToB : Bool}

/-- A tick index is ahead of another in the direction of a trade. -/
def TickToward (aToB : Bool) (c d : ℤ) : Prop := if aToB then d ≤ c else c ≤ d

/-- A tick is toward itself. -/
theorem TickToward.refl (c : ℤ) : TickToward aToB c c := by
  unfold TickToward
  split_ifs
  · exact le_rfl
  · exact le_rfl

/-- Going toward a tick is transitive. -/
theorem TickToward.trans {c d e : ℤ} (h : TickToward aToB c d) (h' : TickToward aToB d e) :
    TickToward aToB c e := by
  unfold TickToward at *
  split_ifs at *
  · exact h'.trans h
  · exact h.trans h'

/-- An iteration moves the tick index in the direction of the trade.

**Proof sketch.** At the tick that was found the index moves to that tick, or one before it; short
of it, the index lies between the old one and the tick. -/
lemma StepResult.tickToward {n : ℤ} {comp : SwapStepComputation} {s s' : SwapState}
    (hb : SwapBounds w limit amount) (hs : s.WellFormed w base limit amount aToB)
    (h : StepResult w infos base limit input aToB n comp s s') :
    TickToward aToB s.currTickIndex s'.currTickIndex := by
  have hreached : s'.currTickIndex = crossedIndex aToB n →
      TickToward aToB s.currTickIndex s'.currTickIndex := fun hc => by
    rw [hc]
    unfold TickToward crossedIndex
    cases aToB with
    | true =>
      have := (h.search.left rfl).1
      simp only [if_true]
      omega
    | false =>
      have := (h.search.right rfl).1
      simp only [Bool.false_eq_true, if_false]
      omega
  cases h.move with
  | cross _ _ _ _ _ _ hc => exact hreached hc
  | pass _ _ _ _ hc => exact hreached hc
  | stop hshort _ _ hmove =>
    have hbetween := (h.between hb hs hshort hmove).2
    unfold TickToward
    cases aToB with
    | true => exact hbetween.2
    | false => exact hbetween.1

/-- The tick indices on the far sides of two others. -/
def Beyond (aToB : Bool) (c d x : ℤ) : Prop := if aToB then x < d ∨ c < x else x < c ∨ d < x

/-- **A swap logs nothing beyond its first and its last tick index.**

**Proof sketch.** The invariant of the loop: what is logged lies between the first tick index and
the current one. An iteration logs its fee at the tick index before it, and moves in the direction
of the trade. -/
theorem traceLoop_grown (hb : SwapBounds w limit amount) {count : ℕ} {t t' : SwapTrace}
    (hs : t.state.WellFormed w base limit amount aToB)
    (h : traceLoop w infos limit input aToB count t = .ok t') :
    TickToward aToB t.state.currTickIndex t'.state.currTickIndex ∧
      ∀ x, Beyond aToB t.state.currTickIndex t'.state.currTickIndex x → t'.grown x = t.grown x := by
  have hstep : ∀ t₁ t₂ : SwapTrace, (t₁.state.WellFormed w base limit amount aToB ∧
      TickToward aToB t.state.currTickIndex t₁.state.currTickIndex ∧
      ∀ x, Beyond aToB t.state.currTickIndex t₁.state.currTickIndex x → t₁.grown x = t.grown x) →
      t₁.state.Running limit → traceStep w infos limit input aToB t₁ = .ok t₂ →
      t₂.state.WellFormed w base limit amount aToB ∧
        TickToward aToB t.state.currTickIndex t₂.state.currTickIndex ∧
        ∀ x, Beyond aToB t.state.currTickIndex t₂.state.currTickIndex x →
          t₂.grown x = t.grown x := by
    rintro t₁ t₂ ⟨hwf, htow, hgrown⟩ hrun hnext
    obtain ⟨hswap, hrecord, -⟩ := traceStep_eq_ok hnext
    obtain ⟨-, n, comp, -, -, hres⟩ := swapStep_cases hb hwf hrun.2 hswap
    have htow₁ := hres.tickToward hb hwf
    refine ⟨hres.wellFormed hb hwf, htow.trans htow₁, fun x hx => ?_⟩
    -- the fee is logged at the tick index before the iteration
    have hne : x ≠ t₁.state.currTickIndex := by
      unfold Beyond at hx
      unfold TickToward at htow htow₁
      split_ifs at *
      · omega
      · omega
    rw [hrecord, Outside.record, Function.update_of_ne hne]
    refine hgrown x ?_
    unfold Beyond at hx ⊢
    unfold TickToward at htow htow₁
    split_ifs at *
    · omega
    · omega
  exact (traceLoop_invariant hstep count ⟨hs, .refl _, fun _ _ => rfl⟩ h).1.2

end Loop

/-! ## One instruction -/

/-- Both tick indices are on one side of a range. -/
def SameSide (lo hi c d : ℤ) : Prop := (c < lo ∧ d < lo) ∨ (hi ≤ c ∧ hi ≤ d)

/-- Where a log is zero inside a range, nothing is recorded for it. -/
lemma recorded_eq_zero {log : ℤ → ℕ} {lo hi : ℤ} (h : ∀ x, lo ≤ x → x < hi → log x = 0) :
    Outside.recorded log lo hi = 0 :=
  Finset.sum_eq_zero fun x hx => h x (Finset.mem_Ico.1 hx).1 (Finset.mem_Ico.1 hx).2

namespace Pool

variable {pool pool' : Pool} {earned : Earnings} {op : PoolOp} {lo hi : ℤ}

/-- A trade on one side of a range logs no fees in it.

**Proof sketch.** The swap logs fees only between its first and its last tick index. Both are on the
same side of the range, so none of the logged indices lies in it. -/
lemma Traded.grown_eq_zero (hs : pool.Sound earned) (hb : pool.Backed earned) {args : SwapArgs}
    {infos : Fin numRewards → WhirlpoolRewardInfo} {timestamp : ℕ} {t : SwapTrace}
    (h : Traded pool pool' args infos timestamp t)
    (hside : SameSide lo hi pool.whirlpool.tickCurrentIndex pool'.whirlpool.tickCurrentIndex) :
    Outside.recorded t.grown lo hi = 0 := by
  obtain ⟨sequence, -, hload, hrun⟩ := h.invariant
  have hobs := h.observed
  unfold observeSwap at hobs
  rw [hrun.loaded, Res.ok_bind, h.rewards, Res.ok_bind] at hobs
  have hstart := hs.swapStart hb sequence args.aToB args.amount hrun.min_le hrun.le_max
  have hinv : SwapInvariant pool.ranges pool.whirlpool infos pool.tickArrays
      args.sqrtPriceLimit.toNat args.amount.toNat args.amountSpecifiedIsInput args.aToB
      (initialSwapState pool.whirlpool sequence args.amount.toNat args.aToB)
      (initialTrace pool.whirlpool sequence args.amount.toNat args.aToB) :=
    hs.swapInvariant args.amount.toNat hload h.rewards hrun.toward
  obtain ⟨htow, hgrown⟩ := traceLoop_grown hstart.bounds hinv.wellFormed hobs
  rw [h.record.2.1] at hside
  change SameSide lo hi (initialTrace pool.whirlpool sequence args.amount.toNat
    args.aToB).state.currTickIndex _ at hside
  refine recorded_eq_zero fun x hlo hhi => hgrown x ?_
  -- all tick indices of the trade are on the side of its ends
  unfold Beyond
  unfold TickToward at htow
  unfold SameSide at hside
  split_ifs at htow ⊢
  · omega
  · omega

/-- An instruction on one side of a range logs no fees in it.

**Proof sketch.** By the effect of the instruction: only a trade logs fees, and only at the tick
indices that it passes, which are on one side of the range. -/
lemma recorded_growthLog_fee (hs : pool.Sound earned) (hb : pool.Backed earned)
    (h : pool.step op = .ok pool')
    (hside : SameSide lo hi pool.whirlpool.tickCurrentIndex pool'.whirlpool.tickCurrentIndex)
    (X : Token) : Outside.recorded (pool.growthLog op (.fee X)) lo hi = 0 := by
  rcases step_effect hs hb h with ⟨hclock, -, -, -⟩ |
    ⟨clock, infos, timestamp, hclock, ht, -, htrade, hr, -⟩ |
    ⟨clock, k, infos, timestamp, delta, hclock, ht, -, htrade, hu⟩ |
    ⟨clock, args, infos, timestamp, t, hclock, ht, -, htrade, htr⟩
  · refine recorded_eq_zero fun x _ _ => ?_
    unfold growthLog
    rw [accrual_none hclock]
  · rw [growthLog_of_accrual (accrual_some hclock ht hr) htrade]
    exact recorded_eq_zero fun x _ _ => rfl
  · rw [growthLog_of_accrual (accrual_some hclock ht hu.rewards) htrade]
    exact recorded_eq_zero fun x _ _ => rfl
  · rw [growthLog_of_trade (accrual_some hclock ht htr.rewards) htrade htr.observed]
    by_cases hX : X = tokenIn args.aToB
    · rw [show pool.tradeLog args infos t (.fee X) = t.grown from if_pos hX]
      exact htr.grown_eq_zero hs hb hside
    · rw [show pool.tradeLog args infos t (.fee X) = fun _ => 0 from if_neg hX]
      exact recorded_eq_zero fun x _ _ => rfl

end Pool

/-- The amounts of a position do not depend on the price on one side of its range. -/
lemma calculateLiquidityTokenDeltas_congr {p q : Position}
    (hlo : q.tickLowerIndex = p.tickLowerIndex) (hhi : q.tickUpperIndex = p.tickUpperIndex)
    (hle : p.tickLowerIndex ≤ p.tickUpperIndex) {c d : ℤ}
    (hside : SameSide p.tickLowerIndex p.tickUpperIndex c d) (u v : ℕ) (delta : ℤ) :
    calculateLiquidityTokenDeltas d v q delta = calculateLiquidityTokenDeltas c u p delta := by
  unfold calculateLiquidityTokenDeltas
  rw [hlo, hhi]
  rcases hside with ⟨hc, hd⟩ | ⟨hc, hd⟩
  · simp only [if_pos hc, if_pos hd]
  · simp only [if_neg (not_lt.2 (hle.trans hc)), if_neg (not_lt.2 (hle.trans hd)),
      if_neg (not_lt.2 hc), if_neg (not_lt.2 hd)]

/-- **One instruction on one side of the range**, without the owner.

**Proof sketch.** What the position could take out does not depend on a price beyond its range. What
it could collect depends on its earnings, to which nothing is added by trades on one side of the
range; an update only turns earnings into fees owed. -/
theorem History.Invariant.exitValue_step {s : History} (h : s.Invariant) {op : PoolOp}
    {pool' : Pool} {key : Pubkey} (hk : key ∈ s.pool.positions)
    (hno : ¬op.ProvesOwner key (s.pool.position key).positionMint)
    (hstep : s.pool.step op = .ok pool')
    (hside : SameSide (s.pool.position key).tickLowerIndex (s.pool.position key).tickUpperIndex
      s.pool.whirlpool.tickCurrentIndex pool'.whirlpool.tickCurrentIndex) (X : Token) :
    pool'.exitValue key X = s.pool.exitValue key X := by
  have h' := h.extend hstep
  obtain ⟨hk', hsame, -⟩ := h.unattended_step hk hno hstep
  obtain ⟨-, -, hlt⟩ := h.sound.onUsableTicks key hk
  have hamount : pool'.removalAmount key X = s.pool.removalAmount key X := by
    unfold Pool.removalAmount
    rw [hsame.liquidity, calculateLiquidityTokenDeltas_congr hsame.lower hsame.upper hlt.le hside]
  have hpending : pool'.pendingFee key X =
      (pool'.position key).liquidity * (s.extend op pool').earned key (.fee X) / 2 ^ 64 :=
    h'.backed.pendingFee_eq h'.sound hk' X
  have hearned : (s.earned.add s.pool (s.pool.growthLog op)) key (.fee X) =
      s.earned key (.fee X) := by
    unfold Earnings.add
    rw [Pool.recorded_growthLog_fee h.sound h.backed hstep hside X]
    exact Nat.add_zero _
  unfold Pool.exitValue
  rw [hamount, hpending, h.backed.pendingFee_eq h.sound hk X]
  rcases Pool.step_of_not_provesOwner h.sound h.backed hk hno hstep with
    ⟨hupd, -, hposition⟩ | ⟨hupd, infos, timestamp, hu⟩
  · have hkept : (s.extend op pool').earned key (.fee X) = s.earned key (.fee X) := by
      rw [← hearned]
      unfold History.extend
      cases hup : op.updated with
      | none => rfl
      | some k =>
        have hne : key ≠ k := fun he => hupd (he ▸ hup)
        exact congrFun (Function.update_of_ne hne _ _) _
    rw [hkept, hposition]
  · have hcleared : (s.extend op pool').earned key (.fee X) = 0 := by
      unfold History.extend
      rw [hupd]
      change (s.earned.add s.pool (s.pool.growthLog op)).clear key key (.fee X) = 0
      rw [Earnings.clear, Function.update_self]
    -- the pending fees are credited
    rw [hcleared, hu.feeOwed h.sound h.backed X]
    simp

/-! ## Runs -/

/-- The tick index of a pool stays on one side of a range, after each instruction of a run. -/
def Pool.StaysOutside (pool : Pool) (ops : List PoolOp) (lo hi : ℤ) : Prop :=
  (∀ part ∈ ops.inits, (pool.run part).whirlpool.tickCurrentIndex < lo) ∨
    ∀ part ∈ ops.inits, hi ≤ (pool.run part).whirlpool.tickCurrentIndex

instance (pool : Pool) (ops : List PoolOp) (lo hi : ℤ) : Decidable (pool.StaysOutside ops lo hi) :=
  inferInstanceAs (Decidable (_ ∨ _))

/-- The first instruction of a run outside a range stays on its side. -/
lemma Pool.StaysOutside.sameSide {pool : Pool} {op : PoolOp} {ops : List PoolOp} {lo hi : ℤ}
    (h : pool.StaysOutside (op :: ops) lo hi) :
    SameSide lo hi pool.whirlpool.tickCurrentIndex (pool.next op).whirlpool.tickCurrentIndex := by
  have hstart : [] ∈ (op :: ops).inits := (List.mem_inits _ _).2 List.nil_prefix
  have hfirst : [op] ∈ (op :: ops).inits := (List.mem_inits _ _).2 ⟨ops, rfl⟩
  exact h.imp (fun h => ⟨h [] hstart, h [op] hfirst⟩) fun h => ⟨h [] hstart, h [op] hfirst⟩

/-- After its first instruction a run outside a range goes on outside it. -/
theorem Pool.StaysOutside.tail {pool : Pool} {op : PoolOp} {ops : List PoolOp} {lo hi : ℤ}
    (h : pool.StaysOutside (op :: ops) lo hi) : (pool.next op).StaysOutside ops lo hi := by
  have hcons : ∀ part ∈ ops.inits, op :: part ∈ (op :: ops).inits := fun part hpart =>
    (List.mem_inits _ _).2 ((List.prefix_cons_inj op).2 ((List.mem_inits _ _).1 hpart))
  rcases h with h | h
  · exact .inl fun part hpart => h _ (hcons part hpart)
  · exact .inr fun part hpart => h _ (hcons part hpart)

/-- **A position in a run on one side of its range.** From a reachable pool, whatever instructions
are run without the owner of a position: if the tick index of the pool stays on one side of its
range, the liquidity and the fees of the position are worth as much of each token as before.

**Proof sketch.** Induction on the run, with `exitValue_step` for an instruction that succeeds; one
that fails changes nothing. The mint and the range of the position stay, so the hypotheses hold of
the rest. -/
theorem Reachable.out_of_range {pool : Pool} (h : Reachable pool) {key : Pubkey}
    (hk : key ∈ pool.positions) {ops : List PoolOp}
    (hops : ∀ op ∈ ops, ¬op.ProvesOwner key (pool.position key).positionMint)
    (hside : pool.StaysOutside ops (pool.position key).tickLowerIndex
      (pool.position key).tickUpperIndex) (X : Token) :
    (pool.run ops).exitValue key X = pool.exitValue key X := by
  induction ops generalizing pool with
  | nil => rfl
  | cons op ops ih =>
    have hrest : ∀ op ∈ ops, ¬op.ProvesOwner key (pool.position key).positionMint :=
      fun op hop => hops op (List.mem_cons_of_mem _ hop)
    have hfirst := hside.sameSide
    have htail := hside.tail
    rcases pool.run_cons op ops with ⟨hnext, hrun⟩ | ⟨pool₁, hstep, hnext, hrun⟩
    · rw [hnext] at htail
      rw [hrun]
      exact ih h hk hrest htail
    · rw [hnext] at hfirst htail
      rw [hrun]
      obtain ⟨s, rfl, hs⟩ := h.invariant
      obtain ⟨hk₁, hsame, -⟩ := hs.unattended_step hk (hops op List.mem_cons_self) hstep
      rw [ih (h.step hstep) hk₁ (hsame.mint ▸ hrest) (hsame.lower ▸ hsame.upper ▸ htail)]
      exact hs.exitValue_step hk (hops op List.mem_cons_self) hstep hfirst X

/-- The sample pool below its position. -/
def sampleBelow : Pool := samplePool.next sampleCrossing

/-- A second position is opened below the first one and filled, a swap runs through it, and the
first one is updated. -/
def sampleBelowOps : List PoolOp :=
  [.openPosition 2 10 (-1280) (-256),
    .increaseLiquidity 2 sampleAuth₂ (-5632) (-5632) 1000000000 1000000000 1000000000 6 sampleFunds,
    .swap ⟨-5632, -5632, -5632, 1000000, 4295048016, true, true⟩ 0 7 sampleFunds,
    .updateFeesAndRewards 1 (-5632) 0 8]

/-- The second position earns fees, and the first one is worth as much as before. -/
theorem Reachable.out_of_range_sampleBelow :
    ((sampleBelow.run sampleBelowOps).feeClaim 2 .A, sampleBelow.exitValue 1 .A) =
        (2909, 12818186) ∧
      (sampleBelow.run sampleBelowOps).exitValue 1 .A = sampleBelow.exitValue 1 .A := by
  refine ⟨by decide +kernel, ?_⟩
  have hreachable : Reachable sampleBelow :=
    samplePool_reachable.step (Pool.step_eq_next (by decide +kernel))
  refine hreachable.out_of_range (by decide +kernel) (fun op hop => ?_) (by decide +kernel) .A
  rintro ⟨auth, howned, hmint, -⟩
  simp only [sampleBelowOps, List.mem_cons, List.not_mem_nil, or_false] at hop
  rcases hop with rfl | rfl | rfl | rfl
  · cases howned
  · cases howned
  · cases howned
  · cases howned

end NemoSwap
