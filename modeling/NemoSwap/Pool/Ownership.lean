import NemoSwap.Pool.Exit

set_option relaxedAutoImplicit false
set_option autoImplicit false

/-!
# Positions without their owners

Five instructions act for the owner of a position, and ask for the token that was minted with it.
All others can be sent by anyone. Whatever instructions are run, a position whose owner takes no
part keeps its range and its liquidity, cannot be closed, and what its owner can collect in fees
never falls: only `update_fees_and_rewards` writes to it, and that moves pending fees to the fees
owed.

## Main definitions

* `NemoSwap.PoolOp.ProvesOwner` — an instruction comes with the token of a position.
* `NemoSwap.Pool.feeClaim` — what an owner can collect in fees after an update.

## Main results

* `NemoSwap.Pool.step_of_not_provesOwner` — what one instruction does to a position of another.
* `NemoSwap.Reachable.unattended` — a position in a run without its owner.
-/

namespace NemoSwap

/-! ## Ownership -/

/-- The position that an instruction acts on for its owner, and the proof of ownership. -/
def PoolOp.owned : PoolOp → Option (Pubkey × PositionAuthority)
  | .closePosition key auth => some (key, auth)
  | .increaseLiquidity key auth _ _ _ _ _ _ _ => some (key, auth)
  | .decreaseLiquidity key auth _ _ _ _ _ _ _ => some (key, auth)
  | .collectFees key auth _ => some (key, auth)
  | .collectReward key auth _ _ _ => some (key, auth)
  | _ => none

/-- An instruction acts on a position with an account that has the one token of its mint, and is
signed by the holder or by his delegate. -/
def PoolOp.ProvesOwner (op : PoolOp) (key mint : Pubkey) : Prop :=
  ∃ auth, op.owned = some (key, auth) ∧ auth.mint = mint ∧ auth.amount = 1 ∧
    verifyPositionAuthority auth = .ok ()

namespace Pool

variable {pool pool' : Pool} {earned : Earnings} {key : Pubkey} {op : PoolOp}

/-- An instruction whose owner is accepted has proved the ownership of the position. -/
lemma getOwnedPosition_provesOwner {k : Pubkey} {auth : PositionAuthority} {p : Position}
    (hop : op.owned = some (k, auth)) (h : pool.getOwnedPosition k auth = .ok p) :
    op.ProvesOwner k (pool.position k).positionMint := by
  unfold getOwnedPosition at h
  rw [Res.bind_eq_ok] at h
  obtain ⟨position, hp, h⟩ := h
  obtain ⟨-, rfl⟩ := getPosition_eq_ok hp
  split_ifs at h with hmint
  rw [Res.bind_eq_ok] at h
  obtain ⟨u, hu, -⟩ := h
  exact ⟨auth, hop, hmint.1, hmint.2, hu⟩

/-- Without its owner an instruction that succeeds acts on another position. -/
lemma ne_of_not_provesOwner {k : Pubkey} {auth : PositionAuthority} {p : Position}
    (hno : ¬op.ProvesOwner key (pool.position key).positionMint)
    (hop : op.owned = some (k, auth)) (h : pool.getOwnedPosition k auth = .ok p) : key ≠ k := by
  rintro rfl
  exact hno (getOwnedPosition_provesOwner hop h)

/-! ## One instruction -/

/-- An instruction that updates no position leaves those of owners who take no part.

**Proof sketch.** One case for each instruction. Those on a position ask for its owner, and are on
another position here; opening a position needs a new account; the others touch no position. -/
lemma position_of_not_provesOwner (hs : pool.Sound earned) (hb : pool.Backed earned)
    (hk : key ∈ pool.positions) (hno : ¬op.ProvesOwner key (pool.position key).positionMint)
    (hupd : op.updated = none) (h : pool.step op = .ok pool') :
    key ∈ pool'.positions ∧ pool'.position key = pool.position key := by
  have hrecord : ∀ {x : Res Whirlpool},
      (x >>= fun whirlpool => pure { pool with whirlpool }) = .ok pool' →
      key ∈ pool'.positions ∧ pool'.position key = pool.position key := fun {x} h => by
    rw [Res.bind_eq_ok] at h
    obtain ⟨w, -, h⟩ := h
    obtain rfl := Except.ok.inj h
    exact ⟨hk, rfl⟩
  cases op with
  | openPosition k mint lo hi =>
    change pool.openPosition k mint lo hi = .ok pool' at h
    unfold Pool.openPosition at h
    split_ifs at h with hmem
    simp only [Res.bind_eq_ok] at h
    obtain ⟨-, -, position, -, h⟩ := h
    rw [Res.pure_eq_ok, Except.ok.injEq] at h
    subst h
    -- the account of an open position is not new
    have hne : key ≠ k := fun he => hmem (he ▸ hk)
    exact ⟨Finset.mem_insert_of_mem hk, setPosition_of_ne _ _ hne⟩
  | closePosition k auth =>
    obtain ⟨position, hp, -, -, -, rfl⟩ := closePosition_eq_ok.1 h
    have hne := ne_of_not_provesOwner hno rfl hp
    exact ⟨Finset.mem_erase.2 ⟨hne, hk⟩, rfl⟩
  | collectFees k auth funds =>
    change pool.collectFees k auth funds = .ok pool' at h
    have hne : key ≠ k := by
      have hp := h
      unfold Pool.collectFees at hp
      rw [Res.bind_eq_ok] at hp
      obtain ⟨position, hp, -⟩ := hp
      exact ne_of_not_provesOwner hno rfl hp
    obtain ⟨hpositions, -, -, hother, -⟩ := collectFees_eq_ok h
    exact ⟨hpositions ▸ hk, hother key hne⟩
  | collectProtocolFees funds =>
    change pool.collectProtocolFees funds = .ok pool' at h
    unfold Pool.collectProtocolFees at h
    simp only [Res.bind_eq_ok] at h
    obtain ⟨vaultA, -, vaultB, -, h⟩ := h
    obtain rfl := Except.ok.inj h
    exact ⟨hk, rfl⟩
  | collectReward k auth index vault owner =>
    change pool.collectReward k auth index vault owner = .ok pool' at h
    unfold Pool.collectReward at h
    rw [Res.bind_eq_ok] at h
    obtain ⟨position, hp, h⟩ := h
    have hne := ne_of_not_provesOwner hno rfl hp
    split_ifs at h with hi hv
    rw [Res.bind_eq_ok] at h
    obtain ⟨-, -, h⟩ := h
    obtain rfl := Except.ok.inj h
    exact ⟨hk, setPosition_of_ne _ _ hne⟩
  | swap args threshold clock funds =>
    obtain ⟨infos, timestamp, t, -, htr⟩ := swapLeg_eq_ok hs hb (swapHandler_eq_ok h).2
    exact ⟨htr.positions ▸ hk, congrFun htr.position key⟩
  | twoHopLeg args clock funds =>
    obtain ⟨infos, timestamp, t, -, htr⟩ := swapLeg_eq_ok hs hb h
    exact ⟨htr.positions ▸ hk, congrFun htr.position key⟩
  | initializeTickArray start =>
    change pool.initializeTickArray start = .ok pool' at h
    unfold Pool.initializeTickArray at h
    split_ifs at h
    rw [Res.bind_eq_ok] at h
    obtain ⟨array, -, h⟩ := h
    obtain rfl := Except.ok.inj h
    exact ⟨hk, rfl⟩
  | setFeeRate rate => exact hrecord h
  | setProtocolFeeRate rate => exact hrecord h
  | setEnableFlag flag =>
    obtain rfl := Except.ok.inj h
    exact ⟨hk, rfl⟩
  | initializeReward index mint vault => exact hrecord h
  | setRewardAuthority index authority => exact hrecord h
  | setRewardEmissions index emissions vault clock =>
    change pool.setRewardEmissions index emissions vault clock = .ok pool' at h
    unfold Pool.setRewardEmissions at h
    split_ifs at h with hi hv
    rw [Res.bind_eq_ok] at h
    obtain ⟨perDay, -, h⟩ := h
    rw [ite_err_eq_ok] at h
    simp only [Res.bind_eq_ok] at h
    obtain ⟨-, timestamp, -, infos, -, w, -, h⟩ := h
    obtain rfl := Except.ok.inj h
    exact ⟨hk, rfl⟩
  | increaseLiquidity => cases hupd
  | decreaseLiquidity => cases hupd
  | updateFeesAndRewards => cases hupd

/-- **What one instruction does to a position whose owner takes no part**: nothing, or an update
without a change of liquidity.

**Proof sketch.** By whether the instruction updates a position. If it updates this one, then
without its owner it can only be `update_fees_and_rewards`, whose effect has no change of
liquidity. -/
theorem step_of_not_provesOwner (hs : pool.Sound earned) (hb : pool.Backed earned)
    (hk : key ∈ pool.positions) (hno : ¬op.ProvesOwner key (pool.position key).positionMint)
    (h : pool.step op = .ok pool') :
    (op.updated ≠ some key ∧ key ∈ pool'.positions ∧ pool'.position key = pool.position key) ∨
      (op.updated = some key ∧ ∃ infos timestamp, Updated pool pool' key infos timestamp 0) := by
  cases hupd : op.updated with
  | none => exact .inl ⟨by simp, position_of_not_provesOwner hs hb hk hno hupd h⟩
  | some k =>
    rcases eq_or_ne key k with rfl | hne
    · refine .inr ⟨rfl, ?_⟩
      cases op with
      | increaseLiquidity k auth lo hi amount maxA maxB clock funds =>
        obtain rfl : k = key := Option.some.inj hupd
        change pool.increaseLiquidity k auth lo hi amount maxA maxB clock funds = .ok pool' at h
        unfold increaseLiquidity modifyLiquidity at h
        simp only [Res.bind_eq_ok] at h
        obtain ⟨-, ⟨position, hp, -⟩, -⟩ := h
        exact absurd rfl (ne_of_not_provesOwner hno rfl hp)
      | decreaseLiquidity k auth lo hi amount minA minB clock funds =>
        obtain rfl : k = key := Option.some.inj hupd
        change pool.decreaseLiquidity k auth lo hi amount minA minB clock funds = .ok pool' at h
        unfold decreaseLiquidity modifyLiquidity at h
        simp only [Res.bind_eq_ok] at h
        obtain ⟨-, ⟨position, hp, -⟩, -⟩ := h
        exact absurd rfl (ne_of_not_provesOwner hno rfl hp)
      | updateFeesAndRewards k lo hi clock =>
        obtain rfl : k = key := Option.some.inj hupd
        obtain ⟨infos, timestamp, -, hu⟩ := updateFeesAndRewards_updated hs h
        exact ⟨infos, timestamp, hu⟩
      | _ => cases hupd
    · obtain ⟨-, infos, timestamp, delta, -, -, hu⟩ := step_updated hs hb hupd h
      refine .inl ⟨fun he => hne (Option.some.inj he).symm, hu.resized.positions ▸ hk, ?_⟩
      rw [hu.resized.position, Function.update_of_ne hne]
      exact setPosition_of_ne _ _ hne

/-! ## Fees -/

/-- The fees that the owner of a position can collect once it was updated. -/
def feeClaim (pool : Pool) (key : Pubkey) (X : Token) : ℕ :=
  (pool.position key).feeOwed X + pool.pendingFee key X

end Pool

/-- Only an update lowers the earnings that are not yet credited. -/
lemma History.earned_le_extend (s : History) {op : PoolOp} (pool' : Pool) {key : Pubkey}
    (h : op.updated ≠ some key) (ch : Channel) :
    s.earned key ch ≤ (s.extend op pool').earned key ch := by
  unfold History.extend
  cases hupd : op.updated with
  | none => exact Nat.le_add_right _ _
  | some k =>
    have hne : key ≠ k := fun he => h (he ▸ hupd)
    change _ ≤ (s.earned.add s.pool (s.pool.growthLog op)).clear k key ch
    rw [Earnings.clear, Function.update_of_ne hne]
    exact Nat.le_add_right _ _

/-- What a position has in common before and after: its mint, its range and its liquidity. -/
structure Position.SameShare (p q : Position) : Prop where
  mint : q.positionMint = p.positionMint
  lower : q.tickLowerIndex = p.tickLowerIndex
  upper : q.tickUpperIndex = p.tickUpperIndex
  liquidity : q.liquidity = p.liquidity

/-- Having the same share is transitive. -/
lemma Position.SameShare.trans {p q r : Position} (h : p.SameShare q) (h' : q.SameShare r) :
    p.SameShare r :=
  ⟨h'.mint.trans h.mint, h'.lower.trans h.lower, h'.upper.trans h.upper,
    h'.liquidity.trans h.liquidity⟩

/-- **One instruction without the owner** keeps the position, and what it can collect in fees does
not fall.

**Proof sketch.** In the first case of the step lemma nothing changes but the earnings, which grow.
In the second case the position is credited with what was pending, and nothing is pending
afterwards. -/
theorem History.Invariant.unattended_step {s : History} (h : s.Invariant) {op : PoolOp}
    {pool' : Pool} {key : Pubkey} (hk : key ∈ s.pool.positions)
    (hno : ¬op.ProvesOwner key (s.pool.position key).positionMint)
    (hstep : s.pool.step op = .ok pool') :
    key ∈ pool'.positions ∧ (s.pool.position key).SameShare (pool'.position key) ∧
      ∀ X, s.pool.feeClaim key X ≤ pool'.feeClaim key X := by
  have h' := h.extend hstep
  rcases Pool.step_of_not_provesOwner h.sound h.backed hk hno hstep with
    ⟨hupd, hk', hsame⟩ | ⟨hupd, infos, timestamp, hu⟩
  · refine ⟨hk', by rw [hsame]; exact ⟨rfl, rfl, rfl, rfl⟩, fun X => ?_⟩
    unfold Pool.feeClaim
    rw [h.backed.pendingFee_eq h.sound hk X, hsame]
    have hpending := h'.backed.pendingFee_eq h'.sound hk' X
    change pool'.pendingFee key X = (pool'.position key).liquidity * _ / _ at hpending
    rw [hpending, hsame]
    exact Nat.add_le_add_left (Nat.div_le_div_right
      (Nat.mul_le_mul_left _ (s.earned_le_extend pool' hupd (.fee X)))) _
  · obtain ⟨hlo, hhi, hl⟩ := (s.pool.accrue infos timestamp).settle_position key
    have hposition := congrFun hu.resized.position key
    rw [Function.update_self] at hposition
    have hliquidity := hu.resized.liquidity
    rw [hl] at hliquidity
    change _ = ((s.pool.position key).liquidity : ℤ) + 0 at hliquidity
    have hmint : (pool'.position key).positionMint = (s.pool.position key).positionMint := by
      rw [hposition]
      unfold Pool.settle
      rw [Pool.setPosition_self]
      rfl
    refine ⟨hu.resized.positions ▸ hk, ⟨hmint, by rw [hposition]; exact hlo,
      by rw [hposition]; exact hhi, by omega⟩, fun X => ?_⟩
    -- the pending fees are credited, and nothing is pending afterwards
    unfold Pool.feeClaim
    rw [hu.feeOwed h.sound h.backed X, h.backed.pendingFee_eq h.sound hk X]
    exact Nat.le_add_right _ _

/-! ## Runs -/

/-- **A position in a run without its owner.** From a reachable pool, whatever instructions are run,
by whom and in whichever order: as long as none of them proves the ownership of a position, the
position stays open, with its mint, its range and its liquidity, and the fees that its owner can
collect do not fall. -/
theorem Reachable.unattended {pool : Pool} (h : Reachable pool) {key : Pubkey}
    (hk : key ∈ pool.positions) {ops : List PoolOp}
    (hops : ∀ op ∈ ops, ¬op.ProvesOwner key (pool.position key).positionMint) :
    key ∈ (pool.run ops).positions ∧
      (pool.position key).SameShare ((pool.run ops).position key) ∧
      ∀ X, pool.feeClaim key X ≤ (pool.run ops).feeClaim key X := by
  induction ops generalizing pool with
  | nil => exact ⟨hk, ⟨rfl, rfl, rfl, rfl⟩, fun X => le_rfl⟩
  | cons op ops ih =>
    have hrest : ∀ op ∈ ops, ¬op.ProvesOwner key (pool.position key).positionMint :=
      fun op hop => hops op (List.mem_cons_of_mem _ hop)
    rcases pool.run_cons op ops with ⟨-, hrun⟩ | ⟨pool₁, hstep, -, hrun⟩
    · rw [hrun]
      exact ih h hk hrest
    · obtain ⟨s, rfl, hs⟩ := h.invariant
      obtain ⟨hk₁, hsame, hle⟩ := hs.unattended_step hk (hops op List.mem_cons_self) hstep
      obtain ⟨hk₂, hsame₂, hle₂⟩ := ih (h.step hstep) hk₁ (hsame.mint ▸ hrest)
      rw [hrun]
      exact ⟨hk₂, hsame.trans hsame₂, fun X => (hle X).trans (hle₂ X)⟩

/-- A swap, an update by anyone and attempts of the second owner leave the first position, whose
owner can collect more afterwards. -/
theorem Reachable.unattended_samplePool :
    1 ∈ (samplePool.run [sampleSwap, .updateFeesAndRewards 1 (-5632) 0 6,
        .decreaseLiquidity 1 sampleAuth₂ (-5632) 0 1000 0 0 7 sampleFunds,
        .collectFees 1 sampleAuth₂ sampleFunds]).positions ∧
      (samplePool.feeClaim 1 .A, (samplePool.run [sampleSwap, .updateFeesAndRewards 1 (-5632) 0 6,
        .decreaseLiquidity 1 sampleAuth₂ (-5632) 0 1000 0 0 7 sampleFunds,
        .collectFees 1 sampleAuth₂ sampleFunds]).feeClaim 1 .A) = (0, 290) := by
  refine ⟨(samplePool_reachable.unattended (by decide +kernel) fun op hop => ?_).1,
    by decide +kernel⟩
  rintro ⟨auth, howned, hmint, -⟩
  simp only [List.mem_cons, List.not_mem_nil, or_false] at hop
  rcases hop with rfl | rfl | rfl | rfl
  · cases howned
  · cases howned
  · cases howned
    exact absurd hmint (by decide +kernel)
  · cases howned
    exact absurd hmint (by decide +kernel)

end NemoSwap
