import NemoSwap.Pool.Commute
import NemoSwap.Pool.Withdrawal

set_option relaxedAutoImplicit false
set_option autoImplicit false

/-!
# Leaving the pool

An owner who withdraws all the liquidity of a position and then collects its fees is paid what the
position was worth before: the value of its liquidity rounded down, the fees owed to it and the
fees that it had not been credited yet. No other position and no price changes by this, so any
number of owners can leave one after another, and it makes no difference to what they are paid who
of them leaves first.

## Main definitions

* `NemoSwap.Pool.Emptied` — a position was emptied, and nothing else changed but the rewards.
* `NemoSwap.Pool.exitValue` — what a position is worth to its owner.
* `NemoSwap.Exit` — the accounts with which an owner leaves.

## Main results

* `NemoSwap.Pool.closePosition_iff` — when an emptied position can be closed.
* `NemoSwap.Pool.Sound.empty_position` — a position can be emptied.
* `NemoSwap.Reachable.exit` — all liquidity and all fees of a position can be withdrawn.
* `NemoSwap.Reachable.all_exit` — all owners can leave, in any order.
-/

namespace NemoSwap

namespace Pool

variable {pool pool' : Pool} {earned : Earnings} {key : Pubkey} {auth : PositionAuthority}
  {arrayLower arrayUpper : ℤ} {clock : Int64}

/-! ## Fees -/

/-- What collecting fees does. -/
theorem collectFees_eq_ok {funds : OwnerFunds} (h : pool.collectFees key auth funds = .ok pool') :
    pool'.positions = pool.positions ∧ pool'.whirlpool = pool.whirlpool ∧
      pool'.position key = (pool.position key).resetFeesOwed ∧
      (∀ k ≠ key, pool'.position k = pool.position k) ∧
      ∀ X, pool'.vault X + (pool.position key).feeOwed X = pool.vault X := by
  unfold collectFees at h
  rw [Res.bind_eq_ok] at h
  obtain ⟨position, hp, h⟩ := h
  obtain ⟨-, rfl⟩ := getOwnedPosition_eq_ok hp
  simp only [Res.bind_eq_ok] at h
  obtain ⟨a, ha, b, hb, h⟩ := h
  rw [Res.pure_eq_ok, Except.ok.injEq] at h
  subst h
  refine ⟨rfl, rfl, setPosition_self _ _ _, fun k hne => setPosition_of_ne _ _ hne, fun X => ?_⟩
  cases X with
  | A => exact transferFromVaultToOwner_eq_ok ha
  | B => exact transferFromVaultToOwner_eq_ok hb

/-- Ownership of a position depends on its mint alone. -/
lemma getOwnedPosition_congr {p : Position} (h : pool.getOwnedPosition key auth = .ok p)
    (hpositions : pool'.positions = pool.positions)
    (hmint : (pool'.position key).positionMint = (pool.position key).positionMint) :
    pool'.getOwnedPosition key auth = .ok (pool'.position key) := by
  unfold getOwnedPosition at h ⊢
  rw [Res.bind_eq_ok] at h
  obtain ⟨position, hp, h⟩ := h
  obtain ⟨hk, rfl⟩ := getPosition_eq_ok hp
  have hp' : pool'.getPosition key = .ok (pool'.position key) := if_pos (hpositions ▸ hk)
  rw [hp', Res.ok_bind, hmint]
  split_ifs at h ⊢
  rw [Res.bind_eq_ok] at h
  obtain ⟨u, hu, -⟩ := h
  rw [hu]
  rfl

/-! ## Closing a position -/

/-- **When an emptied position can be closed**: exactly if no rewards are owed, and the signer has
the close authority of the token account.

**Proof sketch.** The token can be burned by whoever owns the position, so of the two calls only
closing the account asks for more; of the conditions of an empty position only the rewards are
left. -/
theorem closePosition_iff (howned : pool.getOwnedPosition key auth = .ok (pool.position key))
    (henabled : pool.whirlpool.isEnabled = true) (hliquidity : (pool.position key).liquidity = 0)
    (hfees : ∀ X, (pool.position key).feeOwed X = 0) :
    (∃ pool', pool.closePosition key auth = .ok pool') ↔
      auth.closeAuthority.getD auth.owner = auth.authority ∧
        ∀ i, ((pool.position key).rewardInfos i).amountOwed = 0 := by
  have hflag : pool.whirlpool.requireEnabled = .ok () := by
    unfold Whirlpool.requireEnabled
    rw [henabled]
    rfl
  have hburn := burnAndCloseUserPositionToken_iff howned
  constructor
  · rintro ⟨pool', h⟩
    obtain ⟨position, hp, hclosed, -, hclose, -⟩ := closePosition_eq_ok.1 h
    obtain ⟨-, rfl⟩ := getOwnedPosition_eq_ok hp
    exact ⟨hburn.1 hclose, ((pool.position key).isPositionEmpty_iff.1 hclosed).2.2.2⟩
  · rintro ⟨hauthority, hrewards⟩
    have hclosed : (pool.position key).isPositionEmpty = true :=
      (pool.position key).isPositionEmpty_iff.2 ⟨hliquidity, hfees .A, hfees .B, hrewards⟩
    exact ⟨_, closePosition_eq_ok.2 ⟨_, howned, hclosed, hflag, hburn.2 hauthority, rfl⟩⟩

/-! ## Leaving the pool -/

/-- What all the liquidity of a position is paid is rounded down.

**Proof sketch.** The amounts of the source are the deltas of the range if these fit, and rounded up
they are at most what is in the vaults. -/
lemma Backed.removalAmount_eq (hs : pool.Sound earned) (hb : pool.Backed earned)
    (hk : key ∈ pool.positions) (h0 : (pool.position key).liquidity ≠ 0) (X : Token) :
    pool.removalAmount key X = pool.positionDelta key X (pool.position key).liquidity false := by
  obtain ⟨h1, h2, h3⟩ := hs.onUsableTicks key hk
  have hneg : -((pool.position key).liquidity : ℤ) ≠ 0 := by omega
  have hup : ∀ X, rangeDelta X (pool.position key).tickLowerIndex (pool.position key).tickUpperIndex
      pool.whirlpool.sqrtPrice (-((pool.position key).liquidity : ℤ)).natAbs true < 2 ^ 64 :=
    fun X => by
      rw [Int.natAbs_neg, Int.natAbs_natCast]
      exact (hb.positionDelta_le hs hk le_rfl X).trans_lt (hb.vault_lt X)
  have hamounts := calculateLiquidityTokenDeltas_fits hs.price h1.1 h3 h2.2.1 hneg (hup .A) (hup .B)
  unfold removalAmount
  rw [hamounts]
  simp only []
  rw [Int.natAbs_neg, Int.natAbs_natCast, decide_eq_false (by omega)]
  cases X
  · rfl
  · rfl

/-- A pending fee is what the next update credits. -/
theorem Backed.pendingFee_eq (hs : pool.Sound earned) (hb : pool.Backed earned)
    (hk : key ∈ pool.positions) (X : Token) :
    pool.pendingFee key X = (pool.position key).liquidity * earned key (.fee X) / 2 ^ 64 := by
  have h := (hs.credit_exact hb hk X).1
  unfold checkedMulShiftRight at h
  rw [checkedMulShiftRightRoundUpIf_eq_ok] at h
  unfold pendingFee
  rw [← roundDiv_false]
  exact h.2

/-- What a position is worth to its owner: its liquidity, rounded down, and all its fees. -/
def exitValue (pool : Pool) (key : Pubkey) (X : Token) : ℕ :=
  pool.removalAmount key X + ((pool.position key).feeOwed X + pool.pendingFee key X)

/-- A position was emptied: its liquidity and its fees were paid, and neither the other positions
nor the price changed. -/
structure Emptied (pool pool' : Pool) (earned earned' : Earnings) (key : Pubkey) (clock : Int64) :
    Prop where
  sound : pool'.Sound earned'
  backed : pool'.Backed earned'
  positions : pool'.positions = pool.positions
  other : ∀ k ≠ key, pool'.position k = pool.position k
  earned : ∀ k ≠ key, ∀ X, earned' k (.fee X) = earned k (.fee X)
  liquidity : (pool'.position key).liquidity = 0
  feeOwed : ∀ X, (pool'.position key).feeOwed X = 0
  paid : ∀ X, pool'.vault X + pool.exitValue key X = pool.vault X
  enabled : pool'.whirlpool.isEnabled = pool.whirlpool.isEnabled
  tickSpacing : pool'.whirlpool.tickSpacing = pool.whirlpool.tickSpacing
  tick : pool'.whirlpool.tickCurrentIndex = pool.whirlpool.tickCurrentIndex
  price : pool'.whirlpool.sqrtPrice = pool.whirlpool.sqrtPrice
  timestamp : pool'.whirlpool.rewardLastUpdatedTimestamp = clock.toInt.toNat

/-- **A position can be emptied**: all its liquidity, and then all its fees.

**Proof sketch.** The owner takes out all liquidity: the vaults are sufficient by solvency, and the
position is settled. Then he collects the fees that it is owed, which the vaults still hold. What is
left is a position without liquidity and fees, which `closePosition_iff` is about, and the vaults
have lost exactly the value of the exit. -/
theorem Sound.empty_position (hs : pool.Sound earned) (hb : pool.Backed earned)
    (hcan : pool.CanModify key auth arrayLower arrayUpper clock)
    (h0 : (pool.position key).liquidity ≠ 0) {funds funds' : OwnerFunds}
    (hroom : ∀ X, funds.balance X + pool.removalAmount key X < 2 ^ 64)
    (hroom' : ∀ X, funds'.balance X + ((pool.position key).feeOwed X + pool.pendingFee key X) <
      2 ^ 64) :
    ∃ pool₁ pool₂ earned',
      pool.decreaseLiquidity key auth arrayLower arrayUpper
        (BitVec.ofNat 128 (pool.position key).liquidity) 0 0 clock funds = .ok pool₁ ∧
      pool₁.collectFees key auth funds' = .ok pool₂ ∧ Emptied pool pool₂ earned earned' key clock ∧
      ((∃ pool₃, pool₂.closePosition key auth = .ok pool₃) ↔
        auth.closeAuthority.getD auth.owner = auth.authority ∧
          ∀ i, ((pool₂.position key).rewardInfos i).amountOwed = 0) := by
  obtain ⟨hk, -⟩ := getOwnedPosition_eq_ok hcan.owned
  have hamount : (BitVec.ofNat 128 (pool.position key).liquidity).toNat =
      (pool.position key).liquidity := by
    rw [BitVec.toNat_ofNat, Nat.mod_eq_of_lt (hs.position_lt key hk)]
  obtain ⟨pool₁, hdec⟩ : ∃ pool₁, pool.decreaseLiquidity key auth arrayLower arrayUpper
      (BitVec.ofNat 128 (pool.position key).liquidity) 0 0 clock funds = .ok pool₁ := by
    refine (hs.decrease_iff hb).2 ⟨hcan, ?_, fun X => ?_⟩
    · rw [hamount]
      exact ⟨h0, le_rfl⟩
    · rw [hamount, ← hb.removalAmount_eq hs hk h0]
      exact ⟨by cases X <;> exact Nat.zero_le _, hroom X⟩
  obtain ⟨infos, timestamp, delta, ht, hneg, habs, hu, hvault⟩ := decreaseLiquidity_updated hs hdec
  rw [hamount] at habs
  have hclock : timestamp = clock.toInt.toNat := by
    unfold toTimestampU64 at ht
    rw [ite_err_eq_ok, Except.ok.injEq] at ht
    exact ht.2.symm
  have hposition := congrFun hu.resized.position key
  rw [Function.update_self] at hposition
  have hmint : (pool₁.position key).positionMint = (pool.position key).positionMint := by
    rw [hposition]
    unfold Pool.settle
    rw [setPosition_self]
    rfl
  have hempty : (pool₁.position key).liquidity = 0 := by
    have hl := hu.resized.liquidity
    rw [((pool.accrue infos timestamp).settle_position key).2.2] at hl
    change _ = ((pool.position key).liquidity : ℤ) + delta at hl
    omega
  have howned₁ := getOwnedPosition_congr hcan.owned hu.resized.positions hmint
  have hfee : ∀ X, (pool₁.position key).feeOwed X =
      (pool.position key).feeOwed X + pool.pendingFee key X := fun X => by
    rw [hu.feeOwed hs hb X, hb.pendingFee_eq hs hk X]
  obtain ⟨pool₂, hcollect⟩ : ∃ pool₂, pool₁.collectFees key auth funds' = .ok pool₂ :=
    ((hu.sound hs).collect_iff (hu.backed hs hb)).2
      ⟨howned₁, fun X => by rw [hfee]; exact hroom' X⟩
  obtain ⟨hpositions₂, hrecord₂, hposition₂, hother₂, hvault₂⟩ := collectFees_eq_ok hcollect
  have howned₂ := getOwnedPosition_congr howned₁ hpositions₂ (by rw [hposition₂]; rfl)
  have hfees₂ : ∀ X, (pool₂.position key).feeOwed X = 0 := fun X => by
    rw [hposition₂]
    cases X
    · rfl
    · rfl
  have hliquidity₂ : (pool₂.position key).liquidity = 0 := by
    rw [hposition₂]
    exact hempty
  have hq := collectFees_quiet (hu.sound hs) hcollect
  have hrecord : pool₂.whirlpool = _ := hrecord₂.trans hu.resized.whirlpool
  refine ⟨pool₁, pool₂, _, hdec, hcollect, ⟨hq.sound (hu.sound hs), hq.backed (hu.backed hs hb),
    hpositions₂.trans hu.resized.positions, fun k hne => ?_, fun k hne X => ?_, hliquidity₂, hfees₂,
    fun X => ?_, ?_, ?_, ?_, ?_, ?_⟩, ?_⟩
  · rw [hother₂ k hne, hu.resized.position, Function.update_of_ne hne]
    exact setPosition_of_ne _ _ hne
  · rw [Earnings.clear, Function.update_of_ne hne]
    unfold Earnings.add rewardLog
    rw [Outside.recorded_zero, add_zero]
  · have h1 := hvault X
    have h2 := hvault₂ X
    have h3 := hb.removalAmount_eq hs hk h0 X
    unfold positionDelta at h3
    rw [hfee X] at h2
    rw [habs] at h1
    unfold exitValue
    omega
  · rw [hrecord]
    rfl
  · rw [hrecord]
    rfl
  · rw [hrecord]
    rfl
  · rw [hrecord]
    rfl
  · rw [hrecord]
    exact hclock
  · refine closePosition_iff howned₂ ?_ hliquidity₂ hfees₂
    rw [hrecord₂, hu.resized.whirlpool]
    exact hcan.enabled

/-! ## All owners -/

end Pool

/-- The accounts with which an owner leaves: the two balances are those before the liquidity is
withdrawn, and before the fees are collected. -/
structure Exit where
  key : Pubkey
  auth : PositionAuthority
  arrayLower : ℤ
  arrayUpper : ℤ
  clock : Int64
  funds : OwnerFunds
  funds' : OwnerFunds

namespace Exit

/-- The instructions that empty a position. -/
def ops (pool : Pool) (e : Exit) : List PoolOp :=
  [.decreaseLiquidity e.key e.auth e.arrayLower e.arrayUpper
      (BitVec.ofNat 128 (pool.position e.key).liquidity) 0 0 e.clock e.funds,
    .collectFees e.key e.auth e.funds']

/-- What the instructions of an exit ask for. -/
structure Allowed (e : Exit) (pool : Pool) : Prop where
  modify : pool.CanModify e.key e.auth e.arrayLower e.arrayUpper e.clock
  liquidity : (pool.position e.key).liquidity ≠ 0
  room : ∀ X, e.funds.balance X + pool.removalAmount e.key X < 2 ^ 64
  room' : ∀ X, e.funds'.balance X +
    ((pool.position e.key).feeOwed X + pool.pendingFee e.key X) < 2 ^ 64

end Exit

namespace Pool

variable {pool pool' : Pool} {earned earned' : Earnings} {key : Pubkey} {clock : Int64}

/-- An exit does not change what another position is worth. -/
theorem Emptied.exitValue (hs : pool.Sound earned) (hb : pool.Backed earned)
    (h : Emptied pool pool' earned earned' key clock) {k : Pubkey} (hk : k ∈ pool.positions)
    (hne : k ≠ key) (X : Token) :
    pool'.removalAmount k X = pool.removalAmount k X ∧
      pool'.pendingFee k X = pool.pendingFee k X := by
  constructor
  · unfold removalAmount
    rw [h.other k hne, h.tick, h.price]
  · rw [h.backed.pendingFee_eq h.sound (h.positions ▸ hk) X, hb.pendingFee_eq hs hk X,
      h.other k hne, h.earned k hne X]

/-- **An exit does not stand in the way of another.**

**Proof sketch.** The exit has changed none of what the other one asks for: not the flag, the
spacing, the price and the tick, and not the other position. Its clock is not before the new time of
the pool. -/
theorem Emptied.allowed (hs : pool.Sound earned) (hb : pool.Backed earned)
    (h : Emptied pool pool' earned earned' key clock) {e : Exit} (hne : e.key ≠ key)
    (hclock : clock.toInt ≤ e.clock.toInt) (he : e.Allowed pool) : e.Allowed pool' := by
  obtain ⟨hk, -⟩ := getOwnedPosition_eq_ok he.modify.owned
  have hposition := h.other e.key hne
  refine ⟨⟨getOwnedPosition_congr he.modify.owned h.positions (by rw [hposition]), ?_, ?_, ?_,
    he.modify.clock_nonneg, ?_⟩, ?_, fun X => ?_, fun X => ?_⟩
  · rw [h.enabled]
    exact he.modify.enabled
  · rw [h.tickSpacing, hposition]
    exact he.modify.lower
  · rw [h.tickSpacing, hposition]
    exact he.modify.upper
  · rw [h.timestamp]
    exact Int.toNat_le_toNat hclock
  · rw [hposition]
    exact he.liquidity
  · rw [(h.exitValue hs hb hk hne X).1]
    exact he.room X
  · rw [(h.exitValue hs hb hk hne X).2, hposition]
    exact he.room' X

/-- **All exits succeed**, and each is paid what its position was worth at the start.

**Proof sketch.** Induction on the exits. An exit leaves the other positions with what they are
worth, so the next one succeeds with the same value. -/
theorem Sound.empty_positions {exits : List Exit} (hs : pool.Sound earned)
    (hb : pool.Backed earned) (hcan : ∀ e ∈ exits, e.Allowed pool)
    (hkeys : (exits.map Exit.key).Nodup)
    (hclocks : exits.Pairwise fun e e' => e.clock.toInt ≤ e'.clock.toInt) :
    ∃ pool', (exits.flatMap (Exit.ops pool)).foldlM Pool.step pool = .ok pool' ∧
      (∀ k ∉ exits.map Exit.key, pool'.position k = pool.position k) ∧
      (∀ e ∈ exits, (pool'.position e.key).liquidity = 0 ∧
        ∀ X, (pool'.position e.key).feeOwed X = 0) ∧
      ∀ X, pool'.vault X + (exits.map fun e => pool.exitValue e.key X).sum = pool.vault X := by
  induction exits generalizing pool earned with
  | nil => exact ⟨pool, rfl, fun _ _ => rfl, fun e he => absurd he List.not_mem_nil, fun _ => rfl⟩
  | cons e exits ih =>
    obtain ⟨hclock, hclocks⟩ := List.pairwise_cons.1 hclocks
    obtain ⟨hnotin, hkeys⟩ := List.nodup_cons.1 hkeys
    have hne : ∀ e' ∈ exits, e'.key ≠ e.key := fun e' he' heq =>
      hnotin (heq ▸ List.mem_map_of_mem he')
    have he := hcan e List.mem_cons_self
    obtain ⟨pool₁, pool₂, earned', h1, h2, hempty, -⟩ :=
      hs.empty_position hb he.modify he.liquidity he.room he.room'
    obtain ⟨pool', hrun, hother, hall, hvault⟩ := ih hempty.sound hempty.backed
      (fun e' he' => hempty.allowed hs hb (hne e' he') (hclock e' he')
        (hcan e' (List.mem_cons_of_mem _ he'))) hkeys hclocks
    -- the instructions of the others are those that they started with
    have hops : exits.flatMap (Exit.ops pool₂) = exits.flatMap (Exit.ops pool) := by
      refine List.flatMap_congr fun e' he' => ?_
      unfold Exit.ops
      rw [hempty.other e'.key (hne e' he')]
    have hvalues : ∀ X, exits.map (fun e => pool₂.exitValue e.key X) =
        exits.map fun e => pool.exitValue e.key X := fun X => by
      refine List.map_congr_left fun e' he' => ?_
      obtain ⟨hk, -⟩ :=
        getOwnedPosition_eq_ok (hcan e' (List.mem_cons_of_mem _ he')).modify.owned
      obtain ⟨hremoval, hpending⟩ := hempty.exitValue hs hb hk (hne e' he') X
      unfold Pool.exitValue
      rw [hremoval, hpending, hempty.other e'.key (hne e' he')]
    refine ⟨pool', ?_, fun k hk => ?_, fun e' he' => ?_, fun X => ?_⟩
    · rw [List.flatMap_cons, List.foldlM_append, ← hops]
      change ((pool.decreaseLiquidity _ _ _ _ _ _ _ _ _ >>= fun p => p.collectFees _ _ _ >>= pure)
        >>= _) = _
      rw [h1, Res.ok_bind, h2]
      exact hrun
    · rw [List.map_cons, List.mem_cons, not_or] at hk
      rw [hother k hk.2, hempty.other k hk.1]
    · rcases List.mem_cons.1 he' with rfl | he'
      · rw [hother _ hnotin]
        exact ⟨hempty.liquidity, hempty.feeOwed⟩
      · exact hall e' he'
    · have hpaid := hempty.paid X
      have hrest := hvault X
      rw [hvalues X] at hrest
      rw [List.map_cons, List.sum_cons]
      omega

end Pool

/-! ## Reachable pools -/

section Reachable

variable {pool : Pool} {key : Pubkey} {auth : PositionAuthority} {arrayLower arrayUpper : ℤ}
  {clock : Int64}

/-- **An owner can always leave.** In a reachable pool that is enabled, the owner of a position can
withdraw all its liquidity and then collect all its fees. The vaults pay the value of the liquidity
rounded down, the fees owed and the pending fees, and nothing else of the position is left but its
rewards. It can be closed exactly if none are owed and the signer has the close authority of the
position's token account: its owner has, unless he gave it away, and a delegate has it only if it
was given to him. -/
theorem Reachable.exit (h : Reachable pool)
    (hcan : pool.CanModify key auth arrayLower arrayUpper clock)
    (h0 : (pool.position key).liquidity ≠ 0) {funds funds' : OwnerFunds}
    (hroom : ∀ X, funds.balance X + pool.removalAmount key X < 2 ^ 64)
    (hroom' : ∀ X, funds'.balance X + ((pool.position key).feeOwed X + pool.pendingFee key X) <
      2 ^ 64) :
    ∃ pool₁ pool₂,
      pool.step (.decreaseLiquidity key auth arrayLower arrayUpper
        (BitVec.ofNat 128 (pool.position key).liquidity) 0 0 clock funds) = .ok pool₁ ∧
      pool₁.step (.collectFees key auth funds') = .ok pool₂ ∧
      (pool₂.position key).liquidity = 0 ∧ (∀ X, (pool₂.position key).feeOwed X = 0) ∧
      (∀ X, pool₂.vault X + (pool.removalAmount key X + ((pool.position key).feeOwed X +
        pool.pendingFee key X)) = pool.vault X) ∧
      ((∃ pool₃, pool₂.step (.closePosition key auth) = .ok pool₃) ↔
        auth.closeAuthority.getD auth.owner = auth.authority ∧
          ∀ i, ((pool₂.position key).rewardInfos i).amountOwed = 0) := by
  obtain ⟨s, rfl, hs⟩ := h.invariant
  obtain ⟨pool₁, pool₂, _, h1, h2, hempty, hclose⟩ :=
    hs.sound.empty_position hs.backed hcan h0 hroom hroom'
  exact ⟨pool₁, pool₂, h1, h2, hempty.liquidity, hempty.feeOwed, hempty.paid, hclose⟩

/-- The instruction that empties the sample position. -/
def sampleLeaving : PoolOp :=
  .decreaseLiquidity 1 sampleAuth (-5632) 0 (BitVec.ofNat 128 (samplePool.position 1).liquidity)
    0 0 7 sampleFunds

/-- The owner of the sample position leaves, and closes it. -/
theorem Reachable.exit_samplePool :
    ∃ pool₁ pool₂, samplePool.step sampleLeaving = .ok pool₁ ∧
      pool₁.step (.collectFees 1 sampleAuth sampleFunds) = .ok pool₂ ∧
      (pool₂.position 1).liquidity = 0 ∧ pool₂.vaultA + 6379245 = samplePool.vaultA ∧
      ∃ pool₃, pool₂.step (.closePosition 1 sampleAuth) = .ok pool₃ := by
  have hroom : ∀ X, sampleFunds.balance X + samplePool.removalAmount 1 X < 2 ^ 64 := fun X => by
    cases X
    · decide +kernel
    · decide +kernel
  have hroom' : ∀ X, sampleFunds.balance X + ((samplePool.position 1).feeOwed X +
      samplePool.pendingFee 1 X) < 2 ^ 64 := fun X => by
    cases X
    · decide +kernel
    · decide +kernel
  obtain ⟨pool₁, pool₂, h1, h2, h3, -, h4, hclose⟩ :=
    samplePool_reachable.exit samplePool_canModify (by decide +kernel) hroom hroom'
  have hrewards : ∀ i, ((pool₂.position 1).rewardInfos i).amountOwed = 0 := by
    have h1' : samplePool.next sampleLeaving = pool₁ := Pool.next_eq_of_ok h1
    rw [← Pool.next_eq_of_ok h2, ← h1']
    decide +kernel
  have hpaid : samplePool.removalAmount 1 .A + ((samplePool.position 1).feeOwed .A +
      samplePool.pendingFee 1 .A) = 6379245 := by decide +kernel
  have hvault := h4 .A
  rw [hpaid] at hvault
  exact ⟨pool₁, pool₂, h1, h2, h3, hvault, hclose.2 ⟨rfl, hrewards⟩⟩

/-- **All owners can leave, in any order.** In a reachable pool that is enabled, the owners of any
number of positions can withdraw all their liquidity and collect all their fees, one after another,
as long as the clock does not run backwards. None of these instructions fails, so an order that the
owners choose cannot lock anyone in; the positions end without liquidity and without fees, the
others are as before, and the vaults have paid exactly what the positions were worth at the start,
in whichever order they were emptied. -/
theorem Reachable.all_exit (h : Reachable pool) {exits : List Exit}
    (hcan : ∀ e ∈ exits, e.Allowed pool) (hkeys : (exits.map Exit.key).Nodup)
    (hclocks : exits.Pairwise fun e e' => e.clock.toInt ≤ e'.clock.toInt) :
    ∃ pool', (exits.flatMap (Exit.ops pool)).foldlM Pool.step pool = .ok pool' ∧
      (∀ k ∉ exits.map Exit.key, pool'.position k = pool.position k) ∧
      (∀ e ∈ exits, (pool'.position e.key).liquidity = 0 ∧
        ∀ X, (pool'.position e.key).feeOwed X = 0) ∧
      ∀ X, pool'.vault X + (exits.map fun e => pool.exitValue e.key X).sum = pool.vault X := by
  obtain ⟨s, rfl, hs⟩ := h.invariant
  exact hs.sound.empty_positions hs.backed hcan hkeys hclocks

/-- The sample pool with two positions, after a swap. -/
def sampleCrowded : Pool := sampleShared.next sampleFilling

/-- The owners of both positions leave, the second one first. -/
def sampleExits : List Exit :=
  [⟨2, sampleAuth₂, -5632, 0, 8, sampleFunds, sampleFunds⟩,
    ⟨1, sampleAuth, -5632, 0, 8, sampleFunds, sampleFunds⟩]

/-- After both owners have left, the vault of token A keeps what the protocol is owed of the swap
and what the roundings have left. -/
theorem Reachable.all_exit_sampleCrowded :
    ∃ pool', (sampleExits.flatMap (Exit.ops sampleCrowded)).foldlM Pool.step sampleCrowded =
        .ok pool' ∧ (pool'.position 1).liquidity = 0 ∧ (pool'.position 2).liquidity = 0 ∧
      pool'.vaultA + 6479284 = sampleCrowded.vaultA := by
  have hreachable : Reachable sampleCrowded := by
    have htrade : samplePool.step sampleSwap = .ok sampleTraded :=
      Pool.step_eq_next (by decide +kernel)
    have hopen : sampleTraded.step (.openPosition 2 10 (-128) 0) = .ok sampleShared :=
      Pool.step_eq_next (by decide +kernel)
    have hfill : sampleShared.step sampleFilling = .ok sampleCrowded :=
      Pool.step_eq_next (by decide +kernel)
    exact ((samplePool_reachable.step htrade).step hopen).step hfill
  have hcan : ∀ e ∈ sampleExits, e.Allowed sampleCrowded := by
    intro e he
    rcases List.mem_cons.1 he with rfl | he
    · refine ⟨⟨rfl, rfl, by decide +kernel, by decide +kernel, by decide, by decide +kernel⟩,
        by decide +kernel, fun X => ?_, fun X => ?_⟩
      · cases X <;> decide +kernel
      · cases X <;> decide +kernel
    · obtain rfl := List.mem_singleton.1 he
      refine ⟨⟨rfl, rfl, by decide +kernel, by decide +kernel, by decide, by decide +kernel⟩,
        by decide +kernel, fun X => ?_, fun X => ?_⟩
      · cases X <;> decide +kernel
      · cases X <;> decide +kernel
  obtain ⟨pool', hrun, -, hall, hvault⟩ :=
    hreachable.all_exit hcan (by decide) (by decide)
  have hpaid : (sampleExits.map fun e => sampleCrowded.exitValue e.key .A).sum = 6479284 := by
    decide +kernel
  have hA := hvault .A
  rw [hpaid] at hA
  exact ⟨pool', hrun, (hall ⟨1, sampleAuth, -5632, 0, 8, sampleFunds, sampleFunds⟩
      (List.mem_cons_of_mem _ List.mem_cons_self)).1,
    (hall ⟨2, sampleAuth₂, -5632, 0, 8, sampleFunds, sampleFunds⟩ List.mem_cons_self).1, hA⟩

end Reachable

end NemoSwap
