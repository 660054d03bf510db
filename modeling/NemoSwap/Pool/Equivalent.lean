import NemoSwap.Pool.Alike
import NemoSwap.Pool.History

set_option relaxedAutoImplicit false
set_option autoImplicit false

/-!
# Equivalent pools

Two pools are equivalent if they are alike and their positions have earned the same. The notes of
one may differ from those of the other, but no instruction can tell: in equivalent pools every
instruction has the same outcome, and leads to equivalent pools. So equivalent pools stay
equivalent along every run, and owe the same to every position.

## Main definitions

* `NemoSwap.Pool.Equivalent` — alike, with the same earnings.

## Main results

* `NemoSwap.Pool.Equivalent.calculateModifyLiquidity` — a change of liquidity credits the same.
* `NemoSwap.Pool.Equivalent.step` — every instruction has the same outcome.
* `NemoSwap.Pool.Equivalent.run` — equivalent pools stay equivalent.
-/

namespace NemoSwap

/-! ## Credits -/

/-- Updates of positions that agree but for the checkpoints. -/
structure PositionUpdate.Alike (u v : PositionUpdate) : Prop where
  liquidity : v.liquidity = u.liquidity
  feeOwedA : v.feeOwedA = u.feeOwedA
  feeOwedB : v.feeOwedB = u.feeOwedB
  amountOwed : ∀ i, (v.rewardInfos i).amountOwed = (u.rewardInfos i).amountOwed

/-- Updates of the accounts that agree but for the notes. -/
structure ModifyLiquidityUpdate.Alike (u v : ModifyLiquidityUpdate) : Prop where
  whirlpoolLiquidity : v.whirlpoolLiquidity = u.whirlpoolLiquidity
  tickLowerUpdate : Tick.Alike u.tickLowerUpdate v.tickLowerUpdate
  tickUpperUpdate : Tick.Alike u.tickUpperUpdate v.tickUpperUpdate
  rewardInfos : v.rewardInfos = u.rewardInfos
  positionUpdate : u.positionUpdate.Alike v.positionUpdate

/-- Positions that owe the same fees in both tokens owe the same fees. -/
lemma Position.feeOwed_ext {a b : Position} (hA : b.feeOwedA = a.feeOwedA)
    (hB : b.feeOwedB = a.feeOwedB) : b.feeOwed = a.feeOwed := by
  funext X
  cases X
  · exact hA
  · exact hB

/-- Settling with the same credit leaves positions alike. -/
lemma Position.settle_alike (position : Position) {inside inside' : Channel → Growth}
    (h : ∀ ch, owedDelta position.liquidity (inside' ch - position.growthCheckpoint ch) =
      owedDelta position.liquidity (inside ch - position.growthCheckpoint ch)) (liquidity : ℕ) :
    { position.settle inside with liquidity }.Alike { position.settle inside' with liquidity } :=
  ⟨rfl, rfl, rfl, rfl, feeOwed_ext (congrArg (wrappingAdd 64 position.feeOwedA) (h (.fee .A)))
    (congrArg (wrappingAdd 64 position.feeOwedB) (h (.fee .B))),
    fun i => congrArg (wrappingAdd 64 (position.rewardInfos i).amountOwed) (h (.reward i))⟩

namespace Position.Alike

variable {a b : Position}

/-- Updates that are alike leave positions alike. -/
lemma update (h : a.Alike b) {u v : PositionUpdate} (huv : u.Alike v) :
    (a.update u).Alike (b.update v) :=
  ⟨h.positionMint, huv.liquidity, h.tickLowerIndex, h.tickUpperIndex,
    feeOwed_ext huv.feeOwedA huv.feeOwedB, huv.amountOwed⟩

/-- **Alike positions are credited the same**, if the same growth is inside their ranges.

**Proof sketch.** The growth since the checkpoint is the same for both, so each fee and each reward
gets the same credit. -/
theorem modify (h : a.Alike b) {inside inside' : Channel → Growth}
    (hcredit : ∀ ch, owedDelta b.liquidity (inside' ch - b.growthCheckpoint ch) =
      owedDelta a.liquidity (inside ch - a.growthCheckpoint ch)) (delta : ℤ) :
    SameOutcome PositionUpdate.Alike
      (nextPositionModifyLiquidityUpdate a delta (inside (.fee .A)) (inside (.fee .B))
        fun i => inside (.reward i))
      (nextPositionModifyLiquidityUpdate b delta (inside' (.fee .A)) (inside' (.fee .B))
        fun i => inside' (.reward i)) := by
  have hA : b.feeOwedA = a.feeOwedA := congrFun h.feeOwed .A
  have hB : b.feeOwedB = a.feeOwedB := congrFun h.feeOwed .B
  unfold nextPositionModifyLiquidityUpdate
  rw [h.liquidity]
  rw [h.liquidity] at hcredit
  refine .bind_self fun l _ => .ok ⟨rfl, ?_, ?_, fun i => ?_⟩
  · change wrappingAdd 64 b.feeOwedA _ = wrappingAdd 64 a.feeOwedA _
    rw [hA]
    exact congrArg _ (hcredit (.fee .A))
  · change wrappingAdd 64 b.feeOwedB _ = wrappingAdd 64 a.feeOwedB _
    rw [hB]
    exact congrArg _ (hcredit (.fee .B))
  · change wrappingAdd 64 (b.rewardInfos i).amountOwed _ =
      wrappingAdd 64 (a.rewardInfos i).amountOwed _
    rw [h.amountOwed]
    exact congrArg _ (hcredit (.reward i))

/-- The amounts of a change of liquidity do not depend on the notes of the position. -/
lemma calculateLiquidityTokenDeltas (h : a.Alike b) (c : ℤ) (p : ℕ) (delta : ℤ) :
    calculateLiquidityTokenDeltas c p b delta = calculateLiquidityTokenDeltas c p a delta := by
  unfold NemoSwap.calculateLiquidityTokenDeltas
  rw [h.tickLowerIndex, h.tickUpperIndex]

end Position.Alike

/-- A change of liquidity has the same outcome at ticks that are alike. -/
theorem Tick.Alike.modify {a b : Tick} (h : a.Alike b) (t c : ℤ) (g g' : Growth)
    (infos : Fin numRewards → WhirlpoolRewardInfo) (delta : ℤ) (upper : Bool) :
    SameOutcome Tick.Alike (nextTickModifyLiquidityUpdate a t c g g' infos delta upper)
      (nextTickModifyLiquidityUpdate b t c g g' infos delta upper) := by
  unfold nextTickModifyLiquidityUpdate
  rw [h.liquidityGross, h.liquidityNet]
  refine .ite (fun _ => .ok h) fun _ => .bind_self fun gross _ =>
    .ite (fun _ => .ok (Tick.Alike.refl _)) fun _ => ?_
  exact .bind_self fun net _ => .ok ⟨rfl, rfl, rfl⟩

namespace Pool

/-- Alike pools whose positions have earned the same. -/
structure Equivalent (p q : Pool) : Prop where
  alike : p.Alike q
  accounted : ∃ earned, (p.Sound earned ∧ p.Backed earned) ∧ q.Sound earned ∧ q.Backed earned

variable {p q : Pool} {earned : Earnings} {key : Pubkey}

/-! ## What alike pools store -/

/-- Storing a position leaves the record of the pool alone. -/
lemma setPosition_whirlpool (pool : Pool) (key : Pubkey) (position : Position) :
    (pool.setPosition key position).whirlpool = pool.whirlpool := rfl

/-- Storing a tick array leaves the record of the pool alone. -/
lemma setTickArray_whirlpool (pool : Pool) (start : ℤ) (array : TickArray) :
    (pool.setTickArray start array).whirlpool = pool.whirlpool := rfl

namespace Alike

/-- Positions that are alike may be stored in pools that are alike. -/
theorem setPosition (h : p.Alike q) {a b : Position} (hab : a.Alike b) (key : Pubkey) :
    (p.setPosition key a).Alike (q.setPosition key b) := by
  refine ⟨h.whirlpool, h.tickArrays, h.positions, fun k => ?_, h.vaultA, h.vaultB⟩
  rcases eq_or_ne k key with rfl | hne
  · rw [setPosition_self, setPosition_self]
    exact hab
  · rw [setPosition_of_ne _ _ hne, setPosition_of_ne _ _ hne]
    exact h.position k

/-- Tick arrays that are alike may be stored in pools that are alike. -/
theorem setTickArray (h : p.Alike q) {a b : TickArray} (hab : a.Alike b) (s : ℤ) :
    (p.setTickArray s a).Alike (q.setTickArray s b) := by
  refine ⟨h.whirlpool, fun t => ?_, h.positions, h.position, h.vaultA, h.vaultB⟩
  change Option.Rel _ (Function.update p.tickArrays s (some a) t)
    (Function.update q.tickArrays s (some b) t)
  rcases eq_or_ne t s with rfl | hne
  · rw [Function.update_self, Function.update_self]
    exact .some hab
  · rw [Function.update_of_ne hne, Function.update_of_ne hne]
    exact h.tickArrays t

/-- One record may be given to pools that are alike. -/
lemma setWhirlpool (h : p.Alike q) (whirlpool : Whirlpool) :
    { p with whirlpool }.Alike { q with whirlpool } :=
  ⟨rfl, h.tickArrays, h.positions, h.position, h.vaultA, h.vaultB⟩

/-- The same balances may be given to pools that are alike. -/
lemma setVaults (h : p.Alike q) (vaultA vaultB : ℕ) :
    { p with vaultA, vaultB }.Alike { q with vaultA, vaultB } :=
  ⟨h.whirlpool, h.tickArrays, h.positions, h.position, rfl, rfl⟩

/-- The same set of positions may be given to pools that are alike. -/
lemma setPositions (h : p.Alike q) (positions : Finset Pubkey) :
    { p with positions }.Alike { q with positions } :=
  ⟨h.whirlpool, h.tickArrays, rfl, h.position, h.vaultA, h.vaultB⟩

/-- A position is found in both pools or in neither, and is alike. -/
lemma getPosition (h : p.Alike q) (key : Pubkey) :
    SameOutcome Position.Alike (p.getPosition key) (q.getPosition key) := by
  unfold Pool.getPosition
  rw [h.positions]
  exact .ite (fun _ => .ok (h.position key)) fun _ => .error _

/-- An owner is accepted in both pools or in neither. -/
theorem getOwnedPosition (h : p.Alike q) (key : Pubkey) (auth : PositionAuthority) :
    SameOutcome Position.Alike (p.getOwnedPosition key auth) (q.getOwnedPosition key auth) := by
  unfold Pool.getOwnedPosition
  refine (h.getPosition key).bind fun a b hab => ?_
  rw [hab.positionMint]
  exact .ite (fun _ => .bind_self fun _ _ => .ok hab) fun _ => .error _

end Alike

/-! ## Earnings -/

/-- What a swap adds to the earnings of the positions is the same in pools that are alike. -/
lemma Alike.earned_add (h : p.Alike q) (earned : Earnings) (log : Channel → ℤ → ℕ) :
    earned.add q log = earned.add p log := by
  funext k ch
  unfold Earnings.add
  rw [(h.position k).tickLowerIndex, (h.position k).tickUpperIndex]

/-- **The growth inside a position since its last update**, times its liquidity, is the same in
alike pools whose positions have earned the same. -/
theorem Alike.credit (h : p.Alike q) (hp : p.Sound earned) (hq : q.Sound earned)
    (hk : key ∈ p.positions) {infos : Fin numRewards → WhirlpoolRewardInfo} {timestamp : ℕ}
    (hinfos : nextWhirlpoolRewardInfos p.whirlpool timestamp = .ok infos) (ch : Channel) :
    owedDelta (q.position key).liquidity ((q.accrue infos timestamp).insidePosition key ch -
        (q.position key).growthCheckpoint ch) =
      owedDelta (p.position key).liquidity ((p.accrue infos timestamp).insidePosition key ch -
        (p.position key).growthCheckpoint ch) := by
  rw [(h.position key).liquidity]
  rcases eq_or_ne (p.position key).liquidity 0 with h0 | h0
  · rw [h0, owedDelta_zero_left, owedDelta_zero_left]
  · have hlog : q.rewardLog infos = p.rewardLog infos := by
      unfold rewardLog
      rw [h.whirlpool]
    have h1 := (hp.accrue hinfos).checkpoints key hk h0 ch
    have h2 := (hq.accrue (h.whirlpool ▸ hinfos)).checkpoints key (h.positions ▸ hk)
      ((h.position key).liquidity ▸ h0) ch
    rw [hlog, h.earned_add] at h2
    exact congrArg _ (h2.trans h1.symm)

/-! ## Changes of liquidity -/

/-- The source's growths inside the range of a position, at the time of an update. -/
lemma Sound.growthsInside_accrue (hs : p.Sound earned)
    {infos : Fin numRewards → WhirlpoolRewardInfo} {timestamp : ℕ}
    (hinfos : nextWhirlpoolRewardInfos p.whirlpool timestamp = .ok infos) (key : Pubkey) :
    nextFeeGrowthsInside p.whirlpool.tickCurrentIndex
        (p.ticks (p.position key).tickLowerIndex) (p.position key).tickLowerIndex
        (p.ticks (p.position key).tickUpperIndex) (p.position key).tickUpperIndex
        p.whirlpool.feeGrowthGlobalA p.whirlpool.feeGrowthGlobalB =
      ((p.accrue infos timestamp).insidePosition key (.fee .A),
        (p.accrue infos timestamp).insidePosition key (.fee .B)) ∧
    nextRewardGrowthsInside p.whirlpool.tickCurrentIndex
        (p.ticks (p.position key).tickLowerIndex) (p.position key).tickLowerIndex
        (p.ticks (p.position key).tickUpperIndex) (p.position key).tickUpperIndex infos =
      fun i => (p.accrue infos timestamp).insidePosition key (.reward i) :=
  ⟨(p.accrue infos timestamp).nextFeeGrowthsInside_eq _ _,
    (p.accrue infos timestamp).nextRewardGrowthsInside_eq (hs.accrue hinfos).rewardsBlank _ _⟩

/-- **A change of liquidity computes the same.**

**Proof sketch.** The steps of the code in order. Those that read the notes compute growth inside
the range, of which only the difference to the checkpoint counts, and this is what the position has
earned, the same in both. -/
theorem Alike.calculateModifyLiquidity (h : p.Alike q) (hp : p.Sound earned) (hq : q.Sound earned)
    (hk : key ∈ p.positions) {s t : ℤ} {lower lower' upper upper' : TickArray}
    (hl : p.tickArrays s = some lower) (hl' : q.tickArrays s = some lower')
    (hu : p.tickArrays t = some upper) (hu' : q.tickArrays t = some upper')
    (hlower : lower.Alike lower') (hupper : upper.Alike upper') (delta : ℤ) (timestamp : ℕ) :
    SameOutcome ModifyLiquidityUpdate.Alike
      (calculateModifyLiquidity p.whirlpool (p.position key) lower upper delta timestamp)
      (calculateModifyLiquidity q.whirlpool (q.position key) lower' upper' delta timestamp) := by
  have hpos := h.position key
  have hfeeq := fun infos => @Sound.growthsInside_accrue q earned hq infos timestamp
  unfold NemoSwap.calculateModifyLiquidity
  rw [h.whirlpool] at hfeeq ⊢
  rw [hpos.tickLowerIndex, hpos.tickUpperIndex]
  refine (hlower.getTick _ _).bind_ok fun a b ha hb hab =>
    (hupper.getTick _ _).bind_ok fun c d hc hd hcd => ?_
  obtain rfl := hp.getTick_eq_ok hl ha
  obtain rfl := hp.getTick_eq_ok hu hc
  obtain rfl := hq.getTick_eq_ok hl' (h.whirlpool ▸ hb)
  obtain rfl := hq.getTick_eq_ok hu' (h.whirlpool ▸ hd)
  unfold calculateModifyLiquidity'
  rw [hpos.liquidity, hpos.tickLowerIndex, hpos.tickUpperIndex]
  refine .guard fun _ => .bind_self fun infos hinfos => .bind_self fun l _ => ?_
  refine (hab.modify _ _ _ _ _ _ _).bind fun u v huv => ?_
  refine (hcd.modify _ _ _ _ _ _ _).bind fun u' v' huv' => ?_
  obtain ⟨h1, h2⟩ := hp.growthsInside_accrue hinfos key
  obtain ⟨h3, h4⟩ := hfeeq infos hinfos key
  rw [hpos.tickLowerIndex, hpos.tickUpperIndex] at h3 h4
  rw [h1, h2, h3, h4]
  exact (hpos.modify (h.credit hp hq hk hinfos) delta).bind fun x y hxy =>
    .ok ⟨rfl, huv, huv', rfl, hxy⟩

namespace Alike

/-- What a change of liquidity writes back. -/
theorem syncModifyLiquidityValues (h : p.Alike q) (key : Pubkey) (s t : ℤ)
    {u v : ModifyLiquidityUpdate} (huv : u.Alike v) (timestamp : ℕ) :
    SameOutcome Alike (p.syncModifyLiquidityValues key s t u timestamp)
      (q.syncModifyLiquidityValues key s t v timestamp) := by
  have hpos := h.position key
  have hset := h.setPosition (hpos.update huv.positionUpdate) key
  unfold Pool.syncModifyLiquidityValues
  simp only [setPosition_whirlpool, setTickArray_whirlpool, h.whirlpool, hpos.tickLowerIndex,
    hpos.tickUpperIndex, huv.rewardInfos, huv.whirlpoolLiquidity]
  refine (hset.getTickArray s).bind fun a b hab =>
    (hab.updateTick huv.tickLowerUpdate _ _).bind fun a' b' hab' => ?_
  have hlower := hset.setTickArray hab' s
  exact (hlower.getTickArray t).bind fun c d hcd =>
    (hcd.updateTick huv.tickUpperUpdate _ _).bind fun c' d' hcd' =>
    .ok ((hlower.setTickArray hcd' t).setWhirlpool _)

/-- The tick arrays and the position of a change of liquidity, and what it computes. -/
lemma calculate (h : p.Alike q) (hp : p.Sound earned) (hq : q.Sound earned)
    (hk : key ∈ p.positions) {s t : ℤ} {lower lower' upper upper' : TickArray}
    (hl : p.getTickArray s = .ok lower) (hl' : q.getTickArray s = .ok lower')
    (hu : p.getTickArray t = .ok upper) (hu' : q.getTickArray t = .ok upper')
    (hlower : lower.Alike lower') (hupper : upper.Alike upper') (delta : ℤ) (timestamp : ℕ) :
    SameOutcome ModifyLiquidityUpdate.Alike
      (NemoSwap.calculateModifyLiquidity p.whirlpool (p.position key) lower upper delta timestamp)
      (NemoSwap.calculateModifyLiquidity q.whirlpool (q.position key) lower' upper' delta
        timestamp) := by
  rw [getTickArray_eq_ok] at hl hl' hu hu'
  exact h.calculateModifyLiquidity hp hq hk hl hl' hu hu' hlower hupper delta timestamp

/-- A change of liquidity has the same outcome and the same amounts in pools that are alike. -/
theorem modifyLiquidity (h : p.Alike q) (hp : p.Sound earned) (hq : q.Sound earned) (key : Pubkey)
    (auth : PositionAuthority) (s t : ℤ) (amount : BitVec 128) (positive : Bool) (clock : Int64) :
    SameOutcome (fun x y => x.1.Alike y.1 ∧ y.2 = x.2)
      (p.modifyLiquidity key auth s t amount positive clock)
      (q.modifyLiquidity key auth s t amount positive clock) := by
  unfold Pool.modifyLiquidity
  refine (h.getOwnedPosition key auth).bind_ok fun a b ha hb hab => ?_
  obtain ⟨hk, rfl⟩ := getOwnedPosition_eq_ok ha
  obtain ⟨-, rfl⟩ := getOwnedPosition_eq_ok hb
  refine (h.getTickArray s).bind_ok fun l l' hl hl' hll' =>
    (h.getTickArray t).bind_ok fun u u' hu hu' huu' => ?_
  have hcalc := fun d timestamp => h.calculate hp hq hk hl hl' hu hu' hll' huu' d timestamp
  rw [h.whirlpool] at hcalc ⊢
  refine .bind_self fun _ _ => .guard fun _ => .bind_self fun d _ => .bind_self fun timestamp _ =>
    (hcalc d timestamp).bind fun x y hxy =>
    (h.syncModifyLiquidityValues key s t hxy timestamp).bind fun p' q' h' => ?_
  rw [h'.whirlpool, (h'.position key).calculateLiquidityTokenDeltas]
  exact .bind_self fun ⟨_, _⟩ _ => .ok ⟨h', rfl⟩

/-- `increase_liquidity` has the same outcome in pools that are alike. -/
theorem increaseLiquidity (h : p.Alike q) (hp : p.Sound earned) (hq : q.Sound earned)
    (key : Pubkey) (auth : PositionAuthority) (s t : ℤ) (amount : BitVec 128)
    (maxA maxB : UInt64) (clock : Int64) (funds : OwnerFunds) :
    SameOutcome Alike (p.increaseLiquidity key auth s t amount maxA maxB clock funds)
      (q.increaseLiquidity key auth s t amount maxA maxB clock funds) := by
  unfold Pool.increaseLiquidity
  refine (h.modifyLiquidity hp hq key auth s t amount true clock).bind ?_
  rintro ⟨p', a, b⟩ ⟨q', ab⟩ ⟨h', hab⟩
  simp only at h' hab
  subst hab
  simp only [h'.vaultA, h'.vaultB]
  exact .guard fun _ => .guard fun _ => .bind_self fun a _ => .bind_self fun b _ =>
    .ok (h'.setVaults a b)

/-- `decrease_liquidity` has the same outcome in pools that are alike. -/
theorem decreaseLiquidity (h : p.Alike q) (hp : p.Sound earned) (hq : q.Sound earned)
    (key : Pubkey) (auth : PositionAuthority) (s t : ℤ) (amount : BitVec 128)
    (minA minB : UInt64) (clock : Int64) (funds : OwnerFunds) :
    SameOutcome Alike (p.decreaseLiquidity key auth s t amount minA minB clock funds)
      (q.decreaseLiquidity key auth s t amount minA minB clock funds) := by
  unfold Pool.decreaseLiquidity
  refine (h.modifyLiquidity hp hq key auth s t amount false clock).bind ?_
  rintro ⟨p', a, b⟩ ⟨q', ab⟩ ⟨h', hab⟩
  simp only at h' hab
  subst hab
  simp only [h'.vaultA, h'.vaultB]
  exact .guard fun _ => .guard fun _ => .bind_self fun a _ => .bind_self fun b _ =>
    .ok (h'.setVaults a b)

/-- `update_fees_and_rewards` has the same outcome in pools that are alike.

**Proof sketch.** The reads have the same outcome one after another, and so has the update by
`calculate`; the position and the rewards that are stored are alike. -/
theorem updateFeesAndRewards (h : p.Alike q) (hp : p.Sound earned) (hq : q.Sound earned)
    (key : Pubkey) (s t : ℤ) (clock : Int64) :
    SameOutcome Alike (p.updateFeesAndRewards key s t clock)
      (q.updateFeesAndRewards key s t clock) := by
  unfold Pool.updateFeesAndRewards calculateFeeAndRewardGrowths
  refine (h.getPosition key).bind_ok fun a b ha hb hab => ?_
  obtain ⟨hk, rfl⟩ := getPosition_eq_ok ha
  obtain ⟨-, rfl⟩ := getPosition_eq_ok hb
  refine (h.getTickArray s).bind_ok fun l l' hl hl' hll' =>
    (h.getTickArray t).bind_ok fun u u' hu hu' huu' => .bind_self fun timestamp _ => ?_
  have hcalc := h.calculate hp hq hk hl hl' hu hu' hll' huu' 0 timestamp
  have hupdate : SameOutcome (fun x y => x.1.Alike y.1 ∧ y.2 = x.2)
      (NemoSwap.calculateModifyLiquidity p.whirlpool (p.position key) l u 0 timestamp >>=
        fun update => (pure (update.positionUpdate, update.rewardInfos) : Res _))
      (NemoSwap.calculateModifyLiquidity q.whirlpool (q.position key) l' u' 0 timestamp >>=
        fun update => (pure (update.positionUpdate, update.rewardInfos) : Res _)) :=
    hcalc.bind fun x y hxy => .ok ⟨hxy.positionUpdate, hxy.rewardInfos⟩
  refine hupdate.bind ?_
  rintro ⟨x, infos⟩ ⟨y, infos'⟩ ⟨hxy, hinfos⟩
  simp only at hxy hinfos
  subst hinfos
  simp only [h.whirlpool]
  exact .ok ((h.setPosition (hab.update hxy) key).setWhirlpool _)

/-! ## The other instructions -/

/-- `open_position` has the same outcome in pools that are alike. -/
theorem openPosition (h : p.Alike q) (key mint : Pubkey) (lo hi : ℤ) :
    SameOutcome Alike (p.openPosition key mint lo hi) (q.openPosition key mint lo hi) := by
  unfold Pool.openPosition
  rw [h.whirlpool, h.positions]
  exact .guard fun _ => .bind_self fun _ _ => .bind_self fun position _ =>
    .ok ((h.setPosition (Position.Alike.refl position) key).setPositions _)

/-- Positions that are alike are both empty or both not. -/
theorem isPositionEmpty {a b : Position} (h : a.Alike b) :
    b.isPositionEmpty = a.isPositionEmpty := by
  have hA : b.feeOwedA = a.feeOwedA := congrFun h.feeOwed .A
  have hB : b.feeOwedB = a.feeOwedB := congrFun h.feeOwed .B
  unfold Position.isPositionEmpty
  simp only [hA, hB, h.liquidity, h.amountOwed]

/-- `close_position` has the same outcome in pools that are alike. -/
theorem closePosition (h : p.Alike q) (key : Pubkey) (auth : PositionAuthority) :
    SameOutcome Alike (p.closePosition key auth) (q.closePosition key auth) := by
  unfold Pool.closePosition
  refine (h.getOwnedPosition key auth).bind fun a b hab => ?_
  rw [isPositionEmpty hab, h.whirlpool, h.positions]
  exact .guard fun _ => .bind_self fun _ _ => .bind_self fun _ _ =>
    .ok ⟨rfl, h.tickArrays, rfl, h.position, h.vaultA, h.vaultB⟩

/-- `collect_fees` has the same outcome in pools that are alike. -/
theorem collectFees (h : p.Alike q) (key : Pubkey) (auth : PositionAuthority)
    (funds : OwnerFunds) :
    SameOutcome Alike (p.collectFees key auth funds) (q.collectFees key auth funds) := by
  unfold Pool.collectFees
  refine (h.getOwnedPosition key auth).bind fun a b hab => ?_
  have hA : b.feeOwedA = a.feeOwedA := congrFun hab.feeOwed .A
  have hB : b.feeOwedB = a.feeOwedB := congrFun hab.feeOwed .B
  have hreset : a.resetFeesOwed.Alike b.resetFeesOwed :=
    ⟨hab.positionMint, hab.liquidity, hab.tickLowerIndex, hab.tickUpperIndex,
      Position.feeOwed_ext rfl rfl, hab.amountOwed⟩
  have hset := h.setPosition hreset key
  dsimp only
  rw [hA, hB, hset.vaultA, hset.vaultB]
  exact .bind_self fun a _ => .bind_self fun b _ => .ok (hset.setVaults a b)

/-- `collect_protocol_fees` has the same outcome in pools that are alike. -/
lemma collectProtocolFees (h : p.Alike q) (funds : OwnerFunds) :
    SameOutcome Alike (p.collectProtocolFees funds) (q.collectProtocolFees funds) := by
  unfold Pool.collectProtocolFees
  rw [h.whirlpool, h.vaultA, h.vaultB]
  exact .bind_self fun a _ => .bind_self fun b _ => .ok ((h.setWhirlpool _).setVaults a b)

/-- `collect_reward` has the same outcome in pools that are alike.

**Proof sketch.** The account is owned in both pools or in neither, and the same amount is owed.
What is stored is the reward without it. -/
theorem collectReward (h : p.Alike q) (key : Pubkey) (auth : PositionAuthority) (index : ℕ)
    (rewardVault rewardOwner : UInt64) :
    SameOutcome Alike (p.collectReward key auth index rewardVault rewardOwner)
      (q.collectReward key auth index rewardVault rewardOwner) := by
  unfold Pool.collectReward
  refine (h.getOwnedPosition key auth).bind fun a b hab => ?_
  rw [h.whirlpool]
  by_cases hi : index < numRewards
  · rw [dif_pos hi, dif_pos hi, hab.amountOwed]
    refine .guard fun _ => .bind_self fun _ _ => .ok (h.setPosition ?_ key)
    refine ⟨hab.positionMint, hab.liquidity, hab.tickLowerIndex, hab.tickUpperIndex,
      Position.feeOwed_ext (congrFun hab.feeOwed .A) (congrFun hab.feeOwed .B), fun i => ?_⟩
    unfold Position.updateRewardOwed
    rcases eq_or_ne i ⟨index, hi⟩ with rfl | hne
    · simp only [Function.update_self]
    · simp only [Function.update_of_ne hne]
      exact hab.amountOwed i
  · rw [dif_neg hi, dif_neg hi]
    exact .error _

/-- `initialize_tick_array` has the same outcome in pools that are alike. -/
theorem initializeTickArray (h : p.Alike q) (start : ℤ) :
    SameOutcome Alike (p.initializeTickArray start) (q.initializeTickArray start) := by
  have hsome : (q.tickArrays start).isSome = (p.tickArrays start).isSome := by
    have hs := h.tickArrays start
    generalize p.tickArrays start = x at hs ⊢
    generalize q.tickArrays start = y at hs ⊢
    cases hs <;> rfl
  unfold Pool.initializeTickArray
  rw [h.whirlpool, hsome]
  exact .guard fun _ => .bind_self fun array _ =>
    .ok (h.setTickArray (TickArray.Alike.refl array) start)

/-- The handlers that compute a new record from the old one. -/
lemma setRecord (h : p.Alike q) (f : Whirlpool → Res Whirlpool) :
    SameOutcome Alike (f p.whirlpool >>= fun whirlpool => pure { p with whirlpool })
      (f q.whirlpool >>= fun whirlpool => pure { q with whirlpool }) := by
  rw [h.whirlpool]
  exact .bind_self fun w _ => .ok (h.setWhirlpool w)

/-- `set_reward_emissions` has the same outcome in pools that are alike. -/
theorem setRewardEmissions (h : p.Alike q) (index : ℕ) (emissions : BitVec 128)
    (rewardVault : UInt64) (clock : Int64) :
    SameOutcome Alike (p.setRewardEmissions index emissions rewardVault clock)
      (q.setRewardEmissions index emissions rewardVault clock) := by
  unfold Pool.setRewardEmissions
  rw [h.whirlpool]
  by_cases hi : index < numRewards
  · rw [dif_pos hi, dif_pos hi]
    exact .guard fun _ => .bind_self fun _ _ => .guard fun _ => .bind_self fun _ _ =>
      .bind_self fun _ _ => .bind_self fun w _ => .ok (h.setWhirlpool w)
  · rw [dif_neg hi, dif_neg hi]
    exact .error _

/-- **Every instruction does the same.**

**Proof sketch.** One case for each instruction. -/
theorem step (h : p.Alike q) (hp : p.Sound earned) (hq : q.Sound earned) (op : PoolOp) :
    SameOutcome Alike (p.step op) (q.step op) := by
  cases op with
  | openPosition key mint lo hi => exact h.openPosition key mint lo hi
  | closePosition key auth => exact h.closePosition key auth
  | increaseLiquidity key auth s t amount maxA maxB clock funds =>
    exact h.increaseLiquidity hp hq key auth s t amount maxA maxB clock funds
  | decreaseLiquidity key auth s t amount minA minB clock funds =>
    exact h.decreaseLiquidity hp hq key auth s t amount minA minB clock funds
  | updateFeesAndRewards key s t clock => exact h.updateFeesAndRewards hp hq key s t clock
  | collectFees key auth funds => exact h.collectFees key auth funds
  | collectProtocolFees funds => exact h.collectProtocolFees funds
  | collectReward key auth index vault owner => exact h.collectReward key auth index vault owner
  | swap args threshold clock funds => exact h.swapHandler args threshold clock funds
  | twoHopLeg args clock funds => exact h.swapLeg args clock funds
  | initializeTickArray start => exact h.initializeTickArray start
  | setFeeRate rate => exact h.setRecord fun w => w.updateFeeRate rate
  | setProtocolFeeRate rate => exact h.setRecord fun w => w.updateProtocolFeeRate rate
  | setEnableFlag flag =>
    refine .ok ?_
    unfold Pool.setEnableFlag
    rw [h.whirlpool]
    exact h.setWhirlpool _
  | initializeReward index mint vault =>
    exact h.setRecord fun w => w.initializeReward index mint vault
  | setRewardEmissions index emissions vault clock =>
    exact h.setRewardEmissions index emissions vault clock
  | setRewardAuthority index authority =>
    exact h.setRecord fun w => w.updateRewardAuthority index authority

end Alike

/-! ## Equivalent pools stay equivalent -/

/-- Alike pools log the same growth.

**Proof sketch.** The rewards that accrue and the swap that is observed are the same in both
pools. -/
theorem Alike.growthLog (h : p.Alike q) (op : PoolOp) : q.growthLog op = p.growthLog op := by
  have hreward : ∀ infos, q.rewardLog infos = p.rewardLog infos := fun infos => by
    unfold rewardLog
    rw [h.whirlpool]
  have haccrual : q.accrual op = p.accrual op := by
    unfold accrual
    rw [h.whirlpool]
  unfold Pool.growthLog
  rw [haccrual]
  rcases p.accrual op with _ | ⟨infos, timestamp⟩
  · rfl
  · rcases op.trade with _ | args
    · exact hreward infos
    · have hobserve := h.observeSwap args timestamp
      simp only
      generalize p.observeSwap args timestamp = x at hobserve ⊢
      generalize q.observeSwap args timestamp = y at hobserve ⊢
      cases hobserve with
      | error e => rfl
      | @ok a b hab =>
        change q.tradeLog args infos b = p.tradeLog args infos a
        unfold tradeLog
        rw [hab.grown, hreward]

/-- The invariant of a pool, as that of a history that starts there. -/
lemma Sound.exists_history (hs : p.Sound earned) (hb : p.Backed earned) :
    ∃ s : History, s.pool = p ∧ s.earned = earned ∧ s.Invariant := by
  refine ⟨{ pool := p, earned, grown := fun _ _ => 0, credited := fun _ => 0
            emitted := fun i => p.ranges.total fun k => earned k (.reward i) },
    rfl, rfl, hs, hb, fun i => ?_⟩
  change (0 : ℕ) * (2 : ℚ) ^ 64 + _ ≤ ((p.ranges.total fun k => earned k (.reward i) : ℕ) : ℚ)
  rw [Ranges.natCast_total, Nat.cast_zero, zero_mul, zero_add]

/-- **Every instruction has the same outcome in equivalent pools.**

**Proof sketch.** By `step`, for alike pools. Both pools have a history, and the histories are
extended by the same earnings, because what an instruction logs is the same for alike pools. -/
theorem Equivalent.step (h : p.Equivalent q) (op : PoolOp) :
    SameOutcome Equivalent (p.step op) (q.step op) := by
  obtain ⟨halike, earned, ⟨hp, hbp⟩, hq, hbq⟩ := h
  refine (halike.step hp hq op).mono fun p' q' hp' hq' h' => ⟨h', ?_⟩
  obtain ⟨s, rfl, rfl, hs⟩ := hp.exists_history hbp
  obtain ⟨t, rfl, he, ht⟩ := hq.exists_history hbq
  have hs' := hs.extend hp'
  have ht' := ht.extend hq'
  have hearned : (t.extend op q').earned = (s.extend op p').earned := by
    unfold History.extend
    simp only [he, halike.growthLog, halike.earned_add]
  refine ⟨_, ⟨hs'.sound, hs'.backed⟩, ?_, ?_⟩
  · rw [← hearned]
    exact ht'.sound
  · rw [← hearned]
    exact ht'.backed

/-- The next state of a pool, as that of a machine whose failed steps change nothing. -/
lemma next_eq_after (pool : Pool) (op : PoolOp) : pool.next op = after Pool.step pool op := by
  unfold Pool.next after
  cases pool.step op <;> rfl

/-- **Equivalent pools stay equivalent**, whatever the instructions. -/
theorem Equivalent.run (h : p.Equivalent q) (ops : List PoolOp) :
    (p.run ops).Equivalent (q.run ops) := by
  unfold Pool.run
  rw [show Pool.next = after Pool.step from funext₂ next_eq_after]
  exact related_foldl (fun _ _ op h => Equivalent.step h op) h ops

/-- Equivalent pools owe the same to every position. -/
lemma Equivalent.owed (h : p.Equivalent q) (key : Pubkey) :
    (∀ X, (q.position key).feeOwed X = (p.position key).feeOwed X) ∧
      ∀ i, ((q.position key).rewardInfos i).amountOwed =
        ((p.position key).rewardInfos i).amountOwed :=
  ⟨congrFun (h.alike.position key).feeOwed, (h.alike.position key).amountOwed⟩

end Pool

end NemoSwap
