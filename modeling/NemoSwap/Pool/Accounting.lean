import NemoSwap.Lib.OutsideGrowth
import NemoSwap.Manager.LiquidityManager
import NemoSwap.Manager.SwapStep
import NemoSwap.Pool.Reserves

set_option relaxedAutoImplicit false
set_option autoImplicit false

/-!
# The books of a pool

The ticks and the active liquidity of a pool are a summary of its positions, and the growth
counters of the ticks are a summary of its history. Here both summaries are defined, for the fees
of the two tokens and the three rewards alike, and one iteration of the swap loop is shown to
keep them.

## Main definitions

* `NemoSwap.Channel` — the growth accumulators of a pool: two fees and three rewards.
* `NemoSwap.Books` — the ticks and the active liquidity agree with the positions.
* `NemoSwap.rangeInside` — the growth inside a range, from the ticks of the pool.

## Main results

* `NemoSwap.StepResult.books` — an iteration keeps the books.
* `NemoSwap.StepResult.inside` — an iteration adds its fee to the ranges that contain the current
  tick, and nothing else.
* `NemoSwap.StepResult.reserve` — an iteration moves the reserves with the active liquidity.
-/

namespace NemoSwap

/-! ## Growth accumulators -/

/-- The growth accumulators of a pool. -/
inductive Channel
  | fee (X : Token)
  | reward (i : Fin numRewards)
  deriving DecidableEq

/-- The global growth of an accumulator. -/
def Whirlpool.growthGlobal (w : Whirlpool) : Channel → Growth
  | .fee .A => w.feeGrowthGlobalA
  | .fee .B => w.feeGrowthGlobalB
  | .reward i => (w.rewardInfos i).growthGlobalX64

/-- The growth outside a tick. -/
def Tick.growthOutside (tick : Tick) : Channel → Growth
  | .fee .A => tick.feeGrowthOutsideA
  | .fee .B => tick.feeGrowthOutsideB
  | .reward i => tick.rewardGrowthsOutside i

/-- The growth inside the range of a position at its last update. -/
def Position.growthCheckpoint (position : Position) : Channel → Growth
  | .fee .A => position.feeGrowthCheckpointA
  | .fee .B => position.feeGrowthCheckpointB
  | .reward i => (position.rewardInfos i).growthInsideCheckpoint

/-- The growth inside a range with the current tick `c`. -/
def rangeInside (ticks : ℤ → Tick) (g : Growth) (c : ℤ) (ch : Channel) (lo hi : ℤ) : Growth :=
  Outside.inside
    (Outside.below (ticks hi).initialized ((ticks hi).growthOutside ch) g c hi)
    (Outside.below (ticks lo).initialized ((ticks lo).growthOutside ch) g c lo)

/-- The source's growth inside a range is the difference of the growths below its ends. -/
theorem growthInside_eq (c : ℤ) (li : Bool) (lo : ℤ) (ui : Bool) (hi : ℤ) (g ol ou : Growth) :
    growthInside c li lo ui hi g ol ou =
      Outside.inside (Outside.below ui ou g c hi) (Outside.below li ol g c lo) := by
  unfold growthInside Outside.inside Outside.below
  cases li <;> cases ui <;> simp only [Bool.not_false, Bool.not_true, Bool.false_eq_true, if_true,
    if_false]
  · ring
  · split_ifs <;> ring
  · split_ifs <;> ring
  · split_ifs <;> ring

/-- A reward that is not initialized has not grown anywhere. -/
def RewardsBlank (infos : Fin numRewards → WhirlpoolRewardInfo) (ticks : ℤ → Tick) : Prop :=
  ∀ i, (infos i).initialized = false →
    (infos i).growthGlobalX64 = 0 ∧ ∀ t, (ticks t).rewardGrowthsOutside i = 0

/-! ## The books -/

/-- The ticks and the active liquidity agree with a family of positions. -/
structure Books {ι : Type} (R : Ranges ι ℤ) (ticks : ℤ → Tick) (c : ℤ) (liquidity : ℕ) :
    Prop where
  active : liquidity = R.active c
  net : ∀ t, (ticks t).liquidityNet = R.net t
  gross : ∀ t, (ticks t).liquidityGross = R.gross t
  initialized : ∀ t, (ticks t).initialized = true ↔ 0 < R.gross t
  blank : ∀ t, (ticks t).initialized = false → ticks t = Tick.default

section Books

variable {ι : Type} {R : Ranges ι ℤ} {T : ℤ → Tick} {c : ℤ} {l : ℕ}

/-- No liquidity is referenced at a tick that is not initialized. -/
lemma Books.gross_eq_zero (h : Books R T c l) {t : ℤ} (ht : (T t).initialized = false) :
    R.gross t = 0 := by
  have := (h.initialized t).not.1 (by rw [ht]; simp)
  omega

/-- The lower tick of a position with liquidity is initialized. -/
lemma Books.lower_initialized (h : Books R T c l) {k : ι} (hk : k ∈ R.keys)
    (h0 : R.size k ≠ 0) : (T (R.lower k)).initialized = true := by
  rw [h.initialized]
  have := R.size_le_gross_lower hk
  omega

/-- The upper tick of a position with liquidity is initialized. -/
lemma Books.upper_initialized (h : Books R T c l) {k : ι} (hk : k ∈ R.keys)
    (h0 : R.size k ≠ 0) : (T (R.upper k)).initialized = true := by
  rw [h.initialized]
  have := R.size_le_gross_upper hk
  omega

/-- Replacing a tick by one with the same liquidity keeps the books. -/
lemma Books.update_tick (h : Books R T c l) {n : ℤ} {u : Tick}
    (h1 : u.initialized = true) (h2 : (T n).initialized = true)
    (h3 : u.liquidityNet = (T n).liquidityNet) (h4 : u.liquidityGross = (T n).liquidityGross)
    {c' : ℤ} {l' : ℕ} (hl : l' = R.active c') : Books R (Function.update T n u) c' l' := by
  refine ⟨hl, fun t => ?_, fun t => ?_, fun t => ?_, fun t ht => ?_⟩ <;>
    rcases eq_or_ne t n with rfl | hne
  · rw [Function.update_self, h3, h.net]
  · rw [Function.update_of_ne hne, h.net]
  · rw [Function.update_self, h4, h.gross]
  · rw [Function.update_of_ne hne, h.gross]
  · rw [Function.update_self, ← h.initialized, h1, h2]
  · rw [Function.update_of_ne hne, h.initialized]
  · rw [Function.update_self, h1] at ht
    cases ht
  · rw [Function.update_of_ne hne] at ht ⊢
    exact h.blank t ht

end Books

/-! ## Fees -/

/-- The part of a fee that goes to the protocol. -/
def protocolFeeOn (fee rate : ℕ) : ℕ := fee * rate / protocolFeeRateMulValue

/-- The growth of the fees per unit of liquidity, in Q64.64. -/
def feeGrowth (fee liquidity : ℕ) : ℕ := fee * 2 ^ 64 / liquidity

/-- The protocol's part of a fee is at most the fee. -/
theorem protocolFeeOn_le (fee : ℕ) {rate : ℕ} (h : rate ≤ maxProtocolFeeRate) :
    protocolFeeOn fee rate ≤ fee := by
  unfold protocolFeeOn
  refine Nat.div_le_of_le_mul ?_
  rw [mul_comm]
  exact Nat.mul_le_mul_right _ (h.trans (by norm_num [maxProtocolFeeRate, protocolFeeRateMulValue]))

/-- What a growth of fees pays to the liquidity is at most the fee. -/
lemma feeGrowth_mul_le (fee l : ℕ) : feeGrowth fee l * l ≤ fee * 2 ^ 64 := Nat.div_mul_le_self _ _

/-- The growth of a fee in 64 bits fits in 128 bits. -/
lemma feeGrowth_lt {fee l : ℕ} (h : fee < 2 ^ 64) : feeGrowth fee l < 2 ^ 128 := by
  have h1 : fee * 2 ^ 64 / l ≤ fee * 2 ^ 64 := Nat.div_le_self _ _
  have h2 : fee * 2 ^ 64 < 2 ^ 64 * 2 ^ 64 := Nat.mul_lt_mul_of_pos_right h (by positivity)
  exact lt_of_le_of_lt h1 (h2.trans_eq (by norm_num))

/-- The inversion of `calculate_fees`.

**Proof sketch.** The protocol's part is at most the fee, so the subtraction is exact; the growth is
the quotient of the rest by the liquidity, and wraps as the accumulator does. -/
theorem calculateFees_eq_ok {fee rate l prot prot' : ℕ} {g g' : Growth} (hfee : fee < 2 ^ 64)
    (hrate : rate ≤ maxProtocolFeeRate) (hprot : prot < 2 ^ 64)
    (h : calculateFees fee rate l prot g = .ok (prot', g')) :
    prot' = wrappingAdd 64 prot (protocolFeeOn fee rate) ∧
      (g' - g).toNat = feeGrowth (fee - protocolFeeOn fee rate) l := by
  have hle := protocolFeeOn_le fee hrate
  have hgrow : ∀ x, x < 2 ^ 64 → (if l > 0 then g + BitVec.ofNat 128 (x <<< q64Resolution / l)
      else g) = g + BitVec.ofNat 128 (feeGrowth x l) := fun x _ => by
    rw [Nat.shiftLeft_eq]
    unfold feeGrowth
    rcases Nat.eq_zero_or_pos l with rfl | hl
    · simp
    · rw [if_pos hl]
  have hsub : ∀ x, x < 2 ^ 64 → (g + BitVec.ofNat 128 (feeGrowth x l) - g).toNat =
      feeGrowth x l := fun x hx => by
    rw [add_sub_cancel_left, BitVec.toNat_ofNat, Nat.mod_eq_of_lt (feeGrowth_lt hx)]
  unfold calculateFees at h
  rcases Nat.eq_zero_or_pos rate with rfl | hpos
  · rw [if_neg (lt_irrefl 0)] at h
    simp only [Res.ok_bind, Res.pure_eq_ok, Except.ok.injEq, Prod.mk.injEq] at h
    obtain ⟨rfl, rfl⟩ := h
    rw [hgrow _ hfee]
    unfold protocolFeeOn
    rw [mul_zero, Nat.zero_div, Nat.sub_zero, wrappingAdd_of_lt (by simpa using hprot), add_zero]
    exact ⟨rfl, hsub _ hfee⟩
  · rw [if_pos hpos] at h
    simp only [Res.bind_eq_ok, Res.pure_eq_ok, Except.ok.injEq] at h
    obtain ⟨⟨x, y⟩, ⟨d, hd, he⟩, h⟩ := h
    rw [Prod.mk.injEq] at he h
    obtain ⟨rfl, rfl⟩ := he
    obtain ⟨rfl, rfl⟩ := h
    unfold calculateProtocolFee at hd
    simp only at hd
    split_ifs at hd with hlt
    rw [Except.ok.injEq] at hd
    subst hd
    simp only
    have hw : wrappingSub 64 fee (protocolFeeOn fee rate) = fee - protocolFeeOn fee rate :=
      wrappingSub_of_le hfee hle
    unfold protocolFeeOn at hw hle ⊢
    have hlt' := lt_of_le_of_lt (Nat.sub_le fee (fee * rate / protocolFeeRateMulValue)) hfee
    rw [hw, hgrow _ hlt']
    exact ⟨rfl, hsub _ hlt'⟩

/-! ## One iteration of the swap loop -/

variable {w : Whirlpool} {infos : Fin numRewards → WhirlpoolRewardInfo} {base : TickMap}
  {limit amount : ℕ} {input aToB : Bool} {s s' : SwapState} {n : ℤ} {comp : SwapStepComputation}

/-- The global growth of an accumulator during a swap. -/
def swapGlobal (w : Whirlpool) (infos : Fin numRewards → WhirlpoolRewardInfo) (aToB : Bool)
    (g : Growth) : Channel → Growth
  | .fee X => if X = tokenIn aToB then g else w.growthGlobal (.fee X)
  | .reward i => (infos i).growthGlobalX64

/-- A crossing replaces every growth outside by its complement. -/
lemma crossedTick_growthOutside {T : ℤ → Tick} (hr : RewardsBlank infos T) (g : Growth)
    (n : ℤ) (ch : Channel) : (crossedTick w infos aToB g (T n)).growthOutside ch =
      swapGlobal w infos aToB g ch - (T n).growthOutside ch := by
  cases ch with
  | fee X => cases X <;> cases aToB <;> rfl
  | reward i =>
    unfold crossedTick nextTickCrossUpdate Tick.growthOutside swapGlobal
    simp only
    cases hi : (infos i).initialized with
    | true => rfl
    | false =>
      obtain ⟨h1, h2⟩ := hr i hi
      rw [if_neg (by simp), h1, h2 n, sub_zero]

/-- The ticks and prices that a move stays between: no tick strictly inside is initialized.

**Proof sketch.** By the direction. The search says that no tick between the current one and the
tick it found is initialized, and the move does not leave the prices between these two. -/
lemma StepResult.window (hb : SwapBounds w limit amount)
    (hs : s.WellFormed w base limit amount aToB)
    (h : StepResult w infos base limit input aToB n comp s s') :
    ∃ a b, minTickIndex - 1 ≤ a ∧ b ≤ maxTickIndex + 1 ∧ a ≤ s.currTickIndex ∧
      s.currTickIndex < b ∧
      (∀ t, a < t → t < b → (s.ticks base w.tickSpacing t).initialized = false) ∧
      (tickPrice a ≤ s.currSqrtPrice ∧ s.currSqrtPrice ≤ tickPrice b) ∧
      tickPrice a ≤ s'.currSqrtPrice ∧ s'.currSqrtPrice ≤ tickPrice b := by
  obtain ⟨h1, -, h3, -⟩ := h.price_bounds hb hs
  have hn1 := h.search.lower
  have hn2 := h.search.upper
  have hc1 := hs.price.tick_min
  have hc2 := hs.price.tick_max
  have hlo := hs.price.lower
  have hup := hs.price.upper
  cases aToB with
  | true =>
    obtain ⟨hle, hdark⟩ := h.search.left rfl
    rw [toward_true] at h1 h3
    exact ⟨n, s.currTickIndex + 1, by omega, by omega, hle, by omega,
      fun t ht1 ht2 => hdark t ht1 (by omega), ⟨h3.trans h1, hup⟩, h3, h1.trans hup⟩
  | false =>
    obtain ⟨hlt, hdark⟩ := h.search.right rfl
    rw [toward_false] at h1 h3
    exact ⟨s.currTickIndex, n, hc1, by omega, le_rfl, hlt, hdark, ⟨hlo, h1.trans h3⟩,
      hlo.trans h1, h3⟩

/-- **An iteration moves the reserves with the active liquidity.** -/
theorem StepResult.reserve {ι : Type} {R : Ranges ι ℤ} (hb : SwapBounds w limit amount)
    (hR : OnTicks R) (hs : s.WellFormed w base limit amount aToB)
    (hbooks : Books R (s.ticks base w.tickSpacing) s.currTickIndex s.currLiquidity)
    (h : StepResult w infos base limit input aToB n comp s s') (X : Token) :
    NemoSwap.reserve R X s'.currSqrtPrice = NemoSwap.reserve R X s.currSqrtPrice +
      s.currLiquidity * (potential X s'.currSqrtPrice - potential X s.currSqrtPrice) := by
  obtain ⟨a, b, ha, hb', hac, hcb, hdark, hp, hq⟩ := h.window hb hs
  rw [hbooks.active]
  exact reserve_shift hR ha hb' hac hcb
    (fun t h1 h2 => hbooks.gross_eq_zero (hdark t h1 h2)) hp hq

/-- The active liquidity beyond the tick that a search finds.

**Proof sketch.** By the direction. The liquidity that is active changes by what starts and ends at
the tick, and nothing starts or ends at the ticks before it, which are not initialized. -/
theorem Books.active_crossed {ι : Type} {R : Ranges ι ℤ} {T : ℤ → Tick} {c : ℤ} {l : ℕ}
    (hR : OnTicks R) (hbooks : Books R T c l) (hs : TickMap.SearchResult T aToB c n) :
    (R.active (crossedIndex aToB n) : ℤ) = l + if aToB then -R.net n else R.net n := by
  have hlt : ∀ k ∈ R.keys, R.size k ≠ 0 → R.lower k < R.upper k := fun k hk h0 => (hR k hk h0).2.1
  rw [hbooks.active]
  cases aToB with
  | true =>
    obtain ⟨hle, hdark⟩ := hs.left rfl
    have h1 := R.active_congr hle fun t ht1 ht2 => hbooks.gross_eq_zero (hdark t ht1 ht2)
    have h2 := R.active_eq_add_net hlt (c := n - 1) (n := n) (by omega) fun t ht1 ht2 => by omega
    simp only [crossedIndex, if_true]
    rw [h1]
    omega
  | false =>
    obtain ⟨hlt', hdark⟩ := hs.right rfl
    have h2 := R.active_eq_add_net hlt hlt' fun t ht1 ht2 =>
      hbooks.gross_eq_zero (hdark t ht1 ht2)
    simp only [crossedIndex, Bool.false_eq_true, if_false]
    exact h2

/-- **An iteration keeps the books.** The hypothesis excludes the one value that the negation of
the source cannot represent.

**Proof sketch.** A crossing adds the net liquidity of its tick, which by the search is the only
initialized tick between the two indices. The other iterations stay between initialized ticks, where
the active liquidity is the same. -/
theorem StepResult.books {ι : Type} {R : Ranges ι ℤ} (hb : SwapBounds w limit amount)
    (hR : OnTicks R) (hs : s.WellFormed w base limit amount aToB)
    (hbooks : Books R (s.ticks base w.tickSpacing) s.currTickIndex s.currLiquidity)
    (hneg : aToB = true → s'.currSqrtPrice = tickPrice n → R.net n ≠ -2 ^ 127)
    (h : StepResult w infos base limit input aToB n comp s s') :
    Books R (s'.ticks base w.tickSpacing) s'.currTickIndex s'.currLiquidity := by
  have hact := hbooks.active_crossed hR h.search
  cases h.move with
  | cross hreach hinit hl ht hnd hwp hc =>
    rw [ht]
    refine hbooks.update_tick (u := crossedTick w infos aToB s'.currFeeGrowthGlobalInput _) hinit
      hinit rfl rfl ?_
    have hl' := addLiquidityDelta_eq_ok hl
    have hnet : crossedNet aToB (s.ticks base w.tickSpacing n) =
        if aToB then -R.net n else R.net n := by
      unfold crossedNet negI128
      rw [hbooks.net]
      cases aToB with
      | true => rw [if_pos rfl, if_pos rfl, if_neg (hneg rfl hreach)]
      | false => rfl
    rw [hnet, ← hact, ← hc] at hl'
    exact_mod_cast hl'
  | pass hreach hinit hl ht hc =>
    have hg := hbooks.gross_eq_zero hinit
    have hact' : R.active (crossedIndex aToB n) = s.currLiquidity := by
      rw [R.net_eq_zero hg] at hact
      have : (if aToB = true then -(0 : ℤ) else 0) = 0 := by split_ifs <;> simp
      omega
    have hT : s'.ticks base w.tickSpacing = s.ticks base w.tickSpacing := by
      unfold SwapState.ticks
      rw [ht]
    rw [hT]
    exact ⟨by rw [hl, hc, hact'], hbooks.net, hbooks.gross, hbooks.initialized, hbooks.blank⟩
  | stop hshort hl ht hc =>
    have hT : s'.ticks base w.tickSpacing = s.ticks base w.tickSpacing := by
      unfold SwapState.ticks
      rw [ht]
    have hact' : R.active s'.currTickIndex = R.active s.currTickIndex := by
      have hbt := (h.between hb hs hshort hc).2
      cases aToB with
      | true =>
        obtain ⟨h1, h2⟩ := hbt
        obtain ⟨-, hdark⟩ := h.search.left rfl
        exact (R.active_congr h2 fun t ht1 ht2 =>
          hbooks.gross_eq_zero (hdark t (by omega) ht2)).symm
      | false =>
        obtain ⟨h1, h2⟩ := hbt
        obtain ⟨-, hdark⟩ := h.search.right rfl
        exact R.active_congr h1 fun t ht1 ht2 => hbooks.gross_eq_zero (hdark t ht1 (by omega))
    rw [hT]
    exact ⟨by rw [hl, hact', hbooks.active], hbooks.net, hbooks.gross, hbooks.initialized,
      hbooks.blank⟩

/-- An iteration does not change which ticks are initialized. -/
theorem StepResult.initialized (h : StepResult w infos base limit input aToB n comp s s') (t : ℤ) :
    (s'.ticks base w.tickSpacing t).initialized = (s.ticks base w.tickSpacing t).initialized := by
  cases h.move with
  | cross hreach hinit hl ht hnd hwp hc =>
    rw [ht]
    rcases eq_or_ne t n with rfl | hne
    · rw [Function.update_self, crossedTick_initialized]
    · rw [Function.update_of_ne hne]
  | pass hreach hinit hl ht hc => rw [SwapState.ticks, ht, SwapState.ticks]
  | stop hshort hl ht hc => rw [SwapState.ticks, ht, SwapState.ticks]

/-- An iteration leaves rewards that are not initialized without growth.

**Proof sketch.** The record of the rewards is not changed. A crossing turns the growth of a reward
outside of its tick into the global growth less it, which is zero less zero. -/
theorem StepResult.rewardsBlank (h : StepResult w infos base limit input aToB n comp s s')
    (hr : RewardsBlank infos (s.ticks base w.tickSpacing)) :
    RewardsBlank infos (s'.ticks base w.tickSpacing) := by
  intro i hi
  obtain ⟨h1, h2⟩ := hr i hi
  refine ⟨h1, fun t => ?_⟩
  cases h.move with
  | cross hreach hinit hl ht hnd hwp hc =>
    rw [ht]
    rcases eq_or_ne t n with rfl | hne
    · rw [Function.update_self]
      unfold crossedTick nextTickCrossUpdate
      simp only [hi, Bool.false_eq_true, if_false]
      exact h2 t
    · rw [Function.update_of_ne hne]
      exact h2 t
  | pass hreach hinit hl ht hc =>
    rw [SwapState.ticks, ht]
    exact h2 t
  | stop hshort hl ht hc =>
    rw [SwapState.ticks, ht]
    exact h2 t

/-- An iteration leaves the growth below every initialized tick as it is, once the fee has been
added at the tick index before the iteration.

**Proof sketch.** A tick that is not crossed stays on its side of the current index, because no
initialized tick lies between the old and the new one. The crossed tick has its growth replaced by
its complement, which `below_cross_down` and `below_cross_up` describe. -/
theorem StepResult.below (hb : SwapBounds w limit amount)
    (hs : s.WellFormed w base limit amount aToB)
    (hr : RewardsBlank infos (s.ticks base w.tickSpacing))
    (h : StepResult w infos base limit input aToB n comp s s') (ch : Channel) {t : ℤ}
    (ht : (s.ticks base w.tickSpacing t).initialized = true) :
    Outside.below true ((s'.ticks base w.tickSpacing t).growthOutside ch)
        (swapGlobal w infos aToB s'.currFeeGrowthGlobalInput ch) s'.currTickIndex t =
      Outside.below true ((s.ticks base w.tickSpacing t).growthOutside ch)
        (swapGlobal w infos aToB s'.currFeeGrowthGlobalInput ch) s.currTickIndex t := by
  -- no initialized tick other than the crossed one lies between the old and the new tick index
  have hside : t ≠ n → s'.currTickIndex = crossedIndex aToB n →
      (s'.currTickIndex < t ↔ s.currTickIndex < t) := fun hne hc => by
    rw [hc]
    unfold crossedIndex
    cases aToB with
    | true =>
      obtain ⟨hle, hdark⟩ := h.search.left rfl
      rw [if_pos rfl]
      refine ⟨fun h1 => ?_, fun h1 => by omega⟩
      by_contra hcon
      rw [hdark t (by omega) (not_lt.1 hcon)] at ht
      cases ht
    | false =>
      obtain ⟨hlt, hdark⟩ := h.search.right rfl
      rw [if_neg (by simp)]
      refine ⟨fun h1 => by omega, fun h1 => ?_⟩
      by_contra hcon
      rw [hdark t h1 (by omega)] at ht
      cases ht
  have hsame : s'.swapTickSequence = s.swapTickSequence →
      s'.ticks base w.tickSpacing = s.ticks base w.tickSpacing := fun he => by
    rw [SwapState.ticks, he, SwapState.ticks]
  cases h.move with
  | cross hreach hinit hl htt hnd hwp hc =>
    rw [htt]
    rcases eq_or_ne t n with rfl | hne
    · rw [Function.update_self, crossedTick_growthOutside hr, hc]
      unfold crossedIndex
      cases aToB with
      | true =>
        exact Outside.below_cross_down _ _ (h.search.left rfl).1 (by rw [if_pos rfl]; omega)
      | false =>
        exact Outside.below_cross_up _ _ (h.search.right rfl).1 (by simp)
    · rw [Function.update_of_ne hne]
      exact Outside.below_move true _ _ (hside hne hc)
  | pass hreach hinit hl htt hc =>
    rw [hsame htt]
    refine Outside.below_move true _ _ (hside ?_ hc)
    rintro rfl
    rw [hinit] at ht
    cases ht
  | stop hshort hl htt hc =>
    rw [hsame htt]
    refine Outside.below_move true _ _ ?_
    have hbt := (h.between hb hs hshort hc).2
    cases aToB with
    | true =>
      obtain ⟨h1, h2⟩ := hbt
      obtain ⟨-, hdark⟩ := h.search.left rfl
      refine ⟨fun h3 => ?_, fun h3 => by omega⟩
      by_contra hcon
      rw [hdark t (by omega) (not_lt.1 hcon)] at ht
      cases ht
    | false =>
      obtain ⟨h1, h2⟩ := hbt
      obtain ⟨-, hdark⟩ := h.search.right rfl
      refine ⟨fun h3 => by omega, fun h3 => ?_⟩
      by_contra hcon
      rw [hdark t h3 (by omega)] at ht
      cases ht

/-- **An iteration adds its fee to the ranges that contain the current tick, and nothing else.**

**Proof sketch.** The growth below an initialized end of the range is as it was, seen from the old
tick index with the new global growth. Only the fee of the input token has grown globally, and what
it has grown is added inside the ranges that contain the current tick. -/
theorem StepResult.inside (hb : SwapBounds w limit amount)
    (hs : s.WellFormed w base limit amount aToB)
    (hr : RewardsBlank infos (s.ticks base w.tickSpacing))
    (h : StepResult w infos base limit input aToB n comp s s') (ch : Channel) {lo hi : ℤ}
    (hle : lo ≤ hi) (hlo : (s.ticks base w.tickSpacing lo).initialized = true)
    (hhi : (s.ticks base w.tickSpacing hi).initialized = true) :
    rangeInside (s'.ticks base w.tickSpacing)
        (swapGlobal w infos aToB s'.currFeeGrowthGlobalInput ch) s'.currTickIndex ch lo hi =
      rangeInside (s.ticks base w.tickSpacing)
        (swapGlobal w infos aToB s.currFeeGrowthGlobalInput ch) s.currTickIndex ch lo hi +
        if ch = .fee (tokenIn aToB) ∧ lo ≤ s.currTickIndex ∧ s.currTickIndex < hi then
          s'.currFeeGrowthGlobalInput - s.currFeeGrowthGlobalInput else 0 := by
  unfold rangeInside
  rw [h.initialized, h.initialized, hlo, hhi, h.below hb hs hr ch hlo, h.below hb hs hr ch hhi]
  by_cases hch : ch = .fee (tokenIn aToB)
  · subst hch
    have hg : swapGlobal w infos aToB s'.currFeeGrowthGlobalInput (.fee (tokenIn aToB)) =
        swapGlobal w infos aToB s.currFeeGrowthGlobalInput (.fee (tokenIn aToB)) +
          (s'.currFeeGrowthGlobalInput - s.currFeeGrowthGlobalInput) := by
      simp only [swapGlobal, if_true]
      ring
    rw [hg, Outside.inside_grow hle]
    simp
  · have hg : swapGlobal w infos aToB s'.currFeeGrowthGlobalInput ch =
        swapGlobal w infos aToB s.currFeeGrowthGlobalInput ch := by
      cases ch with
      | fee X =>
        have : X ≠ tokenIn aToB := fun he => hch (by rw [he])
        simp [swapGlobal, this]
      | reward i => rfl
    rw [hg, if_neg fun hcon => hch hcon.1, add_zero]

end NemoSwap
