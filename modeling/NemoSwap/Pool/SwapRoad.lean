import NemoSwap.Lib.TollRoad
import NemoSwap.Manager.SwapStop
import NemoSwap.Pool.SwapInvariant

set_option relaxedAutoImplicit false
set_option autoImplicit false

/-!
# The road of a trade

The prices in the direction of a trade are a road with gates, the prices at which positions start
or end. Between two gates the liquidity is constant, and a move of the price costs an input, with
the fee on it, and yields an output.

## Main definitions

* `NemoSwap.TradePrice` — the prices, ordered in the direction of a trade.
* `NemoSwap.liquidityAhead` — the liquidity that a trade finds at a price.
* `NemoSwap.tradeGate`, `NemoSwap.tradeMeasure` — the gates, and what a move takes and gives.
* `NemoSwap.tradeRoad` — the road.

## Main results

* `NemoSwap.Books.clear_next`, `NemoSwap.Books.liquidity_ahead` — up to the next initialized tick a
  swap finds a clear stretch, with the active liquidity.
-/

namespace NemoSwap

/-! ## Prices in the direction of a trade -/

/-- The prices, ordered in the direction of a trade. -/
@[ext] structure TradePrice (aToB : Bool) where
  price : ℕ
  pos : 0 < price

namespace TradePrice

variable {aToB : Bool} {u v : TradePrice aToB}

instance (aToB : Bool) : LinearOrder (TradePrice aToB) :=
  match aToB with
  | true => LinearOrder.lift' (fun u => OrderDual.toDual u.price) fun _ _ h => TradePrice.ext h
  | false => LinearOrder.lift' price fun _ _ h => TradePrice.ext h

/-- The order of the points, by their prices. -/
lemma le_iff : u ≤ v ↔ Toward aToB u.price v.price := by
  cases aToB <;> exact Iff.rfl

/-- The strict order of the points, by their prices. -/
lemma lt_iff : u < v ↔ Toward aToB u.price v.price ∧ u.price ≠ v.price := by
  rw [lt_iff_le_and_ne, le_iff, Ne, Ne, TradePrice.ext_iff]

end TradePrice

/-! ## The liquidity at a price -/

variable {ι : Type} {R : Ranges ι ℤ}

/-- Ranges of ticks as ranges of prices. -/
def atPrices (R : Ranges ι ℤ) : Ranges ι ℕ where
  keys := R.keys
  lower k := tickPrice (R.lower k)
  upper k := tickPrice (R.upper k)
  size := R.size

/-- The liquidity that a trade finds when it moves on from a price. -/
def liquidityAhead (R : Ranges ι ℤ) (aToB : Bool) (p : ℕ) : ℕ :=
  (atPrices R).active (if aToB then p - 1 else p)

/-- The ends of nonempty ranges lie in the tick range. -/
theorem OnTicks.bounds (hR : OnTicks R) {t : ℤ} (h : 0 < R.gross t) :
    minTickIndex ≤ t ∧ t ≤ maxTickIndex := by
  by_contra hcon
  refine h.ne' (R.gross_eq_zero_iff.2 fun k hk h0 => ?_)
  obtain ⟨h1, h2, h3⟩ := hR k hk h0
  constructor <;> rintro rfl <;> exact hcon ⟨by omega, by omega⟩

/-- The end points of the price ranges are the prices of the end points. -/
theorem gross_atPrices_pos {p : ℕ} :
    0 < (atPrices R).gross p ↔ ∃ t, 0 < R.gross t ∧ tickPrice t = p := by
  constructor
  · intro h
    by_contra hcon
    push Not at hcon
    refine h.ne' ((atPrices R).gross_eq_zero_iff.2 fun k hk h0 => ?_)
    exact ⟨hcon _ ((Nat.pos_of_ne_zero h0).trans_le (R.size_le_gross_lower hk)),
      hcon _ ((Nat.pos_of_ne_zero h0).trans_le (R.size_le_gross_upper hk))⟩
  · rintro ⟨t, ht, rfl⟩
    by_contra hcon
    refine ht.ne' (R.gross_eq_zero_iff.2 fun k hk h0 => ?_)
    obtain ⟨h1, h2⟩ := (atPrices R).gross_eq_zero_iff.1 (Nat.eq_zero_of_not_pos hcon) k hk h0
    exact ⟨fun he => h1 (congrArg tickPrice he), fun he => h2 (congrArg tickPrice he)⟩

/-- The liquidity at a tick is the liquidity at a price that separates the ticks in the same way. -/
lemma active_atPrices {c : ℤ} {q : ℕ} (h : ∀ t, 0 < R.gross t → (t ≤ c ↔ tickPrice t ≤ q)) :
    (atPrices R).active q = R.active c := by
  refine (atPrices R).total_congr fun k hk h0 => if_congr ?_ rfl rfl
  have h1 := h _ ((Nat.pos_of_ne_zero h0).trans_le (R.size_le_gross_lower hk))
  have h2 := h _ ((Nat.pos_of_ne_zero h0).trans_le (R.size_le_gross_upper hk))
  unfold Ranges.Contains
  rw [← not_le, ← not_le, h1, h2]
  rfl

/-- **The gates of a trade**: the prices at which positions start or end. -/
def tradeGate (R : Ranges ι ℤ) (aToB : Bool) (u : TradePrice aToB) : Prop :=
  0 < (atPrices R).gross u.price

/-- **Between gates the liquidity does not change.**

**Proof sketch.** By the direction. What is active changes only at prices where a position starts or
ends, and there are none between the two prices. -/
theorem liquidityAhead_congr {aToB : Bool} {u m v : TradePrice aToB}
    (h : Journey.Clear (tradeGate R aToB) u v) (hum : u ≤ m) (hmv : m < v) :
    liquidityAhead R aToB m.price = liquidityAhead R aToB u.price := by
  have hdark : ∀ k : TradePrice aToB, u < k → k < v → (atPrices R).gross k.price = 0 :=
    fun k h1 h2 => Nat.eq_zero_of_not_pos (h.2 k h1 h2)
  have hupos := u.pos
  have hmpos := m.pos
  unfold liquidityAhead
  cases aToB with
  | true =>
    have hum' : m.price ≤ u.price := hum
    have hmv' : v.price < m.price := hmv
    simp only [if_true]
    refine ((atPrices R).active_congr (by omega) fun t h1 h2 => ?_).symm
    exact hdark ⟨t, by omega⟩ (show t < u.price by omega) (show v.price < t by omega)
  | false =>
    have hum' : u.price ≤ m.price := hum
    have hmv' : m.price < v.price := hmv
    simp only [Bool.false_eq_true, if_false]
    refine (atPrices R).active_congr hum' fun t h1 h2 => ?_
    exact hdark ⟨t, by omega⟩ (show u.price < t by omega) (show t < v.price by omega)

/-! ## The road -/

/-- **What a move takes of an input, or of an output**: what it costs with the fee, or what it
yields, with the liquidity that the trade finds where it starts. -/
def tradeMeasure (R : Ranges ι ℤ) (aToB : Bool) (feeRate : ℕ) (input : Bool)
    (u v : TradePrice aToB) : ℕ :=
  moveTaken input aToB u.price v.price (liquidityAhead R aToB u.price) feeRate

/-- What moves take is a measure of the stretches between gates. -/
lemma measure_trade (R : Ranges ι ℤ) (aToB input : Bool) {feeRate : ℕ}
    (hfee : feeRate < feeRateMulValue) :
    Journey.Measure (tradeGate R aToB) (tradeMeasure R aToB feeRate input) := by
  refine ⟨fun u => moveTaken_self _ _ _ _ _, fun {u m v} _ hum hmv => ?_⟩
  exact moveTaken_mono hfee u.pos m.pos v.pos (TradePrice.le_iff.1 hum) (TradePrice.le_iff.1 hmv)

/-- A stretch that costs nothing yields nothing. -/
lemma tradeMeasure_free {aToB : Bool} {feeRate : ℕ} {u v : TradePrice aToB}
    (h : Journey.Clear (tradeGate R aToB) u v) (hcost : tradeMeasure R aToB feeRate true u v = 0) :
    tradeMeasure R aToB feeRate false u v = 0 :=
  outDelta_eq_zero u.pos v.pos (TradePrice.le_iff.1 h.1) hcost

/-- **The road of a trade**: the toll of a move is its input and the fee on it. -/
def tradeRoad (R : Ranges ι ℤ) (aToB : Bool) {feeRate : ℕ} (hfee : feeRate < feeRateMulValue) :
    TollRoad (TradePrice aToB) where
  gate := tradeGate R aToB
  toll := tradeMeasure R aToB feeRate true
  gain := tradeMeasure R aToB feeRate false
  toll_self := (measure_trade R aToB true hfee).self
  gain_self := (measure_trade R aToB false hfee).self
  toll_mono := (measure_trade R aToB true hfee).mono
  toll_le_add := fun {u m v} h hum hmv => by
    rcases eq_or_lt_of_le hmv with rfl | hlt
    · exact Nat.le_add_right _ _
    · unfold tradeMeasure
      rw [liquidityAhead_congr h hum hlt]
      exact moveCost_le_add hfee u.pos m.pos v.pos (TradePrice.le_iff.1 hum)
        (TradePrice.le_iff.1 hmv)
  add_gain_le := fun {u m v} h hum hmv => by
    rcases eq_or_lt_of_le hmv with rfl | hlt
    · rw [(measure_trade R aToB false hfee).self, add_zero]
    · unfold tradeMeasure
      rw [liquidityAhead_congr h hum hlt]
      exact add_outDelta_le u.pos m.pos (TradePrice.le_iff.1 hum) (TradePrice.le_iff.1 hmv)

/-! ## The road ahead -/

section Ahead

variable {aToB : Bool} {n c : ℤ} {p l : ℕ} {T : ℤ → Tick} {u v : TradePrice aToB}

/-- The next tick lies ahead of the price. -/
lemma PriceAt.toward_next (hp : PriceAt c p) (hs : TickMap.SearchResult T aToB c n) :
    Toward aToB p (tickPrice n) := by
  obtain ⟨h1, -, h2⟩ := stepTarget_toward hp hs (toward_refl aToB p)
  exact h1.trans h2

/-- There is no gate before the price of the next tick.

**Proof sketch.** A gate is the price of an initialized tick, and the search has found no
initialized tick between the current index and the next one. -/
theorem Books.clear_next (hR : OnTicks R) (hbooks : Books R T c l) (hp : PriceAt c p)
    (hs : TickMap.SearchResult T aToB c n) (hu : u.price = p) (hv : v.price = tickPrice n) :
    Journey.Clear (tradeGate R aToB) u v := by
  refine ⟨TradePrice.le_iff.2 (hu ▸ hv ▸ hp.toward_next hs), fun m h1 h2 hm => ?_⟩
  obtain ⟨t, ht, hprice⟩ := gross_atPrices_pos.1 hm
  have hinit := (hbooks.initialized t).2 ht
  obtain ⟨ht1, ht2⟩ := hR.bounds ht
  have hn1 := hs.lower
  have hn2 := hs.upper
  have hc1 := hp.tick_min
  have hc2 := hp.tick_max
  unfold minTickIndex maxTickIndex at *
  cases aToB with
  | true =>
    have h1' : m.price < u.price := h1
    have h2' : v.price < m.price := h2
    rw [← hprice, hu] at h1'
    rw [← hprice, hv] at h2'
    have hlt1 := le_of_tickPrice_lt (by omega) (by omega) (h1'.trans_le hp.upper)
    have hlt2 := le_of_tickPrice_lt (by omega) (by omega) h2'
    rw [(hs.left rfl).2 t hlt2 (by omega)] at hinit
    cases hinit
  | false =>
    have h1' : u.price < m.price := h1
    have h2' : m.price < v.price := h2
    rw [← hprice, hu] at h1'
    rw [← hprice, hv] at h2'
    have hlt1 := le_of_tickPrice_lt (by omega) (by omega) (hp.lower.trans_lt h1')
    have hlt2 := le_of_tickPrice_lt (by omega) (by omega) h2'
    rw [(hs.right rfl).2 t hlt1 hlt2] at hinit
    cases hinit

/-- Short of the next tick, the active liquidity is what a trade finds at the price.

**Proof sketch.** Between the price and that of the next tick lies no bound of a range, so the
ranges that contain the tick index are those that a trade passes through at the price. -/
theorem Books.liquidity_ahead (hR : OnTicks R) (hbooks : Books R T c l) (hp : PriceAt c p)
    (hs : TickMap.SearchResult T aToB c n) (hne : p ≠ tickPrice n) :
    liquidityAhead R aToB p = l := by
  have htow := hp.toward_next hs
  have hn1 := hs.lower
  have hn2 := hs.upper
  have hc1 := hp.tick_min
  have hc2 := hp.tick_max
  have hlo := hp.lower
  have hup := hp.upper
  rw [hbooks.active]
  refine active_atPrices fun t ht => ?_
  have hinit := (hbooks.initialized t).2 ht
  obtain ⟨ht1, ht2⟩ := hR.bounds ht
  unfold minTickIndex maxTickIndex at *
  cases aToB with
  | true =>
    rw [toward_true] at htow
    obtain ⟨hle, hdark⟩ := hs.left rfl
    rw [if_pos rfl]
    constructor
    · intro htc
      -- the tick is not between the next tick and the current one
      have htn : t ≤ n := by
        by_contra hcon
        rw [hdark t (not_le.1 hcon) htc] at hinit
        cases hinit
      have := tickPrice_le (by omega) htn (by omega)
      omega
    · intro htp
      have hpos := hp.pos
      have := le_of_tickPrice_lt (a := t) (b := c + 1) (by omega) (by omega) (by omega)
      omega
  | false =>
    rw [toward_false] at htow
    obtain ⟨hlt, hdark⟩ := hs.right rfl
    rw [if_neg (by simp)]
    constructor
    · intro htc
      exact (tickPrice_le (by omega) htc (by omega)).trans hlo
    · intro htp
      have htn := le_of_tickPrice_lt (a := t) (b := n) (by omega) (by omega) (by omega)
      by_contra hcon
      rw [hdark t (not_le.1 hcon) htn] at hinit
      cases hinit

end Ahead

end NemoSwap
