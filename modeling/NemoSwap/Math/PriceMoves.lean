import NemoSwap.Math.SwapLaws

set_option relaxedAutoImplicit false
set_option autoImplicit false

/-!
# Price moves in parts

With constant liquidity a price move can be made at once or in parts. The parts cost at least as
much and give at most as much, since inputs and fees are rounded up and outputs are rounded down.
A step with a specified input goes as far as its amount pays for, and one with a specified output
stops as soon as it has given the amount.

## Main definitions

* `NemoSwap.withFee` — what an input costs with its fee.
* `NemoSwap.moveCost` — what a price move costs.
* `NemoSwap.moveTaken` — what a price move takes of the specified amount.
* `NemoSwap.ExactStep` — what a step makes of its amount.

## Main results

* `NemoSwap.moveCost_le_add`, `NemoSwap.add_outDelta_le` — a move in parts.
* `NemoSwap.computeSwap_exactStep` — a step moves the price exactly as far as its amount demands.
-/

namespace NemoSwap

/-- What an input costs with its fee. -/
def withFee (amountIn feeRate : ℕ) : ℕ := amountIn + feeOn amountIn feeRate

/-- What the move of the price from `p` to `q` costs. -/
def moveCost (aToB : Bool) (p q liquidity feeRate : ℕ) : ℕ :=
  withFee (inDelta aToB p q liquidity) feeRate

variable {aToB : Bool} {p q m l feeRate : ℕ}

/-! ## Fees -/

/-- Rounding up a sum costs at most as much as rounding up its parts. -/
lemma roundDiv_add_le {d : ℕ} (hd : 0 < d) (x y : ℕ) :
    roundDiv (x + y) d true ≤ roundDiv x d true + roundDiv y d true := by
  rw [roundDiv_true_le_iff hd, add_mul]
  exact Nat.add_le_add (le_roundDiv_true_mul hd) (le_roundDiv_true_mul hd)

/-- With its fee a greater amount is not smaller. -/
lemma withFee_mono {x y : ℕ} (hfee : feeRate < feeRateMulValue) (h : x ≤ y) :
    withFee x feeRate ≤ withFee y feeRate :=
  Nat.add_le_add h (feeOn_mono hfee h)

/-- Fees on parts of an input are at least the fee on the input. -/
lemma withFee_add_le (hfee : feeRate < feeRateMulValue) (x y : ℕ) :
    withFee (x + y) feeRate ≤ withFee x feeRate + withFee y feeRate := by
  have h : feeOn (x + y) feeRate ≤ feeOn x feeRate + feeOn y feeRate := by
    unfold feeOn
    rw [add_mul]
    exact roundDiv_add_le (by omega) _ _
  unfold withFee
  omega

/-- An amount covers an input with its fee exactly if its part after fees covers the input. -/
lemma withFee_le_iff {x r : ℕ} (hfee : feeRate < feeRateMulValue) :
    withFee x feeRate ≤ r ↔ x ≤ amountCalc true r feeRate := by
  constructor
  · intro h
    rw [← amountCalc_add_feeOn x hfee]
    exact Nat.div_le_div_right (Nat.mul_le_mul_right _ h)
  · exact feeOn_le hfee

/-! ## Moves in parts -/

/-- A price that does not move takes nothing in. -/
@[simp] lemma inDelta_self (aToB : Bool) (p l : ℕ) : inDelta aToB p p l = 0 := by
  cases aToB <;> simp [inDelta]

/-- A price that does not move gives nothing out. -/
@[simp] lemma outDelta_self (aToB : Bool) (p l : ℕ) : outDelta aToB p p l = 0 := by
  cases aToB <;> simp [outDelta]

/-- A price that does not move costs nothing. -/
@[simp] lemma moveCost_self (aToB : Bool) (p l feeRate : ℕ) : moveCost aToB p p l feeRate = 0 := by
  simp [moveCost, withFee, feeOn]

/-- The parts of a move take at least as much as the move. -/
lemma inDelta_le_add (hp : 0 < p) (hq : 0 < q) (hm : 0 < m) (h : Toward aToB p q)
    (h' : Toward aToB q m) : inDelta aToB p m l ≤ inDelta aToB p q l + inDelta aToB q m l := by
  have h1 := le_inDelta (l := l) hp hq h
  have h2 := le_inDelta (l := l) hq hm h'
  rw [inDelta_eq_ceil hp hm (h.trans h'), Nat.ceil_le]
  push_cast
  linarith

/-- **The parts of a move give at most as much as the move.** -/
theorem add_outDelta_le (hp : 0 < p) (hq : 0 < q) (h : Toward aToB p q)
    (h' : Toward aToB q m) : outDelta aToB p q l + outDelta aToB q m l ≤ outDelta aToB p m l := by
  have h1 := outDelta_le (l := l) hp h
  have h2 := outDelta_le (l := l) hq h'
  rw [outDelta_eq_floor hp (h.trans h')]
  refine Nat.le_floor ?_
  push_cast
  linarith

/-- **The parts of a move cost at least as much as the move.** -/
theorem moveCost_le_add (hfee : feeRate < feeRateMulValue) (hp : 0 < p) (hq : 0 < q) (hm : 0 < m)
    (h : Toward aToB p q) (h' : Toward aToB q m) : moveCost aToB p m l feeRate ≤
      moveCost aToB p q l feeRate + moveCost aToB q m l feeRate :=
  (withFee_mono hfee (inDelta_le_add hp hq hm h h')).trans (withFee_add_le hfee _ _)

/-- A longer move costs more. -/
lemma moveCost_mono (hfee : feeRate < feeRateMulValue) (hp : 0 < p) (hq : 0 < q) (hm : 0 < m)
    (h : Toward aToB p q) (h' : Toward aToB q m) :
    moveCost aToB p q l feeRate ≤ moveCost aToB p m l feeRate :=
  withFee_mono hfee (inDelta_mono hp hq hm h h')

/-! ## One step -/

/-- The part of the specified amount that a step takes. -/
def SwapStepComputation.taken (self : SwapStepComputation) (input : Bool) : ℕ :=
  if input then self.amountIn + self.feeAmount else self.amountOut

/-- What the move of the price from `p` to `q` takes of the specified amount: what it costs, or
what it gives. -/
def moveTaken (input aToB : Bool) (p q liquidity feeRate : ℕ) : ℕ :=
  if input then moveCost aToB p q liquidity feeRate else outDelta aToB p q liquidity

/-- Nothing is taken where the price does not move. -/
@[simp] lemma moveTaken_self (input aToB : Bool) (p l feeRate : ℕ) :
    moveTaken input aToB p p l feeRate = 0 := by
  cases input <;> simp [moveTaken]

/-- A longer move takes more. -/
lemma moveTaken_mono {input : Bool} (hfee : feeRate < feeRateMulValue) (hp : 0 < p) (hq : 0 < q)
    (hm : 0 < m) (h : Toward aToB p q) (h' : Toward aToB q m) :
    moveTaken input aToB p q l feeRate ≤ moveTaken input aToB p m l feeRate := by
  cases input with
  | true => exact moveCost_mono hfee hp hq hm h h'
  | false => exact outDelta_mono hp hq h h'

/-- A move that costs nothing gives nothing.

**Proof sketch.** The input is at most its cost, so it is zero. An input that is rounded up to zero
needs no liquidity, or no move; either way nothing is given out. -/
lemma outDelta_eq_zero (hp : 0 < p) (hq : 0 < q) (h : Toward aToB p q)
    (hcost : moveCost aToB p q l feeRate = 0) : outDelta aToB p q l = 0 := by
  have hin : inDelta aToB p q l = 0 := by
    unfold moveCost withFee at hcost
    omega
  -- an input that is rounded up to nothing needs no liquidity, or no move
  have hmoved : l = 0 ∨ p = q := by
    unfold inDelta deltaA deltaB at hin
    cases aToB with
    | true =>
      rw [toward_true] at h
      rw [if_pos rfl, min_eq_right h, max_eq_left h] at hin
      have hle := (roundDiv_true_le_iff (Nat.mul_pos hp hq) 0).1 hin.le
      rw [zero_mul, Nat.le_zero, Nat.mul_eq_zero, Nat.mul_eq_zero] at hle
      omega
    | false =>
      rw [toward_false] at h
      rw [if_neg (by simp), min_eq_left h, max_eq_right h] at hin
      have hle := (roundDiv_true_le_iff (by positivity) 0).1 hin.le
      rw [zero_mul, Nat.le_zero, Nat.mul_eq_zero] at hle
      omega
  rcases hmoved with rfl | rfl
  · cases aToB <;> simp [outDelta]
  · exact outDelta_self aToB p l

/-- **Where an amount ends before the target of its step**: a specified input goes as far as it
pays for, and a specified output is given as soon as possible. -/
def MoveHalts (input aToB : Bool) (cur remaining liquidity feeRate next : ℕ) : Prop :=
  match input with
  | true => moveCost aToB cur next liquidity feeRate ≤ remaining ∧
      ∀ q, 0 < q → Toward aToB cur q → moveCost aToB cur q liquidity feeRate ≤ remaining →
        Toward aToB q next
  | false => remaining ≤ outDelta aToB cur next liquidity ∧
      ∀ q, Toward aToB cur q → remaining ≤ outDelta aToB cur q liquidity → Toward aToB next q

/-- What a step makes of its amount. -/
structure ExactStep (remaining feeRate l cur target : ℕ) (input aToB : Bool)
    (r : SwapStepComputation) : Prop where
  other_eq : r.taken (!input) = moveTaken (!input) aToB cur r.nextPrice l feeRate
  /-- Either the amount covers the move to the target, or it is used up. -/
  ends : (r.nextPrice = target ∧ moveTaken input aToB cur target l feeRate ≤ remaining ∧
      r.taken input = moveTaken input aToB cur target l feeRate) ∨
    remaining < moveTaken input aToB cur target l feeRate ∧ r.taken input = remaining ∧
      MoveHalts input aToB cur remaining l feeRate r.nextPrice

/-- **A step moves the price exactly as far as its amount demands**, in both modes.

**Proof sketch.** With a specified input, the amount after fees covers the input of a move exactly
if the amount covers what the move costs. If it covers the move to the target the step goes there,
and the trader pays the cost; otherwise the next price is the furthest one that the amount after
fees pays for, and all of the amount is paid. With a specified output the next price is the nearest
one up to which the move gives the amount. -/
theorem computeSwap_exactStep {remaining cur target : ℕ} {input : Bool} {r : SwapStepComputation}
    (hl : l < 2 ^ 128) (hcur : cur < 2 ^ 128) (htarget : target < 2 ^ 128)
    (hrem : remaining < 2 ^ 64) (hfee : feeRate < feeRateMulValue) (hc : 0 < cur)
    (ht : 0 < target) (htow : Toward aToB cur target)
    (h : computeSwap remaining feeRate l cur target input aToB = .ok r) :
    ExactStep remaining feeRate l cur target input aToB r := by
  have hcon := computeSwap_contract hl hcur htarget hrem hfee hc ht htow h
  obtain ⟨hnext, hin, hout, hfe, -⟩ := computeSwap_eq_ok hl hcur htarget hrem h
  cases input with
  | true =>
    rw [if_pos rfl] at hout
    refine ⟨hout, ?_⟩
    rcases hnext with ⟨hle, hn⟩ | ⟨hlt, hn⟩
    · rw [if_neg fun h => h.2 hn] at hfe
      refine Or.inl ⟨hn, (withFee_le_iff hfee).2 hle, ?_⟩
      change r.amountIn + r.feeAmount = withFee (inDelta aToB cur target l) feeRate
      rw [hfe, hin, hn]
      rfl
    · obtain ⟨-, -, hshort, -⟩ :=
        getNextSqrtPrice_contract hl hcur (amountCalc_le.trans_lt hrem) hc ht htow hlt hn
      obtain ⟨hne, hle⟩ := hshort rfl
      have hl0 : l ≠ 0 := by
        rintro rfl
        simp at hlt
      refine Or.inr ⟨?_, hcon.spent_all rfl hne, (withFee_le_iff hfee).2 hle,
        fun q hq hcq hcost => ?_⟩
      · by_contra hcovers
        exact absurd ((withFee_le_iff hfee).1 (not_lt.1 hcovers)) (not_le.2 hlt)
      · exact toward_getNextSqrtPrice hl hl0 hcur (amountCalc_le.trans_lt hrem) hc hq hcq
          ((withFee_le_iff hfee).1 hcost) hn
  | false =>
    rw [if_neg (by simp)] at hout
    rw [if_neg (by simp)] at hfe
    have hcost : r.amountIn + r.feeAmount = moveCost aToB cur r.nextPrice l feeRate := by
      rw [hfe, hin]
      rfl
    refine ⟨hcost, ?_⟩
    rcases hnext with ⟨hle, hn⟩ | ⟨hlt, hn⟩
    · refine Or.inl ⟨hn, hle, ?_⟩
      rw [hn] at hout
      exact hout.trans (min_eq_left hle)
    · obtain ⟨-, -, -, hmet⟩ := getNextSqrtPrice_contract hl hcur hrem hc ht htow hlt hn
      refine Or.inr ⟨hlt, hout.trans (min_eq_right (hmet rfl)), hmet rfl, fun q hcq hq => ?_⟩
      exact getNextSqrtPrice_toward hl hcur hrem hcq hq hn

end NemoSwap
