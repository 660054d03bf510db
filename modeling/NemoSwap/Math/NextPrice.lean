import NemoSwap.Math.SwapLaws

set_option relaxedAutoImplicit false
set_option autoImplicit false

/-!
# Price moves round in the pool's favour

With constant liquidity a specified amount has an exact real price: the one where the move takes
or frees the amount exactly. `get_next_sqrt_price` rounds this price up if the specified token is
A, and down if it is B, which in each of the four cases is the side that favours the pool.

## Main definitions

* `NemoSwap.specifiedToken` — the token of the specified amount.
* `NemoSwap.specifiedMove` — the exact amount of it that a price move takes or frees.
* `NemoSwap.Affords` — the moves that the specified amount allows.
* `NemoSwap.exactPrice` — the exact price.

## Main results

* `NemoSwap.specifiedMove_exactPrice` — the exact price solves the equation of the move.
* `NemoSwap.affords_iff` — the affordable prices are those on one side of the exact price.
* `NemoSwap.getNextSqrtPrice_eq_rounded` — the source rounds the exact price to that side.
* `NemoSwap.getNextSqrtPrice_favours_pool` — the guarantees of `get_next_sqrt_price`.
-/

namespace NemoSwap

/-! ## Exact price moves -/

/-- The token whose amount is specified: the input in exact-in mode, else the output. -/
def specifiedToken (input aToB : Bool) : Token := if input then tokenIn aToB else tokenOut aToB

/-- The potential of a real price. -/
def potentialAt : Token → ℚ → ℚ
  | .A, x => 2 ^ 64 / x
  | .B, x => x / 2 ^ 64

/-- The exact amount of the specified token that moving the price from `p` to `x` takes in
exact-in mode, and frees in exact-out mode. -/
def specifiedMove (input aToB : Bool) (l : ℕ) (p x : ℚ) : ℚ :=
  if input then l * (potentialAt (specifiedToken input aToB) x -
    potentialAt (specifiedToken input aToB) p)
  else l * (potentialAt (specifiedToken input aToB) p - potentialAt (specifiedToken input aToB) x)

/-- A specified amount affords the move from `p` to `x`: an input pays for it, an output is
covered by it. -/
def Affords (input aToB : Bool) (l a : ℕ) (p x : ℚ) : Prop :=
  if input then specifiedMove input aToB l p x ≤ a else a ≤ specifiedMove input aToB l p x

/-- The price at which the move takes or frees `a` exactly. -/
def exactPrice (input aToB : Bool) (l a p : ℕ) : ℚ :=
  match specifiedToken input aToB, input with
  | .A, true => l * p * 2 ^ 64 / (l * 2 ^ 64 + p * a)
  | .A, false => l * p * 2 ^ 64 / (l * 2 ^ 64 - p * a)
  | .B, true => p + a * 2 ^ 64 / l
  | .B, false => p - a * 2 ^ 64 / l

/-- The order of the prices in which the affordable ones come last. -/
def PastPrice (input aToB : Bool) (x y : ℚ) : Prop :=
  match specifiedToken input aToB with
  | .A => x ≤ y
  | .B => y ≤ x

variable {input aToB : Bool} {l a p m q : ℕ} {x y : ℚ}

/-- At a price of the code the potential is the one of that price. -/
lemma potentialAt_natCast (X : Token) (q : ℕ) : potentialAt X q = potential X q := by
  cases X <;> rfl

/-- The potential of token A reverses the order of positive prices. -/
lemma potentialAt_A_le_iff (hx : 0 < x) (hy : 0 < y) :
    potentialAt .A y ≤ potentialAt .A x ↔ x ≤ y :=
  div_le_div_iff_of_pos_left (by positivity) hy hx

/-- The potential of token B keeps the order of prices. -/
lemma potentialAt_B_le_iff : potentialAt .B x ≤ potentialAt .B y ↔ x ≤ y :=
  div_le_div_iff_of_pos_right (by positivity)

/-- **The exact price solves the equation of the move.**

**Proof sketch.** By the four combinations of mode and direction, with the equation cleared of its
denominators. In the one where the divisor may vanish, the hypothesis rules it out. -/
theorem specifiedMove_exactPrice (hl : 0 < l) (hp : 0 < p)
    (h : specifiedToken input aToB = .A → 0 < exactPrice input aToB l a p) :
    specifiedMove input aToB l p (exactPrice input aToB l a p) = a := by
  have hl' : (0 : ℚ) < l := by exact_mod_cast hl
  have hp' : (0 : ℚ) < p := by exact_mod_cast hp
  cases input with
  | true =>
    cases aToB with
    | true =>
      have hd : (0 : ℚ) < l * 2 ^ 64 + p * a := by positivity
      simp only [specifiedMove, exactPrice, specifiedToken, tokenIn, potentialAt, if_true]
      field_simp
      ring
    | false =>
      simp only [specifiedMove, exactPrice, specifiedToken, tokenIn, potentialAt, if_true,
        Bool.false_eq_true, if_false]
      field_simp
      ring
  | false =>
    cases aToB with
    | true =>
      simp only [specifiedMove, exactPrice, specifiedToken, tokenOut, potentialAt, if_true,
        Bool.false_eq_true, if_false]
      field_simp
      ring
    | false =>
      -- a zero divisor would make the exact price zero
      have hd : (l * 2 ^ 64 - p * a : ℚ) ≠ 0 := by
        intro h0
        have := h rfl
        simp [exactPrice, specifiedToken, tokenOut, h0] at this
      simp only [specifiedMove, exactPrice, specifiedToken, tokenOut, potentialAt,
        Bool.false_eq_true, if_false]
      field_simp
      ring

/-- **The affordable prices are those on one side of the exact price.** -/
theorem affords_iff (hl : 0 < l) (hx : specifiedToken input aToB = .A → 0 < x)
    (hy : specifiedToken input aToB = .A → 0 < y)
    (hmove : specifiedMove input aToB l p x = a) :
    Affords input aToB l a p y ↔ PastPrice input aToB x y := by
  have hl' : (0 : ℚ) < l := by exact_mod_cast hl
  unfold Affords PastPrice
  rw [← hmove]
  cases input <;> cases aToB <;>
    simp only [specifiedMove, specifiedToken, tokenIn, tokenOut, if_true, Bool.false_eq_true,
      if_false, mul_le_mul_iff_right₀ hl', sub_le_sub_iff_right, sub_le_sub_iff_left]
  · exact potentialAt_A_le_iff (hx rfl) (hy rfl)
  · exact potentialAt_B_le_iff
  · exact potentialAt_B_le_iff
  · exact potentialAt_A_le_iff (hx rfl) (hy rfl)

/-- The program's delta of the specified token is the exact amount, rounded. -/
lemma fixedDelta_eq_rounded (hp : 0 < p) (hq : input = true → 0 < q) (h : Toward aToB p q) :
    fixedDelta input aToB p q l = rounded input (specifiedMove input aToB l p q) := by
  unfold fixedDelta rounded specifiedMove specifiedToken
  simp only [potentialAt_natCast]
  cases input with
  | true =>
    simp only [if_true]
    exact inDelta_eq_ceil hp (hq rfl) h
  | false =>
    simp only [Bool.false_eq_true, if_false]
    exact outDelta_eq_floor hp h

/-! ## The price of the source -/

/-- `get_next_sqrt_price_from_a_round_up` rounds the exact price up.

**Proof sketch.** An amount of zero leaves the price alone. Otherwise the code divides `l * p * 2 ^
64` by `l * 2 ^ 64 ± p * a` and rounds up, which is the ceiling of the exact price. -/
lemma getNextSqrtPriceFromA_eq_ceil (hl : 0 < l) (hl' : l < 2 ^ 128) (hp : 0 < p)
    (hp' : p < 2 ^ 128) (ha : a < 2 ^ 64)
    (h : getNextSqrtPriceFromARoundUp p l a input = .ok m) :
    0 < exactPrice input input l a p ∧ m = ⌈exactPrice input input l a p⌉₊ := by
  have hlq : (0 : ℚ) < l := by exact_mod_cast hl
  have hpq : (0 : ℚ) < p := by exact_mod_cast hp
  rcases getNextSqrtPriceFromA_eq_ok hp' hl' ha h with ⟨rfl, rfl⟩ | ⟨-, -, -, hin, hout⟩
  · -- an amount of zero leaves the price alone
    have hself : exactPrice input input l 0 m = m := by
      cases input <;>
        · simp only [exactPrice, specifiedToken, tokenIn, tokenOut, if_true, Bool.false_eq_true,
            if_false, Nat.cast_zero, mul_zero, add_zero, sub_zero]
          field_simp
    rw [hself, Nat.ceil_natCast]
    exact ⟨hpq, rfl⟩
  · cases input with
    | true =>
      obtain ⟨hd, rfl⟩ := hin rfl
      rw [roundDiv_eq_ceil (Nat.pos_of_ne_zero hd)]
      simp only [exactPrice, specifiedToken, tokenIn, if_true]
      push_cast
      exact ⟨by positivity, rfl⟩
    | false =>
      obtain ⟨hd, rfl⟩ := hout rfl
      have hdq : (0 : ℚ) < l * 2 ^ 64 - p * a := by
        rw [sub_pos]
        exact_mod_cast hd
      have hcast : ((l * 2 ^ 64 - p * a : ℕ) : ℚ) = l * 2 ^ 64 - p * a := by
        rw [Nat.cast_sub hd.le]
        push_cast
        rfl
      rw [roundDiv_eq_ceil (Nat.sub_pos_of_lt hd), hcast]
      simp only [exactPrice, specifiedToken, tokenOut, Bool.false_eq_true, if_false]
      push_cast
      exact ⟨by positivity, rfl⟩

/-- A difference from a natural number is floored by taking the ceiling off. -/
lemma floor_natCast_sub (hy : 0 ≤ y) (h : y ≤ p) : ⌊(p : ℚ) - y⌋₊ = p - ⌈y⌉₊ := by
  have hle : ⌈y⌉₊ ≤ p := Nat.ceil_le.2 h
  rw [Nat.floor_eq_iff (sub_nonneg.2 h), Nat.cast_sub hle]
  have h1 := Nat.le_ceil y
  have h2 := Nat.ceil_lt_add_one hy
  exact ⟨by linarith, by linarith⟩

/-- `get_next_sqrt_price_from_b_round_down` rounds the exact price down.

**Proof sketch.** By the mode. What is added to the price is the floor of the exact change, and what
is subtracted is its ceiling, so the result is the floor of the exact price in both. -/
lemma getNextSqrtPriceFromB_eq_floor
    (h : getNextSqrtPriceFromBRoundDown p l a input = .ok m) :
    0 ≤ exactPrice input (!input) l a p ∧ m = ⌊exactPrice input (!input) l a p⌋₊ := by
  obtain ⟨hl, hin, hout⟩ := getNextSqrtPriceFromB_eq_ok.1 h
  cases input with
  | true =>
    obtain ⟨-, rfl⟩ := hin rfl
    simp only [exactPrice, specifiedToken, tokenIn, if_true, Bool.not_true, Bool.false_eq_true,
      if_false]
    refine ⟨by positivity, ?_⟩
    have hdiv : a * 2 ^ 64 / l = ⌊(a * 2 ^ 64 / l : ℚ)⌋₊ := by
      rw [← roundDiv_false, roundDiv_eq_floor]
      push_cast
      rfl
    rw [add_comm (p : ℚ), Nat.floor_add_natCast (by positivity), ← hdiv, add_comm]
  | false =>
    obtain ⟨hle, rfl⟩ := hout rfl
    rw [roundDiv_eq_ceil (Nat.pos_of_ne_zero hl)] at hle ⊢
    push_cast at hle ⊢
    have hle' : (a * 2 ^ 64 / l : ℚ) ≤ p := (Nat.le_ceil _).trans (by exact_mod_cast hle)
    have htok : specifiedToken false true = .B := rfl
    simp only [exactPrice, htok, Bool.not_false]
    exact ⟨sub_nonneg.2 hle', (floor_natCast_sub (by positivity) hle').symm⟩

/-- **`get_next_sqrt_price` rounds the exact price**: up if the specified token is A, down if it
is B. -/
theorem getNextSqrtPrice_eq_rounded (hl : 0 < l) (hl' : l < 2 ^ 128) (hp : 0 < p)
    (hp' : p < 2 ^ 128) (ha : a < 2 ^ 64) (h : getNextSqrtPrice p l a input aToB = .ok m) :
    (specifiedToken input aToB = .A → 0 < exactPrice input aToB l a p) ∧
      0 ≤ exactPrice input aToB l a p ∧
      m = rounded (decide (specifiedToken input aToB = .A)) (exactPrice input aToB l a p) := by
  unfold getNextSqrtPrice at h
  split_ifs at h with hcase
  · subst hcase
    obtain ⟨hpos, hm⟩ := getNextSqrtPriceFromA_eq_ceil hl hl' hp hp' ha h
    have htok : specifiedToken input input = .A := by cases input <;> rfl
    rw [htok]
    exact ⟨fun _ => hpos, hpos.le, hm⟩
  · obtain rfl : aToB = !input := by cases input <;> cases aToB <;> simp_all
    obtain ⟨hnonneg, hm⟩ := getNextSqrtPriceFromB_eq_floor h
    have htok : specifiedToken input (!input) = .B := by cases input <;> rfl
    rw [htok]
    exact ⟨fun hB => absurd hB (by simp), hnonneg, hm⟩

/-- A natural number past a real price is past the rounded price, at least as far away.

**Proof sketch.** By the specified token. For token A prices are rounded up and what is past lies
above, for token B they are rounded down and it lies below; the rounded price is the nearest natural
number on its side. -/
lemma pastPrice_rounded (hx : 0 ≤ x) (hm : m = rounded (decide (specifiedToken input aToB = .A)) x)
    (h : PastPrice input aToB x q) : PastPrice input aToB m q ∧ |(m : ℚ) - x| ≤ |(q : ℚ) - x| := by
  subst hm
  unfold PastPrice at h ⊢
  cases htok : specifiedToken input aToB with
  | A =>
    simp only [htok, rounded, decide_true, if_true] at h ⊢
    have hq : ((⌈x⌉₊ : ℕ) : ℚ) ≤ q := by exact_mod_cast Nat.ceil_le.2 h
    rw [abs_of_nonneg (sub_nonneg.2 (Nat.le_ceil x)), abs_of_nonneg (sub_nonneg.2 h)]
    exact ⟨hq, by linarith⟩
  | B =>
    simp only [htok, rounded, reduceCtorEq, decide_false, Bool.false_eq_true, if_false] at h ⊢
    have hq : (q : ℚ) ≤ (⌊x⌋₊ : ℕ) := by exact_mod_cast Nat.le_floor h
    rw [abs_sub_comm, abs_of_nonneg (sub_nonneg.2 (Nat.floor_le hx)), abs_sub_comm,
      abs_of_nonneg (sub_nonneg.2 h)]
    exact ⟨hq, by linarith⟩

/-- Rounding moves a price by less than one unit, to the side of the affordable prices. -/
lemma rounded_pastPrice (hx : 0 ≤ x)
    (hm : m = rounded (decide (specifiedToken input aToB = .A)) x) :
    PastPrice input aToB x m ∧ |(m : ℚ) - x| < 1 := by
  subst hm
  unfold PastPrice
  cases htok : specifiedToken input aToB with
  | A =>
    simp only [rounded, decide_true, if_true]
    rw [abs_of_nonneg (sub_nonneg.2 (Nat.le_ceil x))]
    exact ⟨Nat.le_ceil x, by linarith [Nat.ceil_lt_add_one hx]⟩
  | B =>
    simp only [rounded, reduceCtorEq, decide_false, Bool.false_eq_true, if_false]
    rw [abs_sub_comm, abs_of_nonneg (sub_nonneg.2 (Nat.floor_le hx))]
    exact ⟨Nat.floor_le hx, by linarith [Nat.lt_floor_add_one x]⟩

/-- Among prices on the trade side, the ones past another are nearer in exact-in mode, and
further away in exact-out mode. -/
lemma pastPrice_iff_toward :
    PastPrice input aToB m q ↔ if input then Toward aToB q m else Toward aToB m q := by
  cases input <;> cases aToB <;>
    simp [PastPrice, specifiedToken, tokenIn, tokenOut, Toward]

/-- What a price `m` guarantees as the end of the move from `p` with a specified amount `a`. -/
structure FavoursPool (input aToB : Bool) (l a p m : ℕ) : Prop where
  /-- The price is on the trade side. -/
  toward : Toward aToB p m
  /-- The move takes at most the specified input, or frees at least the specified output. -/
  affords : Affords input aToB l a p m
  /-- So does the delta that the program computes, with its rounding. -/
  delta : ∀ n, getAmountFixedDelta p m l input aToB = .ok n → if input then n ≤ a else a ≤ n
  /-- Among such prices the exact-in price is the furthest, the exact-out price the nearest. -/
  extreme : ∀ q : ℕ, 0 < q → Affords input aToB l a p q →
    if input then Toward aToB q m else Toward aToB m q
  /-- It is less than one unit from the exact solution, and no such price is closer to it. -/
  closest : ∃ x : ℚ, 0 ≤ x ∧ (specifiedToken input aToB = .A → 0 < x) ∧
    specifiedMove input aToB l p x = a ∧ |(m : ℚ) - x| < 1 ∧
    ∀ q : ℕ, 0 < q → Affords input aToB l a p q → |(m : ℚ) - x| ≤ |(q : ℚ) - x|

/-- The order of the prices is transitive. -/
theorem PastPrice.trans {z : ℚ} (h : PastPrice input aToB x y) (h' : PastPrice input aToB y z) :
    PastPrice input aToB x z := by
  unfold PastPrice at *
  cases htok : specifiedToken input aToB <;> rw [htok] at h h'
  · exact le_trans h h'
  · exact le_trans h' h

/-- The price that `get_next_sqrt_price` returns is on the trade side.

**Proof sketch.** The exact price is on the trade side, by comparison with the price itself, which
costs nothing. For an input it is rounded towards the price and does not pass it, and for an output
away from it. -/
lemma getNextSqrtPrice_tradeSide (hl : 0 < l) (hl' : l < 2 ^ 128) (hp : 0 < p)
    (hp' : p < 2 ^ 128) (ha : a < 2 ^ 64) (h : getNextSqrtPrice p l a input aToB = .ok m) :
    Toward aToB p m := by
  obtain ⟨hA, hx, hm⟩ := getNextSqrtPrice_eq_rounded hl hl' hp hp' ha h
  have hmove := specifiedMove_exactPrice hl hp hA
  have hpq : (0 : ℚ) < p := by exact_mod_cast hp
  have hself : specifiedMove input aToB l p p = (0 : ℕ) := by
    unfold specifiedMove
    split_ifs <;> rw [sub_self, mul_zero, Nat.cast_zero]
  cases input with
  | true =>
    -- staying at the price costs nothing
    have hstay : Affords true aToB l a p p := by
      rw [Affords, if_pos rfl, hself]
      positivity
    have hpast := (affords_iff hl hA (fun _ => hpq) hmove).1 hstay
    simpa using pastPrice_iff_toward.1 (pastPrice_rounded hx hm hpast).1
  | false =>
    -- the exact price frees at least nothing
    have hgive : Affords false aToB l 0 p (exactPrice false aToB l a p) := by
      rw [Affords, if_neg Bool.false_ne_true, hmove]
      positivity
    have hpast := (affords_iff hl (fun _ => hpq) hA hself).1 hgive
    simpa using pastPrice_iff_toward.1 (hpast.trans (rounded_pastPrice hx hm).1)

/-- The price that `get_next_sqrt_price` returns is positive in exact-in mode, and where the
specified token is A. -/
lemma getNextSqrtPrice_pos (hl : 0 < l) (hl' : l < 2 ^ 128) (hp : 0 < p)
    (hp' : p < 2 ^ 128) (ha : a < 2 ^ 64) (h : getNextSqrtPrice p l a input aToB = .ok m)
    (hcase : input = true ∨ specifiedToken input aToB = .A) : 0 < m := by
  obtain ⟨hA, -, hm⟩ := getNextSqrtPrice_eq_rounded hl hl' hp hp' ha h
  have htow := getNextSqrtPrice_tradeSide hl hl' hp hp' ha h
  have hmA : specifiedToken input aToB = .A → 0 < m := by
    intro htok
    rw [hm, htok, rounded, if_pos (by simp)]
    exact Nat.ceil_pos.2 (hA htok)
  rcases hcase with rfl | htok
  · cases aToB with
    | true => exact hmA rfl
    | false => exact lt_of_lt_of_le hp htow
  · exact hmA htok

/-- The move to the price that `get_next_sqrt_price` returns is affordable. -/
lemma getNextSqrtPrice_affords (hl : 0 < l) (hl' : l < 2 ^ 128) (hp : 0 < p)
    (hp' : p < 2 ^ 128) (ha : a < 2 ^ 64) (h : getNextSqrtPrice p l a input aToB = .ok m) :
    Affords input aToB l a p m := by
  obtain ⟨hA, hx, hm⟩ := getNextSqrtPrice_eq_rounded hl hl' hp hp' ha h
  refine (affords_iff hl hA (fun htok => ?_) (specifiedMove_exactPrice hl hp hA)).2
    (rounded_pastPrice hx hm).1
  exact_mod_cast getNextSqrtPrice_pos hl hl' hp hp' ha h (Or.inr htok)

/-- So is its rounded amount. -/
theorem getNextSqrtPrice_fixedDelta (hl : 0 < l) (hl' : l < 2 ^ 128) (hp : 0 < p)
    (hp' : p < 2 ^ 128) (ha : a < 2 ^ 64) (h : getNextSqrtPrice p l a input aToB = .ok m) :
    if input then fixedDelta input aToB p m l ≤ a else a ≤ fixedDelta input aToB p m l := by
  rw [fixedDelta_eq_rounded hp
    (fun hin => getNextSqrtPrice_pos hl hl' hp hp' ha h (Or.inl hin))
    (getNextSqrtPrice_tradeSide hl hl' hp hp' ha h)]
  have haff := getNextSqrtPrice_affords hl hl' hp hp' ha h
  unfold Affords at haff
  cases input with
  | true => simpa [rounded] using haff
  | false => simpa [rounded] using Nat.le_floor haff

/-- **Price moves round in the pool's favour.**

**Proof sketch.** The side is `getNextSqrtPrice_tradeSide`. The returned price is the exact one,
rounded to the side that favours the pool, so every other price on this side is at least as far from
the exact one. -/
theorem getNextSqrtPrice_favours_pool (hp : minSqrtPriceX64 ≤ p ∧ p ≤ maxSqrtPriceX64)
    (hl : 1 ≤ l ∧ l < 2 ^ 128) (ha : a < 2 ^ 64)
    (h : getNextSqrtPrice p l a input aToB = .ok m) : FavoursPool input aToB l a p m := by
  obtain ⟨hl0, hl'⟩ := hl
  obtain ⟨hp0, hp'⟩ := price_bounds hp
  obtain ⟨hA, hx, hm⟩ := getNextSqrtPrice_eq_rounded hl0 hl' hp0 hp' ha h
  have hmove := specifiedMove_exactPrice hl0 hp0 hA
  have hround : ∀ q : ℕ, 0 < q → Affords input aToB l a p q →
      PastPrice input aToB m q ∧ |(m : ℚ) - exactPrice input aToB l a p| ≤
        |(q : ℚ) - exactPrice input aToB l a p| := fun q hq hqa =>
    pastPrice_rounded hx hm ((affords_iff hl0 hA (fun _ => by exact_mod_cast hq) hmove).1 hqa)
  refine ⟨getNextSqrtPrice_tradeSide hl0 hl' hp0 hp' ha h,
    getNextSqrtPrice_affords hl0 hl' hp0 hp' ha h, fun n hn => ?_,
    fun q hq hqa => pastPrice_iff_toward.1 (hround q hq hqa).1,
    _, hx, hA, hmove, (rounded_pastPrice hx hm).2, fun q hq hqa => (hround q hq hqa).2⟩
  obtain ⟨rfl, -⟩ := getAmountFixedDelta_eq_ok hp' (getNextSqrtPrice_lt hp' hl' ha h) hl' hn
  exact getNextSqrtPrice_fixedDelta hl0 hl' hp0 hp' ha h

/-- A thousand of token A moves the price two down to one and a half on a liquidity of 6000. -/
theorem getNextSqrtPrice_favours_pool_two :
    getNextSqrtPrice (2 ^ 65) 6000 1000 true true = .ok (3 * 2 ^ 63) ∧
      FavoursPool true true 6000 1000 (2 ^ 65) (3 * 2 ^ 63) := by
  have h : getNextSqrtPrice (2 ^ 65) 6000 1000 true true = .ok (3 * 2 ^ 63) := by decide +kernel
  exact ⟨h, getNextSqrtPrice_favours_pool (by decide +kernel) (by norm_num) (by norm_num) h⟩

end NemoSwap
