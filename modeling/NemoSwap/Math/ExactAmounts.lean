import NemoSwap.Math.SwapMath
import NemoSwap.Math.U256Total

set_option relaxedAutoImplicit false
set_option autoImplicit false

/-!
# Exact token amounts of a price move

With constant liquidity the amount of a token that a price move takes or frees is rational: the
liquidity times the difference of a potential of the price. The amounts that `compute_swap`
returns round it in favour of the pool.

## Main definitions

* `NemoSwap.Token`, `NemoSwap.tokenIn`, `NemoSwap.tokenOut` — the tokens, and their sides of a trade.
* `NemoSwap.potential` — a token's amount per unit of liquidity, as a potential of the price.

## Main results

* `NemoSwap.inDelta_eq_ceil`, `NemoSwap.outDelta_eq_floor` — inputs are rounded up, outputs down.
* `NemoSwap.le_inDelta`, `NemoSwap.outDelta_le` — an input covers the move, an output is covered.
* `NemoSwap.inDelta_mono`, `NemoSwap.outDelta_mono` — a longer move has larger amounts.
-/

namespace NemoSwap

/-- The tokens of a pool. -/
inductive Token
  | A
  | B
  deriving DecidableEq, Repr

/-- The token that a swap takes. -/
def tokenIn (aToB : Bool) : Token := if aToB then .A else .B

/-- The token that a swap gives. -/
def tokenOut (aToB : Bool) : Token := if aToB then .B else .A

/-- A token's amount per unit of liquidity, up to a constant: the amount that moving the price
from `p` to `q` frees or takes is the difference of the potentials. -/
def potential : Token → ℕ → ℚ
  | .A, p => 2 ^ 64 / p
  | .B, p => p / 2 ^ 64

variable {X : Token} {p q : ℕ}

/-! ## Potentials -/

/-- The potential of token A falls with the price. -/
lemma potential_A_anti (hp : 0 < p) (h : p ≤ q) : potential .A q ≤ potential .A p := by
  unfold potential
  have : (0 : ℚ) < p := by exact_mod_cast hp
  exact div_le_div_of_nonneg_left (by positivity) this (by exact_mod_cast h)

/-- The potential of token B rises with the price. -/
lemma potential_B_mono (h : p ≤ q) : potential .B p ≤ potential .B q := by
  unfold potential
  have : (p : ℚ) ≤ q := by exact_mod_cast h
  exact div_le_div_of_nonneg_right this (by positivity)

/-- A positive price is determined by its potential in either token. -/
theorem potential_inj (hp : 0 < p) (hq : 0 < q) (h : potential X p = potential X q) : p = q := by
  have hp' : (0 : ℚ) < p := by exact_mod_cast hp
  have hq' : (0 : ℚ) < q := by exact_mod_cast hq
  cases X with
  | A =>
    simp only [potential] at h
    rw [div_eq_div_iff hp'.ne' hq'.ne'] at h
    have := mul_left_cancel₀ (by positivity) h
    exact_mod_cast this.symm
  | B =>
    simp only [potential] at h
    rw [div_left_inj' (by positivity)] at h
    exact_mod_cast h

/-! ## Rounded amounts -/

/-- The exact amount of token A between two prices. -/
theorem deltaA_exact {l : ℕ} (hp : 0 < p) (h : p ≤ q) :
    (l : ℚ) * (potential .A p - potential .A q) =
      ((l * (q - p) * 2 ^ 64 : ℕ) : ℚ) / ((q * p : ℕ) : ℚ) := by
  have hp' : (0 : ℚ) < p := by exact_mod_cast hp
  have hq' : (0 : ℚ) < q := by exact_mod_cast hp.trans_le h
  simp only [potential]
  push_cast [Nat.cast_sub h]
  field_simp
  norm_num
  ring

/-- The exact amount of token B between two prices. -/
lemma deltaB_exact {l : ℕ} (h : p ≤ q) :
    (l : ℚ) * (potential .B q - potential .B p) =
      ((l * (q - p) : ℕ) : ℚ) / ((2 ^ 64 : ℕ) : ℚ) := by
  simp only [potential]
  push_cast [Nat.cast_sub h]
  ring

/-- A division that rounds up gives the ceiling of the quotient. -/
theorem roundDiv_eq_ceil {n d : ℕ} (hd : 0 < d) : roundDiv n d true = ⌈(n : ℚ) / d⌉₊ := by
  have hd' : (0 : ℚ) < d := by exact_mod_cast hd
  refine eq_of_forall_ge_iff fun m => ?_
  rw [roundDiv_true_le_iff hd, Nat.ceil_le, div_le_iff₀ hd']
  exact_mod_cast Iff.rfl

/-- A division that rounds down gives the floor of the quotient. -/
lemma roundDiv_eq_floor (n d : ℕ) : roundDiv n d false = ⌊(n : ℚ) / d⌋₊ := by
  rw [roundDiv_false, Nat.floor_div_eq_div]

/-- Rounding up does not fall below the quotient. -/
lemma div_le_roundDiv {n d : ℕ} (hd : 0 < d) : (n : ℚ) / d ≤ roundDiv n d true := by
  rw [roundDiv_eq_ceil hd]
  exact Nat.le_ceil _

/-- Rounding down does not exceed the quotient. -/
lemma roundDiv_le_div {n d : ℕ} : (roundDiv n d false : ℚ) ≤ n / d := by
  rw [roundDiv_eq_floor]
  exact Nat.floor_le (by positivity)

section Delta

variable {l : ℕ}

/-- The amount of token A rounded up is at least the exact one. -/
lemma le_deltaA (hp : 0 < p) (h : p ≤ q) :
    (l : ℚ) * (potential .A p - potential .A q) ≤ deltaA p q l true := by
  rw [deltaA_exact hp h]
  have : 0 < q := hp.trans_le h
  exact div_le_roundDiv (by positivity)

/-- The amount of token A rounded down is at most the exact one. -/
lemma deltaA_le (hp : 0 < p) (h : p ≤ q) :
    (deltaA p q l false : ℚ) ≤ l * (potential .A p - potential .A q) := by
  rw [deltaA_exact hp h]
  exact roundDiv_le_div

/-- The amount of token B rounded up is at least the exact one. -/
lemma le_deltaB (h : p ≤ q) :
    (l : ℚ) * (potential .B q - potential .B p) ≤ deltaB p q l true := by
  rw [deltaB_exact h]
  exact div_le_roundDiv (by positivity)

/-- The amount of token B rounded down is at most the exact one. -/
lemma deltaB_le (h : p ≤ q) :
    (deltaB p q l false : ℚ) ≤ l * (potential .B q - potential .B p) := by
  rw [deltaB_exact h]
  exact roundDiv_le_div

/-- The exact amount of the input of a price move, rounded up. -/
theorem inDelta_eq_ceil {aToB : Bool} (hp : 0 < p) (hq : 0 < q) (h : Toward aToB p q) :
    inDelta aToB p q l =
      ⌈(l : ℚ) * (potential (tokenIn aToB) q - potential (tokenIn aToB) p)⌉₊ := by
  cases aToB with
  | true =>
    rw [toward_true] at h
    simp only [tokenIn, inDelta, if_true, min_eq_right h, max_eq_left h]
    rw [deltaA_exact hq h, deltaA, roundDiv_eq_ceil (by positivity)]
  | false =>
    rw [toward_false] at h
    simp only [tokenIn, inDelta, Bool.false_eq_true, if_false, min_eq_left h, max_eq_right h]
    rw [deltaB_exact h, deltaB, roundDiv_eq_ceil (by positivity)]

/-- The exact amount of the output of a price move, rounded down. -/
theorem outDelta_eq_floor {aToB : Bool} (hp : 0 < p) (h : Toward aToB p q) :
    outDelta aToB p q l =
      ⌊(l : ℚ) * (potential (tokenOut aToB) p - potential (tokenOut aToB) q)⌋₊ := by
  cases aToB with
  | true =>
    rw [toward_true] at h
    simp only [tokenOut, outDelta, if_true, min_eq_right h, max_eq_left h]
    rw [deltaB_exact h, deltaB, roundDiv_eq_floor]
  | false =>
    rw [toward_false] at h
    simp only [tokenOut, outDelta, Bool.false_eq_true, if_false, min_eq_left h, max_eq_right h]
    rw [deltaA_exact hp h, deltaA, roundDiv_eq_floor]

/-- The potential of the input grows in the direction of the trade. -/
lemma potential_tokenIn_mono {aToB : Bool} (hq : 0 < q) (h : Toward aToB p q) :
    potential (tokenIn aToB) p ≤ potential (tokenIn aToB) q := by
  cases aToB with
  | true => exact potential_A_anti hq h
  | false => exact potential_B_mono h

/-- The potential of the output falls in the direction of the trade. -/
lemma potential_tokenOut_anti {aToB : Bool} (hp : 0 < p) (h : Toward aToB p q) :
    potential (tokenOut aToB) q ≤ potential (tokenOut aToB) p := by
  cases aToB with
  | true => exact potential_B_mono h
  | false => exact potential_A_anti hp h

/-- An input covers the exact amount of the price move. -/
theorem le_inDelta {aToB : Bool} (hp : 0 < p) (hq : 0 < q) (h : Toward aToB p q) :
    (l : ℚ) * (potential (tokenIn aToB) q - potential (tokenIn aToB) p) ≤
      inDelta aToB p q l := by
  rw [inDelta_eq_ceil hp hq h]
  exact Nat.le_ceil _

/-- An output is covered by the exact amount of the price move. -/
theorem outDelta_le {aToB : Bool} (hp : 0 < p) (h : Toward aToB p q) :
    (outDelta aToB p q l : ℚ) ≤
      l * (potential (tokenOut aToB) p - potential (tokenOut aToB) q) := by
  rw [outDelta_eq_floor hp h]
  exact Nat.floor_le (mul_nonneg (Nat.cast_nonneg _)
    (sub_nonneg.2 (potential_tokenOut_anti hp h)))

/-- A longer move takes more. -/
theorem inDelta_mono {aToB : Bool} {m : ℕ} (hp : 0 < p) (hq : 0 < q) (hm : 0 < m)
    (h : Toward aToB p q) (h' : Toward aToB q m) :
    inDelta aToB p q l ≤ inDelta aToB p m l := by
  rw [inDelta_eq_ceil hp hq h, inDelta_eq_ceil hp hm (h.trans h')]
  have := potential_tokenIn_mono hm h'
  gcongr

/-- A longer move gives more. -/
theorem outDelta_mono {aToB : Bool} {m : ℕ} (hp : 0 < p) (hq : 0 < q)
    (h : Toward aToB p q) (h' : Toward aToB q m) :
    outDelta aToB p q l ≤ outDelta aToB p m l := by
  rw [outDelta_eq_floor hp h, outDelta_eq_floor hp (h.trans h')]
  have := potential_tokenOut_anti hq h'
  gcongr

end Delta

/-! ## The source's deltas -/

/-- A rational amount, rounded. -/
def rounded (roundUp : Bool) (x : ℚ) : ℕ := if roundUp then ⌈x⌉₊ else ⌊x⌋₊

/-- A division of the code is the rounded quotient. -/
lemma roundDiv_eq_rounded {n d : ℕ} (hd : 0 < d) (r : Bool) :
    roundDiv n d r = rounded r ((n : ℚ) / d) := by
  cases r with
  | false => exact roundDiv_eq_floor n d
  | true => exact roundDiv_eq_ceil hd

/-- A `div_round_up_if_u256` that does not panic returns the rounded quotient if it is a `u128`,
and an error if not.

**Proof sketch.** The division returns, because the function does not panic. Its quotient is rounded
up on the remainder, and is converted exactly if it is a `u128`. -/
lemma divRoundUpIfU256_cases {n d : U256Muldiv} (hd : d.toNat ≠ 0) (r : Bool)
    (h : divRoundUpIfU256 n d r ≠ .error .panicked) :
    divRoundUpIfU256 n d r = if roundDiv n.toNat d.toNat r < 2 ^ 128 then
      .ok (roundDiv n.toNat d.toNat r) else err .NumberDownCastError := by
  have hdiv : ∃ qr, n.div d r = .ok qr := by
    by_contra hcon
    refine h ?_
    have hpanic : n.div d r = .error .panicked := by
      by_contra hne
      refine hcon (U256Muldiv.div_ok hd r fun hm hn => ?_)
      by_contra he
      exact hne (U256Muldiv.div_panics r hm hn he)
    unfold divRoundUpIfU256
    rw [hpanic, Res.error_bind]
  obtain ⟨⟨q, s⟩, hdiv⟩ := hdiv
  obtain ⟨y, hy, hval⟩ := divRoundUpIfU256_of_div hdiv
  rw [hy, ← hval]
  split_ifs with hlt
  · exact U256Muldiv.tryIntoU128_eq_ok.2 ⟨hlt, rfl⟩
  · exact U256Muldiv.tryIntoU128_eq_err (not_lt.1 hlt)

/-- **`get_amount_delta_a` is exact**: unless the division panics, it returns the rounded amount
if that is a `u64`, and an error if not.

**Proof sketch.** If the shifted numerator does not fit in 256 bits, the quotient does not fit in
64, since the denominator has less than 192. Otherwise the division is the one of
`divRoundUpIfU256_cases`. -/
theorem getAmountDeltaA_cases {l : ℕ} {r : Bool} (hl : l < 2 ^ 128) (hp : 0 < p) (hq : 0 < q)
    (hp' : p < 2 ^ 96) (hq' : q < 2 ^ 96) (h : getAmountDeltaA p q l r ≠ .error .panicked) :
    getAmountDeltaA p q l r = .ok (deltaA (min p q) (max p q) l r) ∧
        deltaA (min p q) (max p q) l r < 2 ^ 64 ∨
      2 ^ 64 ≤ deltaA (min p q) (max p q) l r ∧ ∃ e, getAmountDeltaA p q l r = err e := by
  have hmax : max p q < 2 ^ 96 := max_lt hp' hq'
  have hmin : min p q < 2 ^ 96 := lt_of_le_of_lt (min_le_left p q) hp'
  have hmin0 : 0 < min p q := lt_min hp hq
  have hmax0 : 0 < max p q := lt_max_of_lt_left hp
  have hden := U256Muldiv.toNat_mulU256 (hmax.trans (by norm_num)) (hmin.trans (by norm_num))
  have hnum := U256Muldiv.toNat_mulU256 hl
    (lt_of_le_of_lt (Nat.sub_le (max p q) (min p q)) (hmax.trans (by norm_num)))
  have hpos : 0 < max p q * min p q := Nat.mul_pos hmax0 hmin0
  unfold getAmountDeltaA at h ⊢
  rw [increasingPriceOrder_eq] at h ⊢
  simp only at h ⊢
  rcases hshift : (U256Muldiv.mulU256 l (max p q - min p q)).checkedShiftWordLeft with _ | n
  · -- a numerator of more than 256 bits over a denominator of less than 192
    have hge : 2 ^ 256 ≤ l * (max p q - min p q) * 2 ^ 64 := by
      by_contra hcon
      rw [← hnum] at hcon
      have := U256Muldiv.checkedShiftWordLeft_eq_some.2 ⟨not_le.1 hcon, rfl⟩
      rw [hshift] at this
      cases this
    refine Or.inr ⟨?_, _, rfl⟩
    refine le_trans ?_ (roundDiv_false_le _ _ r)
    rw [Nat.le_div_iff_mul_le hpos]
    calc 2 ^ 64 * (max p q * min p q) ≤ 2 ^ 64 * (2 ^ 96 * 2 ^ 96) :=
          Nat.mul_le_mul_left _ (Nat.mul_le_mul hmax.le hmin.le)
      _ = 2 ^ 256 := by norm_num
      _ ≤ _ := hge
  · rw [hshift, okOr_some, Res.ok_bind] at h
    rw [okOr_some, Res.ok_bind]
    obtain ⟨hn, rfl⟩ := U256Muldiv.checkedShiftWordLeft_eq_some.1 hshift
    have hval : roundDiv (U256Muldiv.mulU256 l (max p q - min p q)).shiftWordLeft.toNat
        (U256Muldiv.mulU256 (max p q) (min p q)).toNat r =
          deltaA (min p q) (max p q) l r := by
      rw [U256Muldiv.toNat_shiftWordLeft, Nat.mod_eq_of_lt hn, hnum, hden]
      rfl
    have hcases := divRoundUpIfU256_cases (n := (U256Muldiv.mulU256 l
      (max p q - min p q)).shiftWordLeft) (d := U256Muldiv.mulU256 (max p q) (min p q))
      (by rw [hden]; exact hpos.ne') r fun hpanic => h (by rw [hpanic, Res.error_bind])
    rw [hval] at hcases
    rw [hcases]
    split_ifs with h128
    · rw [Res.ok_bind]
      split_ifs with h64
      · exact Or.inr ⟨by omega, _, rfl⟩
      · exact Or.inl ⟨rfl, by omega⟩
    · exact Or.inr ⟨by omega, _, rfl⟩

/-- **`get_amount_delta_b` is exact.** -/
theorem getAmountDeltaB_cases {l : ℕ} {r : Bool} :
    getAmountDeltaB p q l r = .ok (deltaB (min p q) (max p q) l r) ∧
        deltaB (min p q) (max p q) l r < 2 ^ 64 ∨
      2 ^ 64 ≤ deltaB (min p q) (max p q) l r ∧ ∃ e, getAmountDeltaB p q l r = err e := by
  rcases lt_or_ge (deltaB (min p q) (max p q) l r) (2 ^ 64) with hlt | hge
  · exact Or.inl ⟨getAmountDeltaB_eq_ok.2 ⟨rfl, hlt⟩, hlt⟩
  · refine Or.inr ⟨hge, ?_⟩
    unfold getAmountDeltaB
    rw [increasingPriceOrder_eq]
    exact checkedMulShiftRightRoundUpIf_eq_err hge

/-- **Token deltas are the exact rounded values**: as long as the division behind token A does not
panic, the rounded rational amount is returned if it is a `u64`, and an error if not.

**Proof sketch.** The rounded rational amounts are those of `deltaA` and `deltaB`, and by cases each
delta is returned if it fits and is an error if not. -/
theorem getAmountDelta_exact {l : ℕ} {r : Bool} (hl : l < 2 ^ 128)
    (hp : minSqrtPriceX64 ≤ p ∧ p ≤ maxSqrtPriceX64)
    (hq : minSqrtPriceX64 ≤ q ∧ q ≤ maxSqrtPriceX64) :
    (getAmountDeltaA p q l r ≠ .error .panicked →
      (∀ n, getAmountDeltaA p q l r = .ok n ↔
        n = rounded r ((l : ℚ) * (max p q - min p q : ℕ) * 2 ^ 64 / (max p q * min p q : ℕ)) ∧
          n ≤ 2 ^ 64 - 1) ∧
      ((∀ n, getAmountDeltaA p q l r ≠ .ok n) → ∃ e, getAmountDeltaA p q l r = err e)) ∧
    (∀ n, getAmountDeltaB p q l r = .ok n ↔
      n = rounded r ((l : ℚ) * (max p q - min p q : ℕ) / 2 ^ 64) ∧ n ≤ 2 ^ 64 - 1) ∧
    ((∀ n, getAmountDeltaB p q l r ≠ .ok n) → ∃ e, getAmountDeltaB p q l r = err e) := by
  have hpos : ∀ {p : ℕ}, minSqrtPriceX64 ≤ p ∧ p ≤ maxSqrtPriceX64 → 0 < p ∧ p < 2 ^ 96 :=
    fun {p} hp => by
      unfold minSqrtPriceX64 maxSqrtPriceX64 at hp
      omega
  obtain ⟨hp0, hp'⟩ := hpos hp
  obtain ⟨hq0, hq'⟩ := hpos hq
  have hA : deltaA (min p q) (max p q) l r =
      rounded r ((l : ℚ) * (max p q - min p q : ℕ) * 2 ^ 64 / (max p q * min p q : ℕ)) := by
    rw [deltaA, roundDiv_eq_rounded (Nat.mul_pos (lt_max_of_lt_left hp0) (lt_min hp0 hq0))]
    norm_cast
  have hB : deltaB (min p q) (max p q) l r =
      rounded r ((l : ℚ) * (max p q - min p q : ℕ) / 2 ^ 64) := by
    rw [deltaB, roundDiv_eq_rounded (by positivity)]
    norm_cast
  refine ⟨fun h => ?_, ?_⟩
  · rw [← hA]
    rcases getAmountDeltaA_cases hl hp0 hq0 hp' hq' h with ⟨hok, hlt⟩ | ⟨hge, e, he⟩
    · rw [hok]
      refine ⟨fun n => ?_, fun hno => absurd rfl (hno _)⟩
      rw [Except.ok.injEq]
      omega
    · rw [he]
      refine ⟨fun n => ?_, fun _ => ⟨e, rfl⟩⟩
      simp only [err, reduceCtorEq, false_iff]
      omega
  · rw [← hB]
    rcases getAmountDeltaB_cases (p := p) (q := q) (l := l) (r := r) with ⟨hok, hlt⟩ | ⟨hge, e, he⟩
    · rw [hok]
      refine ⟨fun n => ?_, fun hno => absurd rfl (hno _)⟩
      rw [Except.ok.injEq]
      omega
    · rw [he]
      refine ⟨fun n => ?_, fun _ => ⟨e, rfl⟩⟩
      simp only [err, reduceCtorEq, false_iff]
      omega

/-- Between the prices one and two a liquidity of a thousand is half of that in token A. -/
theorem getAmountDelta_exact_one_two : ∃ n, getAmountDeltaA (2 ^ 64) (2 ^ 65) 1000 true = .ok n ∧
    n = rounded true (((1000 : ℕ) : ℚ) * (max (2 ^ 64) (2 ^ 65) - min (2 ^ 64) (2 ^ 65) : ℕ) *
      2 ^ 64 / (max (2 ^ 64) (2 ^ 65) * min (2 ^ 64) (2 ^ 65) : ℕ)) := by
  obtain ⟨hA, -⟩ := getAmountDelta_exact (p := 2 ^ 64) (q := 2 ^ 65) (l := 1000) (r := true)
    (by norm_num) (by decide +kernel) (by decide +kernel)
  have hok : getAmountDeltaA (2 ^ 64) (2 ^ 65) 1000 true = .ok 500 := by decide +kernel
  exact ⟨500, hok, (((hA (by decide +kernel)).1 500).1 hok).1⟩

end NemoSwap
