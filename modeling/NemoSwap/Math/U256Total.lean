import NemoSwap.Math.U256Div

set_option relaxedAutoImplicit false
set_option autoImplicit false

/-!
# When the long division returns

The correction loop of `div_loop` makes at most two iterations. What can fail is the add-back
step: when the window ends in the carry word, that is, at the first quotient digit of a dividend
of four words, it reads a fifth word and panics. So a division fails exactly if the estimate of
that digit, from the three leading words of the normalised dividend and the two leading words of
the normalised divisor, is not the digit itself.

## Main definitions

* `NemoSwap.U256Muldiv.EstimateExact` — the first estimated digit is the true one.

## Main results

* `NemoSwap.U256Muldiv.correctQhat_eq` — the corrected estimate is the quotient of the leading
  words.
* `NemoSwap.U256Muldiv.div_ok`, `NemoSwap.U256Muldiv.div_panics` — when a division returns, and
  when it panics.
* `NemoSwap.U256Muldiv.div_exact_iff` — when a division is total and exact.
-/

namespace NemoSwap

namespace U256Muldiv

open Radix

/-! ## The correction loop -/

/-- The correction loop ends: each iteration adds a normalised word to `rhat`. -/
lemma correctQhat_ok {d1 d1' : ℕ} (hd1 : d1 < 2 ^ 64) :
    ∀ fuel qhat rhat cmp1 cmp2, rhat < 2 ^ 64 → 2 ^ 64 ≤ rhat + fuel * d1 →
      ∃ qh, correctQhat d1 d1' fuel qhat rhat cmp1 cmp2 = .ok qh
  | 0, _, _, _, _, hr, hf => by omega
  | fuel + 1, qhat, rhat, cmp1, cmp2, hr, hf => by
    unfold correctQhat
    have hadd : wrappingAdd 128 rhat d1 = rhat + d1 := wrappingAdd_of_lt (by omega)
    simp only [hadd]
    split_ifs with htest hbreak
    · exact ⟨_, rfl⟩
    · have hlt : rhat + d1 < 2 ^ 64 := by
        by_contra hcon
        exact hbreak (by unfold hi; omega)
      refine correctQhat_ok hd1 fuel _ _ _ _ hlt ?_
      rw [Nat.succ_mul] at hf
      omega
    · exact ⟨_, rfl⟩

/-- The remainder of the first estimate. -/
lemma estimate_rem {d d1 : ℕ} (hd : d < 2 ^ 128) :
    wrappingSub 128 d (d1 * (d / d1)) = d % d1 := by
  have hdm := Nat.div_add_mod d d1
  rw [wrappingSub_of_le hd (by omega)]
  omega

/-- The correction loop of a step ends. -/
lemma correctQhat_returns (d1' u' cmp2 : ℕ) {d d1 : ℕ} (hd : d < 2 ^ 128) (hd1 : d1 < 2 ^ 64)
    (hnorm : 2 ^ 63 ≤ d1) :
    ∃ qh, correctQhat d1 d1' 3 (d / d1) (wrappingSub 128 d (d1 * (d / d1)))
      (hiLo (lo (wrappingSub 128 d (d1 * (d / d1)))) u') cmp2 = .ok qh := by
  have hmod : d % d1 < d1 := Nat.mod_lt _ (by omega)
  rw [estimate_rem hd]
  exact correctQhat_ok hd1 _ _ _ _ _ (by omega) (by omega)

/-- **The corrected estimate is the quotient of the leading words**, if that is a word.

**Proof sketch.** The first estimate is an upper bound of the quotient of the leading words, and a
failed test means that it is too large. The loop ends where the test passes, which is the
quotient. -/
theorem correctQhat_eq {d d1 d1' u' : ℕ} (hu' : u' < 2 ^ 64) (hd1 : d1 < 2 ^ 64)
    (hd1' : d1' < 2 ^ 64) (hnorm : 2 ^ 63 ≤ d1)
    (hlt : d * 2 ^ 64 + u' < (d1 * 2 ^ 64 + d1') * 2 ^ 64) :
    correctQhat d1 d1' 3 (d / d1) (wrappingSub 128 d (d1 * (d / d1)))
      (hiLo (lo (wrappingSub 128 d (d1 * (d / d1)))) u') ((d / d1 * d1') % 2 ^ 128) =
        .ok ((d * 2 ^ 64 + u') / (d1 * 2 ^ 64 + d1')) := by
  have hd : d < (d1 + 1) * 2 ^ 64 := by omega
  have hdb : d < 2 ^ 128 := by omega
  have hq0 := estimate_lt hnorm hd
  have hdm : d = d / d1 * d1 + d % d1 := by rw [mul_comm]; exact (Nat.div_add_mod d d1).symm
  have hmod : d % d1 < d1 := Nat.mod_lt _ (by omega)
  have hc : d / d1 * d1' < 2 ^ 128 := by
    calc d / d1 * d1' ≤ (2 ^ 64 + 1) * (2 ^ 64 - 1) := Nat.mul_le_mul (by omega) (by omega)
      _ < 2 ^ 128 := by norm_num
  have hD : 0 < d1 * 2 ^ 64 + d1' := by omega
  obtain ⟨qh, hqh⟩ := correctQhat_returns d1' u' ((d / d1 * d1') % 2 ^ 128) hdb hd1 hnorm
  rw [hqh]
  rw [estimate_rem hdb, Nat.mod_eq_of_lt hc] at hqh
  obtain ⟨T, hT⟩ : ∃ T, d * 2 ^ 64 + u' = T := ⟨_, rfl⟩
  obtain ⟨D, hDd⟩ : ∃ D, d1 * 2 ^ 64 + d1' = D := ⟨_, rfl⟩
  rw [hT, hDd] at hlt ⊢
  rw [hDd] at hD
  have hqb : T / D < 2 ^ 64 := by rwa [Nat.div_lt_iff_lt_mul hD, mul_comm]
  -- a failed test means that the estimate is too large
  have hdec : ∀ a r, d = a * d1 + r → r * 2 ^ 64 + u' < a * d1' → T / D ≤ a → T / D < a :=
    fun a r ha htest _ => by
      rw [Nat.div_lt_iff_lt_mul hD, ← hT, ← hDd]
      nlinarith only [ha, htest]
  have hstart : T / D ≤ d / d1 := by
    rw [Nat.le_div_iff_mul_le (by omega)]
    have h1 := Nat.div_mul_le_self T D
    obtain ⟨t, ht⟩ : ∃ t, T / D = t := ⟨_, rfl⟩
    rw [ht, ← hDd, ← hT] at h1
    rw [ht]
    have h2 : t * d1 * 2 ^ 64 < (d + 1) * 2 ^ 64 := by
      nlinarith only [h1, hu', Nat.zero_le (t * d1')]
    exact Nat.lt_succ_iff.1 (lt_of_mul_lt_mul_right h2 (Nat.zero_le _))
  obtain ⟨rh, e1, -, e3, e4⟩ := correctQhat_spec hd1 hd1' hu' hd hqb hdec 3 (d / d1) (d % d1) qh
    hdm (by omega) hc (by omega) hstart hqh
  have hle : qh ≤ T / D := by
    rw [Nat.le_div_iff_mul_le hD, ← hT, ← hDd]
    nlinarith only [e1, e3]
  rw [le_antisymm hle e4]

/-! ## One step -/

/-- A step whose window ends below the carry word returns, and leaves the carry word.

**Proof sketch.** The step does not look at the carry word, so it has no check that panics, and both
branches return. -/
lemma divLoop_ok (c : ℕ) (x quo : U256Muldiv) {index n : ℕ} {v : U256Muldiv}
    (hn : index + (n + 2) < 4)
    (hnorm : 2 ^ 63 ≤ v.getWord (n + 1)) :
    ∃ quo' x', divLoop index (n + 2) x c v quo = .ok (quo', x', c) := by
  have huc : decide (index + (n + 2) = 4) = false := decide_eq_false (by omega)
  have hd : hiLo (x.getWord (index + (n + 2))) (x.getWord (index + (n + 2) - 1)) < 2 ^ 128 := by
    have h1 := x.getWord_lt (index + (n + 2))
    have h2 := x.getWord_lt (index + (n + 2) - 1)
    rw [hiLo_eq h2]
    omega
  obtain ⟨qh, hqh⟩ := correctQhat_returns (v.getWord n) (x.getWord (index + (n + 2) - 2))
    ((hiLo (x.getWord (index + (n + 2))) (x.getWord (index + (n + 2) - 1)) /
      v.getWord (n + 1) * v.getWord n) % 2 ^ 128) hd (v.getWord_lt _) hnorm
  unfold divLoop
  simp only [huc, Bool.false_eq_true, if_false, show n + 2 - 1 = n + 1 by omega,
    show n + 2 - 2 = n by omega, hqh, Res.ok_bind]
  split_ifs
  · exact ⟨_, _, rfl⟩
  · exact ⟨_, _, rfl⟩

/-- The leading words of a number. -/
lemma leading_eq {W T p r : ℕ} (hW : W = T * p + r) (hr : r < p) : W / p = T := by
  rw [hW, add_comm, Nat.add_mul_div_right _ _ (by omega), Nat.div_eq_of_lt hr, zero_add]

/-- Dropping the low words of both numbers does not lower the quotient. -/
lemma div_le_estimate {W V T D p r s : ℕ} (hW : W = T * p + r) (hV : V = D * p + s)
    (hr : r < p) (hD : 0 < D) : W / V ≤ T / D := by
  have hp : 0 < p := by omega
  calc W / V ≤ W / (D * p) := Nat.div_le_div_left (by omega) (by positivity)
    _ = W / p / D := by rw [mul_comm, Nat.div_div_eq_div_mul]
    _ = T / D := by rw [leading_eq hW hr]

/-- An estimate is the quotient digit if and only if there is no borrow. -/
lemma digit_iff_no_borrow {W X Y V P qh head k : ℕ} (hV : 0 < V) (hW : W = X + head * P)
    (hms : X + k * P = Y + qh * V) (hY : Y < P) (hle : W / V ≤ qh) :
    qh = W / V ↔ k ≤ head := by
  have hmul := Nat.div_mul_le_self W V
  constructor
  · intro he
    by_contra hcon
    obtain ⟨d, rfl⟩ := Nat.exists_eq_add_of_lt (not_le.1 hcon)
    have e1 : (head + d + 1) * P = head * P + d * P + P := by ring
    rw [← he] at hmul
    omega
  · intro hk
    obtain ⟨h1, h2⟩ := digit_of_no_borrow hV hW hms hle hk
    exact (div_mod_unique h1 h2).1

/-- **The step whose window ends in the carry word** returns if the estimate is the quotient
digit, and panics if not.

**Proof sketch.** The window is the leading words and a remainder below their unit, so the quotient
digit is at most the estimate. If they are equal, nothing is borrowed and the step returns.
Otherwise it borrows, and the carry of the add-back, which reaches the fifth digit, makes it
panic. -/
theorem divLoop_carry (quo : U256Muldiv) {index n c : ℕ} {x v : U256Muldiv}
    (hn : index + (n + 2) = 4)
    (hc : c < 2 ^ 64) (hnorm : 2 ^ 63 ≤ v.getWord (n + 1))
    (hT : (c * 2 ^ 64 + x.getWord 3) * 2 ^ 64 + x.getWord 2 <
      (v.getWord (n + 1) * 2 ^ 64 + v.getWord n) * 2 ^ 64) :
    if ((c * 2 ^ 64 + x.getWord 3) * 2 ^ 64 + x.getWord 2) /
        (v.getWord (n + 1) * 2 ^ 64 + v.getWord n) =
      value (2 ^ 64) (fun i => digits x c (index + i)) (n + 3) / value (2 ^ 64) v.getWord (n + 2)
    then ∃ quo' x' c', divLoop index (n + 2) x c v quo = .ok (quo', x', c') ∧ c' < 2 ^ 64
    else divLoop index (n + 2) x c v quo = .error .panicked := by
  have h3 : index + (n + 2) - 1 = 3 := by omega
  have h2 : index + (n + 2) - 2 = 2 := by omega
  have hqh := correctQhat_eq (x.getWord_lt 2) (v.getWord_lt (n + 1)) (v.getWord_lt n) hnorm hT
  have hD : 0 < v.getWord (n + 1) * 2 ^ 64 + v.getWord n := by omega
  have hlt := digits_lt (x := x) hc
  -- the window and the divisor, and their leading words
  have hW := value_window (fun i => digits x c (index + i)) n
  have hV := value_divisor v.getWord n
  have e2 : digits x c (index + (n + 2)) = c := by rw [hn]; rfl
  have e1 : digits x c (index + (n + 1)) = x.getWord 3 := by
    rw [show index + (n + 1) = 3 by omega]; rfl
  have e0 : digits x c (index + n) = x.getWord 2 := by rw [show index + n = 2 by omega]; rfl
  simp only [e2, e1, e0] at hW
  have hle := div_le_estimate hW hV (value_lt fun i _ => hlt (index + i)) hD
  have hqb : ((c * 2 ^ 64 + x.getWord 3) * 2 ^ 64 + x.getWord 2) /
      (v.getWord (n + 1) * 2 ^ 64 + v.getWord n) < 2 ^ 64 := by
    rw [Nat.div_lt_iff_lt_mul hD, mul_comm (2 ^ 64)]
    exact hT
  have hVpos : 0 < value (2 ^ 64) v.getWord (n + 2) := by
    have : 0 < (v.getWord (n + 1) * 2 ^ 64 + v.getWord n) * (2 ^ 64) ^ n := by positivity
    omega
  obtain ⟨k, hk, -, -, hms⟩ := mulSubLoop_spec hqb index v x (n + 2) (by omega)
  have hwin := window_eq x x c index (n := n + 2) fun i hi =>
    digits_of_lt (by omega)
  rw [e2] at hwin
  generalize hYdef : mulSubLoop _ index (n + 2) v x = yk at hk hms
  have hY := value_lt (b := 2 ^ 64) (n := n + 2) fun i _ => yk.1.getWord_lt (index + i)
  unfold divLoop
  simp only [hn, decide_true, if_true, show n + 2 - 1 = n + 1 by omega,
    show n + 2 - 2 = n by omega, show 4 - 1 = 3 from rfl, show 4 - 2 = 2 from rfl,
    hiLo_eq (x.getWord_lt 3), hqh, Res.ok_bind, hYdef, hk]
  have hiff := digit_iff_no_borrow hVpos hwin hms hY hle
  split_ifs with heq hbor hbor
  · exact absurd (hiff.1 heq) (not_le.2 hbor)
  · exact ⟨_, _, _, rfl, lo_lt _⟩
  · rfl
  · exact absurd (hiff.2 (not_lt.1 hbor)) heq

/-! ## The loop -/

/-- Below the carry word the loop returns. -/
lemma divLoops_ok {n c : ℕ} {v : U256Muldiv} (hnorm : 2 ^ 63 ≤ v.getWord (n + 1)) :
    ∀ (j : ℕ) (x quo : U256Muldiv), j + (n + 2) ≤ 4 →
      ∃ qr, divLoops (n + 2) v j quo x c = .ok qr
  | 0, _, _, _ => ⟨_, rfl⟩
  | j + 1, x, quo, hj => by
    obtain ⟨quo', x', hstep⟩ := divLoop_ok c x quo (show j + (n + 2) < 4 by omega)
      hnorm
    unfold divLoops
    rw [hstep, Res.ok_bind]
    exact divLoops_ok hnorm j x' quo' (by omega)

/-- **The first estimated digit is the true one.** The divisor is normalised by its leading zeros;
the digit is estimated from its two leading words and the three leading words of the dividend. -/
def EstimateExact (x v : U256Muldiv) : Prop :=
  let n := v.numWords
  let s := leadingZeros (v.getWord (n - 1))
  x.toNat * 2 ^ s / 2 ^ 128 / (v.toNat * 2 ^ s / (2 ^ 64) ^ (n - 2)) =
    x.toNat / (v.toNat * (2 ^ 64) ^ (4 - n))

instance (x v : U256Muldiv) : Decidable (EstimateExact x v) :=
  inferInstanceAs (Decidable (_ = _))

/-- The division loop of a dividend of four words returns if the first estimated digit is exact,
and panics if not.

**Proof sketch.** Only the first step, whose window ends in the carry word, can panic, and
`divLoop_carry` decides it. The leading words of the shifted numbers are quotients by powers of `2 ^
64`, which turns its condition into one on the inputs. -/
lemma divLoops_carry {n c s : ℕ} {x v : U256Muldiv} (hn : v.numWords = n + 2)
    (hm : x.numWords = 4) (hs : s = leadingZeros (v.getWord (n + 1)))
    (hc : c = if x.numWords = 4 ∧ leadingZeros (x.getWord (x.numWords - 1)) < s then
      x.getWord (x.numWords - 1) >>> (64 - s) else 0) :
    if EstimateExact x v then
      ∃ qr, divLoops (n + 2) (v.shiftLeft s) (4 - (n + 2) + 1) (new 0 0) (x.shiftLeft s) c =
        .ok qr
    else divLoops (n + 2) (v.shiftLeft s) (4 - (n + 2) + 1) (new 0 0) (x.shiftLeft s) c =
      .error .panicked := by
  have hn4 := v.numWords_le
  have hne := v.getWord_numWords_ne_zero (by omega)
  rw [hn, show n + 2 - 1 = n + 1 by omega] at hne
  have hs64 : s < 64 := hs ▸ (leadingZeros_spec hne (v.getWord_lt _)).1
  obtain ⟨hvs, hvlt, hnorm⟩ := normalise_divisor hn
  rw [← hs] at hvs hvlt hnorm
  have hx := normalise_dividend hs64 (x := x) (by omega)
  rw [← hc] at hx
  have hcb : c < 2 ^ 64 := by
    rw [hc]
    split_ifs
    · exact lt_of_le_of_lt (Nat.shiftRight_le _ _) (x.getWord_lt _)
    · positivity
  have hV : value (2 ^ 64) (v.shiftLeft s).getWord (n + 2) = v.toNat * 2 ^ s := by
    rw [value_of_toNat_lt (by omega) (by rw [hvs]; exact hvlt), hvs]
  -- the leading words
  have hT : x.toNat * 2 ^ s / 2 ^ 128 =
      (c * 2 ^ 64 + (x.shiftLeft s).getWord 3) * 2 ^ 64 + (x.shiftLeft s).getWord 2 := by
    have hwin := value_window (digits (x.shiftLeft s) c) 2
    rw [← hx, show (2 : ℕ) ^ 128 = (2 ^ 64) ^ 2 by norm_num]
    exact leading_eq hwin (value_lt fun i _ => digits_lt hcb i)
  have hD : v.toNat * 2 ^ s / (2 ^ 64) ^ n =
      (v.shiftLeft s).getWord (n + 1) * 2 ^ 64 + (v.shiftLeft s).getWord n := by
    rw [← hV]
    exact leading_eq (value_divisor _ n) (value_lt fun i _ => getWord_lt _ i)
  have hW : value (2 ^ 64) (fun i => digits (x.shiftLeft s) c (4 - (n + 2) + i)) (n + 3) /
      value (2 ^ 64) (v.shiftLeft s).getWord (n + 2) =
        x.toNat / (v.toNat * (2 ^ 64) ^ (4 - (n + 2))) := by
    have hadd := value_add (b := 2 ^ 64) (digits (x.shiftLeft s) c) (4 - (n + 2)) (n + 3)
    rw [show 4 - (n + 2) + (n + 3) = 5 by omega, hx] at hadd
    have hlead := hadd.trans ((add_comm _ _).trans (congrArg (· + _) (mul_comm _ _)))
    rw [← leading_eq hlead (value_lt fun i _ => digits_lt hcb i), hV, Nat.div_div_eq_div_mul,
      ← mul_assoc, mul_comm ((2 ^ 64) ^ (4 - (n + 2))), Nat.mul_div_mul_right _ _ (by positivity)]
  have hlt : (c * 2 ^ 64 + (x.shiftLeft s).getWord 3) * 2 ^ 64 + (x.shiftLeft s).getWord 2 <
      ((v.shiftLeft s).getWord (n + 1) * 2 ^ 64 + (v.shiftLeft s).getWord n) * 2 ^ 64 := by
    rw [← hT, Nat.div_lt_iff_lt_mul (by positivity)]
    calc x.toNat * 2 ^ s < 2 ^ 256 * 2 ^ 63 :=
          Nat.mul_lt_mul_of_lt_of_le x.toNat_lt (Nat.pow_le_pow_right (by norm_num) (by omega))
            (by positivity)
      _ = 2 ^ 63 * 2 ^ 64 * 2 ^ 64 * 2 ^ 128 := by norm_num
      _ ≤ _ := by
          refine Nat.mul_le_mul_right _ (Nat.mul_le_mul_right _ ?_)
          exact (Nat.mul_le_mul_right _ hnorm).trans (Nat.le_add_right _ _)
  have hstep := divLoop_carry (new 0 0) (show 4 - (n + 2) + (n + 2) = 4 by omega) hcb hnorm hlt
  rw [hW, ← hT, ← hD] at hstep
  have hiff : EstimateExact x v ↔ x.toNat * 2 ^ s / 2 ^ 128 / (v.toNat * 2 ^ s / (2 ^ 64) ^ n) =
      x.toNat / (v.toNat * (2 ^ 64) ^ (4 - (n + 2))) := by
    unfold EstimateExact
    simp only [hn, show n + 2 - 1 = n + 1 by omega, show n + 2 - 2 = n by omega, ← hs]
  unfold divLoops
  split_ifs with he
  · rw [if_pos (hiff.1 he)] at hstep
    obtain ⟨quo', x', c', hok, -⟩ := hstep
    rw [hok, Res.ok_bind]
    exact divLoops_ok hnorm _ x' quo' (by omega)
  · rw [if_neg fun h => he (hiff.2 h)] at hstep
    rw [hstep, Res.error_bind]

/-! ## The whole division -/

/-- With a divisor of two words the estimate is exact. -/
lemma estimateExact_of_two {x v : U256Muldiv} (hn : v.numWords = 2) : EstimateExact x v := by
  unfold EstimateExact
  simp only [hn, Nat.sub_self, pow_zero, Nat.div_one]
  rw [Nat.div_div_eq_div_mul, ← mul_assoc, Nat.mul_div_mul_right _ _ (by positivity),
    mul_comm (2 ^ 128)]
  norm_num

/-- With a divisor of three words and a rounded up quotient of one word, the first digit and its
estimate are zero.

**Proof sketch.** The dividend is less than the divisor one word further up, so the first digit is
zero. The two leading words of the divisor are off by less than a word, which is not enough to make
the estimate positive. -/
theorem estimateExact_of_three {x v : U256Muldiv} (hn : v.numWords = 3)
    (h : x.toNat ≤ (2 ^ 64 - 1) * v.toNat) : EstimateExact x v := by
  have hv : 2 ^ 128 ≤ v.toNat := by
    have := le_toNat_of_lt_numWords (x := v) (n := 2) (by omega)
    exact le_trans (by norm_num) this
  unfold EstimateExact
  simp only [hn, show 3 - 1 = 2 by rfl, show 3 - 2 = 1 by rfl, pow_one]
  set s := leadingZeros (v.getWord 2)
  have hpos : 0 < 2 ^ s := by positivity
  have hdigit : x.toNat / (v.toNat * 2 ^ 64) = 0 := Nat.div_eq_of_lt (by omega)
  rw [hdigit, Nat.div_eq_of_lt]
  rw [Nat.div_lt_iff_lt_mul (by positivity)]
  -- the two leading words of the divisor are off by less than a word
  have hlead := Nat.lt_div_mul_add (a := v.toNat * 2 ^ s) (b := 2 ^ 64) (by positivity)
  have hscaled : 2 ^ 128 ≤ v.toNat * 2 ^ s := hv.trans (Nat.le_mul_of_pos_right _ hpos)
  have hx : x.toNat * 2 ^ s ≤ (2 ^ 64 - 1) * (v.toNat * 2 ^ s) := by
    rw [← mul_assoc]
    exact Nat.mul_le_mul_right _ h
  omega

/-- A division returns if its first estimated digit is exact, or if it needs no such digit.

**Proof sketch.** By the branches of `div`. All but the last return for every input; in the last one
the division loop returns for a dividend of three words, and by `divLoops_carry` for one of four. -/
theorem div_ok {x v : U256Muldiv} (hv : v.toNat ≠ 0) (keep : Bool)
    (h : x.numWords = 4 → 3 ≤ v.numWords → EstimateExact x v) :
    ∃ qr, x.div v keep = .ok qr := by
  have hn0 : v.numWords ≠ 0 := fun h0 => hv ((toNat_eq_zero_iff_numWords v).2 h0)
  have h4 := x.numWords_le
  unfold div
  simp only []
  rw [if_neg hn0]
  rcases eq_or_ne x.numWords 0 with hm0 | hm0
  · rw [if_pos hm0]
    exact ⟨_, rfl⟩
  rw [if_neg hm0]
  rcases Nat.lt_or_ge x.numWords v.numWords with hmn | hmn
  · rw [if_pos hmn]
    exact ⟨_, rfl⟩
  rw [if_neg (Nat.not_lt.2 hmn)]
  rcases Nat.lt_or_ge x.numWords 3 with hm3 | hm3
  · -- both fit a `u128`
    have hfit : ∀ y : U256Muldiv, y.numWords ≤ 2 → y.tryIntoU128 = .ok y.toNat := fun y hy =>
      tryIntoU128_eq_ok.2 ⟨toNat_lt_of_numWords_le (n := 2) hy, rfl⟩
    rw [if_pos hm3, hfit x (by omega), Res.ok_bind, hfit v (by omega)]
    exact ⟨_, rfl⟩
  rw [if_neg (Nat.not_lt.2 hm3)]
  rcases eq_or_ne v.numWords 1 with hn1 | hn1
  · rw [if_pos hn1]
    exact ⟨_, rfl⟩
  rw [if_neg hn1]
  obtain ⟨n, hn⟩ : ∃ n, v.numWords = n + 2 := ⟨v.numWords - 2, by omega⟩
  simp only [hn, show n + 2 - 1 = n + 1 by omega]
  obtain ⟨-, -, hnorm⟩ := normalise_divisor hn
  rcases Nat.lt_or_ge x.numWords 4 with hm | hm
  · obtain ⟨qr, hqr⟩ := divLoops_ok (c := if x.numWords = 4 ∧
      leadingZeros (x.getWord (x.numWords - 1)) < leadingZeros (v.getWord (n + 1)) then
      x.getWord (x.numWords - 1) >>> (64 - leadingZeros (v.getWord (n + 1))) else 0) hnorm
      (x.numWords - (n + 2) + 1) (x.shiftLeft (leadingZeros (v.getWord (n + 1)))) (new 0 0)
      (by omega)
    rw [hqr]
    exact ⟨_, rfl⟩
  · have hm4 : x.numWords = 4 := le_antisymm h4 hm
    have he : EstimateExact x v := by
      rcases Nat.lt_or_ge v.numWords 3 with h2 | h3
      · exact estimateExact_of_two (by omega)
      · exact h hm4 h3
    have hloops := divLoops_carry hn hm4 rfl rfl
    rw [if_pos he] at hloops
    obtain ⟨qr, hqr⟩ := hloops
    rw [hm4] at hqr ⊢
    rw [hqr]
    exact ⟨_, rfl⟩

/-- A division whose first estimated digit is not exact panics. -/
theorem div_panics {x v : U256Muldiv} (keep : Bool) (hm : x.numWords = 4)
    (hn : 3 ≤ v.numWords) (he : ¬EstimateExact x v) : x.div v keep = .error .panicked := by
  have hn4 := v.numWords_le
  obtain ⟨n, hn2⟩ : ∃ n, v.numWords = n + 2 := ⟨v.numWords - 2, by omega⟩
  have hloops := divLoops_carry hn2 hm rfl rfl
  rw [if_neg he] at hloops
  unfold div
  simp only []
  rw [if_neg (by omega), if_neg (by omega), if_neg (by omega), if_neg (by omega),
    if_neg (by omega)]
  simp only [hn2, show n + 2 - 1 = n + 1 by omega]
  rw [hm] at hloops ⊢
  rw [hloops, Res.error_bind]

/-- Without the remainder a division returns the same quotient. -/
lemma div_false (x v : U256Muldiv) :
    x.div v false = x.div v true >>= fun qr => .ok (qr.1, new 0 0) := by
  unfold div
  simp only [Bool.false_eq_true, if_false, if_true]
  split_ifs
  · rfl
  · rfl
  · rfl
  · simp only [bind_assoc, Res.ok_bind]
  · simp only [Res.ok_bind]
  · simp only [bind_assoc, Res.ok_bind]
  · simp only [bind_assoc, Res.ok_bind]

/-- **When the division is total and exact**: if and only if the dividend has less than four words,
the divisor less than three, or the first quotient digit is estimated exactly.

**Proof sketch.** If the condition fails the source panics by `div_panics`. If it holds the division
returns by `div_ok`, and what it returns is exact by `div_eq_ok`; without the remainder it returns
the same quotient. -/
theorem div_exact_iff {x v : U256Muldiv} (hv : v.toNat ≠ 0) :
    (∃ q r, x.div v true = .ok (q, r) ∧ x.toNat = q.toNat * v.toNat + r.toNat ∧
        r.toNat < v.toNat ∧ ∃ r', x.div v false = .ok (q, r')) ↔
      (x.numWords = 4 → 3 ≤ v.numWords → EstimateExact x v) := by
  constructor
  · rintro ⟨q, r, hok, -⟩ hm hn
    by_contra he
    rw [div_panics true hm hn he] at hok
    cases hok
  · intro h
    obtain ⟨⟨q, r⟩, hok⟩ := div_ok hv true h
    obtain ⟨-, hq, hr⟩ := div_eq_ok hok
    refine ⟨q, r, hok, ?_, ?_, new 0 0, ?_⟩
    · rw [hq, hr rfl, mul_comm]
      exact (Nat.div_add_mod _ _).symm
    · rw [hr rfl]
      exact Nat.mod_lt _ (Nat.pos_of_ne_zero hv)
    · rw [div_false, hok, Res.ok_bind]

/-- A dividend of four words and a divisor of three, whose first quotient digit is estimated
exactly. -/
theorem div_exact_iff_fourWords : ∃ q r,
    (new (2 ^ 127) 5).numWords = 4 ∧ (new 7 9).numWords = 3 ∧
      (new (2 ^ 127) 5).div (new 7 9) true = .ok (q, r) ∧
      (new (2 ^ 127) 5).toNat = q.toNat * (new 7 9).toNat + r.toNat ∧
      r.toNat < (new 7 9).toNat := by
  have hexact : EstimateExact (new (2 ^ 127) 5) (new 7 9) := by decide +kernel
  obtain ⟨q, r, hok, hvalue, hlt, -⟩ :=
    (div_exact_iff (x := new (2 ^ 127) 5) (v := new 7 9) (by decide +kernel)).2 fun _ _ => hexact
  exact ⟨q, r, by decide +kernel, by decide +kernel, hok, hvalue, hlt⟩

/-- The add-back step of the first digit panics. -/
theorem div_add_back_panics :
    (new (2 ^ 64) (2 ^ 64)).toNat ≠ 0 ∧
      (new (2 ^ 64) 0).div (new (2 ^ 64) (2 ^ 64)) true = .error .panicked := by
  decide +kernel

end U256Muldiv

end NemoSwap
