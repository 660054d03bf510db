import NemoSwap.Math.ExactAmounts

set_option relaxedAutoImplicit false
set_option autoImplicit false

/-!
# Laws of one step of a swap

What `compute_swap` promises of one call, and how two calls on the same liquidity compare: with
another target, and with the result of the first call as the amount of the second, in the
opposite mode.

## Main results

* `NemoSwap.computeSwap_exact` — the amounts of a step against the exact amounts of its price move.
* `NemoSwap.computeSwap_target_congr` — a step that stops short does not depend on its target, as
  long as the amount for reaching the target can be computed.
* `NemoSwap.computeSwap_inverse` — the two modes are inverse to each other, up to rounding.
-/

namespace NemoSwap

variable {remaining feeRate l cur target : ℕ} {input aToB : Bool} {r : SwapStepComputation}

/-- A price in the price range is positive, and a `u128`. -/
lemma price_bounds {p : ℕ} (hp : minSqrtPriceX64 ≤ p ∧ p ≤ maxSqrtPriceX64) :
    0 < p ∧ p < 2 ^ 128 := by
  unfold minSqrtPriceX64 maxSqrtPriceX64 at hp
  omega

/-- A price between two positive prices is positive. -/
lemma toward_pos {p q t : ℕ} (hp : 0 < p) (ht : 0 < t) (h : Toward aToB p q)
    (h' : Toward aToB q t) : 0 < q := by
  cases aToB
  · exact lt_of_lt_of_le hp h
  · exact lt_of_lt_of_le ht h'

/-! ## The next price -/

section NextPrice

variable {q a m : ℕ}

/-- An input that covers the move to a price reaches this price.

**Proof sketch.** In token A the price is rounded up and in token B down, and the input covers the
exact amount of the move. Both are inequalities between products, and a natural number that lies
between the targets of the rounding is on the right side. -/
theorem toward_getNextSqrtPrice (hl : l < 2 ^ 128) (hl0 : l ≠ 0) (hcur : cur < 2 ^ 128)
    (ha : a < 2 ^ 64) (hc : 0 < cur) (hq : 0 < q) (htow : Toward aToB cur q)
    (hle : inDelta aToB cur q l ≤ a) (h : getNextSqrtPrice cur l a true aToB = .ok m) :
    Toward aToB q m := by
  unfold getNextSqrtPrice at h
  cases aToB with
  | true =>
    rw [if_pos rfl] at h
    rw [toward_true] at htow ⊢
    have hle' : l * (cur - q) * 2 ^ 64 ≤ a * (cur * q) := by
      rw [← roundDiv_true_le_iff (by positivity)]
      simpa [inDelta, deltaA, min_eq_right htow, max_eq_left htow] using hle
    obtain ⟨d, rfl⟩ := Nat.exists_eq_add_of_le htow
    rw [Nat.add_sub_cancel_left] at hle'
    rcases getNextSqrtPriceFromA_eq_ok hcur hl ha h with ⟨rfl, rfl⟩ | ⟨-, -, -, hm, -⟩
    · have hd : d = 0 := by
        have h0 : l * d * 2 ^ 64 = 0 := by omega
        simpa [hl0] using h0
      omega
    · obtain ⟨hD, rfl⟩ := hm rfl
      rw [roundDiv_true_le_iff (Nat.pos_of_ne_zero hD)]
      nlinarith only [hle']
  | false =>
    rw [if_neg (by simp)] at h
    rw [toward_false] at htow ⊢
    have hle' : l * (q - cur) ≤ a * 2 ^ 64 := by
      rw [← roundDiv_true_le_iff (by positivity)]
      simpa [inDelta, deltaB, min_eq_left htow, max_eq_right htow] using hle
    obtain ⟨-, hm, -⟩ := getNextSqrtPriceFromB_eq_ok.1 h
    obtain ⟨-, rfl⟩ := hm rfl
    have hdiv : q - cur ≤ a * 2 ^ 64 / l := by
      rw [Nat.le_div_iff_mul_le (Nat.pos_of_ne_zero hl0), mul_comm]
      exact hle'
    omega

/-- An output that the move to a price covers does not go beyond this price.

**Proof sketch.** The output is at most the exact amount of the move. The price after it is rounded
toward the start, so it does not pass the price of the move. -/
theorem getNextSqrtPrice_toward (hl : l < 2 ^ 128) (hcur : cur < 2 ^ 128) (ha : a < 2 ^ 64)
    (htow : Toward aToB cur q) (hle : a ≤ outDelta aToB cur q l)
    (h : getNextSqrtPrice cur l a false aToB = .ok m) : Toward aToB m q := by
  unfold getNextSqrtPrice at h
  cases aToB with
  | true =>
    rw [if_neg (by simp)] at h
    rw [toward_true] at htow ⊢
    have hle' : a * 2 ^ 64 ≤ l * (cur - q) := by
      refine (Nat.mul_le_mul_right _ hle).trans ?_
      simp only [outDelta, deltaB, min_eq_right htow, max_eq_left htow, if_true]
      exact roundDiv_false_mul_le _ _
    obtain ⟨hl0, -, hm⟩ := getNextSqrtPriceFromB_eq_ok.1 h
    obtain ⟨-, rfl⟩ := hm rfl
    have hceil : roundDiv (a * 2 ^ 64) l true ≤ cur - q := by
      rw [roundDiv_true_le_iff (Nat.pos_of_ne_zero hl0), mul_comm (cur - q)]
      exact hle'
    omega
  | false =>
    rw [if_pos rfl] at h
    rw [toward_false] at htow ⊢
    have hle' : a * (q * cur) ≤ l * (q - cur) * 2 ^ 64 := by
      refine (Nat.mul_le_mul_right _ hle).trans ?_
      simp only [outDelta, deltaA, min_eq_left htow, max_eq_right htow, Bool.false_eq_true,
        if_false]
      exact roundDiv_false_mul_le _ _
    rcases getNextSqrtPriceFromA_eq_ok hcur hl ha h with ⟨-, rfl⟩ | ⟨-, -, -, -, hm⟩
    · exact htow
    · obtain ⟨hpa, rfl⟩ := hm rfl
      obtain ⟨k, hk⟩ := Nat.exists_eq_add_of_le hpa.le
      obtain ⟨d, rfl⟩ := Nat.exists_eq_add_of_le htow
      rw [Nat.add_sub_cancel_left] at hle'
      rw [roundDiv_true_le_iff (by omega), hk, Nat.add_sub_cancel_left]
      nlinarith only [hle', hk]

end NextPrice

/-! ## The fee -/

/-- The fee of a step is at least the fee on its input.

**Proof sketch.** A step that ends before its target with a specified input takes the whole rest as
its fee, which covers the fee on the input. Every other step takes exactly the fee on its input. -/
lemma feeOn_le_feeAmount (hl : l < 2 ^ 128) (hcur : cur < 2 ^ 128) (htarget : target < 2 ^ 128)
    (hrem : remaining < 2 ^ 64) (hfee : feeRate < feeRateMulValue) (hc : 0 < cur)
    (ht : 0 < target) (htow : Toward aToB cur target)
    (h : computeSwap remaining feeRate l cur target input aToB = .ok r) :
    feeOn r.amountIn feeRate ≤ r.feeAmount := by
  obtain ⟨hnext, hin, -, hfe, -⟩ := computeSwap_eq_ok hl hcur htarget hrem h
  have hcon := computeSwap_contract hl hcur htarget hrem hfee hc ht htow h
  by_cases hpart : input = true ∧ r.nextPrice ≠ target
  · -- the fee is what the input leaves of the amount
    obtain ⟨rfl, hne⟩ := hpart
    have hall := hcon.spent_all rfl hne
    rcases hnext with ⟨-, hn⟩ | ⟨hlt, hn⟩
    · exact absurd hn hne
    · obtain ⟨-, -, h3, -⟩ := getNextSqrtPrice_contract hl hcur (amountCalc_le.trans_lt hrem) hc ht
        htow hlt hn
      have hle := feeOn_le hfee (hin ▸ (h3 rfl).2)
      omega
  · rw [if_neg hpart] at hfe
    exact hfe.ge

/-- The fee on an input, as a rational bound. -/
lemma le_feeOn (amountIn : ℕ) (hfee : feeRate < feeRateMulValue) :
    (amountIn * feeRate : ℚ) / (feeRateMulValue - feeRate) ≤ feeOn amountIn feeRate := by
  have h := div_le_roundDiv (n := amountIn * feeRate) (d := feeRateMulValue - feeRate) (by omega)
  push_cast [Nat.cast_sub hfee.le] at h
  exact h

/-- The fee is monotone in the amount. -/
lemma feeOn_mono {x y : ℕ} (hfee : feeRate < feeRateMulValue) (h : x ≤ y) :
    feeOn x feeRate ≤ feeOn y feeRate :=
  roundDiv_mono (by omega) (Nat.mul_le_mul_right _ h) _

/-- An input together with its fee leaves exactly the input after the fee is taken off. -/
theorem amountCalc_add_feeOn (amountIn : ℕ) (hfee : feeRate < feeRateMulValue) :
    amountCalc true (amountIn + feeOn amountIn feeRate) feeRate = amountIn := by
  unfold amountCalc feeOn
  rw [if_pos rfl]
  obtain ⟨k, hk⟩ := Nat.exists_eq_add_of_lt hfee
  have hsub : feeRateMulValue - feeRate = k + 1 := by omega
  rw [hsub]
  have hle := le_roundDiv_true_mul (n := amountIn * feeRate) (show 0 < k + 1 by omega)
  have hlt := roundDiv_true_mul_lt (n := amountIn * feeRate) (show 0 < k + 1 by omega)
  generalize roundDiv (amountIn * feeRate) (k + 1) true = f at *
  rw [Nat.div_eq_iff (by norm_num [feeRateMulValue]), hk, add_mul, add_assoc feeRate, mul_add]
  omega

/-! ## One step -/

/-- **The contract of a step, in exact terms.**

**Proof sketch.** By `computeSwap_contract`, whose amounts are the exact ones rounded: the output
down, the input up, and the fee up. -/
theorem computeSwap_exact (hrem : remaining < 2 ^ 64) (hfee : feeRate < 2 ^ 16)
    (hl : l < 2 ^ 128) (hcur : minSqrtPriceX64 ≤ cur ∧ cur ≤ maxSqrtPriceX64)
    (htarget : minSqrtPriceX64 ≤ target ∧ target ≤ maxSqrtPriceX64)
    (htow : Toward aToB cur target)
    (h : computeSwap remaining feeRate l cur target input aToB = .ok r) :
    (Toward aToB cur r.nextPrice ∧ Toward aToB r.nextPrice target) ∧
      (input = true → r.amountIn + r.feeAmount ≤ remaining ∧
        (r.nextPrice ≠ target → r.amountIn + r.feeAmount = remaining)) ∧
      (input = false → r.amountOut ≤ remaining ∧
        (r.nextPrice ≠ target → r.amountOut = remaining)) ∧
      (l : ℚ) * (potential (tokenIn aToB) r.nextPrice - potential (tokenIn aToB) cur) ≤
        r.amountIn ∧
      (r.amountOut : ℚ) ≤
        l * (potential (tokenOut aToB) cur - potential (tokenOut aToB) r.nextPrice) ∧
      (r.amountIn * feeRate : ℚ) / (1000000 - feeRate) ≤ r.feeAmount := by
  obtain ⟨hc, hcur'⟩ := price_bounds hcur
  obtain ⟨ht, htarget'⟩ := price_bounds htarget
  have hfee' : feeRate < feeRateMulValue := hfee.trans (by norm_num [feeRateMulValue])
  have hcon := computeSwap_contract hl hcur' htarget' hrem hfee' hc ht htow h
  have hnext : 0 < r.nextPrice := toward_pos hc ht hcon.toward hcon.within
  refine ⟨⟨hcon.toward, hcon.within⟩, fun hi => ⟨hcon.spent hi, hcon.spent_all hi⟩,
    fun hi => ⟨hcon.received hi, hcon.received_all hi⟩, ?_, ?_, ?_⟩
  · rw [hcon.in_eq]
    exact le_inDelta hc hnext hcon.toward
  · have hout : (r.amountOut : ℚ) ≤ outDelta aToB cur r.nextPrice l := by
      exact_mod_cast hcon.out_le
    exact hout.trans (outDelta_le hc hcon.toward)
  · have h1 := le_feeOn r.amountIn hfee'
    have h2 : (feeOn r.amountIn feeRate : ℚ) ≤ r.feeAmount := by
      exact_mod_cast feeOn_le_feeAmount hl hcur' htarget' hrem hfee' hc ht htow h
    have h3 : ((feeRateMulValue : ℕ) : ℚ) = 1000000 := by norm_num [feeRateMulValue]
    rw [h3] at h1
    exact h1.trans h2

/-- A step that pays 1000 units of token B and stops short of its target. -/
theorem computeSwap_exact_buy : ∃ r,
    computeSwap 1000 3000 (2 ^ 64) (2 ^ 64) (2 ^ 64 + 2 ^ 63) true false = .ok r ∧
      r.amountIn + r.feeAmount = 1000 ∧
      (r.amountIn * (3000 : ℕ) : ℚ) / (1000000 - (3000 : ℕ)) ≤ r.feeAmount := by
  have hok : computeSwap 1000 3000 (2 ^ 64) (2 ^ 64) (2 ^ 64 + 2 ^ 63) true false =
      .ok ⟨997, 996, 2 ^ 64 + 997, 3⟩ := by decide +kernel
  obtain ⟨-, h1, -, -, -, h2⟩ := computeSwap_exact (by norm_num) (by norm_num) (by norm_num)
    (by decide +kernel) (by decide +kernel) (toward_false.2 (by norm_num)) hok
  exact ⟨_, hok, (h1 rfl).2 (by norm_num), h2⟩

/-! ## Another target -/

/-- A longer move has a larger specified amount. -/
lemma fixedDelta_mono {q m : ℕ} (hc : 0 < cur) (hq : 0 < q) (hm : 0 < m)
    (h : Toward aToB cur q) (h' : Toward aToB q m) :
    fixedDelta input aToB cur q l ≤ fixedDelta input aToB cur m l := by
  cases input with
  | true => exact inDelta_mono hc hq hm h h'
  | false => exact outDelta_mono hc hq h h'

/-- **A step that stops short does not depend on its target**, as long as the specified amount
for reaching the target can be computed: else the step fails with the error of this computation,
which comes first.

**Proof sketch.** The step has stopped short, so its amount falls short of the nearer target, and by
monotonicity of the farther one. Both steps then take the same branch, and nothing else reads the
target. -/
theorem computeSwap_target_congr {t1 t2 : ℕ} (hrem : remaining < 2 ^ 64)
    (hfee : feeRate < 2 ^ 16) (hl : l < 2 ^ 128)
    (hcur : minSqrtPriceX64 ≤ cur ∧ cur ≤ maxSqrtPriceX64)
    (ht1 : minSqrtPriceX64 ≤ t1 ∧ t1 ≤ maxSqrtPriceX64)
    (ht2 : minSqrtPriceX64 ≤ t2 ∧ t2 ≤ maxSqrtPriceX64) (htow1 : Toward aToB cur t1)
    (htow2 : Toward aToB t1 t2) (h : computeSwap remaining feeRate l cur t1 input aToB = .ok r)
    (hne : r.nextPrice ≠ t1) :
    computeSwap remaining feeRate l cur t2 input aToB =
      getAmountFixedDelta cur t2 l input aToB >>= fun _ => .ok r := by
  obtain ⟨hc, hcur'⟩ := price_bounds hcur
  obtain ⟨h1, ht1'⟩ := price_bounds ht1
  obtain ⟨h2, ht2'⟩ := price_bounds ht2
  have hfee' : feeRate < feeRateMulValue := hfee.trans (by norm_num [feeRateMulValue])
  have hcon := computeSwap_contract hl hcur' ht1' hrem hfee' hc h1 htow1 h
  have hne2 : r.nextPrice ≠ t2 := fun he =>
    hne (hcon.within.antisymm (he ▸ htow2))
  unfold computeSwap at h ⊢
  rcases hd2 : getAmountFixedDelta cur t2 l input aToB with e | d2
  · rfl
  simp only [Res.bind_eq_ok] at h
  obtain ⟨d1, hd1, ac, hac, next, hnext, u, hu, f, hf, fee, hfe, h⟩ := h
  rw [Res.pure_eq_ok, Except.ok.injEq] at h
  have hn : r.nextPrice = next := by rw [← h]
  rw [hn] at hne hne2
  -- the amount falls short of the nearer target, and so of the farther one
  have hlt1 : ¬ac ≥ d1 := fun hge => by
    rw [if_pos hge, Except.ok.injEq] at hnext
    exact hne hnext.symm
  have hle : d1 ≤ d2 := by
    rw [(getAmountFixedDelta_eq_ok hcur' ht1' hl hd1).1,
      (getAmountFixedDelta_eq_ok hcur' ht2' hl hd2).1]
    exact fixedDelta_mono hc h1 h2 htow1 htow2
  have hlt2 : ¬ac ≥ d2 := by omega
  rw [if_neg hlt1] at hnext
  simp only [decide_eq_false hne, Bool.not_false, if_true, Bool.and_true] at hf hfe h
  simp only [Res.ok_bind, hac, if_neg hlt2, hnext, hu, decide_eq_false hne2, Bool.not_false,
    if_true, Bool.and_true, hf, hfe]
  rw [Res.pure_eq_ok, h]

/-- The step above, with its target one further. -/
theorem computeSwap_target_congr_buy :
    computeSwap 1000 3000 (2 ^ 64) (2 ^ 64) (2 ^ 64 + 2 ^ 63 + 1) true false =
      .ok ⟨997, 996, 2 ^ 64 + 997, 3⟩ := by
  have hok : computeSwap 1000 3000 (2 ^ 64) (2 ^ 64) (2 ^ 64 + 2 ^ 63) true false =
      .ok ⟨997, 996, 2 ^ 64 + 997, 3⟩ := by decide +kernel
  rw [computeSwap_target_congr (by norm_num) (by norm_num) (by norm_num) (by decide +kernel)
    (by decide +kernel) (by decide +kernel) (toward_false.2 (by norm_num))
    (toward_false.2 (by norm_num)) hok (by norm_num)]
  decide +kernel

/-- A far target makes a step fail that a near one does not: the amount for reaching it does not
fit, though the step would stop far before. -/
theorem computeSwap_far_target :
    computeSwap 1000 3000 (2 ^ 64) (2 ^ 64) (2 ^ 64 + 2 ^ 63) true false =
        .ok ⟨997, 996, 2 ^ 64 + 997, 3⟩ ∧
      computeSwap 1000 3000 (2 ^ 64) (2 ^ 64) maxSqrtPriceX64 true false =
        err .MultiplicationShiftRightOverflow := by
  decide +kernel

/-! ## The opposite mode -/

/-- **The two modes are inverse to each other, up to rounding**: asking for the output of an
exact-input step costs at most its input and fee, and paying the input and fee of an exact-output
step gives at least its output.

**Proof sketch.** For an exact input the second step asks for the output of the first. The first
price covers this output, so the second one stops at most as far, and its input and fee are at most
those of the first. For an exact output the second step pays the input of the first: it goes at
least as far, its output is at least that of the first, and as it spends its whole amount its input
and fee are not smaller. -/
theorem computeSwap_inverse {amount : ℕ} {r' : SwapStepComputation} (hrem : remaining < 2 ^ 64)
    (hfee : feeRate < 2 ^ 16) (hl : l < 2 ^ 128)
    (hcur : minSqrtPriceX64 ≤ cur ∧ cur ≤ maxSqrtPriceX64)
    (htarget : minSqrtPriceX64 ≤ target ∧ target ≤ maxSqrtPriceX64)
    (htow : Toward aToB cur target)
    (h : computeSwap remaining feeRate l cur target input aToB = .ok r)
    (hamount : amount = if input then r.amountOut else r.amountIn + r.feeAmount)
    (hlt : amount < 2 ^ 64)
    (h' : computeSwap amount feeRate l cur target (!input) aToB = .ok r')
    (hne : r'.nextPrice ≠ target) :
    (input = true → r'.amountIn ≤ r.amountIn ∧ r'.feeAmount ≤ r.feeAmount) ∧
      (input = false → r.amountIn ≤ r'.amountIn ∧ r.feeAmount ≤ r'.feeAmount) ∧
      r.amountOut ≤ r'.amountOut ∧
      (if aToB = input then r.nextPrice ≤ r'.nextPrice else r'.nextPrice ≤ r.nextPrice) := by
  obtain ⟨hc, hcur'⟩ := price_bounds hcur
  obtain ⟨ht, htarget'⟩ := price_bounds htarget
  have hfee' : feeRate < feeRateMulValue := hfee.trans (by norm_num [feeRateMulValue])
  have hcon := computeSwap_contract hl hcur' htarget' hrem hfee' hc ht htow h
  have hcon' := computeSwap_contract hl hcur' htarget' hlt hfee' hc ht htow h'
  have hnext := toward_pos hc ht hcon.toward hcon.within
  have hnext' := toward_pos hc ht hcon'.toward hcon'.within
  obtain ⟨hn', -, -, hfe', -⟩ := computeSwap_eq_ok hl hcur' htarget' hlt h'
  obtain ⟨hlt', hn'⟩ : _ ∧ _ := hn'.resolve_left fun hr => hne hr.2
  have hl0 : l ≠ 0 := by
    rintro rfl
    rw [fixedDelta_zero] at hlt'
    exact absurd hlt' (Nat.not_lt_zero _)
  cases input with
  | true =>
    -- the second step asks for the output of the first, and stops at most as far
    rw [if_pos rfl] at hamount
    rw [Bool.not_true] at hn' hfe' hcon'
    have hback : Toward aToB r'.nextPrice r.nextPrice :=
      getNextSqrtPrice_toward hl hcur' hlt hcon.toward (hamount ▸ hcon.out_le) hn'
    have hin : r'.amountIn ≤ r.amountIn := by
      rw [hcon.in_eq, hcon'.in_eq]
      exact inDelta_mono hc hnext' hnext hcon'.toward hback
    refine ⟨fun _ => ⟨hin, ?_⟩, fun hf => absurd hf (by simp), ?_, ?_⟩
    · rw [if_neg (by simp)] at hfe'
      rw [hfe']
      exact (feeOn_mono hfee' hin).trans
        (feeOn_le_feeAmount hl hcur' htarget' hrem hfee' hc ht htow h)
    · rw [hcon'.received_all rfl hne, hamount]
    · cases aToB
      · exact hback
      · exact hback
  | false =>
    -- the second step pays the input of the first, and goes at least as far
    rw [if_neg (by simp)] at hamount
    rw [Bool.not_false] at hn' hcon'
    have hfe : r.feeAmount = feeOn r.amountIn feeRate := by
      have := (computeSwap_eq_ok hl hcur' htarget' hrem h).2.2.2.1
      rwa [if_neg (by simp)] at this
    have hcalc : amountCalc true amount feeRate = r.amountIn := by
      rw [hamount, hfe, amountCalc_add_feeOn r.amountIn hfee']
    rw [Bool.not_false, hcalc] at hlt'
    rw [hcalc] at hn'
    have hforth : Toward aToB r.nextPrice r'.nextPrice :=
      toward_getNextSqrtPrice hl hl0 hcur' hcon.in_lt hc hnext hcon.toward hcon.in_eq.ge hn'
    have hin : r.amountIn ≤ r'.amountIn := by
      rw [hcon.in_eq, hcon'.in_eq]
      exact inDelta_mono hc hnext hnext' hcon.toward hforth
    have hin' : r'.amountIn ≤ r.amountIn := by
      obtain ⟨-, -, h3, -⟩ := getNextSqrtPrice_contract hl hcur' hcon.in_lt hc ht htow hlt' hn'
      rw [hcon'.in_eq]
      exact (h3 rfl).2
    have hall := hcon'.spent_all rfl hne
    refine ⟨fun hf => absurd hf (by simp), fun _ => ⟨hin, by omega⟩, ?_, ?_⟩
    · have hout : r'.amountOut = outDelta aToB cur r'.nextPrice l := by
        have := (computeSwap_eq_ok hl hcur' htarget' hlt h').2.2.1
        rwa [Bool.not_false, if_pos rfl] at this
      rw [hout]
      exact hcon.out_le.trans (outDelta_mono hc hnext hcon.toward hforth)
    · cases aToB
      · exact hforth
      · exact hforth

/-- Asking for the output of the step above costs no more than it did. -/
theorem computeSwap_inverse_buy : ∃ r r',
    computeSwap 1000 3000 (2 ^ 64) (2 ^ 64) (2 ^ 64 + 2 ^ 63) true false = .ok r ∧
      computeSwap r.amountOut 3000 (2 ^ 64) (2 ^ 64) (2 ^ 64 + 2 ^ 63) false false = .ok r' ∧
      r'.amountIn ≤ r.amountIn ∧ r'.feeAmount ≤ r.feeAmount := by
  have hok : computeSwap 1000 3000 (2 ^ 64) (2 ^ 64) (2 ^ 64 + 2 ^ 63) true false =
      .ok ⟨997, 996, 2 ^ 64 + 997, 3⟩ := by decide +kernel
  have hok' : computeSwap 996 3000 (2 ^ 64) (2 ^ 64) (2 ^ 64 + 2 ^ 63) false false =
      .ok ⟨997, 996, 2 ^ 64 + 997, 3⟩ := by decide +kernel
  obtain ⟨h1, -⟩ := computeSwap_inverse (by norm_num) (by norm_num) (by norm_num)
    (by decide +kernel) (by decide +kernel) (toward_false.2 (by norm_num)) hok rfl (by norm_num)
    hok' (by norm_num)
  exact ⟨_, _, hok, hok', h1 rfl⟩

end NemoSwap
