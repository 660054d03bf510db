import NemoSwap.Math.BitMath

set_option relaxedAutoImplicit false
set_option autoImplicit false

/-!
# `u256_math.rs`: 256-bit integers as four words

The embedding of `U256Muldiv`: little-endian arrays of four `u64` words, with the word loops
of the source written as folds over the same index ranges. Intermediate `u128` values are
natural numbers; where the source uses a wrapping operation, or a plain one that could wrap
in a release build, the embedding wraps too.

## Main definitions

* `NemoSwap.U256Muldiv` — four words; `U256Muldiv.toNat` is the number they denote.
* `NemoSwap.U256Muldiv.shiftLeft`, `shiftRight`, `add`, `sub`, `lte`, `mulU256` — arithmetic.
* `NemoSwap.U256Muldiv.divLoop`, `U256Muldiv.div` — the hand-written long division. Its
  add-back step reads word `4` of the dividend when the extra carry word is in use, which is
  a panic.
-/

namespace NemoSwap

/-- `U256Muldiv`: words `items[0]` (least significant) to `items[3]`. -/
structure U256Muldiv where
  items : Vector UInt64 4
  deriving DecidableEq

/-- `LoHi::lo`: the low word of a `u128`. -/
def lo (n : ℕ) : ℕ := n % 2 ^ 64

/-- `LoHi::hi` and `hi_u128`: the high word of a `u128`. -/
def hi (n : ℕ) : ℕ := n / 2 ^ 64 % 2 ^ 64

/-- `hi_lo`. -/
def hiLo (h l : ℕ) : ℕ := h <<< 64 ||| l

namespace U256Muldiv

/-- `U256Muldiv::new`. -/
def new (h l : ℕ) : U256Muldiv :=
  ⟨#v[UInt64.ofNat (lo l), UInt64.ofNat (hi l), UInt64.ofNat (lo h), UInt64.ofNat (hi h)]⟩

/-- `get_word`, for an index in range; `0` out of range. -/
def getWord (x : U256Muldiv) (i : ℕ) : ℕ := if h : i < 4 then x.items[i].toNat else 0

/-- `update_word`, for an index in range. -/
def updateWord (x : U256Muldiv) (i v : ℕ) : U256Muldiv :=
  ⟨x.items.setIfInBounds i (UInt64.ofNat v)⟩

/-- The number denoted by the words. -/
def toNat (x : U256Muldiv) : ℕ := ∑ i ∈ Finset.range 4, x.getWord i * (2 ^ 64) ^ i

/-- The loop of `num_words`, from word `n - 1` down. -/
def numWordsBelow (x : U256Muldiv) : ℕ → ℕ
  | 0 => 0
  | i + 1 => if x.getWord i ≠ 0 then i + 1 else x.numWordsBelow i

/-- `num_words`. -/
def numWords (x : U256Muldiv) : ℕ := x.numWordsBelow 4

/-! ## Shifts -/

/-- `shift_word_left`. -/
def shiftWordLeft (x : U256Muldiv) : U256Muldiv :=
  [2, 1, 0].foldl (fun result i => result.updateWord (i + 1) (x.getWord i)) (new 0 0)

/-- `checked_shift_word_left`. -/
def checkedShiftWordLeft (x : U256Muldiv) : Option U256Muldiv :=
  if x.getWord 3 > 0 then none else some x.shiftWordLeft

/-- `shift_left`: whole words first, then the remaining bits in place from the top word
down. -/
def shiftLeft (x : U256Muldiv) (shiftAmount : ℕ) : U256Muldiv :=
  if shiftAmount ≥ 64 * 4 then new 0 0
  else
    let result := shiftWordLeft^[shiftAmount / 64] x
    let s := shiftAmount % 64
    if s = 0 then result
    else
      let result := [3, 2, 1].foldl (fun r i =>
        r.updateWord i ((r.getWord i <<< s) % 2 ^ 64 ||| r.getWord (i - 1) >>> (64 - s))) result
      result.updateWord 0 ((result.getWord 0 <<< s) % 2 ^ 64)

/-- `shift_word_right`. -/
def shiftWordRight (x : U256Muldiv) : U256Muldiv :=
  [0, 1, 2].foldl (fun result i => result.updateWord i (x.getWord (i + 1))) (new 0 0)

/-- `shift_right`: whole words first, then the remaining bits in place from the bottom word
up. -/
def shiftRight (x : U256Muldiv) (shiftAmount : ℕ) : U256Muldiv :=
  if shiftAmount ≥ 64 * 4 then new 0 0
  else
    let result := shiftWordRight^[shiftAmount / 64] x
    let s := shiftAmount % 64
    if s = 0 then result
    else
      let result := [0, 1, 2].foldl (fun r i =>
        r.updateWord i (r.getWord i >>> s ||| (r.getWord (i + 1) <<< (64 - s)) % 2 ^ 64)) result
      result.updateWord 3 (result.getWord 3 >>> s)

/-! ## Comparison, addition and subtraction -/

/-- The loop of `lt`, `gt`, `lte` and `gte`: compare words from `n - 1` down. -/
def cmpBelow (x y : U256Muldiv) : ℕ → Ordering
  | 0 => .eq
  | i + 1 =>
    match compare (x.getWord i) (y.getWord i) with
    | .eq => cmpBelow x y i
    | o => o

/-- `lte`. -/
def lte (x y : U256Muldiv) : Bool := cmpBelow x y 4 != .gt

/-- `try_into_u128`. -/
def tryIntoU128 (x : U256Muldiv) : Res ℕ :=
  if x.numWords > 2 then err .NumberDownCastError else .ok (hiLo (x.getWord 1) (x.getWord 0))

/-- `is_zero`. -/
def isZero (x : U256Muldiv) : Bool := (List.range 4).all fun i => x.getWord i = 0

/-- `add`. -/
def add (x y : U256Muldiv) : U256Muldiv :=
  ((List.range 4).foldl (fun (s : U256Muldiv × ℕ) i =>
    let t := x.getWord i + y.getWord i + s.2
    (s.1.updateWord i (lo t), hi t)) (new 0 0, 0)).1

/-- `sub`. -/
def sub (x y : U256Muldiv) : U256Muldiv :=
  ((List.range 4).foldl (fun (s : U256Muldiv × ℕ) i =>
    let t0 := wrappingSub 64 (x.getWord i) (y.getWord i)
    let overflowing0 := decide (x.getWord i < y.getWord i)
    let t1 := wrappingSub 64 t0 s.2
    let overflowing1 := decide (t0 < s.2)
    (s.1.updateWord i t1, if overflowing0 || overflowing1 then 1 else 0)) (new 0 0, 0)).1

/-! ## Multiplication -/

/-- `mul_u256`. -/
def mulU256 (v n : ℕ) : U256Muldiv :=
  let c0 := lo v * lo n
  let a1 := lo v * hi n
  let b0 := hi v * lo n
  let c1 := hi c0 + lo a1 + lo b0
  let c0 := hiLo (lo c1) (lo c0)
  let c1 := hi v * hi n + hi c1 + hi a1 + hi b0
  new c1 c0

/-! ## Division -/

/-- The `while` loop of `div_loop` that corrects the estimated quotient digit `qhat`. The
loop adds `d1`, a normalised top word of the divisor, to `rhat` in every iteration and stops
once `rhat` exceeds a word, so three iterations are more than it ever makes. -/
def correctQhat (d1 d1' : ℕ) : ℕ → ℕ → ℕ → ℕ → ℕ → Res ℕ
  | 0, _, _, _, _ => .error .outOfFuel
  | fuel + 1, qhat, rhat, cmp1, cmp2 =>
    if hi qhat ≠ 0 ∨ cmp2 > cmp1 then
      let qhat := wrappingSub 128 qhat 1
      let rhat := wrappingAdd 128 rhat d1
      if hi rhat ≠ 0 then .ok qhat
      else correctQhat d1 d1' fuel qhat rhat (hiLo (lo rhat) (lo cmp1))
        (wrappingSub 128 cmp2 d1')
    else .ok qhat

/-- The loop of `div_loop` that subtracts `qhat * divisor` from the window of the dividend
starting at word `index`; the second component is the borrow. -/
def mulSubLoop (qhat index n : ℕ) (divisor dividend : U256Muldiv) : U256Muldiv × ℕ :=
  (List.range n).foldl (fun (s : U256Muldiv × ℕ) i =>
    let p := qhat * divisor.getWord i
    let t := wrappingSub 128 (wrappingSub 128 (s.1.getWord (index + i)) s.2) (lo p)
    (s.1.updateWord (index + i) (lo t), wrappingSub 64 (hi p) (hi t))) (dividend, 0)

/-- The loop of `div_loop` that adds the divisor back; the second component is the carry. -/
def addBackLoop (index n : ℕ) (divisor dividend : U256Muldiv) : U256Muldiv × ℕ :=
  (List.range n).foldl (fun (s : U256Muldiv × ℕ) i =>
    let t := s.1.getWord (index + i) + divisor.getWord i + s.2
    (s.1.updateWord (index + i) (lo t), hi t)) (dividend, 0)

/-- `div_loop`. It returns the quotient, the dividend and the dividend's carry word. -/
def divLoop (index n : ℕ) (dividend : U256Muldiv) (carrySpace : ℕ) (divisor quotient : U256Muldiv) :
    Res (U256Muldiv × U256Muldiv × ℕ) := do
  let useCarry := decide (index + n = 4)
  let divHi := if useCarry then carrySpace else dividend.getWord (index + n)
  let d0 := hiLo divHi (dividend.getWord (index + n - 1))
  let d1 := divisor.getWord (n - 1)
  let qhat := d0 / d1
  let rhat := wrappingSub 128 d0 (d1 * qhat)
  let d0' := dividend.getWord (index + n - 2)
  let d1' := divisor.getWord (n - 2)
  let qhat ← correctQhat d1 d1' 3 qhat rhat (hiLo (lo rhat) d0') ((qhat * d1') % 2 ^ 128)
  let (dividend, k) := mulSubLoop qhat index n divisor dividend
  let dHead := if useCarry then carrySpace else dividend.getWord (index + n)
  let t := wrappingSub 128 dHead k
  let carrySpace := if useCarry then lo t else carrySpace
  let dividend := if useCarry then dividend else dividend.updateWord (index + n) (lo t)
  if k > dHead then
    let qhat := wrappingSub 128 qhat 1
    let (dividend, k) := addBackLoop index n divisor dividend
    -- `dividend.get_word_u128(index + n)` is evaluated also when the carry word is in use,
    -- where the index is `4` and out of bounds.
    if useCarry then .error .panicked
    else
      let newCarry := lo (dividend.getWord (index + n) + k)
      .ok (quotient.updateWord index (lo qhat), dividend.updateWord (index + n) newCarry,
        carrySpace)
  else .ok (quotient.updateWord index (lo qhat), dividend, carrySpace)

/-- The last loop of `div`: `div_loop` for `j = count - 1` down to `0`. -/
def divLoops (n : ℕ) (divisor : U256Muldiv) :
    ℕ → U256Muldiv → U256Muldiv → ℕ → Res (U256Muldiv × U256Muldiv)
  | 0, quotient, dividend, _ => .ok (quotient, dividend)
  | j + 1, quotient, dividend, carrySpace => do
    let (quotient, dividend, carrySpace) ← divLoop j n dividend carrySpace divisor quotient
    divLoops n divisor j quotient dividend carrySpace

/-- The loop of `div` for a one-word divisor: words `j = count - 1` down to `0`, with running
remainder `k`. -/
def divSmallLoop (dividend : U256Muldiv) (d2 : ℕ) : ℕ → U256Muldiv → ℕ → U256Muldiv × ℕ
  | 0, quotient, k => (quotient, k)
  | j + 1, quotient, k =>
    let d1 := hiLo (lo k) (dividend.getWord j)
    let q := d1 / d2
    divSmallLoop dividend d2 j (quotient.updateWord j (lo q)) (d1 - d2 * q)

/-- `leading_zeros` of a word. -/
def leadingZeros (w : ℕ) : ℕ := 64 - Nat.size w

/-- `div`. -/
def div (dividend divisor : U256Muldiv) (returnRemainder : Bool) :
    Res (U256Muldiv × U256Muldiv) :=
  let keep := fun (r : U256Muldiv) => if returnRemainder then r else new 0 0
  let m := dividend.numWords
  let n := divisor.numWords
  if n = 0 then .error .panicked
  else if m = 0 then .ok (new 0 0, new 0 0)
  else if m < n then .ok (new 0 0, keep dividend)
  else if m < 3 then do
    let dividend ← dividend.tryIntoU128
    let divisor ← divisor.tryIntoU128
    .ok (new 0 (dividend / divisor), keep (new 0 (dividend % divisor)))
  else if n = 1 then
    let (quotient, k) := divSmallLoop dividend (divisor.getWord 0) m (new 0 0) 0
    .ok (quotient, keep (new 0 k))
  else do
    let s := leadingZeros (divisor.getWord (n - 1))
    let b := leadingZeros (dividend.getWord (m - 1))
    let carrySpace := if m = 4 ∧ b < s then dividend.getWord (m - 1) >>> (64 - s) else 0
    let (quotient, rest) ←
      divLoops n (divisor.shiftLeft s) (m - n + 1) (new 0 0) (dividend.shiftLeft s) carrySpace
    .ok (quotient, keep (rest.shiftRight s))

end U256Muldiv

end NemoSwap
