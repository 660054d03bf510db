import NemoSwap.Math.U256

set_option relaxedAutoImplicit false
set_option autoImplicit false

/-!
# `tick_math.rs`: ticks and square-root prices

A tick index `t` stands for the square-root price `1.0001 ^ (t / 2)`, as a Q64.64 number. The
price of a tick is a product of precomputed factors, one for each bit of the index; the tick of
a price is a binary logarithm with fourteen fractional bits, scaled to base `√1.0001` and
settled by one comparison of prices.

## Main definitions

* `NemoSwap.sqrtPriceFromTickIndex` — the price of a tick. For ticks above `443636` the product
  outgrows a `u128` and the source's `unwrap` panics.
* `NemoSwap.tickIndexFromSqrtPrice` — the tick of a price.
-/

namespace NemoSwap

/-- `MAX_SQRT_PRICE_X64`. -/
def maxSqrtPriceX64 : ℕ := 79226673515401279992447579055

/-- `MIN_SQRT_PRICE_X64`. -/
def minSqrtPriceX64 : ℕ := 4295048016

/-! ## The price of a tick -/

/-- `mul_shift_96`. -/
def mulShift96 (n0 n1 : ℕ) : Res ℕ :=
  match ((U256Muldiv.mulU256 n0 n1).shiftRight 96).tryIntoU128 with
  | .ok r => .ok r
  | .error _ => .error .panicked

/-- The factor `√1.0001` in Q32.96. -/
def positiveFactor : ℕ := 79232123823359799118286999567

/-- The factors of `get_sqrt_price_positive_tick` for bit `1` upwards: `√1.0001 ^ (2 ^ i)` in
Q32.96. -/
def positiveFactors : List ℕ :=
  [79236085330515764027303304731,
   79244008939048815603706035061,
   79259858533276714757314932305,
   79291567232598584799939703904,
   79355022692464371645785046466,
   79482085999252804386437311141,
   79736823300114093921829183326,
   80248749790819932309965073892,
   81282483887344747381513967011,
   83390072131320151908154831281,
   87770609709833776024991924138,
   97234110755111693312479820773,
   119332217159966728226237229890,
   179736315981702064433883588727,
   407748233172238350107850275304,
   2098478828474011932436660412517,
   55581415166113811149459800483533,
   38992368544603139932233054999993551]

/-- The factor `1 / √1.0001` in Q0.64. -/
def negativeFactor : ℕ := 18445821805675392311

/-- The factors of `get_sqrt_price_negative_tick` for bit `1` upwards:
`√1.0001 ^ (-2 ^ i)` in Q0.64. -/
def negativeFactors : List ℕ :=
  [18444899583751176498,
   18443055278223354162,
   18439367220385604838,
   18431993317065449817,
   18417254355718160513,
   18387811781193591352,
   18329067761203520168,
   18212142134806087854,
   17980523815641551639,
   17526086738831147013,
   16651378430235024244,
   15030750278693429944,
   12247334978882834399,
   8131365268884726200,
   3584323654723342297,
   696457651847595233,
   26294789957452057,
   37481735321082]

/-- The lines `if tick & bit != 0 { ratio = … }` of both functions, for bit `i` upwards. -/
def applyFactors (mul : ℕ → ℕ → Res ℕ) (tick : ℕ) : ℕ → List ℕ → ℕ → Res ℕ
  | _, [], ratio => .ok ratio
  | i, factor :: factors, ratio => do
    let ratio ← if tick &&& 2 ^ i ≠ 0 then mul ratio factor else .ok ratio
    applyFactors mul tick (i + 1) factors ratio

/-- `get_sqrt_price_positive_tick`. -/
def getSqrtPricePositiveTick (tick : ℕ) : Res ℕ := do
  let ratio := if tick &&& 1 ≠ 0 then positiveFactor else 79228162514264337593543950336
  let ratio ← applyFactors mulShift96 tick 1 positiveFactors ratio
  return ratio >>> 32

/-- `get_sqrt_price_negative_tick`, for the absolute value of the tick. -/
def getSqrtPriceNegativeTick (absTick : ℕ) : Res ℕ :=
  let ratio := if absTick &&& 1 ≠ 0 then negativeFactor else 18446744073709551616
  applyFactors (fun ratio factor => .ok ((ratio * factor % 2 ^ 128) >>> 64)) absTick 1
    negativeFactors ratio

/-- `sqrt_price_from_tick_index`. -/
def sqrtPriceFromTickIndex (tick : ℤ) : Res ℕ :=
  if tick ≥ 0 then getSqrtPricePositiveTick tick.natAbs else getSqrtPriceNegativeTick tick.natAbs

/-! ## The tick of a price -/

/-- `LOG_B_2_X32`. -/
def logB2X32 : ℤ := 59543866431248

/-- `BIT_PRECISION`. -/
def bitPrecision : ℕ := 14

/-- `LOG_B_P_ERR_MARGIN_LOWER_X64`: `0.01`. -/
def logBPErrMarginLowerX64 : ℤ := 184467440737095516

/-- `LOG_B_P_ERR_MARGIN_UPPER_X64`: `2 ^ -precision / log_2 b + 0.01`. -/
def logBPErrMarginUpperX64 : ℤ := 15793534762490258745

/-- The `while` loop of `tick_index_from_sqrt_price`: `count` more fractional bits of the binary
logarithm of `r`, added to `log2pFractionX64`. -/
def log2Loop : ℕ → ℕ → ℕ → ℕ → ℕ
  | 0, _, _, log2pFractionX64 => log2pFractionX64
  | count + 1, r, bit, log2pFractionX64 =>
    let r := r * r % 2 ^ 128
    let isRMoreThanTwo := r >>> 127
    log2Loop count (r >>> (63 + isRMoreThanTwo)) (bit >>> 1)
      (log2pFractionX64 + bit * isRMoreThanTwo)

/-- `try_into::<i32>().unwrap()`. -/
def unwrapI32 (n : ℤ) : Res ℤ := if -2 ^ 31 ≤ n ∧ n < 2 ^ 31 then .ok n else .error .panicked

/-- The binary logarithm of a price, as a signed Q32.32 number: `log2p_x32`. -/
def log2pX32 (sqrtPriceX64 : ℕ) : ℤ :=
  let msb := wrappingSub 32 (Nat.size sqrtPriceX64) 1
  let log2pIntegerX32 := ((msb : ℤ) - 64) * 2 ^ 32
  let r := if msb ≥ 64 then sqrtPriceX64 >>> (msb - 63) else sqrtPriceX64 <<< (63 - msb)
  let log2pFractionX32 := log2Loop bitPrecision r 0x8000_0000_0000_0000 0 >>> 32
  log2pIntegerX32 + log2pFractionX32

/-- `tick_index_from_sqrt_price`. -/
def tickIndexFromSqrtPrice (sqrtPriceX64 : ℕ) : Res ℤ := do
  let logbpX64 := log2pX32 sqrtPriceX64 * logB2X32
  let tickLow ← unwrapI32 ((logbpX64 - logBPErrMarginLowerX64) / 2 ^ 64)
  let tickHigh ← unwrapI32 ((logbpX64 + logBPErrMarginUpperX64) / 2 ^ 64)
  if tickLow = tickHigh then return tickLow
  else
    let actualTickHighSqrtPriceX64 ← sqrtPriceFromTickIndex tickHigh
    return if actualTickHighSqrtPriceX64 ≤ sqrtPriceX64 then tickHigh else tickLow

end NemoSwap
