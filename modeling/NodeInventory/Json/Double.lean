/-!
# Double-precision numbers

Finite numbers of 64-bit binary floating point, handled in exact integer arithmetic.

* `Double.ofDecimal` rounds a decimal number to the nearest double, ties to the even one; a number
  that rounds beyond the largest double has none.
* `Double.ofScientific` multiplies or divides by a power of ten in double arithmetic instead, so it
  rounds more than once and may miss the nearest double.
* `Double.shortest` is the shortest decimal that rounds back to the double, the nearest one of that
  length.
* `Double.text` writes it: positional while the decimal exponent is between -5 and 15, else with an
  exponent that always carries its sign.
-/

namespace NodeInventory

/-- The number of doubles from one power of two up to the next: `2 ^ 52`. -/
def Double.blockSize : Nat := Nat.pow 2 52

/-- A finite double: its sign, and the place of its magnitude when all finite magnitudes are
counted upwards from zero. The first block of places holds the subnormal numbers, and every further
block has twice the spacing of the one before it, but for the second. -/
structure Double where
  negative : Bool
  place : Nat
  place_lt : place < 2047 * Double.blockSize
deriving DecidableEq

namespace Double

/-- Positive and negative zero. -/
def zero (negative : Bool) : Double := ⟨negative, 0, by decide⟩

/-- Numerical equality: the two zeros are equal. -/
def same (a b : Double) : Bool :=
  a.place == b.place && (a.negative == b.negative || a.place == 0)

/-- The magnitude is `mantissa * 2 ^ exponent`. -/
def mantissa (d : Double) : Nat :=
  if d.place < blockSize then d.place else d.place % blockSize + blockSize

/-- The magnitude is `mantissa * 2 ^ exponent`. -/
def exponent (d : Double) : Int :=
  if d.place < blockSize then -1074 else (d.place / blockSize : Nat) - 1075

/-- The number `n * base ^ k`, or `n` itself if `k` is negative. The quotient of
`scaleUp base n k` and `scaleUp base m (-k)` is `n / m * base ^ k` for either sign. -/
def scaleUp (base n : Nat) (k : Int) : Nat := n * Nat.pow base k.toNat

/-! ### From a decimal number -/

/-- The quotient of two numbers rounded to the nearest integer, ties to the even one. -/
def roundDiv (num den : Nat) : Nat :=
  let q := num / den
  let r := 2 * (num % den)
  if r < den ∨ (r = den ∧ q % 2 = 0) then q else q + 1

/-- The largest `k` with `2 ^ k ≤ num / den`, for positive numbers. -/
def log2Quotient (num den : Nat) : Int :=
  let k : Int := (num.log2 : Int) - den.log2
  if scaleUp 2 num (-k) < scaleUp 2 den k then k - 1 else k

/-- The place of the double nearest to the positive number `num / den`; it may lie beyond the
largest finite one. -/
def nearestPlace (num den : Nat) : Nat :=
  let q : Int := max (log2Quotient num den - 52) (-1074)
  (q + 1074).toNat * blockSize + roundDiv (scaleUp 2 num (-q)) (scaleUp 2 den q)

/-- The double nearest to `num / den`, if it is finite. -/
def ofQuotient (negative : Bool) (num den : Nat) : Option Double :=
  if num = 0 then some (zero negative)
  else
    let place := nearestPlace num den
    if h : place < 2047 * blockSize then some ⟨negative, place, h⟩ else none

/-- The double nearest to `digits * 10 ^ scale`, if it is finite. The two outer cases only keep the
arithmetic small: the first number is above every double, the second below half the least one. -/
def ofDecimal (negative : Bool) (digits : Nat) (scale : Int) : Option Double :=
  if digits = 0 then some (zero negative)
  else if 400 < scale then none
  else if scale < -(400 + digits.log2 : Nat) then some (zero negative)
  else ofQuotient negative (scaleUp 10 digits scale) (scaleUp 10 1 (-scale))

/-! ### Arithmetic -/

/-- The product of two doubles, rounded, if it is finite. -/
def mul (a b : Double) : Option Double :=
  let e := a.exponent + b.exponent
  ofQuotient (a.negative != b.negative) (scaleUp 2 (a.mantissa * b.mantissa) e) (scaleUp 2 1 (-e))

/-- The quotient of two doubles, of which the second is not zero, rounded, if it is finite. -/
def div (a b : Double) : Option Double :=
  let e := a.exponent - b.exponent
  ofQuotient (a.negative != b.negative) (scaleUp 2 a.mantissa e) (scaleUp 2 b.mantissa (-e))

/-- The double nearest to a power of ten, of which `10 ^ 308` is the last finite one. -/
def powerOfTen (k : Nat) : Option Double := ofDecimal false 1 k

/-- A double divided so many times by `10 ^ 308`, unless it becomes zero, and then by a lower power
of ten. -/
def dividedBy (d : Double) : (turns k : Nat) → Option Double
  | 0, k => powerOfTen k >>= d.div
  | turns + 1, k =>
    if d.place = 0 then some d else powerOfTen 308 >>= d.div >>= fun d => d.dividedBy turns k

/-- A double times a power of ten, which is rounded to a double itself. -/
def scaled (d : Double) (scale : Int) : Option Double :=
  if 0 ≤ scale then if d.place = 0 then some d else powerOfTen scale.toNat >>= d.mul
  else
    let turns := (scale.natAbs - 1) / 308
    d.dividedBy turns (scale.natAbs - 308 * turns)

/-- The number `significand * 10 ^ scale`, its factors and the result rounded one by one. -/
def ofScientific (negative : Bool) (significand : Nat) (scale : Int) : Option Double :=
  ofQuotient negative significand 1 >>= fun d => d.scaled scale

/-! ### To a decimal number -/

/-- How `a * 10 ^ p` compares with `b * 2 ^ r`. -/
def compareScaled (a : Nat) (p : Int) (b : Nat) (r : Int) : Ordering :=
  compare (scaleUp 2 (scaleUp 10 a p) (-r)) (scaleUp 10 (scaleUp 2 b r) (-p))

/-- Whether `digits * 10 ^ scale` rounds to the magnitude of `d`. The interval of such numbers
reaches halfway to the neighbours, of which the lower one is closer at the start of a block, and it
holds its ends if the mantissa is even. -/
def reads (d : Double) (digits : Nat) (scale : Int) : Bool :=
  let m := d.mantissa
  let unit := d.exponent - 2
  let low := if m = blockSize ∧ d.exponent ≠ -1074 then 4 * m - 1 else 4 * m - 2
  let above := compareScaled digits scale low unit
  let below := compareScaled digits scale (4 * m + 2) unit
  (above == .gt && below == .lt) || (m % 2 == 0 && (above == .eq || below == .eq))

/-- The number of decimal digits of a number. -/
def decimalLength (n : Nat) : Nat := (Nat.toDigits 10 n).length

/-- The `x` with `10 ^ x ≤ num / den < 10 ^ (x + 1)`, for positive numbers. -/
def log10Quotient (num den : Nat) : Int :=
  if den ≤ num then (decimalLength (num / den) : Int) - 1
  else
    let j := decimalLength (den / num)
    if den ≤ scaleUp 10 num (j - 1) then -((j : Int) - 1) else -(j : Int)

/-- Of the two multiples of `10 ^ scale` next to the magnitude, the one that reads back as `d`; of
two such ones the nearer, and of two equally near ones the even. -/
def onGrid (d : Double) (scale : Int) : Option Nat :=
  let num := scaleUp 10 (scaleUp 2 d.mantissa d.exponent) (-scale)
  let den := scaleUp 10 (scaleUp 2 1 (-d.exponent)) scale
  let c := num / den
  if d.reads c scale then
    if d.reads (c + 1) scale then some (roundDiv num den) else some c
  else if d.reads (c + 1) scale then some (c + 1)
  else none

/-- A number without the zeros at its end, and a scale that makes up for them. -/
def stripZeros (n : Nat) (scale : Int) : Nat × Int :=
  if h : n ≠ 0 ∧ n % 10 = 0 then stripZeros (n / 10) (scale + 1) else (n, scale)
termination_by n
decreasing_by omega

/-- The shortest `digits` and the `scale` such that `digits * 10 ^ scale` rounds to the magnitude
of `d`, which is not zero. Seventeen digits always suffice. -/
def shortest (d : Double) : Nat × Int :=
  let x := log10Quotient (scaleUp 2 d.mantissa d.exponent) (scaleUp 2 1 (-d.exponent))
  let found := (List.range 17).findSome? fun (n : Nat) =>
    (d.onGrid (x - n)).map fun c => stripZeros c (x - n)
  found.getD (d.mantissa, d.exponent)

/-- The magnitude `digits * 10 ^ scale` in writing. -/
def decimalText (digits : Nat) (scale : Int) : List Char :=
  let ds := Nat.toDigits 10 digits
  let point : Int := ds.length + scale
  if 0 ≤ scale ∧ point ≤ 16 then ds ++ List.replicate scale.toNat '0' ++ ['.', '0']
  else if 0 < point ∧ point ≤ 16 then ds.take point.toNat ++ '.' :: ds.drop point.toNat
  else if -5 < point ∧ point ≤ 0 then
    '0' :: '.' :: (List.replicate (-point).toNat '0' ++ ds)
  else
    let fraction := match ds.tail with
      | [] => []
      | rest => '.' :: rest
    let sign := if point - 1 < 0 then '-' else '+'
    ds.take 1 ++ fraction ++ 'e' :: sign :: Nat.toDigits 10 (point - 1).natAbs

/-- The double in writing. -/
def text (d : Double) : List Char :=
  let magnitude :=
    if d.place = 0 then ['0', '.', '0']
    else decimalText d.shortest.1 d.shortest.2
  if d.negative then '-' :: magnitude else magnitude

end Double

end NodeInventory
