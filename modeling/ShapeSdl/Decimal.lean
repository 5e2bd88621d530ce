/-!
# Double-precision numbers and decimals

* `Double` : a number of the IEEE 754 binary64 format, held as its 64 bits, so that `2.0` and
  `-0.0` are values of their own and equality is decidable;
* `Double.mantissa`, `Double.scale` : a finite number has the magnitude `mantissa * 2 ^ scale`;
* `Double.isIntegral`, `Double.whole?` : whether a finite number is a whole number, and which one;
* `Double.ofDecimal` : the double nearest to a decimal, a half going to the even neighbour;
* `Decimal` : `digits * 10 ^ exponent`;
* `Double.shortest` : the decimal of fewest digits among those that round to a given double, and of
  these the nearest to it, an exact tie going to the even digit;
* `Decimal.Style`, `Double.render` : how digits and exponent are written down.

All of it is exact arithmetic on natural numbers. For 1, 2, … 17 digits the two neighbours of the
number on that decimal grid are tried: if any point of a grid rounds to the number, one of its two
neighbours does.
-/

namespace ShapeSdl

/-- A number of the binary64 format, by its bits. -/
structure Double where
  bits : UInt64
deriving DecidableEq

namespace Double

/-- The bit in front of the fraction, which is not stored: `2 ^ 52`. -/
def hiddenBit : Nat := 1 <<< 52

def negative (x : Double) : Bool := x.bits.toNat >>> 63 == 1

/-- The eleven bits of the exponent as they are stored. -/
def storedExponent (x : Double) : Nat := (x.bits.toNat >>> 52) % 2048

/-- The fifty-two bits below the exponent. -/
def fraction (x : Double) : Nat := x.bits.toNat % hiddenBit

def isFinite (x : Double) : Bool := x.storedExponent != 2047

def isNaN (x : Double) : Bool := !x.isFinite && x.fraction != 0

def isZero (x : Double) : Bool := x.storedExponent == 0 && x.fraction == 0

/-- The whole-number factor of a finite number's magnitude. -/
def mantissa (x : Double) : Nat :=
  if x.storedExponent = 0 then x.fraction else x.fraction + hiddenBit

/-- The power of two of a finite number's magnitude. -/
def scale (x : Double) : Int := (max x.storedExponent 1 : Nat) - 1075

def isIntegral (x : Double) : Bool :=
  x.isFinite && x.mantissa % (1 <<< (-x.scale).toNat) == 0

/-- The whole number that a number is. Both zeros are the whole number zero. -/
def whole? (x : Double) : Option Int :=
  if x.isIntegral then
    let magnitude : Int := (x.mantissa <<< x.scale.toNat) >>> (-x.scale).toNat
    some (if x.negative then -magnitude else magnitude)
  else none

/-! ## From bits and from decimals -/

/-- The bits of a magnitude below `2 ^ 63`, with a sign bit in front. -/
def ofMagnitude (negative : Bool) (bits : Nat) : Double :=
  ⟨UInt64.ofNat ((if negative then 1 <<< 63 else 0) + bits)⟩

def infinityBits : Nat := 2047 <<< 52

def infinity (negative : Bool) : Double := ofMagnitude negative infinityBits

def nan : Double := ofMagnitude false (infinityBits + 1 <<< 51)

/-- The whole number nearest to `num / den`, a half going to the even neighbour. -/
def roundRatio (num den : Nat) : Nat :=
  let q := num / den
  let twice := 2 * (num % den)
  if den < twice ∨ (twice = den ∧ q % 2 = 1) then q + 1 else q

/-- The position of the leading bit of `num / den`, the greatest `e` with `2 ^ e ≤ num / den`. -/
def leadingBit (num den : Nat) : Int :=
  let e : Int := (Nat.log2 num : Int) - Nat.log2 den
  if den <<< e.toNat ≤ num <<< (-e).toNat then e else e - 1

/-- The stored magnitude nearest to `num / den`, for positive `num` and `den`. A mantissa that
rounding carries to the next power of two carries into the exponent. -/
def nearestBits (num den : Nat) : Nat :=
  let q : Int := max (leadingBit num den - 52) (-1074)
  let m := roundRatio (num <<< (-q).toNat) (den <<< q.toNat)
  min infinityBits ((q + 1074).toNat * hiddenBit + m)

/-- The double nearest to `± digits * 10 ^ exponent`. Decimals far beyond the range are decided by
their magnitude alone. -/
def ofDecimal (negative : Bool) (digits : Nat) (exponent : Int) : Double :=
  let magnitude : Int := (Nat.toDigits 10 digits).length + exponent
  if digits = 0 ∨ magnitude < -330 then ofMagnitude negative 0
  else if 310 < magnitude then infinity negative
  else
    let num := digits * Nat.pow 10 exponent.toNat
    let den := Nat.pow 10 (-exponent).toNat
    ofMagnitude negative (nearestBits num den)

end Double

/-! ## Shortest decimals -/

structure Decimal where
  digits : Nat
  exponent : Int
deriving DecidableEq

/-- The exponent of the leading decimal digit of `num / den`. -/
def Decimal.leadingDigit (num den : Nat) : Int :=
  if den ≤ num then ((Nat.toDigits 10 (num / den)).length : Int) - 1
  else
    let d := (Nat.toDigits 10 (den / num)).length
    if den ≤ num * Nat.pow 10 (d - 1) then 1 - (d : Int) else -(d : Int)

/-- Drops up to `fuel` zeros at the end of the digits. -/
def Decimal.stripZeros : Nat → Decimal → Decimal
  | 0, d => d
  | fuel + 1, d =>
    if d.digits ≠ 0 ∧ d.digits % 10 = 0 then stripZeros fuel ⟨d.digits / 10, d.exponent + 1⟩ else d

namespace Double

/-- Four times the mantissa of the lower end, the number and the upper end of the interval of reals
that round to a positive finite number. Below a power of two the doubles lie twice as close. -/
def interval (x : Double) : Nat × Nat × Nat :=
  let m := x.mantissa
  (if x.fraction = 0 ∧ 1 < x.storedExponent then 4 * m - 1 else 4 * m - 2, 4 * m, 4 * m + 2)

/-- The decimal with `places` digits nearest to `x`, if it rounds to `x`. -/
def onGrid? (x : Double) (leading : Int) (places : Nat) : Option Decimal :=
  let grid : Int := leading - places + 1
  let quarter : Int := x.scale - 2
  let a := Nat.pow 10 (-grid).toNat <<< quarter.toNat
  let b := Nat.pow 10 grid.toNat <<< (-quarter).toNat
  let (low, mid, high) := x.interval
  let inside (c : Nat) : Bool :=
    if x.mantissa % 2 = 0 then low * a ≤ c * b && c * b ≤ high * a
    else low * a < c * b && c * b < high * a
  let c := mid * a / b
  let below := mid * a - c * b
  let above := (c + 1) * b - mid * a
  let downFirst := below < above ∨ (below = above ∧ c % 2 = 0)
  if inside c ∧ (downFirst ∨ ¬ inside (c + 1)) then some ⟨c, grid⟩
  else if inside (c + 1) then some ⟨c + 1, grid⟩
  else none

/-- The shortest decimal that rounds to the magnitude of a finite number, the nearest of these. -/
def shortest (x : Double) : Decimal :=
  if x.mantissa = 0 then ⟨0, 0⟩
  else
    let leading := Decimal.leadingDigit (x.mantissa <<< x.scale.toNat) (1 <<< (-x.scale).toNat)
    let found := (List.range 17).findSome? fun i => x.onGrid? leading (i + 1)
    (found.getD ⟨0, 0⟩).stripZeros 18

end Double

/-! ## Writing -/

/-- How a number is written: the exponents of the leading digit that are written out in positional
form, and the texts of what is not a finite number. -/
structure Decimal.Style where
  /-- The least exponent of the leading digit that is written positionally. -/
  firstPositional : Int
  /-- The least exponent above it that is not. -/
  pastPositional : Int
  exponentMark : String
  minExponentDigits : Nat
  infinity : String
  nan : String

/-- The digits with a point, at least one digit on each side of it. -/
def Decimal.positional (digits : List Char) (exponent : Int) : List Char :=
  let point : Int := digits.length + exponent
  if 0 ≤ exponent then digits ++ List.replicate exponent.toNat '0' ++ ['.', '0']
  else if 0 < point then digits.take point.toNat ++ '.' :: digits.drop point.toNat
  else '0' :: '.' :: List.replicate (-point).toNat '0' ++ digits

/-- One digit, the others behind a point, and the signed exponent of the first. -/
def Decimal.scientific (style : Decimal.Style) (digits : List Char) (leading : Int) : List Char :=
  let power := Nat.toDigits 10 leading.natAbs
  let padded := List.replicate (style.minExponentDigits - power.length) '0' ++ power
  digits.take 1 ++ (if digits.length ≤ 1 then [] else '.' :: digits.drop 1)
    ++ style.exponentMark.toList ++ (if leading < 0 then '-' else '+') :: padded

def Decimal.render (style : Decimal.Style) (d : Decimal) : List Char :=
  let digits := Nat.toDigits 10 d.digits
  let leading : Int := digits.length + d.exponent - 1
  if style.firstPositional ≤ leading ∧ leading < style.pastPositional then
    Decimal.positional digits d.exponent
  else Decimal.scientific style digits leading

def Double.render (style : Decimal.Style) (x : Double) : String :=
  if x.isNaN then style.nan
  else
    let sign := if x.negative then "-" else ""
    if x.isFinite then sign ++ String.ofList (x.shortest.render style) else sign ++ style.infinity

end ShapeSdl
