import StructLang.Number.Binary64

/-!
# Decimal text of binary numbers

`shortest` finds the fewest decimal digits that read back as the same value, and of those the
nearest; an exact tie goes up. The layouts write such digits positionally or with an exponent.
`fixedPlaces` writes the exact value rounded to a number of places, ties to even.
-/

namespace StructLang

open scoped CoreNumbers

/-- Digits `d1d2…` (most significant first) and the place of the point: the value is
`0.d1d2… * 10 ^ point`. -/
structure Decimal where
  digits : List Nat
  point : Int
deriving DecidableEq

namespace Decimal

/-- The decimal digits of a number, most significant first; none for zero. -/
def digitsOf (n : Nat) : List Nat :=
  if n = 0 then [] else (Nat.toDigits 10 n).map fun c => c.toNat - '0'.toNat

/-- Remove the zeros at the end. -/
def dropTrailingZeros (digits : List Nat) : List Nat :=
  (digits.reverse.dropWhile (· == 0)).reverse

/-- Compare `a * 10 ^ g` with `num / den` after clearing denominators. -/
def gridLe (a : Nat) (g : Int) (num den : Nat) : Bool :=
  a * 10 ^ g.toNat * den ≤ num * 10 ^ (-g).toNat

/-- Whether `num / den ≤ a * 10 ^ g`. -/
def leGrid (num den a : Nat) (g : Int) : Bool :=
  num * 10 ^ (-g).toNat ≤ a * 10 ^ g.toNat * den

/-- The least `k`, at most `fuel` steps above `start`, with `num / den < 10 ^ k`. -/
def pointFrom (num den : Nat) : Nat → Int → Int
  | 0, k => k
  | fuel + 1, k => if gridLe 1 k num den then pointFrom num den fuel (k + 1) else k

/-- The values that round to `mantissa * 2 ^ exponent`: the numerators of the lower end, of the value
and of the upper end over a common denominator. The lower neighbour is only half as far away when
`narrow`. -/
def roundingInterval (mantissa : Nat) (exponent : Int) (narrow : Bool) : Nat × Nat × Nat × Nat :=
  let (unit, den) := dyadic 1 (exponent - 2)
  ((4 * mantissa - (if narrow then 1 else 2)) * unit, 4 * mantissa * unit,
    (4 * mantissa + 2) * unit, den)

/-- Search the decimal grids from coarse to fine for one with a point in the interval. -/
def searchGrid (low mid high den : Nat) (closed : Bool) (point : Int) : Nat → Nat → Nat × Int
  | 0, n => (mid, point - n)
  | fuel + 1, n =>
    let g := point - n
    let down := mid * 10 ^ (-g).toNat / (den * 10 ^ g.toNat)
    let up := down + 1
    let downIn := if closed then leGrid low den down g else !gridLe down g low den
    let upIn := if closed then gridLe up g high den else !leGrid high den up g
    let upNearer := gridLe (down + up) g (2 * mid) den
    if downIn && !(upIn && upNearer) then (down, g)
    else if upIn then (up, g)
    else searchGrid low mid high den closed point fuel (n + 1)

/-- The shortest decimal that reads back as the positive value `mantissa * 2 ^ exponent` of the
format. -/
def shortest (f : Format) (mantissa : Nat) (exponent : Int) : Decimal :=
  let narrow := mantissa == 2 ^ f.fraction && decide (f.quantum < exponent)
  let (low, mid, high, den) := roundingInterval mantissa exponent narrow
  let start : Int := (log2Ratio mid den) * 3 / 10 - 1
  let point := pointFrom mid den 40 start
  let (n, g) := searchGrid low mid high den (mantissa % 2 == 0) point 20 1
  let digits := digitsOf n
  ⟨dropTrailingZeros digits, g + digits.length⟩

/-- Characters of digits. -/
def spell (digits : List Nat) : String :=
  String.ofList (digits.map fun d => Char.ofNat ('0'.toNat + d))

/-- A run of zeros. -/
def zeros (n : Nat) : String := String.ofList (List.replicate n '0')

/-- Positional notation; `ending` follows a number without a fraction. -/
def positional (ending : String) (d : Decimal) : String :=
  if d.point ≤ 0 then "0." ++ zeros (-d.point).toNat ++ spell d.digits
  else
    let k := d.point.toNat
    let n := d.digits.length
    if n ≤ k then spell d.digits ++ zeros (k - n) ++ ending
    else spell (d.digits.take k) ++ "." ++ spell (d.digits.drop k)

/-- One digit before the point, then the exponent of ten after `e`. -/
def scientific (d : Decimal) : String :=
  let rest := d.digits.drop 1
  spell (d.digits.take 1) ++ (if rest.isEmpty then "" else "." ++ spell rest)
    ++ "e" ++ toString (d.point - 1)

/-- How a format's decisions are written out: what a number without a fraction ends in, and which
points are written positionally. -/
structure Style where
  /-- Follows a number that has no fraction. -/
  ending : String
  /-- Whether a number with this place of the point is written positionally. -/
  isPositional : Int → Bool

/-- Every number is positional and an integral one has no fraction. -/
def plain : Style := ⟨"", fun _ => true⟩

/-- Numbers from `10 ^ -4` up to `10 ^ 16` are positional and keep a fraction; the others have an
exponent. -/
def explicit : Style := ⟨".0", fun point => -3 ≤ point && point ≤ 16⟩

/-- Text of a decoded value in a style. -/
def write (style : Style) (f : Format) : Format.Value → String
  | .nan => "NaN"
  | .infinite s => if s then "-inf" else "inf"
  | .finite s m e =>
    let sign := if s then "-" else ""
    if m = 0 then sign ++ "0" ++ style.ending
    else
      let d := Decimal.shortest f m e
      sign ++ (if style.isPositional d.point then d.positional style.ending else d.scientific)

end Decimal

/-- Text with the fewest digits, always positional: `2`, `0.5`, `100000000000000000000`. -/
def Binary64.plainText (x : Binary64) : String := Decimal.write Decimal.plain Format.double x.value

/-- Text with the fewest digits that always shows a fraction or an exponent: `2.0`, `1e16`. -/
def Binary64.explicitText (x : Binary64) : String :=
  Decimal.write Decimal.explicit Format.double x.value

/-- Text with the fewest digits that always shows a fraction or an exponent. -/
def Binary32.explicitText (x : Binary32) : String :=
  Decimal.write Decimal.explicit Format.single x.value

/-- The exact value rounded to `places` decimal places, ties to even. -/
def Binary64.fixedPlaces (places : Nat) (x : Binary64) : String :=
  match x.value with
  | .nan => "NaN"
  | .infinite s => if s then "-inf" else "inf"
  | .finite s m e =>
    let (num, den) := dyadic m e
    let scaled := roundDiv (num * 10 ^ places) den
    let fraction := toString (scaled % 10 ^ places)
    (if s then "-" else "") ++ toString (scaled / 10 ^ places) ++ "."
      ++ Decimal.zeros (places - fraction.length) ++ fraction

end StructLang
