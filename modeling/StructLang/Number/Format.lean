/-!
# Binary floating-point formats

A format stores a sign, a biased exponent and a fraction. `Format.decode` reads a bit pattern as an
exact value, and `Format.nearest` goes back: it gives the pattern nearest to a ratio of natural
numbers, and of two equally near ones the pattern with the even fraction.
-/

namespace StructLang

namespace CoreNumbers

-- Opened where powers and sums are to be those of the core library, whatever else is imported.
scoped instance (priority := 5000) natPow : Pow Nat Nat := instPowNat
scoped instance (priority := 5000) intPow : Pow Int Nat := instPowNat
scoped instance (priority := 5000) natZero : Zero Nat := Zero.ofOfNat0

end CoreNumbers

open scoped CoreNumbers

/-- Widths of the stored fields of a binary format. -/
structure Format where
  /-- Bits of the stored fraction. -/
  fraction : Nat
  /-- Bits of the biased exponent. -/
  exponent : Nat

namespace Format

/-- The format of doubles. -/
def double : Format := ⟨52, 11⟩

/-- The format of singles. -/
def single : Format := ⟨23, 8⟩

/-- The exponent of the least significant bit of a subnormal number. -/
def quantum (f : Format) : Int := 2 - 2 ^ (f.exponent - 1) - f.fraction

/-- The bit pattern of positive infinity. -/
def infinity (f : Format) : Nat := (2 ^ f.exponent - 1) * 2 ^ f.fraction

/-- The bit pattern that holds the sign alone. -/
def signBit (f : Format) : Nat := 2 ^ (f.exponent + f.fraction)

/-- What a bit pattern denotes. A finite value is `mantissa * 2 ^ exponent`, negated if `negative`. -/
inductive Value where
  | nan
  | infinite (negative : Bool)
  | finite (negative : Bool) (mantissa : Nat) (exponent : Int)

/-- Read a bit pattern. -/
def decode (f : Format) (bits : Nat) : Value :=
  let negative := decide (f.signBit ≤ bits)
  let magnitude := bits % f.signBit
  if f.infinity < magnitude then .nan
  else if magnitude = f.infinity then .infinite negative
  else
    let stored := magnitude / 2 ^ f.fraction
    let fraction := magnitude % 2 ^ f.fraction
    if stored = 0 then .finite negative fraction f.quantum
    else .finite negative (2 ^ f.fraction + fraction) (f.quantum + stored - 1)

/-- Attach a sign to the pattern of a magnitude. -/
def withSign (f : Format) (negative : Bool) (magnitude : Nat) : Nat :=
  if negative then f.signBit + magnitude else magnitude

end Format

/-- The natural number nearest to `num / den`; of two equally near ones the even one. -/
def roundDiv (num den : Nat) : Nat :=
  let low := num / den
  let rest := num % den
  if 2 * rest < den then low
  else if den < 2 * rest then low + 1
  else if low % 2 = 0 then low else low + 1

/-- The ratio `mantissa * 2 ^ exponent` as numerator and denominator. -/
def dyadic (mantissa : Nat) (exponent : Int) : Nat × Nat :=
  (mantissa * 2 ^ exponent.toNat, 2 ^ (-exponent).toNat)

/-- The exponent of the highest power of two that is at most `num / den`. -/
def log2Ratio (num den : Nat) : Int :=
  let guess : Int := (num.log2 : Int) - den.log2
  if den * 2 ^ guess.toNat ≤ num * 2 ^ (-guess).toNat then guess else guess - 1

/-- The bit pattern of the value nearest to `num / den`, with ties to the even fraction and
infinity beyond the largest finite value. -/
def Format.nearest (f : Format) (negative : Bool) (num den : Nat) : Nat :=
  if num = 0 then f.withSign negative 0
  else
    let least := f.quantum + f.fraction
    let top := max (log2Ratio num den) least
    let unit := top - f.fraction
    let mantissa := roundDiv (num * 2 ^ (-unit).toNat) (den * 2 ^ unit.toNat)
    f.withSign negative (min f.infinity ((top - least).toNat * 2 ^ f.fraction + mantissa))

end StructLang
