import StructLang.Number.Format

/-!
# Doubles and singles

A `Binary64` or `Binary32` is its bit pattern, so two of them are equal exactly when they are stored
alike. Arithmetic is exact and then rounded once with `Format.nearest`. An operation on a NaN gives
its first NaN operand, made quiet; an operation that has no value gives the negative quiet NaN.
-/

namespace StructLang

open scoped CoreNumbers

/-- A double, as its bit pattern. -/
structure Binary64 where
  bits : UInt64
deriving DecidableEq, Inhabited

/-- A single, as its bit pattern. -/
structure Binary32 where
  bits : UInt32
deriving DecidableEq, Inhabited

namespace Binary64

/-- What the bits denote. -/
def value (x : Binary64) : Format.Value := Format.double.decode x.bits.toNat

/-- The double of a pattern given as a natural number. -/
def ofPattern (bits : Nat) : Binary64 := ⟨UInt64.ofNat bits⟩

/-- The double nearest to `num / den`, negated if `negative`. -/
def nearest (negative : Bool) (num den : Nat) : Binary64 :=
  ofPattern (Format.double.nearest negative num den)

/-- The double nearest to an integer. -/
def ofInt (i : Int) : Binary64 := nearest (i < 0) i.natAbs 1

/-- The double nearest to `digits / 10 ^ places`. -/
def ofDecimal (digits places : Nat) : Binary64 := nearest false digits (10 ^ places)

def zero : Binary64 := ⟨0⟩

def negZero : Binary64 := ⟨0x8000000000000000⟩

def infinity (negative : Bool) : Binary64 :=
  if negative then ⟨0xFFF0000000000000⟩ else ⟨0x7FF0000000000000⟩

/-- The NaN of an operation that has no value. -/
def invalid : Binary64 := ⟨0xFFF8000000000000⟩

def negative (x : Binary64) : Bool := 0x8000000000000000 ≤ x.bits

/-- The pattern without its sign. -/
def magnitude (x : Binary64) : Nat := x.bits.toNat % Format.double.signBit

/-- A pattern that denotes no number. -/
def isNaN (x : Binary64) : Bool := Format.double.infinity < x.magnitude

/-- A number that is not infinite. -/
def isFinite (x : Binary64) : Bool := x.magnitude < Format.double.infinity

/-- Flip the sign bit. -/
def neg (x : Binary64) : Binary64 := ⟨x.bits ^^^ 0x8000000000000000⟩

/-- Set the quiet bit of a NaN. -/
def quiet (x : Binary64) : Binary64 := ⟨x.bits ||| 0x0008000000000000⟩

/-- Position on the number line, in the order of the values; both zeros stand at `0`. -/
def rank (x : Binary64) : Int := if x.negative then -(x.magnitude : Int) else x.magnitude

/-- Equality of values; false on a NaN. -/
def eq (x y : Binary64) : Bool := !x.isNaN && !y.isNaN && x.rank == y.rank

/-- Order of values; false on a NaN. -/
def lt (x y : Binary64) : Bool := !x.isNaN && !y.isNaN && decide (x.rank < y.rank)

/-- Weak order of values; false on a NaN. -/
def le (x y : Binary64) : Bool := !x.isNaN && !y.isNaN && decide (x.rank ≤ y.rank)

/-- A magnitude with its sign as an integer. -/
def signed (negative : Bool) (m : Nat) : Int := if negative then -(m : Int) else m

def add (x y : Binary64) : Binary64 :=
  match x.value, y.value with
  | .nan, _ => x.quiet
  | _, .nan => y.quiet
  | .infinite s, .infinite t => if s = t then x else invalid
  | .infinite _, _ => x
  | _, .infinite _ => y
  | .finite s m e, .finite t n k =>
    let low := min e k
    let sum := signed s m * 2 ^ (e - low).toNat + signed t n * 2 ^ (k - low).toNat
    if sum = 0 then (if s && t then negZero else zero)
    else
      let (num, den) := dyadic sum.natAbs low
      nearest (sum < 0) num den

def sub (x y : Binary64) : Binary64 :=
  if x.isNaN then x.quiet else if y.isNaN then y.quiet else x.add y.neg

def mul (x y : Binary64) : Binary64 :=
  let sign := x.negative != y.negative
  match x.value, y.value with
  | .nan, _ => x.quiet
  | _, .nan => y.quiet
  | .infinite _, .finite _ 0 _ => invalid
  | .finite _ 0 _, .infinite _ => invalid
  | .infinite _, _ => infinity sign
  | _, .infinite _ => infinity sign
  | .finite _ m e, .finite _ n k =>
    let (num, den) := dyadic (m * n) (e + k)
    nearest sign num den

def div (x y : Binary64) : Binary64 :=
  let sign := x.negative != y.negative
  match x.value, y.value with
  | .nan, _ => x.quiet
  | _, .nan => y.quiet
  | .infinite _, .infinite _ => invalid
  | .infinite _, _ => infinity sign
  | _, .infinite _ => nearest sign 0 1
  | .finite _ 0 _, .finite _ 0 _ => invalid
  | _, .finite _ 0 _ => infinity sign
  | .finite _ m e, .finite _ n k =>
    let (num, den) := dyadic m (e - k)
    nearest sign num (den * n)

/-- The integer toward zero, kept within 64 bits; zero for a NaN. -/
def toInt64 (x : Binary64) : Int64 :=
  match x.value with
  | .nan => 0
  | .infinite s => if s then Int64.minValue else Int64.maxValue
  | .finite s m e =>
    let (num, den) := dyadic m e
    let i := signed s (num / den)
    if i < Int64.minValue.toInt then Int64.minValue
    else if Int64.maxValue.toInt < i then Int64.maxValue
    else Int64.ofInt i

/-- The nearest single; a NaN keeps its sign and the top of its payload. -/
def toBinary32 (x : Binary64) : Binary32 :=
  match x.value with
  | .nan =>
    let payload := x.magnitude % 2 ^ (52 : Nat) / 2 ^ (29 : Nat)
    ⟨UInt32.ofNat (Format.single.withSign x.negative 0x7FC00000) ||| UInt32.ofNat payload⟩
  | .infinite s => ⟨UInt32.ofNat (Format.single.withSign s Format.single.infinity)⟩
  | .finite s m e =>
    let (num, den) := dyadic m e
    ⟨UInt32.ofNat (Format.single.nearest s num den)⟩

end Binary64

namespace Binary32

/-- What the bits denote. -/
def value (x : Binary32) : Format.Value := Format.single.decode x.bits.toNat

/-- A number that is not infinite. -/
def isFinite (x : Binary32) : Bool :=
  x.bits.toNat % Format.single.signBit < Format.single.infinity

/-- The same value as a double; a NaN becomes quiet. -/
def toBinary64 (x : Binary32) : Binary64 :=
  match x.value with
  | .nan =>
    let payload := x.bits.toNat % 2 ^ (23 : Nat) * 2 ^ (29 : Nat)
    let sign := decide (Format.single.signBit ≤ x.bits.toNat)
    (Binary64.ofPattern (Format.double.withSign sign (Format.double.infinity + payload))).quiet
  | .infinite s => Binary64.infinity s
  | .finite s m e =>
    let (num, den) := dyadic m e
    Binary64.nearest s num den

end Binary32

/-- Round a double to the nearest value that a single can hold. -/
def Binary64.toSingleRange (x : Binary64) : Binary64 := x.toBinary32.toBinary64

end StructLang
