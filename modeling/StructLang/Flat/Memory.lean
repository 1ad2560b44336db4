import StructLang.Flat.Basic
import StructLang.Number.Decimal
import StructLang.Text.Quoted
import StructLang.Text.Utf8

/-!
# Byte memory

Two regions of bytes: the data of a module from `dataBase` on, which cannot be written, and a stack
from `stackBase` on, which only grows. Values have fixed encodings, the low byte first.
-/

namespace StructLang.Flat

/-- The address of the first byte of the data. -/
def dataBase : Nat := 0x1000

/-- The address of the first byte of the stack. -/
def stackBase : Nat := 0x100000

/-- Values at run time. -/
inductive Value where
  | int (v : Int64)
  | single (v : Binary32)
  | double (v : Binary64)
deriving DecidableEq, Inhabited

/-- The value in messages. -/
def Value.describe : Value → String
  | int v => s!"Int({v.toInt})"
  | single v => s!"Single({v.explicitText})"
  | double v => s!"Double({v.explicitText})"

/-- Why a run fails. -/
inductive Fault where
  | notAnInteger (value : Value)
  | notAFloat (value : Value)
  | badAddress (address : Nat)
  | outOfBounds (address : Nat)
  | readOnly (address : Nat)
  | malformedText (error : Utf8.Malformed)
  | unknownType (name : String)
  | callDepth
  | printfWithoutFormat
  | putsWithoutText
  | badFormat (message : String)
  | noForeign (name : String)
  | unset (temp : String)
  | unknownGlobal (name : String)
  | argumentCount (func : String) (given : Nat)
  | unknownLabel (name : String)
  | noResult (func : String)
  | halted (func : String)
  | fellOff (func : String)
  | missingOperand (op : Op)
  | divisionByZero
  /-- A comparison of floats on integers. -/
  | compareIntegers (cond : Cond)
  /-- A comparison of integers on floats. -/
  | compareFloats (cond : Cond)
  | onIntegers (op : Op)
  | onFloats (op : Op)

def Fault.message : Fault → String
  | notAnInteger v => s!"expected an integer, found {v.describe}"
  | notAFloat v => s!"expected a float, found {v.describe}"
  | badAddress a => s!"bad address 0x{Text.hex a}"
  | outOfBounds a => s!"out of bounds access at 0x{Text.hex a}"
  | readOnly a => s!"write to read-only data at 0x{Text.hex a}"
  | malformedText e => e.message
  | unknownType name => s!"unknown type :{name}"
  | callDepth => "call depth exceeded"
  | printfWithoutFormat => "printf without format"
  | putsWithoutText => "puts without string"
  | badFormat message => message
  | noForeign name => s!"no runtime for extern '{name}'"
  | unset temp => s!"unset temporary %{temp}"
  | unknownGlobal name => s!"unknown global ${name}"
  | argumentCount func given => s!"'{func}' called with {given} arguments"
  | unknownLabel name => s!"jump to unknown label @{name}"
  | noResult func => s!"'{func}' returned nothing"
  | halted func => s!"hlt reached in '{func}'"
  | fellOff func => s!"fell off the end of '{func}'"
  | missingOperand op => s!"{op.name} is missing an operand"
  | divisionByZero => "division by zero"
  | compareIntegers cond => s!"c{cond.name} on integers"
  | compareFloats cond => s!"c{cond.name} on floats"
  | onIntegers op => s!"{op.name} on integers"
  | onFloats op => s!"{op.name} on floats"

namespace Value

def asInt : Value → Except Fault Int64
  | int v => .ok v
  | v => .error (.notAnInteger v)

/-- The float that a value is, in double precision. -/
def asFloat : Value → Except Fault Binary64
  | single v => .ok v.toBinary64
  | double v => .ok v
  | v => .error (.notAFloat v)

def asAddress (v : Value) : Except Fault Nat := do return (← v.asInt).toUInt64.toNat

/-- An address as a value. -/
def ofAddress (address : Nat) : Value := int (UInt64.ofNat address).toInt64

/-- A float in the precision of a class. -/
def ofFloat (v : Binary64) : Class → Value
  | .single => single v.toBinary32
  | _ => double v

end Value

/-- An integer in the range of a class. -/
def fit (v : Int64) : Class → Int64
  | .word => v.toInt32.toInt64
  | _ => v

/-- The low bytes of a number, the lowest first. -/
def littleEndian : Nat → Nat → List UInt8
  | 0, _ => []
  | width + 1, n => UInt8.ofNat n :: littleEndian width (n / 256)

/-- The number that bytes spell, the lowest first. -/
def ofLittleEndian : List UInt8 → Nat
  | [] => 0
  | b :: rest => b.toNat + 256 * ofLittleEndian rest

/-- How many bytes a class takes in memory. -/
def Class.width : Class → Nat
  | word | single => 4
  | long | double | aggregate _ => 8

/-- The value of a class that bytes spell. -/
def Class.decode (bytes : List UInt8) : Class → Value
  | word => .int (UInt32.ofNat (ofLittleEndian bytes)).toInt32.toInt64
  | long | aggregate _ => .int (UInt64.ofNat (ofLittleEndian bytes)).toInt64
  | single => .single ⟨UInt32.ofNat (ofLittleEndian bytes)⟩
  | double => .double ⟨UInt64.ofNat (ofLittleEndian bytes)⟩

/-- The bytes of a value stored as a class. -/
def Class.encode (v : Value) : Class → Except Fault (List UInt8)
  | word => do return littleEndian 4 (← v.asInt).toUInt64.toNat
  | long | aggregate _ => do return littleEndian 8 (← v.asInt).toUInt64.toNat
  | single => do return littleEndian 4 (← v.asFloat).toBinary32.bits.toNat
  | double => do return littleEndian 8 (← v.asFloat).bits.toNat

/-- The two regions. -/
structure Memory where
  data : Array UInt8
  stack : Array UInt8

namespace Memory

/-- The bytes of a region from an index on, if they are all there. -/
def slice? (region : Array UInt8) (start size : Nat) : Option (List UInt8) :=
  if start + size ≤ region.size then some (region.extract start (start + size)).toList else none

def read (m : Memory) (address size : Nat) : Except Fault (List UInt8) :=
  let found := if stackBase ≤ address then some (m.stack, address - stackBase)
    else if dataBase ≤ address then some (m.data, address - dataBase)
    else none
  match found with
  | none => .error (.badAddress address)
  | some (region, start) =>
    match slice? region start size with
    | some bytes => .ok bytes
    | none => .error (.outOfBounds address)

/-- Replace bytes of a region from an index on. -/
def overwrite (region : Array UInt8) : Nat → List UInt8 → Array UInt8
  | _, [] => region
  | start, b :: rest => overwrite (region.setIfInBounds start b) (start + 1) rest

def write (m : Memory) (address : Nat) (bytes : List UInt8) : Except Fault Memory :=
  if address < stackBase then .error (.readOnly address)
  else
    let start := address - stackBase
    if start + bytes.length ≤ m.stack.size then
      .ok { m with stack := overwrite m.stack start bytes }
    else .error (.outOfBounds address)

/-- The address that fresh stack space gets. -/
def aligned (m : Memory) (align : Nat) : Nat :=
  let a := max align 1
  (m.stack.size + a - 1) / a * a

/-- Fresh stack space of zero bytes, at least one, and its address. -/
def allocate (m : Memory) (size align : Nat) : Nat × Memory :=
  let start := m.aligned align
  (stackBase + start,
    { m with stack := m.stack ++ Array.replicate (start - m.stack.size + max size 1) 0 })

def load (m : Memory) (cls : Class) (address : Nat) : Except Fault Value := do
  return cls.decode (← m.read address cls.width)

def store (m : Memory) (cls : Class) (v : Value) (address : Nat) : Except Fault Memory := do
  m.write address (← cls.encode v)

def copy (m : Memory) (source target size : Nat) : Except Fault Memory := do
  m.write target (← m.read source size)

/-- The bytes from an address up to a zero byte. -/
def bytesUntilZero (m : Memory) : Nat → Nat → Except Fault (List UInt8)
  | 0, address => .error (.outOfBounds address)
  | steps + 1, address => do
    match ← m.read address 1 with
    | b :: _ => if b = 0 then return [] else return b :: (← m.bytesUntilZero steps (address + 1))
    | [] => return []

/-- The text from an address up to a zero byte. There are no more steps to take than bytes. -/
def text (m : Memory) (address : Nat) : Except Fault String := do
  let bytes ← m.bytesUntilZero (m.data.size + m.stack.size + 1) address
  (Utf8.decode bytes).mapError .malformedText

end Memory

end StructLang.Flat
