import StructLang.Number.Decimal
import StructLang.Ssa.Basic
import StructLang.Text.Quoted

/-!
# Values of running SSA code

Values and the addresses of their parts. Memory is a row of slots, each with one value; an address is a
slot or a string constant with a path of field positions into it.
-/

namespace StructLang.Ssa

/-- Where a path of fields starts. -/
inductive Base where
  | slot (index : Nat)
  | global (name : String)
deriving DecidableEq

/-- A place in memory. -/
structure Address where
  base : Base
  path : List Nat
deriving DecidableEq

/-- Values at run time. A float of either width is kept in double precision. -/
inductive Value where
  | int (v : Int64)
  | float (v : Binary64)
  | ptr (address : Address)
  | aggregate (fields : List Value)
  | null

/-- The address in messages. -/
def Address.describe (a : Address) : String :=
  let base := match a.base with
    | .slot i => s!"Slot({i})"
    | .global name => s!"Global({Text.quoted name})"
  let path := ", ".intercalate (a.path.map toString)
  s!"Address \x7b base: {base}, path: [{path}] \x7d"

mutual

def Value.describe : Value → String
  | .int v => s!"Int({v.toInt})"
  | .float v => s!"Float({v.explicitText})"
  | .ptr a => s!"Ptr({a.describe})"
  | .aggregate fields => "Agg([" ++ ", ".intercalate (describeAll fields) ++ "])"
  | .null => "Null"

def describeAll : List Value → List String
  | [] => []
  | v :: vs => v.describe :: describeAll vs

end

/-- Why a run fails. -/
inductive Fault where
  | unknownStruct (name : String)
  | danglingSlot
  | loadFromConstant (name : String)
  | storeToConstant (name : String)
  | fieldOutOfRange
  | fieldOf (value : Value)
  | unknownString (name : String)
  | notAString (value : Value)
  | callDepth
  | unknownFunction (name : String)
  | printfWithoutFormat
  | putsWithoutText
  | unprintable (value : Value)
  | badFormat (message : String)
  | noForeign (name : String)
  | missingBlock
  | unterminated
  | branchOn (value : Value)
  | unreachable (func : String)
  | unset (r : Register)
  | missingArgument
  | notAPointer (value : Value)
  | badCast (op : CastOp) (value : Value)
  | divisionByZero
  /-- An operator of floats on integers. -/
  | onIntegers (op : String)
  /-- An operator of integers on floats. -/
  | onFloats (op : String)
  | onOperands (op : String) (left right : Value)

def Fault.message : Fault → String
  | unknownStruct name => s!"unknown struct {name}"
  | danglingSlot => "dangling slot"
  | loadFromConstant name => s!"load from constant @{name}"
  | storeToConstant name => s!"store to constant @{name}"
  | fieldOutOfRange => "field out of range"
  | fieldOf v => s!"field access on {v.describe}"
  | unknownString name => s!"unknown string @{name}"
  | notAString v => s!"expected a string, found {v.describe}"
  | callDepth => "call depth exceeded"
  | unknownFunction name => s!"call to unknown function '{name}'"
  | printfWithoutFormat => "printf without format"
  | putsWithoutText => "puts without string"
  | unprintable v => s!"cannot format {v.describe}"
  | badFormat message => message
  | noForeign name => s!"no runtime for extern '{name}'"
  | missingBlock => "jump to missing block"
  | unterminated => "fell off an unterminated block"
  | branchOn v => s!"branch on {v.describe}"
  | unreachable func => s!"reached unreachable in '{func}'"
  | unset r => s!"unset {registerName r}"
  | missingArgument => "missing argument"
  | notAPointer v => s!"expected a pointer, found {v.describe}"
  | badCast op v => s!"{op.name} applied to {v.describe}"
  | divisionByZero => "division by zero"
  | onIntegers op => s!"{op} on integers"
  | onFloats op => s!"{op} on floats"
  | onOperands op l r => s!"{op} on {l.describe} and {r.describe}"

namespace Value

/-- The part of a value at the end of a path. -/
def get : List Nat → Value → Except Fault Value
  | [], v => .ok v
  | i :: path, aggregate fields =>
    match fields[i]? with
    | some v => v.get path
    | none => .error .fieldOutOfRange
  | _ :: _, v => .error (.fieldOf v)

/-- A value with the part at the end of a path replaced. -/
def set (new : Value) : List Nat → Value → Except Fault Value
  | [], _ => .ok new
  | i :: path, aggregate fields =>
    match fields[i]? with
    | some v => do return aggregate (fields.set i (← set new path v))
    | none => .error .fieldOutOfRange
  | _ :: _, v => .error (.fieldOf v)

end Value

/-- An integer in the range of a type. -/
def wrap (v : Int64) : Ty → Int64
  | .i1 => v &&& 1
  | .i32 => v.toInt32.toInt64
  | _ => v

/-- A float in the precision of a type. -/
def round (v : Binary64) : Ty → Binary64
  | .f32 => v.toSingleRange
  | _ => v

/-- How far a shift goes: the amount modulo the width of the type. -/
def shiftAmount (v : Int64) (ty : Ty) : Int64 :=
  Int64.ofNat (v.toUInt64.toNat % max ty.bits 1)

/-- Arithmetic on integers, before it is brought into the range of the type. -/
def intArith (op : ArithOp) (ty : Ty) (a b : Int64) : Except Fault Int64 :=
  match op with
  | .add => .ok (a + b)
  | .sub => .ok (a - b)
  | .mul => .ok (a * b)
  | .sdiv => if b = 0 then .error .divisionByZero else .ok (a / b)
  | .srem => if b = 0 then .error .divisionByZero else .ok (a % b)
  | .and => .ok (a &&& b)
  | .or => .ok (a ||| b)
  | .xor => .ok (a ^^^ b)
  | .shl => .ok (a <<< shiftAmount b ty)
  | .ashr => .ok (a >>> shiftAmount b ty)
  | .fadd | .fsub | .fmul | .fdiv => .error (.onIntegers op.name)

/-- Arithmetic on floats, before it is brought into the precision of the type. -/
def floatArith (op : ArithOp) (a b : Binary64) : Except Fault Binary64 :=
  match op with
  | .fadd => .ok (a.add b)
  | .fsub => .ok (a.sub b)
  | .fmul => .ok (a.mul b)
  | .fdiv => .ok (a.div b)
  | _ => .error (.onFloats op.name)

/-- The value of an arithmetic instruction. -/
def arith (op : ArithOp) (ty : Ty) : Value → Value → Except Fault Value
  | .int a, .int b => do return .int (wrap (← intArith op ty a b) ty)
  | .float a, .float b => do return .float (round (← floatArith op a b) ty)
  | l, r => .error (.onOperands op.name l r)

def intCompare (pred : Predicate) (a b : Int64) : Except Fault Bool :=
  match pred with
  | .eq => .ok (a == b)
  | .ne => .ok (a != b)
  | .slt => .ok (a < b)
  | .sle => .ok (a ≤ b)
  | .sgt => .ok (b < a)
  | .sge => .ok (b ≤ a)
  | .oeq | .one | .olt | .ole | .ogt | .oge => .error (.onIntegers pred.name)

/-- A comparison of floats, false if one of them is not a number. -/
def floatCompare (pred : Predicate) (a b : Binary64) : Except Fault Bool :=
  match pred with
  | .oeq => .ok (a.eq b)
  | .one => .ok (!a.eq b && !a.isNaN && !b.isNaN)
  | .olt => .ok (a.lt b)
  | .ole => .ok (a.le b)
  | .ogt => .ok (b.lt a)
  | .oge => .ok (b.le a)
  | .eq | .ne | .slt | .sle | .sgt | .sge => .error (.onFloats pred.name)

def Value.ofBool (b : Bool) : Value := .int (if b then 1 else 0)

def compare (pred : Predicate) : Value → Value → Except Fault Value
  | .int a, .int b => Value.ofBool <$> intCompare pred a b
  | .float a, .float b => Value.ofBool <$> floatCompare pred a b
  | l, r => .error (.onOperands pred.name l r)

/-- The value of a conversion to a type. -/
def convert (op : CastOp) (target : Ty) (value : Value) : Except Fault Value :=
  match op, value with
  | .sext, .int i | .zext, .int i | .trunc, .int i => .ok (.int (wrap i target))
  | .sitofp, .int i => .ok (.float (round (Binary64.ofInt i.toInt) target))
  | .fptosi, .float f => .ok (.int (wrap f.toInt64 target))
  | .fpext, .float f | .fptrunc, .float f => .ok (.float (round f target))
  | op, v => .error (.badCast op v)

end StructLang.Ssa
