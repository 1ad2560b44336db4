import StructLang.Execution
import StructLang.Proofs.Typing

/-!
# What programs mean

The meaning of a program without foreign functions, on its syntax tree: what its entry point returns, or
why a run fails. Variables are numbered in the order in which a call declares them. Both kinds of code
are compared with it.
-/

namespace StructLang

namespace Meaning

/-- Values. A text can only be passed on. -/
inductive Value where
  | unit
  | bool (b : Bool)
  | int (v : Int64)
  | float (v : Binary64)
  | text
  | record (fields : List Value)
deriving Inhabited

/-- Why a run fails. -/
inductive Failure where
  | divisionByZero
  | callDepth
  /-- Control reaches the end of a function that has to return a value. -/
  | noReturn (func : String)

/-! ## Operators -/

def wrap (ty : Ty) (v : Int64) : Int64 := if ty = .i32 then v.toInt32.toInt64 else v

def narrow (ty : Ty) (v : Binary64) : Binary64 := if ty = .f32 then v.toSingleRange else v

/-- How far a shift goes: the amount modulo the width of the type. -/
def shift (ty : Ty) (v : Int64) : Int64 :=
  Int64.ofNat (v.toUInt64.toNat % if ty = .i32 then 32 else 64)

def intArith (op : BinaryOp) (ty : Ty) (a b : Int64) : Except Failure Int64 :=
  match op with
  | .add => .ok (wrap ty (a + b))
  | .sub => .ok (wrap ty (a - b))
  | .mul => .ok (wrap ty (a * b))
  | .div => if b = 0 then .error .divisionByZero else .ok (wrap ty (a / b))
  | .mod => if b = 0 then .error .divisionByZero else .ok (wrap ty (a % b))
  | .bitAnd => .ok (wrap ty (a &&& b))
  | .bitOr => .ok (wrap ty (a ||| b))
  | .bitXor => .ok (wrap ty (a ^^^ b))
  | .shl => .ok (wrap ty (a <<< shift ty b))
  | .shr => .ok (wrap ty (a >>> shift ty b))
  | .eq | .ne | .lt | .le | .gt | .ge => .ok a

/-- Arithmetic on floats, before the result is brought into the precision of the type. -/
def floatArith (op : BinaryOp) (a b : Binary64) : Binary64 :=
  match op with
  | .add => a.add b
  | .sub => a.sub b
  | .mul => a.mul b
  | .div => a.div b
  | _ => a

def arith (op : BinaryOp) (ty : Ty) : Value → Value → Except Failure Value
  | .int a, .int b => .int <$> intArith op ty a b
  | .float a, .float b => .ok (.float (narrow ty (floatArith op a b)))
  | v, _ => .ok v

def intCompare (op : BinaryOp) (a b : Int64) : Bool :=
  match op with
  | .eq => a == b
  | .ne => a != b
  | .lt => a < b
  | .le => a ≤ b
  | .gt => b < a
  | .ge => b ≤ a
  | _ => false

/-- A comparison of floats, false if one of them is not a number. -/
def floatCompare (op : BinaryOp) (a b : Binary64) : Bool :=
  match op with
  | .eq => a.eq b
  | .ne => !a.eq b && !a.isNaN && !b.isNaN
  | .lt => a.lt b
  | .le => a.le b
  | .gt => b.lt a
  | .ge => b.le a
  | _ => false

def compare (op : BinaryOp) : Value → Value → Bool
  | .int a, .int b => intCompare op a b
  | .bool a, .bool b => if op = .eq then a == b else a != b
  | .float a, .float b => floatCompare op a b
  | _, _ => false

def binary (op : BinaryOp) (ty : Ty) (a b : Value) : Except Failure Value :=
  if op.isComparison then .ok (.bool (compare op a b)) else arith op ty a b

def unary (op : UnaryOp) (ty : Ty) : Value → Value
  | .int v => .int (wrap ty (if op = .neg then -v else v ^^^ -1))
  | .bool b => .bool !b
  | .float v => .float (narrow ty (Binary64.negZero.sub v))
  | v => v

def convert (target : Ty) : Value → Value
  | .bool b => .int (if b then 1 else 0)
  | .int v =>
    if target = .bool then .bool (v != 0)
    else if target.isFloat then .float (narrow target (.ofInt v.toInt))
    else .int (wrap target v)
  | .float v =>
    if target.isInt then .int (wrap target v.toInt64) else .float (narrow target v)
  | v => v

/-- A conversion between types; one to the same type does nothing. -/
def cast (source target : Ty) (v : Value) : Value :=
  if source = target then v else convert target v

/-- The value with which a variable of a type starts, down to a depth of nested structs. -/
def zero (s : Symbols) : Nat → Ty → Value
  | _, .bool => .bool false
  | _, .i32 | _, .i64 => .int 0
  | _, .f32 | _, .f64 => .float .zero
  | _, .string => .text
  | _, .void | _, .unknown | _, .error => .unit
  | 0, .struct _ => .record []
  | depth + 1, .struct name =>
    .record (((s.struct? name).map fun d => d.fields.map fun g => zero s depth g.ty).getD [])

/-! ## Expressions -/

abbrev Call := String → List Value → Except Failure Value

def typeAt (f : Findings) (id : Nat) : Ty := f.types[id]?.getD .void

def symbolOf (s : Symbols) (name : String) (args : List Ty) : String :=
  match s.resolve name args with
  | .ok callee => callee.linkage
  | .error _ => name

def Value.field (index : Nat) : Value → Value
  | .record fields => fields[index]?.getD .unit
  | _ => .unit

section

variable (f : Findings) (call : Call) (scope : Scope Nat) (store : List Value)

mutual

def eval : Expr → Except Failure Value
  | .integer _ value long => .ok (.int (wrap (if long then .i64 else .i32) (Int64.ofNat value)))
  | .float _ value single =>
    let ty := if single then .f32 else .f64
    .ok (.float (narrow ty (narrow ty value)))
  | .bool _ value => .ok (.bool value)
  | .text _ _ => .ok .text
  | .var _ name => .ok (((scope.lookup? name).bind fun k => store[k]?).getD .unit)
  | .unary n op e => do return unary op (typeAt f n.id) (← eval e)
  | .binary _ op l r => do
    let a ← eval l
    let b ← eval r
    binary op (typeAt f l.id) a b
  | .cast _ e target => do return cast (typeAt f e.id) target (← eval e)
  | .call _ name args => do
    let vs ← evalAll args
    call (symbolOf f.symbols name (args.map fun e => typeAt f e.id)) vs
  | .construct _ _ args => do return .record (← evalAll args)
  | .access _ e member => do
    let v ← eval e
    return v.field (((f.symbols.field? (typeAt f e.id) member).map Prod.fst).getD 0)

def evalAll : List Expr → Except Failure (List Value)
  | [] => .ok []
  | e :: es => do
    let v ← eval e
    return v :: (← evalAll es)

end

end

/-! ## Statements -/

/-- How statements end. -/
inductive Outcome where
  | ret (v : Value)
  /-- Control goes on, with names and variables. -/
  | next (scope : Scope Nat) (store : List Value)

def Outcome.leave (scope : Scope Nat) : Outcome → Outcome
  | ret v => ret v
  | next _ store => next scope store

section

variable (f : Findings) (call : Call)

mutual

def exec (scope : Scope Nat) (store : List Value) : Stmt → Except Failure Outcome
  | .declare d => do
    let v ← match d.init with
      | some e => eval f call scope store e
      | none => .ok (zero f.symbols f.symbols.structs.length (typeAt f d.node.id))
    return .next (scope.define d.name store.length) (store ++ [v])
  | .assign _ name e => do
    let v ← eval f call scope store e
    return .next scope (((scope.lookup? name).map fun k => store.set k v).getD store)
  | .branch _ cond t e => do
    match ← eval f call scope store cond with
    | .bool true => return (← execBlock scope.push store t).leave scope
    | _ =>
      match e with
      | some b => return (← execBlock scope.push store b).leave scope
      | none => return .next scope store
  | .ret _ none => .ok (.ret .unit)
  | .ret _ (some e) => do return .ret (← eval f call scope store e)
  | .expr e => do
    let _ ← eval f call scope store e
    return .next scope store

/-- Run statements in order up to the first return. -/
def execStmts (scope : Scope Nat) (store : List Value) : List Stmt → Except Failure Outcome
  | [] => .ok (.next scope store)
  | s :: rest => do
    match ← exec scope store s with
    | .ret v => return .ret v
    | .next scope store => execStmts scope store rest

def execBlock (scope : Scope Nat) (store : List Value) : Block → Except Failure Outcome
  | .mk _ stmts => execStmts scope store stmts

end

end

/-! ## Functions -/

def paramNames (g : FnHeader) : List String :=
  (g.receiver.toList.map fun _ => "self") ++ g.params.map TypedName.name

/-- Bind names to variables in order, the first one to a given number. -/
def bindNames (scope : Scope Nat) : Nat → List String → Scope Nat
  | _, [] => scope
  | k, name :: rest => bindNames (scope.define name k) (k + 1) rest

def invoke (f : Findings) (call : Call) (g : FnDef) (args : List Value) : Except Failure Value := do
  match ← execBlock f call (bindNames Scope.empty.push 0 (paramNames g.toFnHeader)) args g.body with
  | .ret v => return v
  | .next .. => if g.ret = .void then return .unit else throw (.noReturn g.linkage)

/-- Call a function by its symbol while at most `depth` more calls may begin. -/
def callAt (p : Program) : Nat → Call
  | depth, name, args =>
    match p.functions.find? fun g => g.linkage == name with
    | none => .ok .unit
    | some g =>
      match depth with
      | 0 => .error .callDepth
      | depth + 1 => invoke p.findings (callAt p depth) g args

end Meaning

open Meaning

def Program.meaning (p : Program) : Except Failure Value := callAt p maxDepth entryPoint []

end StructLang
