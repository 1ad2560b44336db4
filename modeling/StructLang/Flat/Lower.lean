import StructLang.Flat.Basic
import StructLang.Layout
import StructLang.Lowering

/-!
# Lowering to flat code

Structs live in memory and are handled by address; a field is its struct's address plus an offset.
All stack space of a function is taken at the start of its body. An expression becomes a value or, if
it stands for a variable or a field, the address of one.
-/

namespace StructLang.Flat

/-- The class of temporaries that hold values of a source type. -/
def Class.ofSource : Ty → Except LoweringError Class
  | .bool | .i32 => .ok .word
  | .i64 | .string | .struct _ => .ok .long
  | .f32 => .ok .single
  | .f64 => .ok .double
  | ty => .error (.noClass ty)

/-- The class with which functions pass values of a source type. -/
def Class.passed : Ty → Except LoweringError Class
  | .struct name => .ok (.aggregate name)
  | ty => Class.ofSource ty

/-- The operation for an operator on operands of a source type. -/
def Op.ofSource (op : BinaryOp) (ty : Ty) : Except LoweringError Op :=
  match op, ty.isFloat with
  | .add, _ => .ok .add
  | .sub, _ => .ok .sub
  | .mul, _ => .ok .mul
  | .div, _ => .ok .div
  | .mod, false => .ok .rem
  | .bitAnd, false => .ok .and
  | .bitOr, false => .ok .or
  | .bitXor, false => .ok .xor
  | .shl, false => .ok .shl
  | .shr, false => .ok .sar
  | _, _ => .error (.unsupportedOperator op ty.name)

/-- The comparison for operands of a source type. -/
def Cond.ofSource (op : BinaryOp) (ty : Ty) : Except LoweringError Cond :=
  match op, ty.isFloat with
  | .eq, _ => .ok .eq
  | .ne, _ => .ok .ne
  | .lt, true => .ok .lt
  | .le, true => .ok .le
  | .gt, true => .ok .gt
  | .ge, true => .ok .ge
  | .lt, false => .ok .slt
  | .le, false => .ok .sle
  | .gt, false => .ok .sgt
  | .ge, false => .ok .sge
  | _, _ => .error (.unsupportedOperator op ty.name)

/-- The storage of a name. -/
structure Slot where
  temp : String
  ty : Ty
  /-- The slot holds the address of the value and not the value. -/
  byReference : Bool

/-- A function under construction, with what is numbered through the whole module. -/
structure Draft where
  data : List Datum
  nextTemp : Nat
  nextLabel : Nat
  /-- The instructions that take stack space. -/
  slots : List Instr
  body : List Instr

/-- A step of lowering. -/
abbrev Lower := StateT Draft (Except LoweringError)

/-- What lowering looks up. -/
structure Env where
  types : TypeTable
  symbols : Symbols
  layouts : Layouts

namespace Lower

/-- The layout of a struct. -/
def layoutOf (env : Env) (name : String) : Except LoweringError StructLayout :=
  match env.layouts.get? name with
  | some l => .ok l
  | none => .error (.unknownStruct name)

/-- A number that no temporary has yet. -/
def freshNumber : Lower Nat :=
  modifyGet fun d => (d.nextTemp, { d with nextTemp := d.nextTemp + 1 })

/-- A name that no temporary has yet. -/
def freshTemp : Lower String := do return s!".t{← freshNumber}"

/-- A name that no label has yet. -/
def freshLabel : Lower String :=
  modifyGet fun d => (s!".L{d.nextLabel}", { d with nextLabel := d.nextLabel + 1 })

def emit (i : Instr) : Lower Unit := modify fun d => { d with body := d.body ++ [i] }

/-- Add an operation with a fresh temporary. -/
def assign (cls : Class) (op : Op) (args : List Operand) : Lower Operand := do
  let dest ← freshTemp
  emit (.assign dest cls op args)
  return .temp dest

/-- Whether control does not go on after the last instruction. -/
def isTerminated : Lower Bool := do
  return ((← get).body.getLast?.map Instr.isJump).getD false

/-- Add an instruction unless control does not get there. -/
def emitIfOpen (i : Instr) : Lower Unit := do
  if !(← isTerminated) then emit i

/-- The alignment of stack space for a type. -/
def alignOf (env : Env) (ty : Ty) : Except LoweringError Nat :=
  match ty with
  | .struct name => do return (← layoutOf env name).align
  | ty => .ok (if 8 ≤ env.layouts.sizeOf ty then 8 else 4)

/-- Stack space for a value of a type, with a hint of its use in the name. -/
def allocate (env : Env) (ty : Ty) (hint : String) : Lower String := do
  let align ← alignOf env ty
  let slot := s!"{hint}.{← freshNumber}"
  let size := Int64.ofNat (env.layouts.sizeOf ty)
  modify fun d => { d with slots := d.slots ++ [.assign slot .long (.alloc align) [.int size]] }
  return slot

/-- The datum with a text; equal texts have one datum. -/
def intern (text : String) : Lower Operand := do
  match (← get).data.find? fun d => d.value == text with
  | some d => return .global d.name
  | none =>
    let name := s!".str{(← get).data.length}"
    modify fun d => { d with data := d.data ++ [⟨name, text⟩] }
    return .global name

/-- The address of the value for which a slot stands. -/
def slotAddress (slot : Slot) : Lower Operand :=
  if slot.byReference then assign .long (.load .long) [.temp slot.temp]
  else pure (.temp slot.temp)

/-- Write a value to memory; a struct is copied. -/
def store (env : Env) (ty : Ty) (v address : Operand) : Lower Unit := do
  if ty.isStruct then emit (.blit v address (env.layouts.sizeOf ty))
  else emit (.store (← Class.ofSource ty) v address)

/-- Write zero words into a struct, the next one at an offset. -/
def zeroWords (address : Operand) : Nat → Nat → Lower Unit
  | 0, _ => pure ()
  | words + 1, offset => do
    let target ← if offset = 0 then pure address
      else assign .long .add [address, .int (Int64.ofNat offset)]
    emit (.store .word (.int 0) target)
    zeroWords address words (offset + 4)

/-- Write the zero of a type to memory. -/
def storeZero (env : Env) (ty : Ty) (address : Operand) : Lower Unit :=
  match ty with
  | .struct _ => zeroWords address ((env.layouts.sizeOf ty + 3) / 4) 0
  | .f32 => emit (.store .single (.single ⟨0⟩) address)
  | .f64 => emit (.store .double (.double .zero) address)
  | ty => do emit (.store (← Class.ofSource ty) (.int 0) address)

end Lower

/-- What an expression becomes. -/
inductive Lowered where
  | value (ty : Ty) (v : Operand)
  /-- The address of the expression's value. -/
  | place (ty : Ty) (address : Operand)

namespace Lowered

/-- The value itself; a place is read, and a struct is its address. -/
def toValue : Lowered → Lower Operand
  | value _ v => pure v
  | place ty address => do
    if ty.isStruct then return address
    let cls ← Class.ofSource ty
    Lower.assign cls (.load cls) [address]

/-- An address of the value; a scalar without storage goes to fresh stack space. -/
def toAddress (env : Env) : Lowered → Lower Operand
  | place _ address => pure address
  | value ty v => do
    if ty.isStruct then return v
    let slot ← Lower.allocate env ty "spill"
    Lower.store env ty v (.temp slot)
    return .temp slot

end Lowered

/-- The offset of a member of a type. -/
def memberOffset (env : Env) (ty : Ty) (member : String) : Except LoweringError Nat :=
  match ty.structName? with
  | none => .error (.memberOf ty)
  | some struct => do
    match (← Lower.layoutOf env struct).offset? member with
    | some offset => return offset
    | none => throw (.unknownField struct member)

/-- A literal in the range of its type. -/
def intLiteral (value : Nat) (ty : Ty) : Operand :=
  let v := Int64.ofNat value
  .int (if ty = .i32 then v.toInt32.toInt64 else v)

/-- A literal in the precision of its type. -/
def floatLiteral (value : Binary64) (ty : Ty) : Operand :=
  if ty = .f32 then .single value.toBinary32 else .double value

/-- The operation of a unary operator and its operands. -/
def unaryOp (op : UnaryOp) (v : Operand) : Op × List Operand :=
  match op with
  | .neg => (.neg, [v])
  | .not => (.xor, [v, .int 1])
  | .bitNot => (.xor, [v, .int (-1)])

/-- The class, the operation and the operands of a conversion. -/
def castOp (v : Operand) (source target : Ty) :
    Except LoweringError (Class × Op × List Operand) :=
  match source, target with
  | .bool, .i32 => .ok (.word, .copy, [v])
  | .bool, .i64 => .ok (.long, .extuw, [v])
  | .i32, .bool => .ok (.word, .compare .ne .word, [v, .int 0])
  | .i64, .bool => .ok (.word, .compare .ne .long, [v, .int 0])
  | .i32, .i64 => .ok (.long, .extsw, [v])
  | .i64, .i32 => .ok (.word, .copy, [v])
  | .i32, .f32 => .ok (.single, .swtof, [v])
  | .i32, .f64 => .ok (.double, .swtof, [v])
  | .i64, .f32 => .ok (.single, .sltof, [v])
  | .i64, .f64 => .ok (.double, .sltof, [v])
  | .f32, .i32 => .ok (.word, .stosi, [v])
  | .f32, .i64 => .ok (.long, .stosi, [v])
  | .f64, .i32 => .ok (.word, .dtosi, [v])
  | .f64, .i64 => .ok (.long, .dtosi, [v])
  | .f32, .f64 => .ok (.double, .exts, [v])
  | .f64, .f32 => .ok (.single, .truncd, [v])
  | _, _ => .error (.unsupportedCast source target)

def lowerCast (v : Operand) (source target : Ty) : Lower Operand :=
  if source = target then pure v
  else do
    let (cls, op, args) ← castOp v source target
    Lower.assign cls op args

/-- Call a function whose arguments are lowered; a call without a result counts as zero. -/
def lowerCall (callee : Callee) (args : List (Class × Operand)) : Lower Operand := do
  if callee.ret = .void then
    Lower.emit (.call none callee.linkage args)
    return .int 0
  else
    let dest ← Lower.freshTemp
    Lower.emit (.call (some (dest, ← Class.passed callee.ret)) callee.linkage args)
    return .temp dest

mutual

def lowerExpr (env : Env) (scope : Scope Slot) : Expr → Lower Lowered
  | e@(.integer _ value _) => do
    let ty ← env.types.typeOf e
    return .value ty (intLiteral value ty)
  | e@(.float _ value _) => do
    let ty ← env.types.typeOf e
    return .value ty (floatLiteral value ty)
  | e@(.bool _ value) => do
    let ty ← env.types.typeOf e
    return .value ty (.int (if value then 1 else 0))
  | e@(.text _ value) => do
    let ty ← env.types.typeOf e
    return .value ty (← Lower.intern value)
  | e@(.var _ name) => do
    let ty ← env.types.typeOf e
    return .place ty (← Lower.slotAddress (← scope.storage name))
  | e@(.unary _ op operand) => do
    let ty ← env.types.typeOf e
    let v ← (← lowerExpr env scope operand).toValue
    let cls ← Class.ofSource ty
    let (op, args) := unaryOp op v
    return .value ty (← Lower.assign cls op args)
  | e@(.binary _ op left right) => do
    let ty ← env.types.typeOf e
    let operandTy ← env.types.typeOf left
    let l ← (← lowerExpr env scope left).toValue
    let r ← (← lowerExpr env scope right).toValue
    let cls ← Class.ofSource operandTy
    if op.isComparison then
      let cond ← Cond.ofSource op operandTy
      return .value ty (← Lower.assign .word (.compare cond cls) [l, r])
    else
      let op ← Op.ofSource op operandTy
      return .value ty (← Lower.assign cls op [l, r])
  | e@(.cast _ operand target) => do
    let ty ← env.types.typeOf e
    let source ← env.types.typeOf operand
    let v ← (← lowerExpr env scope operand).toValue
    return .value ty (← lowerCast v source target)
  | e@(.call _ name args) => do
    let ty ← env.types.typeOf e
    let callee ← env.symbols.callee name (← env.types.typesOf args)
    let lowered ← lowerArgs env scope callee.hasReceiver args
    return .value ty (← lowerCall callee lowered)
  | e@(.construct _ name args) => do
    let ty ← env.types.typeOf e
    let layout ← Lower.layoutOf env name
    let slot ← Lower.allocate env ty "new"
    lowerFields env scope (.temp slot) layout.fields args
    return .value ty (.temp slot)
  | e@(.access _ object member) => do
    let ty ← env.types.typeOf e
    let offset ← memberOffset env (← env.types.typeOf object) member
    let base ← (← lowerExpr env scope object).toAddress env
    return .place ty (← Lower.assign .long .add [base, .int (Int64.ofNat offset)])

/-- Lower arguments from left to right, the first by address if it is a receiver. -/
def lowerArgs (env : Env) (scope : Scope Slot) :
    Bool → List Expr → Lower (List (Class × Operand))
  | _, [] => pure []
  | receiver, e :: rest => do
    let lowered ← lowerExpr env scope e
    let arg ← if receiver then pure (Class.long, ← lowered.toAddress env)
      else
        let v ← lowered.toValue
        pure (← Class.passed (← env.types.typeOf e), v)
    return arg :: (← lowerArgs env scope false rest)

/-- Store values into the given fields of the struct at an address. -/
def lowerFields (env : Env) (scope : Scope Slot) (base : Operand) :
    List FieldLayout → List Expr → Lower Unit
  | field :: fields, e :: rest => do
    let v ← (← lowerExpr env scope e).toValue
    let address ← Lower.assign .long .add [base, .int (Int64.ofNat field.offset)]
    Lower.store env field.ty v address
    lowerFields env scope base fields rest
  | _, _ => pure ()

end

def lowerValue (env : Env) (scope : Scope Slot) (e : Expr) : Lower Operand := do
  (← lowerExpr env scope e).toValue

mutual

/-- Lower a statement; a declaration extends the scope. -/
def lowerStmt (env : Env) (scope : Scope Slot) : Stmt → Lower (Scope Slot)
  | .declare d => do
    let ty ← env.types.typeOfDecl d
    let slot ← Lower.allocate env ty d.name
    match d.init with
    | some init => do
      let v ← lowerValue env scope init
      Lower.store env ty v (.temp slot)
    | none => Lower.storeZero env ty (.temp slot)
    return scope.define d.name ⟨slot, ty, false⟩
  | .assign _ name value => do
    let slot ← scope.storage name
    let v ← lowerValue env scope value
    let address ← Lower.slotAddress slot
    Lower.store env slot.ty v address
    return scope
  | .branch _ cond thenBlock elseBlock => do
    let c ← lowerValue env scope cond
    let thenLabel ← Lower.freshLabel
    let elseLabel ← Lower.freshLabel
    let endLabel ← Lower.freshLabel
    Lower.emit (.jumpIf c thenLabel elseLabel)
    Lower.emit (.label thenLabel)
    lowerBlock env scope.push thenBlock
    Lower.emitIfOpen (.jump endLabel)
    Lower.emit (.label elseLabel)
    match elseBlock with
    | some b => lowerBlock env scope.push b
    | none => pure ()
    Lower.emitIfOpen (.jump endLabel)
    Lower.emit (.label endLabel)
    return scope
  | .ret _ none => do
    Lower.emit (.ret none)
    return scope
  | .ret _ (some e) => do
    let v ← lowerValue env scope e
    Lower.emit (.ret (some v))
    return scope
  | .expr e => do
    let _ ← lowerValue env scope e
    return scope

/-- Lower statements in order; what follows a jump gets a label. -/
def lowerStmts (env : Env) (scope : Scope Slot) : List Stmt → Lower Unit
  | [] => pure ()
  | s :: rest => do
    if ← Lower.isTerminated then
      Lower.emit (.label (← Lower.freshLabel))
    let inner ← lowerStmt env scope s
    lowerStmts env inner rest

/-- Lower a block in a scope whose innermost frame is its own. -/
def lowerBlock (env : Env) (scope : Scope Slot) : Block → Lower Unit
  | .mk _ stmts => lowerStmts env scope stmts

end

/-- The temporary in which a parameter arrives. -/
def incoming (name : String) : String := ".p." ++ name

/-- Store the receiver's address, which arrives first. -/
def storeReceiver (env : Env) (scope : Scope Slot) :
    Option Ty → Lower (Scope Slot × List (Class × String))
  | none => pure (scope, [])
  | some ty => do
    let slot ← Lower.allocate env .i64 "self"
    Lower.emit (.store .long (.temp (incoming "self")) (.temp slot))
    return (scope.define "self" ⟨slot, ty, true⟩, [(.long, incoming "self")])

/-- Store parameters into fresh stack space. -/
def storeParams (env : Env) :
    Scope Slot → List TypedName → Lower (Scope Slot × List (Class × String))
  | scope, [] => pure (scope, [])
  | scope, p :: rest => do
    let slot ← Lower.allocate env p.ty p.name
    Lower.store env p.ty (.temp (incoming p.name)) (.temp slot)
    let cls ← Class.passed p.ty
    let (inner, params) ← storeParams env (scope.define p.name ⟨slot, p.ty, false⟩) rest
    return (inner, (cls, incoming p.name) :: params)

/-- Lower the body of a function; the result are its parameters. -/
def lowerBody (env : Env) (f : FnDef) : Lower (List (Class × String)) := do
  let (scope, receiver) ← storeReceiver env Scope.empty.push f.receiver
  let (scope, params) ← storeParams env scope f.params
  lowerBlock env scope f.body
  Lower.emitIfOpen (if f.ret = .void then .ret none else .halt)
  return receiver ++ params

/-- The class of a function's result. -/
def resultClass : Ty → Except LoweringError (Option Class)
  | .void => .ok none
  | ty => some <$> Class.passed ty

/-- Lower a function after a draft of the one before it. -/
def lowerFunction (env : Env) (before : Draft) (f : FnDef) :
    Except LoweringError (Function × Draft) := do
  let (params, d) ← (lowerBody env f).run { before with slots := [], body := [] }
  let ret ← resultClass f.ret
  return (⟨f.linkage, f.linkage == entryPoint, params, ret,
    .label "start" :: d.slots ++ d.body⟩, d)

def lowerFunctions (env : Env) :
    Draft → List FnDef → Except LoweringError (List Function × Draft)
  | d, [] => .ok ([], d)
  | d, f :: rest => do
    let (g, d) ← lowerFunction env d f
    let (gs, d) ← lowerFunctions env d rest
    return (g :: gs, d)

/-- Lower a program, given what its analysis found. -/
def Module.ofProgram (p : Program) (analysis : Analysis) : Except LoweringError Module := do
  let layouts := p.layouts
  let (functions, d) ←
    lowerFunctions ⟨analysis.typeTable, p.symbols, layouts⟩ ⟨[], 0, 0, [], []⟩ p.functions
  return { types := layouts.toList.map fun l => ⟨l.name, l.align, l.size⟩
           data := d.data
           functions }

end StructLang.Flat
