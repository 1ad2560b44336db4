import StructLang.Lowering
import StructLang.Ssa.Basic

/-!
# Lowering to SSA code

Every parameter and every declared variable gets one slot, and all slots are made at the start of the
entry block. An expression becomes a value or, if it stands for a variable or a field, the address of
one; loads and stores go between the two.
-/

namespace StructLang.Ssa

/-- The type that holds values of a source type. -/
def Ty.ofSource : StructLang.Ty → Except LoweringError Ty
  | .void => .ok .void
  | .bool => .ok .i1
  | .string => .ok .ptr
  | .i32 => .ok .i32
  | .i64 => .ok .i64
  | .f32 => .ok .f32
  | .f64 => .ok .f64
  | .struct name => .ok (.struct name)
  | ty => .error (.unresolvedType ty)

/-- The instruction for an operator on operands of a type. -/
def ArithOp.ofSource (op : BinaryOp) (ty : Ty) : Except LoweringError ArithOp :=
  match op, ty.isFloat with
  | .add, true => .ok .fadd
  | .sub, true => .ok .fsub
  | .mul, true => .ok .fmul
  | .div, true => .ok .fdiv
  | .add, false => .ok .add
  | .sub, false => .ok .sub
  | .mul, false => .ok .mul
  | .div, false => .ok .sdiv
  | .mod, false => .ok .srem
  | .bitAnd, false => .ok .and
  | .bitOr, false => .ok .or
  | .bitXor, false => .ok .xor
  | .shl, false => .ok .shl
  | .shr, false => .ok .ashr
  | _, _ => .error (.unsupportedOperator op ty.name)

/-- The predicate for a comparison of operands of a type. -/
def Predicate.ofSource (op : BinaryOp) (ty : Ty) : Except LoweringError Predicate :=
  if ty.isFloat then
    match op with
    | .eq => .ok .oeq
    | .ne => .ok .one
    | .lt => .ok .olt
    | .le => .ok .ole
    | .gt => .ok .ogt
    | .ge => .ok .oge
    | _ => .error (.unsupportedOperator op ty.name)
  else if ty.isInt then
    match op with
    | .eq => .ok .eq
    | .ne => .ok .ne
    | .lt => .ok .slt
    | .le => .ok .sle
    | .gt => .ok .sgt
    | .ge => .ok .sge
    | _ => .error (.unsupportedOperator op ty.name)
  else .error (.unsupportedComparison ty.name)

/-- The conversion between two source types other than the test of an integer. -/
def CastOp.ofSource (source target : StructLang.Ty) : Except LoweringError CastOp :=
  if source = .bool && target.isInt then .ok .zext
  else if source.isInt && target.isInt then .ok (if source = .i32 then .sext else .trunc)
  else if source.isInt && target.isFloat then .ok .sitofp
  else if source.isFloat && target.isInt then .ok .fptosi
  else if source = .f32 && target = .f64 then .ok .fpext
  else if source = .f64 && target = .f32 then .ok .fptrunc
  else .error (.unsupportedCast source target)

/-- The storage of a name. -/
structure Slot where
  address : Register
  ty : StructLang.Ty
  /-- The slot holds the address of the value and not the value. -/
  byReference : Bool

/-- A function under construction, with the string constants of its module. -/
structure Draft where
  strings : List Constant
  /-- The instructions that make the slots. -/
  slots : List Instr
  blocks : List Block
  /-- The block to which instructions are added. -/
  current : Nat
  nextRegister : Nat
  nextLabel : Nat

/-- A step of lowering. -/
abbrev Lower := StateT Draft (Except LoweringError)

/-- What lowering looks up. -/
structure Env where
  types : TypeTable
  /-- The declarations that stand directly in a block. -/
  declaredIn : Nat → List Nat
  symbols : Symbols

/-- What lowering a body looks up. -/
structure BodyEnv extends Env where
  /-- The slots of declared variables by node number. -/
  declared : List (Nat × Register)

namespace Lower

/-- A number that no register has yet. -/
def freshRegister : Lower Register :=
  modifyGet fun d => (d.nextRegister, { d with nextRegister := d.nextRegister + 1 })

/-- A number that no label has yet. -/
def freshLabel : Lower Nat :=
  modifyGet fun d => (d.nextLabel, { d with nextLabel := d.nextLabel + 1 })

/-- A fresh slot for values of a type. -/
def allocate (ty : Ty) : Lower Register := do
  let r ← freshRegister
  modify fun d => { d with slots := d.slots ++ [.alloca r ty] }
  return r

def emit (i : Instr) : Lower Unit :=
  modify fun d =>
    { d with blocks := d.blocks.modify d.current fun b => { b with instrs := b.instrs ++ [i] } }

/-- Add an instruction that assigns a fresh register. -/
def emitValue (build : Register → Instr) : Lower Operand := do
  let r ← freshRegister
  emit (build r)
  return .register r

def terminate (t : Terminator) : Lower Unit :=
  modify fun d =>
    { d with blocks := d.blocks.modify d.current fun b => { b with terminator := some t } }

/-- Whether the current block has ended. -/
def isTerminated : Lower Bool := do
  let d ← get
  return match d.blocks[d.current]? with
    | some b => b.terminator.isSome
    | none => false

/-- End the current block unless it has ended. -/
def terminateIfOpen (t : Terminator) : Lower Unit := do
  if !(← isTerminated) then terminate t

def addBlock (label : String) : Lower Nat :=
  modifyGet fun d =>
    (d.blocks.length, { d with blocks := d.blocks ++ [⟨d.blocks.length, label, [], none⟩] })

/-- Go on in another block. -/
def enter (block : Nat) : Lower Unit := modify fun d => { d with current := block }

/-- The name of the constant with a text; equal texts have one constant. -/
def intern (text : String) : Lower String := do
  match (← get).strings.find? fun s => s.value == text with
  | some s => return s.name
  | none =>
    let name := s!".str.{(← get).strings.length}"
    modify fun d => { d with strings := d.strings ++ [⟨name, text⟩] }
    return name

/-- The address of the value for which a slot stands. -/
def slotAddress (slot : Slot) : Lower Operand :=
  if slot.byReference then emitValue fun r => .load r .ptr (.register slot.address)
  else pure (.register slot.address)

end Lower

/-- What an expression becomes. -/
inductive Lowered where
  | value (ty : StructLang.Ty) (v : Operand)
  /-- The address of the expression's value. -/
  | place (ty : StructLang.Ty) (address : Operand)

namespace Lowered

/-- The value itself; a place is read. -/
def toValue : Lowered → Lower Operand
  | value _ v => pure v
  | place ty address => do
    let ty ← Ty.ofSource ty
    Lower.emitValue fun r => .load r ty address

/-- An address of the value; a value without storage goes to a fresh slot. -/
def toAddress : Lowered → Lower Operand
  | place _ address => pure address
  | value ty v => do
    let ty ← Ty.ofSource ty
    let slot ← Lower.allocate ty
    Lower.emit (.store ty v (.register slot))
    return .register slot

end Lowered

/-- The field that a member of a type means: struct and position. -/
def memberOf (symbols : Symbols) (ty : StructLang.Ty) (member : String) :
    Except LoweringError (String × Nat) :=
  match ty.structName? with
  | none => .error (.memberOf ty)
  | some struct =>
    match symbols.field? ty member with
    | some (index, _) => .ok (struct, index)
    | none => .error (.unknownStruct struct)

/-- The parameter types of a call; a receiver is passed by address. -/
def paramTypes (callee : Callee) : Except LoweringError (List Ty) :=
  match callee.signature with
  | receiver :: rest => do
    let first ← if callee.hasReceiver then pure .ptr else Ty.ofSource receiver
    return first :: (← rest.mapM Ty.ofSource)
  | [] => return []

/-- A literal in the range of its type. -/
def intLiteral (value : Nat) (ty : Ty) : Operand :=
  let v := Int64.ofNat value
  .int (if ty = .i32 then v.toInt32.toInt64 else v) ty

/-- A literal in the precision of its type. -/
def floatLiteral (value : Binary64) (ty : Ty) : Operand :=
  .float (if ty = .f32 then value.toSingleRange else value) ty

/-- A unary operator as arithmetic with a constant. -/
def unaryInstr (op : UnaryOp) (ty : Ty) (v : Operand) (r : Register) : Instr :=
  match op with
  | .neg => if ty.isFloat then .arith r .fsub ty (.float .negZero ty) v
    else .arith r .sub ty (.int 0 ty) v
  | .not => .arith r .xor ty v (.int 1 .i1)
  | .bitNot => .arith r .xor ty v (.int (-1) ty)

def lowerCast (v : Operand) (source target : StructLang.Ty) : Lower Operand :=
  if source = target then pure v
  else do
    let sourceTy ← Ty.ofSource source
    let targetTy ← Ty.ofSource target
    if source.isInt && target = .bool then
      Lower.emitValue fun r => .compare r .ne sourceTy v (.int 0 sourceTy)
    else
      let op ← CastOp.ofSource source target
      Lower.emitValue fun r => .cast r op v sourceTy targetTy

/-- Call a function whose arguments are lowered. -/
def lowerCall (callee : Callee) (params : List Ty) (args : List (Ty × Operand)) :
    Lower Operand := do
  let ret ← Ty.ofSource callee.ret
  if ret = .void then
    Lower.emit (.call none callee.linkage ret params args)
    return .zero .void
  else Lower.emitValue fun r => .call (some r) callee.linkage ret params args

mutual

def lowerExpr (env : Env) (scope : Scope Slot) : Expr → Lower Lowered
  | e@(.integer _ value _) => do
    let ty ← env.types.typeOf e
    return .value ty (intLiteral value (← Ty.ofSource ty))
  | e@(.float _ value _) => do
    let ty ← env.types.typeOf e
    return .value ty (floatLiteral value (← Ty.ofSource ty))
  | e@(.bool _ value) => do
    let ty ← env.types.typeOf e
    return .value ty (.int (if value then 1 else 0) .i1)
  | e@(.text _ value) => do
    let ty ← env.types.typeOf e
    return .value ty (.global (← Lower.intern value))
  | e@(.var _ name) => do
    let ty ← env.types.typeOf e
    return .place ty (← Lower.slotAddress (← scope.storage name))
  | e@(.unary _ op operand) => do
    let ty ← env.types.typeOf e
    let v ← (← lowerExpr env scope operand).toValue
    let resultTy ← Ty.ofSource ty
    return .value ty (← Lower.emitValue (unaryInstr op resultTy v))
  | e@(.binary _ op left right) => do
    let ty ← env.types.typeOf e
    let operandTy ← Ty.ofSource (← env.types.typeOf left)
    let l ← (← lowerExpr env scope left).toValue
    let r ← (← lowerExpr env scope right).toValue
    if op.isComparison then
      let pred ← Predicate.ofSource op operandTy
      return .value ty (← Lower.emitValue fun d => .compare d pred operandTy l r)
    else
      let op ← ArithOp.ofSource op operandTy
      return .value ty (← Lower.emitValue fun d => .arith d op operandTy l r)
  | e@(.cast _ operand target) => do
    let ty ← env.types.typeOf e
    let source ← env.types.typeOf operand
    let v ← (← lowerExpr env scope operand).toValue
    return .value ty (← lowerCast v source target)
  | e@(.call _ name args) => do
    let ty ← env.types.typeOf e
    let callee ← env.symbols.callee name (← env.types.typesOf args)
    let params ← paramTypes callee
    let lowered ← lowerArgs env scope callee.hasReceiver args
    return .value ty (← lowerCall callee params lowered)
  | e@(.construct _ name args) => do
    let ty ← env.types.typeOf e
    let slot ← Lower.allocate (.struct name)
    lowerFields env scope name slot 0 args
    return .value ty (← Lower.emitValue fun r => .load r (.struct name) (.register slot))
  | e@(.access _ object member) => do
    let ty ← env.types.typeOf e
    let (struct, index) ← memberOf env.symbols (← env.types.typeOf object) member
    let base ← (← lowerExpr env scope object).toAddress
    return .place ty (← Lower.emitValue fun r => .field r struct base index)

/-- Lower arguments from left to right, the first by address if it is a receiver. -/
def lowerArgs (env : Env) (scope : Scope Slot) :
    Bool → List Expr → Lower (List (Ty × Operand))
  | _, [] => pure []
  | receiver, e :: rest => do
    let lowered ← lowerExpr env scope e
    let arg ← if receiver then pure (Ty.ptr, ← lowered.toAddress)
      else
        let v ← lowered.toValue
        pure (← Ty.ofSource (← env.types.typeOf e), v)
    return arg :: (← lowerArgs env scope false rest)

/-- Store values into the fields of a struct from a position on. -/
def lowerFields (env : Env) (scope : Scope Slot) (struct : String) (slot : Register) :
    Nat → List Expr → Lower Unit
  | _, [] => pure ()
  | index, e :: rest => do
    let ty ← Ty.ofSource (← env.types.typeOf e)
    let v ← (← lowerExpr env scope e).toValue
    let address ← Lower.emitValue fun r => .field r struct (.register slot) index
    Lower.emit (.store ty v address)
    lowerFields env scope struct slot (index + 1) rest

end

def lowerValue (env : Env) (scope : Scope Slot) (e : Expr) : Lower Operand := do
  (← lowerExpr env scope e).toValue

/-- The slot and the type of a declared variable. -/
def declaredSlot (env : BodyEnv) (d : VarDecl) : Except LoweringError Slot :=
  match env.declared.lookup d.node.id with
  | none => .error (.unboundVariable d.name)
  | some r => do return ⟨r, ← env.types.typeOfDecl d, false⟩

mutual

/-- Lower a statement; a declaration extends the scope. -/
def lowerStmt (env : BodyEnv) (scope : Scope Slot) : Stmt → Lower (Scope Slot)
  | .declare d => do
    let slot ← declaredSlot env d
    let ty ← Ty.ofSource slot.ty
    let v ← match d.init with
      | some init => lowerValue env.toEnv scope init
      | none => pure (.zero ty)
    Lower.emit (.store ty v (.register slot.address))
    return scope.define d.name slot
  | .assign _ name value => do
    let slot ← scope.storage name
    let v ← lowerValue env.toEnv scope value
    let address ← Lower.slotAddress slot
    Lower.emit (.store (← Ty.ofSource slot.ty) v address)
    return scope
  | .branch _ cond thenBlock elseBlock => do
    let c ← lowerValue env.toEnv scope cond
    let test ← Lower.emitValue fun r => .compare r .ne .i1 c (.int 0 .i1)
    let n ← Lower.freshLabel
    let thenId ← Lower.addBlock s!"then.{n}"
    let elseId ← Lower.addBlock s!"else.{n}"
    let mergeId ← Lower.addBlock s!"merge.{n}"
    Lower.terminate (.branch test thenId elseId)
    Lower.enter thenId
    lowerBlock env scope.push thenBlock
    Lower.terminateIfOpen (.jump mergeId)
    Lower.enter elseId
    match elseBlock with
    | some b => lowerBlock env scope.push b
    | none => pure ()
    Lower.terminateIfOpen (.jump mergeId)
    Lower.enter mergeId
    return scope
  | .ret _ none => do
    Lower.terminate (.ret none)
    return scope
  | .ret _ (some e) => do
    let ty ← Ty.ofSource (← env.types.typeOf e)
    let v ← lowerValue env.toEnv scope e
    Lower.terminate (.ret (some (ty, v)))
    return scope
  | .expr e => do
    let _ ← lowerValue env.toEnv scope e
    return scope

/-- Lower statements in order; what follows a return gets a block of its own. -/
def lowerStmts (env : BodyEnv) (scope : Scope Slot) : List Stmt → Lower Unit
  | [] => pure ()
  | s :: rest => do
    if ← Lower.isTerminated then
      Lower.enter (← Lower.addBlock s!"dead.{← Lower.freshLabel}")
    let inner ← lowerStmt env scope s
    lowerStmts env inner rest

/-- Lower a block in a scope whose innermost frame is its own. -/
def lowerBlock (env : BodyEnv) (scope : Scope Slot) :
    StructLang.Block → Lower Unit
  | .mk _ stmts => lowerStmts env scope stmts

end

/-- Slots for the given declarations. -/
def hoistDecls (env : Env) : List Nat → Lower (List (Nat × Register))
  | [] => pure []
  | id :: rest => do
    match env.types[id]? with
    | none => throw (.untypedDecl id)
    | some ty =>
      let r ← Lower.allocate (← Ty.ofSource ty)
      return (id, r) :: (← hoistDecls env rest)

mutual

/-- Slots for the declarations inside the branches of statements. -/
def hoistStmts (env : Env) : List Stmt → Lower (List (Nat × Register))
  | [] => pure []
  | .branch _ _ thenBlock (some elseBlock) :: rest => do
    let a ← hoistBlock env thenBlock
    let b ← hoistBlock env elseBlock
    return a ++ b ++ (← hoistStmts env rest)
  | .branch _ _ thenBlock none :: rest => do
    let a ← hoistBlock env thenBlock
    return a ++ (← hoistStmts env rest)
  | _ :: rest => hoistStmts env rest

/-- Slots for the declarations of a block, then for those inside it. -/
def hoistBlock (env : Env) : StructLang.Block → Lower (List (Nat × Register))
  | .mk node stmts => do
    let own ← hoistDecls env (env.declaredIn node.id)
    return own ++ (← hoistStmts env stmts)

end

/-- A parameter: its name, how it is passed and the source type behind it. -/
structure Param where
  name : String
  ty : Ty
  source : StructLang.Ty
  byReference : Bool

/-- The parameters of a function; the receiver comes first and is passed by address. -/
def paramsOf (f : FnHeader) : Except LoweringError (List Param) := do
  let own ← f.params.mapM fun p => do return Param.mk p.name (← Ty.ofSource p.ty) p.ty false
  return (f.receiver.toList.map fun ty => ⟨"self", .ptr, ty, true⟩) ++ own

/-- Store the parameters from a position on into fresh slots. -/
def storeParams : Nat → Scope Slot → List Param → Lower (Scope Slot)
  | _, scope, [] => pure scope
  | index, scope, p :: rest => do
    let slot ← Lower.allocate p.ty
    Lower.emit (.store p.ty (.param index) (.register slot))
    storeParams (index + 1) (scope.define p.name ⟨slot, p.source, p.byReference⟩) rest

/-- Lower the body of a function whose entry block is current. -/
def lowerBody (env : Env) (f : FnDef) (params : List Param) (ret : Ty) : Lower Unit := do
  let scope ← storeParams 0 Scope.empty.push params
  let declared ← hoistBlock env f.body
  lowerBlock ⟨env, declared⟩ scope f.body
  Lower.terminateIfOpen (if ret = .void then .ret none else .unreachable)

/-- Put the slots at the start of the entry block. -/
def withSlots (slots : List Instr) : List Block → List Block
  | [] => []
  | entry :: rest => { entry with instrs := slots ++ entry.instrs } :: rest

/-- Lower a function, with the string constants before and after. -/
def lowerFunction (env : Env) (strings : List Constant) (f : FnDef) :
    Except LoweringError (Function × List Constant) := do
  let params ← paramsOf f.toFnHeader
  let ret ← Ty.ofSource f.ret
  let start : Draft := ⟨strings, [], [⟨0, "entry", [], none⟩], 0, 0, 0⟩
  let ((), d) ← (lowerBody env f params ret).run start
  return (⟨f.linkage, params.map fun p => (p.name, p.ty), ret, withSlots d.slots d.blocks⟩,
    d.strings)

def lowerFunctions (env : Env) :
    List Constant → List FnDef → Except LoweringError (List Function × List Constant)
  | strings, [] => .ok ([], strings)
  | strings, f :: rest => do
    let (g, strings) ← lowerFunction env strings f
    let (gs, strings) ← lowerFunctions env strings rest
    return (g :: gs, strings)

def lowerStruct (d : StructDef) : Except LoweringError Struct := do
  return ⟨d.name, ← d.fields.mapM fun f => Ty.ofSource f.ty⟩

/-- Lower foreign declarations; of several with one name the first stays. -/
def lowerForeigns : List String → List ForeignDecl → Except LoweringError (List Foreign)
  | _, [] => .ok []
  | seen, d :: rest =>
    if seen.contains d.name then lowerForeigns seen rest
    else do
      let params ← d.params.mapM fun p => Ty.ofSource p.ty
      let ret ← Ty.ofSource d.ret
      return ⟨d.name, params, ret⟩ :: (← lowerForeigns (d.name :: seen) rest)

/-- Lower a program, given what its analysis found. -/
def Module.ofProgram (name : String) (p : Program) (analysis : Analysis) :
    Except LoweringError Module := do
  let env : Env := ⟨analysis.typeTable, analysis.declaredIn, p.symbols⟩
  let structs ← p.structs.mapM lowerStruct
  let foreigns ← lowerForeigns [] p.foreigns
  let (functions, strings) ← lowerFunctions env [] p.functions
  return { name, structs, strings, foreigns, functions }

end StructLang.Ssa
