import StructLang.Ssa.Dominance

/-!
# Well-formed modules

The check that a module passes before it is written out: struct types are sized, control goes to
existing blocks, every register is assigned once and before its uses, and operands have the types that
their instructions ask for.
-/

namespace StructLang.Ssa

/-- What is wrong with a struct type. -/
inductive StructFlaw where
  | duplicate
  | voidField
  | unknownField (struct : String)
  | recursive
deriving DecidableEq

def StructFlaw.message : StructFlaw → String
  | duplicate => "defined more than once"
  | voidField => "field of type void"
  | unknownField struct => s!"field of unknown type %{struct}"
  | recursive => "contains itself by value"

/-- The part of an instruction whose type is checked. -/
inductive Role where
  | loadAddress | storeAddress | storedValue | leftOperand | rightOperand | castOperand | fieldBase
  | returnOf (func : String)
  | argumentTo (func : String)
  | returnType | returnedValue | branchCondition
deriving DecidableEq

/-- The part in messages. -/
def Role.describe : Role → String
  | loadAddress => "load address"
  | storeAddress => "store address"
  | storedValue => "stored value"
  | leftOperand => "left operand"
  | rightOperand => "right operand"
  | castOperand => "cast operand"
  | fieldBase => "field base"
  | returnOf func => s!"return of '{func}'"
  | argumentTo func => s!"argument to '{func}'"
  | returnType => "return"
  | returnedValue => "returned value"
  | branchCondition => "branch condition"

/-- What is wrong with a function. -/
inductive FunctionFlaw where
  | noBlocks
  | staleId (label : String)
  | unterminated (label : String)
  | missingTarget (label : String) (target : Nat)
  | assignedTwice (r : Register)
  | undefinedRegister (r : Register)
  | notDominated (r : Register) (label : String)
  | intOfType (ty : Ty)
  | floatOfType (ty : Ty)
  | voidOperand
  | missingParam (index : Nat)
  | unknownGlobal (name : String)
  | wrongType (role : Role) (expected found : Ty)
  | voidSlot
  | voidLoad
  | badArith (op : ArithOp) (ty : Ty)
  | badCompare (pred : Predicate) (ty : Ty)
  | badCast (op : CastOp) (source target : Ty)
  | unknownStruct (name : String)
  | fieldOutOfRange (index : Nat) (struct : String)
  | callMismatch (func : String)
  | undeclared (func : String)
  | argumentCount (func : String) (expected given : Nat)
  | resultMismatch (func : String)
deriving DecidableEq

def FunctionFlaw.message : FunctionFlaw → String
  | noBlocks => "function has no blocks"
  | staleId label => s!"block '{label}' has a stale id"
  | unterminated label => s!"block '{label}' is not terminated"
  | missingTarget label target => s!"block '{label}' jumps to missing block {target}"
  | assignedTwice r => s!"register {registerName r} is assigned twice"
  | undefinedRegister r => s!"use of undefined register {registerName r}"
  | notDominated r label => s!"register {registerName r} does not dominate its use in '{label}'"
  | intOfType ty => s!"integer constant of type {ty.name}"
  | floatOfType ty => s!"float constant of type {ty.name}"
  | voidOperand => "void used as a value"
  | missingParam index => s!"parameter {index} out of range"
  | unknownGlobal name => s!"unknown global @{name}"
  | wrongType role expected found =>
    s!"{role.describe}: expected {expected.name}, found {found.name}"
  | voidSlot => "alloca of void"
  | voidLoad => "load of void"
  | badArith op ty => s!"'{op.name}' applied to {ty.name}"
  | badCompare pred ty => s!"'{pred.name}' applied to {ty.name}"
  | badCast op source target => s!"invalid {op.name} from {source.name} to {target.name}"
  | unknownStruct name => s!"unknown struct %{name}"
  | fieldOutOfRange index struct => s!"field index {index} out of range for %{struct}"
  | callMismatch func => s!"call to '{func}' does not match its definition"
  | undeclared func => s!"call to undeclared function '{func}'"
  | argumentCount func expected given => s!"'{func}' takes {expected} arguments, {given} given"
  | resultMismatch func => s!"result of '{func}' does not match its type"

/-- Why a module is not well formed. -/
inductive Flaw where
  | inStruct (name : String) (flaw : StructFlaw)
  | inFunction (name : String) (flaw : FunctionFlaw)
deriving DecidableEq

def Flaw.message : Flaw → String
  | inStruct name flaw => s!"in type '%{name}': {flaw.message}"
  | inFunction name flaw => s!"in function '{name}': {flaw.message}"

/-! ## Struct types -/

/-- A field has a size. -/
def checkField (m : Module) : Ty → Except StructFlaw Unit
  | .void => .error .voidField
  | .struct inner => if (m.struct? inner).isNone then .error (.unknownField inner) else .ok ()
  | _ => .ok ()

/-- The structs that follow structs with the given names have new names and fields of known size. -/
def checkStructs (m : Module) : List String → List Struct → Except Flaw Unit
  | _, [] => .ok ()
  | seen, s :: rest => do
    if seen.contains s.name then throw (.inStruct s.name .duplicate)
    s.fields.forM fun ty => (checkField m ty).mapError (.inStruct s.name)
    checkStructs m (s.name :: seen) rest

/-- The structs that a struct holds by value. -/
def Struct.inner (s : Struct) : List String :=
  s.fields.filterMap fun
    | .struct name => some name
    | _ => none

/-- Visit a struct and what it holds, depth first. `path` leads to it, and `done` are the structs that
hold no cycle. A name on the path that is met again closes a cycle and is the error; as a path has no
name twice, as many steps down as there are structs suffice. -/
def visit (m : Module) : Nat → List String → List String → String → Except String (List String)
  | depth, path, done, name =>
    if done.contains name then .ok done
    else if path.contains name then .error name
    else match depth with
      | 0 => .ok done
      | depth + 1 => do
        let inner := ((m.struct? name).map Struct.inner).getD []
        let done ← inner.foldlM (visit m depth (name :: path)) done
        return name :: done

/-- No struct holds itself. -/
def checkAcyclic (m : Module) : Except Flaw Unit :=
  match m.structs.foldlM (fun done s => visit m (m.structs.length + 1) [] done s.name) [] with
  | .ok _ => .ok ()
  | .error name => .error (.inStruct name .recursive)

/-- The struct types of a module are well formed. -/
def Module.checkTypes (m : Module) : Except Flaw Unit := do
  checkStructs m [] m.structs
  checkAcyclic m

/-! ## Functions -/

/-- The type that an instruction gives to its register. -/
def Instr.resultTy : Instr → Ty
  | alloca .. | field .. => .ptr
  | load _ ty _ | arith _ _ ty _ _ => ty
  | compare .. => .i1
  | cast _ _ _ _ target => target
  | call _ _ ret _ _ => ret
  | store .. => .void

/-- Where a register is assigned, and its type. -/
structure Definition where
  register : Register
  block : Nat
  index : Nat
  ty : Ty

/-- The definitions of a function in order. -/
def definitions (blocks : List Block) : List Definition :=
  blocks.zipIdx.flatMap fun (b, k) =>
    b.instrs.zipIdx.filterMap fun (i, n) => i.dest?.map fun r => ⟨r, k, n, i.resultTy⟩

/-- No register is assigned twice. -/
def checkAssignedOnce : List Register → List Definition → Except FunctionFlaw Unit
  | _, [] => .ok ()
  | seen, d :: rest =>
    if seen.contains d.register then .error (.assignedTwice d.register)
    else checkAssignedOnce (d.register :: seen) rest

/-- A block knows its position and ends in a jump to existing blocks. -/
def checkShape (f : Function) (b : Block) (index : Nat) : Except FunctionFlaw Unit := do
  if b.id ≠ index then throw (.staleId b.label)
  match b.terminator with
  | none => throw (.unterminated b.label)
  | some t =>
    t.successors.forM fun target =>
      if f.blocks.length ≤ target then throw (.missingTarget b.label target) else pure ()

/-- What the checks of a function's instructions look up. -/
structure Context where
  module : Module
  function : Function
  definitions : List Definition
  dominators : List BlockSet

/-- A place in a function: a block and a position in it. -/
structure Site where
  block : Nat
  label : String
  index : Nat

namespace Context

/-- Whether a definition comes before a place on every way there. -/
def reaches (c : Context) (d : Definition) (site : Site) : Bool :=
  if d.block = site.block then d.index < site.index
  else (c.dominators.getD site.block 0).testBit d.block

/-- The type of an operand at a place. -/
def operandTy (c : Context) (site : Site) : Operand → Except FunctionFlaw Ty
  | .register r =>
    match c.definitions.find? fun d => d.register == r with
    | none => .error (.undefinedRegister r)
    | some d => if c.reaches d site then .ok d.ty else .error (.notDominated r site.label)
  | .int _ ty => if ty.isInt then .ok ty else .error (.intOfType ty)
  | .float _ ty => if ty.isFloat then .ok ty else .error (.floatOfType ty)
  | .zero ty => if ty = .void then .error .voidOperand else .ok ty
  | .param i =>
    match c.function.params[i]? with
    | some p => .ok p.2
    | none => .error (.missingParam i)
  | .global name => if (c.module.string? name).isSome then .ok .ptr else .error (.unknownGlobal name)

end Context

def expectTy (role : Role) (found expected : Ty) : Except FunctionFlaw Unit :=
  if found = expected then .ok () else .error (.wrongType role expected found)

/-- An operand has a type. -/
def Context.expect (c : Context) (site : Site) (role : Role) (value : Operand) (expected : Ty) :
    Except FunctionFlaw Unit := do
  expectTy role (← c.operandTy site value) expected

/-- Whether a conversion goes from a type to another. -/
def CastOp.admits : CastOp → Ty → Ty → Bool
  | sext, source, target | zext, source, target =>
    source.isInt && target.isInt && decide (source.bits < target.bits)
  | trunc, source, target =>
    source.isInt && target.isInt && decide (target.bits < source.bits)
  | sitofp, source, target => source.isInt && target.isFloat
  | fptosi, source, target => source.isFloat && target.isInt
  | fpext, source, target => source == .f32 && target == .f64
  | fptrunc, source, target => source == .f64 && target == .f32

/-- A defined function is called through its own type; a foreign one has to be declared. -/
def checkCallee (m : Module) (func : String) (ret : Ty) (params : List Ty) :
    Except FunctionFlaw Unit :=
  match m.function? func with
  | some f => do
    if f.params.map Prod.snd ≠ params then throw (.callMismatch func)
    expectTy (.returnOf func) ret f.ret
  | none => if (m.foreign? func).isNone then .error (.undeclared func) else .ok ()

/-- Arguments have the types of their parameters, as stated and as they are. -/
def Context.checkArgs (c : Context) (site : Site) (func : String) :
    List Ty → List (Ty × Operand) → Except FunctionFlaw Unit
  | param :: params, (ty, value) :: args => do
    expectTy (.argumentTo func) ty param
    c.expect site (.argumentTo func) value param
    checkArgs c site func params args
  | _, _ => .ok ()

/-- An instruction is well typed at its place. -/
def Context.checkInstr (c : Context) (site : Site) : Instr → Except FunctionFlaw Unit
  | .alloca _ ty => if ty = .void then .error .voidSlot else .ok ()
  | .load _ ty address => do
    c.expect site .loadAddress address .ptr
    if ty = .void then throw .voidLoad
  | .store ty value address => do
    c.expect site .storeAddress address .ptr
    c.expect site .storedValue value ty
  | .arith _ op ty left right => do
    c.expect site .leftOperand left ty
    c.expect site .rightOperand right ty
    if !(if op.isFloat then ty.isFloat else ty.isInt) then throw (.badArith op ty)
  | .compare _ pred ty left right => do
    c.expect site .leftOperand left ty
    c.expect site .rightOperand right ty
    if !(if pred.isFloat then ty.isFloat else ty.isInt) then throw (.badCompare pred ty)
  | .cast _ op value source target => do
    c.expect site .castOperand value source
    if !op.admits source target then throw (.badCast op source target)
  | .field _ struct base index => do
    c.expect site .fieldBase base .ptr
    match c.module.struct? struct with
    | none => throw (.unknownStruct struct)
    | some s => if s.fields.length ≤ index then throw (.fieldOutOfRange index struct)
  | .call dest func ret params args => do
    checkCallee c.module func ret params
    if params.length ≠ args.length then
      throw (.argumentCount func params.length args.length)
    c.checkArgs site func params args
    if dest.isSome == (ret == .void) then throw (.resultMismatch func)

def Context.checkTerminator (c : Context) (site : Site) : Terminator → Except FunctionFlaw Unit
  | .ret none => expectTy .returnType .void c.function.ret
  | .ret (some (ty, value)) => do
    expectTy .returnType ty c.function.ret
    c.expect site .returnedValue value ty
  | .branch cond _ _ => c.expect site .branchCondition cond .i1
  | .jump _ | .unreachable => .ok ()

def Context.checkBlock (c : Context) (b : Block) (k : Nat) : Except FunctionFlaw Unit := do
  b.instrs.zipIdx.forM fun (i, n) => c.checkInstr ⟨k, b.label, n⟩ i
  match b.terminator with
  | some t => c.checkTerminator ⟨k, b.label, b.instrs.length⟩ t
  | none => pure ()

def checkFunction (m : Module) (f : Function) : Except FunctionFlaw Unit := do
  if f.blocks.isEmpty then throw .noBlocks
  f.blocks.zipIdx.forM fun (b, k) => checkShape f b k
  let defs := definitions f.blocks
  checkAssignedOnce [] defs
  let c : Context := ⟨m, f, defs, dominators f.blocks⟩
  f.blocks.zipIdx.forM fun (b, k) => c.checkBlock b k

def Module.check (m : Module) : Except Flaw Unit := do
  m.checkTypes
  m.functions.forM fun f => (checkFunction m f).mapError (.inFunction f.name)

end StructLang.Ssa
