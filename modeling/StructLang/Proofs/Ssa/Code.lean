import StructLang.Proofs.Emission
import StructLang.Ssa.Lower

/-!
# SSA code

What lowering gives, as relations. For an expression they relate the supply before, the result, the code
and the supply after; for a statement, the draft before and the draft after. Every later fact about SSA
code is proved from these rules.
-/

namespace StructLang.Ssa

/-- What lowering an expression draws on. -/
structure Supply where
  strings : List Constant
  slots : List Instr
  nextRegister : Nat

namespace Supply

def bump (s : Supply) : Supply := { s with nextRegister := s.nextRegister + 1 }

def allocate (s : Supply) (ty : Ty) : Supply :=
  { s with
    slots := s.slots ++ [.alloca s.nextRegister ty]
    nextRegister := s.nextRegister + 1 }

end Supply

def Block.append (b : Block) (code : List Instr) : Block := { b with instrs := b.instrs ++ code }

@[simp] theorem Block.append_nil (b : Block) : b.append [] = b := by simp [append]

@[simp] theorem Block.append_append (b : Block) (c c' : List Instr) :
    (b.append c).append c' = b.append (c ++ c') := by
  simp [append]

namespace Draft

def supply (d : Draft) : Supply := ⟨d.strings, d.slots, d.nextRegister⟩

def extend (d : Draft) (s : Supply) (code : List Instr) : Draft :=
  ⟨s.strings, s.slots, d.blocks.modify d.current fun b => b.append code, d.current, s.nextRegister,
    d.nextLabel⟩

theorem length_extend (d : Draft) (s : Supply) (code : List Instr) :
    (d.extend s code).blocks.length = d.blocks.length := by
  simp [extend]

theorem extend_nil (d : Draft) (s : Supply) :
    d.extend s [] = { d with strings := s.strings, slots := s.slots, nextRegister := s.nextRegister } := by
  simp only [extend, Block.append_nil]
  exact congrArg (Draft.mk _ _ · _ _ _) (List.modify_id d.current d.blocks)

def terminate (d : Draft) (t : Terminator) : Draft :=
  { d with blocks := d.blocks.modify d.current fun b => { b with terminator := some t } }

def isTerminated (d : Draft) : Bool :=
  match d.blocks[d.current]? with
  | some b => b.terminator.isSome
  | none => false

def terminateIfOpen (d : Draft) (t : Terminator) : Draft :=
  if d.isTerminated then d else d.terminate t

def addBlock (d : Draft) (label : String) : Draft :=
  { d with blocks := d.blocks ++ [⟨d.blocks.length, label, [], none⟩] }

def enter (d : Draft) (block : Nat) : Draft := { d with current := block }

def bumpLabel (d : Draft) : Draft := { d with nextLabel := d.nextLabel + 1 }

/-- Where a statement starts: what follows a return gets a block of its own. -/
def reopen (d : Draft) : Draft :=
  if d.isTerminated then
    (d.bumpLabel.addBlock s!"dead.{d.nextLabel}").enter d.blocks.length
  else d

/-- The start of a branch on a value, with the blocks for its arms and for what follows. -/
def openBranch (d : Draft) (v : Operand) : Draft :=
  ((((d.bumpLabel.addBlock s!"then.{d.nextLabel}").addBlock s!"else.{d.nextLabel}").addBlock
    s!"merge.{d.nextLabel}").terminate (.branch v d.blocks.length (d.blocks.length + 1))).enter
    d.blocks.length

def closeArm (d : Draft) (next last : Nat) : Draft :=
  (d.terminateIfOpen (.jump last)).enter next

end Draft

/-- Lowering an expression adds code at the end of the current block. -/
def emission : Emission Draft Supply Instr where
  supply := Draft.supply
  extend := Draft.extend
  supply_extend _ _ _ := rfl
  extend_supply d := d.extend_nil d.supply
  extend_extend d s c s' c' := by
    simp [Draft.extend, List.modify_modify_eq, Function.comp_def]

/-! ## Rules -/

/-- Taking the value of what an expression became. -/
inductive ToValue (s : Supply) : Lowered → Operand → List Instr → Supply → Prop where
  | value {ty v} : ToValue s (.value ty v) v [] s
  | load {ty a t} (ht : Ty.ofSource ty = .ok t) :
      ToValue s (.place ty a) (.register s.nextRegister) [.load s.nextRegister t a] s.bump

/-- Taking the address of what an expression became. -/
inductive ToAddress (s : Supply) : Lowered → Operand → List Instr → Supply → Prop where
  | place {ty a} : ToAddress s (.place ty a) a [] s
  | spill {ty v t} (ht : Ty.ofSource ty = .ok t) :
      ToAddress s (.value ty v) (.register s.nextRegister)
        [.store t v (.register s.nextRegister)] (s.allocate t)

/-- Taking the address of a variable. -/
inductive SlotAddress (s : Supply) (slot : Slot) : Operand → List Instr → Supply → Prop where
  | direct (h : slot.byReference = false) : SlotAddress s slot (.register slot.address) [] s
  | reference (h : slot.byReference = true) :
      SlotAddress s slot (.register s.nextRegister)
        [.load s.nextRegister .ptr (.register slot.address)] s.bump

/-- The constant of a text. -/
inductive Interned (text : String) (s : Supply) : String → Supply → Prop where
  | old {k} (h : (s.strings.find? fun k => k.value == text) = some k) : Interned text s k.name s
  | new (h : (s.strings.find? fun k => k.value == text) = none) :
      Interned text s s!".str.{s.strings.length}"
        { s with strings := s.strings ++ [⟨s!".str.{s.strings.length}", text⟩] }

inductive CastCode (v : Operand) (source target : StructLang.Ty) (s : Supply) :
    Operand → List Instr → Supply → Prop where
  | same (h : source = target) : CastCode v source target s v [] s
  | test {t} (h : source ≠ target) (hs : Ty.ofSource source = .ok t) (hint : source.isInt = true)
      (hbool : target = .bool) :
      CastCode v source target s (.register s.nextRegister)
        [.compare s.nextRegister .ne t v (.int 0 t)] s.bump
  | convert {t t' op} (h : source ≠ target) (hs : Ty.ofSource source = .ok t)
      (ht : Ty.ofSource target = .ok t') (htest : ¬(source.isInt = true ∧ target = .bool))
      (hop : CastOp.ofSource source target = .ok op) :
      CastCode v source target s (.register s.nextRegister)
        [.cast s.nextRegister op v t t'] s.bump

inductive CallCode (callee : Callee) (params : List Ty) (args : List (Ty × Operand)) (s : Supply) :
    Operand → List Instr → Supply → Prop where
  | void (h : Ty.ofSource callee.ret = .ok .void) :
      CallCode callee params args s (.zero .void) [.call none callee.linkage .void params args] s
  | result {t} (ht : Ty.ofSource callee.ret = .ok t) (h : t ≠ .void) :
      CallCode callee params args s (.register s.nextRegister)
        [.call (some s.nextRegister) callee.linkage t params args] s.bump

mutual

/-- The code of an expression and what it becomes. -/
inductive ExprCode (env : Env) (scope : Scope Slot) :
    Expr → Supply → Lowered → List Instr → Supply → Prop where
  | integer {n value long ty t s} (hty : env.types.typeOf (.integer n value long) = .ok ty)
      (ht : Ty.ofSource ty = .ok t) :
      ExprCode env scope (.integer n value long) s (.value ty (intLiteral value t)) [] s
  | float {n value single ty t s} (hty : env.types.typeOf (.float n value single) = .ok ty)
      (ht : Ty.ofSource ty = .ok t) :
      ExprCode env scope (.float n value single) s (.value ty (floatLiteral value t)) [] s
  | bool {n value ty s} (hty : env.types.typeOf (.bool n value) = .ok ty) :
      ExprCode env scope (.bool n value) s (.value ty (.int (if value then 1 else 0) .i1)) [] s
  | text {n value ty s name s'} (hty : env.types.typeOf (.text n value) = .ok ty)
      (hv : Interned value s name s') :
      ExprCode env scope (.text n value) s (.value ty (.global name)) [] s'
  | var {n name ty slot s a c s'} (hty : env.types.typeOf (.var n name) = .ok ty)
      (hslot : scope.storage name = .ok slot) (ha : SlotAddress s slot a c s') :
      ExprCode env scope (.var n name) s (.place ty a) c s'
  | unary {n op e ty t s low c1 s1 v c2 s2} (hty : env.types.typeOf (.unary n op e) = .ok ty)
      (he : ExprCode env scope e s low c1 s1) (hv : ToValue s1 low v c2 s2)
      (ht : Ty.ofSource ty = .ok t) :
      ExprCode env scope (.unary n op e) s (.value ty (.register s2.nextRegister))
        (c1 ++ (c2 ++ [unaryInstr op t v s2.nextRegister])) s2.bump
  | compare {n op l r ty operandTy t s low1 c1 s1 v c2 s2 low2 c3 s3 w c4 s4 pred}
      (hty : env.types.typeOf (.binary n op l r) = .ok ty)
      (hop : env.types.typeOf l = .ok operandTy) (ht : Ty.ofSource operandTy = .ok t)
      (hl : ExprCode env scope l s low1 c1 s1) (hv : ToValue s1 low1 v c2 s2)
      (hr : ExprCode env scope r s2 low2 c3 s3) (hw : ToValue s3 low2 w c4 s4)
      (hcmp : op.isComparison = true) (hpred : Predicate.ofSource op t = .ok pred) :
      ExprCode env scope (.binary n op l r) s (.value ty (.register s4.nextRegister))
        (c1 ++ (c2 ++ (c3 ++ (c4 ++ [.compare s4.nextRegister pred t v w])))) s4.bump
  | arith {n op l r ty operandTy t s low1 c1 s1 v c2 s2 low2 c3 s3 w c4 s4 o}
      (hty : env.types.typeOf (.binary n op l r) = .ok ty)
      (hop : env.types.typeOf l = .ok operandTy) (ht : Ty.ofSource operandTy = .ok t)
      (hl : ExprCode env scope l s low1 c1 s1) (hv : ToValue s1 low1 v c2 s2)
      (hr : ExprCode env scope r s2 low2 c3 s3) (hw : ToValue s3 low2 w c4 s4)
      (hcmp : op.isComparison = false) (ho : ArithOp.ofSource op t = .ok o) :
      ExprCode env scope (.binary n op l r) s (.value ty (.register s4.nextRegister))
        (c1 ++ (c2 ++ (c3 ++ (c4 ++ [.arith s4.nextRegister o t v w])))) s4.bump
  | cast {n e target ty source s low c1 s1 v c2 s2 w c3 s3}
      (hty : env.types.typeOf (.cast n e target) = .ok ty)
      (hsource : env.types.typeOf e = .ok source)
      (he : ExprCode env scope e s low c1 s1) (hv : ToValue s1 low v c2 s2)
      (hw : CastCode v source target s2 w c3 s3) :
      ExprCode env scope (.cast n e target) s (.value ty w) (c1 ++ (c2 ++ c3)) s3
  | call {n name args ty ts callee params s lowered c1 s1 v c2 s2}
      (hty : env.types.typeOf (.call n name args) = .ok ty)
      (hts : env.types.typesOf args = .ok ts) (hcallee : env.symbols.callee name ts = .ok callee)
      (hparams : paramTypes callee = .ok params)
      (hargs : ArgsCode env scope callee.hasReceiver args s lowered c1 s1)
      (hcall : CallCode callee params lowered s1 v c2 s2) :
      ExprCode env scope (.call n name args) s (.value ty v) (c1 ++ c2) s2
  | construct {n name args ty s c s1} (hty : env.types.typeOf (.construct n name args) = .ok ty)
      (hargs : FieldsCode env scope name s.nextRegister 0 args (s.allocate (.struct name)) c s1) :
      ExprCode env scope (.construct n name args) s (.value ty (.register s1.nextRegister))
        (c ++ [.load s1.nextRegister (.struct name) (.register s.nextRegister)]) s1.bump
  | access {n e member ty objectTy struct index s low c1 s1 a c2 s2}
      (hty : env.types.typeOf (.access n e member) = .ok ty)
      (hobject : env.types.typeOf e = .ok objectTy)
      (hmember : memberOf env.symbols objectTy member = .ok (struct, index))
      (he : ExprCode env scope e s low c1 s1) (ha : ToAddress s1 low a c2 s2) :
      ExprCode env scope (.access n e member) s (.place ty (.register s2.nextRegister))
        (c1 ++ (c2 ++ [.field s2.nextRegister struct a index])) s2.bump

/-- The code of arguments, the first of which may be a receiver. -/
inductive ArgsCode (env : Env) (scope : Scope Slot) :
    Bool → List Expr → Supply → List (Ty × Operand) → List Instr → Supply → Prop where
  | nil {receiver s} : ArgsCode env scope receiver [] s [] [] s
  | receiver {e es s low c1 s1 a c2 s2 args c3 s3} (he : ExprCode env scope e s low c1 s1)
      (ha : ToAddress s1 low a c2 s2) (hes : ArgsCode env scope false es s2 args c3 s3) :
      ArgsCode env scope true (e :: es) s ((.ptr, a) :: args) (c1 ++ (c2 ++ c3)) s3
  | value {e es s low c1 s1 v c2 s2 ty t args c3 s3} (he : ExprCode env scope e s low c1 s1)
      (hv : ToValue s1 low v c2 s2) (hty : env.types.typeOf e = .ok ty)
      (ht : Ty.ofSource ty = .ok t) (hes : ArgsCode env scope false es s2 args c3 s3) :
      ArgsCode env scope false (e :: es) s ((t, v) :: args) (c1 ++ (c2 ++ c3)) s3

/-- The code that stores values into the fields of the struct in a slot from a position on. -/
inductive FieldsCode (env : Env) (scope : Scope Slot) :
    String → Register → Nat → List Expr → Supply → List Instr → Supply → Prop where
  | nil {struct slot index s} : FieldsCode env scope struct slot index [] s [] s
  | cons {struct slot index e es ty t s low c1 s1 v c2 s2 c3 s3} (hty : env.types.typeOf e = .ok ty)
      (ht : Ty.ofSource ty = .ok t) (he : ExprCode env scope e s low c1 s1)
      (hv : ToValue s1 low v c2 s2)
      (hes : FieldsCode env scope struct slot (index + 1) es s2.bump c3 s3) :
      FieldsCode env scope struct slot index (e :: es) s
        (c1 ++ (c2 ++ (.field s2.nextRegister struct (.register slot) index ::
          .store t v (.register s2.nextRegister) :: c3))) s3

end

inductive ValueCode (env : Env) (scope : Scope Slot) (e : Expr) (s : Supply) :
    Operand → List Instr → Supply → Prop where
  | mk {low c1 s1 v c2 s2} (he : ExprCode env scope e s low c1 s1) (hv : ToValue s1 low v c2 s2) :
      ValueCode env scope e s v (c1 ++ c2) s2

mutual

/-- The code of a statement and the scope after it. -/
inductive StmtCode (env : BodyEnv) : Scope Slot → Stmt → Draft → Scope Slot → Draft → Prop where
  | declare {scope decl d slot t e v c s} (hslot : declaredSlot env decl = .ok slot)
      (ht : Ty.ofSource slot.ty = .ok t) (hinit : decl.init = some e)
      (hv : ValueCode env.toEnv scope e d.supply v c s) :
      StmtCode env scope (.declare decl) d (scope.define decl.name slot)
        (d.extend s (c ++ [.store t v (.register slot.address)]))
  | declareZero {scope decl d slot t} (hslot : declaredSlot env decl = .ok slot)
      (ht : Ty.ofSource slot.ty = .ok t) (hinit : decl.init = none) :
      StmtCode env scope (.declare decl) d (scope.define decl.name slot)
        (d.extend d.supply [.store t (.zero t) (.register slot.address)])
  | assign {scope span name e d slot v c s1 a c' s2 t} (hslot : scope.storage name = .ok slot)
      (hv : ValueCode env.toEnv scope e d.supply v c s1) (ha : SlotAddress s1 slot a c' s2)
      (ht : Ty.ofSource slot.ty = .ok t) :
      StmtCode env scope (.assign span name e) d scope
        (d.extend s2 (c ++ (c' ++ [.store t v a])))
  | branch {scope span cond t d v c s d1} (hv : ValueCode env.toEnv scope cond d.supply v c s)
      (ht : BlockCode env scope.push t
        ((d.extend s.bump (c ++ [.compare s.nextRegister .ne .i1 v (.int 0 .i1)])).openBranch
          (.register s.nextRegister)) d1) :
      StmtCode env scope (.branch span cond t none) d scope
        ((d1.closeArm (d.blocks.length + 1) (d.blocks.length + 2)).closeArm
          (d.blocks.length + 2) (d.blocks.length + 2))
  | branchElse {scope span cond t e d v c s d1 d2}
      (hv : ValueCode env.toEnv scope cond d.supply v c s)
      (ht : BlockCode env scope.push t
        ((d.extend s.bump (c ++ [.compare s.nextRegister .ne .i1 v (.int 0 .i1)])).openBranch
          (.register s.nextRegister)) d1)
      (he : BlockCode env scope.push e
        (d1.closeArm (d.blocks.length + 1) (d.blocks.length + 2)) d2) :
      StmtCode env scope (.branch span cond t (some e)) d scope
        (d2.closeArm (d.blocks.length + 2) (d.blocks.length + 2))
  | retNone {scope span d} :
      StmtCode env scope (.ret span none) d scope (d.terminate (.ret none))
  | ret {scope span e d ty t v c s} (hty : env.types.typeOf e = .ok ty)
      (ht : Ty.ofSource ty = .ok t) (hv : ValueCode env.toEnv scope e d.supply v c s) :
      StmtCode env scope (.ret span (some e)) d scope
        ((d.extend s c).terminate (.ret (some (t, v))))
  | expr {scope e d v c s} (hv : ValueCode env.toEnv scope e d.supply v c s) :
      StmtCode env scope (.expr e) d scope (d.extend s c)

inductive StmtsCode (env : BodyEnv) : Scope Slot → List Stmt → Draft → Draft → Prop where
  | nil {scope d} : StmtsCode env scope [] d d
  | cons {scope inner stmt rest d d1 d2} (hs : StmtCode env scope stmt d.reopen inner d1)
      (hrest : StmtsCode env inner rest d1 d2) : StmtsCode env scope (stmt :: rest) d d2

inductive BlockCode (env : BodyEnv) : Scope Slot → StructLang.Block → Draft → Draft → Prop where
  | mk {scope n stmts d d'} (h : StmtsCode env scope stmts d d') :
      BlockCode env scope (.mk n stmts) d d'

end

/-- Slots for declarations, in order. -/
inductive HoistCode (env : Env) : List Nat → Supply → List (Nat × Register) → Supply → Prop where
  | nil {s} : HoistCode env [] s [] s
  | cons {id ids ty t s declared s'} (hty : env.types[id]? = some ty) (ht : Ty.ofSource ty = .ok t)
      (hids : HoistCode env ids (s.allocate t) declared s') :
      HoistCode env (id :: ids) s ((id, s.nextRegister) :: declared) s'

mutual

/-- The declarations inside the branches of statements, in the order in which they get slots. -/
def hoistedIn (env : Env) : List Stmt → List Nat
  | [] => []
  | .branch _ _ t (some e) :: rest => hoisted env t ++ hoisted env e ++ hoistedIn env rest
  | .branch _ _ t none :: rest => hoisted env t ++ hoistedIn env rest
  | _ :: rest => hoistedIn env rest

/-- The declarations of a block, in the order in which they get slots. -/
def hoisted (env : Env) : StructLang.Block → List Nat
  | .mk node stmts => env.declaredIn node.id ++ hoistedIn env stmts

end

inductive ParamsCode : Nat → Scope Slot → List Param → Supply → Scope Slot → List Instr → Supply →
    Prop where
  | nil {index scope s} : ParamsCode index scope [] s scope [] s
  | cons {index scope p rest s inner c s'}
      (hrest : ParamsCode (index + 1) (scope.define p.name ⟨s.nextRegister, p.source, p.byReference⟩)
        rest (s.allocate p.ty) inner c s') :
      ParamsCode index scope (p :: rest) s inner
        (.store p.ty (.param index) (.register s.nextRegister) :: c) s'

inductive BodyCode (env : Env) (f : FnDef) (params : List Param) (ret : Ty) (d : Draft) :
    Draft → Prop where
  | mk {scope c s1 declared s2 d1}
      (hp : ParamsCode 0 Scope.empty.push params d.supply scope c s1)
      (hh : HoistCode env (hoisted env f.body) s1 declared s2)
      (hb : BlockCode ⟨env, declared⟩ scope f.body (d.extend s2 c) d1) :
      BodyCode env f params ret d
        (d1.terminateIfOpen (if ret = .void then .ret none else .unreachable))

def Draft.start (strings : List Constant) : Draft := ⟨strings, [], [⟨0, "entry", [], none⟩], 0, 0, 0⟩

inductive FunctionCode (env : Env) (strings : List Constant) (f : FnDef) :
    Function → List Constant → Prop where
  | mk {params ret d} (hp : paramsOf f.toFnHeader = .ok params) (hr : Ty.ofSource f.ret = .ok ret)
      (hb : BodyCode env f params ret (.start strings) d) :
      FunctionCode env strings f
        ⟨f.linkage, params.map fun p => (p.name, p.ty), ret, withSlots d.slots d.blocks⟩ d.strings

inductive FunctionsCode (env : Env) :
    List Constant → List FnDef → List Function → List Constant → Prop where
  | nil {strings} : FunctionsCode env strings [] [] strings
  | cons {strings f rest g strings1 gs strings2} (hf : FunctionCode env strings f g strings1)
      (hrest : FunctionsCode env strings1 rest gs strings2) :
      FunctionsCode env strings (f :: rest) (g :: gs) strings2

/-! ## Lowering follows the rules -/

namespace Lower

theorem does_emit (i : Instr) : Does emission s (emit i) () [i] s := by
  rintro d rfl
  rfl

theorem does_emitValue (build : Register → Instr) :
    Does emission s (emitValue build) (.register s.nextRegister) [build s.nextRegister] s.bump := by
  rintro d rfl
  rfl

theorem does_allocate (ty : Ty) :
    Does emission s (allocate ty) s.nextRegister [] (s.allocate ty) := by
  rintro d rfl
  exact congrArg (fun d' => Except.ok (d.nextRegister, d')) (d.extend_nil (d.supply.allocate ty)).symm

theorem emits_intern (text : String) :
    Emits emission s (intern text) fun name c s' => c = [] ∧ Interned text s name s' := by
  rintro d rfl name d' h
  obtain ⟨_, _, ⟨⟩, h⟩ := bind_eq_ok.mp h
  cases hfind : d.strings.find? fun k => k.value == text with
  | some k =>
    simp only [hfind] at h
    cases h
    exact ⟨[], _, (emission.extend_supply d).symm, rfl, .old hfind⟩
  | none =>
    simp only [hfind] at h
    cases h
    exact ⟨[], { d.supply with strings := d.strings ++ [⟨s!".str.{d.strings.length}", text⟩] },
      (d.extend_nil { d.supply with strings := _ }).symm, rfl, .new hfind⟩

theorem emits_slotAddress (slot : Slot) :
    Emits emission s (slotAddress slot) fun a c s' => SlotAddress s slot a c s' := by
  exact .ite (fun h => (does_emitValue _).emits (.reference h))
    fun h => .pure (.direct (by simpa using h))

end Lower

open Lower

theorem emits_toValue (low : Lowered) :
    Emits emission s low.toValue fun v c s' => ToValue s low v c s' := by
  cases low with
  | value ty v => exact .pure .value
  | place ty a => exact .lift fun t ht => (does_emitValue _).emits (.load ht)

theorem emits_toAddress (low : Lowered) :
    Emits emission s low.toAddress fun a c s' => ToAddress s low a c s' := by
  cases low with
  | place ty a => exact .pure .place
  | value ty v =>
    exact .lift fun t ht => (does_allocate t).bind ((does_emit _).bind (.pure (.spill ht)))

theorem emits_lowerCast (v : Operand) (source target : StructLang.Ty) :
    Emits emission s (lowerCast v source target) fun w c s' => CastCode v source target s w c s' := by
  refine .ite (fun h => .pure (.same h)) fun h => .lift fun t hs => .lift fun t' ht => ?_
  refine .ite (fun htest => ?_) fun htest => .lift fun op hop => ?_
  · simp only [Bool.and_eq_true, decide_eq_true_eq] at htest
    exact (does_emitValue _).emits (.test h hs htest.1 htest.2)
  · exact (does_emitValue _).emits (.convert h hs ht (by simpa using htest) hop)

theorem emits_lowerCall (callee : Callee) (params : List Ty) (args : List (Ty × Operand)) :
    Emits emission s (lowerCall callee params args) fun v c s' =>
      CallCode callee params args s v c s' := by
  refine .lift fun t ht => .ite (fun h => ?_) fun h => ?_
  · subst h
    exact (does_emit _).bind (.pure (.void ht))
  · exact (does_emitValue _).emits (.result ht h)

mutual

theorem emits_lowerExpr (e : Expr) (s : Supply) :
    Emits emission s (lowerExpr env scope e) fun low c s' => ExprCode env scope e s low c s' := by
  cases e with
  | integer n value long => exact .lift fun ty hty => .lift fun t ht => .pure (.integer hty ht)
  | float n value single => exact .lift fun ty hty => .lift fun t ht => .pure (.float hty ht)
  | bool n value => exact .lift fun ty hty => .pure (.bool hty)
  | text n value =>
    refine .lift fun ty hty => (emits_intern value).bind fun v c s' hv => .pure ?_
    obtain ⟨rfl, hv⟩ := hv
    exact .text hty hv
  | var n name =>
    refine .lift fun ty hty => .lift fun slot hslot => (emits_slotAddress slot).bind fun a c s' ha => ?_
    exact .pure (by simpa using ExprCode.var hty hslot ha)
  | unary n op e =>
    refine .lift fun ty hty => (emits_lowerExpr e s).bind fun low c1 s1 he => ?_
    refine (emits_toValue low).bind fun v c2 s2 hv => .lift fun t ht => (does_emitValue _).bind ?_
    exact .pure (.unary hty he hv ht)
  | binary n op l r =>
    refine .lift fun ty hty => .lift fun operandTy hop => .lift fun t ht => ?_
    refine (emits_lowerExpr l s).bind fun low1 c1 s1 hl => ?_
    refine (emits_toValue low1).bind fun v c2 s2 hv => ?_
    refine (emits_lowerExpr r s2).bind fun low2 c3 s3 hr => ?_
    refine (emits_toValue low2).bind fun w c4 s4 hw => ?_
    refine .ite (fun hcmp => .lift fun pred hpred => (does_emitValue _).bind (.pure ?_))
      fun hcmp => .lift fun o ho => (does_emitValue _).bind (.pure ?_)
    · exact .compare hty hop ht hl hv hr hw hcmp hpred
    · exact .arith hty hop ht hl hv hr hw (by simpa using hcmp) ho
  | cast n e target =>
    refine .lift fun ty hty => .lift fun source hsource => ?_
    refine (emits_lowerExpr e s).bind fun low c1 s1 he => (emits_toValue low).bind fun v c2 s2 hv => ?_
    refine (emits_lowerCast v source target).bind fun w c3 s3 hw => .pure ?_
    simpa using ExprCode.cast hty hsource he hv hw
  | call n name args =>
    refine .lift fun ty hty => .lift fun ts hts => .lift fun callee hcallee => ?_
    refine .lift fun params hparams => ?_
    refine (emits_lowerArgs _ args s).bind fun lowered c1 s1 hargs => ?_
    refine (emits_lowerCall callee params lowered).bind fun v c2 s2 hcall => .pure ?_
    simpa using ExprCode.call hty hts hcallee hparams hargs hcall
  | construct n name args =>
    refine .lift fun ty hty => (does_allocate _).bind ?_
    refine (emits_lowerFields name _ 0 args _).bind fun _ c2 s2 hargs => ?_
    exact (does_emitValue _).bind (.pure (.construct hty hargs))
  | access n e member =>
    refine .lift fun ty hty => .lift fun objectTy hobject => .lift fun m hmember => ?_
    obtain ⟨struct, index⟩ := m
    refine (emits_lowerExpr e s).bind fun low c1 s1 he => ?_
    refine (emits_toAddress low).bind fun a c2 s2 ha => (does_emitValue _).bind ?_
    exact .pure (.access hty hobject hmember he ha)

theorem emits_lowerArgs (receiver : Bool) (es : List Expr) (s : Supply) :
    Emits emission s (lowerArgs env scope receiver es) fun args c s' =>
      ArgsCode env scope receiver es s args c s' := by
  cases es with
  | nil => exact .pure .nil
  | cons e es =>
    cases receiver with
    | true =>
      refine (emits_lowerExpr e s).bind fun low c1 s1 he => ?_
      refine (emits_toAddress low).bind fun a c2 s2 ha => ?_
      refine (emits_lowerArgs false es s2).bind fun args c3 s3 hes => .pure ?_
      simpa using ArgsCode.receiver he ha hes
    | false =>
      refine (emits_lowerExpr e s).bind fun low c1 s1 he => ?_
      refine (emits_toValue low).bind fun v c2 s2 hv => ?_
      refine .lift fun ty hty => .lift fun t ht => ?_
      refine (emits_lowerArgs false es s2).bind fun args c3 s3 hes => .pure ?_
      simpa using ArgsCode.value he hv hty ht hes

theorem emits_lowerFields (struct : String) (slot : Register) (index : Nat) (es : List Expr)
    (s : Supply) :
    Emits emission s (lowerFields env scope struct slot index es) fun _ c s' =>
      FieldsCode env scope struct slot index es s c s' := by
  cases es with
  | nil => exact .pure .nil
  | cons e es =>
    refine .lift fun ty hty => .lift fun t ht => ?_
    refine (emits_lowerExpr e s).bind fun low c1 s1 he => ?_
    refine (emits_toValue low).bind fun v c2 s2 hv => ?_
    refine (does_emitValue _).bind ((does_emit _).bind ?_)
    exact (emits_lowerFields struct slot (index + 1) es _).mono fun _ _ _ hes =>
      .cons hty ht he hv hes

end

theorem emits_lowerValue (e : Expr) (s : Supply) :
    Emits emission s (lowerValue env scope e) fun v c s' => ValueCode env scope e s v c s' :=
  (emits_lowerExpr e s).bind fun low _ _ he => (emits_toValue low).mono fun _ _ _ hv => .mk he hv

variable {β : Type}

theorem leads_of_emits {env : BodyEnv}
    (h : Emits emission d.supply x fun inner c s => StmtCode env scope stmt d inner (d.extend s c)) :
    Leads d x fun inner d' => StmtCode env scope stmt d inner d' := by
  refine (Leads.of_emits h).mono ?_
  rintro inner _ ⟨c, s, rfl, hcode⟩
  exact hcode

theorem leads_isTerminated {k : Bool → Lower β} (h : Leads d (k d.isTerminated) R) :
    Leads d (Lower.isTerminated >>= k) R :=
  h

theorem leads_terminateIfOpen_eq (d : Draft) (t : Terminator) :
    Leads d (terminateIfOpen t) fun _ d' => d' = d.terminateIfOpen t := by
  refine leads_isTerminated ?_
  rw [Draft.terminateIfOpen]
  cases d.isTerminated with
  | true => exact .pure rfl
  | false => exact .modify (.pure rfl)

theorem leads_terminateIfOpen (h : Leads (d.terminateIfOpen t) (k ()) R) :
    Leads d (terminateIfOpen t >>= k) R :=
  (leads_terminateIfOpen_eq d t).bind fun _ _ hd => hd ▸ h

theorem leads_freshLabel {k : Nat → Lower β} (h : Leads d.bumpLabel (k d.nextLabel) R) :
    Leads d (freshLabel >>= k) R :=
  h

theorem leads_addBlock {k : Nat → Lower β} (n : Nat) (hn : d.blocks.length = n)
    (h : Leads (d.addBlock label) (k n) R) : Leads d (addBlock label >>= k) R := by
  subst hn
  exact h

theorem leads_terminate (h : Leads (d.terminate t) (k ()) R) : Leads d (terminate t >>= k) R :=
  h

theorem leads_enter (h : Leads (d.enter n) (k ()) R) : Leads d (enter n >>= k) R :=
  h

theorem leads_openBranch {k : Nat → Nat → Nat → Lower β} (n : Nat) (hn : d.blocks.length = n)
    (h : Leads (d.openBranch v) (k n (n + 1) (n + 2)) R) : Leads d (do
      let n ← freshLabel
      let thenId ← addBlock s!"then.{n}"
      let elseId ← addBlock s!"else.{n}"
      let mergeId ← addBlock s!"merge.{n}"
      terminate (.branch v thenId elseId)
      enter thenId
      k thenId elseId mergeId) R := by
  subst hn
  refine leads_freshLabel (leads_addBlock d.blocks.length rfl ?_)
  refine leads_addBlock (d.blocks.length + 1) (by simp [Draft.addBlock, Draft.bumpLabel]) ?_
  refine leads_addBlock (d.blocks.length + 2) (by simp [Draft.addBlock, Draft.bumpLabel]) ?_
  exact leads_terminate (leads_enter h)

mutual

theorem leads_lowerStmt {env : BodyEnv} (stmt : Stmt) (scope : Scope Slot) (d : Draft) :
    Leads d (lowerStmt env scope stmt) fun inner d' => StmtCode env scope stmt d inner d' := by
  cases stmt with
  | declare decl =>
    refine .lift fun slot hslot => .lift fun t ht => leads_of_emits ?_
    cases hinit : decl.init with
    | some e =>
      refine (emits_lowerValue e d.supply).bind fun v c s hv => ?_
      exact (does_emit _).bind (.pure (.declare hslot ht hinit hv))
    | none =>
      simp only [pure_bind]
      exact (does_emit _).bind (.pure (.declareZero hslot ht hinit))
  | assign span name e =>
    refine .lift fun slot hslot => leads_of_emits ?_
    refine (emits_lowerValue e d.supply).bind fun v c s1 hv => ?_
    refine (emits_slotAddress slot).bind fun a c' s2 ha => .lift fun t ht => ?_
    exact (does_emit _).bind (.pure (.assign hslot hv ha ht))
  | branch span cond t e =>
    cases e with
    | none =>
      refine (Leads.of_emits (emits_lowerValue cond d.supply)).bind ?_
      rintro v _ ⟨c, s, rfl, hv⟩
      refine .of_does (does_emitValue _) ?_
      rw [emission.extend_extend]
      refine leads_openBranch d.blocks.length (d.length_extend _ _) ?_
      refine (leads_lowerBlock t scope.push _).bind fun _ d1 ht => ?_
      refine leads_terminateIfOpen (leads_enter (leads_terminateIfOpen (leads_enter (.pure ?_))))
      exact .branch hv ht
    | some e =>
      refine (Leads.of_emits (emits_lowerValue cond d.supply)).bind ?_
      rintro v _ ⟨c, s, rfl, hv⟩
      refine .of_does (does_emitValue _) ?_
      rw [emission.extend_extend]
      refine leads_openBranch d.blocks.length (d.length_extend _ _) ?_
      refine (leads_lowerBlock t scope.push _).bind fun _ d1 ht => ?_
      refine leads_terminateIfOpen (leads_enter ?_)
      refine (leads_lowerBlock e scope.push _).bind fun _ d2 he => ?_
      exact leads_terminateIfOpen (leads_enter (.pure (.branchElse hv ht he)))
  | ret span e =>
    cases e with
    | none => exact .modify (.pure .retNone)
    | some e =>
      refine .lift fun ty hty => .lift fun t ht => ?_
      refine (Leads.of_emits (emits_lowerValue e d.supply)).bind ?_
      rintro v _ ⟨c, s, rfl, hv⟩
      exact .modify (.pure (.ret hty ht hv))
  | expr e =>
    refine leads_of_emits ((emits_lowerValue e d.supply).bind fun v c s hv => .pure ?_)
    simpa using StmtCode.expr hv

theorem leads_lowerStmts {env : BodyEnv} (stmts : List Stmt) (scope : Scope Slot) (d : Draft) :
    Leads d (lowerStmts env scope stmts) fun _ d' => StmtsCode env scope stmts d d' := by
  cases stmts with
  | nil => exact .pure .nil
  | cons stmt rest =>
    have hboth : Leads d.reopen (lowerStmt env scope stmt >>= fun inner =>
        lowerStmts env inner rest) fun _ d' => StmtsCode env scope (stmt :: rest) d d' :=
      (leads_lowerStmt stmt scope d.reopen).bind fun inner d1 hs =>
        (leads_lowerStmts rest inner d1).mono fun _ _ hrest => .cons hs hrest
    refine leads_isTerminated ?_
    rw [Draft.reopen] at hboth
    cases hdone : d.isTerminated <;> rw [hdone] at hboth <;> exact hboth

theorem leads_lowerBlock {env : BodyEnv} (b : StructLang.Block) (scope : Scope Slot) (d : Draft) :
    Leads d (lowerBlock env scope b) fun _ d' => BlockCode env scope b d d' := by
  cases b with
  | mk n stmts => exact (leads_lowerStmts stmts scope d).mono fun _ _ h => .mk h

end

theorem HoistCode.append (h : HoistCode env ids s declared s1)
    (h' : HoistCode env ids' s1 declared' s2) :
    HoistCode env (ids ++ ids') s (declared ++ declared') s2 := by
  induction h with
  | nil => exact h'
  | cons hty ht _ ih => exact .cons hty ht (ih h')

theorem emits_hoistDecls (ids : List Nat) (s : Supply) :
    Emits emission s (hoistDecls env ids) fun declared c s' =>
      c = [] ∧ HoistCode env ids s declared s' := by
  induction ids generalizing s with
  | nil => exact .pure ⟨rfl, .nil⟩
  | cons id ids ih =>
    unfold hoistDecls
    cases hty : env.types[id]? with
    | none => exact fun _ _ _ _ h => nomatch h
    | some ty =>
      refine .lift fun t ht => (does_allocate t).bind ?_
      refine (ih _).bind fun declared c s2 hd => .pure ?_
      obtain ⟨rfl, hd⟩ := hd
      exact ⟨rfl, .cons hty ht hd⟩

mutual

theorem emits_hoistStmts (stmts : List Stmt) (s : Supply) :
    Emits emission s (hoistStmts env stmts) fun declared c s' =>
      c = [] ∧ HoistCode env (hoistedIn env stmts) s declared s' := by
  cases stmts with
  | nil => exact .pure ⟨rfl, .nil⟩
  | cons stmt rest =>
    cases stmt with
    | branch span cond t e =>
      cases e with
      | none =>
        refine (emits_hoistBlock t s).bind fun a c1 s1 ha => ?_
        obtain ⟨rfl, ha⟩ := ha
        refine (emits_hoistStmts rest s1).bind fun b c2 s2 hb => .pure ?_
        obtain ⟨rfl, hb⟩ := hb
        exact ⟨rfl, ha.append hb⟩
      | some e =>
        refine (emits_hoistBlock t s).bind fun a c1 s1 ha => ?_
        obtain ⟨rfl, ha⟩ := ha
        refine (emits_hoistBlock e s1).bind fun b c2 s2 hb => ?_
        obtain ⟨rfl, hb⟩ := hb
        refine (emits_hoistStmts rest s2).bind fun c c3 s3 hc => .pure ?_
        obtain ⟨rfl, hc⟩ := hc
        exact ⟨rfl, (ha.append hb).append hc⟩
    | declare | assign | ret | expr => exact emits_hoistStmts rest s

theorem emits_hoistBlock (b : StructLang.Block) (s : Supply) :
    Emits emission s (hoistBlock env b) fun declared c s' =>
      c = [] ∧ HoistCode env (hoisted env b) s declared s' := by
  cases b with
  | mk node stmts =>
    refine (emits_hoistDecls _ s).bind fun own c1 s1 ho => ?_
    obtain ⟨rfl, ho⟩ := ho
    refine (emits_hoistStmts stmts s1).bind fun inner c2 s2 hi => .pure ?_
    obtain ⟨rfl, hi⟩ := hi
    exact ⟨rfl, ho.append hi⟩

end

theorem emits_storeParams (params : List Param) (index : Nat) (scope : Scope Slot) (s : Supply) :
    Emits emission s (storeParams index scope params) fun inner c s' =>
      ParamsCode index scope params s inner c s' := by
  induction params generalizing index scope s with
  | nil => exact .pure .nil
  | cons p rest ih =>
    refine (does_allocate p.ty).bind ((does_emit _).bind ?_)
    exact (ih _ _ _).mono fun _ _ _ hrest => .cons hrest

theorem leads_lowerBody (f : FnDef) (params : List Param) (ret : Ty) (d : Draft) :
    Leads d (lowerBody env f params ret) fun _ d' => BodyCode env f params ret d d' := by
  refine (Leads.of_emits (emits_storeParams params 0 Scope.empty.push d.supply)).bind ?_
  rintro scope _ ⟨c, s1, rfl, hp⟩
  refine (Leads.of_emits (emits_hoistBlock f.body s1)).bind ?_
  rintro declared _ ⟨_, s2, rfl, rfl, hh⟩
  rw [emission.extend_extend, List.append_nil]
  refine (leads_lowerBlock f.body scope _).bind fun _ d1 hb => ?_
  exact (leads_terminateIfOpen_eq d1 _).mono fun _ _ hd => hd ▸ .mk hp hh hb

theorem functionCode_of_eq_ok (h : lowerFunction env strings f = .ok (g, strings')) :
    FunctionCode env strings f g strings' := by
  unfold lowerFunction at h
  obtain ⟨params, hp, h⟩ := except_bind_eq_ok.mp h
  obtain ⟨ret, hr, h⟩ := except_bind_eq_ok.mp h
  obtain ⟨⟨_, d⟩, hb, h⟩ := except_bind_eq_ok.mp h
  cases h
  exact .mk hp hr (leads_lowerBody f params ret _ _ d hb)

theorem functionsCode_of_eq_ok (h : lowerFunctions env strings fns = .ok (gs, strings')) :
    FunctionsCode env strings fns gs strings' := by
  induction fns generalizing strings gs with
  | nil =>
    cases h
    exact .nil
  | cons f rest ih =>
    unfold lowerFunctions at h
    obtain ⟨⟨g, strings1⟩, hf, h⟩ := except_bind_eq_ok.mp h
    obtain ⟨⟨gs', strings2⟩, hrest, h⟩ := except_bind_eq_ok.mp h
    cases h
    exact .cons (functionCode_of_eq_ok hf) (ih hrest)

end StructLang.Ssa
