import StructLang.Flat.Lower
import StructLang.Proofs.Emission

/-!
# Flat code

What lowering gives, as relations. For an expression they relate the supply before, the result, the code
and the supply after; for a statement, the draft before and the draft after. Every later fact about flat
code is proved from these rules.
-/

namespace StructLang.Flat

/-- What lowering an expression draws on. -/
structure Supply where
  data : List Datum
  nextTemp : Nat
  slots : List Instr

namespace Supply

def temp (s : Supply) : String := s!".t{s.nextTemp}"

def bump (s : Supply) : Supply := { s with nextTemp := s.nextTemp + 1 }

def slot (s : Supply) (hint : String) : String := s!"{hint}.{s.nextTemp}"

def allocate (s : Supply) (hint : String) (align size : Nat) : Supply :=
  { s with
    nextTemp := s.nextTemp + 1
    slots := s.slots ++ [.assign (s.slot hint) .long (.alloc align) [.int (Int64.ofNat size)]] }

end Supply

def Draft.supply (d : Draft) : Supply := ⟨d.data, d.nextTemp, d.slots⟩

def Draft.extend (d : Draft) (s : Supply) (code : List Instr) : Draft :=
  ⟨s.data, s.nextTemp, d.nextLabel, s.slots, d.body ++ code⟩

/-- Lowering an expression adds code at the end of the body. -/
def emission : Emission Draft Supply Instr where
  supply := Draft.supply
  extend := Draft.extend
  supply_extend _ _ _ := rfl
  extend_supply d := by simp [Draft.extend, Draft.supply]
  extend_extend d s c s' c' := by simp [Draft.extend]

/-! ## Rules -/

/-- Stack space for a value of a type. -/
inductive Allocated (env : Env) (ty : Ty) (hint : String) (s : Supply) : String → Supply → Prop where
  | mk {align} (h : Lower.alignOf env ty = .ok align) :
      Allocated env ty hint s (s.slot hint) (s.allocate hint align (env.layouts.sizeOf ty))

/-- Writing a value of a type to memory. -/
inductive StoreCode (env : Env) (v address : Operand) : Ty → List Instr → Prop where
  | struct {name} :
      StoreCode env v address (.struct name) [.blit v address (env.layouts.sizeOf (.struct name))]
  | scalar {ty cls} (h : ty.isStruct = false) (hc : Class.ofSource ty = .ok cls) :
      StoreCode env v address ty [.store cls v address]

/-- Taking the value of what an expression became. -/
inductive ToValue (s : Supply) : Lowered → Operand → List Instr → Supply → Prop where
  | value {ty v} : ToValue s (.value ty v) v [] s
  | struct {name a} : ToValue s (.place (.struct name) a) a [] s
  | load {ty a cls} (h : ty.isStruct = false) (hc : Class.ofSource ty = .ok cls) :
      ToValue s (.place ty a) (.temp s.temp) [.assign s.temp cls (.load cls) [a]] s.bump

/-- Taking the address of what an expression became. -/
inductive ToAddress (env : Env) (s : Supply) : Lowered → Operand → List Instr → Supply → Prop where
  | place {ty a} : ToAddress env s (.place ty a) a [] s
  | struct {name v} : ToAddress env s (.value (.struct name) v) v [] s
  | spill {ty v slot s' c} (h : ty.isStruct = false) (ha : Allocated env ty "spill" s slot s')
      (hs : StoreCode env v (.temp slot) ty c) :
      ToAddress env s (.value ty v) (.temp slot) c s'

/-- Taking the address of a variable. -/
inductive SlotAddress (s : Supply) (slot : Slot) : Operand → List Instr → Supply → Prop where
  | direct (h : slot.byReference = false) : SlotAddress s slot (.temp slot.temp) [] s
  | reference (h : slot.byReference = true) :
      SlotAddress s slot (.temp s.temp)
        [.assign s.temp .long (.load .long) [.temp slot.temp]] s.bump

/-- The datum of a text. -/
inductive Interned (text : String) (s : Supply) : Operand → Supply → Prop where
  | old {d} (h : (s.data.find? fun d => d.value == text) = some d) :
      Interned text s (.global d.name) s
  | new (h : (s.data.find? fun d => d.value == text) = none) :
      Interned text s (.global s!".str{s.data.length}")
        { s with data := s.data ++ [⟨s!".str{s.data.length}", text⟩] }

inductive CastCode (v : Operand) (source target : Ty) (s : Supply) :
    Operand → List Instr → Supply → Prop where
  | same (h : source = target) : CastCode v source target s v [] s
  | convert {cls op args} (h : source ≠ target) (hop : castOp v source target = .ok (cls, op, args)) :
      CastCode v source target s (.temp s.temp) [.assign s.temp cls op args] s.bump

inductive CallCode (callee : Callee) (args : List (Class × Operand)) (s : Supply) :
    Operand → List Instr → Supply → Prop where
  | void (h : callee.ret = .void) :
      CallCode callee args s (.int 0) [.call none callee.linkage args] s
  | result {cls} (h : callee.ret ≠ .void) (hc : Class.passed callee.ret = .ok cls) :
      CallCode callee args s (.temp s.temp) [.call (some (s.temp, cls)) callee.linkage args] s.bump

mutual

/-- The code of an expression and what it becomes. -/
inductive ExprCode (env : Env) (scope : Scope Slot) :
    Expr → Supply → Lowered → List Instr → Supply → Prop where
  | integer {n value long ty s} (hty : env.types.typeOf (.integer n value long) = .ok ty) :
      ExprCode env scope (.integer n value long) s (.value ty (intLiteral value ty)) [] s
  | float {n value single ty s} (hty : env.types.typeOf (.float n value single) = .ok ty) :
      ExprCode env scope (.float n value single) s (.value ty (floatLiteral value ty)) [] s
  | bool {n value ty s} (hty : env.types.typeOf (.bool n value) = .ok ty) :
      ExprCode env scope (.bool n value) s (.value ty (.int (if value then 1 else 0))) [] s
  | text {n value ty s v s'} (hty : env.types.typeOf (.text n value) = .ok ty)
      (hv : Interned value s v s') : ExprCode env scope (.text n value) s (.value ty v) [] s'
  | var {n name ty slot s a c s'} (hty : env.types.typeOf (.var n name) = .ok ty)
      (hslot : scope.storage name = .ok slot) (ha : SlotAddress s slot a c s') :
      ExprCode env scope (.var n name) s (.place ty a) c s'
  | unary {n op e ty s low c1 s1 v c2 s2 cls} (hty : env.types.typeOf (.unary n op e) = .ok ty)
      (he : ExprCode env scope e s low c1 s1) (hv : ToValue s1 low v c2 s2)
      (hc : Class.ofSource ty = .ok cls) :
      ExprCode env scope (.unary n op e) s (.value ty (.temp s2.temp))
        (c1 ++ (c2 ++ [.assign s2.temp cls (unaryOp op v).1 (unaryOp op v).2])) s2.bump
  | compare {n op l r ty operandTy s low1 c1 s1 v c2 s2 low2 c3 s3 w c4 s4 cls cond}
      (hty : env.types.typeOf (.binary n op l r) = .ok ty)
      (hop : env.types.typeOf l = .ok operandTy)
      (hl : ExprCode env scope l s low1 c1 s1) (hv : ToValue s1 low1 v c2 s2)
      (hr : ExprCode env scope r s2 low2 c3 s3) (hw : ToValue s3 low2 w c4 s4)
      (hc : Class.ofSource operandTy = .ok cls) (hcmp : op.isComparison = true)
      (hcond : Cond.ofSource op operandTy = .ok cond) :
      ExprCode env scope (.binary n op l r) s (.value ty (.temp s4.temp))
        (c1 ++ (c2 ++ (c3 ++ (c4 ++ [.assign s4.temp .word (.compare cond cls) [v, w]])))) s4.bump
  | arith {n op l r ty operandTy s low1 c1 s1 v c2 s2 low2 c3 s3 w c4 s4 cls o}
      (hty : env.types.typeOf (.binary n op l r) = .ok ty)
      (hop : env.types.typeOf l = .ok operandTy)
      (hl : ExprCode env scope l s low1 c1 s1) (hv : ToValue s1 low1 v c2 s2)
      (hr : ExprCode env scope r s2 low2 c3 s3) (hw : ToValue s3 low2 w c4 s4)
      (hc : Class.ofSource operandTy = .ok cls) (hcmp : op.isComparison = false)
      (ho : Op.ofSource op operandTy = .ok o) :
      ExprCode env scope (.binary n op l r) s (.value ty (.temp s4.temp))
        (c1 ++ (c2 ++ (c3 ++ (c4 ++ [.assign s4.temp cls o [v, w]])))) s4.bump
  | cast {n e target ty source s low c1 s1 v c2 s2 w c3 s3}
      (hty : env.types.typeOf (.cast n e target) = .ok ty)
      (hsource : env.types.typeOf e = .ok source)
      (he : ExprCode env scope e s low c1 s1) (hv : ToValue s1 low v c2 s2)
      (hw : CastCode v source target s2 w c3 s3) :
      ExprCode env scope (.cast n e target) s (.value ty w) (c1 ++ (c2 ++ c3)) s3
  | call {n name args ty ts callee s lowered c1 s1 v c2 s2}
      (hty : env.types.typeOf (.call n name args) = .ok ty)
      (hts : env.types.typesOf args = .ok ts) (hcallee : env.symbols.callee name ts = .ok callee)
      (hargs : ArgsCode env scope callee.hasReceiver args s lowered c1 s1)
      (hcall : CallCode callee lowered s1 v c2 s2) :
      ExprCode env scope (.call n name args) s (.value ty v) (c1 ++ c2) s2
  | construct {n name args ty layout s slot s1 c s2}
      (hty : env.types.typeOf (.construct n name args) = .ok ty)
      (hl : Lower.layoutOf env name = .ok layout) (ha : Allocated env ty "new" s slot s1)
      (hargs : FieldsCode env scope (.temp slot) layout.fields args s1 c s2) :
      ExprCode env scope (.construct n name args) s (.value ty (.temp slot)) c s2
  | access {n e member ty objectTy offset s low c1 s1 a c2 s2}
      (hty : env.types.typeOf (.access n e member) = .ok ty)
      (hobject : env.types.typeOf e = .ok objectTy)
      (hoffset : memberOffset env objectTy member = .ok offset)
      (he : ExprCode env scope e s low c1 s1) (ha : ToAddress env s1 low a c2 s2) :
      ExprCode env scope (.access n e member) s (.place ty (.temp s2.temp))
        (c1 ++ (c2 ++ [.assign s2.temp .long .add [a, .int (Int64.ofNat offset)]])) s2.bump

/-- The code of arguments, the first of which may be a receiver. -/
inductive ArgsCode (env : Env) (scope : Scope Slot) :
    Bool → List Expr → Supply → List (Class × Operand) → List Instr → Supply → Prop where
  | nil {receiver s} : ArgsCode env scope receiver [] s [] [] s
  | receiver {e es s low c1 s1 a c2 s2 args c3 s3} (he : ExprCode env scope e s low c1 s1)
      (ha : ToAddress env s1 low a c2 s2) (hes : ArgsCode env scope false es s2 args c3 s3) :
      ArgsCode env scope true (e :: es) s ((.long, a) :: args) (c1 ++ (c2 ++ c3)) s3
  | value {e es s low c1 s1 v c2 s2 ty cls args c3 s3} (he : ExprCode env scope e s low c1 s1)
      (hv : ToValue s1 low v c2 s2) (hty : env.types.typeOf e = .ok ty)
      (hc : Class.passed ty = .ok cls) (hes : ArgsCode env scope false es s2 args c3 s3) :
      ArgsCode env scope false (e :: es) s ((cls, v) :: args) (c1 ++ (c2 ++ c3)) s3

/-- The code that stores values into fields of the struct at an address. -/
inductive FieldsCode (env : Env) (scope : Scope Slot) :
    Operand → List FieldLayout → List Expr → Supply → List Instr → Supply → Prop where
  | nil {base fields s} : FieldsCode env scope base fields [] s [] s
  | none {base es s} : FieldsCode env scope base [] es s [] s
  | cons {base field fields e es s low c1 s1 v c2 s2 c3 c4 s3} (he : ExprCode env scope e s low c1 s1)
      (hv : ToValue s1 low v c2 s2) (hs : StoreCode env v (.temp s2.temp) field.ty c3)
      (hes : FieldsCode env scope base fields es s2.bump c4 s3) :
      FieldsCode env scope base (field :: fields) (e :: es) s
        (c1 ++ (c2 ++ (.assign s2.temp .long .add [base, .int (Int64.ofNat field.offset)] ::
          (c3 ++ c4)))) s3

end

inductive ValueCode (env : Env) (scope : Scope Slot) (e : Expr) (s : Supply) :
    Operand → List Instr → Supply → Prop where
  | mk {low c1 s1 v c2 s2} (he : ExprCode env scope e s low c1 s1) (hv : ToValue s1 low v c2 s2) :
      ValueCode env scope e s v (c1 ++ c2) s2

/-- Zero words from an offset on. -/
inductive ZeroWords (a : Operand) : Nat → Nat → Supply → List Instr → Supply → Prop where
  | nil {offset s} : ZeroWords a 0 offset s [] s
  | first {words s c s'} (h : ZeroWords a words 4 s c s') :
      ZeroWords a (words + 1) 0 s (.store .word (.int 0) a :: c) s'
  | next {words offset s c s'} (hne : offset ≠ 0) (h : ZeroWords a words (offset + 4) s.bump c s') :
      ZeroWords a (words + 1) offset s
        (.assign s.temp .long .add [a, .int (Int64.ofNat offset)] ::
          .store .word (.int 0) (.temp s.temp) :: c) s'

/-- Writing the zero of a type to memory. -/
inductive ZeroCode (env : Env) (a : Operand) (s : Supply) : Ty → List Instr → Supply → Prop where
  | struct {name c s'} (h : ZeroWords a ((env.layouts.sizeOf (.struct name) + 3) / 4) 0 s c s') :
      ZeroCode env a s (.struct name) c s'
  | single : ZeroCode env a s .f32 [.store .single (.single ⟨0⟩) a] s
  | double : ZeroCode env a s .f64 [.store .double (.double .zero) a] s
  | scalar {ty cls} (hs : ty.isStruct = false) (hf : ty.isFloat = false)
      (hc : Class.ofSource ty = .ok cls) : ZeroCode env a s ty [.store cls (.int 0) a] s

namespace Draft

def emit (d : Draft) (i : Instr) : Draft := { d with body := d.body ++ [i] }

def isTerminated (d : Draft) : Bool := (d.body.getLast?.map Instr.isJump).getD false

def emitIfOpen (d : Draft) (i : Instr) : Draft := if d.isTerminated then d else d.emit i

def label (d : Draft) (k : Nat) : String := s!".L{d.nextLabel + k}"

def bumpLabel (d : Draft) (k : Nat) : Draft := { d with nextLabel := d.nextLabel + k }

def reopen (d : Draft) : Draft :=
  if d.isTerminated then (d.bumpLabel 1).emit (.label (d.label 0)) else d

def openBranch (d : Draft) (v : Operand) : Draft :=
  ((d.bumpLabel 3).emit (.jumpIf v (d.label 0) (d.label 1))).emit (.label (d.label 0))

/-- The end of one arm of a branch, and the label of what follows. -/
def closeArm (d : Draft) (next last : String) : Draft :=
  (d.emitIfOpen (.jump last)).emit (.label next)

end Draft

mutual

/-- The code of a statement and the scope after it. -/
inductive StmtCode (env : Env) : Scope Slot → Stmt → Draft → Scope Slot → Draft → Prop where
  | declare {scope decl d ty slot s1 e v c s2 c'} (hty : env.types.typeOfDecl decl = .ok ty)
      (ha : Allocated env ty decl.name d.supply slot s1) (hinit : decl.init = some e)
      (hv : ValueCode env scope e s1 v c s2) (hs : StoreCode env v (.temp slot) ty c') :
      StmtCode env scope (.declare decl) d (scope.define decl.name ⟨slot, ty, false⟩)
        (d.extend s2 (c ++ c'))
  | declareZero {scope decl d ty slot s1 c s2} (hty : env.types.typeOfDecl decl = .ok ty)
      (ha : Allocated env ty decl.name d.supply slot s1) (hinit : decl.init = none)
      (hz : ZeroCode env (.temp slot) s1 ty c s2) :
      StmtCode env scope (.declare decl) d (scope.define decl.name ⟨slot, ty, false⟩)
        (d.extend s2 c)
  | assign {scope span name e d slot v c s1 a c' s2 c''} (hslot : scope.storage name = .ok slot)
      (hv : ValueCode env scope e d.supply v c s1) (ha : SlotAddress s1 slot a c' s2)
      (hs : StoreCode env v a slot.ty c'') :
      StmtCode env scope (.assign span name e) d scope (d.extend s2 (c ++ (c' ++ c'')))
  | branch {scope span cond t d v c s d1} (hv : ValueCode env scope cond d.supply v c s)
      (ht : BlockCode env scope.push t ((d.extend s c).openBranch v) d1) :
      StmtCode env scope (.branch span cond t none) d scope
        ((d1.closeArm (d.label 1) (d.label 2)).closeArm (d.label 2) (d.label 2))
  | branchElse {scope span cond t e d v c s d1 d2} (hv : ValueCode env scope cond d.supply v c s)
      (ht : BlockCode env scope.push t ((d.extend s c).openBranch v) d1)
      (he : BlockCode env scope.push e (d1.closeArm (d.label 1) (d.label 2)) d2) :
      StmtCode env scope (.branch span cond t (some e)) d scope
        (d2.closeArm (d.label 2) (d.label 2))
  | retNone {scope span d} : StmtCode env scope (.ret span none) d scope (d.emit (.ret none))
  | ret {scope span e d v c s} (hv : ValueCode env scope e d.supply v c s) :
      StmtCode env scope (.ret span (some e)) d scope ((d.extend s c).emit (.ret (some v)))
  | expr {scope e d v c s} (hv : ValueCode env scope e d.supply v c s) :
      StmtCode env scope (.expr e) d scope (d.extend s c)

inductive StmtsCode (env : Env) : Scope Slot → List Stmt → Draft → Draft → Prop where
  | nil {scope d} : StmtsCode env scope [] d d
  | cons {scope inner stmt rest d d1 d2} (hs : StmtCode env scope stmt d.reopen inner d1)
      (hrest : StmtsCode env inner rest d1 d2) : StmtsCode env scope (stmt :: rest) d d2

inductive BlockCode (env : Env) : Scope Slot → Block → Draft → Draft → Prop where
  | mk {scope n stmts d d'} (h : StmtsCode env scope stmts d d') :
      BlockCode env scope (.mk n stmts) d d'

end

inductive ReceiverCode (env : Env) (scope : Scope Slot) (s : Supply) :
    Option Ty → Scope Slot → List (Class × String) → List Instr → Supply → Prop where
  | none : ReceiverCode env scope s none scope [] [] s
  | some {ty slot s'} (ha : Allocated env .i64 "self" s slot s') :
      ReceiverCode env scope s (some ty) (scope.define "self" ⟨slot, ty, true⟩)
        [(.long, incoming "self")] [.store .long (.temp (incoming "self")) (.temp slot)] s'

inductive ParamsCode (env : Env) : Scope Slot → List TypedName → Supply →
    Scope Slot → List (Class × String) → List Instr → Supply → Prop where
  | nil {scope s} : ParamsCode env scope [] s scope [] [] s
  | cons {scope p rest s slot s1 c cls inner params c' s2} (ha : Allocated env p.ty p.name s slot s1)
      (hs : StoreCode env (.temp (incoming p.name)) (.temp slot) p.ty c)
      (hc : Class.passed p.ty = .ok cls)
      (hrest : ParamsCode env (scope.define p.name ⟨slot, p.ty, false⟩) rest s1 inner params c' s2) :
      ParamsCode env scope (p :: rest) s inner ((cls, incoming p.name) :: params) (c ++ c') s2

/-- The code of a body, from an empty draft on, and the parameters. -/
inductive BodyCode (env : Env) (f : FnDef) (d : Draft) : List (Class × String) → Draft → Prop where
  | mk {scope1 receiver c1 s1 scope2 params c2 s2 d1}
      (hr : ReceiverCode env Scope.empty.push d.supply f.receiver scope1 receiver c1 s1)
      (hp : ParamsCode env scope1 f.params s1 scope2 params c2 s2)
      (hb : BlockCode env scope2 f.body (d.extend s2 (c1 ++ c2)) d1) :
      BodyCode env f d (receiver ++ params)
        (d1.emitIfOpen (if f.ret = .void then .ret none else .halt))

inductive FunctionCode (env : Env) (before : Draft) (f : FnDef) : Function → Draft → Prop where
  | mk {params d ret} (hb : BodyCode env f { before with slots := [], body := [] } params d)
      (hr : resultClass f.ret = .ok ret) :
      FunctionCode env before f ⟨f.linkage, f.linkage == entryPoint, params, ret,
        .label "start" :: d.slots ++ d.body⟩ d

inductive FunctionsCode (env : Env) : Draft → List FnDef → List Function → Draft → Prop where
  | nil {d} : FunctionsCode env d [] [] d
  | cons {d f rest g d1 gs d2} (hf : FunctionCode env d f g d1)
      (hrest : FunctionsCode env d1 rest gs d2) : FunctionsCode env d (f :: rest) (g :: gs) d2

/-! ## Lowering follows the rules -/

namespace Lower

theorem does_freshNumber : Does emission s freshNumber s.nextTemp [] s.bump := by
  rintro d rfl
  simp only [emission, Draft.extend, List.append_nil]
  rfl

theorem does_freshTemp : Does emission s freshTemp s.temp [] s.bump := by
  rintro d rfl
  simp only [emission, Draft.extend, List.append_nil]
  rfl

theorem does_emit (i : Instr) : Does emission s (emit i) () [i] s := by
  rintro d rfl
  rfl

theorem does_assign (cls : Class) (op : Op) (args : List Operand) :
    Does emission s (assign cls op args) (.temp s.temp) [.assign s.temp cls op args] s.bump := by
  rintro d rfl
  rfl

theorem emits_allocate (ty : Ty) (hint : String) :
    Emits emission s (allocate env ty hint) fun slot c s' =>
      c = [] ∧ Allocated env ty hint s slot s' := by
  refine .lift fun align halign => does_freshNumber.bind ?_
  rintro ⟨data, next, label, slots, body⟩ hd _ _ ⟨⟩
  simp only [emission, Draft.supply, Supply.bump, Supply.mk.injEq] at hd
  obtain ⟨rfl, rfl, rfl⟩ := hd
  exact ⟨[], _, by simp [emission, Draft.extend, Supply.allocate, Supply.slot], rfl, .mk halign⟩

theorem emits_intern (text : String) :
    Emits emission s (intern text) fun v c s' => c = [] ∧ Interned text s v s' := by
  rintro d rfl v d' h
  obtain ⟨_, _, ⟨⟩, h⟩ := bind_eq_ok.mp h
  cases hfind : d.data.find? fun d => d.value == text with
  | some datum =>
    simp only [hfind] at h
    cases h
    exact ⟨[], _, (emission.extend_supply d).symm, rfl, .old hfind⟩
  | none =>
    simp only [hfind] at h
    cases h
    exact ⟨[], _, by simp [emission, Draft.extend, Draft.supply], rfl, .new hfind⟩

theorem emits_slotAddress (slot : Slot) :
    Emits emission s (slotAddress slot) fun a c s' => SlotAddress s slot a c s' := by
  exact .ite (fun h => (does_assign _ _ _).emits (.reference h))
    fun h => .pure (.direct (by simpa using h))

theorem emits_store (ty : Ty) (v address : Operand) :
    Emits emission s (store env ty v address) fun _ c s' =>
      StoreCode env v address ty c ∧ s' = s := by
  refine .ite (fun h => ?_) fun h => .lift fun cls hcls => ?_
  · cases ty <;> cases h
    exact (does_emit _).emits ⟨.struct, rfl⟩
  · exact (does_emit _).emits ⟨.scalar (by simpa using h) hcls, rfl⟩

end Lower

open Lower

theorem emits_toValue (low : Lowered) :
    Emits emission s low.toValue fun v c s' => ToValue s low v c s' := by
  cases low with
  | value ty v => exact .pure .value
  | place ty a =>
    refine .ite (fun h => .pure ?_) fun h => .lift fun cls hcls => ?_
    · cases ty <;> cases h
      exact .struct
    · exact (does_assign _ _ _).emits (.load (by simpa using h) hcls)

theorem emits_toAddress (low : Lowered) :
    Emits emission s (low.toAddress env) fun a c s' => ToAddress env s low a c s' := by
  cases low with
  | place ty a => exact .pure .place
  | value ty v =>
    refine .ite (fun h => .pure ?_) fun h => ?_
    · cases ty <;> cases h
      exact .struct
    · refine (emits_allocate ty "spill").bind fun slot c s1 hslot => ?_
      obtain ⟨rfl, hslot⟩ := hslot
      refine (emits_store ty v _).bind fun _ c s2 hstore => .pure ?_
      obtain ⟨hstore, rfl⟩ := hstore
      simpa using ToAddress.spill (by simpa using h) hslot hstore

theorem emits_lowerCast (v : Operand) (source target : Ty) :
    Emits emission s (lowerCast v source target) fun w c s' => CastCode v source target s w c s' := by
  refine .ite (fun h => .pure (.same h)) fun h => .lift fun op hop => ?_
  obtain ⟨cls, op, args⟩ := op
  exact (does_assign _ _ _).emits (.convert h hop)

theorem emits_lowerCall (callee : Callee) (args : List (Class × Operand)) :
    Emits emission s (lowerCall callee args) fun v c s' => CallCode callee args s v c s' := by
  refine .ite (fun h => (does_emit _).bind (.pure (.void h))) fun h => does_freshTemp.bind ?_
  exact .lift fun cls hcls => (does_emit _).bind (.pure (.result h hcls))

mutual

theorem emits_lowerExpr (e : Expr) (s : Supply) :
    Emits emission s (lowerExpr env scope e) fun low c s' => ExprCode env scope e s low c s' := by
  cases e with
  | integer n value long => exact .lift fun ty hty => .pure (.integer hty)
  | float n value single => exact .lift fun ty hty => .pure (.float hty)
  | bool n value => exact .lift fun ty hty => .pure (.bool hty)
  | text n value =>
    refine .lift fun ty hty => (emits_intern value).bind fun v c s' hv => .pure ?_
    obtain ⟨rfl, hv⟩ := hv
    exact .text hty hv
  | var n name =>
    refine .lift fun ty hty => .lift fun slot hslot => (emits_slotAddress slot).bind fun a c s' ha => ?_
    exact .pure (by simpa using ExprCode.var hty hslot ha)
  | unary n op e =>
    refine .lift fun ty hty => (emits_lowerExpr e s).bind fun low c1 s1 he => ?_
    refine (emits_toValue low).bind fun v c2 s2 hv => .lift fun cls hcls => (does_assign _ _ _).bind ?_
    exact .pure (.unary hty he hv hcls)
  | binary n op l r =>
    refine .lift fun ty hty => .lift fun operandTy hop => ?_
    refine (emits_lowerExpr l s).bind fun low1 c1 s1 hl => ?_
    refine (emits_toValue low1).bind fun v c2 s2 hv => ?_
    refine (emits_lowerExpr r s2).bind fun low2 c3 s3 hr => ?_
    refine (emits_toValue low2).bind fun w c4 s4 hw => .lift fun cls hcls => ?_
    refine .ite (fun hcmp => .lift fun cond hcond => (does_assign _ _ _).bind (.pure ?_))
      fun hcmp => .lift fun o ho => (does_assign _ _ _).bind (.pure ?_)
    · exact .compare hty hop hl hv hr hw hcls hcmp hcond
    · exact .arith hty hop hl hv hr hw hcls (by simpa using hcmp) ho
  | cast n e target =>
    refine .lift fun ty hty => .lift fun source hsource => ?_
    refine (emits_lowerExpr e s).bind fun low c1 s1 he => (emits_toValue low).bind fun v c2 s2 hv => ?_
    refine (emits_lowerCast v source target).bind fun w c3 s3 hw => .pure ?_
    simpa using ExprCode.cast hty hsource he hv hw
  | call n name args =>
    refine .lift fun ty hty => .lift fun ts hts => .lift fun callee hcallee => ?_
    refine (emits_lowerArgs _ args s).bind fun lowered c1 s1 hargs => ?_
    refine (emits_lowerCall callee lowered).bind fun v c2 s2 hcall => .pure ?_
    simpa using ExprCode.call hty hts hcallee hargs hcall
  | construct n name args =>
    refine .lift fun ty hty => .lift fun layout hlayout => ?_
    refine (emits_allocate ty "new").bind fun slot c1 s1 ha => ?_
    obtain ⟨rfl, ha⟩ := ha
    refine (emits_lowerFields _ _ args s1).bind fun _ c2 s2 hargs => .pure ?_
    simpa using ExprCode.construct hty hlayout ha hargs
  | access n e member =>
    refine .lift fun ty hty => .lift fun objectTy hobject => .lift fun offset hoffset => ?_
    refine (emits_lowerExpr e s).bind fun low c1 s1 he => ?_
    refine (emits_toAddress low).bind fun a c2 s2 ha => (does_assign _ _ _).bind ?_
    exact .pure (.access hty hobject hoffset he ha)

theorem emits_lowerArgs (receiver : Bool) (es : List Expr) (s : Supply) :
    Emits emission s (lowerArgs env scope receiver es) fun args c s' =>
      ArgsCode env scope receiver es s args c s' := by
  cases es with
  | nil => exact .pure .nil
  | cons e es =>
    cases receiver with
    | true =>
      refine (emits_lowerExpr e s).bind fun low c1 s1 he => ?_
      refine (emits_toAddress low).bind fun a c2 s2 ha => ?_
      refine (emits_lowerArgs false es s2).bind fun args c3 s3 hes => .pure ?_
      simpa using ArgsCode.receiver he ha hes
    | false =>
      refine (emits_lowerExpr e s).bind fun low c1 s1 he => ?_
      refine (emits_toValue low).bind fun v c2 s2 hv => ?_
      refine .lift fun ty hty => .lift fun cls hcls => ?_
      refine (emits_lowerArgs false es s2).bind fun args c3 s3 hes => .pure ?_
      simpa using ArgsCode.value he hv hty hcls hes

theorem emits_lowerFields (base : Operand) (fields : List FieldLayout) (es : List Expr)
    (s : Supply) :
    Emits emission s (lowerFields env scope base fields es) fun _ c s' =>
      FieldsCode env scope base fields es s c s' := by
  cases es with
  | nil => cases fields <;> exact .pure .nil
  | cons e es =>
    cases fields with
    | nil => exact .pure .none
    | cons field fields =>
      refine (emits_lowerExpr e s).bind fun low c1 s1 he => ?_
      refine (emits_toValue low).bind fun v c2 s2 hv => (does_assign _ _ _).bind ?_
      refine (emits_store field.ty v _).bind fun _ c4 s4 hs => ?_
      obtain ⟨hs, rfl⟩ := hs
      refine (emits_lowerFields base fields es _).mono fun _ c5 s5 hes => ?_
      simpa using FieldsCode.cons he hv hs hes

end

theorem emits_lowerValue (e : Expr) (s : Supply) :
    Emits emission s (lowerValue env scope e) fun v c s' => ValueCode env scope e s v c s' :=
  (emits_lowerExpr e s).bind fun low _ _ he => (emits_toValue low).mono fun _ _ _ hv => .mk he hv

theorem emits_zeroWords (a : Operand) (words offset : Nat) (s : Supply) :
    Emits emission s (zeroWords a words offset) fun _ c s' => ZeroWords a words offset s c s' := by
  induction words generalizing offset s with
  | zero => exact .pure .nil
  | succ words ih =>
    refine .ite (fun h => ?_) fun h => (does_assign _ _ _).bind ((does_emit _).bind ?_)
    · subst h
      rw [pure_bind]
      exact (does_emit _).bind ((ih 4 s).mono fun _ _ _ hz => .first hz)
    · exact (ih _ _).mono fun _ _ _ hz => .next h hz

theorem emits_storeZero (ty : Ty) (a : Operand) :
    Emits emission s (storeZero env ty a) fun _ c s' => ZeroCode env a s ty c s' := by
  unfold storeZero
  split
  · exact (emits_zeroWords _ _ _ _).mono fun _ _ _ hz => .struct hz
  · exact (does_emit _).emits .single
  · exact (does_emit _).emits .double
  · next hs h32 h64 =>
    refine .lift fun cls hcls => (does_emit _).emits (.scalar ?_ ?_ hcls) <;> cases ty <;> first
      | rfl
      | exact absurd rfl (hs _)
      | exact absurd rfl h32
      | exact absurd rfl h64

theorem leads_of_emits
    (h : Emits emission d.supply x fun inner c s => StmtCode env scope stmt d inner (d.extend s c)) :
    Leads d x fun inner d' => StmtCode env scope stmt d inner d' := by
  refine (Leads.of_emits h).mono ?_
  rintro inner _ ⟨c, s, rfl, hcode⟩
  exact hcode

theorem leads_emitIfOpen
    (h : Leads (d.emitIfOpen i) (k ()) R) : Leads d (emitIfOpen i >>= k) R := by
  have hopen : Leads d (emitIfOpen i) fun _ d' => d' = d.emitIfOpen i := by
    intro _ d' heq
    obtain ⟨done, _, hdone, heq⟩ := bind_eq_ok.mp heq
    cases hdone
    rw [Draft.emitIfOpen, Draft.isTerminated]
    cases hlast : (d.body.getLast?.map Instr.isJump).getD false <;> rw [hlast] at heq <;> cases heq <;>
      rfl
  exact hopen.bind fun _ _ hd => hd ▸ h

theorem leads_freshLabel
    (h : Leads (d.bumpLabel 1) (k (d.label 0)) R) : Leads d (freshLabel >>= k) R :=
  h

mutual

theorem leads_lowerStmt (stmt : Stmt) (scope : Scope Slot) (d : Draft) :
    Leads d (lowerStmt env scope stmt) fun inner d' => StmtCode env scope stmt d inner d' := by
  cases stmt with
  | declare decl =>
    refine .lift fun ty hty => leads_of_emits ?_
    refine (emits_allocate ty decl.name).bind fun slot c s1 ha => ?_
    obtain ⟨rfl, ha⟩ := ha
    cases hinit : decl.init with
    | some e =>
      refine (emits_lowerValue e s1).bind fun v c s2 hv => ?_
      refine (emits_store ty v _).bind fun _ c' s3 hs => .pure ?_
      obtain ⟨hs, rfl⟩ := hs
      simpa using StmtCode.declare hty ha hinit hv hs
    | none =>
      refine (emits_storeZero ty _).bind fun _ c s2 hz => .pure ?_
      simpa using StmtCode.declareZero hty ha hinit hz
  | assign span name e =>
    refine .lift fun slot hslot => leads_of_emits ?_
    refine (emits_lowerValue e d.supply).bind fun v c s1 hv => ?_
    refine (emits_slotAddress slot).bind fun a c' s2 ha => ?_
    refine (emits_store slot.ty v a).bind fun _ c'' s3 hs => .pure ?_
    obtain ⟨hs, rfl⟩ := hs
    simpa using StmtCode.assign hslot hv ha hs
  | branch span cond t e =>
    cases e with
    | none =>
      refine (Leads.of_emits (emits_lowerValue cond d.supply)).bind ?_
      rintro v _ ⟨c, s, rfl, hv⟩
      refine leads_freshLabel (leads_freshLabel (leads_freshLabel (.modify (.modify ?_))))
      refine (leads_lowerBlock t scope.push ((d.extend s c).openBranch v)).bind fun _ d1 ht => ?_
      refine leads_emitIfOpen (.modify (leads_emitIfOpen (.modify (.pure ?_))))
      exact .branch hv ht
    | some e =>
      refine (Leads.of_emits (emits_lowerValue cond d.supply)).bind ?_
      rintro v _ ⟨c, s, rfl, hv⟩
      refine leads_freshLabel (leads_freshLabel (leads_freshLabel (.modify (.modify ?_))))
      refine (leads_lowerBlock t scope.push ((d.extend s c).openBranch v)).bind fun _ d1 ht => ?_
      refine leads_emitIfOpen (.modify ?_)
      refine (leads_lowerBlock e scope.push _).bind fun _ d2 he => ?_
      exact leads_emitIfOpen (.modify (.pure (.branchElse hv ht he)))
  | ret span e =>
    cases e with
    | none => exact .modify (.pure .retNone)
    | some e =>
      refine (Leads.of_emits (emits_lowerValue e d.supply)).bind ?_
      rintro v _ ⟨c, s, rfl, hv⟩
      exact .modify (.pure (.ret hv))
  | expr e =>
    refine leads_of_emits ((emits_lowerValue e d.supply).bind fun v c s hv => .pure ?_)
    simpa using StmtCode.expr hv

theorem leads_lowerStmts (stmts : List Stmt) (scope : Scope Slot) (d : Draft) :
    Leads d (lowerStmts env scope stmts) fun _ d' => StmtsCode env scope stmts d d' := by
  cases stmts with
  | nil => exact .pure .nil
  | cons stmt rest =>
    have hboth : Leads d.reopen (lowerStmt env scope stmt >>= fun inner =>
        lowerStmts env inner rest) fun _ d' => StmtsCode env scope (stmt :: rest) d d' :=
      (leads_lowerStmt stmt scope d.reopen).bind fun inner d1 hs =>
        (leads_lowerStmts rest inner d1).mono fun _ _ hrest => .cons hs hrest
    intro _ d' heq
    obtain ⟨done, _, hdone, heq⟩ := bind_eq_ok.mp heq
    cases hdone
    rw [Draft.reopen, Draft.isTerminated] at hboth
    cases hlast : (d.body.getLast?.map Instr.isJump).getD false <;> rw [hlast] at heq hboth
    · exact hboth _ d' heq
    · exact hboth _ d' heq

theorem leads_lowerBlock (b : Block) (scope : Scope Slot) (d : Draft) :
    Leads d (lowerBlock env scope b) fun _ d' => BlockCode env scope b d d' := by
  cases b with
  | mk n stmts => exact (leads_lowerStmts stmts scope d).mono fun _ _ h => .mk h

end

theorem emits_storeReceiver (receiver : Option Ty) :
    Emits emission s (storeReceiver env scope receiver) fun r c s' =>
      ReceiverCode env scope s receiver r.1 r.2 c s' := by
  cases receiver with
  | none => exact .pure .none
  | some ty =>
    refine (emits_allocate .i64 "self").bind fun slot c s1 ha => ?_
    obtain ⟨rfl, ha⟩ := ha
    exact (does_emit _).bind (.pure (.some ha))

theorem emits_storeParams (params : List TypedName) (scope : Scope Slot) (s : Supply) :
    Emits emission s (storeParams env scope params) fun r c s' =>
      ParamsCode env scope params s r.1 r.2 c s' := by
  induction params generalizing scope s with
  | nil => exact .pure .nil
  | cons p rest ih =>
    refine (emits_allocate p.ty p.name).bind fun slot c s1 ha => ?_
    obtain ⟨rfl, ha⟩ := ha
    refine (emits_store p.ty _ _).bind fun _ c s2 hs => .lift fun cls hcls => ?_
    obtain ⟨hs, rfl⟩ := hs
    refine (ih _ _).bind fun r c' s3 hrest => ?_
    obtain ⟨inner, params⟩ := r
    exact .pure (by simpa using ParamsCode.cons ha hs hcls hrest)

theorem leads_lowerBody (f : FnDef) (d : Draft) :
    Leads d (lowerBody env f) fun params d' => BodyCode env f d params d' := by
  refine (Leads.of_emits (emits_storeReceiver f.receiver)).bind ?_
  rintro ⟨scope1, receiver⟩ _ ⟨c1, s1, rfl, hr⟩
  refine (Leads.of_emits (emits_storeParams f.params scope1 s1)).bind ?_
  rintro ⟨scope2, params⟩ _ ⟨c2, s2, rfl, hp⟩
  refine (leads_lowerBlock f.body scope2 _).bind fun _ d1 hb => leads_emitIfOpen (.pure ?_)
  rw [emission.extend_extend] at hb
  exact .mk hr hp hb

theorem functionCode_of_eq_ok (h : lowerFunction env before f = .ok (g, d)) :
    FunctionCode env before f g d := by
  unfold lowerFunction at h
  obtain ⟨⟨params, d1⟩, hb, h⟩ := except_bind_eq_ok.mp h
  obtain ⟨ret, hr, h⟩ := except_bind_eq_ok.mp h
  cases h
  exact .mk (leads_lowerBody f _ _ _ hb) hr

theorem functionsCode_of_eq_ok (h : lowerFunctions env before fns = .ok (gs, d)) :
    FunctionsCode env before fns gs d := by
  induction fns generalizing before gs with
  | nil =>
    cases h
    exact .nil
  | cons f rest ih =>
    unfold lowerFunctions at h
    obtain ⟨⟨g, d1⟩, hf, h⟩ := except_bind_eq_ok.mp h
    obtain ⟨⟨gs', d2⟩, hrest, h⟩ := except_bind_eq_ok.mp h
    cases h
    exact .cons (functionCode_of_eq_ok hf) (ih hrest)

end StructLang.Flat
