import StructLang.Lowering
import StructLang.Proofs.Grammar
import StructLang.Proofs.Checking

/-!
# Typing rules

The rules that an accepted program obeys, as relations over a purely lexical scope. Next to the type of
an expression they say that the table of findings records it, for the expression and all its parts, so
that later stages can look up what the rules promise.
-/

namespace StructLang

/-- What checking a program leaves for later stages. -/
structure Findings where
  types : TypeTable
  /-- The declarations that stand directly in a block. -/
  declaredIn : Nat → List Nat
  symbols : Symbols

def Program.findings (p : Program) : Findings :=
  ⟨p.analyze.typeTable, p.analyze.declaredIn, p.symbols⟩

/-- A type that is spelled in a program and whose struct, if it is one, is declared. -/
structure Ty.Declared (symbols : Symbols) (ty : Ty) : Prop where
  proper : ty.Proper
  struct : ∀ name, ty = .struct name → ∃ d, symbols.struct? name = some d

/-- What the declarations of an accepted program are like. -/
structure Symbols.Sound (s : Symbols) : Prop where
  fields : ∀ d ∈ s.structs, ∀ f ∈ d.fields, f.ty.Declared s ∧ f.ty ≠ .void
  foreignParams : ∀ d ∈ s.foreigns, ∀ p ∈ d.params, p.ty.Declared s
  foreignRet : ∀ d ∈ s.foreigns, d.ret.Declared s
  params : ∀ f ∈ s.functions, ∀ p ∈ f.params, p.ty.Declared s
  ret : ∀ f ∈ s.functions, f.ret.Declared s
  receiver : ∀ f ∈ s.functions, ∀ ty ∈ f.receiver, ty.Declared s ∧ ∃ name, ty = .struct name

def Scope.Sound (symbols : Symbols) (scope : Scope Binding) : Prop :=
  ∀ name b, scope.lookup? name = some b → b.ty.Declared symbols

namespace Scope.Sound

variable {scope : Scope Binding}

theorem push (h : scope.Sound s) : scope.push.Sound s := h

theorem define (h : scope.Sound s) (hb : b.ty.Declared s) : (scope.define name b).Sound s := by
  intro other b' hl
  rw [lookup?_define] at hl
  split at hl
  · cases hl
    exact hb
  · exact h other b' hl

end Scope.Sound

/-! ## What names mean -/

namespace Symbols

variable {s : Symbols} {callee : Callee}

theorem struct?_eq_some (h : s.struct? name = some d) : d ∈ s.structs ∧ d.name = name :=
  ⟨List.mem_of_find?_eq_some h, by simpa using List.find?_some h⟩

theorem field?_eq_some (h : s.field? (.struct name) member = some (index, ty)) :
    ∃ d g, s.struct? name = some d ∧ d.field? member = some (index, g) ∧
      d.fields[index]? = some g ∧ g.ty = ty := by
  simp only [field?, Ty.structName?, Option.bind_eq_bind, Option.bind_some, Option.pure_def,
    Option.bind_eq_some_iff, Option.some.injEq] at h
  obtain ⟨d, hd, ⟨i, g⟩, hf, hg⟩ := h
  cases hg
  refine ⟨d, g, hd, hf, ?_, rfl⟩
  simp only [StructDef.field?, Option.map_eq_some_iff, Prod.mk.injEq] at hf
  obtain ⟨⟨g', i'⟩, hfind, rfl, rfl⟩ := hf
  exact List.mem_zipIdx_iff_getElem?.mp (List.mem_of_find?_eq_some hfind)

theorem resolve_eq_ok (h : s.resolve name args = .ok callee) :
    (∃ d ∈ s.foreigns, callee = .foreign d ∧ d.name = name ∧ callee.signature = args) ∨
      ∃ f ∈ s.functions, callee = .user f ∧ f.name = name ∧ callee.signature = args := by
  unfold resolve at h
  split at h
  · next d hd =>
    cases h
    have hp := List.find?_some hd
    simp only [Bool.and_eq_true, beq_iff_eq] at hp
    exact .inl ⟨d, List.mem_of_find?_eq_some hd, rfl, hp.1, hp.2⟩
  · next hno =>
    split at h
    · next f hf =>
      cases h
      have hp := List.find?_some hf
      simp only [Bool.and_eq_true, beq_iff_eq] at hp
      exact .inr ⟨f, List.mem_of_find?_eq_some hf, rfl, hp.1, hp.2⟩
    · split at h <;> cases h

namespace Sound

variable (hs : s.Sound)
include hs

theorem field (h : s.field? (.struct name) member = some (index, ty)) :
    ty.Declared s ∧ ty ≠ .void := by
  obtain ⟨d, g, hd, -, hg, rfl⟩ := field?_eq_some h
  exact hs.fields d (struct?_eq_some hd).1 g (List.mem_of_getElem? hg)

theorem calleeRet (h : s.resolve name args = .ok callee) : callee.ret.Declared s := by
  rcases resolve_eq_ok h with ⟨d, hd, rfl, -⟩ | ⟨f, hf, rfl, -⟩
  · exact hs.foreignRet d hd
  · exact hs.ret f hf

theorem receiver_ne_void (h : s.resolve name args = .ok callee)
    (hreceiver : callee.hasReceiver = true) : ∀ t ∈ args.head?, t ≠ .void := by
  rcases resolve_eq_ok h with ⟨d, -, rfl, -⟩ | ⟨g, hg, rfl, -, hsig⟩
  · cases hreceiver
  · obtain ⟨ty, hty⟩ := Option.isSome_iff_exists.mp hreceiver
    obtain ⟨-, struct, rfl⟩ := hs.receiver g hg ty hty
    rw [← hsig, Callee.signature, FnHeader.signature, hty]
    rintro t ⟨⟩
    exact nofun

end Sound

end Symbols

namespace Ty.Declared

variable {ty source : Ty}

theorem of_scalar (hp : ty.Proper) (h : ty.isStruct = false) : ty.Declared s :=
  ⟨hp, fun _ heq => by simp [heq, Ty.isStruct] at h⟩

theorem bool : Ty.bool.Declared s := of_scalar (by simp [Ty.Proper]) rfl

theorem string : Ty.string.Declared s := of_scalar (by simp [Ty.Proper]) rfl

theorem of_isNumber (h : ty.isNumber = true) : ty.Declared s := by
  refine of_scalar ?_ ?_
  · constructor <;> rintro rfl <;> simp [Ty.isNumber, Ty.isInt, Ty.isFloat] at h
  · cases ty <;> simp_all [Ty.isNumber, Ty.isInt, Ty.isFloat, Ty.isStruct]

theorem of_castsTo (h : source.castsTo target = true) : target.Declared s := by
  simp only [Ty.castsTo, Bool.or_eq_true, Bool.and_eq_true, beq_iff_eq] at h
  rcases h with (⟨-, h⟩ | ⟨-, h⟩) | ⟨-, rfl⟩
  · exact of_isNumber h
  · exact of_isNumber (by simp [Ty.isNumber, h])
  · exact bool

end Ty.Declared

/-! ## The rules -/

mutual

/-- An expression has a type, and the findings record its type and those of its parts. -/
inductive Typed (f : Findings) (scope : Scope Binding) : Expr → Ty → Prop where
  | integer {n value long} (h : f.types[n.id]? = some (if long then .i64 else .i32)) :
      Typed f scope (.integer n value long) (if long then .i64 else .i32)
  | float {n value single} (h : f.types[n.id]? = some (if single then .f32 else .f64)) :
      Typed f scope (.float n value single) (if single then .f32 else .f64)
  | bool {n value} (h : f.types[n.id]? = some .bool) : Typed f scope (.bool n value) .bool
  | text {n value} (h : f.types[n.id]? = some .string) : Typed f scope (.text n value) .string
  | var {n name b} (h : f.types[n.id]? = some b.ty) (hb : scope.lookup? name = some b) :
      Typed f scope (.var n name) b.ty
  | unary {n op e t} (h : f.types[n.id]? = some t) (he : Typed f scope e t)
      (hop : Typing.meets t (Typing.unaryDemand op) = true) : Typed f scope (.unary n op e) t
  | binary {n op l r t}
      (h : f.types[n.id]? = some (if op.isComparison then .bool else t))
      (hl : Typed f scope l t) (hr : Typed f scope r t)
      (hop : Typing.meets t (Typing.binaryDemand op) = true) :
      Typed f scope (.binary n op l r) (if op.isComparison then .bool else t)
  | cast {n e source target} (h : f.types[n.id]? = some target) (he : Typed f scope e source)
      (hc : source = target ∨ source.castsTo target = true) :
      Typed f scope (.cast n e target) target
  | call {n name args ts callee} (h : f.types[n.id]? = some callee.ret)
      (hargs : TypedAll f scope args ts) (hr : f.symbols.resolve name ts = .ok callee) :
      Typed f scope (.call n name args) callee.ret
  | construct {n name args d} (h : f.types[n.id]? = some (.struct name))
      (hd : f.symbols.struct? name = some d)
      (hargs : TypedAll f scope args (d.fields.map TypedName.ty)) :
      Typed f scope (.construct n name args) (.struct name)
  | access {n e struct member index ty} (h : f.types[n.id]? = some ty)
      (he : Typed f scope e (.struct struct))
      (hf : f.symbols.field? (.struct struct) member = some (index, ty)) :
      Typed f scope (.access n e member) ty

inductive TypedAll (f : Findings) (scope : Scope Binding) : List Expr → List Ty → Prop where
  | nil : TypedAll f scope [] []
  | cons {e es t ts} (he : Typed f scope e t) (hes : TypedAll f scope es ts) :
      TypedAll f scope (e :: es) (t :: ts)

end

mutual

/-- A statement of a function with a result type keeps the rules and leaves a scope. -/
inductive StmtTyped (f : Findings) (ret : Ty) : Scope Binding → Stmt → Scope Binding → Prop where
  | declare {scope d ty} (h : f.types[d.node.id]? = some ty) (hty : ty.Declared f.symbols)
      (hvoid : ty ≠ .void) (hinit : ∀ e ∈ d.init, Typed f scope e ty)
      (hann : d.annotation = some ty ∨ d.annotation = none ∧ d.init ≠ none) :
      StmtTyped f ret scope (.declare d) (scope.define d.name ⟨ty, d.isMutable, false⟩)
  | assign {scope span name value b} (hb : scope.lookup? name = some b)
      (hrec : b.isReceiver = false) (hv : Typed f scope value b.ty) :
      StmtTyped f ret scope (.assign span name value) scope
  | branch {scope span cond t} (hc : Typed f scope cond .bool)
      (ht : BlockTyped f ret scope.push t) :
      StmtTyped f ret scope (.branch span cond t none) scope
  | branchElse {scope span cond t e} (hc : Typed f scope cond .bool)
      (ht : BlockTyped f ret scope.push t) (he : BlockTyped f ret scope.push e) :
      StmtTyped f ret scope (.branch span cond t (some e)) scope
  | retNone {scope span} (h : ret = .void) : StmtTyped f ret scope (.ret span none) scope
  | ret {scope span e} (h : Typed f scope e ret) : StmtTyped f ret scope (.ret span (some e)) scope
  | expr {scope e ty} (h : Typed f scope e ty) : StmtTyped f ret scope (.expr e) scope

inductive StmtsTyped (f : Findings) (ret : Ty) : Scope Binding → List Stmt → Prop where
  | nil {scope} : StmtsTyped f ret scope []
  | cons {scope inner s rest} (hs : StmtTyped f ret scope s inner)
      (hrest : StmtsTyped f ret inner rest) : StmtsTyped f ret scope (s :: rest)

/-- A block keeps the rules, and the findings list its declarations. -/
inductive BlockTyped (f : Findings) (ret : Ty) : Scope Binding → Block → Prop where
  | mk {scope n stmts} (h : f.declaredIn n.id = Typing.declarations stmts)
      (hs : StmtsTyped f ret scope stmts) : BlockTyped f ret scope (.mk n stmts)

end

theorem Ty.Declared.of_meets (h : Typing.meets ty d = true) : ty.Declared s := by
  cases d with
  | bool =>
    simp only [Typing.meets, beq_iff_eq] at h
    exact h ▸ bool
  | aNumber | numbers => exact of_isNumber h
  | anInteger | integers => exact of_isNumber (by simp [Ty.isNumber, show ty.isInt = true from h])
  | boolsOrNumbers =>
    simp only [Typing.meets, Bool.or_eq_true, beq_iff_eq] at h
    exact h.elim (fun h => h ▸ bool) of_isNumber

theorem Typed.declared (hsym : f.symbols.Sound) (hscope : scope.Sound f.symbols)
    (h : Typed f scope e ty) : ty.Declared f.symbols := by
  cases h with
  | integer | float => split <;> exact .of_isNumber rfl
  | bool => exact .bool
  | text => exact .string
  | var _ hb => exact hscope _ _ hb
  | unary _ _ hop => exact .of_meets hop
  | binary _ _ _ hop =>
    split
    · exact .bool
    · exact .of_meets hop
  | cast _ he hc => exact hc.elim (fun heq => heq ▸ he.declared hsym hscope) .of_castsTo
  | call _ _ hr => exact hsym.calleeRet hr
  | construct _ hd _ =>
    refine ⟨by simp [Ty.Proper], ?_⟩
    rintro _ ⟨⟩
    exact ⟨_, hd⟩
  | access _ _ hf => exact (hsym.field hf).1

theorem TypedAll.declared (hsym : f.symbols.Sound) (hscope : scope.Sound f.symbols) :
    TypedAll f scope es ts → ∀ t ∈ ts, t.Declared f.symbols
  | .nil => by simp
  | .cons he hes => List.forall_mem_cons.mpr ⟨he.declared hsym hscope, hes.declared hsym hscope⟩

theorem TypedAll.length_eq : TypedAll f scope es ts → es.length = ts.length
  | .nil => rfl
  | .cons _ hes => congrArg (· + 1) hes.length_eq

def receiverScope : Option Ty → Scope Binding
  | some ty => Scope.empty.push.define "self" ⟨ty, false, true⟩
  | none => Scope.empty.push

def FnHeader.startScope (f : FnHeader) : Scope Binding :=
  f.params.foldl (fun scope p => scope.define p.name ⟨p.ty, false, false⟩)
    (receiverScope f.receiver)

/-- The types that a header spells: receiver, parameters and result. -/
def FnHeader.types (g : FnHeader) : List Ty := g.signature ++ [g.ret]

theorem FnHeader.forall_types {g : FnHeader} {P : Ty → Prop} : (∀ ty ∈ g.types, P ty) ↔
    (∀ ty ∈ g.receiver, P ty) ∧ (∀ q ∈ g.params, P q.ty) ∧ P g.ret := by
  simp only [types, signature, List.forall_mem_append, List.forall_mem_map, Option.mem_toList,
    Option.mem_def, List.forall_mem_singleton, and_assoc]

/-- A program that keeps the rules. -/
structure Program.WellTyped (p : Program) : Prop where
  symbols : p.symbols.Sound
  structs_nodup : (p.structs.map StructDef.name).Nodup
  fields_nodup : ∀ d ∈ p.structs, (d.fields.map TypedName.name).Nodup
  acyclic : ∀ d ∈ p.structs, Typing.holdsItself p.symbols d = false
  params_nodup : ∀ f ∈ p.functions, (f.params.map TypedName.name).Nodup
  bodies : ∀ f ∈ p.functions, BlockTyped p.findings f.ret f.startScope f.body
  linkage_nodup :
    ((p.functions.filter fun f => f.name != entryPoint).map fun f => f.linkage).Nodup
  entry : ∃ f, (p.functions.filter fun f => f.name == entryPoint) = [f]

end StructLang
