import StructLang.Proofs.Acceptance
import StructLang.Proofs.Flat.Code
import StructLang.Proofs.Layouts
import StructLang.Proofs.VoidValues

/-!
# When lowering to flat code succeeds

Flat code has no class for values of type `void`. An accepted program has flat code exactly if none of
its functions has a parameter of that type and none of its calls an argument of that type.
-/

namespace StructLang.Flat

def Lowered.sourceTy : Lowered → Ty
  | .value ty _ | .place ty _ => ty

/-- A place has a type other than `void`, so that it can be read. -/
def Lowered.Readable : Lowered → Prop
  | .value _ _ => True
  | .place ty _ => ty ≠ .void

/-! ## Types and operators -/

theorem exists_class (h : ty.Proper) (hv : ty ≠ .void) : ∃ cls, Class.ofSource ty = .ok cls := by
  cases ty with
  | unknown => exact absurd rfl h.1
  | error => exact absurd rfl h.2
  | void => exact absurd rfl hv
  | _ => exact ⟨_, rfl⟩

theorem exists_passed (h : ty.Proper) (hv : ty ≠ .void) : ∃ cls, Class.passed ty = .ok cls := by
  unfold Class.passed
  split
  · exact ⟨_, rfl⟩
  · exact exists_class h hv

theorem ne_void_of_passed (h : Class.passed ty = .ok cls) : ty ≠ .void := by
  rintro rfl
  cases h

theorem exists_cond (hop : op.isComparison = true)
    (hm : Typing.meets ty (Typing.binaryDemand op) = true) :
    ∃ cond, Cond.ofSource op ty = .ok cond := by
  cases op <;> cases hop <;> cases ty <;> cases hm <;> exact ⟨_, rfl⟩

theorem exists_op (hop : op.isComparison = false)
    (hm : Typing.meets ty (Typing.binaryDemand op) = true) : ∃ o, Op.ofSource op ty = .ok o := by
  cases op <;> cases hop <;> cases ty <;> cases hm <;> exact ⟨_, rfl⟩

theorem exists_castOp (v : Operand) (hne : source ≠ target) (hc : source.castsTo target = true) :
    ∃ o, castOp v source target = .ok o := by
  cases source <;> cases target <;> first
    | exact ⟨_, rfl⟩
    | (cases hc; done)
    | exact absurd rfl hne

namespace Lower

/-! ## Steps that cannot fail -/

theorem yields_emit (i : Instr) : Yields (emit i) fun _ => True := .modify _

theorem yields_freshTemp : Yields freshTemp fun _ => True :=
  (Yields.modifyGet _).bind fun _ _ => .pure True.intro

theorem yields_assign (cls : Class) (op : Op) (args : List Operand) :
    Yields (assign cls op args) fun _ => True :=
  yields_freshTemp.bind fun _ _ => (yields_emit _).seq (.pure True.intro)

theorem yields_isTerminated : Yields isTerminated fun _ => True :=
  Yields.get.bind fun _ _ => .pure True.intro

theorem yields_emitIfOpen (i : Instr) : Yields (emitIfOpen i) fun _ => True :=
  yields_isTerminated.bind fun _ _ => .ite (yields_emit i) (.pure True.intro)

theorem yields_intern (text : String) : Yields (intern text) fun _ => True := by
  refine Yields.get.bind fun _ _ => ?_
  split
  · exact .pure True.intro
  · exact Yields.get.bind fun _ _ => (Yields.modify _).seq (.pure True.intro)

theorem yields_slotAddress (slot : Slot) : Yields (slotAddress slot) fun _ => True :=
  .ite (yields_assign _ _ _) (.pure True.intro)

theorem yields_store (v a : Operand) (hp : ty.Proper) (hv : ty ≠ .void) :
    Yields (store env ty v a) fun _ => True := by
  obtain ⟨cls, hcls⟩ := exists_class hp hv
  exact .ite (yields_emit _) (.lift hcls (yields_emit _))

theorem yields_zeroWords (a : Operand) (words offset : Nat) :
    Yields (zeroWords a words offset) fun _ => True := by
  induction words generalizing offset with
  | zero => exact .pure True.intro
  | succ words ih =>
    refine .ite ?_ ?_
    · exact (yields_emit _).seq (ih _)
    · exact (yields_assign _ _ _).bind fun _ _ => (yields_emit _).seq (ih _)

theorem yields_storeZero (a : Operand) (hp : ty.Proper) (hv : ty ≠ .void) :
    Yields (storeZero env ty a) fun _ => True := by
  obtain ⟨cls, hcls⟩ := exists_class hp hv
  unfold storeZero
  split
  · exact yields_zeroWords _ _ _
  · exact yields_emit _
  · exact yields_emit _
  · exact .lift hcls (yields_emit _)

end Lower

/-- Every declared struct has the layout that its fields give it. -/
def LaidOut (symbols : Symbols) (layouts : Layouts) : Prop :=
  ∀ name d, symbols.struct? name = some d → layouts.get? name = some (layouts.packed d)

def Env.ofFindings (f : Findings) (layouts : Layouts) : Env := ⟨f.types, f.symbols, layouts⟩

open Lower

theorem layoutOf_eq (hl : LaidOut f.symbols layouts) (hd : f.symbols.struct? name = some d) :
    layoutOf (.ofFindings f layouts) name = .ok (layouts.packed d) := by
  have h : (Env.ofFindings f layouts).layouts.get? name = _ := hl name d hd
  rw [layoutOf, h]

theorem exists_alignOf (hl : LaidOut f.symbols layouts) (h : ty.Declared f.symbols) :
    ∃ align, alignOf (.ofFindings f layouts) ty = .ok align := by
  cases ty with
  | struct name =>
    obtain ⟨d, hd⟩ := h.struct name rfl
    simp only [alignOf, layoutOf_eq hl hd]
    exact ⟨_, rfl⟩
  | _ => exact ⟨_, rfl⟩

theorem memberOffset_eq (hl : LaidOut f.symbols layouts)
    (h : f.symbols.field? (.struct struct) member = some (index, ty)) :
    ∃ offset, memberOffset (.ofFindings f layouts) (.struct struct) member = .ok offset := by
  obtain ⟨d, g, hd, hf, -, -⟩ := Symbols.field?_eq_some h
  simp only [memberOffset, Ty.structName?, layoutOf_eq hl hd, bind, Except.bind,
    Layouts.offset?_packed hf]
  exact ⟨_, rfl⟩

theorem yields_allocate (hl : LaidOut f.symbols layouts) (h : ty.Declared f.symbols) (hint : String) :
    Yields (Lower.allocate (.ofFindings f layouts) ty hint) fun _ => True := by
  obtain ⟨align, halign⟩ := exists_alignOf hl h
  exact .lift halign ((Yields.modifyGet _).bind fun _ _ => (Yields.modify _).seq (.pure True.intro))

theorem yields_toValue {low : Lowered} (hp : low.sourceTy.Proper) (hr : low.Readable) :
    Yields low.toValue fun _ => True := by
  cases low with
  | value ty v => exact .pure True.intro
  | place ty a =>
    obtain ⟨cls, hcls⟩ := exists_class hp hr
    exact .ite (.pure True.intro) (.lift hcls (yields_assign _ _ _))

theorem yields_toAddress (hl : LaidOut f.symbols layouts) {low : Lowered}
    (h : low.sourceTy.Declared f.symbols) (hv : low.sourceTy ≠ .void) :
    Yields (low.toAddress (.ofFindings f layouts)) fun _ => True := by
  cases low with
  | place ty a => exact .pure True.intro
  | value ty v =>
    refine .ite (.pure True.intro) ((yields_allocate hl h "spill").bind fun _ _ => ?_)
    exact (yields_store _ _ h.proper hv).seq (.pure True.intro)

theorem yields_lowerCast (v : Operand) (hc : source = target ∨ source.castsTo target = true) :
    Yields (lowerCast v source target) fun _ => True := by
  unfold lowerCast
  split
  · exact .pure True.intro
  · next hne =>
    obtain ⟨⟨cls, op, args⟩, ho⟩ := exists_castOp v hne (hc.resolve_left hne)
    exact .lift ho (yields_assign _ _ _)

theorem yields_lowerCall (h : callee.ret.Proper)
    (args : List (Class × Operand)) : Yields (lowerCall callee args) fun _ => True := by
  unfold lowerCall
  split
  · exact (yields_emit _).seq (.pure True.intro)
  · next hv =>
    obtain ⟨cls, hcls⟩ := exists_passed h hv
    exact yields_freshTemp.bind fun _ _ => .lift hcls ((yields_emit _).seq (.pure True.intro))

/-- Names in scope have storage and can be read, and structs have layouts. -/
structure Ready (f : Findings) (layouts : Layouts) (names : Scope Binding)
    (storage : Scope Slot) : Prop extends Fits Slot.ty f names storage where
  laidOut : LaidOut f.symbols layouts
  noVoid : names.NoVoid

namespace Ready

theorem push (h : Ready f layouts scope slots) : Ready f layouts scope.push slots.push :=
  ⟨h.toFits.push, h.laidOut, h.noVoid.push⟩

theorem define (h : Ready f layouts scope slots) (name : String)
    (hd : b.ty.Declared f.symbols) (hv : b.ty ≠ .void) (hty : slot.ty = b.ty) :
    Ready f layouts (scope.define name b) (slots.define name slot) :=
  ⟨h.toFits.define name hd hty, h.laidOut, h.noVoid.define hv⟩

theorem declared (h : Ready f layouts scope slots) (he : Typed f scope e ty) :
    ty.Declared f.symbols :=
  he.declared h.symbols h.scope

end Ready

/-! ## Expressions -/

def Lowered.Has (low : Lowered) (ty : Ty) : Prop := low.sourceTy = ty ∧ low.Readable

theorem yields_value {x : Lower Lowered}
    (hx : Yields x fun low => low.Has ty) (hty : ty.Proper) (hk : ∀ v, Yields (k v) R) :
    Yields (x >>= fun low => low.toValue >>= k) R :=
  hx.bind fun _ hlow => (yields_toValue (hlow.1 ▸ hty) hlow.2).bind fun v _ => hk v

theorem yields_address (hl : LaidOut f.symbols layouts) {x : Lower Lowered}
      (hx : Yields x fun low => low.Has ty)
    (hty : ty.Declared f.symbols) (hv : ty ≠ .void) (hk : ∀ v, Yields (k v) R) :
    Yields (x >>= fun low => low.toAddress (.ofFindings f layouts) >>= k) R :=
  hx.bind fun _ hlow => (yields_toAddress hl (hlow.1 ▸ hty) (hlow.1 ▸ hv)).bind fun v _ => hk v

section

variable (hs : Ready f layouts scope slots)
include hs

mutual

/-- Lowering a typed expression without `void` arguments succeeds. -/
theorem yields_lowerExpr {e : Expr} {ty : Ty} (ha : NoVoid f.types e.callArgs) :
    Typed f scope e ty → Yields (lowerExpr (.ofFindings f layouts) slots e) fun low => low.Has ty
  | .integer hn | .float hn | .bool hn => .lift (TypeTable.typeOf_eq hn) (.pure ⟨rfl, True.intro⟩)
  | .text hn =>
    .lift (TypeTable.typeOf_eq hn) ((yields_intern _).bind fun _ _ => .pure ⟨rfl, True.intro⟩)
  | .var hn hname => by
    obtain ⟨slot, hslot, -⟩ := hs.storage_eq hname
    exact .lift (TypeTable.typeOf_eq hn) (.lift hslot ((yields_slotAddress slot).bind fun _ _ =>
      .pure ⟨rfl, hs.noVoid _ _ hname⟩))
  | .unary hn he hop => by
    rw [Expr.callArgs] at ha
    obtain ⟨cls, hcls⟩ := exists_class (hs.proper he) (ne_void_of_meets hop)
    refine .lift (TypeTable.typeOf_eq hn) (yields_value (yields_lowerExpr ha he) (hs.proper he) fun v => ?_)
    exact .lift hcls ((yields_assign _ _ _).bind fun _ _ => .pure ⟨rfl, True.intro⟩)
  | @Typed.binary _ _ _ op _ _ _ hn hl hr hop => by
    rw [Expr.callArgs, noVoid_append] at ha
    have hp := hs.proper hl
    obtain ⟨cls, hcls⟩ := exists_class hp (ne_void_of_meets hop)
    refine .lift (TypeTable.typeOf_eq hn) (.lift hl.typeOf (yields_value (yields_lowerExpr ha.1 hl) hp fun v =>
      yields_value (yields_lowerExpr ha.2 hr) hp fun w => .lift hcls ?_))
    cases hc : op.isComparison with
    | true =>
      obtain ⟨cond, hcond⟩ := exists_cond hc hop
      exact .lift hcond ((yields_assign _ _ _).bind fun _ _ => .pure ⟨rfl, True.intro⟩)
    | false =>
      obtain ⟨o, ho⟩ := exists_op hc hop
      exact .lift ho ((yields_assign _ _ _).bind fun _ _ => .pure ⟨rfl, True.intro⟩)
  | .cast hn he hc => by
    rw [Expr.callArgs] at ha
    refine .lift (TypeTable.typeOf_eq hn) (.lift he.typeOf (yields_value (yields_lowerExpr ha he) (hs.proper he)
      fun v => (yields_lowerCast v hc).bind fun _ _ => .pure ⟨rfl, True.intro⟩))
  | .call hn hargs hr => by
    rw [Expr.callArgs, noVoid_append] at ha
    refine .lift (TypeTable.typeOf_eq hn) (.lift hargs.typesOf (.lift (Symbols.callee_eq_ok hr) ?_))
    refine (yields_lowerArgs _ ha.1 ha.2 hargs).bind fun lowered _ => ?_
    refine (yields_lowerCall (hs.symbols.calleeRet hr).proper lowered).bind fun _ _ => ?_
    exact .pure ⟨rfl, True.intro⟩
  | .construct hn hname hargs => by
    rw [Expr.callArgs] at ha
    refine .lift (TypeTable.typeOf_eq hn) (.lift (layoutOf_eq hs.laidOut hname) ?_)
    refine (yields_allocate hs.laidOut (hs.declared (.construct hn hname hargs)) "new").bind fun slot _ => ?_
    refine (yields_lowerFields _ ha (fun field hm => ?_) hargs).seq (.pure ⟨rfl, True.intro⟩)
    rw [Layouts.fields_packed] at hm
    obtain ⟨i, hi, rfl⟩ := List.mem_mapIdx.mp hm
    exact hs.symbols.fields _ (Symbols.struct?_eq_some hname).1 _ (List.getElem_mem hi)
  | .access hn he hf => by
    rw [Expr.callArgs] at ha
    obtain ⟨offset, hoffset⟩ := memberOffset_eq hs.laidOut hf
    refine .lift (TypeTable.typeOf_eq hn) (.lift he.typeOf (.lift hoffset ?_))
    refine yields_address hs.laidOut (yields_lowerExpr ha he) (hs.declared he) nofun fun v => ?_
    exact (yields_assign _ _ _).bind fun _ _ => .pure ⟨rfl, (hs.symbols.field hf).2⟩

theorem yields_lowerArgs (receiver : Bool) (hv : NoVoid f.types es)
    (ha : NoVoid f.types (callArgsOf es)) : TypedAll f scope es ts →
    Yields (lowerArgs (.ofFindings f layouts) slots receiver es) fun _ => True
  | .nil => .pure True.intro
  | .cons he hes => by
    rw [callArgsOf, noVoid_append] at ha
    obtain ⟨hv, hvs⟩ := noVoid_cons.mp hv
    have hne : _ ≠ Ty.void := fun heq => hv (heq ▸ he.type?)
    obtain ⟨cls, hcls⟩ := exists_passed (hs.proper he) hne
    have hrest := yields_lowerArgs false hvs ha.2 hes
    cases receiver with
    | true =>
      exact yields_address hs.laidOut (yields_lowerExpr ha.1 he) (hs.declared he) hne fun v =>
        hrest.bind fun _ _ => .pure True.intro
    | false =>
      exact yields_value (yields_lowerExpr ha.1 he) (hs.proper he) fun v =>
        .lift he.typeOf (.lift hcls (hrest.bind fun _ _ => .pure True.intro))

theorem yields_lowerFields (base : Operand) (ha : NoVoid f.types (callArgsOf es))
    (hf : ∀ field ∈ fields, field.ty.Declared f.symbols ∧ field.ty ≠ .void) :
    TypedAll f scope es ts →
    Yields (lowerFields (.ofFindings f layouts) slots base fields es) fun _ => True
  | .nil => by cases fields <;> exact .pure True.intro
  | .cons he hes => by
    cases fields with
    | nil => exact .pure True.intro
    | cons field fields =>
      rw [callArgsOf, noVoid_append] at ha
      obtain ⟨⟨hd, hv⟩, hf⟩ := List.forall_mem_cons.mp hf
      refine yields_value (yields_lowerExpr ha.1 he) (hs.proper he) fun v => ?_
      refine (yields_assign _ _ _).bind fun _ _ => (yields_store _ _ hd.proper hv).seq ?_
      exact yields_lowerFields base ha.2 hf hes

end

theorem yields_lowerValue (h : Typed f scope e ty) (ha : NoVoid f.types e.callArgs) :
    Yields (lowerValue (.ofFindings f layouts) slots e) fun _ => True :=
  (yields_lowerExpr hs ha h).bind fun _ hlow => yields_toValue (hlow.1 ▸ hs.proper h) hlow.2

end

/-! ## Statements -/

mutual

/-- Lowering a typed statement without `void` arguments succeeds. -/
theorem yields_lowerStmt {stmt : Stmt} {scope : Scope Binding} {slots : Scope Slot}
    (hs : Ready f layouts scope slots) (ha : NoVoid f.types stmt.callArgs) :
    StmtTyped f ret scope stmt scope' → Yields (lowerStmt (.ofFindings f layouts) slots stmt)
      fun slots' => Ready f layouts scope' slots'
  | @StmtTyped.declare _ _ _ decl ty h hd hv hinit _ => by
    rw [Stmt.callArgs] at ha
    have hty : f.types.typeOfDecl decl = .ok ty := by rw [TypeTable.typeOfDecl, h]
    refine .lift hty ((yields_allocate hs.laidOut hd decl.name).bind fun slot _ => ?_)
    have hend : Ready f layouts (scope.define decl.name ⟨ty, decl.isMutable, false⟩)
        (slots.define decl.name ⟨slot, ty, false⟩) := hs.define decl.name hd hv rfl
    cases he : decl.init with
    | none => exact (yields_storeZero _ hd.proper hv).seq (.pure hend)
    | some e =>
      rw [he] at ha
      refine (yields_lowerValue hs (hinit e he) ha).bind fun v _ => ?_
      exact (yields_store _ _ hd.proper hv).seq (.pure hend)
  | .assign hb hrec he => by
    rw [Stmt.callArgs] at ha
    obtain ⟨slot, hslot, hty⟩ := hs.storage_eq hb
    refine .lift hslot ((yields_lowerValue hs he ha).bind fun v _ => ?_)
    refine (yields_slotAddress slot).bind fun a _ => ?_
    exact (yields_store _ _ (hty ▸ hs.proper he) (hty ▸ hs.noVoid _ _ hb)).seq (.pure hs)
  | .branch hc ht => by
    rw [Stmt.callArgs, noVoid_append] at ha
    refine (yields_lowerValue hs hc ha.1).bind fun v _ => ?_
    refine (Yields.modifyGet _).bind fun _ _ => (Yields.modifyGet _).bind fun _ _ => ?_
    refine (Yields.modifyGet _).bind fun _ _ => (yields_emit _).seq ((yields_emit _).seq ?_)
    refine (yields_lowerBlock hs.push ha.2 ht).seq ?_
    refine (yields_emitIfOpen _).seq ((yields_emit _).seq ?_)
    exact (yields_emitIfOpen _).seq ((yields_emit _).seq (.pure hs))
  | .branchElse hc ht he => by
    rw [Stmt.callArgs, noVoid_append, noVoid_append] at ha
    refine (yields_lowerValue hs hc ha.1.1).bind fun v _ => ?_
    refine (Yields.modifyGet _).bind fun _ _ => (Yields.modifyGet _).bind fun _ _ => ?_
    refine (Yields.modifyGet _).bind fun _ _ => (yields_emit _).seq ((yields_emit _).seq ?_)
    refine (yields_lowerBlock hs.push ha.1.2 ht).seq ?_
    refine (yields_emitIfOpen _).seq ((yields_emit _).seq ?_)
    refine (yields_lowerBlock hs.push ha.2 he).seq ?_
    exact (yields_emitIfOpen _).seq ((yields_emit _).seq (.pure hs))
  | .retNone _ => (yields_emit _).seq (.pure hs)
  | .ret he => by
    rw [Stmt.callArgs] at ha
    exact (yields_lowerValue hs he ha).bind fun v _ => (yields_emit _).seq (.pure hs)
  | .expr he => by
    rw [Stmt.callArgs] at ha
    exact (yields_lowerValue hs he ha).bind fun _ _ => .pure hs

theorem yields_lowerStmts {scope : Scope Binding} {slots : Scope Slot}
    (hs : Ready f layouts scope slots) (ha : NoVoid f.types (callArgsOfStmts stmts)) :
    StmtsTyped f ret scope stmts →
    Yields (lowerStmts (.ofFindings f layouts) slots stmts) fun _ => True
  | .nil => .pure True.intro
  | .cons h hrest => by
    rw [callArgsOfStmts, noVoid_append] at ha
    have hboth := (yields_lowerStmt hs ha.1 h).bind fun slots' hs' =>
      yields_lowerStmts hs' ha.2 hrest
    refine yields_isTerminated.bind fun _ _ => .ite ?_ hboth
    exact (Yields.modifyGet _).bind fun _ _ => (yields_emit _).seq hboth

theorem yields_lowerBlock {b : Block} {scope : Scope Binding} {slots : Scope Slot}
    (hs : Ready f layouts scope slots) (ha : NoVoid f.types b.callArgs) :
    BlockTyped f ret scope b → Yields (lowerBlock (.ofFindings f layouts) slots b) fun _ => True
  | .mk _ h => by
    rw [Block.callArgs] at ha
    exact yields_lowerStmts hs ha h

end

/-! ## Functions -/

theorem yields_storeReceiver (hsym : f.symbols.Sound) (hl : LaidOut f.symbols layouts)
    (hr : ∀ ty ∈ receiver, ty.Declared f.symbols ∧ ∃ name, ty = .struct name) :
    Yields (storeReceiver (.ofFindings f layouts) Scope.empty.push receiver) fun r =>
      Ready f layouts (receiverScope receiver) r.1 := by
  have hempty : Ready f layouts Scope.empty.push Scope.empty.push := ⟨.empty hsym, hl, nofun⟩
  cases receiver with
  | none => exact .pure hempty
  | some ty =>
    obtain ⟨hd, name, rfl⟩ := hr ty rfl
    refine (yields_allocate hl (.of_isNumber rfl) "self").bind fun slot _ => ?_
    exact (yields_emit _).seq (.pure (hempty.define "self" hd nofun rfl))

theorem yields_storeParams (hs : Ready f layouts scope slots)
    (hp : ∀ q ∈ params, q.ty.Declared f.symbols ∧ q.ty ≠ .void) :
    Yields (storeParams (.ofFindings f layouts) slots params) fun r =>
      Ready f layouts
        (params.foldl (fun scope p => scope.define p.name ⟨p.ty, false, false⟩) scope) r.1 := by
  induction params generalizing scope slots with
  | nil => exact .pure hs
  | cons q rest ih =>
    obtain ⟨⟨hd, hv⟩, hrest⟩ := List.forall_mem_cons.mp hp
    obtain ⟨cls, hcls⟩ := exists_passed hd.proper hv
    refine (yields_allocate hs.laidOut hd q.name).bind fun slot _ => ?_
    refine (yields_store _ _ hd.proper hv).seq (.lift hcls ?_)
    exact (ih (hs.define q.name hd hv rfl) hrest).bind fun r hr => .pure hr

/-- What makes lowering a function succeed. -/
structure Lowerable (f : Findings) (g : FnDef) : Prop where
  header : g.toFnHeader ∈ f.symbols.functions
  body : BlockTyped f g.ret g.startScope g.body
  params : ∀ q ∈ g.params, q.ty ≠ .void
  args : NoVoid f.types g.body.callArgs

theorem yields_lowerBody (hsym : f.symbols.Sound) (hl : LaidOut f.symbols layouts)
    (hg : Lowerable f g) : Yields (lowerBody (.ofFindings f layouts) g) fun _ => True := by
  refine (yields_storeReceiver hsym hl (hsym.receiver _ hg.header)).bind fun r hr => ?_
  refine (yields_storeParams hr fun q hq => ⟨hsym.params _ hg.header q hq, hg.params q hq⟩).bind ?_
  intro r' hr'
  refine (yields_lowerBlock hr' hg.args hg.body).seq ?_
  exact (yields_emitIfOpen _).seq (.pure True.intro)

theorem exists_resultClass (h : ty.Proper) : ∃ r, resultClass ty = .ok r := by
  unfold resultClass
  split
  · exact ⟨_, rfl⟩
  · next hv =>
    obtain ⟨cls, hcls⟩ := exists_passed h hv
    rw [hcls]
    exact ⟨_, rfl⟩

theorem exists_lowerFunctions (hsym : f.symbols.Sound) (hl : LaidOut f.symbols layouts)
    (hfns : ∀ g ∈ fns, Lowerable f g) (before : Draft) :
    ∃ r, lowerFunctions (.ofFindings f layouts) before fns = .ok r := by
  induction fns generalizing before with
  | nil => exact ⟨_, rfl⟩
  | cons g rest ih =>
    obtain ⟨hg, hrest⟩ := List.forall_mem_cons.mp hfns
    obtain ⟨params, d, hbody, -⟩ := yields_lowerBody hsym hl hg { before with slots := [], body := [] }
    obtain ⟨ret, hret⟩ := exists_resultClass (hsym.ret _ hg.header).proper
    obtain ⟨⟨gs, d'⟩, hgs⟩ := ih hrest d
    simp only [lowerFunctions, lowerFunction, StateT.run, hbody, hret, bind, Except.bind, pure,
      Except.pure, hgs]
    exact ⟨_, rfl⟩

end StructLang.Flat
