import StructLang.Proofs.CallSites
import StructLang.Proofs.Flat.Structure
import StructLang.Proofs.Flat.Totality

/-!
# Calls in flat code

The body of a lowered function calls the symbols of the calls in the source, in the same order, and what
it passes has a machine class, so no argument has type `void`. The code of a construction stops at the
last field of the struct, so this takes a typed body, in which there are as many values as fields.
-/

namespace StructLang.Flat

def Instr.symbol? : Instr → Option String
  | call _ func _ => some func
  | _ => none

def Function.called (f : Function) : List String := f.body.filterMap Instr.symbol?

abbrev Calls (types : TypeTable) (symbols : Symbols) (code : List Instr) (sites : List CallSite) :
    Prop :=
  StructLang.Calls Instr.symbol? types symbols code sites

theorem StoreCode.calls (h : StoreCode env v a ty code) :
    Calls types symbols code [] := by
  cases h <;> exact .none rfl

theorem ToValue.calls (h : ToValue s low v code s') : Calls types symbols code [] := by
  cases h <;> exact .none rfl

theorem ToAddress.calls (h : ToAddress env s low v code s') : Calls types symbols code [] := by
  cases h with
  | place | struct => exact .none rfl
  | spill _ _ hs => exact hs.calls

theorem SlotAddress.calls (h : SlotAddress s slot v code s') : Calls types symbols code [] := by
  cases h <;> exact .none rfl

theorem CastCode.calls (h : CastCode v source target s w code s') :
    Calls types symbols code [] := by
  cases h <;> exact .none rfl

theorem ZeroWords.calls (h : ZeroWords a words offset s code s') : Calls types symbols code [] := by
  induction h with
  | nil => exact .none rfl
  | first _ ih => exact .cons rfl ih
  | next _ _ ih => exact .cons rfl (.cons rfl ih)

theorem ZeroCode.calls (h : ZeroCode env a s ty code s') :
    Calls types symbols code [] := by
  cases h with
  | struct h => exact h.calls
  | single | double | scalar => exact .none rfl

theorem ReceiverCode.calls (h : ReceiverCode env scope s receiver scope' params code s') :
    Calls types symbols code [] := by
  cases h <;> exact .none rfl

theorem ParamsCode.calls (h : ParamsCode env scope ps s scope' params code s') :
    Calls types symbols code [] := by
  induction h with
  | nil => exact .none rfl
  | cons _ hs _ _ ih => exact hs.calls.append ih

/-! ## Expressions -/

section

variable {f : Findings}

/-- Code calls the symbols of the given calls, and none of the given arguments has type `void`. -/
structure Passes (f : Findings) (code : List Instr) (sites : List CallSite) (args : List Expr) : Prop where
  calls : Calls f.types f.symbols code sites
  noVoid : NoVoid f.types args

namespace Passes

theorem none (h : Calls f.types f.symbols c []) : Passes f c [] [] := ⟨h, noVoid_nil⟩

theorem append (h : Passes f c sites args) (h' : Passes f c' sites' args') :
    Passes f (c ++ c') (sites ++ sites') (args ++ args') :=
  ⟨h.calls.append h'.calls, noVoid_append.mpr ⟨h.noVoid, h'.noVoid⟩⟩

theorem appendNone (h : Passes f c sites args) (h' : Calls f.types f.symbols c' []) :
    Passes f (c ++ c') sites args :=
  ⟨h.calls.appendNone h', h.noVoid⟩

theorem behind (h : Passes f c' sites args) (h' : Calls f.types f.symbols c []) :
    Passes f (c ++ c') sites args :=
  ⟨h'.append h.calls, h.noVoid⟩

end Passes

theorem ArgsCode.noVoid (henv : env.types = f.types) {receiver : Bool}
    (hc : ArgsCode env slots receiver es s args code s') (h : TypedAll f scope es ts)
    (hr : receiver = true → ∀ t ∈ ts.head?, t ≠ .void) : NoVoid f.types es := by
  induction es generalizing receiver ts s args code with
  | nil => exact noVoid_nil
  | cons e es ih =>
    obtain _ | ⟨he, hes⟩ := h
    rw [noVoid_cons, he.type?, ne_eq, Option.some.injEq]
    cases hc with
    | receiver _ _ hces => exact ⟨hr rfl _ rfl, ih hces hes nofun⟩
    | value _ _ hty hcls hces =>
      rw [henv] at hty
      cases hty.symm.trans he.typeOf
      exact ⟨ne_void_of_passed hcls, ih hces hes nofun⟩

mutual

theorem ExprCode.passes (hsym : f.symbols.Sound) (hl : LaidOut f.symbols layouts) {e : Expr} {ty : Ty}
    {s s' : Supply} {code : List Instr} :
    ExprCode (.ofFindings f layouts) slots e s low code s' → Typed f scope e ty →
    Passes f code e.calls e.callArgs
  | .integer .., _ | .float .., _ | .bool .., _ | .text .., _ => .none (.none rfl)
  | .var _ _ ha, _ => .none ha.calls
  | .unary _ hce hv _, .unary _ he _ => (hce.passes hsym hl he).appendNone (hv.calls.append (.none rfl))
  | .compare _ _ hcl hv hcr hw _ _ _, .binary _ htl htr _
  | .arith _ _ hcl hv hcr hw _ _ _, .binary _ htl htr _ => (hcl.passes hsym hl htl).append
      (.behind ((hcr.passes hsym hl htr).appendNone (hw.calls.append (.none rfl))) hv.calls)
  | .cast _ _ hce hv hw, .cast _ he _ => (hce.passes hsym hl he).appendNone (hv.calls.append hw.calls)
  | .call _ hts hcallee hcargs hcall, .call _ hargs hr => by
    have hpassed := hcargs.passes hsym hl hargs
    have hsymbol := CallSite.symbol?_of_callee (c := ⟨_, _⟩) hts hcallee
    cases hts.symm.trans hargs.typesOf
    cases hcallee.symm.trans (Symbols.callee_eq_ok hr)
    have hvoid := hcargs.noVoid rfl hargs (hsym.receiver_ne_void hr)
    refine ⟨hpassed.calls.append ?_, noVoid_append.mpr ⟨hvoid, hpassed.noVoid⟩⟩
    cases hcall <;> exact .single hsymbol
  | .construct _ hlayout _ hcargs, .construct _ hd hargs => by
    cases hlayout.symm.trans (layoutOf_eq hl hd)
    exact hcargs.passes hsym hl hargs (by simp [Layouts.fields_packed])
  | .access _ _ _ hce ha, .access _ he _ => (hce.passes hsym hl he).appendNone (ha.calls.append (.none rfl))

theorem ArgsCode.passes (hsym : f.symbols.Sound) (hl : LaidOut f.symbols layouts) {receiver : Bool}
    {s s' : Supply} {code : List Instr} :
    ArgsCode (.ofFindings f layouts) slots receiver es s args code s' → TypedAll f scope es ts →
    Passes f code (callsOf es) (callArgsOf es)
  | .nil, _ => .none (.none rfl)
  | .receiver hce ha hces, .cons he hes =>
    (hce.passes hsym hl he).append ((hces.passes hsym hl hes).behind ha.calls)
  | .value hce hv _ _ hces, .cons he hes =>
    (hce.passes hsym hl he).append ((hces.passes hsym hl hes).behind hv.calls)

theorem FieldsCode.passes (hsym : f.symbols.Sound) (hl : LaidOut f.symbols layouts) {es : List Expr}
    {s s' : Supply} {code : List Instr} :
    FieldsCode (.ofFindings f layouts) slots base fields es s code s' → TypedAll f scope es ts →
    fields.length = ts.length → Passes f code (callsOf es) (callArgsOf es)
  | .nil, .nil, _ | .none, .nil, _ => .none (.none rfl)
  | .none, .cons .., hlen => by cases hlen
  | .cons hce hv hs hces, .cons he hes, hlen => (hce.passes hsym hl he).append
      ((((hces.passes hsym hl hes (Nat.succ.inj hlen)).behind hs.calls).behind (c := [_]) (.none rfl)).behind
        hv.calls)

end

theorem ValueCode.passes (hsym : f.symbols.Sound) (hl : LaidOut f.symbols layouts)
    (h : Typed f scope e ty)
    (hc : ValueCode (.ofFindings f layouts) slots e s v code s') :
    Passes f code e.calls e.callArgs := by
  cases hc with
  | mk hc hv => exact (hc.passes hsym hl h).appendNone hv.calls

/-! ## Statements -/

/-- The later draft has the code of the earlier one, then code that calls the symbols of the calls. -/
def Draft.Adds (f : Findings) (d : Draft) (sites : List CallSite) (args : List Expr) (d' : Draft) : Prop :=
  ∃ code, d'.body = d.body ++ code ∧ Passes f code sites args

namespace Draft.Adds

variable {d : Draft}

theorem refl : d.Adds f [] [] d := ⟨[], by simp, .none (.none rfl)⟩

theorem extend (h : Passes f code sites args) :
    d.Adds f sites args (d.extend s code) := ⟨code, rfl, h⟩

theorem emit (h : i.symbol? = none) : d.Adds f [] [] (d.emit i) :=
  ⟨[i], rfl, .none (.cons h (.none rfl))⟩

theorem trans (h : d.Adds f sites args d') (h' : d'.Adds f sites' args' d'') :
    d.Adds f (sites ++ sites') (args ++ args') d'' := by
  obtain ⟨code, hbody, hpasses⟩ := h
  obtain ⟨code', hbody', hpasses'⟩ := h'
  exact ⟨code ++ code', by rw [hbody', hbody, List.append_assoc], hpasses.append hpasses'⟩

theorem transNone (h : d.Adds f sites args d') (h' : d'.Adds f [] [] d'')
    : d.Adds f sites args d'' := by
  simpa using h.trans h'

theorem emitIfOpen (h : i.symbol? = none) : d.Adds f [] [] (d.emitIfOpen i) := by
  unfold Draft.emitIfOpen
  split
  · exact refl
  · exact emit h

theorem reopen : d.Adds f [] [] d.reopen := by
  unfold Draft.reopen
  split
  · exact ⟨[_], rfl, .none (.none rfl)⟩
  · exact refl

theorem openBranch (v : Operand) : d.Adds f [] [] (d.openBranch v) := by
  have hjump : d.Adds f [] [] ((d.bumpLabel 3).emit (.jumpIf v (d.label 0) (d.label 1))) :=
    ⟨[_], rfl, .none (.none rfl)⟩
  exact hjump.transNone (emit rfl)

theorem closeArm (next last : String) : d.Adds f [] [] (d.closeArm next last) :=
  (emitIfOpen (i := .jump last) rfl).transNone (emit rfl)

end Draft.Adds

mutual

theorem StmtCode.adds (hsym : f.symbols.Sound) (hl : LaidOut f.symbols layouts) {scope : Scope Binding}
    {slots : Scope Slot} :
    StmtCode (.ofFindings f layouts) slots stmt d slots' d' → StmtTyped f ret scope stmt scope' →
    d.Adds f stmt.calls stmt.callArgs d'
  | .declare _ _ hinit hv hs, .declare _ _ _ htyped _ => by
    rw [Stmt.calls, Stmt.callArgs, hinit]
    exact .extend ((hv.passes hsym hl (htyped _ hinit)).appendNone hs.calls)
  | .declareZero _ _ hinit hz, _ => by
    rw [Stmt.calls, Stmt.callArgs, hinit]
    exact .extend (.none hz.calls)
  | .assign _ hv ha hs, .assign _ _ he =>
    .extend ((hv.passes hsym hl he).appendNone (ha.calls.append hs.calls))
  | .branch hv hct, .branch hcond ht =>
    ((((Draft.Adds.extend (hv.passes hsym hl hcond)).transNone (.openBranch _)).trans
      (hct.adds hsym hl ht)).transNone (.closeArm _ _)).transNone (.closeArm _ _)
  | .branchElse hv hct hce, .branchElse hcond ht he =>
    (((((Draft.Adds.extend (hv.passes hsym hl hcond)).transNone (.openBranch _)).trans
      (hct.adds hsym hl ht)).transNone (.closeArm _ _)).trans (hce.adds hsym hl he)).transNone (.closeArm _ _)
  | .retNone, _ => .emit rfl
  | .ret hv, .ret he => (Draft.Adds.extend (hv.passes hsym hl he)).transNone (.emit rfl)
  | .expr hv, .expr he => .extend (hv.passes hsym hl he)

theorem StmtsCode.adds (hsym : f.symbols.Sound) (hl : LaidOut f.symbols layouts) {scope : Scope Binding}
    {slots : Scope Slot} :
    StmtsCode (.ofFindings f layouts) slots stmts d d' →
    StmtsTyped f ret scope stmts → d.Adds f (callsOfStmts stmts) (callArgsOfStmts stmts) d'
  | .nil, _ => .refl
  | .cons hcs hcrest, .cons hs hrest =>
    (Draft.Adds.trans .reopen (hcs.adds hsym hl hs)).trans (hcrest.adds hsym hl hrest)

theorem BlockCode.adds (hsym : f.symbols.Sound) (hl : LaidOut f.symbols layouts) {scope : Scope Binding}
    {slots : Scope Slot} :
    BlockCode (.ofFindings f layouts) slots b d d' → BlockTyped f ret scope b →
    d.Adds f b.calls b.callArgs d'
  | .mk hcs, .mk _ hs => hcs.adds hsym hl hs

end

/-! ## Functions -/

theorem FunctionCode.passes (hsym : f.symbols.Sound) (hl : LaidOut f.symbols layouts)
    (hg : BlockTyped f g.ret g.startScope g.body)
    (hc : FunctionCode (.ofFindings f layouts) before g F d) :
    Passes f F.body g.body.calls g.body.callArgs := by
  have hslots : Calls f.types f.symbols d.slots [] := by
    refine .none (List.filterMap_eq_nil_iff.mpr fun i hi => ?_)
    obtain ⟨hint, n, align, size, rfl⟩ := hc.sound_lax.1.slots i hi
    rfl
  cases hc with
  | mk hbody _ =>
    cases hbody with
    | @mk _ _ c1 _ _ _ c2 s2 d1 hr hp hb =>
      have hstart : Draft.Adds f { before with slots := [], body := [] } [] []
          (Draft.extend { before with slots := [], body := [] } s2 (c1 ++ c2)) :=
        .extend (.none (hr.calls.append hp.calls))
      obtain ⟨code, hcode, hpasses⟩ := (hstart.trans (hb.adds hsym hl hg)).transNone
        (.emitIfOpen (i := if g.ret = .void then .ret none else .halt) (by split <;> rfl))
      have hbody : Passes f (d1.emitIfOpen (if g.ret = .void then .ret none else .halt)).body
          g.body.calls g.body.callArgs := by
        rw [hcode]
        exact hpasses
      exact hbody.behind (.cons rfl hslots)

end

end StructLang.Flat
