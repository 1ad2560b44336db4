import StructLang.Proofs.Acceptance
import StructLang.Proofs.Lowering

/-!
# Lowering to SSA code succeeds

Every accepted program has SSA code. Lowering finds scopes, overloads, fields and conversions anew, and
the typing rules say that it finds what checking found.
-/

namespace StructLang.Ssa

def Lowered.sourceTy : Lowered → StructLang.Ty
  | .value ty _ | .place ty _ => ty

/-! ## Types and operators -/

theorem exists_ofSource (h : ty.Proper) : ∃ t, Ty.ofSource ty = .ok t := by
  cases ty with
  | unknown => exact absurd rfl h.1
  | error => exact absurd rfl h.2
  | _ => exact ⟨_, rfl⟩

theorem ofSource_ne_void (h : Ty.ofSource ty = .ok t) (hv : ty ≠ .void) : t ≠ .void := by
  cases ty <;> cases h <;> first
    | exact absurd rfl hv
    | exact nofun

theorem exists_predicate (hty : Ty.ofSource ty = .ok t) (hop : op.isComparison = true)
    (hm : Typing.meets ty (Typing.binaryDemand op) = true) :
    ∃ pred, Predicate.ofSource op t = .ok pred := by
  cases op <;> cases hop <;> cases ty <;> cases hm <;> cases hty <;> exact ⟨_, rfl⟩

theorem exists_arithOp (hty : Ty.ofSource ty = .ok t) (hop : op.isComparison = false)
    (hm : Typing.meets ty (Typing.binaryDemand op) = true) :
    ∃ o, ArithOp.ofSource op t = .ok o := by
  cases op <;> cases hop <;> cases ty <;> cases hm <;> cases hty <;> exact ⟨_, rfl⟩

theorem isInt_of_ofSource (h : Ty.ofSource ty = .ok t) (hi : ty.isInt = true) : t.isInt = true := by
  cases ty <;> cases hi <;> cases h <;> rfl

theorem isFloat_of_ofSource (h : Ty.ofSource ty = .ok t) : t.isFloat = ty.isFloat := by
  cases ty <;> cases h <;> rfl

theorem suits_predicate (h : Predicate.ofSource op t = .ok pred) :
    (if pred.isFloat then t.isFloat else t.isInt) = true := by
  cases op <;> cases t <;> cases h <;> rfl

theorem suits_arithOp (hty : Ty.ofSource ty = .ok t) (hcmp : op.isComparison = false)
    (hm : Typing.meets ty (Typing.binaryDemand op) = true) (h : ArithOp.ofSource op t = .ok o) :
    (if o.isFloat then t.isFloat else t.isInt) = true := by
  cases op <;> cases hcmp <;> cases ty <;> cases hm <;> cases hty <;> cases h <;> rfl

theorem admits_of_ofSource {op : CastOp} (hne : source ≠ target) (hs : Ty.ofSource source = .ok t)
    (ht : Ty.ofSource target = .ok t') (hop : CastOp.ofSource source target = .ok op) :
    op.admits t t' = true := by
  cases source <;> cases hs <;> cases target <;> cases ht <;> first
    | (cases hop <;> rfl)
    | exact absurd rfl hne

theorem exists_castOp (hne : source ≠ target) (hc : source.castsTo target = true)
    (ht : ¬(source.isInt && target = .bool) = true) :
    ∃ o, CastOp.ofSource source target = .ok o := by
  cases source <;> cases target <;> first
    | exact ⟨_, rfl⟩
    | (cases hc; done)
    | exact absurd rfl hne
    | exact absurd rfl ht

namespace Lower

/-! ## Steps that cannot fail -/

theorem yields_freshRegister : Yields freshRegister fun _ => True := .modifyGet _

theorem yields_emit (i : Instr) : Yields (emit i) fun _ => True := .modify _

theorem yields_allocate (ty : Ty) : Yields (allocate ty) fun _ => True :=
  yields_freshRegister.bind fun _ _ => (Yields.modify _).seq (.pure True.intro)

theorem yields_emitValue (build : Register → Instr) : Yields (emitValue build) fun _ => True :=
  yields_freshRegister.bind fun _ _ => (yields_emit _).seq (.pure True.intro)

theorem yields_isTerminated : Yields isTerminated fun _ => True :=
  Yields.get.bind fun _ _ => .pure True.intro

theorem yields_terminateIfOpen (t : Terminator) : Yields (terminateIfOpen t) fun _ => True :=
  yields_isTerminated.bind fun _ _ => .ite (.modify _) (.pure True.intro)

theorem yields_addBlock (label : String) : Yields (addBlock label) fun _ => True := .modifyGet _

theorem yields_intern (text : String) : Yields (intern text) fun _ => True := by
  refine Yields.get.bind fun _ _ => ?_
  split
  · exact .pure True.intro
  · exact Yields.get.bind fun _ _ => (Yields.modify _).seq (.pure True.intro)

theorem yields_slotAddress (slot : Slot) : Yields (slotAddress slot) fun _ => True :=
  .ite (yields_emitValue _) (.pure True.intro)

end Lower

open Lower

theorem yields_toValue {low : Lowered} (h : low.sourceTy.Proper) :
    Yields low.toValue fun _ => True := by
  cases low with
  | value ty v => exact .pure True.intro
  | place ty address =>
    obtain ⟨t, ht⟩ := exists_ofSource h
    exact .lift ht (yields_emitValue _)

theorem yields_toAddress {low : Lowered} (h : low.sourceTy.Proper) :
    Yields low.toAddress fun _ => True := by
  cases low with
  | place ty address => exact .pure True.intro
  | value ty v =>
    obtain ⟨t, ht⟩ := exists_ofSource h
    exact .lift ht ((yields_allocate _).bind fun _ _ => (yields_emit _).seq (.pure True.intro))

theorem yields_lowerCast (v : Operand) (hs : source.Proper)
    (hc : source = target ∨ source.castsTo target = true) :
    Yields (lowerCast v source target) fun _ => True := by
  unfold lowerCast
  split
  · exact .pure True.intro
  · next hne =>
    have hc := hc.resolve_left hne
    obtain ⟨s, hs⟩ := exists_ofSource hs
    obtain ⟨t, ht⟩ := exists_ofSource (Ty.Declared.of_castsTo (s := ⟨[], [], []⟩) hc).proper
    refine .lift hs (.lift ht ?_)
    split
    · exact yields_emitValue _
    · next htest =>
      obtain ⟨o, ho⟩ := exists_castOp hne hc htest
      exact .lift ho (yields_emitValue _)

theorem yields_lowerCall (h : callee.ret.Proper) (params : List Ty)
    (args : List (Ty × Operand)) : Yields (lowerCall callee params args) fun _ => True := by
  obtain ⟨t, ht⟩ := exists_ofSource h
  refine .lift ht (.ite ?_ (yields_emitValue _))
  exact (yields_emit _).seq (.pure True.intro)

theorem exists_paramTypes (h : ∀ ty ∈ callee.signature, ty.Proper) :
    ∃ params, paramTypes callee = .ok params := by
  unfold paramTypes
  split
  · next receiver rest heq =>
    rw [heq] at h
    obtain ⟨hr, hrest⟩ := List.forall_mem_cons.mp h
    obtain ⟨t, ht⟩ := exists_ofSource hr
    obtain ⟨ts, hts⟩ := exists_mapM_eq_ok fun ty hm => exists_ofSource (hrest ty hm)
    rw [ht, hts]
    split <;> exact ⟨_, rfl⟩
  · exact ⟨_, rfl⟩

def Env.ofFindings (f : Findings) : Env := ⟨f.types, f.declaredIn, f.symbols⟩

/-! ## Expressions -/

section

variable {f : Findings}

theorem exists_memberOf (h : f.symbols.field? (.struct struct) member = some (index, ty)) :
    memberOf f.symbols (.struct struct) member = .ok (struct, index) := by
  simp only [memberOf, StructLang.Ty.structName?, h]

theorem yields_value {x : Lower Lowered}
    (hx : Yields x fun low => low.sourceTy = ty) (hty : ty.Proper) (hk : ∀ v, Yields (k v) R) :
    Yields (x >>= fun low => low.toValue >>= k) R :=
  hx.bind fun _ hlow => (yields_toValue (hlow ▸ hty)).bind fun v _ => hk v

theorem yields_address {x : Lower Lowered}
    (hx : Yields x fun low => low.sourceTy = ty) (hty : ty.Proper) (hk : ∀ v, Yields (k v) R) :
    Yields (x >>= fun low => low.toAddress >>= k) R :=
  hx.bind fun _ hlow => (yields_toAddress (hlow ▸ hty)).bind fun v _ => hk v

section

variable (hs : Fits Slot.ty f scope slots)
include hs

mutual

/-- Lowering a typed expression succeeds and gives something of its type. -/
theorem yields_lowerExpr {ty : StructLang.Ty} : Typed f scope e ty →
    Yields (lowerExpr (.ofFindings f) slots e) fun low => low.sourceTy = ty
  | @Typed.integer _ _ _ value _ hn => by
    obtain ⟨t, ht⟩ := exists_ofSource (hs.proper (@Typed.integer _ _ _ value _ hn))
    exact .lift (TypeTable.typeOf_eq hn) (.lift ht (.pure rfl))
  | @Typed.float _ _ _ value _ hn => by
    obtain ⟨t, ht⟩ := exists_ofSource (hs.proper (@Typed.float _ _ _ value _ hn))
    exact .lift (TypeTable.typeOf_eq hn) (.lift ht (.pure rfl))
  | .bool hn => .lift (TypeTable.typeOf_eq hn) (.pure rfl)
  | .text hn => .lift (TypeTable.typeOf_eq hn) ((yields_intern _).bind fun _ _ => .pure rfl)
  | .var hn hname => by
    obtain ⟨slot, hslot, -⟩ := hs.storage_eq hname
    exact .lift (TypeTable.typeOf_eq hn)
      (.lift hslot ((yields_slotAddress slot).bind fun _ _ => .pure rfl))
  | .unary hn he hop => by
    have hp := hs.proper he
    obtain ⟨t, ht⟩ := exists_ofSource hp
    exact .lift (TypeTable.typeOf_eq hn) (yields_value (yields_lowerExpr he) hp fun v =>
      .lift ht ((yields_emitValue _).bind fun _ _ => .pure rfl))
  | @Typed.binary _ _ _ op _ _ _ hn hl hr hop => by
    have hp := hs.proper hl
    obtain ⟨t, ht⟩ := exists_ofSource hp
    refine .lift (TypeTable.typeOf_eq hn) (.lift hl.typeOf (.lift ht (yields_value
      (yields_lowerExpr hl) hp fun v => yields_value (yields_lowerExpr hr) hp fun w => ?_)))
    cases hc : op.isComparison with
    | true =>
      obtain ⟨pred, hpred⟩ := exists_predicate ht hc hop
      exact .lift hpred ((yields_emitValue _).bind fun _ _ => .pure rfl)
    | false =>
      obtain ⟨o, ho⟩ := exists_arithOp ht hc hop
      exact .lift ho ((yields_emitValue _).bind fun _ _ => .pure rfl)
  | .cast hn he hc => by
    have hp := hs.proper he
    exact .lift (TypeTable.typeOf_eq hn) (.lift he.typeOf (yields_value (yields_lowerExpr he) hp
      fun v => (yields_lowerCast v hp hc).bind fun _ _ => .pure rfl))
  | .call hn hargs hr => by
    have hsig := Symbols.signature_eq hr
    obtain ⟨params, hparams⟩ := exists_paramTypes fun ty hm =>
      (hargs.declared hs.symbols hs.scope ty (hsig ▸ hm)).proper
    refine .lift (TypeTable.typeOf_eq hn) (.lift hargs.typesOf (.lift (Symbols.callee_eq_ok hr)
      (.lift hparams ?_)))
    refine (yields_lowerArgs _ hargs).bind fun lowered _ => ?_
    exact (yields_lowerCall (hs.symbols.calleeRet hr).proper params lowered).bind fun _ _ => .pure rfl
  | .construct hn hd hargs =>
    .lift (TypeTable.typeOf_eq hn) ((yields_allocate _).bind fun slot _ =>
      (yields_lowerFields _ slot 0 hargs).seq ((yields_emitValue _).bind fun _ _ => .pure rfl))
  | .access hn he hf =>
    .lift (TypeTable.typeOf_eq hn) (.lift he.typeOf (.lift (exists_memberOf hf)
      (yields_address (yields_lowerExpr he) (hs.proper he) fun v =>
        (yields_emitValue _).bind fun _ _ => .pure rfl)))

theorem yields_lowerArgs (receiver : Bool) : TypedAll f scope es ts →
    Yields (lowerArgs (.ofFindings f) slots receiver es) fun _ => True
  | .nil => .pure True.intro
  | .cons he hes => by
    have hp := hs.proper he
    obtain ⟨t, ht⟩ := exists_ofSource hp
    have hrest := yields_lowerArgs false hes
    cases receiver with
    | true =>
      exact yields_address (yields_lowerExpr he) hp fun v => hrest.bind fun _ _ => .pure True.intro
    | false =>
      exact yields_value (yields_lowerExpr he) hp fun v =>
        .lift he.typeOf (.lift ht (hrest.bind fun _ _ => .pure True.intro))

theorem yields_lowerFields (struct : String) (slot : Register) (index : Nat) :
    TypedAll f scope es ts →
    Yields (lowerFields (.ofFindings f) slots struct slot index es) fun _ => True
  | .nil => .pure True.intro
  | .cons he hes => by
    have hp := hs.proper he
    obtain ⟨t, ht⟩ := exists_ofSource hp
    refine .lift he.typeOf (.lift ht (yields_value (yields_lowerExpr he) hp fun v => ?_))
    refine (yields_emitValue _).bind fun _ _ => (yields_emit _).seq ?_
    exact yields_lowerFields struct slot (index + 1) hes

end

theorem yields_lowerValue (h : Typed f scope e ty) :
    Yields (lowerValue (.ofFindings f) slots e) fun _ => True :=
  (yields_lowerExpr hs h).bind fun _ hlow => yields_toValue (hlow ▸ hs.proper h)

end

/-! ## Statements -/

def Hoisted (declared : List (Nat × Register)) (ids : List Nat) : Prop :=
  ∀ id ∈ ids, ∃ r, declared.lookup id = some r

theorem yields_declaredSlot (hd : Hoisted declared [d.node.id])
    (h : f.types[d.node.id]? = some ty) :
    ∃ slot, declaredSlot ⟨.ofFindings f, declared⟩ d = .ok slot ∧ slot.ty = ty := by
  obtain ⟨r, hr⟩ := hd d.node.id List.mem_cons_self
  have hty : f.types.typeOfDecl d = .ok ty := by rw [TypeTable.typeOfDecl, h]
  refine ⟨⟨r, ty, false⟩, ?_, rfl⟩
  simp only [declaredSlot, hr]
  change (f.types.typeOfDecl d >>= _) = _
  rw [hty]
  rfl

mutual

/-- Lowering a typed statement succeeds, and names in the scope that follows have storage. -/
theorem yields_lowerStmt {s : Stmt} {scope : Scope Binding} {slots : Scope Slot}
    (hs : Fits Slot.ty f scope slots) (hd : Hoisted declared s.declIds) :
    StmtTyped f ret scope s scope' → Yields (lowerStmt ⟨.ofFindings f, declared⟩ slots s)
      fun slots' => Fits Slot.ty f scope' slots'
  | @StmtTyped.declare _ _ _ d _ h hty _ hinit _ => by
    rw [Stmt.declIds] at hd
    obtain ⟨slot, hslot, rfl⟩ := yields_declaredSlot hd h
    obtain ⟨t, ht⟩ := exists_ofSource hty.proper
    have hend : Fits Slot.ty f (scope.define d.name ⟨slot.ty, d.isMutable, false⟩)
        (slots.define d.name slot) := hs.define d.name hty rfl
    refine .lift hslot (.lift ht ?_)
    cases he : d.init with
    | none => exact (yields_emit _).seq (.pure hend)
    | some e =>
      exact (yields_lowerValue hs (hinit e he)).bind fun v _ => (yields_emit _).seq (.pure hend)
  | .assign hb hrec hv => by
    obtain ⟨slot, hslot, hty⟩ := hs.storage_eq hb
    obtain ⟨t, ht⟩ := exists_ofSource (hs.proper hv)
    refine .lift hslot ((yields_lowerValue hs hv).bind fun v _ => ?_)
    refine (yields_slotAddress slot).bind fun a _ => .lift (hty ▸ ht) ?_
    exact (yields_emit _).seq (.pure hs)
  | .branch hc ht => by
    rw [Stmt.declIds] at hd
    refine (yields_lowerValue hs hc).bind fun c _ => (yields_emitValue _).bind fun test _ => ?_
    refine (Yields.modifyGet _).bind fun n _ => (yields_addBlock _).bind fun thenId _ => ?_
    refine (yields_addBlock _).bind fun elseId _ => (yields_addBlock _).bind fun mergeId _ => ?_
    refine (Yields.modify _).seq ((Yields.modify _).seq ?_)
    refine (yields_lowerBlock hs.push hd ht).seq ?_
    refine (yields_terminateIfOpen _).seq ((Yields.modify _).seq ?_)
    exact (yields_terminateIfOpen _).seq ((Yields.modify _).seq (.pure hs))
  | .branchElse hc ht he => by
    rw [Stmt.declIds] at hd
    obtain ⟨hdt, hde⟩ := List.forall_mem_append.mp hd
    refine (yields_lowerValue hs hc).bind fun c _ => (yields_emitValue _).bind fun test _ => ?_
    refine (Yields.modifyGet _).bind fun n _ => (yields_addBlock _).bind fun thenId _ => ?_
    refine (yields_addBlock _).bind fun elseId _ => (yields_addBlock _).bind fun mergeId _ => ?_
    refine (Yields.modify _).seq ((Yields.modify _).seq ?_)
    refine (yields_lowerBlock hs.push hdt ht).seq ?_
    refine (yields_terminateIfOpen _).seq ((Yields.modify _).seq ?_)
    refine (yields_lowerBlock hs.push hde he).seq ?_
    exact (yields_terminateIfOpen _).seq ((Yields.modify _).seq (.pure hs))
  | .retNone h => (Yields.modify _).seq (.pure hs)
  | .ret h => by
    obtain ⟨t, ht⟩ := exists_ofSource (hs.proper h)
    refine .lift h.typeOf (.lift ht ((yields_lowerValue hs h).bind fun v _ => ?_))
    exact (Yields.modify _).seq (.pure hs)
  | .expr h => (yields_lowerValue hs h).bind fun _ _ => .pure hs

theorem yields_lowerStmts {scope : Scope Binding} {slots : Scope Slot}
    (hs : Fits Slot.ty f scope slots) (hd : Hoisted declared (declIdsOf stmts)) :
    StmtsTyped f ret scope stmts →
    Yields (lowerStmts ⟨.ofFindings f, declared⟩ slots stmts) fun _ => True
  | .nil => .pure True.intro
  | .cons h hrest => by
    rw [declIdsOf] at hd
    obtain ⟨hds, hdrest⟩ := List.forall_mem_append.mp hd
    have hboth := (yields_lowerStmt hs hds h).bind fun slots' hs' =>
      yields_lowerStmts hs' hdrest hrest
    refine yields_isTerminated.bind fun done _ => .ite ?_ hboth
    refine (Yields.modifyGet _).bind fun n _ => (yields_addBlock _).bind fun b _ => ?_
    exact (Yields.modify _).seq hboth

theorem yields_lowerBlock {b : StructLang.Block} {scope : Scope Binding} {slots : Scope Slot}
    (hs : Fits Slot.ty f scope slots) (hd : Hoisted declared b.declIds) :
    BlockTyped f ret scope b → Yields (lowerBlock ⟨.ofFindings f, declared⟩ slots b) fun _ => True
  | .mk _ h => by
    rw [Block.declIds] at hd
    exact yields_lowerStmts hs hd h

end

/-! ## Slots of declared variables -/

theorem yields_hoistDecls (h : ∀ id ∈ ids, ∃ ty, f.types[id]? = some ty ∧ ty.Proper) :
    Yields (hoistDecls (.ofFindings f) ids) fun table => table.map Prod.fst = ids := by
  induction ids with
  | nil => exact .pure rfl
  | cons id ids ih =>
    obtain ⟨⟨ty, hty, hp⟩, hids⟩ := List.forall_mem_cons.mp h
    obtain ⟨t, ht⟩ := exists_ofSource hp
    have hty' : (Env.ofFindings f).types[id]? = some ty := hty
    rw [hoistDecls]
    simp only [hty']
    refine .lift ht ((yields_allocate _).bind fun r _ => (ih hids).bind fun table htable => ?_)
    exact .pure (by rw [List.map_cons, htable])

mutual

theorem yields_hoistStmts {scope : Scope Binding} :
    StmtsTyped f ret scope stmts → Yields (hoistStmts (.ofFindings f) stmts) fun table =>
      (Typing.declarations stmts ++ table.map Prod.fst).Perm (declIdsOf stmts)
  | .nil => .pure .rfl
  | .cons (.declare ..) hrest => (yields_hoistStmts hrest).mono fun table htable => htable.cons _
  | .cons (.branch _ ht) hrest => by
    refine (yields_hoistBlock ht).bind fun a ha => (yields_hoistStmts hrest).bind
      fun table htable => .pure ?_
    rw [List.map_append]
    exact List.perm_append_comm_assoc _ _ _ |>.trans (ha.append htable)
  | .cons (.branchElse _ ht he) hrest => by
    refine (yields_hoistBlock ht).bind fun a ha => (yields_hoistBlock he).bind fun b hb =>
      (yields_hoistStmts hrest).bind fun table htable => .pure ?_
    rw [List.map_append, List.map_append]
    exact List.perm_append_comm_assoc _ _ _ |>.trans ((ha.append hb).append htable)
  | .cons (.assign ..) hrest | .cons (.retNone _) hrest | .cons (.ret _) hrest
  | .cons (.expr _) hrest => (yields_hoistStmts hrest :)

theorem yields_hoistBlock {scope : Scope Binding} :
    BlockTyped f ret scope b → Yields (hoistBlock (.ofFindings f) b) fun table =>
      (table.map Prod.fst).Perm b.declIds
  | @BlockTyped.mk _ _ _ n stmts hn h => by
    have hown : Yields (hoistDecls (.ofFindings f) (f.declaredIn n.id)) fun table =>
        table.map Prod.fst = Typing.declarations stmts := by
      rw [hn]
      exact yields_hoistDecls fun id hm =>
        (h.declaration id hm).imp fun ty hty => ⟨hty.1, hty.2.1.proper⟩
    refine hown.bind fun own ho => (yields_hoistStmts h).bind fun table ht => .pure ?_
    rw [List.map_append, ho]
    exact ht

end

/-! ## Functions -/

def bindParam (scope : Scope Binding) (p : Param) : Scope Binding :=
  scope.define p.name ⟨p.source, false, p.byReference⟩

theorem yields_storeParams (index : Nat) (hs : Fits Slot.ty f scope slots)
    (h : ∀ p ∈ params, p.source.Declared f.symbols) :
    Yields (storeParams index slots params) fun slots' =>
      Fits Slot.ty f (params.foldl bindParam scope) slots' := by
  induction params generalizing index scope slots with
  | nil => exact .pure hs
  | cons p rest ih =>
    obtain ⟨hp, hrest⟩ := List.forall_mem_cons.mp h
    refine (yields_allocate _).bind fun slot _ => (yields_emit _).seq ?_
    exact ih (index + 1) (hs.define p.name hp rfl) hrest

private theorem exists_ownParams {params : List TypedName} (hp : ∀ p ∈ params, p.ty.Declared s) :
    ∃ own, (params.mapM fun p => do
      return Param.mk p.name (← Ty.ofSource p.ty) p.ty false : Except LoweringError _) = .ok own ∧
      (∀ p ∈ own, p.source.Declared s) ∧ ∀ scope, own.foldl bindParam scope =
        params.foldl (fun scope p => scope.define p.name ⟨p.ty, false, false⟩) scope := by
  induction params with
  | nil => exact ⟨[], rfl, by simp, fun _ => rfl⟩
  | cons p rest ih =>
    obtain ⟨hp, hrest⟩ := List.forall_mem_cons.mp hp
    obtain ⟨t, ht⟩ := exists_ofSource hp.proper
    obtain ⟨own, hown, hd, hfold⟩ := ih hrest
    refine ⟨⟨p.name, t, p.ty, false⟩ :: own, ?_, List.forall_mem_cons.mpr ⟨hp, hd⟩,
      fun scope => hfold _⟩
    rw [List.mapM_cons, hown, ht]
    rfl

theorem exists_paramsOf (hr : ∀ ty ∈ g.receiver, ty.Declared s)
    (hp : ∀ p ∈ g.params, p.ty.Declared s) :
    ∃ params, paramsOf g = .ok params ∧ (∀ p ∈ params, p.source.Declared s) ∧
      params.foldl bindParam Scope.empty.push = g.startScope := by
  obtain ⟨own, hown, hd, hfold⟩ := exists_ownParams hp
  refine ⟨(g.receiver.toList.map fun ty => ⟨"self", .ptr, ty, true⟩) ++ own, ?_, ?_, ?_⟩
  · rw [paramsOf, hown]
    rfl
  · rw [List.forall_mem_append]
    exact ⟨by simpa using hr, hd⟩
  · rw [List.foldl_append, hfold, FnHeader.startScope]
    cases g.receiver <;> rfl

theorem yields_lowerBody (ret : Ty) (hsym : f.symbols.Sound)
    (hp : ∀ p ∈ params, p.source.Declared f.symbols)
    (hstart : params.foldl bindParam Scope.empty.push = g.startScope)
    (hbody : BlockTyped f g.ret g.startScope g.body) :
    Yields (lowerBody (.ofFindings f) g params ret) fun _ => True := by
  refine (yields_storeParams 0 (.empty hsym) hp).bind fun slots hs => ?_
  rw [hstart] at hs
  refine (yields_hoistBlock hbody).bind fun declared hd => ?_
  refine (yields_lowerBlock hs ?_ hbody).seq (yields_terminateIfOpen _)
  intro id hm
  have hm := hd.symm.subset hm
  rw [List.mem_map] at hm
  obtain ⟨⟨id', r⟩, hmem, rfl⟩ := hm
  exact Option.isSome_iff_exists.mp
    (List.lookup_isSome_iff.mpr ⟨(id', r), hmem, beq_self_eq_true id'⟩)

theorem exists_lowerFunction (hsym : f.symbols.Sound)
    (hg : g.toFnHeader ∈ f.symbols.functions) (hbody : BlockTyped f g.ret g.startScope g.body)
    (strings : List Constant) :
    ∃ r, lowerFunction (.ofFindings f) strings g = .ok r ∧ r.1.name = g.linkage := by
  obtain ⟨params, hparams, hp, hstart⟩ := exists_paramsOf
    (fun ty hty => (hsym.receiver _ hg ty hty).1) (hsym.params _ hg)
  obtain ⟨ret, hret⟩ := exists_ofSource (hsym.ret _ hg).proper
  obtain ⟨_, d, hd, -⟩ := yields_lowerBody ret hsym hp hstart hbody
    ⟨strings, [], [⟨0, "entry", [], none⟩], 0, 0, 0⟩
  rw [lowerFunction, hparams, hret]
  simp only [bind, Except.bind, StateT.run, hd]
  exact ⟨_, rfl, rfl⟩

theorem exists_lowerFunctions (hsym : f.symbols.Sound)
    (hfns : ∀ g ∈ fns, g.toFnHeader ∈ f.symbols.functions ∧ BlockTyped f g.ret g.startScope g.body)
    (strings : List Constant) : ∃ r, lowerFunctions (.ofFindings f) strings fns = .ok r ∧
      r.1.map Function.name = fns.map fun g => g.linkage := by
  induction fns generalizing strings with
  | nil => exact ⟨_, rfl, rfl⟩
  | cons g rest ih =>
    obtain ⟨⟨hg, hbody⟩, hrest⟩ := List.forall_mem_cons.mp hfns
    obtain ⟨⟨g', strings'⟩, hlower, hname⟩ := exists_lowerFunction hsym hg hbody strings
    obtain ⟨⟨gs, strings''⟩, hgs, hnames⟩ := ih hrest strings'
    refine ⟨(g' :: gs, strings''), ?_, by rw [List.map_cons, List.map_cons, hnames, hname]⟩
    simp only [lowerFunctions, hlower, hgs, bind, Except.bind]
    rfl

theorem exists_lowerForeigns (seen : List String)
    (h : ∀ d ∈ ds, (∀ p ∈ d.params, p.ty.Proper) ∧ d.ret.Proper) :
    ∃ gs, lowerForeigns seen ds = .ok gs := by
  induction ds generalizing seen with
  | nil => exact ⟨[], rfl⟩
  | cons d rest ih =>
    obtain ⟨⟨hp, hret⟩, hrest⟩ := List.forall_mem_cons.mp h
    rw [lowerForeigns]
    split
    · exact ih seen hrest
    · obtain ⟨ps, hps⟩ := exists_mapM_eq_ok fun p hm => exists_ofSource (hp p hm)
      obtain ⟨ret, hret⟩ := exists_ofSource hret
      obtain ⟨gs, hgs⟩ := ih (d.name :: seen) hrest
      rw [hps, hret, hgs]
      exact ⟨_, rfl⟩

theorem exists_lowerStruct (h : ∀ g ∈ d.fields, g.ty.Proper) : ∃ s, lowerStruct d = .ok s := by
  obtain ⟨ts, hts⟩ := exists_mapM_eq_ok fun g hm => exists_ofSource (h g hm)
  rw [lowerStruct, hts]
  exact ⟨_, rfl⟩

end

theorem exists_ofProgram (name : String) (hw : p.WellTyped) :
    ∃ m, Module.ofProgram name p p.analyze = .ok m ∧ m.name = name ∧
      m.functions.map Function.name = p.functions.map fun g => g.linkage := by
  obtain ⟨structs, hstructs⟩ : ∃ structs, p.structs.mapM lowerStruct = .ok structs :=
    exists_mapM_eq_ok fun d hd =>
      exists_lowerStruct fun g hg => (hw.symbols.fields d hd g hg).1.proper
  obtain ⟨foreigns, hforeigns⟩ : ∃ foreigns, lowerForeigns [] p.foreigns = .ok foreigns :=
    exists_lowerForeigns [] fun d hd =>
      ⟨fun q hq => (hw.symbols.foreignParams d hd q hq).proper, (hw.symbols.foreignRet d hd).proper⟩
  obtain ⟨⟨functions, strings⟩, hfunctions, hnames⟩ := exists_lowerFunctions hw.symbols
    (fun g hg => ⟨List.mem_map_of_mem hg, hw.bodies g hg⟩) []
  refine ⟨⟨name, structs, strings, foreigns, functions⟩, ?_, rfl, hnames⟩
  have hfunctions : lowerFunctions ⟨p.analyze.typeTable, p.analyze.declaredIn, p.symbols⟩ []
      p.functions = .ok (functions, strings) := hfunctions
  simp only [Module.ofProgram, hstructs, hforeigns, hfunctions, bind, Except.bind]
  rfl

/-- Every accepted program has SSA code, with one function per function of the program. -/
theorem lowering_total (name : String) {p : Program} (hp : p.Sourced)
    (h : p.analyze.hasErrors = false) :
    ∃ m, Module.ofProgram name p p.analyze = .ok m ∧ m.name = name ∧
      m.functions.map Function.name = p.functions.map fun g => g.linkage :=
  exists_ofProgram name (hp.grammatical.wellTyped h)

theorem lowering_total_sample : ∃ p next,
    Program.parse Program.sampleSource 0 0 = .ok (p, next) ∧ p.analyze.hasErrors = false ∧
      ∃ m, Module.ofProgram "sample" p p.analyze = .ok m ∧ m.name = "sample" ∧
        m.functions.map Function.name = p.functions.map fun g => g.linkage := by
  obtain ⟨p, next, hparse, h, -⟩ := Program.exists_of_accepts
    (show Program.accepts Program.sampleSource (fun _ => true) = true by decide +kernel)
  exact ⟨p, next, hparse, h, lowering_total "sample" (.parsed hparse) h⟩

end StructLang.Ssa
