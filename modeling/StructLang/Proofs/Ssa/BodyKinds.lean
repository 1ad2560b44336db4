import StructLang.Proofs.Ssa.Kinds

/-!
# What the registers of functions hold

Every function of a lowered typed program keeps to the kinds: its slots come first, and in every block
each instruction takes operands of the kinds that it needs, down to the value that is returned.
-/

namespace StructLang.Ssa

variable {c : KindEnv}

/-- The end of a block takes an operand of the kind that it needs. -/
inductive EndKinded (c : KindEnv) (ret : Ty) (before : List Instr) : Terminator → Prop where
  | retNone (h : ret = .void) : EndKinded c ret before (.ret none)
  | ret {v} (hv : OperandKind c before v (.value ret)) (hne : c.strict → ret ≠ .void) :
      EndKinded c ret before (.ret (some (ret, v)))
  | jump {target} : EndKinded c ret before (.jump target)
  | branch {v t e} (hv : OperandKind c before v (.value .i1)) : EndKinded c ret before (.branch v t e)
  | unreachable : EndKinded c ret before .unreachable

theorem endKinded_jump (before : List Instr) (target : Nat) : EndKinded c ret before (.jump target) :=
  .jump

section

variable {d : Draft}

theorem ValueCode.kinded (hk : c.Knows f) (hs : Sheltered c f names storage)
    (h : Typed f names e ty) (ha : c.strict → NoVoid f.types e.callArgs)
    (hc : ValueCode (.ofFindings f) storage e s v code s') (hp : c.Past s) (hw : s'.Within c)
    (before : List Instr) :
    Leaves (housing c) before s code s' fun before => ValueKinded c before v ty := by
  cases hc with
  | mk hce hv =>
    exact (hce.kinded hk hs before h ha hp (hv.draws.within hw)).bind fun hlow => hv.kinded hlow

def DeclaresPlaces (c : KindEnv) (f : Findings) (declared : List (Nat × Register)) : Prop :=
  ∀ id r, declared.lookup id = some r → ∃ ty t, f.types[id]? = some ty ∧ Ty.ofSource ty = .ok t ∧
    OperandKind c [] (.register r) (.place true t)

theorem DeclaresPlaces.slot (h : DeclaresPlaces c f declared) {slot : Slot}
    (hslot : declaredSlot ⟨.ofFindings f, declared⟩ decl = .ok slot)
    (hty : f.types[decl.node.id]? = some ty) :
    slot.ty = ty ∧ slot.byReference = false ∧ slot.Kinded c ∧
      ∀ t, Ty.ofSource ty = .ok t → OperandKind c [] (.register slot.address) (.place true t) := by
  obtain ⟨hlookup, hslotTy, href⟩ := declaredSlot_eq hslot hty
  obtain ⟨ty', t, hty', ht, hplace⟩ := h _ _ hlookup
  cases hty.symm.trans hty'
  refine ⟨hslotTy, href, ⟨t, hslotTy ▸ ht, ?_⟩, fun t' ht' => ?_⟩
  · rw [href]
    exact hplace
  · cases ht.symm.trans ht'
    exact hplace

theorem Draft.Sound.branch_kinded (h : d.Sound (housing c) (EndKinded c ret) pending)
    (ho : d.Open) (hk : c.Knows f) (hs : Sheltered c f names storage) (he : Typed f names e .bool)
    (ha : c.strict → NoVoid f.types e.callArgs)
    (hv : ValueCode (.ofFindings f) storage e d.supply v code s) (hp : c.Past d.supply)
    (hw : s.bump.Within c) :
    ((d.extend s.bump (code ++ [.compare s.nextRegister .ne .i1 v (.int 0 .i1)])).openBranch
      (.register s.nextRegister)).Sound (housing c) (EndKinded c ret)
      ((d.blocks.length + 1) :: (d.blocks.length + 2) :: pending) := by
  have hsound := h.extend ho hv.draws_test fun before =>
    (hv.kinded hk hs he ha hp hw before).seq fun hval => .assign (.compare (hval _ rfl) (.int rfl) rfl)
  rw [← d.length_extend s.bump]
  refine hsound.openBranch fun b hb _ _ => .branch ?_
  obtain ⟨before, hinstrs⟩ := Draft.current_extend hb
  rw [hinstrs, ← List.append_assoc]
  exact .last (.computed True.intro) rfl

theorem Draft.Grows.within (h : d.Grows d') (hw : d'.supply.Within c) : d.supply.Within c :=
  ⟨List.Subset.trans h.slots.subset hw.1, fun hc k hk => hw.2 hc k (h.strings.subset hk)⟩

theorem KindEnv.Past.grows (h : c.Past d.supply) (hg : d.Grows d') : c.Past d'.supply :=
  fun hr => Nat.lt_of_lt_of_le (h hr) hg.supply.registers

section

mutual

/-- Every statement keeps the invariant. -/
theorem StmtCode.kinded (hk : c.Knows f) (hd : DeclaresPlaces c f declared)
    (hret : Ty.ofSource ty = .ok ret) {names : Scope Binding} {storage storage' : Scope Slot}
    {d : Draft} (hs : Sheltered c f names storage) (hp : c.Past d.supply) (ho : d.Open)
    (h : d.Sound (housing c) (EndKinded c ret) pending) :
    StmtCode ⟨.ofFindings f, declared⟩ storage stmt d storage' d' → StmtTyped f ty names stmt scope' →
    (c.strict → NoVoid f.types stmt.callArgs) → (c.strict → NoVoid f.types stmt.returned) →
    d'.supply.Within c →
      d'.Sound (housing c) (EndKinded c ret) pending ∧ Sheltered c f scope' storage'
  | .declare hslot ht hinit hv, .declare htype hdecl _ htyped _, ha, _, hw => by
    obtain ⟨hty, href, hkind, hplace⟩ := hd.slot hslot htype
    rw [Stmt.callArgs, hinit] at ha
    rw [hty] at ht
    refine ⟨h.extend ho (hv.draws.append (.effect rfl)) fun before => ?_,
      hs.define _ hdecl hty hkind href⟩
    exact (hv.kinded hk hs (htyped _ hinit) ha hp hw before).seq fun hval =>
      .single (.store (hval _ ht) (hplace _ ht).anywhere) rfl
  | .declareZero hslot ht _, .declare htype hdecl _ _ _, _, _, _ => by
    obtain ⟨hty, href, hkind, hplace⟩ := hd.slot hslot htype
    rw [hty] at ht
    exact ⟨h.extend ho (.effect rfl) fun before =>
      .single (.store (.zero ⟨_, hk.1 ▸ hdecl, ht⟩) (hplace _ ht).anywhere) rfl,
      hs.define _ hdecl hty hkind href⟩
  | .assign hslot hv haddr ht, .assign hb hrec he, ha, _, hw => by
    have hlookup := lookup?_of_storage hslot
    obtain ⟨slot, hslot', hty⟩ := hs.storage_eq hb
    cases hslot.symm.trans hslot'
    have href := (hs.receivers _ _ _ hb hlookup).trans hrec
    obtain ⟨t', ht', hplace⟩ := hs.slots _ _ hlookup
    cases ht.symm.trans ht'
    rw [href] at hplace
    refine ⟨h.extend ho (hv.draws.append (haddr.draws.append (.effect rfl))) fun before =>
      (hv.kinded hk hs he ha hp (haddr.draws.within hw) before).seq fun hval => ?_, hs⟩
    -- the variable is no receiver, so that its slot is the place
    cases haddr with
    | direct => exact .single (.store (hval _ (hty ▸ ht)) hplace.anywhere) rfl
    | reference href' => cases href'.symm.trans href
  | .branch hv hct, .branch hcond ht, ha, hr, hw => by
    rw [Stmt.callArgs, noVoid_append, imp_and] at ha
    rw [Draft.supply_closeArm, Draft.supply_closeArm] at hw
    have hb := hv.branches ho
    have hg := hct.grows hb.lt
    have hsound := h.branch_kinded ho hk hs hcond ha.1 hv hp (hg.within hw)
    have h1 := hct.kinded hk hd hret hs.push (hp.grows hb.toGrows) hsound ht ha.2 hr hw
    exact ⟨hb.sound_merge hg endKinded_jump (.refl (hb.open_else hg _).lt)
      (hb.sound_else hg endKinded_jump h1), hs⟩
  | .branchElse hv hct hce, .branchElse hcond ht he, ha, hr, hw => by
    rw [Stmt.callArgs, noVoid_append, noVoid_append, imp_and, imp_and] at ha
    rw [Stmt.returned, noVoid_append, imp_and] at hr
    rw [Draft.supply_closeArm] at hw
    have hb := hv.branches ho
    have hg := hct.grows hb.lt
    have hg1 := hce.grows (hb.open_else hg _).lt
    have hw1 := Draft.supply_closeArm .. ▸ hg1.within hw
    have hsound := h.branch_kinded ho hk hs hcond ha.1.1 hv hp (hg.within hw1)
    have h1 := hct.kinded hk hd hret hs.push (hp.grows hb.toGrows) hsound ht ha.1.2 hr.1 hw1
    have h2 := hce.kinded hk hd hret hs.push (hp.grows (hb.grows_else hg _))
      (hb.sound_else hg endKinded_jump h1) he ha.2 hr.2 hw
    exact ⟨hb.sound_merge hg endKinded_jump hg1 h2, hs⟩
  | .retNone, .retNone hvoid, _, _, _ => by
    refine ⟨h.terminate (fun _ _ => .retNone ?_) nofun, hs⟩
    rw [hvoid] at hret
    exact (Except.ok.inj hret).symm
  | .ret hty ht hv, .ret he, ha, hr, hw => by
    cases hty.symm.trans he.typeOf
    cases ht.symm.trans hret
    have hne : c.strict → ret ≠ .void := by
      intro hc
      have hvoid := hr hc
      rw [Stmt.returned, noVoid_cons, he.type?] at hvoid
      exact ofSource_ne_void hret fun heq => hvoid.1 (congrArg some heq)
    have hval := hv.kinded hk hs he ha hp hw
    refine ⟨(h.extend ho hv.draws fun before => (hval before).toEmitted).terminate
      (fun b hb => ?_) nofun, hs⟩
    obtain ⟨before, hinstrs⟩ := Draft.current_extend hb
    rw [hinstrs]
    exact .ret ((hval before).known _ hret) hne
  | .expr hv, .expr he, ha, _, hw =>
    ⟨h.extend ho hv.draws fun before => (hv.kinded hk hs he ha hp hw before).toEmitted, hs⟩

theorem StmtsCode.kinded (hk : c.Knows f) (hd : DeclaresPlaces c f declared)
    (hret : Ty.ofSource ty = .ok ret) {names : Scope Binding} {storage : Scope Slot} {d : Draft}
    {pending : List Nat} (hs : Sheltered c f names storage) (hp : c.Past d.supply)
    (h : d.Sound (housing c) (EndKinded c ret) pending) :
    StmtsCode ⟨.ofFindings f, declared⟩ storage stmts d d' → StmtsTyped f ty names stmts →
    (c.strict → NoVoid f.types (callArgsOfStmts stmts)) →
    (c.strict → NoVoid f.types (returnedBy stmts)) → d'.supply.Within c →
      d'.Sound (housing c) (EndKinded c ret) pending
  | .nil, _, _, _, _ => h
  | .cons hcs hcrest, .cons ht hrest, ha, hr, hw => by
    rw [callArgsOfStmts, noVoid_append, imp_and] at ha
    rw [returnedBy, noVoid_append, imp_and] at hr
    obtain ⟨hg0, ho⟩ := Draft.grows_reopen h.lt
    have hg := hcs.grows ho
    have hp0 := hp.grows hg0
    have hw1 := (hcrest.grows hg.lt).within hw
    obtain ⟨h1, hs1⟩ := hcs.kinded hk hd hret hs hp0 ho h.reopen ht ha.1 hr.1 hw1
    exact hcrest.kinded hk hd hret hs1 (hp0.grows hg) h1 hrest ha.2 hr.2 hw

theorem BlockCode.kinded (hk : c.Knows f) (hd : DeclaresPlaces c f declared)
    (hret : Ty.ofSource ty = .ok ret) {names : Scope Binding} {storage : Scope Slot} {d : Draft}
    {pending : List Nat} (hs : Sheltered c f names storage) (hp : c.Past d.supply)
    (h : d.Sound (housing c) (EndKinded c ret) pending) :
    BlockCode ⟨.ofFindings f, declared⟩ storage b d d' → BlockTyped f ty names b →
    (c.strict → NoVoid f.types b.callArgs) → (c.strict → NoVoid f.types b.returned) →
    d'.supply.Within c → d'.Sound (housing c) (EndKinded c ret) pending
  | .mk hc, .mk _ ht, ha, hr, hw => hc.kinded hk hd hret hs hp h ht ha hr hw

end

end

/-! ## Functions -/

/-- Storing the parameters that are passed by value. -/
theorem ParamsCode.kinded (hk : c.Knows f) (h : ParamsCode index storage params s scope' code s')
    (hs : Sheltered c f names storage) (hd : ∀ p ∈ params, p.source.Declared f.symbols)
    (hv : ∀ p ∈ params, p.byReference = false ∧ Ty.ofSource p.source = .ok p.ty)
    (hne : c.strict → ∀ p ∈ params, p.source ≠ .void)
    (hpos : ∀ k p, params[k]? = some p → c.params[index + k]? = some p) (hp : c.Past s)
    (hw : s'.Within c) : (∀ before, Emitted (housing c) before s code s') ∧
      Sheltered c f (params.foldl bindParam names) scope' := by
  induction h generalizing names with
  | nil => exact ⟨fun _ => .nil rfl, hs⟩
  | @cons index storage p rest s scope' code s' hrest ih =>
    obtain ⟨hdp, hd⟩ := List.forall_mem_cons.mp hd
    obtain ⟨⟨href, hty⟩, hv⟩ := List.forall_mem_cons.mp hv
    simp only [List.forall_mem_cons, imp_and] at hne
    have hslot : OperandKind c [] (.register s.nextRegister) (.place true p.ty) :=
      .allocated hp (hrest.draws.within hw).1
    have hkind : Slot.Kinded c ⟨s.nextRegister, p.source, p.byReference⟩ := by
      refine ⟨p.ty, hty, ?_⟩
      rw [href]
      exact hslot
    have hnext : ∀ k q, rest[k]? = some q → c.params[index + 1 + k]? = some q := by
      intro k q hq
      rw [Nat.add_assoc, Nat.add_comm 1]
      exact hpos (k + 1) q hq
    have hs' : Sheltered c f (bindParam names p)
        (storage.define p.name ⟨s.nextRegister, p.source, p.byReference⟩) :=
      hs.define p.name hdp rfl hkind rfl
    obtain ⟨hcode, hinner⟩ := ih hs' hd hv hne.2 hnext (fun _ => Nat.succ_pos _) hw
    have hmade := fun hc => ofSource_ne_void hty (hne.1 hc)
    refine ⟨fun before => (Emitted.made (.inr ⟨_, hk.1 ▸ hdp, hty⟩) hmade).append
      (.cons (.single (.store ?_ ?_) rfl) (hcode _)), hinner⟩
    · exact .param (hpos 0 p rfl) href
    · exact hslot.anywhere

/-- Storing all parameters, the receiver first. -/
theorem ParamsCode.kinded_receiver (hk : c.Knows f)
    (h : ParamsCode 0 Scope.empty.push params s storage code s') (hs : s.nextRegister = 0)
    (hsym : f.symbols.Sound) (hparams : paramsOf g = .ok params)
    (hd : ∀ p ∈ params, p.source.Declared f.symbols)
    (hne : c.strict → ∀ q ∈ g.params, q.ty ≠ .void) (hc : c.params = params)
    (hreceiver : ∀ ty, g.receiver = some ty → ∃ t, Ty.ofSource ty = .ok t ∧ c.receiver = some t)
    (hnone : g.receiver = none → c.receiver = none) (hw : s'.Within c) :
    (∀ before, Emitted (housing c) before s code s') ∧
      Sheltered c f (params.foldl bindParam Scope.empty.push) storage ∧ c.Past s' ∧
      (c.receiver.isSome = true → .alloca 0 .ptr ∈ c.slots) := by
  obtain ⟨own, rfl, hown⟩ := paramsOf_eq_ok hparams
  have hv : ∀ p ∈ own, p.byReference = false ∧ Ty.ofSource p.source = .ok p.ty := by
    intro p hp
    obtain ⟨q, -, t, ht, rfl⟩ := exists_of_forall₂ hown hp
    exact ⟨rfl, ht⟩
  have hne' : c.strict → ∀ p ∈ own, p.source ≠ .void := by
    intro hstrict p hp
    obtain ⟨q, hq, t, -, rfl⟩ := exists_of_forall₂ hown hp
    exact hne hstrict q hq
  cases hr : g.receiver with
  | none =>
    have hpast : ∀ s, c.Past s := fun s => by simp [KindEnv.Past, hnone hr]
    rw [hr] at h hd hc
    obtain ⟨hcode, hinner⟩ := h.kinded hk (.empty hsym) hd hv hne' (fun k p hk => by simpa [hc] using hk)
      (hpast s) hw
    exact ⟨hcode, hinner, hpast s', fun hsome => by simp [hnone hr] at hsome⟩
  | some ty =>
    obtain ⟨t, ht, hct⟩ := hreceiver ty hr
    rw [hr] at h hd hc
    simp only [Option.toList_some, List.map_cons, List.map_nil, List.singleton_append] at h hd hc ⊢
    obtain ⟨hdty, hd⟩ := List.forall_mem_cons.mp hd
    cases h with
    | cons hrest =>
      have hpast : c.Past (s.allocate .ptr) := fun _ => Nat.succ_pos _
      have hslot : Instr.alloca 0 .ptr ∈ c.slots :=
        (hrest.draws.within hw).1 (by simp [Supply.allocate, hs])
      have hholder : OperandKind c [] (.register s.nextRegister) (.holder t) := by
        rw [hs]
        exact .holder hct
      have hkind : Slot.Kinded c ⟨s.nextRegister, ty, true⟩ := ⟨t, ht, hholder⟩
      obtain ⟨hcode, hinner⟩ := hrest.kinded hk
        (Sheltered.define (.empty hsym) "self" (b := ⟨ty, false, true⟩) hdty rfl hkind rfl) hd hv hne'
        (fun k p hk => by simpa [hc, Nat.add_comm] using hk) hpast hw
      have hself : ∀ before, OperandKind c before (.param 0) (.place false t) :=
        fun _ => .reference (p := ⟨"self", .ptr, ty, true⟩) (by rw [hc]; rfl) rfl ht
      exact ⟨fun before => (Emitted.made (.inl rfl) nofun).append (.cons
        (.single (.hold (hself _) hholder.anywhere) rfl) (hcode _)), hinner,
        hpast.draws hrest.draws, fun _ => hslot⟩

theorem HoistCode.kinded (hk : c.Knows f) (h : HoistCode (.ofFindings f) ids s declared s')
    (hv : DeclaresValues f ids) (hp : c.Past s) (hw : s'.Within c) :
    (∀ before, Emitted (housing c) before s [] s') ∧ DeclaresPlaces c f declared := by
  induction h with
  | nil => exact ⟨fun _ => .nil rfl, nofun⟩
  | @cons id ids ty t s declared s' hty ht hids ih =>
    obtain ⟨⟨ty', hty', hdeclared, hvoid⟩, hv⟩ := List.forall_mem_cons.mp hv
    cases hty.symm.trans hty'
    obtain ⟨hcode, hrest⟩ := ih hv (fun _ => Nat.succ_pos _) hw
    have hne := ofSource_ne_void ht hvoid
    refine ⟨fun before => (Emitted.made (.inr ⟨ty, hk.1 ▸ hdeclared, ht⟩) fun _ => hne).append (hcode _),
      fun other r hl => ?_⟩
    rw [List.lookup_cons] at hl
    split at hl
    · next heq =>
      cases hl
      rw [beq_iff_eq] at heq
      subst heq
      exact ⟨ty, t, hty, ht, .allocated hp (hids.draws.within hw).1⟩
    · exact hrest other r hl

/-- A function keeps to the kinds. -/
structure Function.Kinded (c : KindEnv) (F : Function) : Prop where
  slots : ∀ i ∈ c.slots, c.Houses i
  holder : c.receiver.isSome = true → .alloca 0 .ptr ∈ c.slots
  blocks : ∀ k b, F.blocks[k]? = some b → ∃ code, b.instrs = front c.slots k ++ code ∧
    Coded (InstrKinded c) [] code ∧ (dests c.slots ++ dests code).Nodup ∧
    ∀ t, b.terminator = some t → EndKinded c F.ret code t
  /-- First of all, the first parameter is stored. -/
  first : c.params ≠ [] → ∃ b ty rest, F.blocks[0]? = some b ∧
    b.instrs = c.slots ++ .store ty (.param 0) (.register 0) :: rest

def receiverTy (g : FnHeader) : Option Ty := g.receiver.bind fun ty => (Ty.ofSource ty).toOption

/-- Nothing of type `void` is stored, passed or returned in a function, if this is asked for. -/
structure VoidFree (f : Findings) (strict : Prop) (g : FnDef) : Prop where
  params : strict → ∀ q ∈ g.params, q.ty ≠ .void
  args : strict → NoVoid f.types g.body.callArgs
  returned : strict → NoVoid f.types g.body.returned

theorem VoidFree.unasked (g : FnDef) : VoidFree f False g := ⟨nofun, nofun, nofun⟩

/-- The code of a typed body keeps to the kinds. -/
theorem BodyCode.kinded {strings : List Constant}
    (h : BodyCode (.ofFindings f) g params ret (.start strings) D) {strict : Prop}
    (hc : c = ⟨m, f.symbols, params, D.slots, receiverTy g.toFnHeader, strict⟩) (hk : c.Knows f)
    (hfree : VoidFree f strict g)
    (hstrings : strict → ∀ k ∈ D.strings, (m.string? k.name).isSome = true)
    (hsym : f.symbols.Sound) (hg : g.toFnHeader ∈ f.symbols.functions)
    (hbody : BlockTyped f g.ret g.startScope g.body)
    (hparams : paramsOf g.toFnHeader = .ok params) (hret : Ty.ofSource g.ret = .ok ret) :
    D.Sound (housing c) (EndKinded c ret) [] ∧
      (c.receiver.isSome = true → .alloca 0 .ptr ∈ c.slots) ∧
      (params ≠ [] → ∃ b ty rest, D.blocks[0]? = some b ∧
        b.instrs = .store ty (.param 0) (.register 0) :: rest) := by
  obtain ⟨params', hparams', hdeclared, hstart⟩ := exists_paramsOf
    (fun ty hty => (hsym.receiver _ hg ty hty).1) (hsym.params _ hg)
  obtain rfl : params = params' := Except.ok.inj (hparams.symm.trans hparams')
  have hwithin : D.supply.Within c := hc ▸ ⟨List.Subset.refl _, hstrings⟩
  have hfree : VoidFree f c.strict g := hc ▸ hfree
  have hreceiver : c.receiver = receiverTy g.toFnHeader := by rw [hc]
  cases h with
  | @mk storage code s1 declared s2 d1 hp hh hb =>
    generalize hend : (if ret = .void then Terminator.ret none else .unreachable) = t at hwithin ⊢
    have hopen := Draft.open_start strings
    have hgrows := hb.grows (hopen.extend s2 code).lt
    have hends := Draft.grows_terminateIfOpen hgrows.lt t
    have hw1 : d1.supply.Within c := hends.within hwithin
    have hw2 : s2.Within c := hgrows.within hw1
    obtain ⟨hstore, hs, hpast, hholder⟩ := hp.kinded_receiver hk rfl hsym hparams hdeclared
      hfree.params (by rw [hc])
      (fun ty hty => by
        obtain ⟨t, ht⟩ := exists_ofSource (hsym.receiver _ hg ty hty).1.proper
        exact ⟨t, ht, by simp [hreceiver, receiverTy, hty, ht, Except.toOption]⟩)
      (fun hnone => by simp [hreceiver, receiverTy, hnone])
      (hh.draws.within hw2)
    obtain ⟨hhoist, hplaces⟩ := hh.kinded hk (declaresValues_hoisted hbody) hpast hw2
    rw [hstart] at hs
    have hentry : ((Draft.start strings).extend s2 code).Sound (housing c) (EndKinded c ret) [] := by
      refine (Draft.sound_start strings).extend hopen ?_ fun before => ?_
      · simpa using hp.draws.append hh.draws
      · simpa using (hstore before).append (hhoist _)
    have hsound := hb.kinded hk hplaces hret hs (hpast.draws hh.draws) hentry hbody hfree.args
      hfree.returned hw1
    obtain ⟨hfinal, -⟩ := hsound.terminateIfOpen (t := t) (fun before => by
      rw [← hend]
      split
      · next hvoid => exact .retNone hvoid
      · exact .unreachable) (by
      rw [← hend]
      split <;> simp [Terminator.successors])
    refine ⟨hfinal, hholder, fun hne => ?_⟩
    obtain ⟨b, hfirst, hle⟩ := (hgrows.le.trans hends.le).blocks 0 ⟨0, "entry", code, none⟩ rfl
    obtain ⟨more, hmore⟩ := Block.Le.instrs hle
    cases hp with
    | nil => exact absurd rfl hne
    | cons => exact ⟨b, _, _, hfirst, hmore.symm⟩

theorem FunctionCode.kinded {strings : List Constant}
    (h : FunctionCode (.ofFindings f) strings g F strings')
    (hfree : VoidFree f strict g) (hstrings : strings' ⊆ m.strings) (hsym : f.symbols.Sound)
    (hg : g.toFnHeader ∈ f.symbols.functions) (hbody : BlockTyped f g.ret g.startScope g.body)
    (hm : ∀ name d, f.symbols.struct? name = some d → ∃ s, m.struct? name = some s ∧ lowerStruct d = .ok s) :
    ∃ c, F.Kinded c ∧ c.receiver = receiverTy g.toFnHeader ∧ c.strict = strict ∧ c.module = m ∧
      c.symbols = f.symbols ∧ paramsOf g.toFnHeader = .ok c.params ∧
      Ty.ofSource g.ret = .ok F.ret := by
  cases h with
  | @mk params ret D hparams hret hb =>
    let c : KindEnv := ⟨m, f.symbols, params, D.slots, receiverTy g.toFnHeader, strict⟩
    obtain ⟨hsound, hholder, hfirst⟩ := hb.kinded (c := c) rfl ⟨rfl, hm⟩ hfree
      (fun _ k hk => List.find?_isSome.mpr ⟨k, hstrings hk, beq_self_eq_true k.name⟩) hsym hg hbody
      hparams hret
    refine ⟨c, ⟨hsound.slots, hholder, fun k b hkb => ?_, fun hne => ?_⟩, rfl, rfl, rfl, rfl, hparams,
      hret⟩
    · obtain ⟨b', hb', rfl⟩ := getElem?_withSlots hkb
      refine ⟨b'.instrs, rfl, (hsound.blocks k b' hb').code, ?_,
        fun t ht => ((hsound.blocks k b' hb').ends t ht).1⟩
      refine hsound.registers.1.sublist (List.Sublist.append_left ?_ _)
      rw [List.flatMap_def]
      exact List.sublist_flatten_of_mem (List.mem_map_of_mem (List.mem_of_getElem? hb'))
    · obtain ⟨b, ty, rest, hb, hinstrs⟩ := hfirst hne
      exact ⟨_, ty, rest, withSlots_entry hb, congrArg (D.slots ++ ·) hinstrs⟩

end

end StructLang.Ssa
