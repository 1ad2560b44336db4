import StructLang.Proofs.Flat.Zero

/-!
# Running the code of statements

What a function does from a place in its code on, where the place is given by the draft in which lowering
was when it got there. The code of a statement does what the statement means and then goes on as the code
after it.
-/

namespace StructLang.Flat

/-! ## Going on elsewhere -/

theorem codeAt?_eq_none (h : l ∉ labels code) : codeAt? l code = none := by
  induction code with
  | nil => rfl
  | cons i rest ih =>
    rw [mem_labels, List.mem_cons, not_or, ← mem_labels] at h
    rw [codeAt?, ih h.2]
    exact if_neg fun heq => h.1 heq.symm

theorem codeAt?_of_nodup (h : (labels (before ++ .label l :: after)).Nodup) :
    codeAt? l (before ++ .label l :: after) = some (.label l :: after) := by
  induction before with
  | nil =>
    have hnot : l ∉ labels after := (List.nodup_cons.mp h).1
    rw [List.nil_append, codeAt?, codeAt?_eq_none hnot]
    exact if_pos rfl
  | cons i before ih =>
    rw [List.cons_append, codeAt?, ih (h.sublist ((List.sublist_cons_self _ _).filterMap _))]

theorem runFrom_append (h : Straight code) :
    runFrom m call f (budget + 1) temps (code ++ rest) =
      straight m call temps code >>= fun temps => runFrom m call f (budget + 1) temps rest := by
  rw [runFrom, steps_append h, bind_assoc]
  rfl

theorem runFrom_jump (h : codeAt? l f.body = some code) :
    runFrom m call f (budget + 1) temps (.jump l :: rest) = runFrom m call f budget temps code := by
  simp only [runFrom, steps, pure_bind, h]

theorem runFrom_jumpIf {q : Bool} (hv : eval m temps o = .ok (.int (if q then 1 else 0)))
    (h : codeAt? (if q then t else e) f.body = some code) :
    runFrom m call f (budget + 1) temps (.jumpIf o t e :: rest) = runFrom m call f budget temps code := by
  have hsteps : steps m call f temps (.jumpIf o t e :: rest) =
      pure (.goto (if q then t else e) temps) := by
    rw [steps, hv]
    cases q <;> rfl
  rw [runFrom, hsteps, pure_bind]
  simp only [h]

theorem runFrom_ret (h : eval m temps o = .ok w) :
    runFrom m call f (budget + 1) temps (.ret (some o) :: rest) = pure (some w) := by
  simp only [runFrom, steps, h]
  rfl

theorem retains_runFrom (hcall : ∀ name args, bridge.Retains (call name args)) (budget : Nat)
    (temps : Temps) (code : List Instr) : bridge.Retains (runFrom m call f budget temps code) := by
  induction budget generalizing temps code with
  | zero => exact .throw _
  | succ budget ih =>
    refine (retains_steps hcall temps code).bind fun exit => ?_
    cases exit with
    | ret v => exact .pure _
    | fellOff => exact .throw _
    | goto l temps =>
      dsimp only
      cases codeAt? l f.body with
      | none => exact .throw _
      | some code => exact ih temps code

theorem Draft.Grows.supply {d : Draft} (h : d.Grows d') : d.supply.Le d'.supply :=
  ⟨h.data, h.temps, h.slots⟩

namespace Activation

variable (c : Activation)

/-- Run a function from the end of a draft on: the code that the final draft has beyond it. -/
def resume (F : Function) (D d : Draft) (budget : Nat) (temps : Temps) : Exec (Option Value) :=
  runFrom c.module c.call F (budget + 1) temps (D.body.drop d.body.length)

/-- The function is what the final draft says. -/
structure Code (F : Function) (D : Draft) : Prop where
  body : F.body = .label "start" :: D.slots ++ D.body
  final : c.final = D.supply
  labels : (labels F.body).Nodup

end Activation

namespace Activation

variable {c : Activation} {d : Draft}

theorem resume_extend (hcode : Straight code) (hle : (d.extend s code).Grows D) :
    c.resume F D d budget temps =
      c.run temps code >>= fun temps => c.resume F D (d.extend s code) budget temps := by
  obtain ⟨more, hmore⟩ := hle.body
  have hdrop : D.body.drop (d.extend s code).body.length = more := by rw [← hmore, List.drop_left]
  have hbody : D.body.drop d.body.length = code ++ more := by
    rw [← hmore, Draft.extend, List.append_assoc, List.drop_left]
  simp only [resume, hdrop, hbody]
  exact runFrom_append hcode

theorem resume_emit (hle : (d.emit i).Grows D) :
    c.resume F D d budget temps = runFrom c.module c.call F (budget + 1) temps
      (i :: D.body.drop (d.emit i).body.length) := by
  obtain ⟨more, hmore⟩ := hle.body
  have hdrop : D.body.drop (d.emit i).body.length = more := by rw [← hmore, List.drop_left]
  rw [resume, hdrop, ← hmore, Draft.emit, List.append_assoc, List.drop_left]
  rfl

theorem codeAt?_emit (hc : c.Code F D) (hle : (d.emit (.label l)).Grows D) :
    codeAt? l F.body = some (.label l :: D.body.drop (d.emit (.label l)).body.length) := by
  obtain ⟨more, hmore⟩ := hle.body
  have hbody : F.body = (.label "start" :: D.slots ++ d.body) ++ .label l :: more := by
    rw [hc.body, ← hmore]
    simp [Draft.emit]
  have hlabels := hc.labels
  rw [hbody] at hlabels ⊢
  rw [codeAt?_of_nodup hlabels, ← hmore, List.drop_left]

theorem runFrom_enter (hc : c.Code F D) (hle : (d.emit (.label l)).Grows D) :
    runFrom c.module c.call F (budget + 1 + 1) temps (.jump l :: rest) =
      c.resume F D (d.emit (.label l)) budget temps := by
  rw [runFrom_jump (codeAt?_emit hc hle)]
  rfl

end Activation

/-! ## States between statements -/

namespace Activation

variable (c : Activation)

/-- What holds between two statements: the variables have their values in slots of their own, and what was
there before the call is as it was. -/
structure At (s : Supply) (slots : List Slot) (store : List Meaning.Value) (temps : Temps)
    (mach : Machine) : Prop where
  running : c.Running s temps mach
  stored : c.Stored s.slots.length slots store mach
  distinct : (slots.map Slot.temp).Nodup
  kept : c.entry.Keeps 0 0 mach

/-- After statements, control is at the end of their draft, and the slots of the variables keep a rule. -/
def Continues (F : Function) (D : Draft) (slots : List Slot) (budget : Nat) (d : Draft)
    (rule : Scope Nat → List Slot → Prop) (places : Scope Nat) (store : List Meaning.Value)
    (y : Exec (Option Value)) (mach : Machine) : Prop :=
  ∃ b temps later, y = c.resume F D d b temps ∧ budget ≤ b ∧ d.isTerminated = false ∧
    rule places (slots ++ later) ∧ c.At d.supply (slots ++ later) store temps mach

def Ends (ret : Ty) (v : Meaning.Value) (result : Option Value) (mach : Machine) : Prop :=
  c.entry.Keeps 0 0 mach ∧ Returned c.symbols c.layouts mach.memory.stack ret v result

end Activation

namespace Activation

variable {c : Activation}

theorem HasSpace.inj (hf : c.Framed) (h : c.HasSpace k name ty)
    (h' : c.HasSpace k' name ty') : k = k' := by
  obtain ⟨align, hk⟩ := h
  obtain ⟨align', hk'⟩ := h'
  have hpairs := List.pairwise_filterMap.mp hf.nodup
  obtain ⟨hlt, hk⟩ := List.getElem?_eq_some_iff.mp hk
  obtain ⟨hlt', hk'⟩ := List.getElem?_eq_some_iff.mp hk'
  rw [List.pairwise_iff_getElem] at hpairs
  rcases Nat.lt_trichotomy k k' with hless | rfl | hless
  · exact absurd rfl (hpairs k k' hlt hlt' hless name (by rw [hk]; rfl) name (by rw [hk']; rfl))
  · rfl
  · exact absurd rfl (hpairs k' k hlt' hlt hless name (by rw [hk']; rfl) name (by rw [hk]; rfl))

theorem HasSpace.name_eq (h : c.HasSpace k name ty) (h' : c.HasSpace k name' ty') :
    name = name' := by
  obtain ⟨_, h⟩ := h
  obtain ⟨_, h'⟩ := h'
  exact (Instr.assign.inj (Option.some.inj (h.symm.trans h'))).1

theorem At.skip (h : c.At s slots store temps mach) (hle : s.Le s') : c.At s' slots store temps mach :=
  ⟨h.running.skip hle, h.stored.imp fun _ _ hv => hv.mono hle.length, h.distinct, h.kept⟩

theorem At.keeps (h : c.At s slots store temps mach) (hr : c.Running s' temps' mach')
    (hk : mach.Keeps lo hi mach') (hlo : c.spot s.slots.length ≤ lo) (hle : s.Le s') :
    c.At s' slots store temps' mach' := by
  have hf := h.running.framed
  have hstart : c.spot 0 ≤ lo := Nat.le_trans (hf.mono (Nat.zero_le _)) hlo
  refine ⟨hr, h.stored.imp fun _ _ hv => ?_, h.distinct,
    h.kept.all_trans hk (Nat.le_trans hf.below hstart)⟩
  exact (hv.keeps hf h.running.room hk hstart fun k hlt _ =>
    .inl (Nat.le_trans (hf.mono hlt) hlo)).mono hle.length

theorem At.ran (h : c.At s slots store temps mach)
    (hr : c.Ran (c.spot s.slots.length) temps mach s' temps' mach') (hle : s.Le s') :
    c.At s' slots store temps' mach' :=
  h.keeps hr.running hr.memory (Nat.le_refl _) hle

theorem At.snoc (h : c.At s slots store temps mach) (slot : Slot)
    (hspace : c.HasSpace s.slots.length slot.temp slot.stored) (hr : c.Running s' temps' mach')
    (hk : mach.Keeps (c.spot s.slots.length) hi mach') (hle : s.Le s')
    (hlt : s.slots.length < s'.slots.length) (hv : c.Contains mach' s.slots.length v slot) :
    c.At s' (slots ++ [slot]) (store ++ [v]) temps' mach' := by
  have hat := h.keeps hr hk (Nat.le_refl _) hle
  have hv : c.Variable s'.slots.length mach' v slot := ⟨_, hspace, hlt, hv⟩
  refine ⟨hr, hat.stored.snoc hv fun _ _ _ hv' => hv', ?_, hat.kept⟩
  rw [List.map_append, List.nodup_append]
  refine ⟨h.distinct, List.nodup_singleton _, fun name hm name' hm' => ?_⟩
  rw [List.mem_singleton.mp hm']
  rintro rfl
  -- the slots of the other variables were given out before
  obtain ⟨slot', hslot', heq⟩ := List.mem_map.mp hm
  obtain ⟨i, hi⟩ := List.mem_iff_getElem?.mp hslot'
  obtain ⟨-, -, k, hspace', hlt, -⟩ := h.stored.lookup hi
  rw [heq] at hspace'
  exact absurd (hspace'.inj h.running.framed hspace) (Nat.ne_of_lt hlt)

/-- A declaration: something is stored in the new slot. -/
theorem At.declare {s1 : Supply} (h : c.At s slots store temps mach) (slot : Slot)
    (hspace : c.HasSpace s.slots.length slot.temp slot.stored) (hle : s.Le s1) (hle' : s1.Le s')
    (hlength : s1.slots.length = s.slots.length + 1)
    (hr : c.Ran (c.spot s1.slots.length) temps mach s' temps' mach')
    (hd : c.Denotes temps' mach' lo o slot.stored w)
    (hs : StoreCode c.env o (.temp slot.temp) slot.stored code)
    (hv : ∀ mach'', mach.Keeps (c.spot s.slots.length) (c.spot s'.slots.length) mach'' →
      Holds c.symbols c.layouts mach''.memory.stack slot.stored w (c.spot s.slots.length) →
      c.Contains mach'' s.slots.length v slot) :
    ∃ mach'', c.run temps' code mach' = .ok temps' mach'' ∧
      mach.Keeps (c.spot s.slots.length) (c.spot s'.slots.length) mach'' ∧
      c.At s' (slots ++ [slot]) (store ++ [v]) temps' mach'' := by
  have hf := h.running.framed
  obtain ⟨align, hk⟩ := hspace
  obtain ⟨x, hx, haddr, hroom, htop⟩ := hr.running.slot hk
  obtain ⟨bytes, hlen, hrun, hholds⟩ := run_store hf.laid hs hd hx haddr (Nat.le_trans hroom htop)
  have hput := mach'.keeps_put (c.spot s.slots.length) bytes
  have hgiven : c.spot (s.slots.length + 1) ≤ c.spot s'.slots.length := hlength ▸ hf.mono hle'.length
  have hstep : c.spot s.slots.length ≤ c.spot s1.slots.length := hf.mono hle.length
  have hkeeps := (hr.memory.mono hstep (Nat.le_refl _)).trans
    (hput.mono (Nat.le_refl _) (by rw [hlen]; exact Nat.le_trans hroom hgiven)) (Nat.le_refl _)
    (Nat.le_refl _)
  have hlt : s.slots.length < s'.slots.length := by
    have := hle'.length
    omega
  exact ⟨_, hrun, hkeeps, h.snoc slot ⟨align, hk⟩ (hr.running.put _ _) hkeeps (hle.trans hle') hlt
    (hv _ hkeeps hholds)⟩

theorem At.assign (h : c.At s slots store temps mach) (hi : slots[i]? = some slot)
    (hdirect : slot.byReference = false) (hd : c.Denotes temps mach lo o slot.ty v)
    (hs : StoreCode c.env o (.temp slot.temp) slot.ty code) :
    ∃ mach', c.run temps code mach = .ok temps mach' ∧ c.At s slots (store.set i v) temps mach' := by
  have hf := h.running.framed
  obtain ⟨-, -, k, hspace, hlt, -⟩ := h.stored.lookup hi
  have hstored : slot.stored = slot.ty := if_neg (by simp [hdirect])
  obtain ⟨align, hk⟩ := id hspace
  rw [hstored] at hk
  obtain ⟨x, hx, haddr, hroom, htop⟩ := h.running.slot hk
  obtain ⟨bytes, hlen, hrun, hholds⟩ := run_store hf.laid hs hd hx haddr (Nat.le_trans hroom htop)
  have hput := mach.keeps_put (c.spot k) bytes
  rw [hlen] at hput
  have hstart : c.spot 0 ≤ c.spot k := hf.mono (Nat.zero_le _)
  have hvar : c.Variable s.slots.length (mach.put (c.spot k) bytes) v slot := by
    refine ⟨k, hspace, hlt, fun _ => ?_⟩
    rw [if_neg (by simp [hdirect])]
    exact hholds
  refine ⟨_, hrun, h.running.put _ _, h.stored.set hi hvar fun j v' slot' hne hj hv' => ?_, h.distinct,
    h.kept.all_trans hput (Nat.le_trans hf.below hstart)⟩
  refine hv'.keeps hf h.running.room hput hstart fun k' _ hspace' => ?_
  have hkk : k' ≠ k := by
    rintro rfl
    have hname := hspace'.name_eq hspace
    refine hne ((List.getElem?_inj (l := slots.map Slot.temp) ?_ h.distinct).mp ?_)
    · rw [List.length_map]
      exact (List.getElem?_eq_some_iff.mp hj).1
    · rw [List.getElem?_map, List.getElem?_map, hj, hi, Option.map_some, Option.map_some, hname]
  rcases Nat.lt_or_gt_of_ne hkk with hless | hless
  · exact .inl (hf.mono hless)
  · exact .inr (Nat.le_trans hroom (hf.mono hless))

end Activation

theorem Allocated.space {c : Activation} (h : Allocated c.env ty hint s slot s')
    (hle : s'.Le c.final) :
    c.HasSpace s.slots.length slot ty ∧ s'.slots.length = s.slots.length + 1 := by
  cases h with
  | mk halign => exact ⟨⟨_, Activation.slots_allocate hle⟩, Activation.length_allocate ..⟩

/-! ## Statements -/

/-- What the code of statements can rely on. -/
structure Activation.Setting (c : Activation) (F : Function) (D : Draft) (meaning : Meaning.Call) :
    Prop where
  sound : c.Sound meaning
  code : c.Code F D
  zero : ∀ ty, ty.Declared c.symbols → ty ≠ .void → ty.isFloat = false →
    ClearsTo c.symbols c.layouts ty (Meaning.zero c.symbols c.symbols.structs.length ty)

open Activation

variable {c : Activation} {d d' : Draft}

theorem ValueCode.follows (hc : c.Sound meaning) (hl : c.Located names storage places slots)
     (hfree : e.isFloatFree = true) (h : Typed c.findings names e ty)
    (hcode : ValueCode c.env storage e s o code s') (hle : s'.Le c.final)
    (hat : c.At s slots store temps mach) :
    bridge.Follows (Meaning.eval c.findings meaning places store e) (c.run temps code) mach
      (c.Valued (c.spot s.slots.length) temps mach s' ty o) := by
  cases hcode with
  | mk he hv =>
    exact follows_toValue hat.running.framed (he.follows hc hl (Nat.le_refl _) hat.running
      hat.stored hfree h (hv.draws.le.trans hle)) hv

theorem goes_extend (hf : c.Framed) (hcode : Straight code) (hle : (d.extend s code).Grows D)
    (h : bridge.Follows r (c.run temps code) mach Q) (hk : ∀ v temps' mach', Q v temps' mach' →
      bridge.Goes (k v) (c.resume F D (d.extend s code) b temps') mach' (c.Ends ret) Next) :
    bridge.Goes (r >>= k) (c.resume F D d b temps) mach (c.Ends ret) Next := by
  rw [resume_extend hcode hle]
  exact .after h (fun _ => retains_runFrom hf.retains _ _ _) hk

theorem goes_next (later : List Slot) (ho : d.isTerminated = false) (hb : budget ≤ b)
    (hl : rule places (slots ++ later)) (hat : c.At d.supply (slots ++ later) store temps mach) :
    bridge.Goes (.ok (.next places store)) (c.resume F D d b temps) mach (c.Ends ret)
      (c.Continues F D slots budget d rule) :=
  .next rfl fun _ => ⟨b, temps, later, rfl, hb, ho, hl, hat⟩

theorem goes_on (ho : d.isTerminated = false) (hb : budget ≤ b) (hl : rule places slots)
    (hat : c.At d.supply slots store temps mach) :
    bridge.Goes (.ok (.next places store)) (c.resume F D d b temps) mach (c.Ends ret)
      (c.Continues F D slots budget d rule) :=
  goes_next [] ho hb (by rwa [List.append_nil]) (by rwa [List.append_nil])

/-! ### Branches -/

theorem closeArm_eq (ho : d.isTerminated = false) (next last : String) :
    d.closeArm next last = (d.emit (.jump last)).emit (.label next) := by
  rw [Draft.closeArm, Draft.emitIfOpen, ho]
  rfl

theorem goes_arm (hc : c.Code F D)
    (h : bridge.Goes r x mach (c.Ends ret) (c.Continues F D slots (budget + 1) d1 rule))
    (hclosed : (d1.closeArm next last).Grows D) (hle : (d'.emit (.label last)).Grows D)
    (hsupply : d1.supply.Le d'.supply) (hl : c.Located names storage places slots) :
    bridge.Goes (r >>= fun o => pure (o.leave places)) x mach (c.Ends ret)
      (c.Continues F D slots budget (d'.emit (.label last))
        (c.Located names storage)) := by
  refine h.leave fun places' store y s hn => ?_
  obtain ⟨b, temps, later, rfl, hb, ho, -, hat⟩ := hn
  obtain ⟨b, rfl⟩ := Nat.exists_eq_add_of_le' (Nat.le_trans (Nat.le_add_left 1 budget) hb)
  rw [closeArm_eq ho] at hclosed
  refine ⟨c.resume F D (d'.emit (.label last)) b temps, ?_, b, temps, later, rfl, by omega,
    Draft.isTerminated_emit _ _, hl.append later, hat.skip hsupply⟩
  rw [resume_emit ((Draft.Grows.emit _).trans hclosed), runFrom_enter hc hle]

theorem goes_branch {cond : Expr} (hset : c.Setting F D meaning)
    (hl : c.Located names storage places slots) (hfree : cond.isFloatFree = true)
    (hcond : Typed c.findings names cond .bool)
    (hv : ValueCode c.env storage cond d.supply o code s)
    (h1 : ((d.extend s code).openBranch o).Grows d1)
    (h2 : (d1.closeArm (d.label 1) (d.label 2)).Grows d2)
    (hle : (d2.closeArm (d.label 2) (d.label 2)).Grows D)
    (hat : c.At d.supply slots store temps mach) (hb : budget + (j1 + j2 + 2) ≤ b)
    (hthen : ∀ {b' temps' mach'}, budget + 1 + j1 ≤ b' → c.At s slots store temps' mach' →
      bridge.Goes r1 (c.resume F D ((d.extend s code).openBranch o) b' temps') mach' (c.Ends ret)
        (c.Continues F D slots (budget + 1) d1 rule1))
    (helse : ∀ {b' temps' mach'}, budget + 1 + j2 ≤ b' →
      c.At (d1.closeArm (d.label 1) (d.label 2)).supply slots store temps' mach' →
      bridge.Goes r2 (c.resume F D (d1.closeArm (d.label 1) (d.label 2)) b' temps') mach' (c.Ends ret)
        (c.Continues F D slots (budget + 1) d2 rule2))
    (htrue : k (.bool true) = r1 >>= fun o => pure (o.leave places))
    (hfalse : k (.bool false) = r2 >>= fun o => pure (o.leave places)) :
    bridge.Goes (Meaning.eval c.findings meaning places store cond >>= k)
      (c.resume F D d b temps) mach (c.Ends ret)
      (c.Continues F D slots budget (d2.closeArm (d.label 2) (d.label 2))
        (c.Located names storage)) := by
  have hleElse := h2.trans ((Draft.Grows.closeArm _ _).trans hle)
  have hleThen := h1.trans ((Draft.Grows.closeArm _ _).trans hleElse)
  have hleTest : (d.extend s code).Grows D := (Draft.Grows.openBranch o).trans hleThen
  have hfinal : s.Le c.final := hset.code.final ▸ hleTest.supply
  have hsupply1 : d1.supply.Le (d2.emitIfOpen (.jump (d.label 2))).supply :=
    ((Draft.Grows.closeArm _ _).trans (h2.trans (Draft.Grows.emitIfOpen _))).supply
  refine goes_extend hat.running.framed hv.draws.straight hleTest
    (hv.follows hset.sound hl hfree hcond hfinal hat) fun v temps' mach' hm => ?_
  obtain ⟨hran, x, hx, hgives⟩ := hm
  have hat' := hat.ran hran hv.draws.le
  obtain ⟨b, rfl⟩ := Nat.exists_eq_add_of_le' (show 1 ≤ b by omega)
  have hnext : c.resume F D (d.extend s code) (b + 1) temps' = runFrom c.module c.call F (b + 1 + 1)
      temps' (.jumpIf o (d.label 0) (d.label 1) :: D.body.drop
        (((d.extend s code).bumpLabel 3).emit (.jumpIf o (d.label 0) (d.label 1))).body.length) :=
    resume_emit (d := (d.extend s code).bumpLabel 3) ((Draft.Grows.emit _).trans hleThen)
  rw [hnext]
  cases hgives.stands rfl with
  | @bool cond =>
    cases cond with
    | true =>
      have hgoes := hthen (show budget + 1 + j1 ≤ b by omega) hat'
      rw [htrue, runFrom_jumpIf (q := true) (t := d.label 0) hx (codeAt?_emit hset.code hleThen)]
      exact goes_arm hset.code hgoes hleElse hle hsupply1 hl
    | false =>
      have hskip : s.Le (d1.closeArm (d.label 1) (d.label 2)).supply :=
        (h1.trans (Draft.Grows.closeArm _ _)).supply
      have hgoes := helse (show budget + 1 + j2 ≤ b by omega) (hat'.skip hskip)
      rw [hfalse, runFrom_jumpIf (q := false) (e := d.label 1) hx (codeAt?_emit hset.code hleElse)]
      exact goes_arm hset.code hgoes hle hle (Draft.Grows.emitIfOpen _).supply hl

/-- A variable is declared: its stack space gets the value that it starts with. -/
theorem goes_declare (hset : c.Setting F D meaning) {decl : VarDecl}
    (hfree : decl.isFloatFree = true) (h : StmtTyped c.findings ret names (.declare decl) names')
    (hs : StmtCode c.env storage (.declare decl) d storage' d') (hle : d'.Grows D)
    (ho : d.isTerminated = false) (hb : budget ≤ b) (hl : c.Located names storage places slots)
    (hat : c.At d.supply slots store temps mach) :
    bridge.Goes (Meaning.exec c.findings meaning places store (.declare decl))
      (c.resume F D d b temps) mach (c.Ends ret) (c.Continues F D slots budget d'
        (c.Located names' storage')) := by
  have hfinal : d'.supply.Le c.final := hset.code.final ▸ hle.supply
  have hf := hat.running.framed
  cases h with
  | @declare _ _ ty hty hdeclared hvoid hinit hann =>
    rw [VarDecl.isFloatFree, Bool.and_eq_true] at hfree
    have htypeOf : c.env.types.typeOfDecl decl = .ok ty := by
      change c.findings.types.typeOfDecl decl = _
      rw [TypeTable.typeOfDecl, hty]
    have hplace : ∀ {slot v s code temps' mach'}, Straight code →
        c.At s (slots ++ [⟨slot, ty, false⟩]) (store ++ [v]) temps' mach' →
        bridge.Goes (.ok (.next (places.define decl.name store.length) (store ++ [v])))
          (c.resume F D (d.extend s code) b temps') mach' (c.Ends ret)
          (c.Continues F D slots budget (d.extend s code)
            (c.Located
              (names.define decl.name ⟨ty, decl.isMutable, false⟩)
              (storage.define decl.name ⟨slot, ty, false⟩))) := by
      intro slot v s code temps' mach' hcode hat'
      refine goes_next _ (Draft.isTerminated_extend ho hcode) hb ?_ hat'
      rw [hat.stored.length]
      exact hl.define decl.name hdeclared rfl rfl
    cases hs with
    | @declare _ _ _ _ slot _ _ _ _ _ _ hty' ha hinit' hv hstore =>
      cases htypeOf.symm.trans hty'
      have hstraight := hv.draws.straight.append hstore.straight
      have hle1 := ha.draws.le
      have hfree' := hfree.2
      rw [hinit'] at hfree'
      have hv' := hv.follows hset.sound hl hfree' (hinit _ hinit') hfinal (hat.skip hle1)
      obtain ⟨hspace, hlength⟩ := ha.space (hv.draws.le.trans hfinal)
      rw [Meaning.exec, hinit']
      refine goes_extend hf hstraight hle (follows_extend hf hv' fun v temps' mach' hm => ?_)
        fun v temps' mach' hm => hplace hstraight hm
      obtain ⟨mach'', hrun, -, hat'⟩ := hat.declare ⟨slot, ty, false⟩ hspace hle1 hv.draws.le hlength
        hm.1 hm.2 hstore fun _ _ hholds _ => hholds
      exact ⟨temps', mach'', hrun, hat'⟩
    | @declareZero _ _ _ _ slot _ code s2 hty' ha hinit' hz =>
      cases htypeOf.symm.trans hty'
      have hfloat : ty.isFloat = false := by
        simpa [hann.resolve_right fun h => h.2 hinit'] using hfree.1
      obtain ⟨hspace, hlength⟩ := ha.space (hz.draws.le.trans hfinal)
      obtain ⟨temps', mach', hrun, hr', -, hkeeps, hholds⟩ := Activation.zero hz hspace hfloat
        (hset.zero ty hdeclared hvoid hfloat) (hat.running.skip ha.draws.le)
      have hle2 := ha.draws.le.trans hz.draws.le
      have hlt : d.supply.slots.length < s2.slots.length := by
        have := hz.draws.le.length
        omega
      have hat' := hat.snoc ⟨slot, ty, false⟩ hspace hr' hkeeps hle2 hlt fun _ => hholds
      have hzero : bridge.Follows _ (c.run temps code) mach fun v temps' mach' =>
          c.At s2 (slots ++ [⟨slot, ty, false⟩]) (store ++ [v]) temps' mach' :=
        .ok hrun fun _ => hat'
      rw [Meaning.exec, hinit', show Meaning.typeAt c.findings decl.node.id = ty by
        rw [Meaning.typeAt, hty]; rfl]
      exact goes_extend hf hz.draws.straight hle hzero fun v temps' mach' hm => hplace hz.draws.straight hm

theorem goes_skip (places : Scope Nat) (ho : d.isTerminated = false)
     (hb : budget + 0 ≤ b) (hat : c.At d.supply slots store temps mach) :
    bridge.Goes (.ok (.next places store)) (c.resume F D d b temps) mach (c.Ends ret)
      (c.Continues F D slots budget d fun _ _ => True) :=
  goes_on ho hb True.intro hat

mutual

/-- The code of a statement does what the statement means. -/
theorem StmtCode.goes (hset : c.Setting F D meaning) {stmt : Stmt} {d d' : Draft}
    (ho : d.isTerminated = false) (hl : c.Located names storage places slots)
    (hat : c.At d.supply slots store temps mach) (hfree : stmt.isFloatFree = true)
    (hb : budget + stmt.jumps ≤ b) :
    StmtCode c.env storage stmt d storage' d' → StmtTyped c.findings ret names stmt names' →
    d'.Grows D → bridge.Goes (Meaning.exec c.findings meaning places store stmt)
      (c.resume F D d b temps) mach (c.Ends ret) (c.Continues F D slots budget d'
        (c.Located names' storage'))
  | hs@(.declare ..), h, hle | hs@(.declareZero ..), h, hle =>
    goes_declare hset hfree h hs hle ho hb hl hat
  | .assign hslot hv ha hstore, .assign hname hrec hvalue, hle => by
    have hf := hat.running.framed
    have hstorage := lookup?_of_storage hslot
    obtain ⟨slot', hslot', hslotTy⟩ := hl.bound _ _ hname
    cases hstorage.symm.trans hslot'
    obtain ⟨i, hi, hslots, href⟩ := hl.located _ _ _ hname hstorage
    have hdirect := href.trans hrec
    cases ha with
    | reference h => cases h.symm.trans hdirect
    | direct =>
      have hstraight := hv.draws.straight.append hstore.straight
      have hv' := hv.follows hset.sound hl hfree hvalue (hset.code.final ▸ hle.supply) hat
      rw [Meaning.exec, hi]
      refine goes_extend hf hstraight hle (follows_extend hf hv' fun v temps' mach' hm => ?_)
        fun v temps' mach' hm => goes_on (Draft.isTerminated_extend ho hstraight) hb hl hm
      obtain ⟨mach'', hrun, hat'⟩ := (hat.ran hm.1 hv.draws.le).assign hslots hdirect
        (hslotTy ▸ hm.2) hstore
      exact ⟨temps', mach'', hrun, hat'⟩
  | .branch hv hct, .branch hcond ht, hle => by
    have hfree := Bool.and_eq_true_iff.mp hfree
    have hle1 := (Draft.Grows.closeArm _ _).trans ((Draft.Grows.closeArm _ _).trans hle)
    rw [Meaning.exec]
    exact goes_branch hset hl hfree.1 hcond hv hct.grows .refl hle hat hb
      (fun hb' hat' => hct.goes hset (Draft.isTerminated_emit _ _) hl.push hat' hfree.2 hb' ht hle1)
      (goes_skip places (Draft.isTerminated_emit _ _)) rfl rfl
  | .branchElse hv hct hce, .branchElse hcond ht he, hle => by
    rw [Stmt.isFloatFree, Bool.and_eq_true, Bool.and_eq_true] at hfree
    have hle2 := (Draft.Grows.closeArm _ _).trans hle
    have hle1 := (Draft.Grows.closeArm _ _).trans (hce.grows.trans hle2)
    rw [Meaning.exec]
    exact goes_branch hset hl hfree.1.1 hcond hv hct.grows hce.grows hle hat hb
      (fun hb' hat' => hct.goes hset (Draft.isTerminated_emit _ _) hl.push hat' hfree.1.2 hb' ht hle1)
      (fun hb' hat' => hce.goes hset (Draft.isTerminated_emit _ _) hl.push hat' hfree.2 hb' he hle2) rfl rfl
  | .retNone, .retNone hvoid, hle => by
    rw [Meaning.exec, resume_emit hle]
    refine fun _ => ⟨none, mach, rfl, hat.kept, ?_⟩
    rw [Returned, if_pos hvoid]
    exact ⟨rfl, fun w hw => by cases hw⟩
  | .ret hv, .ret hvalue, hle => by
    have hle1 := (Draft.Grows.emit _).trans hle
    rw [Meaning.exec]
    refine goes_extend hat.running.framed hv.draws.straight hle1
      (hv.follows hset.sound hl hfree hvalue (hset.code.final ▸ hle.supply) hat) fun v temps' mach' hm => ?_
    obtain ⟨hran, x, hx, hgives⟩ := hm
    rw [resume_emit hle, runFrom_ret hx]
    refine fun _ => ⟨some (.int x), mach', rfl, (hat.ran hran hv.draws.le).kept, ?_⟩
    rw [Returned]
    split
    · next hvoid =>
      subst hvoid
      cases hgives.stands rfl
      exact ⟨rfl, fun w hw => (Option.some.inj hw).symm⟩
    · exact ⟨x, rfl, hgives.imp fun _ _ => True.intro⟩
  | .expr hv, .expr hvalue, hle => by
    rw [Meaning.exec]
    refine goes_extend hat.running.framed hv.draws.straight hle
      (hv.follows hset.sound hl hfree hvalue (hset.code.final ▸ hle.supply) hat) fun v temps' mach' hm => ?_
    exact goes_on (Draft.isTerminated_extend ho hv.draws.straight) hb hl (hat.ran hm.1 hv.draws.le)

theorem StmtsCode.goes (hset : c.Setting F D meaning) {d d' : Draft} (ho : d.isTerminated = false)
    (hl : c.Located names storage places slots) (hat : c.At d.supply slots store temps mach)
    (hfree : stmtsAreFloatFree stmts = true) (hb : budget + jumpsOf stmts ≤ b) :
    StmtsCode c.env storage stmts d d' → StmtsTyped c.findings ret names stmts → d'.Grows D →
    bridge.Goes (Meaning.execStmts c.findings meaning places store stmts) (c.resume F D d b temps) mach
      (c.Ends ret) (c.Continues F D slots budget d' fun _ _ => True)
  | .nil, _, _ => goes_on ho hb True.intro hat
  | @StmtsCode.cons _ _ _ stmt rest _ _ _ hs hsrest, .cons h hrest, hle => by
    rw [stmtsAreFloatFree, Bool.and_eq_true] at hfree
    rw [jumpsOf] at hb
    have hreopen : d.reopen = d := by rw [Draft.reopen, ho]; rfl
    have hstmt := hs.goes hset (hreopen.symm ▸ ho) hl (hreopen.symm ▸ hat) hfree.1
      (show budget + jumpsOf rest + stmt.jumps ≤ b by omega) h (hsrest.grows.trans hle)
    rw [hreopen] at hstmt
    rw [Meaning.execStmts]
    refine hstmt.seq fun places' store' y mach' hn => ?_
    obtain ⟨b', temps', later, rfl, hb', hopen, hl', hat'⟩ := hn
    refine (hsrest.goes hset hopen hl' hat' hfree.2 hb' hrest hle).mono fun places'' store'' y mach'' hn => ?_
    obtain ⟨b'', temps'', later', rfl, hb'', hopen', -, hat''⟩ := hn
    rw [List.append_assoc] at hat''
    exact ⟨b'', temps'', later ++ later', rfl, hb'', hopen', True.intro, hat''⟩

theorem BlockCode.goes (hset : c.Setting F D meaning) {d d' : Draft} (ho : d.isTerminated = false)
    (hl : c.Located names storage places slots) (hat : c.At d.supply slots store temps mach)
    (hfree : blk.isFloatFree = true) (hb : budget + blk.jumps ≤ b) :
    BlockCode c.env storage blk d d' → BlockTyped c.findings ret names blk → d'.Grows D →
    bridge.Goes (Meaning.execBlock c.findings meaning places store blk) (c.resume F D d b temps) mach
      (c.Ends ret) (c.Continues F D slots budget d' fun _ _ => True)
  | .mk hs, .mk _ h, hle => hs.goes hset ho hl hat hfree hb h hle

end

end StructLang.Flat
