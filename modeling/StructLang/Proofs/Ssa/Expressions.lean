import StructLang.Proofs.Ssa.Drafts
import StructLang.Proofs.Ssa.Activation

/-!
# Running the code of expressions

The SSA code of a typed expression gives what the expression means: it ends in an operand that stands for
the value, or that points to it, or it fails as the expression does. Slots that had been given out before
stay as they were.
-/

namespace StructLang.Ssa

/-! ## Calls -/

/-- Arguments as a call passes them: a receiver by its address. -/
inductive Passed (symbols : Symbols) (mach : Machine) (bound : Nat) :
    Bool → List StructLang.Ty → List Meaning.Value → List Value → Prop where
  | nil {receiver} : Passed symbols mach bound receiver [] [] []
  | receiver {a ty v ts vs ws} (h : Holds symbols mach bound a ty v)
      (hs : Passed symbols mach bound false ts vs ws) :
      Passed symbols mach bound true (ty :: ts) (v :: vs) (.ptr a :: ws)
  | value {ty v w ts vs ws} (h : Stands symbols ty v w)
      (hs : Passed symbols mach bound false ts vs ws) :
      Passed symbols mach bound false (ty :: ts) (v :: vs) (w :: ws)

/-- What a function of a result type returned stands for a value. -/
def Returned (symbols : Symbols) (ty : StructLang.Ty) (v : Meaning.Value) (result : Option Value) :
    Prop :=
  if ty = .void then v = .unit ∧ ∀ w, result = some w → w = .null
  else ∃ w, result = some w ∧ Stands symbols ty v w

/-- Calls do what the meaning says, and leave all memory as it was. -/
def CallsFollow (symbols : Symbols) (meaning : Meaning.Call) (call : Call) : Prop :=
  ∀ g ∈ symbols.functions, ∀ vs ws mach,
    Passed symbols mach mach.memory.size g.receiver.isSome g.signature vs ws →
    bridge.Follows (meaning g.linkage vs) (call g.linkage ws) mach fun v result mach' =>
      mach.Keeps 0 0 mach' ∧ Returned symbols g.ret v result

theorem Passed.inside {receiver : Bool} (h : Passed symbols mach bound receiver ts vs ws) :
    Passed symbols mach mach.memory.size receiver ts vs ws := by
  induction h with
  | nil => exact .nil
  | receiver h _ ih => exact .receiver h.inside ih
  | value h _ ih => exact .value h ih

/-! ## Parts of expressions -/

namespace Activation

variable {c : Activation}

theorem toValue (h : ToValue s low o code s') (hle : s'.Le c.final) (hr : c.Running s regs mach)
    (hm : c.Means regs mach kept ty v low) :
    ∃ regs', c.steps regs code mach = .ok regs' mach ∧
      c.Ran s.slots.length regs mach s' regs' mach ∧ c.Denotes regs' o ty v := by
  cases h with
  | value => exact ⟨regs, rfl, .refl hr, hm.2⟩
  | @load _ _ t ht =>
    obtain ⟨rfl, a, ha, hholds⟩ := hm
    obtain ⟨w, hread, hstands⟩ := hholds.read
    obtain ⟨hran, heval⟩ := hr.assign hle w
    exact ⟨_, steps_load ha hread, hran, w, heval, hstands⟩

theorem spill (hle : (s.allocate t).Le c.final) (hr : c.Running s regs mach)
    (hd : c.Denotes regs o ty v) :
    ∃ mach', c.steps regs [.store t o (.register s.nextRegister)] mach = .ok regs mach' ∧
      c.Ran s.slots.length regs mach (s.allocate t) regs mach' ∧
      c.Points regs mach' (s.allocate t).slots.length (.register s.nextRegister) ty v := by
  obtain ⟨w, hw, hstands⟩ := hd
  obtain ⟨hslot, x, -, hx⟩ := hr.slot hle
  have hlength : (s.allocate t).slots.length = s.slots.length + 1 := by simp [Supply.allocate]
  have hkeeps := mach.keeps_put (c.base + s.slots.length) w
  refine ⟨_, steps_store hw hslot hx rfl, ⟨?_, by omega, .refl _, ?_⟩, _, hslot, ?_⟩
  · exact (hr.allocate t).keeps hkeeps (by omega)
  · rw [hlength]
    exact hkeeps
  · refine ⟨_, w, w, rfl, by omega, Machine.getElem?_put ?_ w, rfl, hstands⟩
    exact (Array.getElem?_eq_some_iff.mp hx).1

theorem toAddress (h : ToAddress s low o code s') (hle : s'.Le c.final) (hr : c.Running s regs mach)
    (hm : c.Means regs mach s.slots.length ty v low) :
    ∃ mach', c.steps regs code mach = .ok regs mach' ∧
      c.Ran s.slots.length regs mach s' regs mach' ∧
      c.Points regs mach' s'.slots.length o ty v := by
  cases h with
  | place => exact ⟨mach, rfl, .refl hr, hm.2⟩
  | spill ht => exact spill hle hr hm.2

theorem result (hle : s.bump.Le c.final) (hr : c.Running s regs mach)
    (hstep : c.steps regs [i] mach = .ok (regs.assign s.nextRegister w) mach)
    (hstands : Stands c.symbols ty v w) : ∃ regs', c.steps regs [i] mach = .ok regs' mach ∧
      c.Ran s.slots.length regs mach s.bump regs' mach ∧
      c.Denotes regs' (.register s.nextRegister) ty v := by
  obtain ⟨hran, heval⟩ := hr.assign hle w
  exact ⟨_, hstep, hran, w, heval, hstands⟩

theorem steps_arith (hl : c.eval regs left = pure l)
    (hl' : c.eval regs right = pure l') (h : arith op t l l' = .ok w) :
    c.steps regs [.arith r op t left right] mach = .ok (regs.assign r w) mach := by
  simp only [eval] at hl hl'
  simp only [steps, Ssa.steps, step, hl, hl', pure_bind, bind_pure, h, orFault]
  rfl

theorem steps_compare (hl : c.eval regs left = pure l)
    (hl' : c.eval regs right = pure l') (h : compare pred l l' = .ok w) :
    c.steps regs [.compare r pred t left right] mach = .ok (regs.assign r w) mach := by
  simp only [eval] at hl hl'
  simp only [steps, Ssa.steps, step, hl, hl', pure_bind, bind_pure, h, orFault]
  rfl

theorem compare_zero (hty : source.isInt = true)
    (ht : Ty.ofSource source = .ok t) (h : Stands c.symbols source v w) :
    ∃ w', compare .ne w (.int (wrap 0 t)) = .ok w' ∧
      Stands c.symbols .bool (Meaning.convert .bool v) w' := by
  obtain ⟨a, rfl, rfl⟩ := h.of_isInt hty
  have hzero : wrap 0 t = 0 := by cases source <;> cases hty <;> cases ht <;> rfl
  rw [hzero]
  exact ⟨.ofBool (a != 0), rfl, .bool⟩

theorem cast {w : Operand} (h : CastCode o source target s w code s')
    (hc : source = target ∨ source.castsTo target = true) (hle : s'.Le c.final)
    (hr : c.Running s regs mach) (hd : c.Denotes regs o source v) :
    ∃ regs', c.steps regs code mach = .ok regs' mach ∧
      c.Ran s.slots.length regs mach s' regs' mach ∧
      c.Denotes regs' w target (Meaning.cast source target v) := by
  obtain ⟨x, hx, hstands⟩ := hd
  cases h with
  | same heq =>
    refine ⟨regs, rfl, .refl hr, x, hx, ?_⟩
    rw [Meaning.cast, if_pos heq]
    exact heq ▸ hstands
  | test hne hs hint hbool =>
    subst hbool
    rw [Meaning.cast, if_neg hne]
    obtain ⟨w', hw', hstands'⟩ := compare_zero hint hs hstands
    exact result hle hr (steps_compare hx rfl hw') hstands'
  | @convert t t' op hne hs ht htest hop =>
    rw [Meaning.cast, if_neg hne]
    obtain ⟨w', hw', hstands'⟩ := convert_eq hne (hc.resolve_left hne) htest ht hop hstands
    refine result hle hr ?_ hstands'
    simp only [eval] at hx
    simp only [steps, Ssa.steps, step, hx, pure_bind, bind_pure, hw', orFault]
    rfl

/-! ## Variables -/

/-- The slot of a variable holds a value, or the address of one that existed before the call. -/
def Variable (c : Activation) (mach : Machine) (v : Meaning.Value) (slot : Slot) : Prop :=
  ∃ k t, c.final.slots[k]? = some (.alloca slot.address t) ∧ k < c.housed ∧
    if slot.byReference then
      ∃ a, mach.memory[c.base + k]? = some (.ptr a) ∧ Holds c.symbols mach c.base a slot.ty v
    else Holds c.symbols mach (c.base + c.housed) ⟨.slot (c.base + k), []⟩ slot.ty v

def Stored (c : Activation) (slots : List Slot) (store : List Meaning.Value) (mach : Machine) : Prop :=
  Tracks (c.Variable mach) store slots

theorem Variable.keeps (h : c.Variable mach v slot) (hk : mach.Keeps lo hi mach')
    (hlo : c.base + c.housed ≤ lo) : c.Variable mach' v slot := by
  have hframe : ∀ {bound}, bound ≤ c.base + c.housed → mach.Keeps bound hi mach' := by
    intro bound hb
    exact ⟨hk.size, fun i hi1 hi2 => hk.cells i hi1 (by omega), hk.output⟩
  obtain ⟨k, t, hk1, hlt, h⟩ := h
  refine ⟨k, t, hk1, hlt, ?_⟩
  by_cases href : slot.byReference = true
  · rw [if_pos href] at h ⊢
    obtain ⟨a, ha, hholds⟩ := h
    have hsize := (Array.getElem?_eq_some_iff.mp ha).1
    exact ⟨a, (hk.cells _ hsize (.inl (by omega))).trans ha, hholds.keeps (hframe (by omega))⟩
  · rw [if_neg href] at h ⊢
    exact h.keeps (hframe (Nat.le_refl _))

theorem Stored.ran (h : c.Stored slots store mach) (hr : c.Ran kept regs mach s' regs' mach')
    (hkept : c.housed ≤ kept) : c.Stored slots store mach' :=
  h.imp fun _ _ hv => hv.keeps hr.memory (by omega)

theorem slotAddress (h : SlotAddress s slot o code s') (hle : s'.Le c.final)
    (hr : c.Running s regs mach) (hv : c.Variable mach v slot) (hkept : c.housed ≤ s.slots.length) :
    ∃ regs', c.steps regs code mach = .ok regs' mach ∧
      c.Ran s.slots.length regs mach s' regs' mach ∧
      c.Points regs' mach s'.slots.length o slot.ty v := by
  obtain ⟨k, t, hk, hlt, hv⟩ := hv
  have hslot : c.eval regs (.register slot.address) = pure (.ptr ⟨.slot (c.base + k), []⟩) := by
    simp [eval, Ssa.eval, hr.placed k _ t hk]
  cases h with
  | direct hdirect =>
    rw [if_neg (by simp [hdirect])] at hv
    exact ⟨regs, rfl, .refl hr, _, hslot, hv.mono (by omega)⟩
  | reference href =>
    rw [if_pos href] at hv
    obtain ⟨a, ha, hholds⟩ := hv
    have hread : read ⟨.slot (c.base + k), []⟩ mach = .ok (.ptr a) mach := by
      simp only [read, bind, EStateM.bind, Execution.get_eq, ha]
      rfl
    obtain ⟨hran, heval⟩ := hr.assign hle (.ptr a)
    exact ⟨_, steps_load hslot hread, hran, a, heval, hholds.mono (by omega)⟩

/-! ## Expressions -/

section

variable {α β : Type}

theorem follows_bind (h : bridge.Follows r (c.steps regs code) mach Q)
    (hk : ∀ a regs' mach', Q a regs' mach' → bridge.Follows (k a) (c.steps regs' code') mach' Q') :
    bridge.Follows (r >>= k) (c.steps regs (code ++ code')) mach Q' := by
  rw [Activation.steps_append]
  exact h.bind (fun _ => retains _) hk

theorem follows_extend (h : bridge.Follows r (c.steps regs code) mach Q)
    (hk : ∀ a regs' mach', Q a regs' mach' → ∃ regs'' mach'',
      c.steps regs' code' mach' = .ok regs'' mach'' ∧ Q' a regs'' mach'') :
    bridge.Follows r (c.steps regs (code ++ code')) mach Q' := by
  rw [Activation.steps_append]
  refine h.extend (fun _ => retains _) fun a regs' mach' hQ => ?_
  obtain ⟨regs'', mach'', hsteps, hQ'⟩ := hk a regs' mach' hQ
  exact .ok hsteps fun _ => hQ'

end

def Valued (c : Activation) (kept : Nat) (regs : Registers) (mach : Machine) (s' : Supply)
    (ty : StructLang.Ty) (o : Operand) (v : Meaning.Value) (regs' : Registers) (mach' : Machine) :
    Prop :=
  c.Ran kept regs mach s' regs' mach' ∧ c.Denotes regs' o ty v

def Evaluated (c : Activation) (kept : Nat) (regs : Registers) (mach : Machine) (s' : Supply)
    (ty : StructLang.Ty) (low : Lowered) (v : Meaning.Value) (regs' : Registers) (mach' : Machine) :
    Prop :=
  c.Ran kept regs mach s' regs' mach' ∧ c.Means regs' mach' s'.slots.length ty v low

theorem follows_toValue
    (h : bridge.Follows r (c.steps regs code) mach (c.Evaluated kept regs mach s ty low))
    (hv : ToValue s low o code' s') (hle : s'.Le c.final) :
    bridge.Follows r (c.steps regs (code ++ code')) mach (c.Valued kept regs mach s' ty o) := by
  refine follows_extend h fun v regs' mach' hm => ?_
  obtain ⟨regs'', hsteps, hran, hd⟩ := toValue hv hle hm.1.running hm.2
  exact ⟨regs'', mach', hsteps, hm.1.trans hran, hd⟩

theorem follows_operands {k : Meaning.Value → Meaning.Value → Except Meaning.Failure α}
    (hl : bridge.Follows r (c.steps regs c1) mach (c.Evaluated kept regs mach s1 ty low))
    (hv : ToValue s1 low o c2 s2) (hle2 : s2.Le c.final)
    (hr : ∀ {regs' mach'}, c.Ran kept regs mach s2 regs' mach' →
      bridge.Follows r' (c.steps regs' c3) mach'
        (c.Evaluated s2.slots.length regs' mach' s3 ty low'))
    (hv' : ToValue s3 low' o' c4 s') (hle : s'.Le c.final)
    (hk : ∀ a b regs' mach', c.Ran kept regs mach s' regs' mach' → c.Denotes regs' o ty a →
      c.Denotes regs' o' ty b → bridge.Follows (k a b) (c.steps regs' code) mach' Q) :
    bridge.Follows (do let a ← r; let b ← r'; k a b)
      (c.steps regs (c1 ++ (c2 ++ (c3 ++ (c4 ++ code))))) mach Q := by
  rw [← List.append_assoc]
  refine follows_bind (follows_toValue hl hv hle2) fun a regs1 mach1 ha => ?_
  rw [← List.append_assoc]
  refine follows_bind (follows_toValue (hr ha.1) hv' hle) fun b regs2 mach2 hb => ?_
  exact hk a b regs2 mach2 (ha.1.trans hb.1) (ha.2.mono hb.1.registers) hb.2

theorem steps_field (ha : c.eval regs o = pure (.ptr a)) :
    c.steps regs [.field r struct o index] mach =
      .ok (regs.assign r (.ptr ⟨a.base, a.path ++ [index]⟩)) mach := by
  simp only [steps, Ssa.steps, step, evalAddress_eq ha, pure_bind, bind_pure]
  rfl

theorem follows_field
    (h : bridge.Follows r (c.steps regs code) mach
      (c.Evaluated kept regs mach s (.struct struct) low))
    (ha : ToAddress s low o code' s') (hle : s'.bump.Le c.final)
    (hf : c.symbols.field? (.struct struct) member = some (index, fieldTy)) :
    bridge.Follows (r >>= fun v => pure (v.field index))
      (c.steps regs (code ++ (code' ++ [.field s'.nextRegister struct o index]))) mach
      (c.Evaluated kept regs mach s'.bump fieldTy
        (.place fieldTy (.register s'.nextRegister))) := by
  refine follows_bind h fun v regs' mach' hm => ?_
  obtain ⟨mach'', hsteps, hran, a, ha', hholds⟩ := toAddress ha (Supply.Le.bump.trans hle)
    hm.1.running hm.2
  obtain ⟨hran', heval⟩ := hran.running.assign hle (.ptr ⟨a.base, a.path ++ [index]⟩)
  rw [Activation.steps_append]
  exact .seq hsteps (.ok (steps_field ha') fun _ =>
    ⟨(hm.1.trans hran).trans hran', rfl, _, heval, hholds.field hf⟩)

theorem storeField (struct : String) (t : Ty) (hle : s.bump.Le c.final)
    (hslot : c.final.slots[k]? = some (.alloca slot t')) (hk : k < s.slots.length)
    (hr : c.Running s regs mach) (hw : c.eval regs o = pure w)
    (hcell : mach.memory[c.base + k]? = some (.aggregate (done ++ x :: rest)))
    (hdone : done.length = index) :
    ∃ regs' mach', c.steps regs [.field s.nextRegister struct (.register slot) index,
        .store t o (.register s.nextRegister)] mach = .ok regs' mach' ∧
      c.Ran k regs mach s.bump regs' mach' ∧
      mach'.memory[c.base + k]? = some (.aggregate (done ++ w :: rest)) := by
  have hbase : c.eval regs (.register slot) = pure (.ptr ⟨.slot (c.base + k), []⟩) := by
    simp [eval, Ssa.eval, hr.placed k _ _ hslot]
  obtain ⟨hran, heval⟩ := hr.assign hle (.ptr ⟨.slot (c.base + k), [index]⟩)
  have hset : Value.set w [index] (.aggregate (done ++ x :: rest)) =
      .ok (.aggregate (done ++ w :: rest)) := by
    subst hdone
    simp [Value.set, bind, Except.bind, pure, Except.pure]
  have hstore : c.steps (regs.assign s.nextRegister (.ptr ⟨.slot (c.base + k), [index]⟩))
      [.store t o (.register s.nextRegister)] mach = _ :=
    steps_store (eval_mono hw hran.registers) heval hcell hset
  have hkeeps := mach.keeps_put (c.base + k) (.aggregate (done ++ w :: rest))
  have hlength : s.bump.slots.length = s.slots.length := rfl
  refine ⟨_, _, ?_, ⟨hran.running.keeps hkeeps (by omega), by omega, hran.registers, ?_⟩, ?_⟩
  · rw [← List.singleton_append, Activation.steps_append, Execution.bind_of_ok (steps_field hbase)]
    exact hstore
  · refine ⟨hkeeps.size, fun i hi hout => hkeeps.cells i hi (by omega), hkeeps.output⟩
  · exact Machine.getElem?_put (Array.getElem?_eq_some_iff.mp hcell).1 _

theorem follows_arith (hle : s.bump.Le c.final) (hr : c.Running s regs mach)
    (hl : c.eval regs left = pure l) (hl' : c.eval regs right = pure l')
    (h : bridge.Agrees r (arith op t l l') (Stands c.symbols ty)) :
    bridge.Follows r (c.steps regs [.arith s.nextRegister op t left right]) mach
      (c.Valued s.slots.length regs mach s.bump ty (.register s.nextRegister)) := by
  cases hw : arith op t l l' with
  | ok w =>
    cases r with
    | error e =>
      rw [hw] at h
      exact h.elim
    | ok v =>
      rw [hw] at h
      obtain ⟨hran, heval⟩ := hr.assign hle w
      exact .ok (steps_arith hl hl' hw) fun _ => ⟨hran, w, heval, h⟩
  | error f =>
    cases r with
    | ok v =>
      rw [hw] at h
      exact h.elim
    | error e =>
      rw [hw] at h
      have hsteps : c.steps regs [.arith s.nextRegister op t left right] mach =
          .error (.fault f) mach := by
        simp only [eval] at hl hl'
        simp only [steps, Ssa.steps, step, hl, hl', pure_bind, bind_pure, hw, orFault]
        rfl
      exact .error hsteps h

end Activation

open Activation

/-- What the code of a function can rely on. -/
structure Activation.Sound (c : Activation) (meaning : Meaning.Call) : Prop where
  calls : CallsFollow c.symbols meaning c.call
  foreigns : c.symbols.foreigns = []
  zero : ∀ ty t, ty.Declared c.symbols → Ty.ofSource ty = .ok t → ∃ w, zero c.module t = pure w ∧
    Stands c.symbols ty (Meaning.zero c.symbols c.symbols.structs.length ty) w

abbrev Activation.Located (c : Activation) :=
  StructLang.Located Slot.ty Slot.byReference c.findings

section

variable {c : Activation}

theorem eval_void (regs : Registers) : c.eval regs (.zero .void) = pure .null := by
  simp only [Activation.eval, eval, zero]
  cases c.module.structs.length <;> rfl

theorem zero_struct (hc : c.Sound meaning) (hd : c.symbols.struct? name = some d)
    (hw : zero c.module (.struct name) = pure w) :
    ∃ ws, w = .aggregate ws ∧ ws.length = d.fields.length := by
  have hdeclared : (StructLang.Ty.struct name).Declared c.symbols := by
    refine ⟨by simp [StructLang.Ty.Proper], ?_⟩
    rintro _ ⟨⟩
    exact ⟨d, hd⟩
  obtain ⟨w', hw', hstands⟩ := hc.zero (.struct name) (.struct name) hdeclared rfl
  cases congrFun (hw.symm.trans hw') ⟨#[], ""⟩
  generalize Meaning.zero c.symbols c.symbols.structs.length (.struct name) = v at hstands
  cases hstands with
  | struct hd' hall =>
    cases hd.symm.trans hd'
    exact ⟨_, rfl, by rw [← hall.length_eq, List.length_map]⟩

theorem CallCode.follows (hc : c.Sound meaning) (hresolve : c.symbols.resolve name ts = .ok callee)
    {args : List (Ty × Operand)} (h : CallCode callee params args s o code s')
    (hle : s'.Le c.final) (hr : c.Running s regs mach)
    (hargs : (args.mapM fun q => c.eval regs q.2) = pure ws)
    (hpassed : Passed c.symbols mach mach.memory.size callee.hasReceiver ts vs ws) :
    bridge.Follows (meaning (Meaning.symbolOf c.symbols name ts) vs) (c.steps regs code) mach
      (c.Valued s.slots.length regs mach s' callee.ret o) := by
  obtain ⟨g, hg, rfl, rfl, hsymbol⟩ := Symbols.exists_function hc.foreigns hresolve
  rw [hsymbol]
  have hcall := hc.calls g hg vs ws mach hpassed
  simp only [Activation.eval] at hargs
  cases h with
  | void hret =>
    have hvoid : g.ret = .void := by
      by_contra hne
      exact ofSource_ne_void hret hne rfl
    simp only [Activation.steps, steps, step, hargs, pure_bind, bind_pure]
    refine hcall.extend (fun _ => retains _) fun v result mach' hres => ?_
    refine .ok (b := regs) (by cases result <;> rfl) fun _ => ?_
    obtain ⟨hkeeps, hres⟩ := hres
    rw [Returned, if_pos hvoid] at hres
    refine ⟨⟨hr.keeps hkeeps (Nat.zero_le _), Nat.le_refl _, .refl _, hkeeps.of_all⟩, .null, eval_void regs, ?_⟩
    rw [Callee.ret, hvoid, hres.1]
    exact .void
  | result hret hne =>
    have hvoid : g.ret ≠ .void := by
      intro heq
      rw [Callee.ret, heq] at hret
      cases hret
      exact hne rfl
    simp only [Activation.steps, steps, step, hargs, pure_bind, bind_pure]
    refine hcall.extend (fun _ => retains _) fun v result mach' hres => ?_
    obtain ⟨hkeeps, hres⟩ := hres
    rw [Returned, if_neg hvoid] at hres
    obtain ⟨w, rfl, hstands⟩ := hres
    have hran : c.Ran s.slots.length regs mach s regs mach' :=
      ⟨hr.keeps hkeeps (Nat.zero_le _), Nat.le_refl _, .refl _, hkeeps.of_all⟩
    obtain ⟨hran', heval⟩ := hran.running.assign hle w
    exact .ok rfl fun _ => ⟨hran.trans hran', w, heval, hstands⟩

mutual

/-- The code of an expression gives what the expression means. -/
theorem ExprCode.follows (hc : c.Sound meaning) (hl : c.Located names storage places slots)
    (hkept : c.housed ≤ s.slots.length) (hr : c.Running s regs mach) (hst : c.Stored slots store mach) :
    ExprCode (.ofFindings c.findings) storage e s low code s' → Typed c.findings names e ty →
    s'.Le c.final → bridge.Follows (Meaning.eval c.findings meaning places store e)
      (c.steps regs code) mach (c.Evaluated s.slots.length regs mach s' ty low)
  | @ExprCode.integer _ _ _ value long _ _ _ hty ht, .integer hn, _ => by
    cases TypeTable.typeOf_unique hty hn
    refine .ok rfl fun _ => ⟨.refl hr, rfl, _, rfl, ?_⟩
    cases long <;> cases ht
    · have h32 : StructLang.Ty.i32.isInt = true := rfl
      simpa [wrap, Meaning.wrap] using stands_wrap h32 (Int64.ofNat value)
    · exact .i64
  | @ExprCode.float _ _ _ _ single _ _ _ hty ht, .float hn, _ => by
    cases TypeTable.typeOf_unique hty hn
    refine .ok rfl fun _ => ⟨.refl hr, rfl, _, rfl, ?_⟩
    cases single <;> cases ht
    · exact .f64
    · exact .f32
  | @ExprCode.bool _ _ _ value _ _ hty, .bool hn, _ => by
    cases TypeTable.typeOf_unique hty hn
    refine .ok rfl fun _ => ⟨.refl hr, rfl, .int (if value then 1 else 0), ?_, .bool⟩
    cases value <;> rfl
  | .text hty hname, .text hn, _ => by
    cases TypeTable.typeOf_unique hty hn
    refine .ok rfl fun _ => ⟨?_, rfl, _, rfl, .text⟩
    cases hname <;> exact
      ⟨⟨hr.low, hr.placed, hr.fresh, hr.room, hr.untouched⟩, Nat.le_refl _, .refl _, .refl⟩
  | .var hty hslot haddr, .var hn hname, hle => by
    cases TypeTable.typeOf_unique hty hn
    have hstorage := lookup?_of_storage hslot
    obtain ⟨slot', hslot', hslotTy⟩ := hl.bound _ _ hname
    cases hstorage.symm.trans hslot'
    obtain ⟨k, hk, hslots, -⟩ := hl.located _ _ _ hname hstorage
    obtain ⟨v, hv, hvar⟩ := hst.lookup hslots
    obtain ⟨regs', hsteps, hran, hpoints⟩ := slotAddress haddr hle hr hvar hkept
    rw [Meaning.eval, hk, Option.bind_some, hv, Option.getD_some]
    exact .ok hsteps fun _ => ⟨hran, rfl, hslotTy ▸ hpoints⟩
  | .unary hty hce hv ht, .unary hn he hop, hle => by
    cases TypeTable.typeOf_unique hty hn
    have hle2 := Supply.Le.bump.trans hle
    have hev := follows_toValue (hce.follows hc hl hkept hr hst he (hv.draws.le.trans hle2)) hv hle2
    rw [Meaning.eval, Meaning.typeAt, hn, Option.getD_some, ← List.append_assoc]
    refine follows_bind hev fun v regs' mach' hm => ?_
    obtain ⟨hran, w, hw, hstands⟩ := hm
    obtain ⟨o', left, right, l, l', w', hi, hleft, hright, harith, hstands'⟩ :=
      unaryInstr_arith hop ht hw hstands _
    obtain ⟨hran', heval⟩ := hran.running.assign hle w'
    rw [hi]
    exact .ok (steps_arith hleft hright harith) fun _ => ⟨hran.trans hran', rfl, w', heval, hstands'⟩
  | .compare hty hop' ht hcl hv hcr hv' hcmp hpred, .binary hn htl htr hop, hle => by
    cases TypeTable.typeOf_unique hty hn
    cases hop'.symm.trans htl.typeOf
    have hle4 := Supply.Le.bump.trans hle
    have hle3 := hv'.draws.le.trans hle4
    have hle2 := hcr.draws.le.trans hle3
    rw [Meaning.eval, htl.typeAt]
    refine follows_operands (hcl.follows hc hl hkept hr hst htl (hv.draws.le.trans hle2)) hv hle2
      (fun hran => hcr.follows hc hl (Nat.le_trans hkept hran.given) hran.running (hst.ran hran hkept) htr hle3)
      hv' hle4 fun a b regs' mach' hran hda hdb => ?_
    obtain ⟨x, hx, hsx⟩ := hda
    obtain ⟨y, hy, hsy⟩ := hdb
    have hw := compare_eq hcmp hop ht hpred hsx hsy
    obtain ⟨hran', heval⟩ := hran.running.assign hle (.ofBool (Meaning.compare _ a b))
    rw [Meaning.binary, if_pos hcmp]
    refine .ok (steps_compare hx hy hw) fun _ => ⟨hran.trans hran', rfl, ?_⟩
    rw [if_pos hcmp]
    exact ⟨_, heval, .bool⟩
  | .arith hty hop' ht hcl hv hcr hv' hcmp ho, .binary hn htl htr hop, hle => by
    cases TypeTable.typeOf_unique hty hn
    cases hop'.symm.trans htl.typeOf
    have hle4 := Supply.Le.bump.trans hle
    have hle3 := hv'.draws.le.trans hle4
    have hle2 := hcr.draws.le.trans hle3
    rw [Meaning.eval, htl.typeAt]
    refine follows_operands (hcl.follows hc hl hkept hr hst htl (hv.draws.le.trans hle2)) hv hle2
      (fun hran => hcr.follows hc hl (Nat.le_trans hkept hran.given) hran.running (hst.ran hran hkept) htr hle3)
      hv' hle4 fun a b regs' mach' hran hda hdb => ?_
    obtain ⟨x, hx, hsx⟩ := hda
    obtain ⟨y, hy, hsy⟩ := hdb
    have hagrees := arith_agrees hcmp hop ht ho hsx hsy
    rw [Meaning.binary, if_neg (by simp [hcmp]), if_neg (by simp [hcmp])]
    refine (follows_arith hle hran.running hx hy hagrees).mono fun v regs'' mach'' hm => ?_
    exact ⟨hran.trans hm.1, rfl, hm.2⟩
  | .cast hty hsource hce hv hw, .cast hn he hcast, hle => by
    cases TypeTable.typeOf_unique hty hn
    cases hsource.symm.trans he.typeOf
    have hle2 := hw.draws.le.trans hle
    have hev := follows_toValue (hce.follows hc hl hkept hr hst he (hv.draws.le.trans hle2)) hv hle2
    rw [Meaning.eval, he.typeAt, ← List.append_assoc]
    refine follows_bind hev fun v regs' mach' hm => ?_
    obtain ⟨hran, hd⟩ := hm
    obtain ⟨regs'', hsteps, hran', hd'⟩ := Activation.cast hw hcast hle hran.running hd
    exact .ok hsteps fun _ => ⟨hran.trans hran', rfl, hd'⟩
  | .call hty hts hcallee hparams hcargs hcall, .call hn hargs hresolve, hle => by
    cases TypeTable.typeOf_unique hty hn
    cases hts.symm.trans hargs.typesOf
    cases hcallee.symm.trans (Symbols.callee_eq_ok hresolve)
    rw [Meaning.eval, hargs.typesAt]
    refine follows_bind (hcargs.follows hc hl hkept hr hst hargs (hcall.draws.le.trans hle))
      fun vs regs' mach' hm => ?_
    obtain ⟨hran, ws, hws, hpassed⟩ := hm
    refine (hcall.follows hc hresolve hle hran.running hws hpassed.inside).mono
      fun v regs'' mach'' hm => ?_
    exact ⟨hran.trans hm.1, rfl, hm.2⟩
  | .construct hty hcargs, .construct hn hd hargs, hle => by
    cases TypeTable.typeOf_unique hty hn
    have hle1 := Supply.Le.bump.trans hle
    have hle0 := hcargs.draws.le.trans hle1
    obtain ⟨hslot, w, hzero, hcell⟩ := hr.slot hle0
    obtain ⟨ws, rfl, hlength⟩ := zero_struct hc hd hzero
    have hfields := hcargs.follows hc hl (slots_allocate hle0) hkept (by simp [Supply.allocate])
      (hr.allocate _) hst hargs hle1 ((List.nil_append ws).symm ▸ hcell) rfl
      (by rw [hlength, hargs.length_eq, List.length_map])
    rw [Meaning.eval]
    refine follows_bind hfields fun vs regs' mach' hm => ?_
    obtain ⟨hran, ws', hcell', hall⟩ := hm
    have hread : read ⟨.slot (c.base + s.slots.length), []⟩ mach' = .ok (.aggregate ws') mach' := by
      simp only [read, bind, EStateM.bind, Execution.get_eq, hcell']
      rfl
    obtain ⟨hran', heval⟩ := hran.running.assign hle (.aggregate ws')
    exact .ok (steps_load (eval_mono hslot hran.registers) hread) fun _ =>
      ⟨hran.trans hran', rfl, _, heval, .struct hd hall⟩
  | .access hty hobject hmember hce haddr, .access hn he hf, hle => by
    cases TypeTable.typeOf_unique hty hn
    cases hobject.symm.trans he.typeOf
    cases hmember.symm.trans (exists_memberOf hf)
    rw [Meaning.eval, he.typeAt, hf]
    exact follows_field (hce.follows hc hl hkept hr hst he
      (haddr.draws.le.trans (Supply.Le.bump.trans hle))) haddr hle hf

theorem ArgsCode.follows (hc : c.Sound meaning) (hl : c.Located names storage places slots)
    {args : List (Ty × Operand)} (hkept : c.housed ≤ s.slots.length) (hr : c.Running s regs mach)
    (hst : c.Stored slots store mach) :
    ArgsCode (.ofFindings c.findings) storage receiver es s args code s' →
    TypedAll c.findings names es ts → s'.Le c.final →
    bridge.Follows (Meaning.evalAll c.findings meaning places store es) (c.steps regs code) mach
      fun vs regs' mach' => c.Ran s.slots.length regs mach s' regs' mach' ∧
        ∃ ws, (args.mapM fun q => c.eval regs' q.2) = pure ws ∧
          Passed c.symbols mach' (c.base + s'.slots.length) receiver ts vs ws
  | .nil, .nil, _ => .ok rfl fun _ => ⟨.refl hr, [], rfl, .nil⟩
  | .receiver hce haddr hces, .cons he hes, hle => by
    have hle2 := hces.draws.le.trans hle
    rw [Meaning.evalAll]
    refine follows_bind (hce.follows hc hl hkept hr hst he (haddr.draws.le.trans hle2))
      fun v regs1 mach1 hm => ?_
    obtain ⟨hran1, hmeans⟩ := hm
    obtain ⟨mach2, hsteps, hran2, hpoints⟩ := toAddress haddr hle2 hran1.running hmeans
    have hran2 := hran1.trans hran2
    rw [Activation.steps_append]
    refine .seq hsteps ((hces.follows hc hl (Nat.le_trans hkept hran2.given) hran2.running
      (hst.ran hran2 hkept) hes hle).bindPure fun vs regs3 mach3 hm => ?_)
    obtain ⟨hran3, ws, hws, hpassed⟩ := hm
    obtain ⟨adr, heval, hholds⟩ := hpoints.mono hran3 hran3.given
    refine ⟨hran2.trans hran3, .ptr adr :: ws, ?_, .receiver hholds hpassed⟩
    rw [List.mapM_cons, heval, pure_bind, hws, pure_bind]
  | .value hce hv hty ht hces, .cons he hes, hle => by
    have hle2 := hces.draws.le.trans hle
    have hev := follows_toValue (hce.follows hc hl hkept hr hst he (hv.draws.le.trans hle2)) hv hle2
    rw [Meaning.evalAll, ← List.append_assoc]
    refine follows_bind hev fun v regs1 mach1 hm => ?_
    obtain ⟨hran1, hd⟩ := hm
    refine (hces.follows hc hl (Nat.le_trans hkept hran1.given) hran1.running (hst.ran hran1 hkept) hes
      hle).bindPure fun vs regs2 mach2 hm => ?_
    obtain ⟨hran2, ws, hws, hpassed⟩ := hm
    obtain ⟨w, hw, hstands⟩ := hd.mono hran2.registers
    refine ⟨hran1.trans hran2, w :: ws, ?_, .value hstands hpassed⟩
    rw [List.mapM_cons, hw, pure_bind, hws, pure_bind]

/-- The code that stores fields gives what their values mean. -/
theorem FieldsCode.follows (hc : c.Sound meaning) (hl : c.Located names storage places slots)
    (hslot : c.final.slots[k]? = some (.alloca slot t)) (hk : c.housed ≤ k) (hks : k < s.slots.length)
    (hr : c.Running s regs mach) (hst : c.Stored slots store mach) :
    FieldsCode (.ofFindings c.findings) storage struct slot index es s code s' →
    TypedAll c.findings names es ts → s'.Le c.final →
    mach.memory[c.base + k]? = some (.aggregate (done ++ rest)) → done.length = index →
    rest.length = es.length →
    bridge.Follows (Meaning.evalAll c.findings meaning places store es) (c.steps regs code) mach
      fun vs regs' mach' => c.Ran k regs mach s' regs' mach' ∧
        ∃ ws, mach'.memory[c.base + k]? = some (.aggregate (done ++ ws)) ∧
          StandAll c.symbols ts vs ws
  | .nil, .nil, _, hcell, _, hrest => by
    cases List.length_eq_zero_iff.mp hrest
    exact .ok rfl fun _ => ⟨.keep (Nat.le_of_lt hks) (.refl hr), [], hcell, .nil⟩
  | .cons hty ht hce hv hces, .cons he hes, hle, hcell, hdone, hrest => by
    obtain ⟨x, rest, rfl⟩ := List.exists_cons_of_length_eq_add_one hrest
    have hle3 := hces.draws.le.trans hle
    have hle2 := Supply.Le.bump.trans hle3
    have hkept := Nat.le_trans hk (Nat.le_of_lt hks)
    have hev := follows_toValue (hce.follows hc hl hkept hr hst he (hv.draws.le.trans hle2)) hv hle2
    rw [Meaning.evalAll, ← List.append_assoc]
    refine follows_bind hev fun v regs1 mach1 hm => ?_
    obtain ⟨hran1, w, hw, hstands⟩ := hm
    have hsize := (Array.getElem?_eq_some_iff.mp hcell).1
    have hcell1 := (hran1.memory.cells _ hsize (.inl (by omega))).trans hcell
    have hks2 := Nat.lt_of_lt_of_le hks hran1.given
    obtain ⟨regs2, mach2, hstore, hran2, hcell2⟩ := storeField struct _ hle3 hslot hks2
      hran1.running hw hcell1 hdone
    have hran2 := (hran1.keep (Nat.le_of_lt hks)).append hran2 (Nat.le_refl k) (Nat.le_refl _)
    rw [List.append_cons done w rest] at hcell2
    have hrest := hces.follows hc hl hslot hk (by exact hks2) hran2.running (hst.ran hran2 hk) hes hle hcell2
      (by simp [hdone]) (Nat.succ.inj hrest)
    change bridge.Follows _ (c.steps regs1 ([_, _] ++ _)) _ _
    rw [Activation.steps_append]
    refine .seq hstore (hrest.bindPure fun vs regs3 mach3 hm => ?_)
    obtain ⟨hran3, ws, hcell3, hall⟩ := hm
    refine ⟨hran2.append hran3 (Nat.le_refl k) hces.draws.le.length, w :: ws, ?_, .cons hstands hall⟩
    simpa using hcell3

end

end

end StructLang.Ssa
