import StructLang.Proofs.Ssa.BodyKinds
import StructLang.Proofs.Ssa.Dominance

/-!
# Lowered functions pass the check

A well-built function that keeps to the kinds is well formed, if nothing in it is of type `void`. The
entry dominates every block, so slots can be used everywhere; any other register is used only in the
block that assigns it.
-/

namespace StructLang.Ssa

/-! ## Definitions -/

theorem mem_definitions :
    d ∈ definitions blocks ↔ ∃ b i, blocks[d.block]? = some b ∧ b.instrs[d.index]? = some i ∧
      i.dest? = some d.register ∧ i.resultTy = d.ty := by
  simp only [definitions, List.mem_flatMap, List.mem_filterMap, Option.map_eq_some_iff, Prod.exists,
    List.mem_zipIdx_iff_getElem?]
  constructor
  · rintro ⟨b, k, hb, i, n, hi, r, hr, rfl⟩
    exact ⟨b, i, hb, hi, hr, rfl⟩
  · rintro ⟨b, i, hb, hi, hr, hty⟩
    exact ⟨b, d.block, hb, i, d.index, hi, d.register, hr, by rw [hty]⟩

theorem map_register_zipIdx (code : List Instr) (k n : Nat) :
    ((code.zipIdx n).filterMap fun (i, n) =>
      i.dest?.map fun r => (⟨r, k, n, i.resultTy⟩ : Definition)).map Definition.register =
      dests code := by
  induction code generalizing n with
  | nil => rfl
  | cons i rest ih =>
    rw [List.zipIdx_cons, List.filterMap_cons]
    cases h : i.dest? with
    | none | some r => simpa [dests, h] using ih (n + 1)

theorem map_register_definitions (blocks : List Block) :
    (definitions blocks).map Definition.register = blocks.flatMap fun b => dests b.instrs := by
  have hfrom : ∀ k, ((blocks.zipIdx k).flatMap fun b => b.1.instrs.zipIdx.filterMap fun i =>
      i.1.dest?.map fun r => (⟨r, b.2, i.2, i.1.resultTy⟩ : Definition)).map Definition.register =
        blocks.flatMap fun b => dests b.instrs := by
    induction blocks with
    | nil => simp
    | cons b rest ih =>
      intro k
      rw [List.zipIdx_cons, List.flatMap_cons, List.map_append, ih, List.flatMap_cons]
      exact congrArg (· ++ _) (map_register_zipIdx b.instrs k 0)
  exact hfrom 0

theorem checkAssignedOnce_eq_ok
    (h : (seen ++ defs.map Definition.register).Nodup) : checkAssignedOnce seen defs = .ok () := by
  induction defs generalizing seen with
  | nil => rfl
  | cons d rest ih =>
    have hnew : d.register ∉ seen := by
      intro hm
      exact (List.nodup_append.mp h).2.2 _ hm _ (by simp) rfl
    rw [checkAssignedOnce, if_neg (by simpa using hnew)]
    have hperm : (seen ++ d.register :: rest.map Definition.register).Perm
        (d.register :: (seen ++ rest.map Definition.register)) := List.perm_middle
    exact ih (hperm.nodup_iff.mp h)

theorem find?_definitions (hd : d ∈ definitions blocks)
    (h : (blocks.flatMap fun b => dests b.instrs).Nodup) :
    (definitions blocks).find? (fun d' => d'.register == d.register) = some d := by
  rw [← map_register_definitions] at h
  cases hfind : (definitions blocks).find? fun d' => d'.register == d.register with
  | none =>
    have := List.find?_eq_none.mp hfind d hd
    simp at this
  | some d' =>
    have hreg : d'.register = d.register := by simpa using List.find?_some hfind
    have hd' := List.mem_of_find?_eq_some hfind
    exact congrArg some (List.inj_on_of_nodup_map h hd' hd hreg)

/-! ## Types of operands -/

/-- The type of an operand of a kind: addresses are pointers, whatever stands there. -/
def Kind.ty : Kind → Ty
  | value ty => ty
  | place .. | holder _ => .ptr

variable {ty : Ty}

theorem ResultKind.resultTy (h : ResultKind c before i k) : i.resultTy = k.ty := by
  cases h <;> rfl

theorem ArgsKinded.paramTypes {c : KindEnv} {callee : Callee}
    (h : ArgsKinded c before callee.hasReceiver ts args) (hsig : callee.signature = ts) :
    paramTypes callee = .ok (args.map Prod.fst) := by
  have hvalues : ∀ {ts args}, ArgsKinded c before false ts args →
      ts.mapM Ty.ofSource = .ok (args.map Prod.fst) := by
    intro ts args h
    rw [mapM_eq_ok_iff, List.forall₂_map_right_iff]
    generalize hreceiver : false = receiver at h
    induction h with
    | nil => exact .nil
    | receiver => cases hreceiver
    | value ht _ _ ih => exact .cons ht (ih hreceiver)
  rw [Ssa.paramTypes, hsig]
  generalize callee.hasReceiver = receiver at h
  cases h with
  | nil => rfl
  | receiver _ _ hargs => simp [hvalues hargs, bind, Except.bind, pure, Except.pure]
  | value ht _ hargs => simp [ht, hvalues hargs, bind, Except.bind, pure, Except.pure]

theorem suited_ne_void {float : Bool} (h : (if float then ty.isFloat else ty.isInt) = true) :
    ty ≠ .void := by
  rintro rfl
  cases float <;> cases h

theorem admitted_ne_void {op : CastOp} (h : op.admits source target = true) : source ≠ .void := by
  rintro rfl
  cases op <;> cases h

/-- A function as the check of its code sees it, where nothing is of type `void`. -/
structure Visible (m : Module) (f : Function) (c : KindEnv) : Prop where
  strict : c.strict
  module : c.module = m
  params : c.params.map Param.ty = f.params.map Prod.snd
  /-- Only a receiver, which is a struct, is passed by address. -/
  references : ∀ p ∈ c.params, p.byReference = true → p.ty = .ptr ∧ p.source ≠ .void
  receiver : c.receiver ≠ some .void
  fields : ∀ name d, m.struct? name = some d → ∀ ty ∈ d.fields, ty ≠ .void
  callees : ∀ {name ts callee params ret}, c.symbols.resolve name ts = .ok callee →
    paramTypes callee = .ok params → Ty.ofSource callee.ret = .ok ret →
    checkCallee m callee.linkage ret params = .ok ()
  built : f.WellBuilt
  kinded : f.Kinded c

def Function.context (m : Module) (f : Function) : Context :=
  ⟨m, f, Ssa.definitions f.blocks, dominators f.blocks⟩

/-- The instructions come before a place, in its block or in the entry. -/
def Precede (f : Function) (site : Site) (code : List Instr) : Prop :=
  ∀ i ∈ code, ∃ b k n, f.blocks[k]? = some b ∧ b.instrs[n]? = some i ∧
    if k = site.block then n < site.index else k = 0

section

theorem OperandKind.place_ne_void (hv : Visible m f c) {a : Operand}
    (h : OperandKind c before a (.place own ty)) : ty ≠ .void := by
  cases h with
  | slot h =>
    rintro rfl
    exact (hv.kinded.slots _ h).2 hv.strict _ rfl
  | result _ _ hk =>
    cases hk with
    | receiver ha =>
      rintro rfl
      cases ha with
      | holder h => exact hv.receiver h
      | result _ _ hk => cases hk
    | field _ hd hi => exact hv.fields _ _ (hv.module ▸ hd) _ (List.mem_of_getElem? hi)
  | reference h hp hty =>
    exact ofSource_ne_void hty (hv.references _ (List.mem_of_getElem? h) hp).2

theorem operandTy_param (hv : Visible m f c) (h : c.params[index]? = some p) :
    (f.context m).operandTy site (.param index) = .ok p.ty := by
  have hparam : (c.params.map Param.ty)[index]? = some p.ty := by rw [List.getElem?_map, h]; rfl
  rw [hv.params, List.getElem?_map, Option.map_eq_some_iff] at hparam
  obtain ⟨q, hq, hty⟩ := hparam
  simp only [Context.operandTy, Function.context, hq, hty]

variable (hv : Visible m f c) (hp : Precede f site (c.slots ++ before))
  (hsite : site.block < f.blocks.length)
include hv hp hsite

theorem operandTy_register (hi : i ∈ c.slots ++ before) (hr : i.dest? = some r) :
    (f.context m).operandTy site (.register r) = .ok i.resultTy := by
  obtain ⟨b, k, n, hb, hn, hlt⟩ := hp i hi
  have hd : (⟨r, k, n, i.resultTy⟩ : Definition) ∈ definitions f.blocks :=
    mem_definitions.mpr ⟨b, i, hb, hn, hr, rfl⟩
  have hfind := find?_definitions hd hv.built.assigned
  have hreaches : (f.context m).reaches ⟨r, k, n, i.resultTy⟩ site = true := by
    unfold Context.reaches
    split at hlt
    · next heq =>
      rw [if_pos heq]
      simpa using hlt
    · next hne =>
      rw [if_neg hne, hlt]
      exact inTable_dominators_entry hsite
  rw [Context.operandTy]
  simp only [Function.context] at hfind hreaches ⊢
  rw [hfind]
  simp only [hreaches, if_true]

theorem OperandKind.operandTy (h : OperandKind c before v k) (hne : k.ty ≠ .void) :
    (f.context m).operandTy site v = .ok k.ty := by
  cases h with
  | slot h => exact operandTy_register hv hp hsite (List.mem_append_left _ h) rfl
  | holder h =>
    have hslot := hv.kinded.holder (by rw [h]; rfl)
    exact operandTy_register hv hp hsite (List.mem_append_left _ hslot) rfl
  | result h hr hk =>
    rw [← hk.resultTy]
    exact operandTy_register hv hp hsite (List.mem_append_right _ (by simp [h])) hr
  | int h | float h => simp [Context.operandTy, h, Kind.ty]
  | zero => simpa [Context.operandTy, Kind.ty] using hne
  | param h => exact operandTy_param hv h
  | reference h href =>
    rw [operandTy_param hv h, (hv.references _ (List.mem_of_getElem? h) href).1]
    rfl
  | global h =>
    have hstring := hv.module ▸ h hv.strict
    simp [Context.operandTy, Function.context, hstring, Kind.ty]

theorem OperandKind.expect (h : OperandKind c before v (.value ty)) (role : Role) (hne : ty ≠ .void) :
    (f.context m).expect site role v ty = .ok () := by
  rw [Context.expect, h.operandTy hv hp hsite hne]
  simp [bind, Except.bind, expectTy, Kind.ty]

theorem OperandKind.expect_ptr (h : OperandKind c before v k) (role : Role) (hk : k.ty = .ptr) :
    (f.context m).expect site role v .ptr = .ok () := by
  rw [Context.expect, h.operandTy hv hp hsite (by simp [hk]), hk]
  simp [bind, Except.bind, expectTy]

/-! ## Instructions and ends -/

theorem ArgsKinded.checkArgs (func : String) {receiver : Bool}
    (h : ArgsKinded c before receiver ts args) (hts : ∀ ty ∈ ts, ty ≠ .void) :
    (f.context m).checkArgs site func (args.map Prod.fst) args = .ok () := by
  induction h with
  | nil => rfl
  | receiver _ ha _ ih =>
    have harg := ha.expect_ptr hv hp hsite (.argumentTo func) rfl
    rw [List.map_cons, Context.checkArgs, harg, ih (List.forall_mem_cons.mp hts).2]
    simp [bind, Except.bind, expectTy]
  | value ht hval _ ih =>
    obtain ⟨hne, hts⟩ := List.forall_mem_cons.mp hts
    have harg := hval.expect hv hp hsite (.argumentTo func) (ofSource_ne_void ht hne)
    rw [List.map_cons, Context.checkArgs, harg, ih hts]
    simp [bind, Except.bind, expectTy]

theorem InstrKinded.check (h : InstrKinded c before i) :
    (f.context m).checkInstr site i = .ok () := by
  have hmodule : (f.context m).module = c.module := hv.module.symm
  cases h with
  | load ha =>
    have haddr := ha.expect_ptr hv hp hsite .loadAddress rfl
    simp [Context.checkInstr, haddr, ha.place_ne_void hv, bind, Except.bind, pure, Except.pure]
  | receiver ha =>
    have haddr := ha.expect_ptr hv hp hsite .loadAddress rfl
    simp [Context.checkInstr, haddr, bind, Except.bind, pure, Except.pure]
  | store hval ha =>
    have haddr := ha.expect_ptr hv hp hsite .storeAddress rfl
    have hval := hval.expect hv hp hsite .storedValue (ha.place_ne_void hv)
    simp [Context.checkInstr, haddr, hval, bind, Except.bind]
  | hold hval ha =>
    have haddr := ha.expect_ptr hv hp hsite .storeAddress rfl
    have hval := hval.expect_ptr hv hp hsite .storedValue rfl
    simp [Context.checkInstr, haddr, hval, bind, Except.bind]
  | arith hl hr hop | compare hl hr hop =>
    have hl := hl.expect hv hp hsite .leftOperand (suited_ne_void hop)
    have hr := hr.expect hv hp hsite .rightOperand (suited_ne_void hop)
    simp [Context.checkInstr, hl, hr, hop, bind, Except.bind, pure, Except.pure]
  | cast hval hop =>
    have hval := hval.expect hv hp hsite .castOperand (admitted_ne_void hop)
    simp [Context.checkInstr, hval, hop, bind, Except.bind, pure, Except.pure]
  | field hb hd hi =>
    have hb := hb.expect_ptr hv hp hsite .fieldBase rfl
    have hlt := Nat.not_le_of_lt (List.getElem?_eq_some_iff.mp hi).1
    simp [Context.checkInstr, hb, hmodule, hd, hlt, bind, Except.bind, pure, Except.pure]
  | @call dest ret params args name ts callee hr hret hdest hargs hparams hts =>
    have hcallee := hv.module ▸ hv.callees hr hparams hret
    rw [hargs.paramTypes (Symbols.signature_eq hr), Except.ok.injEq] at hparams
    subst hparams
    have hresult : (dest.isSome == (ret == .void)) = false := by
      rw [hdest, bne]
      cases ret == .void <;> rfl
    simp [Context.checkInstr, hmodule, hcallee, hargs.checkArgs hv hp hsite _ (hts hv.strict),
      hresult, bind, Except.bind, pure, Except.pure]

theorem EndKinded.check {t : Terminator} (h : EndKinded c f.ret before t) :
    (f.context m).checkTerminator site t = .ok () := by
  cases h with
  | retNone h => simp [Context.checkTerminator, Function.context, h, expectTy]
  | ret hval hne =>
    simp only [Context.checkTerminator, hval.expect hv hp hsite .returnedValue (hne hv.strict)]
    simp [Function.context, expectTy, bind, Except.bind]
  | branch hval => exact hval.expect hv hp hsite .branchCondition nofun
  | jump | unreachable => rfl

end

/-! ## Functions -/

namespace Visible

variable (h : Visible m f c)
include h

/-- The slots and the code before a place in a block. -/
theorem precede {k : Nat} (hb : f.blocks[k]? = some b)
    (hcode : b.instrs = front c.slots k ++ code) (n : Nat) (label : String) :
    Precede f ⟨k, label, (front c.slots k).length + n⟩ (c.slots ++ code.take n) := by
  intro i hi
  rcases List.mem_append.mp hi with hi | hi
  · -- a slot stands at the start of the entry
    obtain ⟨j, hj⟩ := List.mem_iff_getElem?.mp hi
    have hlt := (List.getElem?_eq_some_iff.mp hj).1
    obtain ⟨entry, hentry⟩ : ∃ entry, f.blocks[0]? = some entry :=
      ⟨_, List.getElem?_eq_getElem
        (Nat.lt_of_le_of_lt (Nat.zero_le k) (List.getElem?_eq_some_iff.mp hb).1)⟩
    obtain ⟨code', hinstrs, -⟩ := h.kinded.blocks 0 entry hentry
    refine ⟨entry, 0, j, hentry, ?_, ?_⟩
    · rw [hinstrs]
      exact (List.getElem?_append_left hlt).trans hj
    · by_cases hk : k = 0
      · subst hk
        simp only [front, if_true]
        omega
      · simp only [Ne.symm hk, if_false]
  · obtain ⟨j, hj⟩ := List.mem_iff_getElem?.mp hi
    rw [List.getElem?_take] at hj
    split at hj
    · next hlt =>
      refine ⟨b, k, (front c.slots k).length + j, hb, ?_, ?_⟩
      · rw [hcode]
        simpa [List.getElem?_append_right] using hj
      · simp only [if_true]
        omega
    · cases hj

theorem checkBlock {k : Nat} (hb : f.blocks[k]? = some b) :
    (f.context m).checkBlock b k = .ok () := by
  have hlt := (List.getElem?_eq_some_iff.mp hb).1
  obtain ⟨code, hinstrs, hcode, -, hends⟩ := h.kinded.blocks k b hb
  have hinstr : ∀ x ∈ b.instrs.zipIdx, (f.context m).checkInstr ⟨k, b.label, x.2⟩ x.1 = .ok () := by
    rintro ⟨i, n⟩ hm
    rw [List.mem_zipIdx_iff_getElem?, hinstrs] at hm
    rcases Nat.lt_or_ge n (front c.slots k).length with hn | hn
    · rw [List.getElem?_append_left hn] at hm
      have hi : i ∈ c.slots := by
        unfold front at hm
        split at hm
        · exact List.mem_of_getElem? hm
        · simp at hm
      obtain ⟨⟨r, ty, rfl, -⟩, hne⟩ := h.kinded.slots i hi
      have hty : ty ≠ .void := fun heq => hne h.strict r (heq ▸ rfl)
      simp [Context.checkInstr, hty]
    · rw [List.getElem?_append_right hn] at hm
      obtain ⟨j, rfl⟩ := Nat.exists_eq_add_of_le hn
      rw [Nat.add_sub_cancel_left] at hm
      exact (hcode.getElem? hm).check h (h.precede hb hinstrs j b.label) hlt
  rw [Context.checkBlock, forM_eq_ok hinstr]
  cases hend : b.terminator with
  | none => rfl
  | some t =>
    have hsite := h.precede hb hinstrs code.length b.label
    rw [List.take_length, ← List.length_append, ← hinstrs] at hsite
    exact (hends t hend).check h hsite hlt

theorem checkShape {k : Nat} (hb : f.blocks[k]? = some b) : checkShape f b k = .ok () := by
  obtain ⟨t, ht, htargets⟩ := h.built.ends b (List.mem_of_getElem? hb)
  rw [Ssa.checkShape, if_neg (by simpa using h.built.positions k b hb), ht]
  refine forM_eq_ok fun target hm => ?_
  have hlt := htargets target hm
  rw [if_neg (by omega)]
  rfl

theorem checkFunction : checkFunction m f = .ok () := by
  have hne : f.blocks.isEmpty = false := List.isEmpty_eq_false_iff.mpr h.built.entry
  have hshape : ∀ x ∈ f.blocks.zipIdx, Ssa.checkShape f x.1 x.2 = .ok () := fun x hx =>
    h.checkShape (List.mem_zipIdx_iff_getElem?.mp hx)
  have honce : checkAssignedOnce [] (definitions f.blocks) = .ok () := by
    refine checkAssignedOnce_eq_ok ?_
    rw [List.nil_append, map_register_definitions]
    exact h.built.assigned
  have hbody : ∀ x ∈ f.blocks.zipIdx, (f.context m).checkBlock x.1 x.2 = .ok () := fun x hx =>
    h.checkBlock (List.mem_zipIdx_iff_getElem?.mp hx)
  rw [Ssa.checkFunction, hne, forM_eq_ok hshape]
  change (checkAssignedOnce [] (definitions f.blocks) >>= fun _ =>
    f.blocks.zipIdx.forM fun x => (f.context m).checkBlock x.1 x.2) = _
  rw [honce]
  exact forM_eq_ok hbody

end Visible

end StructLang.Ssa
