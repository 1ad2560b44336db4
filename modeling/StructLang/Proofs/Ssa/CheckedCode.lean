import StructLang.Proofs.Ssa.Activation
import StructLang.Proofs.Ssa.Faults
import StructLang.Proofs.Ssa.FunctionCheck

/-!
# Code that passes the check

What the check of a module establishes about a function, stated place by place: blocks end in jumps to
existing blocks, a register is assigned once, operands have types. The faults that the check cannot rule
out are named.
-/

namespace StructLang.Ssa

/-! ## What the check says -/

section

variable {α ε : Type}

theorem forM_ok {xs : List α} {g : α → Except ε Unit} (h : xs.forM g = .ok ()) :
    ∀ x ∈ xs, g x = .ok () := by
  induction xs with
  | nil => simp
  | cons x xs ih =>
    change (g x >>= fun _ => xs.forM g) = _ at h
    obtain ⟨u, hx, hxs⟩ := except_bind_eq_ok.mp h
    exact List.forall_mem_cons.mpr ⟨hx, ih hxs⟩

end

/-- What the check of a function establishes. -/
structure Checked (m : Module) (f : Function) : Prop where
  nonempty : f.blocks ≠ []
  shape : ∀ (k : Nat) (b : Block), f.blocks[k]? = some b →
    ∃ t, b.terminator = some t ∧ ∀ target ∈ t.successors, target < f.blocks.length
  once : ((definitions f.blocks).map Definition.register).Nodup
  instr : ∀ (k n : Nat) (b : Block) (i : Instr), f.blocks[k]? = some b → b.instrs[n]? = some i →
    (f.context m).checkInstr ⟨k, b.label, n⟩ i = .ok ()
  ends : ∀ (k : Nat) (b : Block) (t : Terminator), f.blocks[k]? = some b → b.terminator = some t →
    (f.context m).checkTerminator ⟨k, b.label, b.instrs.length⟩ t = .ok ()

theorem nodup_of_checkAssignedOnce (h : checkAssignedOnce seen defs = .ok ()) :
    (defs.map Definition.register).Nodup ∧ ∀ d ∈ defs, d.register ∉ seen := by
  induction defs generalizing seen with
  | nil => simp
  | cons d rest ih =>
    rw [checkAssignedOnce] at h
    split at h
    · cases h
    · next hnew =>
      obtain ⟨hnodup, hseen⟩ := ih h
      constructor
      · rw [List.map_cons, List.nodup_cons]
        refine ⟨fun hm => ?_, hnodup⟩
        obtain ⟨d', hd', heq⟩ := List.mem_map.mp hm
        exact hseen d' hd' (heq ▸ List.mem_cons_self)
      · rw [List.forall_mem_cons]
        exact ⟨by simpa using hnew, fun d' hd' hm => hseen d' hd' (List.mem_cons_of_mem _ hm)⟩

theorem Checked.of_checkFunction (h : checkFunction m f = .ok ()) : Checked m f := by
  rw [checkFunction] at h
  by_cases hne : f.blocks.isEmpty = true
  · simp [hne, throw, throwThe, MonadExceptOf.throw, bind, Except.bind] at h
  rw [if_neg hne] at h
  obtain ⟨_, hshape, h⟩ := except_bind_eq_ok.mp h
  obtain ⟨_, honce, h⟩ := except_bind_eq_ok.mp h
  have hshape := forM_ok hshape
  have hblocks := forM_ok h
  constructor
  · simpa using hne
  · intro k b hb
    have hb := hshape (b, k) (List.mem_zipIdx_iff_getElem?.mpr hb)
    simp only [checkShape] at hb
    split at hb
    · cases hb
    · cases ht : b.terminator with
      | none => simp [ht, throw, throwThe, MonadExceptOf.throw] at hb
      | some t =>
        rw [ht] at hb
        refine ⟨t, rfl, fun target htarget => ?_⟩
        have htarget := forM_ok hb target htarget
        split at htarget
        · cases htarget
        · omega
  · exact (nodup_of_checkAssignedOnce honce).1
  · intro k n b i hb hi
    obtain ⟨_, hinstrs, -⟩ := except_bind_eq_ok.mp
      (hblocks (b, k) (List.mem_zipIdx_iff_getElem?.mpr hb))
    exact forM_ok hinstrs (i, n) (List.mem_zipIdx_iff_getElem?.mpr hi)
  · intro k b t hb ht
    obtain ⟨-, -, hend⟩ := except_bind_eq_ok.mp
      (hblocks (b, k) (List.mem_zipIdx_iff_getElem?.mpr hb))
    rw [ht] at hend
    exact hend

theorem Module.checked (h : m.check = .ok ()) (hf : f ∈ m.functions) : Checked m f := by
  obtain ⟨-, -, h⟩ := except_bind_eq_ok.mp h
  exact .of_checkFunction (mapError_eq_ok (forM_ok h f hf))

namespace Context

variable {c : Context}

theorem expect_eq_ok (h : c.expect site role v ty = .ok ()) : ∃ ty', c.operandTy site v = .ok ty' := by
  obtain ⟨ty', hty, -⟩ := except_bind_eq_ok.mp h
  exact ⟨ty', hty⟩

theorem checkArgs_operands
    (hlength : params.length = args.length) (h : c.checkArgs site func params args = .ok ()) :
    ∀ v ∈ args.map Prod.snd, ∃ ty, c.operandTy site v = .ok ty := by
  induction params generalizing args with
  | nil =>
    obtain rfl := List.length_eq_zero_iff.mp hlength.symm
    simp
  | cons param params ih =>
    cases args with
    | nil => simp
    | cons arg args =>
      obtain ⟨-, -, h⟩ := except_bind_eq_ok.mp h
      obtain ⟨_, hv, h⟩ := except_bind_eq_ok.mp h
      rw [List.map_cons, List.forall_mem_cons]
      exact ⟨expect_eq_ok hv, ih (by simpa using hlength) h⟩

theorem checkInstr_call (h : c.checkInstr site (.call dest func ret params args) = .ok ()) :
    checkCallee c.module func ret params = .ok () ∧ params.length = args.length ∧
      c.checkArgs site func params args = .ok () ∧ dest.isSome = (ret != .void) := by
  simp only [checkInstr] at h
  obtain ⟨_, hcallee, h⟩ := except_bind_eq_ok.mp h
  by_cases hlength : params.length = args.length
  · rw [if_neg (by simpa using hlength)] at h
    obtain ⟨_, hargs, h⟩ := except_bind_eq_ok.mp h
    refine ⟨hcallee, hlength, hargs, ?_⟩
    split at h
    · cases h
    · next hdest =>
      cases dest <;> cases hret : (ret == Ty.void) <;> simp_all [bne]
  · rw [if_pos (by simpa using hlength)] at h
    cases h

theorem checkInstr_operands (h : c.checkInstr site i = .ok ()) :
    ∀ v ∈ i.operands, ∃ ty, c.operandTy site v = .ok ty := by
  cases i with
  | alloca r ty => simp [Instr.operands]
  | load r ty a =>
    obtain ⟨_, ha, -⟩ := except_bind_eq_ok.mp h
    simpa [Instr.operands] using expect_eq_ok ha
  | store ty v a =>
    obtain ⟨_, ha, hv⟩ := except_bind_eq_ok.mp h
    simpa [Instr.operands] using ⟨expect_eq_ok hv, expect_eq_ok ha⟩
  | arith r op ty l r' | compare r pred ty l r' =>
    obtain ⟨_, hl, h⟩ := except_bind_eq_ok.mp h
    obtain ⟨_, hr, -⟩ := except_bind_eq_ok.mp h
    simpa [Instr.operands] using ⟨expect_eq_ok hl, expect_eq_ok hr⟩
  | cast r op v source target =>
    obtain ⟨_, hv, -⟩ := except_bind_eq_ok.mp h
    simpa [Instr.operands] using expect_eq_ok hv
  | field r struct base index =>
    obtain ⟨_, hb, -⟩ := except_bind_eq_ok.mp h
    simpa [Instr.operands] using expect_eq_ok hb
  | call dest func ret params args =>
    obtain ⟨-, hlength, hargs, -⟩ := checkInstr_call h
    exact checkArgs_operands hlength hargs

theorem checkTerminator_operands (h : c.checkTerminator site t = .ok ()) :
    ∀ v ∈ t.operands, ∃ ty, c.operandTy site v = .ok ty := by
  cases t with
  | ret v =>
    cases v with
    | none => simp [Terminator.operands]
    | some v =>
      obtain ⟨-, -, hv⟩ := except_bind_eq_ok.mp h
      simpa [Terminator.operands] using expect_eq_ok hv
  | branch cond t e => simpa [Terminator.operands] using expect_eq_ok h
  | jump target | unreachable => simp [Terminator.operands]

end Context

/-! ## Which faults remain -/

def Instr.CallsForeign (m : Module) : Instr → Prop
  | .call _ name _ _ _ => m.function? name = none
  | _ => False

/-- The register is the result of a call of a foreign function, and nothing else assigns it. -/
def Function.HasForeignResult (m : Module) (f : Function) (r : Register) : Prop :=
  ∃ b ∈ f.blocks, ∃ i ∈ b.instrs, i.dest? = some r ∧ i.CallsForeign m ∧
    ∀ b' ∈ f.blocks, ∀ i' ∈ b'.instrs, i'.dest? = some r → i' = i

def Fault.Remains (m : Module) (f : Function) : Fault → Prop
  | .missingBlock | .unterminated | .missingArgument | .unknownFunction _ => False
  | .unset r => f.HasForeignResult m r
  | _ => True

theorem Fault.Remains.of_isPlain {e : Fault} (h : e.isPlain = true) : e.Remains m f := by
  cases e <;> trivial

end StructLang.Ssa
