import StructLang.Proofs.Ssa.Modules

/-!
# The structure of lowered functions

Whatever types an analysis hands to lowering, a function that comes out is put together well: its blocks
know their positions and lead to each other, and a register is read only after the one instruction that
assigns it.
-/

namespace StructLang.Ssa

/-- What an instruction takes. -/
def Instr.operands : Instr → List Operand
  | alloca .. => []
  | load _ _ a => [a]
  | store _ v a => [v, a]
  | arith _ _ _ l r | compare _ _ _ l r => [l, r]
  | cast _ _ v _ _ => [v]
  | field _ _ base _ => [base]
  | call _ _ _ _ args => args.map Prod.snd

def Terminator.operands : Terminator → List Operand
  | ret (some (_, v)) => [v]
  | branch cond _ _ => [cond]
  | ret none | jump _ | unreachable => []

/-- The register holds the address of a slot that the entry makes. -/
def Function.HasSlot (f : Function) (r : Register) : Prop :=
  ∃ entry ty, f.blocks.head? = some entry ∧ .alloca r ty ∈ entry.instrs

/-- A function is put together well. -/
structure Function.WellBuilt (f : Function) : Prop where
  entry : f.blocks ≠ []
  positions : ∀ (k : Nat) (b : Block), f.blocks[k]? = some b → b.id = k
  ends : ∀ b ∈ f.blocks, ∃ t, b.terminator = some t ∧
    ∀ target ∈ t.successors, target < f.blocks.length
  labels : (f.blocks.map Block.label).Nodup
  /-- No two instructions assign one register. -/
  assigned : (f.blocks.flatMap fun b => dests b.instrs).Nodup
  /-- Slots are made in the entry, before all else. -/
  slots : ∀ (k : Nat) (b : Block), f.blocks[k]? = some b →
    ∀ (n : Nat) (i : Instr), b.instrs[n]? = some i → i.IsAlloca →
      k = 0 ∧ ∀ j ∈ b.instrs.take n, j.IsAlloca
  /-- An instruction reads slots and what was assigned before it in its block. -/
  reads : ∀ b ∈ f.blocks, ∀ (n : Nat) (i : Instr), b.instrs[n]? = some i →
    ∀ r, .register r ∈ i.operands → f.HasSlot r ∨ r ∈ dests (b.instrs.take n)
  endReads : ∀ b ∈ f.blocks, ∀ t, b.terminator = some t → ∀ r, .register r ∈ t.operands →
    f.HasSlot r ∨ r ∈ dests b.instrs

/-! ## Operands that are assigned -/

section

variable {slots : List Instr}

/-- If the operand is a register, a slot or an instruction before it assigned it. -/
def Operand.Known (slots before : List Instr) (v : Operand) : Prop :=
  ∀ r, v = .register r → r ∈ dests (slots ++ before)

theorem Operand.Known.append {v : Operand} (h : v.Known slots before) (code : List Instr) :
    v.Known slots (before ++ code) := by
  intro r hr
  rw [← List.append_assoc, dests_append]
  exact List.mem_append_left _ (h r hr)

variable {d : Draft}

theorem known_last (h : i.dest? = some r) :
    (Operand.register r).Known slots (before ++ [i]) := by
  rintro _ ⟨⟩
  exact mem_dests.mpr ⟨i, by simp, h⟩

theorem known_slot (h : r ∈ dests slots) :
    (Operand.register r).Known slots before := by
  rintro _ ⟨⟩
  rw [dests_append]
  exact List.mem_append_left _ h

theorem known_pair {v w : Operand} (hv : v.Known slots before) (hw : w.Known slots before) :
    ∀ u ∈ [v, w], u.Known slots before :=
  List.forall_mem_cons.mpr ⟨hv, List.forall_mem_singleton.mpr hw⟩

def closing (slots : List Instr) : Discipline where
  instr before i := ¬i.IsAlloca ∧ ∀ v ∈ i.operands, v.Known slots before
  slot := Instr.IsAlloca

def EndClosed (slots before : List Instr) (t : Terminator) : Prop :=
  ∀ v ∈ t.operands, v.Known slots before

def Lowered.Known (slots before : List Instr) : Lowered → Prop
  | .value _ v | .place _ v => v.Known slots before

@[simp] theorem Lowered.known_value :
    (Lowered.value ty v).Known slots before ↔ v.Known slots before := Iff.rfl

@[simp] theorem Lowered.known_place :
    (Lowered.place ty a).Known slots before ↔ a.Known slots before := Iff.rfl

def Scope.Slotted (slots : List Instr) (scope : Scope Slot) : Prop :=
  ∀ name slot, scope.lookup? name = some slot → slot.address ∈ dests slots

theorem Scope.Slotted.push (h : Scope.Slotted slots scope) : Scope.Slotted slots scope.push := h

theorem Scope.Slotted.define (h : Scope.Slotted slots scope) (name : String)
    (hslot : slot.address ∈ dests slots) : Scope.Slotted slots (scope.define name slot) := by
  intro other slot' hl
  rw [Scope.lookup?_define] at hl
  split at hl
  · cases hl
    exact hslot
  · exact h other slot' hl

theorem Draws.subset (h : Draws s code s') (hw : s'.slots ⊆ slots) : s.slots ⊆ slots := by
  obtain ⟨new, hnew, -⟩ := h.slots
  rw [hnew] at hw
  exact List.Subset.trans (List.subset_append_left _ _) hw

theorem mem_dests_allocate {s : Supply} (hw : (s.allocate ty).slots ⊆ slots) :
    s.nextRegister ∈ dests slots :=
  mem_dests.mpr ⟨.alloca s.nextRegister ty, hw (by simp [Supply.allocate]), rfl⟩

theorem Emitted.slot {s : Supply} (ty : Ty) : Emitted (closing slots) before s [] (s.allocate ty) :=
  .allocate ⟨_, _, rfl⟩

/-! ## Expressions -/

theorem ToValue.known (h : ToValue s low v code s') (hlow : low.Known slots before) :
    Leaves (closing slots) before s code s' fun before => v.Known slots before := by
  cases h with
  | value => exact .nil rfl hlow
  | load ht => exact .assign ⟨nofun, by simpa [Instr.operands] using hlow⟩ (known_last rfl)

theorem ToAddress.known (h : ToAddress s low v code s') (hw : s'.slots ⊆ slots)
    (hlow : low.Known slots before) :
    Leaves (closing slots) before s code s' fun before => v.Known slots before := by
  cases h with
  | place => exact .nil rfl hlow
  | @spill _ v t ht =>
    have hslot := mem_dests_allocate hw
    refine ⟨(Emitted.slot t).append (.single ⟨nofun, ?_⟩ rfl), known_slot hslot⟩
    exact known_pair (before.append_nil.symm ▸ hlow) (known_slot hslot)

theorem SlotAddress.known (h : SlotAddress s slot v code s') (hslot : slot.address ∈ dests slots) :
    Leaves (closing slots) before s code s' fun before => v.Known slots before := by
  cases h with
  | direct => exact .nil rfl (known_slot hslot)
  | reference =>
    exact .assign ⟨nofun, by simpa [Instr.operands] using known_slot hslot⟩ (known_last rfl)

theorem CastCode.known (h : CastCode v source target s w code s') (hv : v.Known slots before) :
    Leaves (closing slots) before s code s' fun before => w.Known slots before := by
  cases h with
  | same => exact .nil rfl hv
  | test => exact .assign ⟨nofun, known_pair hv nofun⟩ (known_last rfl)
  | convert => exact .assign ⟨nofun, by simpa [Instr.operands] using hv⟩ (known_last rfl)

theorem CallCode.known (h : CallCode callee params args s v code s')
    (hargs : ∀ a ∈ args, a.2.Known slots before) :
    Leaves (closing slots) before s code s' fun before => v.Known slots before := by
  have hreads : ∀ a ∈ args.map Prod.snd, Operand.Known slots before a := List.forall_mem_map.mpr hargs
  cases h with
  | void => exact ⟨.single ⟨nofun, hreads⟩ rfl, nofun⟩
  | result => exact .assign ⟨nofun, hreads⟩ (known_last rfl)

theorem unaryInstr_known (hv : v.Known slots before) :
    (closing slots).instr before (unaryInstr op t v r) := by
  have hint : ∀ n ty, (Operand.int n ty).Known slots before := fun _ _ _ h => by cases h
  have hfloat : ∀ x ty, (Operand.float x ty).Known slots before := fun _ _ _ h => by cases h
  cases op with
  | neg =>
    cases hf : t.isFloat <;> simp only [unaryInstr, hf, if_true, Bool.false_eq_true, if_false]
    · exact ⟨by rintro ⟨_, _, ⟨⟩⟩, by simpa [Instr.operands] using ⟨hint _ _, hv⟩⟩
    · exact ⟨by rintro ⟨_, _, ⟨⟩⟩, by simpa [Instr.operands] using ⟨hfloat _ _, hv⟩⟩
  | not | bitNot =>
    exact ⟨by rintro ⟨_, _, ⟨⟩⟩, by simpa [unaryInstr, Instr.operands] using ⟨hv, hint _ _⟩⟩

section

mutual

theorem ExprCode.known (hs : Scope.Slotted slots scope) {code : List Instr} (before : List Instr) :
    ExprCode env scope e s low code s' → s'.slots ⊆ slots →
      Leaves (closing slots) before s code s' fun before => low.Known slots before
  | .integer .., _ | .float .., _ | .bool .., _ => .nil rfl nofun
  | .text _ hv, _ => ⟨hv.emitted, nofun⟩
  | .var _ hslot ha, _ => ha.known (hs _ _ (lookup?_of_storage hslot))
  | .unary _ he hv _, hw =>
    (he.known hs before (hv.draws.subset hw)).bind fun hlow => (hv.known hlow).bind fun hval =>
      .assign (unaryInstr_known hval) (known_last (dest?_unaryInstr ..))
  | .compare _ _ _ hl hv hr hv' _ _, hw | .arith _ _ _ hl hv hr hv' _ _, hw =>
    have hw3 := hv'.draws.subset hw
    (hl.known hs before (hv.draws.subset (hr.draws.subset hw3))).bind fun hlow =>
    (hv.known hlow).bind fun hval => (hr.known hs _ hw3).bind fun hlow' =>
    (hv'.known hlow').bind fun hval' =>
      .assign ⟨nofun, known_pair ((hval.append _).append _) hval'⟩ (known_last rfl)
  | .cast _ _ he hv hcast, hw =>
    (he.known hs before (hv.draws.subset (hcast.draws.subset hw))).bind fun hlow =>
      (hv.known hlow).bind fun hval => hcast.known hval
  | .call _ _ _ _ hargs hcall, hw =>
    (hargs.known hs before (hcall.draws.subset hw)).bind fun hknown => hcall.known hknown
  | .construct _ hargs, hw => by
    have hslot := mem_dests_allocate (hargs.draws.subset hw)
    refine ⟨((Emitted.slot _).append (hargs.known hs _ hslot hw)).append (.assign ⟨nofun, ?_⟩), ?_⟩
    · simpa [Instr.operands] using known_slot hslot
    · rw [← List.append_assoc]
      exact known_last rfl
  | .access _ _ _ he ha, hw =>
    (he.known hs before (ha.draws.subset hw)).bind fun hlow => (ha.known hw hlow).bind fun haddr =>
      .assign ⟨nofun, by simpa [Instr.operands] using haddr⟩ (known_last rfl)

theorem ArgsCode.known (hs : Scope.Slotted slots scope) {code : List Instr} (before : List Instr) :
    ArgsCode env scope receiver es s args code s' → s'.slots ⊆ slots →
      Leaves (closing slots) before s code s' fun before => ∀ a ∈ args, a.2.Known slots before
  | .nil, _ => .nil rfl nofun
  | .receiver he ha hes, hw =>
    have hw2 := hes.draws.subset hw
    (he.known hs before (ha.draws.subset hw2)).bind fun hlow => (ha.known hw2 hlow).bind fun hval =>
      have hrest := hes.known hs _ hw
      ⟨hrest.toEmitted, List.forall_mem_cons.mpr ⟨hval.append _, hrest.known⟩⟩
  | .value he hv _ _ hes, hw =>
    (he.known hs before (hv.draws.subset (hes.draws.subset hw))).bind fun hlow =>
    (hv.known hlow).bind fun hval =>
      have hrest := hes.known hs _ hw
      ⟨hrest.toEmitted, List.forall_mem_cons.mpr ⟨hval.append _, hrest.known⟩⟩

theorem FieldsCode.known (hs : Scope.Slotted slots scope) {code : List Instr} (before : List Instr)
    (hslot : slot ∈ dests slots) :
    FieldsCode env scope struct slot index es s code s' → s'.slots ⊆ slots →
      Emitted (closing slots) before s code s'
  | .nil, _ => .nil rfl
  | .cons _ _ he hv hes, hw =>
    (he.known hs before (hv.draws.subset (hes.draws.subset hw))).seq fun hlow =>
    (hv.known hlow).seq fun hval =>
      .cons (.assign ⟨nofun, by simpa [Instr.operands] using known_slot hslot⟩)
        (.cons (.single ⟨nofun, known_pair (hval.append _) (known_last rfl)⟩ rfl) (hes.known hs _ hslot hw))

end

theorem ValueCode.known (hs : Scope.Slotted slots scope)
    (h : ValueCode env scope e s v code s') (hw : s'.slots ⊆ slots)
    (before : List Instr) :
    Leaves (closing slots) before s code s' fun before => v.Known slots before := by
  cases h with
  | mk he hv => exact (he.known hs before (hv.draws.subset hw)).bind fun hlow => hv.known hlow

end

/-! ## Statements -/

theorem Draft.Grows.slots_subset (h : d.Grows d') (hw : d'.slots ⊆ slots) : d.slots ⊆ slots :=
  List.Subset.trans h.slots.subset hw

def Registered (slots : List Instr) (declared : List (Nat × Register)) : Prop :=
  ∀ id r, declared.lookup id = some r → r ∈ dests slots

theorem Draft.Sound.branch_closed (h : d.Sound (closing slots) (EndClosed slots) pending)
    (ho : d.Open) (hs : Scope.Slotted slots scope) (hv : ValueCode env scope e d.supply v code s)
    (hw : s.bump.slots ⊆ slots) :
    ((d.extend s.bump (code ++ [.compare s.nextRegister .ne .i1 v (.int 0 .i1)])).openBranch
      (.register s.nextRegister)).Sound (closing slots) (EndClosed slots)
      ((d.blocks.length + 1) :: (d.blocks.length + 2) :: pending) := by
  have hsound := h.extend ho hv.draws_test fun before =>
    (hv.known hs hw before).seq fun hval => .assign ⟨nofun, known_pair hval nofun⟩
  rw [← d.length_extend s.bump]
  refine hsound.openBranch fun b hb _ _ => List.forall_mem_singleton.mpr ?_
  obtain ⟨before, hinstrs⟩ := Draft.current_extend hb
  rw [hinstrs, ← List.append_assoc]
  exact known_last rfl

theorem endClosed_jump (before : List Instr) (target : Nat) :
    EndClosed slots before (.jump target) := nofun

section

mutual

/-- Every statement keeps the invariant. -/
theorem StmtCode.closed (hd : Registered slots declared) {scope : Scope Slot} {d : Draft}
    (hs : Scope.Slotted slots scope) (ho : d.Open)
    (h : d.Sound (closing slots) (EndClosed slots) pending) :
    StmtCode ⟨env, declared⟩ scope stmt d scope' d' → d'.slots ⊆ slots →
      d'.Sound (closing slots) (EndClosed slots) pending ∧ Scope.Slotted slots scope'
  | .declare hslot _ _ hv, hw => by
    have haddr := hd _ _ (declaredSlot_eq_ok hslot).1
    refine ⟨h.extend ho (hv.draws.append (.effect rfl)) fun before => ?_, hs.define _ haddr⟩
    exact (hv.known hs hw before).seq fun hval =>
      .single ⟨nofun, known_pair hval (known_slot haddr)⟩ rfl
  | .declareZero hslot _ _, hw => by
    have haddr := hd _ _ (declaredSlot_eq_ok hslot).1
    refine ⟨h.extend ho (.effect rfl) fun before => ?_, hs.define _ haddr⟩
    exact .single ⟨nofun, known_pair nofun (known_slot haddr)⟩ rfl
  | .assign hslot hv ha _, hw => by
    refine ⟨h.extend ho (hv.draws.append (ha.draws.append (.effect rfl))) fun before => ?_, hs⟩
    exact (hv.known hs (ha.draws.subset hw) before).seq fun hval =>
      (ha.known (hs _ _ (lookup?_of_storage hslot))).seq fun haddr =>
        .single ⟨nofun, known_pair (hval.append _) haddr⟩ rfl
  | .branch hv ht, hw => by
    rw [Draft.slots_closeArm, Draft.slots_closeArm] at hw
    have hb := hv.branches ho
    have hg := ht.grows hb.lt
    have h1 := ht.closed hd hs.push (h.branch_closed ho hs hv (hg.slots_subset hw)) hw
    exact ⟨hb.sound_merge hg endClosed_jump (.refl (hb.open_else hg _).lt)
      (hb.sound_else hg endClosed_jump h1), hs⟩
  | .branchElse hv ht he, hw => by
    rw [Draft.slots_closeArm] at hw
    have hb := hv.branches ho
    have hg := ht.grows hb.lt
    have hg1 := he.grows (hb.open_else hg _).lt
    have hw1 := hg1.slots_subset hw
    rw [Draft.slots_closeArm] at hw1
    have h1 := ht.closed hd hs.push (h.branch_closed ho hs hv (hg.slots_subset hw1)) hw1
    have h2 := he.closed hd hs.push (hb.sound_else hg endClosed_jump h1) hw
    exact ⟨hb.sound_merge hg endClosed_jump hg1 h2, hs⟩
  | .retNone, _ => ⟨h.terminate (fun _ _ => nofun) nofun, hs⟩
  | .ret _ _ hv, hw => by
    have hsound := h.extend ho hv.draws fun before => (hv.known hs hw before).toEmitted
    refine ⟨hsound.terminate (fun b hb => List.forall_mem_singleton.mpr ?_) nofun, hs⟩
    obtain ⟨before, hinstrs⟩ := Draft.current_extend hb
    rw [hinstrs]
    exact (hv.known hs hw before).known
  | .expr hv, hw => ⟨h.extend ho hv.draws fun before => (hv.known hs hw before).toEmitted, hs⟩

theorem StmtsCode.closed (hd : Registered slots declared) {scope : Scope Slot} {d : Draft}
    (hs : Scope.Slotted slots scope) (h : d.Sound (closing slots) (EndClosed slots) pending) :
    StmtsCode ⟨env, declared⟩ scope stmts d d' → d'.slots ⊆ slots →
      d'.Sound (closing slots) (EndClosed slots) pending
  | .nil, _ => h
  | .cons hstmt hrest, hw => by
    have ho := (Draft.grows_reopen h.lt).2
    have hw1 := (hrest.grows (hstmt.grows ho).lt).slots_subset hw
    obtain ⟨h1, hs1⟩ := hstmt.closed hd hs ho h.reopen hw1
    exact hrest.closed hd hs1 h1 hw

theorem BlockCode.closed (hd : Registered slots declared) {scope : Scope Slot} {d : Draft}
    (hs : Scope.Slotted slots scope) (h : d.Sound (closing slots) (EndClosed slots) pending) :
    BlockCode ⟨env, declared⟩ scope b d d' → d'.slots ⊆ slots →
      d'.Sound (closing slots) (EndClosed slots) pending
  | .mk hc, hw => hc.closed hd hs h hw

end

end

/-! ## Functions -/

theorem ParamsCode.closed (h : ParamsCode index scope params s scope' code s')
    (hs : Scope.Slotted slots scope) (hw : s'.slots ⊆ slots) :
    (∀ before, Emitted (closing slots) before s code s') ∧ Scope.Slotted slots scope' := by
  induction h with
  | nil => exact ⟨fun _ => .nil rfl, hs⟩
  | @cons index scope p rest s scope' code s' hrest ih =>
    have hslot : s.nextRegister ∈ dests slots :=
      mem_dests_allocate (hrest.draws.subset hw)
    obtain ⟨hcode, hinner⟩ := ih (hs.define p.name hslot) hw
    exact ⟨fun before => (Emitted.slot p.ty).append
      (.cons (.single ⟨nofun, known_pair nofun (known_slot hslot)⟩ rfl) (hcode _)), hinner⟩

theorem HoistCode.closed (h : HoistCode env ids s declared s') (hw : s'.slots ⊆ slots) :
    (∀ before, Emitted (closing slots) before s [] s') ∧ Registered slots declared := by
  induction h with
  | nil => exact ⟨fun _ => .nil rfl, nofun⟩
  | @cons id ids ty t s declared s' hty ht hids ih =>
    obtain ⟨hcode, hrest⟩ := ih hw
    refine ⟨fun before => (Emitted.slot t).append (hcode _), fun other r hl => ?_⟩
    rw [List.lookup_cons] at hl
    split at hl
    · cases hl
      exact mem_dests_allocate (hids.draws.subset hw)
    · exact hrest other r hl

theorem BodyCode.closed (h : BodyCode env g params ret d d') (hw : d'.slots ⊆ slots) (ho : d.Open)
    (hsound : d.Sound (closing slots) (EndClosed slots) []) :
    d'.Sound (closing slots) (EndClosed slots) [] ∧ Draft.Sound.Closed [] d' := by
  cases h with
  | @mk scope code s1 declared s2 d1 hparams hhoist hblock =>
    have hgrows := hblock.grows (ho.extend s2 code).lt
    have hw1 := (Draft.grows_terminateIfOpen hgrows.lt _).slots_subset hw
    have hw2 : s2.slots ⊆ slots := hgrows.slots_subset hw1
    obtain ⟨hslots, hregistered⟩ := hhoist.closed hw2
    obtain ⟨hstore, hscope⟩ :=
      hparams.closed nofun (hhoist.draws.subset hw2)
    have hentry : (d.extend s2 code).Sound (closing slots) (EndClosed slots) [] := by
      refine hsound.extend ho ?_ fun before => ?_
      · simpa using hparams.draws.append hhoist.draws
      · simpa using (hstore before).append (hslots _)
    refine (hblock.closed hregistered hscope hentry hw1).terminateIfOpen
      (fun before => ?_) ?_
    · split <;> exact nofun
    · split <;> simp [Terminator.successors]

end

theorem getElem?_front (h : (front slots k ++ code)[n]? = some i) :
    (k = 0 ∧ n < slots.length ∧ i ∈ slots) ∨
      ∃ j, code[j]? = some i ∧ (front slots k ++ code).take n = front slots k ++ code.take j := by
  rcases Nat.lt_or_ge n (front slots k).length with hn | hn
  · rw [List.getElem?_append_left hn] at h
    unfold front at h hn
    split at h
    · next hk =>
      rw [if_pos hk] at hn
      exact .inl ⟨hk, hn, List.mem_of_getElem? h⟩
    · cases h
  · obtain ⟨j, rfl⟩ := Nat.exists_eq_add_of_le hn
    rw [List.getElem?_append_right hn, Nat.add_sub_cancel_left] at h
    exact .inr ⟨j, h, List.take_length_add_append _⟩

theorem map_label_withSlots (slots : List Instr) (blocks : List Block) :
    (withSlots slots blocks).map Block.label = blocks.map Block.label := by
  cases blocks <;> rfl

/-- A draft whose code is closed and whose blocks have ends gives a well-built function. -/
theorem wellBuilt_of_sound {f : Function}
    (h : d.Sound (closing d.slots) (EndClosed d.slots) []) (hclosed : Draft.Sound.Closed [] d)
    (hf : f.blocks = withSlots d.slots d.blocks) : f.WellBuilt := by
  have hne : d.blocks ≠ [] := List.length_pos_iff.mp (Nat.lt_of_le_of_lt (Nat.zero_le _) h.lt)
  have hlength : f.blocks.length = d.blocks.length := by rw [hf, length_withSlots]
  have hslot : ∀ r ∈ dests d.slots, f.HasSlot r := by
    intro r hr
    obtain ⟨i, hi, hdest⟩ := mem_dests.mp hr
    obtain ⟨r', ty, rfl⟩ := h.slots i hi
    cases hdest
    cases hb : d.blocks with
    | nil => exact absurd hb hne
    | cons entry rest =>
      rw [hb] at hf
      exact ⟨_, ty, by rw [hf]; rfl, List.mem_append_left _ hi⟩
  have hknown : ∀ {r : Register} {before : List Instr} (k : Nat), r ∈ dests (d.slots ++ before) →
      f.HasSlot r ∨ r ∈ dests (front d.slots k ++ before) := by
    intro r before k hr
    rw [dests_append] at hr ⊢
    exact (List.mem_append.mp hr).imp (hslot r) (List.mem_append_right _)
  have hblock : ∀ b ∈ f.blocks, ∃ (k : Nat) (b' : Block), d.blocks[k]? = some b' ∧
      b = { b' with instrs := front d.slots k ++ b'.instrs } := by
    intro b hb
    obtain ⟨k, hk⟩ := List.mem_iff_getElem?.mp hb
    obtain ⟨b', hb', heq⟩ := getElem?_withSlots (hf ▸ hk)
    exact ⟨k, b', hb', heq⟩
  refine ⟨?_, ?_, ?_, ?_, ?_, ?_, ?_, ?_⟩
  · rwa [← List.length_pos_iff, hlength, List.length_pos_iff]
  · intro k b hk
    obtain ⟨b', hb', rfl⟩ := getElem?_withSlots (hf ▸ hk)
    exact (h.blocks k b' hb').id
  · intro b hb
    obtain ⟨k, b', hb', rfl⟩ := hblock b hb
    cases ht : b'.terminator with
    | none => cases hclosed k b' hb' ht
    | some t => exact ⟨t, rfl, hlength ▸ ((h.blocks k b' hb').ends t ht).2⟩
  · rw [hf, map_label_withSlots]
    exact h.labels
  · rw [hf, dests_withSlots hne]
    exact h.registers.1
  · intro k b hk n i hi hsl
    obtain ⟨b', hb', rfl⟩ := getElem?_withSlots (hf ▸ hk)
    rcases getElem?_front hi with ⟨rfl, hn, -⟩ | ⟨j, hj, -⟩
    · refine ⟨rfl, fun i' hi' => h.slots i' ?_⟩
      simp only [front, if_true, List.take_append_of_le_length (Nat.le_of_lt hn)] at hi'
      exact List.mem_of_mem_take hi'
    · exact absurd hsl ((h.blocks k b' hb').code.getElem? hj).1
  · intro b hb n i hi r hr
    obtain ⟨k, b', hb', rfl⟩ := hblock b hb
    rcases getElem?_front hi with ⟨-, -, hsl⟩ | ⟨j, hj, htake⟩
    · obtain ⟨r', ty, rfl⟩ := h.slots i hsl
      cases hr
    · rw [htake]
      exact hknown k (((h.blocks k b' hb').code.getElem? hj).2 _ hr r rfl)
  · intro b hb t ht r hr
    obtain ⟨k, b', hb', rfl⟩ := hblock b hb
    exact hknown k (((h.blocks k b' hb').ends t ht).1 _ hr r rfl)

theorem FunctionCode.wellBuilt {strings : List Constant}
    (h : FunctionCode env strings g lowered strings') : lowered.WellBuilt := by
  cases h with
  | mk _ _ hbody =>
    obtain ⟨hsound, hclosed⟩ := hbody.closed (List.Subset.refl _) ⟨_, rfl, rfl⟩
      (Draft.sound_start strings)
    exact wellBuilt_of_sound hsound hclosed rfl

/-- Lowering gives well-built functions, whatever the analysis says of the program. -/
theorem lowering_wellBuilt {name : String} {p : Program} {analysis : Analysis} {m : Module}
    (h : Module.ofProgram name p analysis = .ok m) : ∀ f ∈ m.functions, f.WellBuilt := by
  intro f hf
  obtain ⟨-, -, hfunctions⟩ := ofProgram_eq_ok h
  obtain ⟨g, -, strings, strings', hcode, -⟩ := exists_of_forall₂ hfunctions.forall₂.2 hf
  exact hcode.wellBuilt

theorem lowering_wellBuilt_broken : ∃ p next m,
    Program.parse Program.brokenSource 0 0 = .ok (p, next) ∧ p.analyze.hasErrors = true ∧
      Module.ofProgram "broken" p p.analyze = .ok m ∧ m.functions.length = 2 ∧
      ∀ f ∈ m.functions, f.WellBuilt := by
  obtain ⟨p, next, hparse, htest⟩ := Program.exists_of_parses
    (show Program.parses Program.brokenSource (fun p => p.analyze.hasErrors &&
      (match Module.ofProgram "broken" p p.analyze with
        | .ok m => m.functions.length == 2
        | .error _ => false)) = true by decide +kernel)
  rw [Bool.and_eq_true] at htest
  obtain ⟨herrors, hok⟩ := htest
  cases hm : Module.ofProgram "broken" p p.analyze with
  | error e =>
    rw [hm] at hok
    cases hok
  | ok m =>
    rw [hm] at hok
    exact ⟨p, next, m, hparse, herrors, hm, by simpa using hok, lowering_wellBuilt hm⟩

end StructLang.Ssa
