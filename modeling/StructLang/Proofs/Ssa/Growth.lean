import StructLang.Proofs.Numbering
import StructLang.Proofs.Ssa.Code

/-!
# How SSA code grows

Lowering only adds: constants and slots go to the end of their lists, code goes to the end of a block, and
every register that is assigned is a fresh one. `Draws` says so of code drawn from a supply and `Grows` of
drafts.
-/

namespace StructLang.Ssa

def dests (code : List Instr) : List Register := code.filterMap Instr.dest?

@[simp] theorem dests_nil : dests [] = [] := rfl

@[simp] theorem dests_append (c c' : List Instr) : dests (c ++ c') = dests c ++ dests c' :=
  List.filterMap_append

theorem mem_dests : r ∈ dests code ↔ ∃ i ∈ code, i.dest? = some r :=
  List.mem_filterMap

def Instr.IsAlloca (i : Instr) : Prop := ∃ r ty, i = .alloca r ty

/-- What a later supply has beyond an earlier one: more constants, and slots with fresh registers. -/
structure Supply.Le (s s' : Supply) : Prop where
  strings : s.strings <+: s'.strings
  registers : s.nextRegister ≤ s'.nextRegister
  slots : ∃ new, s'.slots = s.slots ++ new ∧ Numbered s.nextRegister s'.nextRegister (dests new) ∧
    ∀ i ∈ new, i.IsAlloca

namespace Supply.Le

variable {s : Supply}

theorem refl : s.Le s := ⟨List.prefix_rfl, Nat.le_refl _, [], by simp, .nil, by simp⟩

theorem trans (h : s.Le s') (h' : s'.Le s'') : s.Le s'' := by
  obtain ⟨new, hnew, hnum, halloca⟩ := h.slots
  obtain ⟨new', hnew', hnum', halloca'⟩ := h'.slots
  refine ⟨h.strings.trans h'.strings, Nat.le_trans h.registers h'.registers, new ++ new', ?_, ?_,
    List.forall_mem_append.mpr ⟨halloca, halloca'⟩⟩
  · rw [hnew', hnew, List.append_assoc]
  · rw [dests_append]
    exact hnum.append hnum' h.registers h'.registers

theorem bump : s.Le s.bump :=
  ⟨List.prefix_rfl, Nat.le_succ _, [], by simp [Supply.bump], .nil, by simp⟩

end Supply.Le

/-- Code drawn from a supply: what it added, with every register assigned once. -/
structure Draws (s : Supply) (code : List Instr) (s' : Supply) : Prop where
  strings : s.strings <+: s'.strings
  registers : s.nextRegister ≤ s'.nextRegister
  slots : ∃ new, s'.slots = s.slots ++ new ∧ (∀ i ∈ new, i.IsAlloca) ∧
    Numbered s.nextRegister s'.nextRegister (dests new ++ dests code)

namespace Draws

theorem nil : Draws s [] s :=
  ⟨List.prefix_rfl, Nat.le_refl _, [], by simp, by simp, .nil⟩

theorem append (h : Draws s c s') (h' : Draws s' c' s'') : Draws s (c ++ c') s'' := by
  obtain ⟨new, hnew, halloca, hnum⟩ := h.slots
  obtain ⟨new', hnew', halloca', hnum'⟩ := h'.slots
  refine ⟨h.strings.trans h'.strings, Nat.le_trans h.registers h'.registers, new ++ new', ?_, ?_, ?_⟩
  · rw [hnew', hnew, List.append_assoc]
  · exact List.forall_mem_append.mpr ⟨halloca, halloca'⟩
  · refine (hnum.append hnum' h.registers h'.registers).perm ?_
    simp only [dests_append, List.append_assoc]
    refine .append_left _ ?_
    simp only [← List.append_assoc]
    exact .append_right _ List.perm_append_comm

theorem assign (h : i.dest? = some s.nextRegister) : Draws s [i] s.bump := by
  refine ⟨List.prefix_rfl, Nat.le_succ _, [], by simp [Supply.bump], by simp, ?_⟩
  simpa [dests, h] using
    (show Numbered s.nextRegister s.bump.nextRegister [s.nextRegister] from
      .single _ (Nat.le_refl _) (Nat.lt_succ_self _))

theorem effect (h : i.dest? = none) : Draws s [i] s := by
  refine ⟨List.prefix_rfl, Nat.le_refl _, [], by simp, by simp, ?_⟩
  simpa [dests, h] using Numbered.nil

theorem allocate (ty : Ty) : Draws s [] (s.allocate ty) := by
  refine ⟨List.prefix_rfl, Nat.le_succ _, [.alloca s.nextRegister ty], rfl, ?_, ?_⟩
  · simp [Instr.IsAlloca]
  · exact Numbered.single s.nextRegister (Nat.le_refl _) (Nat.lt_succ_self _)

theorem cons (h : Draws s [i] s') (h' : Draws s' c s'') : Draws s (i :: c) s'' := h.append h'

theorem le (h : Draws s c s') : s.Le s' := by
  obtain ⟨new, hnew, halloca, hnum⟩ := h.slots
  exact ⟨h.strings, h.registers, new, hnew, ⟨(List.nodup_append.mp hnum.1).1,
    fun r hr => hnum.2 r (List.mem_append_left _ hr)⟩, halloca⟩

end Draws

theorem ToValue.draws (h : ToValue s low v code s') : Draws s code s' := by
  cases h with
  | value => exact .nil
  | load => exact .assign rfl

theorem ToAddress.draws (h : ToAddress s low v code s') : Draws s code s' := by
  cases h with
  | place => exact .nil
  | spill => exact (Draws.allocate _).append (.effect rfl)

theorem SlotAddress.draws (h : SlotAddress s slot v code s') : Draws s code s' := by
  cases h with
  | direct => exact .nil
  | reference => exact .assign rfl

theorem Interned.draws (h : Interned text s name s') : Draws s [] s' := by
  cases h with
  | old => exact .nil
  | new => exact ⟨List.prefix_append _ _, Nat.le_refl _, [], by simp, by simp, .nil⟩

theorem CastCode.draws (h : CastCode v source target s w code s') : Draws s code s' := by
  cases h with
  | same => exact .nil
  | test | convert => exact .assign rfl

theorem CallCode.draws (h : CallCode callee params args s v code s') : Draws s code s' := by
  cases h with
  | void => exact .effect rfl
  | result => exact .assign rfl

theorem dest?_unaryInstr (op : UnaryOp) (ty : Ty) (v : Operand) (r : Register) :
    (unaryInstr op ty v r).dest? = some r := by
  cases op with
  | neg => cases h : ty.isFloat <;> simp [unaryInstr, h, Instr.dest?]
  | not | bitNot => rfl

mutual

theorem ExprCode.draws {s s' : Supply} {code : List Instr} :
    ExprCode env scope e s low code s' → Draws s code s'
  | .integer .. | .float .. | .bool .. => .nil
  | .text _ hv => hv.draws
  | .var _ _ ha => ha.draws
  | .unary _ he hv _ => he.draws.append (hv.draws.append (.assign (dest?_unaryInstr ..)))
  | .compare _ _ _ hl hv hr hw _ _ | .arith _ _ _ hl hv hr hw _ _ =>
    hl.draws.append (hv.draws.append (hr.draws.append (hw.draws.append (.assign rfl))))
  | .cast _ _ he hv hw => he.draws.append (hv.draws.append hw.draws)
  | .call _ _ _ _ hargs hcall => hargs.draws.append hcall.draws
  | .construct _ hargs => ((Draws.allocate _).append hargs.draws).append (.assign rfl)
  | .access _ _ _ he ha => he.draws.append (ha.draws.append (.assign rfl))

theorem ArgsCode.draws {s s' : Supply} {code : List Instr} :
    ArgsCode env scope receiver es s args code s' → Draws s code s'
  | .nil => .nil
  | .receiver he ha hes => he.draws.append (ha.draws.append hes.draws)
  | .value he hv _ _ hes => he.draws.append (hv.draws.append hes.draws)

theorem FieldsCode.draws {s s' : Supply} {code : List Instr} :
    FieldsCode env scope struct slot index es s code s' → Draws s code s'
  | .nil => .nil
  | .cons _ _ he hv hes => he.draws.append (hv.draws.append
      (.cons (.assign rfl) (.cons (.effect rfl) hes.draws)))

end

theorem ValueCode.draws (h : ValueCode env scope e s v code s') : Draws s code s' := by
  cases h with
  | mk he hv => exact he.draws.append hv.draws

theorem ValueCode.draws_test (h : ValueCode env scope e s v code s') :
    Draws s (code ++ [.compare s'.nextRegister .ne .i1 v (.int 0 .i1)]) s'.bump :=
  h.draws.append (.assign rfl)

theorem HoistCode.draws (h : HoistCode env ids s declared s') : Draws s [] s' := by
  induction h with
  | nil => exact .nil
  | cons _ _ _ ih => exact (Draws.allocate _).append ih

theorem ParamsCode.draws (h : ParamsCode index scope params s scope' code s') :
    Draws s code s' := by
  induction h with
  | nil => exact .nil
  | cons _ ih => exact (Draws.allocate _).append (.cons (.effect rfl) ih)

/-! ## Drafts -/

section

variable {β : Type}

theorem map_modify (blocks : List Block) (k : Nat)
    (h : ∀ b, f (g b) = f b) : (blocks.modify k g).map f = blocks.map f := by
  induction blocks generalizing k with
  | nil => simp
  | cons b rest ih =>
    cases k with
    | zero => simp [h]
    | succ k => simp [ih]

theorem flatMap_modify (blocks : List Block) (k : Nat)
    (h : ∀ b, f (g b) = f b) : (blocks.modify k g).flatMap f = blocks.flatMap f := by
  rw [List.flatMap_def, map_modify _ _ h, ← List.flatMap_def]

theorem perm_flatMap_modify (read? : Instr → Option β) (blocks : List Block)
    (hk : k < blocks.length) (code : List Instr) :
    ((blocks.modify k fun b => b.append code).flatMap fun b => b.instrs.filterMap read?).Perm
      ((blocks.flatMap fun b => b.instrs.filterMap read?) ++ code.filterMap read?) := by
  induction blocks generalizing k with
  | nil => simp at hk
  | cons b rest ih =>
    cases k with
    | zero =>
      simp only [List.modify_zero_cons, List.flatMap_cons, Block.append, List.filterMap_append,
        List.append_assoc]
      exact .append_left _ List.perm_append_comm
    | succ k =>
      simp only [List.modify_succ_cons, List.flatMap_cons, List.append_assoc]
      exact .append_left _ (ih (Nat.lt_of_succ_lt_succ hk))

end

def Block.Le (b b' : Block) : Prop :=
  b' = b ∨ b.terminator = none ∧ ∃ code t, b' = ⟨b.id, b.label, b.instrs ++ code, t⟩

namespace Block.Le

variable {b : Block}

theorem refl : b.Le b := .inl rfl

theorem trans (h : b.Le b') (h' : b'.Le b'') : b.Le b'' := by
  rcases h with rfl | ⟨hopen, code, t, rfl⟩
  · exact h'
  · rcases h' with rfl | ⟨-, code', t', rfl⟩
    · exact .inr ⟨hopen, code, t, rfl⟩
    · exact .inr ⟨hopen, code ++ code', t', by simp⟩

theorem instrs (h : b.Le b') : b.instrs <+: b'.instrs := by
  rcases h with rfl | ⟨-, code, t, rfl⟩
  · exact List.prefix_refl _
  · exact List.prefix_append _ _

theorem append (h : b.terminator = none) (code : List Instr) : b.Le (b.append code) :=
  .inr ⟨h, code, none, by rw [Block.append, h]⟩

theorem terminate (h : b.terminator = none) (t : Terminator) :
    b.Le { b with terminator := some t } :=
  .inr ⟨h, [], some t, by simp⟩

end Block.Le

namespace Draft

def Open (d : Draft) : Prop := ∃ b, d.blocks[d.current]? = some b ∧ b.terminator = none

theorem Open.lt {d : Draft} (h : d.Open) : d.current < d.blocks.length := by
  obtain ⟨b, hb, -⟩ := h
  exact (List.getElem?_eq_some_iff.mp hb).1

theorem open_of_not_isTerminated {d : Draft} (hlt : d.current < d.blocks.length)
    (h : d.isTerminated = false) : d.Open := by
  refine ⟨d.blocks[d.current], List.getElem?_eq_getElem hlt, ?_⟩
  simpa [isTerminated, List.getElem?_eq_getElem hlt] using h

/-- What later drafts of a function keep of an earlier one: only its current block changes, and code goes
on there or in a new block. -/
structure Grows (d d' : Draft) : Prop where
  supply : d.supply.Le d'.supply
  lt : d'.current < d'.blocks.length
  current : d'.current = d.current ∨ d.blocks.length ≤ d'.current
  length : d.blocks.length ≤ d'.blocks.length
  frame : ∀ k < d.blocks.length, k ≠ d.current → d'.blocks[k]? = d.blocks[k]?
  head : ∀ b, d.blocks[d.current]? = some b → ∃ b', d'.blocks[d.current]? = some b' ∧ b.Le b'

namespace Grows

variable {d : Draft}

theorem strings (h : d.Grows d') : d.strings <+: d'.strings := h.supply.strings

theorem slots (h : d.Grows d') : d.slots <+: d'.slots := by
  obtain ⟨new, hnew, -⟩ := h.supply.slots
  exact ⟨new, hnew.symm⟩

theorem refl (h : d.current < d.blocks.length) : d.Grows d :=
  ⟨.refl, h, .inl rfl, Nat.le_refl _, fun _ _ _ => rfl,
    fun b hb => ⟨b, hb, .refl⟩⟩

theorem block (h : d.Grows d') {k : Nat} (hb : d.blocks[k]? = some b) :
    ∃ b', d'.blocks[k]? = some b' ∧ b.Le b' := by
  by_cases hk : k = d.current
  · subst hk
    exact h.head b hb
  · exact ⟨b, (h.frame k (List.getElem?_eq_some_iff.mp hb).1 hk).trans hb, .refl⟩

theorem trans (h : d.Grows d') (h' : d'.Grows d'') : d.Grows d'' := by
  have hcurrent := h.current
  have hlength := h.length
  refine ⟨h.supply.trans h'.supply, h'.lt, ?_, Nat.le_trans h.length h'.length, ?_, ?_⟩
  · have := h'.current
    omega
  · intro k hk hne
    rw [h'.frame k (by omega) (by omega), h.frame k hk hne]
  · intro b hb
    obtain ⟨b', hb', hle⟩ := h.head b hb
    obtain ⟨b'', hb'', hle'⟩ := h'.block hb'
    exact ⟨b'', hb'', hle.trans hle'⟩

theorem modify (hlt : d.current < d.blocks.length)
    (hf : ∀ b, d.blocks[d.current]? = some b → b.Le (f b)) (hsupply : d.supply.Le d'.supply)
    (hcurrent : d'.current = d.current) (hblocks : d'.blocks = d.blocks.modify d.current f) :
    d.Grows d' := by
  refine ⟨hsupply, ?_, .inl hcurrent, ?_, ?_, ?_⟩
  · simpa [hcurrent, hblocks] using hlt
  · simp [hblocks]
  · intro k _ hne
    rw [hblocks, List.getElem?_modify_ne _ _ (Ne.symm hne)]
  · intro b hb
    exact ⟨f b, by simp [hblocks, List.getElem?_modify_eq, hb], hf b hb⟩

end Grows

theorem Open.block {d : Draft} (h : d.Open) {b : Block} (hb : d.blocks[d.current]? = some b) :
    b.terminator = none := by
  obtain ⟨b', hb', hopen⟩ := h
  cases hb.symm.trans hb'
  exact hopen

theorem Open.extend {d : Draft} (h : d.Open) (s : Supply) (code : List Instr) :
    (d.extend s code).Open := by
  obtain ⟨b, hb, hopen⟩ := h
  exact ⟨b.append code, by simp [Draft.extend, List.getElem?_modify_eq, hb], hopen⟩

theorem Open.grows_extend {d : Draft} (h : d.Open) (hd : Draws d.supply code s) :
    d.Grows (d.extend s code) :=
  .modify h.lt (fun _ hb => .append (h.block hb) code) hd.le rfl rfl

theorem Open.grows_terminate {d : Draft} (h : d.Open) (t : Terminator) :
    d.Grows (d.terminate t) :=
  .modify h.lt (fun _ hb => .terminate (h.block hb) t) .refl rfl rfl

theorem grows_terminateIfOpen {d : Draft} (h : d.current < d.blocks.length) (t : Terminator) :
    d.Grows (d.terminateIfOpen t) := by
  unfold terminateIfOpen
  split
  · exact .refl h
  · next hopen => exact (open_of_not_isTerminated h (by simpa using hopen)).grows_terminate t

theorem getElem?_terminateIfOpen {d : Draft} (hk : k ≠ d.current) (t : Terminator) :
    (d.terminateIfOpen t).blocks[k]? = d.blocks[k]? := by
  unfold terminateIfOpen
  split
  · rfl
  · exact List.getElem?_modify_ne _ _ (Ne.symm hk)

theorem length_openBranch (d : Draft) (v : Operand) :
    (d.openBranch v).blocks.length = d.blocks.length + 3 := by
  simp [openBranch, addBlock, bumpLabel, terminate, enter]

theorem getElem?_openBranch {d : Draft} (hlt : d.current < d.blocks.length) (v : Operand) (k : Nat)
    (hk : k < 3) : ∃ label,
      (d.openBranch v).blocks[d.blocks.length + k]? =
        some ⟨d.blocks.length + k, label, [], none⟩ := by
  have hne : d.current ≠ d.blocks.length + k := by omega
  simp only [openBranch, addBlock, bumpLabel, terminate, enter, List.getElem?_modify_ne _ _ hne]
  have : k = 0 ∨ k = 1 ∨ k = 2 := by omega
  rcases this with rfl | rfl | rfl <;> simp

theorem Open.openBranch {d : Draft} (h : d.Open) (v : Operand) : (d.openBranch v).Open := by
  obtain ⟨label, hb⟩ := getElem?_openBranch h.lt v 0 (by omega)
  exact ⟨_, hb, rfl⟩

theorem Open.grows_openBranch {d : Draft} (h : d.Open) (v : Operand) :
    d.Grows (d.openBranch v) := by
  have hlt := h.lt
  have hold : ∀ k < d.blocks.length, (d.openBranch v).blocks[k]? =
      (d.terminate (.branch v d.blocks.length (d.blocks.length + 1))).blocks[k]? := by
    intro k hk
    simp only [Draft.openBranch, addBlock, bumpLabel, terminate, enter, List.append_assoc,
      List.getElem?_modify, List.getElem?_append_left hk]
  have hgrows := h.grows_terminate (.branch v d.blocks.length (d.blocks.length + 1))
  refine ⟨.refl, ?_, .inr (Nat.le_refl _), ?_, ?_, ?_⟩
  · rw [length_openBranch]
    exact Nat.lt_add_of_pos_right (by omega)
  · rw [length_openBranch]
    omega
  · intro k hk hne
    rw [hold k hk]
    exact hgrows.frame k hk hne
  · intro b hb
    rw [hold _ hlt]
    exact hgrows.head b hb

theorem Grows.closeArm {d : Draft} (h : d.Grows d') (hlo : d.blocks.length ≤ next)
    (hhi : next < d'.blocks.length) (last : Nat) : d.Grows (d'.closeArm next last) := by
  have hclosed := h.trans (grows_terminateIfOpen h.lt (.jump last))
  have hlen := (grows_terminateIfOpen h.lt (.jump last)).length
  exact ⟨hclosed.supply, Nat.lt_of_lt_of_le hhi hlen, .inr hlo, hclosed.length,
    hclosed.frame, hclosed.head⟩

theorem grows_reopen {d : Draft} (h : d.current < d.blocks.length) :
    d.Grows d.reopen ∧ d.reopen.Open := by
  unfold reopen
  split
  · refine ⟨⟨.refl, ?_, .inr (Nat.le_refl _), ?_, ?_, ?_⟩, ?_⟩
    · simp [addBlock, bumpLabel, enter]
    · simp [addBlock, bumpLabel, enter]
    · intro k hk _
      exact List.getElem?_append_left hk
    · intro b hb
      exact ⟨b, (List.getElem?_append_left h).trans hb, .refl⟩
    · exact ⟨_, List.getElem?_concat_length .., rfl⟩
  · next hopen => exact ⟨.refl h, open_of_not_isTerminated h (by simpa using hopen)⟩

end Draft

/-- No block of the earlier draft loses anything in the later one. -/
structure Draft.Le (d d' : Draft) : Prop where
  supply : d.supply.Le d'.supply
  blocks : ∀ (k : Nat) b, d.blocks[k]? = some b → ∃ b', d'.blocks[k]? = some b' ∧ Block.Le b b'

namespace Draft

variable {d : Draft}

theorem Le.refl : d.Le d := ⟨.refl, fun _ b hb => ⟨b, hb, .refl⟩⟩

theorem Le.trans (h : d.Le d') (h' : d'.Le d'') : d.Le d'' := by
  refine ⟨h.supply.trans h'.supply, fun k b hb => ?_⟩
  obtain ⟨b', hb', hle⟩ := h.blocks k b hb
  obtain ⟨b'', hb'', hle'⟩ := h'.blocks k b' hb'
  exact ⟨b'', hb'', hle.trans hle'⟩

theorem Grows.le (h : d.Grows d') : d.Le d' := ⟨h.supply, fun _ _ hb => h.block hb⟩

theorem le_closeArm (h : d.current < d.blocks.length) (next last : Nat) :
    d.Le (d.closeArm next last) :=
  have hle := (grows_terminateIfOpen h (.jump last)).le
  ⟨hle.supply, hle.blocks⟩

end Draft

/-- A draft in which a branch was started: its arms and what follows have new, empty blocks. -/
structure Draft.Branches (d d1 : Draft) : Prop extends d.Grows d1 where
  starts : d1.current = d.blocks.length
  arms : ∀ k < 3, ∃ label,
    d1.blocks[d.blocks.length + k]? = some ⟨d.blocks.length + k, label, [], none⟩

theorem Draft.Open.branches {d : Draft} (h : d.Open) (hd : Draws d.supply code s) (v : Operand) :
    d.Branches ((d.extend s code).openBranch v) := by
  have hopen := h.extend s code
  refine ⟨(h.grows_extend hd).trans (hopen.grows_openBranch v), d.length_extend s code, ?_⟩
  intro k hk
  have harm := Draft.getElem?_openBranch hopen.lt v k hk
  rwa [Draft.length_extend] at harm

theorem ValueCode.branches {d : Draft} (h : ValueCode env scope e d.supply v code s) (ho : d.Open) :
    d.Branches ((d.extend s.bump (code ++ [.compare s.nextRegister .ne .i1 v (.int 0 .i1)])).openBranch
      (.register s.nextRegister)) :=
  ho.branches h.draws_test _

namespace Draft.Branches

variable {d : Draft} (h : d.Branches d1) (h2 : d1.Grows d2)
include h h2

theorem arm (k : Nat) (hk : k < 3) (hpos : 0 < k) (next last : Nat) : ∃ label,
    (d2.closeArm next last).blocks[d.blocks.length + k]? =
      some ⟨d.blocks.length + k, label, [], none⟩ := by
  obtain ⟨label, harm⟩ := h.arms k hk
  have hlt := (List.getElem?_eq_some_iff.mp harm).1
  have hstarts := h.starts
  have hcurrent := h2.current
  have hne : d.blocks.length + k ≠ d2.current := by omega
  refine ⟨label, (getElem?_terminateIfOpen hne _).trans ((h2.frame _ hlt ?_).trans harm)⟩
  omega

theorem open_else (last : Nat) : (d2.closeArm (d.blocks.length + 1) last).Open := by
  obtain ⟨label, harm⟩ := h.arm h2 1 (by omega) (by omega) (d.blocks.length + 1) last
  exact ⟨_, harm, rfl⟩

theorem merge (h3 : (d2.closeArm (d.blocks.length + 1) last).Grows d3) (next : Nat) :
    ∃ label, (d3.closeArm next last).blocks[d.blocks.length + 2]? =
      some ⟨d.blocks.length + 2, label, [], none⟩ := by
  obtain ⟨label, harm⟩ := h.arm h2 2 (by omega) (by omega) (d.blocks.length + 1) last
  have hlt := (List.getElem?_eq_some_iff.mp harm).1
  have hcurrent := h3.current
  have hstart : (d2.closeArm (d.blocks.length + 1) last).current = d.blocks.length + 1 := rfl
  have hne : d.blocks.length + 2 ≠ d3.current := by omega
  refine ⟨label, (getElem?_terminateIfOpen hne _).trans ((h3.frame _ hlt ?_).trans harm)⟩
  omega

theorem grows_else (last : Nat) : d.Grows (d2.closeArm (d.blocks.length + 1) last) := by
  obtain ⟨_, harm⟩ := h.arms 1 (by omega)
  have hlt := (List.getElem?_eq_some_iff.mp harm).1
  have hlength := h2.length
  exact (h.toGrows.trans h2).closeArm (by omega) (by omega) last

theorem grows_merge (h3 : (d2.closeArm (d.blocks.length + 1) last).Grows d3) :
    d.Grows (d3.closeArm (d.blocks.length + 2) last) := by
  obtain ⟨_, harm⟩ := h.arms 2 (by omega)
  have hlt := (List.getElem?_eq_some_iff.mp harm).1
  have hlength := h2.length
  have hlength' := h3.length
  have hclosed := (grows_terminateIfOpen h2.lt (.jump last)).length
  refine ((h.grows_else h2 last).trans h3).closeArm (by omega) ?_ last
  exact Nat.lt_of_lt_of_le (Nat.lt_of_lt_of_le hlt (Nat.le_trans hlength hclosed)) hlength'

end Draft.Branches

mutual

theorem StmtCode.grows {d : Draft} (ho : d.Open) : StmtCode env scope stmt d scope' d' → d.Grows d'
  | .declare _ _ _ hv => ho.grows_extend (hv.draws.append (.effect rfl))
  | .declareZero .. => ho.grows_extend (.effect rfl)
  | .assign _ hv ha _ => ho.grows_extend (hv.draws.append (ha.draws.append (.effect rfl)))
  | .branch hv ht => by
    have h1 := ht.grows (hv.branches ho).lt
    exact (hv.branches ho).grows_merge h1 (.refl ((hv.branches ho).open_else h1 _).lt)
  | .branchElse hv ht he => by
    have h1 := ht.grows (hv.branches ho).lt
    exact (hv.branches ho).grows_merge h1 (he.grows ((hv.branches ho).open_else h1 _).lt)
  | .retNone => ho.grows_terminate _
  | .ret _ _ hv => (ho.grows_extend hv.draws).trans ((ho.extend _ _).grows_terminate _)
  | .expr hv => ho.grows_extend hv.draws

theorem StmtsCode.grows {d : Draft} (hlt : d.current < d.blocks.length) :
    StmtsCode env scope stmts d d' → d.Grows d'
  | .nil => .refl hlt
  | .cons hs hrest => by
    obtain ⟨hgrows, ho⟩ := Draft.grows_reopen hlt
    have hstmt := hs.grows ho
    exact (hgrows.trans hstmt).trans (hrest.grows hstmt.lt)

theorem BlockCode.grows {d : Draft} (hlt : d.current < d.blocks.length) :
    BlockCode env scope b d d' → d.Grows d'
  | .mk h => h.grows hlt

end

end StructLang.Ssa
