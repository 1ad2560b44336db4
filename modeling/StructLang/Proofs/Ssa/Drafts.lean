import StructLang.Proofs.Ssa.Growth

/-!
# Drafts under a discipline

A discipline says which instructions may stand after others in a block, and which slots may be made. The
invariant of drafts is stated for any discipline: blocks know their positions and hold code that keeps
the discipline, ends lead to blocks that exist, only the current block and those for later are still
open, no two blocks share a label, and every register was assigned once. Every step that lowering takes
with a draft keeps it.
-/

namespace StructLang.Ssa

/-- Every instruction may stand after those before it in its block. -/
def Coded (P : List Instr → Instr → Prop) (before : List Instr) : List Instr → Prop
  | [] => True
  | i :: rest => P before i ∧ Coded P (before ++ [i]) rest

theorem coded_append {code' : List Instr} :
    Coded P before (code ++ code') ↔ Coded P before code ∧ Coded P (before ++ code) code' := by
  induction code generalizing before with
  | nil => simp [Coded]
  | cons i rest ih =>
    simp only [List.cons_append, Coded, ih, and_assoc, List.append_assoc, List.nil_append]

theorem Coded.getElem? (h : Coded P before code) (hi : code[n]? = some i) :
    P (before ++ code.take n) i := by
  induction code generalizing before n with
  | nil => cases hi
  | cons j rest ih =>
    cases n with
    | zero =>
      cases hi
      simpa using h.1
    | succ n => simpa using ih h.2 hi

/-- What is asked of code. -/
structure Discipline where
  instr : List Instr → Instr → Prop
  slot : Instr → Prop

/-- Code and slots that keep a discipline. -/
structure Emitted (D : Discipline) (before : List Instr) (s : Supply) (code : List Instr)
    (s' : Supply) : Prop where
  code : Coded D.instr before code
  slots : ∀ i ∈ s'.slots, i ∈ s.slots ∨ D.slot i

namespace Emitted

variable {code : List Instr}

theorem nil (h : s'.slots = s.slots) : Emitted D before s [] s' :=
  ⟨True.intro, fun _ hi => .inl (h ▸ hi)⟩

theorem append (h : Emitted D before s code s') (h' : Emitted D (before ++ code) s' code' s'') :
    Emitted D before s (code ++ code') s'' := by
  refine ⟨coded_append.mpr ⟨h.code, h'.code⟩, fun i hi => ?_⟩
  rcases h'.slots i hi with hi | hi
  · exact h.slots i hi
  · exact .inr hi

theorem single (h : D.instr before i) (hs : s'.slots = s.slots) : Emitted D before s [i] s' :=
  ⟨⟨h, True.intro⟩, fun _ hi => .inl (hs ▸ hi)⟩

theorem assign (h : D.instr before i) : Emitted D before s [i] s.bump := .single h rfl

theorem allocate (h : D.slot (.alloca s.nextRegister ty)) :
    Emitted D before s [] (s.allocate ty) := by
  refine ⟨True.intro, fun i hi => ?_⟩
  rcases List.mem_append.mp hi with hi | hi
  · exact .inl hi
  · rw [List.mem_singleton.mp hi]
    exact .inr h

theorem cons (h : Emitted D before s [i] s') (h' : Emitted D (before ++ [i]) s' code s'') :
    Emitted D before s (i :: code) s'' :=
  h.append h'

end Emitted

theorem Interned.emitted (h : Interned text s name s') : Emitted D before s [] s' := by
  cases h <;> exact .nil rfl

/-- Code that keeps a discipline and after which something is known. -/
structure Leaves (D : Discipline) (before : List Instr) (s : Supply) (c : List Instr) (s' : Supply)
    (P : List Instr → Prop) : Prop extends Emitted D before s c s' where
  known : P (before ++ c)

namespace Leaves

theorem nil (hs : s'.slots = s.slots) (h : P before) : Leaves D before s [] s' P :=
  ⟨.nil hs, before.append_nil.symm ▸ h⟩

theorem assign (hi : D.instr before i) (h : P (before ++ [i])) : Leaves D before s [i] s.bump P :=
  ⟨.assign hi, h⟩

theorem seq (h : Leaves D before s code s' P)
    (h' : P (before ++ code) → Emitted D (before ++ code) s' code' s'') :
    Emitted D before s (code ++ code') s'' :=
  h.toEmitted.append (h' h.known)

theorem bind (h : Leaves D before s code s' P)
    (h' : P (before ++ code) → Leaves D (before ++ code) s' code' s'' Q) :
    Leaves D before s (code ++ code') s'' Q :=
  ⟨h.seq fun hP => (h' hP).toEmitted, List.append_assoc .. ▸ (h' h.known).known⟩

end Leaves

/-! ## Blocks and drafts -/

/-- A block at a position is well formed among a number of blocks. -/
structure BlockSound (D : Discipline) (ends : List Instr → Terminator → Prop) (count k : Nat)
    (b : Block) : Prop where
  id : b.id = k
  code : Coded D.instr [] b.instrs
  ends : ∀ t, b.terminator = some t → ends b.instrs t ∧ ∀ target ∈ t.successors, target < count

section

variable {ends : List Instr → Terminator → Prop}

theorem BlockSound.mono (h : BlockSound D ends count k b) (hle : count ≤ count') :
    BlockSound D ends count' k b :=
  ⟨h.id, h.code, fun t ht =>
    ⟨(h.ends t ht).1, fun target hm => Nat.lt_of_lt_of_le ((h.ends t ht).2 target hm) hle⟩⟩

theorem BlockSound.empty (count k : Nat) (label : String) :
    BlockSound D ends count k ⟨k, label, [], none⟩ :=
  ⟨rfl, True.intro, nofun⟩

end

namespace Draft

theorem length_addBlock (d : Draft) (label : String) :
    (d.addBlock label).blocks.length = d.blocks.length + 1 := by
  simp [addBlock]

def dests (d : Draft) : List Register :=
  Ssa.dests d.slots ++ d.blocks.flatMap fun b => Ssa.dests b.instrs

def labels (d : Draft) : List String := d.blocks.map Block.label

/-- The invariant of drafts. `pending` are the blocks for later. -/
structure Sound (D : Discipline) (ends : List Instr → Terminator → Prop) (pending : List Nat)
    (d : Draft) : Prop where
  lt : d.current < d.blocks.length
  blocks : ∀ k b, d.blocks[k]? = some b → BlockSound D ends d.blocks.length k b
  opened : ∀ k b, d.blocks[k]? = some b → b.terminator = none → k = d.current ∨ k ∈ pending
  slots : ∀ i ∈ d.slots, D.slot i
  registers : Numbered 0 d.nextRegister d.dests
  labels : d.labels.Nodup
  numbers : ∀ stem n, numberedName stem n ∈ d.labels → n < d.nextLabel

end Draft

namespace Draft.Sound

variable {d : Draft}

theorem modified {blocks : List Block} {g : Block → Block} (h : (blocks.modify n g)[k]? = some b) :
    (k ≠ n ∧ blocks[k]? = some b) ∨ k = n ∧ ∃ b', blocks[k]? = some b' ∧ b = g b' := by
  by_cases hk : k = n
  · subst hk
    rw [List.getElem?_modify_eq, Option.map_eq_map, Option.map_eq_some_iff] at h
    obtain ⟨b', hb', rfl⟩ := h
    exact .inr ⟨rfl, b', hb', rfl⟩
  · rw [List.getElem?_modify_ne _ _ (Ne.symm hk)] at h
    exact .inl ⟨hk, h⟩

theorem extend (h : d.Sound D ends pending) (ho : d.Open) (hd : Draws d.supply code s)
    (he : ∀ before, Emitted D before d.supply code s) : (d.extend s code).Sound D ends pending := by
  obtain ⟨new, hnew, -, hnum⟩ := hd.slots
  have hlabels : (d.extend s code).labels = d.labels := map_modify _ _ fun _ => rfl
  refine ⟨by simpa [Draft.extend] using h.lt, ?_, ?_, ?_, ?_, hlabels ▸ h.labels,
    hlabels ▸ h.numbers⟩
  · intro k b hb
    rw [length_extend]
    rcases modified hb with ⟨-, hb⟩ | ⟨rfl, b', hb', rfl⟩
    · exact h.blocks k b hb
    · obtain ⟨hid, hcode, -⟩ := h.blocks _ b' hb'
      refine ⟨hid, coded_append.mpr ⟨hcode, (he _).code⟩, fun t ht => ?_⟩
      cases (ho.block hb').symm.trans ht
  · intro k b hb hopen
    rcases modified hb with ⟨-, hb⟩ | ⟨rfl, -⟩
    · exact h.opened k b hb hopen
    · exact .inl rfl
  · intro i hi
    rcases (he []).slots i hi with hi | hi
    · exact h.slots i hi
    · exact hi
  · refine (h.registers.append hnum (Nat.zero_le _) hd.registers).perm ?_
    simp only [Draft.dests, Draft.extend, hnew, dests_append]
    refine .trans ?_ (.append_left _ (perm_flatMap_modify _ _ h.lt code).symm)
    simp only [List.append_assoc]
    refine .append_left _ ?_
    simp only [← List.append_assoc]
    exact .append_right _ List.perm_append_comm

theorem terminate (h : d.Sound D ends pending)
    (ht : ∀ b, d.blocks[d.current]? = some b → ends b.instrs t)
    (hsucc : ∀ target ∈ t.successors, target < d.blocks.length) :
    (d.terminate t).Sound D ends pending := by
  have hlabels : (d.terminate t).labels = d.labels := map_modify _ _ fun _ => rfl
  refine ⟨by simpa [Draft.terminate] using h.lt, ?_, ?_, h.slots, ?_, hlabels ▸ h.labels,
    hlabels ▸ h.numbers⟩
  · intro k b hb
    simp only [Draft.terminate, List.length_modify]
    rcases modified hb with ⟨-, hb⟩ | ⟨rfl, b', hb', rfl⟩
    · exact h.blocks k b hb
    · obtain ⟨hid, hcode, -⟩ := h.blocks _ b' hb'
      refine ⟨hid, hcode, ?_⟩
      rintro _ ⟨⟩
      exact ⟨ht b' hb', hsucc⟩
  · intro k b hb hopen
    rcases modified hb with ⟨-, hb⟩ | ⟨rfl, -⟩
    · exact h.opened k b hb hopen
    · exact .inl rfl
  · have hdests : (d.terminate t).dests = d.dests :=
      congrArg (Ssa.dests d.slots ++ ·) (flatMap_modify _ _ fun _ => rfl)
    exact hdests ▸ h.registers

def Closed (pending : List Nat) (d : Draft) : Prop :=
  ∀ k b, d.blocks[k]? = some b → b.terminator = none → k ∈ pending

theorem closed_terminate (h : d.Sound D ends pending) (t : Terminator) :
    Closed pending (d.terminate t) := by
  intro k b hb hopen
  rcases modified hb with ⟨hne, hb⟩ | ⟨rfl, b', hb', rfl⟩
  · exact (h.opened k b hb hopen).resolve_left hne
  · cases hopen

theorem closed_of_isTerminated (h : d.Sound D ends pending) (ht : d.isTerminated = true) :
    Closed pending d := by
  intro k b hb hopen
  refine (h.opened k b hb hopen).resolve_left ?_
  rintro rfl
  simp [isTerminated, hb, hopen] at ht

theorem terminateIfOpen (h : d.Sound D ends pending) (ht : ∀ before, ends before t)
    (hsucc : ∀ target ∈ t.successors, target < d.blocks.length) :
    (d.terminateIfOpen t).Sound D ends pending ∧ Closed pending (d.terminateIfOpen t) := by
  unfold Draft.terminateIfOpen
  split
  · next hdone => exact ⟨h, h.closed_of_isTerminated hdone⟩
  · exact ⟨h.terminate (fun b _ => ht b.instrs) hsucc, h.closed_terminate t⟩

theorem enter (h : d.Sound D ends (next :: pending)) (hclosed : Closed (next :: pending) d)
    (hlt : next < d.blocks.length) : (d.enter next).Sound D ends pending :=
  ⟨hlt, h.blocks, fun k b hb hopen => List.mem_cons.mp (hclosed k b hb hopen), h.slots, h.registers,
    h.labels, h.numbers⟩

theorem closeArm (h : d.Sound D ends (next :: pending))
    (hjump : ∀ before target, ends before (.jump target)) (hnext : next < d.blocks.length)
    (hlast : last < d.blocks.length) : (d.closeArm next last).Sound D ends pending := by
  obtain ⟨hsound, hclosed⟩ :=
    h.terminateIfOpen (t := .jump last) (fun _ => hjump _ _) (by simpa [Terminator.successors])
  refine hsound.enter hclosed (Nat.lt_of_lt_of_le hnext ?_)
  exact (grows_terminateIfOpen h.lt _).length

/-- A new block whose label no block has. -/
theorem addBlock (h : d.Sound D ends pending) (hlength : d.blocks.length = next)
    (hnew : label ∉ d.labels) (hnum : ∀ stem n, label = numberedName stem n → n < d.nextLabel) :
    (d.addBlock label).Sound D ends (next :: pending) := by
  subst hlength
  have hcases : ∀ k b, (d.addBlock label).blocks[k]? = some b →
      d.blocks[k]? = some b ∨ k = d.blocks.length ∧ b = ⟨d.blocks.length, label, [], none⟩ := by
    intro k b hb
    rcases Nat.lt_trichotomy k d.blocks.length with hk | rfl | hk
    · exact .inl ((List.getElem?_append_left hk).symm.trans hb)
    · exact .inr ⟨rfl, Option.some.inj (hb.symm.trans (List.getElem?_concat_length ..))⟩
    · rw [List.getElem?_eq_none (by simp [Draft.addBlock]; omega)] at hb
      cases hb
  have hlabels : (d.addBlock label).labels = d.labels ++ [label] := by
    simp [Draft.labels, Draft.addBlock]
  refine ⟨?_, ?_, ?_, h.slots, ?_, ?_, ?_⟩
  · rw [length_addBlock]
    exact Nat.lt_succ_of_lt h.lt
  · intro k b hb
    rw [length_addBlock]
    rcases hcases k b hb with hb | ⟨rfl, rfl⟩
    · exact (h.blocks k b hb).mono (Nat.le_succ _)
    · exact .empty ..
  · intro k b hb hopen
    rcases hcases k b hb with hb | ⟨rfl, rfl⟩
    · exact (h.opened k b hb hopen).imp_right (List.mem_cons_of_mem _)
    · exact .inr List.mem_cons_self
  · simpa [Draft.dests, Draft.addBlock] using h.registers
  · rw [hlabels, List.nodup_append]
    refine ⟨h.labels, by simp, fun l hl l' hl' => ?_⟩
    rw [List.mem_singleton.mp hl']
    rintro rfl
    exact hnew hl
  · intro stem n hm
    rcases List.mem_append.mp (hlabels ▸ hm) with hm | hm
    · exact h.numbers stem n hm
    · exact hnum stem n (List.mem_singleton.mp hm).symm

theorem bumpLabel (h : d.Sound D ends pending) : d.bumpLabel.Sound D ends pending :=
  ⟨h.lt, h.blocks, h.opened, h.slots, h.registers, h.labels,
    fun stem n hm => Nat.lt_succ_of_lt (h.numbers stem n hm)⟩

theorem fresh (h : d.Sound D ends pending) (stem : String) :
    numberedName stem d.nextLabel ∉ d.labels :=
  fun hm => Nat.lt_irrefl _ (h.numbers stem _ hm)

theorem lt_nextLabel (d : Draft) (stem : String) : ∀ stem' n,
    numberedName stem d.nextLabel = numberedName stem' n → n < d.bumpLabel.nextLabel := by
  intro stem' n heq
  rw [← (numberedName_inj.mp heq).2]
  exact Nat.lt_succ_self _

theorem reopen (h : d.Sound D ends pending) : d.reopen.Sound D ends pending := by
  unfold Draft.reopen
  split
  · next hdone =>
    have hadd : (d.bumpLabel.addBlock s!"dead.{d.nextLabel}").Sound D ends
        (d.blocks.length :: pending) :=
      h.bumpLabel.addBlock rfl (h.fresh "dead") (lt_nextLabel d "dead")
    refine hadd.enter ?_ (by simp [Draft.addBlock, Draft.bumpLabel])
    refine hadd.closed_of_isTerminated ?_
    simpa only [Draft.isTerminated, Draft.addBlock, Draft.bumpLabel, List.getElem?_append_left h.lt]
      using hdone
  · exact h

theorem mono (h : d.Sound D ends pending) (hsub : pending ⊆ pending') : d.Sound D ends pending' :=
  ⟨h.lt, h.blocks, fun k b hb hopen => (h.opened k b hb hopen).imp_right (hsub ·), h.slots,
    h.registers, h.labels, h.numbers⟩

/-- The blocks for the arms of a branch and for what follows have new labels. -/
theorem addArms (h : d.Sound D ends pending) :
    (((d.bumpLabel.addBlock s!"then.{d.nextLabel}").addBlock s!"else.{d.nextLabel}").addBlock
      s!"merge.{d.nextLabel}").Sound D ends
      ((d.blocks.length + 2) :: (d.blocks.length + 1) :: d.blocks.length :: pending) := by
  have hthen : (d.bumpLabel.addBlock s!"then.{d.nextLabel}").Sound D ends
      (d.blocks.length :: pending) :=
    h.bumpLabel.addBlock rfl (h.fresh "then") (lt_nextLabel d "then")
  have hne : ∀ stem stem', stem ≠ stem' →
      numberedName stem d.nextLabel ≠ numberedName stem' d.nextLabel :=
    fun stem stem' hne heq => hne (numberedName_inj.mp heq).1
  have helse : ((d.bumpLabel.addBlock s!"then.{d.nextLabel}").addBlock s!"else.{d.nextLabel}").Sound
      D ends ((d.blocks.length + 1) :: d.blocks.length :: pending) := by
    refine hthen.addBlock (length_addBlock _ _) (fun hm => ?_) (lt_nextLabel d "else")
    simp only [Draft.labels, Draft.addBlock, List.map_append, List.mem_append, List.map_cons,
      List.map_nil, List.mem_singleton] at hm
    rcases hm with hm | hm
    · exact h.fresh "else" hm
    · exact hne "else" "then" (by decide) hm
  refine helse.addBlock ?_ (fun hm => ?_) (lt_nextLabel d "merge")
  · rw [length_addBlock, length_addBlock]
    rfl
  · simp only [Draft.labels, Draft.addBlock, List.map_append, List.mem_append, List.map_cons,
      List.map_nil, List.mem_singleton] at hm
    rcases hm with (hm | hm) | hm
    · exact h.fresh "merge" hm
    · exact hne "merge" "then" (by decide) hm
    · exact hne "merge" "else" (by decide) hm

theorem openBranch (h : d.Sound D ends pending)
    (hv : ∀ b, d.blocks[d.current]? = some b → ∀ t e, ends b.instrs (.branch v t e)) :
    (d.openBranch v).Sound D ends
      ((d.blocks.length + 1) :: (d.blocks.length + 2) :: pending) := by
  have hsound := h.addArms.mono (show _ ⊆ d.blocks.length :: (d.blocks.length + 1) ::
    (d.blocks.length + 2) :: pending by grind)
  refine (hsound.terminate ?_ ?_).enter (hsound.closed_terminate _) ?_
  · intro b hb
    refine hv b ?_ _ _
    simpa only [Draft.addBlock, Draft.bumpLabel, List.append_assoc, List.getElem?_append_left h.lt]
      using hb
  · simp only [Terminator.successors, List.forall_mem_cons, length_addBlock, Draft.bumpLabel]
    exact ⟨by omega, by omega, by simp⟩
  · simp only [Draft.terminate, List.length_modify, length_addBlock, Draft.bumpLabel]
    omega

end Draft.Sound

theorem Draft.supply_closeArm (d : Draft) (next last : Nat) :
    (d.closeArm next last).supply = d.supply := by
  unfold Draft.closeArm Draft.terminateIfOpen
  split <;> rfl

theorem Draft.slots_closeArm (d : Draft) (next last : Nat) :
    (d.closeArm next last).slots = d.slots :=
  congrArg Supply.slots (d.supply_closeArm next last)

theorem Draft.current_extend {d : Draft} (hb : (d.extend s code).blocks[d.current]? = some b) :
    ∃ before, b.instrs = before ++ code := by
  rcases Draft.Sound.modified hb with ⟨hne, -⟩ | ⟨-, b', -, rfl⟩
  · exact absurd rfl hne
  · exact ⟨b'.instrs, rfl⟩

section

variable {ends : List Instr → Terminator → Prop}

theorem Draft.open_start (strings : List Constant) : (Draft.start strings).Open := ⟨_, rfl, rfl⟩

theorem Draft.sound_start (strings : List Constant) : (Draft.start strings).Sound D ends [] := by
  have hentry : ∀ k b, (Draft.start strings).blocks[k]? = some b →
      k = 0 ∧ b = ⟨0, "entry", [], none⟩ := by
    intro k b hb
    cases k with
    | zero => exact ⟨rfl, (Option.some.inj hb).symm⟩
    | succ k => cases hb
  have hdests : (Draft.start strings).dests = [] := rfl
  have hslots : ∀ i ∈ (Draft.start strings).slots, D.slot i := by simp [Draft.start]
  refine ⟨Nat.one_pos, ?_, fun k b hb _ => .inl (hentry k b hb).1, hslots, hdests ▸ .nil, ?_, ?_⟩
  · intro k b hb
    obtain ⟨rfl, rfl⟩ := hentry k b hb
    exact .empty _ _ _
  · simp [Draft.labels, Draft.start]
  · intro stem n hm
    have hdot : '.' ∈ (numberedName stem n).toList := by simp [toList_numberedName]
    rw [List.mem_singleton.mp hm] at hdot
    exact absurd hdot (by decide)

namespace Draft.Branches

variable {d : Draft} (h : d.Branches d1) (h2 : d1.Grows d2)
  (hjump : ∀ before target, ends before (.jump target))
include h h2 hjump

theorem sound_else
    (hs : d2.Sound D ends ((d.blocks.length + 1) :: (d.blocks.length + 2) :: pending)) :
    (d2.closeArm (d.blocks.length + 1) (d.blocks.length + 2)).Sound D ends
      ((d.blocks.length + 2) :: pending) := by
  obtain ⟨_, harm⟩ := h.arms 2 (by omega)
  have hlt := (List.getElem?_eq_some_iff.mp harm).1
  have hlength := h2.length
  exact hs.closeArm hjump (by omega) (by omega)

theorem sound_merge (h3 : (d2.closeArm (d.blocks.length + 1) last).Grows d3)
    (hs : d3.Sound D ends ((d.blocks.length + 2) :: pending)) :
    (d3.closeArm (d.blocks.length + 2) (d.blocks.length + 2)).Sound D ends pending := by
  obtain ⟨_, harm⟩ := h.arms 2 (by omega)
  have hlt := (List.getElem?_eq_some_iff.mp harm).1
  have hlength := h2.length
  have hlength' := h3.length
  have hclosed := (grows_terminateIfOpen h2.lt (.jump last)).length
  have hle := Nat.le_trans (Nat.le_trans hlength hclosed) hlength'
  exact hs.closeArm hjump (Nat.lt_of_lt_of_le hlt hle) (Nat.lt_of_lt_of_le hlt hle)

end Draft.Branches

end

end StructLang.Ssa
