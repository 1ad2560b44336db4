import StructLang.Proofs.Paths
import StructLang.Proofs.Ssa.Dominance
import StructLang.Proofs.Ssa.Modules

/-!
# Control flow goes forward

The current block ends only in jumps to blocks that have no end yet. So the blocks of a function can be
ranked such that every edge goes up, and a set of blocks that holds the entry and every target of its
members can be kept up while the code grows.

The last block of a function with a result ends as unreachable when nothing else ends it. With that set,
control gets there only if some path through the body does not return.
-/

namespace StructLang.Ssa

def Upward (blocks : List Block) (rank : Nat → Nat) : Prop :=
  ∀ k target, Edge blocks k target → rank k < rank target

def EndsIn (blocks : List Block) (k : Nat) (t : Terminator) : Prop :=
  ∃ b, blocks[k]? = some b ∧ b.terminator = some t

theorem edge_iff : Edge blocks k target ↔ ∃ t, EndsIn blocks k t ∧ target ∈ t.successors := by
  constructor
  · rintro ⟨b, hb, htarget⟩
    cases ht : b.terminator with
    | none => simp [Block.successors, ht] at htarget
    | some t => exact ⟨t, ⟨b, hb, ht⟩, by simpa [Block.successors, ht] using htarget⟩
  · rintro ⟨t, ⟨b, hb, ht⟩, htarget⟩
    exact ⟨b, hb, by simpa [Block.successors, ht] using htarget⟩

theorem Edge.mono (h : Edge blocks k target) (hends : ∀ t, EndsIn blocks k t → EndsIn blocks' k t) :
    Edge blocks' k target := by
  obtain ⟨t, ht, htarget⟩ := edge_iff.mp h
  exact edge_iff.mpr ⟨t, hends t ht, htarget⟩

theorem not_endsIn (hb : blocks[k]? = some b) (hopen : b.terminator = none) (t : Terminator) :
    ¬ EndsIn blocks k t := by
  rintro ⟨b', hb', ht⟩
  cases hb.symm.trans hb'
  cases hopen.symm.trans ht

theorem EndsIn.of_withSlots (h : EndsIn (withSlots slots blocks) k t) : EndsIn blocks k t := by
  cases blocks with
  | nil => exact h
  | cons entry rest =>
    cases k with
    | zero =>
      obtain ⟨b, hb, ht⟩ := h
      cases hb
      exact ⟨entry, rfl, ht⟩
    | succ k => exact h

namespace Draft

variable {d : Draft}

theorem endsIn_extend (h : EndsIn (d.extend s code).blocks k t) : EndsIn d.blocks k t := by
  obtain ⟨b, hb, ht⟩ := h
  rcases Sound.modified hb with ⟨-, hb⟩ | ⟨-, b', hb', rfl⟩
  · exact ⟨b, hb, ht⟩
  · exact ⟨b', hb', ht⟩

theorem endsIn_terminate (h : EndsIn (d.terminate t).blocks k t') :
    EndsIn d.blocks k t' ∨ k = d.current ∧ t' = t := by
  obtain ⟨b, hb, ht⟩ := h
  rcases Sound.modified hb with ⟨-, hb⟩ | ⟨hk, b', -, rfl⟩
  · exact .inl ⟨b, hb, ht⟩
  · exact .inr ⟨hk, (Option.some.inj ht).symm⟩

theorem endsIn_terminateIfOpen (h : EndsIn (d.terminateIfOpen t).blocks k t') :
    EndsIn d.blocks k t' ∨ (k = d.current ∧ d.isTerminated = false) ∧ t' = t := by
  unfold Draft.terminateIfOpen at h
  split at h
  · exact .inl h
  · next hopen => exact (endsIn_terminate h).imp_right fun h => ⟨⟨h.1, by simpa using hopen⟩, h.2⟩

theorem edge_of_leaf (ht : t.successors = []) {slots : List Instr}
    (h : Edge (withSlots slots (d.terminateIfOpen t).blocks) k target) :
    Edge d.blocks k target := by
  obtain ⟨t', ht', htarget⟩ := edge_iff.mp h
  rcases endsIn_terminateIfOpen ht'.of_withSlots with ht' | ⟨-, rfl⟩
  · exact edge_iff.mpr ⟨t', ht', htarget⟩
  · simp [ht] at htarget

theorem endsIn_addBlock (h : EndsIn (d.addBlock label).blocks k t) : EndsIn d.blocks k t := by
  obtain ⟨b, hb, ht⟩ := h
  rcases Nat.lt_trichotomy k d.blocks.length with hk | rfl | hk
  · exact ⟨b, (List.getElem?_append_left hk).symm.trans hb, ht⟩
  · cases hb.symm.trans (List.getElem?_concat_length ..)
    cases ht
  · rw [List.getElem?_eq_none (by simp [Draft.addBlock]; omega)] at hb
    cases hb

end Draft

/-- Control stays among these blocks, none of which ends as unreachable, and all blocks can be ranked. -/
structure Covered (live : Nat → Prop) (blocks : List Block) : Prop where
  entry : live 0
  lt : ∀ k, live k → k < blocks.length
  ends : ∀ k t, EndsIn blocks k t → live k → t ≠ .unreachable ∧ ∀ target ∈ t.successors, live target
  ranked : ∃ rank, Upward blocks rank

theorem Covered.mono (h : Covered live blocks) (hlength : blocks.length ≤ blocks'.length)
    (hends : ∀ k t, EndsIn blocks' k t → EndsIn blocks k t) : Covered live blocks' where
  entry := h.entry
  lt k hk := Nat.lt_of_lt_of_le (h.lt k hk) hlength
  ends k t ht := h.ends k t (hends k t ht)
  ranked := h.ranked.imp fun _ hup k target he => hup k target (he.mono (hends k))

namespace Draft

variable {d : Draft}

theorem covered_start (strings : List Constant) : Covered (· = 0) (start strings).blocks := by
  have hends : ∀ k t, ¬ EndsIn (start strings).blocks k t := by
    rintro k t ⟨b, hb, ht⟩
    rw [start, List.getElem?_singleton] at hb
    split at hb <;> cases hb
    cases ht
  refine ⟨rfl, by simp [start], fun k t ht => absurd ht (hends k t), id, fun k target he => ?_⟩
  obtain ⟨t, ht, -⟩ := edge_iff.mp he
  exact absurd ht (hends k t)

theorem covered_extend (h : Covered live d.blocks) (s : Supply) (code : List Instr) :
    Covered live (d.extend s code).blocks :=
  h.mono (d.length_extend s code).ge fun _ _ => endsIn_extend

theorem covered_addBlock (h : Covered live d.blocks) (label : String) :
    Covered live (d.addBlock label).blocks :=
  h.mono (by rw [length_addBlock]; omega) fun _ _ => endsIn_addBlock

theorem covered_terminate (h : Covered live d.blocks) (ht : t ≠ .unreachable)
    (hlt : ∀ target ∈ t.successors, target < d.blocks.length)
    (hopen : ∀ target ∈ t.successors, ∀ t', ¬ EndsIn (d.terminate t).blocks target t') :
    Covered (fun k => live k ∨ live d.current ∧ k ∈ t.successors) (d.terminate t).blocks := by
  obtain ⟨rank, hup⟩ := h.ranked
  refine ⟨.inl h.entry, fun k hk => ?_, fun k t' ht' hk => ?_,
    fun k => if k ∈ t.successors then max (rank k) (rank d.current + 1) else rank k,
    fun k target he => ?_⟩
  · have hlt := hk.elim (h.lt k) fun hk => hlt k hk.2
    simpa [Draft.terminate] using hlt
  · have hl : live k := hk.resolve_right fun hk => hopen k hk.2 t' ht'
    rcases endsIn_terminate ht' with ht' | ⟨hcurrent, rfl⟩
    · exact (h.ends k t' ht' hl).imp_right fun htargets target ht => .inl (htargets target ht)
    · exact ⟨ht, fun target htarget => .inr ⟨hcurrent ▸ hl, htarget⟩⟩
  · obtain ⟨t', ht', htarget⟩ := edge_iff.mp he
    have hk : k ∉ t.successors := fun hk => hopen k hk t' ht'
    simp only [if_neg hk]
    rcases endsIn_terminate ht' with ht' | ⟨rfl, rfl⟩
    · have hlt := hup k target (edge_iff.mpr ⟨t', ht', htarget⟩)
      split <;> omega
    · rw [if_pos htarget]
      omega

def front (live : Nat → Prop) (d : Draft) : Front :=
  ⟨d.blocks.length, d.isTerminated = false ∧ live d.current, live⟩

def GoesOn (returns : Bool) (d d' : Draft) : Prop :=
  ∀ live, Covered live d.blocks → ∃ live', Covered live' d'.blocks ∧
    (d.front live).GoesOn returns (d'.front live')

theorem GoesOn.refl : d.GoesOn false d := fun live h => ⟨live, h, .refl⟩

theorem GoesOn.trans (h : d.GoesOn returns d') (h' : d'.GoesOn returns' d'') :
    d.GoesOn (returns || returns') d'' := by
  intro live hlive
  obtain ⟨live', hlive', hon⟩ := h live hlive
  obtain ⟨live'', hlive'', hon'⟩ := h' live' hlive'
  exact ⟨live'', hlive'', hon.trans hon'⟩

theorem Open.isTerminated (h : d.Open) : d.isTerminated = false := by
  obtain ⟨b, hb, hopen⟩ := h
  simp [Draft.isTerminated, hb, hopen]

theorem Open.front_extend (h : d.Open) (s : Supply) (code : List Instr) :
    (d.extend s code).front live = d.front live := by
  rw [front, front, length_extend, h.isTerminated, (h.extend s code).isTerminated]
  rfl

theorem Open.goesOn_extend (h : d.Open) (s : Supply) (code : List Instr) :
    d.GoesOn false (d.extend s code) := by
  intro live hlive
  refine ⟨live, covered_extend hlive s code, ?_⟩
  rw [h.front_extend]
  exact .refl

theorem Open.goesOn_ret (h : d.Open) (v : Option (Ty × Operand)) :
    d.GoesOn true (d.terminate (.ret v)) := by
  intro live hlive
  have hcode := covered_terminate hlive (t := .ret v) (by simp) (by simp [Terminator.successors])
    (by simp [Terminator.successors])
  refine ⟨_, hcode, by simp [front, Draft.terminate], fun _ => hcode.lt, ?_, fun hon => ?_⟩
  · simp [front, Terminator.successors]
  · obtain ⟨b, hb, -⟩ := h
    simp [front, Draft.isTerminated, Draft.terminate, hb] at hon

theorem goesOn_reopen : d.GoesOn false d.reopen := by
  unfold Draft.reopen
  split
  · intro live hlive
    have hcode := covered_addBlock (d := d.bumpLabel) hlive s!"dead.{d.nextLabel}"
    refine ⟨live, hcode, ?_, fun _ => hcode.lt, fun _ _ => id, fun hon => ?_⟩
    · exact Nat.le_of_lt (Nat.lt_of_lt_of_eq (Nat.lt_succ_self _) (length_addBlock _ _).symm)
    · exact absurd (hlive.lt _ hon.2) (Nat.lt_irrefl _)
  · exact .refl

theorem Open.opens_openBranch (h : d.Open) (hlive : Covered live d.blocks) (v : Operand) :
    ∃ live', Covered live' (d.openBranch v).blocks ∧
      (d.front live).Opens ((d.openBranch v).front live') := by
  have hopen : ∀ k < 3, ∀ t, ¬ EndsIn (d.openBranch v).blocks (d.blocks.length + k) t :=
    fun k hk => not_endsIn (getElem?_openBranch h.lt v k hk).choose_spec rfl
  refine ⟨_, covered_terminate (t := .branch v d.blocks.length (d.blocks.length + 1))
    (covered_addBlock (covered_addBlock (covered_addBlock (d := d.bumpLabel) hlive _) _) _)
    (by simp) ?_ ?_, length_openBranch d v, fun k hk => hk.imp_right fun hk => ?_, fun hon => ?_⟩
  · simp [Terminator.successors, Draft.addBlock, Draft.bumpLabel]
  · intro target htarget
    rcases List.mem_pair.mp htarget with rfl | rfl
    · exact hopen 0 (by omega)
    · exact hopen 1 (by omega)
  · exact ⟨⟨h.isTerminated, hk.1⟩, List.mem_pair.mp hk.2⟩
  · exact ⟨h.isTerminated, (hon.2.resolve_left fun hl => Nat.lt_irrefl _ (hlive.lt _ hl)).1⟩

theorem closes_closeArm (h : Covered live d.blocks)
    (hlast : ∃ label, (d.closeArm next last).blocks[last]? = some ⟨last, label, [], none⟩) :
    ∃ live', Covered live' (d.closeArm next last).blocks ∧
      (d.front live).Closes next last ((d.closeArm next last).front live') := by
  obtain ⟨label, hlast⟩ := hlast
  unfold Draft.closeArm Draft.terminateIfOpen at hlast ⊢
  split at hlast
  · next hclosed =>
    rw [if_pos hclosed]
    exact ⟨live, h, rfl, fun _ => .inl, And.right⟩
  · next hopen =>
    have hlt := (List.getElem?_eq_some_iff.mp hlast).1
    rw [if_neg hopen]
    have hlength : ((d.terminate (.jump last)).enter next).blocks.length = d.blocks.length := by
      simp [Draft.enter, Draft.terminate]
    refine ⟨_, covered_terminate h (by simp) ?_ ?_, hlength, fun k hk => hk.imp_right fun hk => ?_,
      And.right⟩
    · rw [Terminator.successors, List.forall_mem_singleton]
      exact hlength ▸ hlt
    · rw [Terminator.successors, List.forall_mem_singleton]
      exact not_endsIn hlast rfl
    · exact ⟨List.mem_singleton.mp hk.2, by simpa using hopen, hk.1⟩

theorem Open.goesOn_branch (h : d.Open) (hdraws : Draws d.supply code s)
    (hgrows : ((d.extend s code).openBranch v).Grows d1)
    (ht : ((d.extend s code).openBranch v).GoesOn returns d1)
    (hgrows' : (d1.closeArm (d.blocks.length + 1) (d.blocks.length + 2)).Grows d2)
    (he : (d1.closeArm (d.blocks.length + 1) (d.blocks.length + 2)).GoesOn returns' d2) :
    d.GoesOn (returns && returns') (d2.closeArm (d.blocks.length + 2) (d.blocks.length + 2)) := by
  intro live hlive
  have hb := h.branches hdraws v
  obtain ⟨live0, hlive0, hopens⟩ :=
    (h.extend s code).opens_openBranch (covered_extend hlive s code) v
  rw [h.front_extend] at hopens
  obtain ⟨live1, hlive1, hthen⟩ := ht live0 hlive0
  obtain ⟨live2, hlive2, hcloses⟩ := closes_closeArm hlive1 (hb.arm hgrows 2 (by omega) (by omega) _ _)
  obtain ⟨live3, hlive3, helse⟩ := he live2 hlive2
  obtain ⟨live4, hlive4, hcloses'⟩ := closes_closeArm hlive3 (hb.merge hgrows hgrows' _)
  exact ⟨live4, hlive4, Front.goesOn_branch hlive.lt hopens hthen hcloses helse hcloses'⟩

end Draft

section

open Draft

mutual

theorem StmtCode.goesOn (ho : d.Open) :
    StmtCode env scope stmt d scope' d' → d.GoesOn stmt.returns d'
  | .declare .. | .declareZero .. | .assign .. | .expr .. => ho.goesOn_extend _ _
  | .branch hv ht => by
    have hb := hv.branches ho
    have hgrows := ht.grows hb.lt
    have hbranch := ho.goesOn_branch hv.draws_test hgrows (ht.goesOn hb.lt)
      (.refl (hb.open_else hgrows _).lt) .refl
    rwa [Bool.and_false] at hbranch
  | .branchElse hv ht he => by
    have hb := hv.branches ho
    have hgrows := ht.grows hb.lt
    have hopen := hb.open_else hgrows (d.blocks.length + 2)
    exact ho.goesOn_branch hv.draws_test hgrows (ht.goesOn hb.lt) (he.grows hopen.lt)
      (he.goesOn hopen.lt)
  | .retNone => ho.goesOn_ret _
  | .ret .. => (ho.goesOn_extend _ _).trans ((ho.extend _ _).goesOn_ret _)

theorem StmtsCode.goesOn (hlt : d.current < d.blocks.length) :
    StmtsCode env scope stmts d d' → d.GoesOn (stmtsReturn stmts) d'
  | .nil => .refl
  | .cons hs hrest => by
    obtain ⟨-, ho⟩ := Draft.grows_reopen hlt
    exact goesOn_reopen.trans ((hs.goesOn ho).trans (hrest.goesOn (hs.grows ho).lt))

theorem BlockCode.goesOn (hlt : d.current < d.blocks.length) :
    BlockCode env scope b d d' → d.GoesOn b.returns d'
  | .mk h => h.goesOn hlt

end

end

/-- Control stays among some blocks of a lowered function. If one of them ends as unreachable, the
function has a result and some path through its body does not return. -/
theorem FunctionCode.exists_live {strings : List Constant}
    (h : FunctionCode env strings f g strings') : ∃ live : Nat → Prop, live 0 ∧
      (∀ k target, Edge g.blocks k target → live k → live target) ∧
      (∀ k, EndsIn g.blocks k .unreachable → live k → f.ret ≠ .void ∧ f.body.returns = false) ∧
      ∃ rank, Upward g.blocks rank := by
  obtain @⟨_, ret, _, -, hr, @⟨_, _, _, _, _, d, -, -, hb⟩⟩ := h
  have ho := Draft.open_start strings
  obtain ⟨live, hlive, hend⟩ := ((ho.goesOn_extend _ _).trans
    (hb.goesOn (ho.extend _ _).lt)) _ (Draft.covered_start strings)
  have hleaf : (if ret = .void then .ret none else .unreachable : Terminator).successors = [] := by
    split <;> rfl
  refine ⟨live, hlive.entry, fun k target he hk => ?_, fun k ht hk => ?_,
    hlive.ranked.imp fun _ hup k target he => hup k target (Draft.edge_of_leaf hleaf he)⟩
  · obtain ⟨t, ht, htarget⟩ := edge_iff.mp (Draft.edge_of_leaf hleaf he)
    exact (hlive.ends k t ht hk).2 target htarget
  · rcases Draft.endsIn_terminateIfOpen ht.of_withSlots with ht | ⟨⟨hlast, hopen⟩, ht⟩
    · exact absurd rfl (hlive.ends k _ ht hk).1
    · refine ⟨fun hvoid => ?_, by simpa using (hend.on ⟨hopen, hlast ▸ hk⟩).2⟩
      cases (congrArg Ty.ofSource hvoid).symm.trans hr
      cases ht

theorem FunctionsCode.upward
    (h : FunctionsCode env strings fs gs strings') : ∀ g ∈ gs, ∃ rank, Upward g.blocks rank := by
  intro g hg
  obtain ⟨f, -, _, _, hcode, -⟩ := exists_of_forall₂ h.forall₂.2 hg
  obtain ⟨_, -, -, -, hrank⟩ := hcode.exists_live
  exact hrank

end StructLang.Ssa
