import Mathlib.Data.Finset.Card
import Mathlib.Data.Finset.Prod
import Mathlib.Data.Nat.Bitwise
import StructLang.Ssa.Dominance

/-!
# Dominators lie on every way from the entry

The equations of dominance are applied in sweeps until nothing changes. An update only takes blocks out
of sets, so there are fewer sweeps than blocks in the first table, and the bound on them is never what
ends them. The table therefore solves the equations: what dominates a block lies on every way to it. In
the other direction no update takes out a block that lies on all of these ways.
-/

namespace StructLang.Ssa

variable {blocks : List Block} {t : List BlockSet} {b d : Nat}

/-! ## Ways through the blocks -/

def Edge (blocks : List Block) (k target : Nat) : Prop :=
  ∃ b, blocks[k]? = some b ∧ target ∈ b.successors

/-- Control can come from the entry to a block, and passes these blocks, the last one first. -/
inductive Walk (blocks : List Block) : Nat → List Nat → Prop where
  | entry : Walk blocks 0 [0]
  | step {k target : Nat} {passed : List Nat} (h : Walk blocks k passed)
      (he : Edge blocks k target) : Walk blocks target (target :: passed)

theorem Edge.lt (h : Edge blocks k b) : k < blocks.length := by
  obtain ⟨_, hk, -⟩ := h
  exact (List.getElem?_eq_some_iff.mp hk).1

theorem mem_predecessors : k ∈ predecessors blocks b ↔ Edge blocks k b := by
  simp only [predecessors, List.mem_map, List.mem_filter, List.contains_iff_mem]
  constructor
  · rintro ⟨⟨from_, _⟩, ⟨hmem, hb⟩, rfl⟩
    exact ⟨from_, List.mem_zipIdx_iff_getElem?.mp hmem, hb⟩
  · rintro ⟨from_, hk, hb⟩
    exact ⟨(from_, k), ⟨List.mem_zipIdx_iff_getElem?.mpr hk, hb⟩, rfl⟩

theorem Walk.zero_mem (h : Walk blocks b passed) : 0 ∈ passed := by
  induction h with
  | entry => exact List.mem_singleton_self 0
  | step _ _ ih => exact List.mem_cons_of_mem _ ih

theorem Walk.mem_lt (h : Walk blocks b passed) (hb : b < blocks.length) :
    ∀ a ∈ passed, a < blocks.length := by
  induction h with
  | entry => simpa using hb
  | step _ he ih => exact List.forall_mem_cons.mpr ⟨hb, ih he.lt⟩

/-! ## Tables -/

def InTable (t : List BlockSet) (b d : Nat) : Prop := (t.getD b 0).testBit d = true

instance : Decidable (InTable t b d) := inferInstanceAs (Decidable (_ = true))

theorem InTable.lt (h : InTable t b d) : b < t.length := by
  by_contra hb
  simp [InTable, List.getD, Nat.le_of_not_lt hb] at h

theorem inTable_map : InTable ((List.range n).map g) b d ↔ b < n ∧ (g b).testBit d = true := by
  unfold InTable
  by_cases hb : b < n
  · simp [List.getD, hb]
  · simp [List.getD, hb]

theorem testBit_foldl_and {ps : List Nat} :
    (ps.foldl (fun s p => s &&& t.getD p 0) s).testBit d = true ↔
      s.testBit d = true ∧ ∀ p ∈ ps, InTable t p d := by
  induction ps generalizing s with
  | nil => simp
  | cons p ps ih =>
    rw [List.foldl_cons, ih, Nat.testBit_and, Bool.and_eq_true, List.forall_mem_cons, and_assoc]
    rfl

theorem testBit_dominatorsOf_zero :
    (dominatorsOf blocks t 0).testBit d = true ↔ d = 0 := by
  rw [dominatorsOf, if_pos rfl, BlockSet.single, Nat.testBit_two_pow, decide_eq_true_eq]
  exact eq_comm

theorem testBit_dominatorsOf_ne (hb : b ≠ 0) :
    (dominatorsOf blocks t b).testBit d = true ↔
      d < blocks.length ∧ (∀ k, Edge blocks k b → InTable t k d) ∨ d = b := by
  rw [dominatorsOf, if_neg hb, Nat.testBit_or, Bool.or_eq_true, testBit_foldl_and, BlockSet.all,
    Nat.testBit_two_pow_sub_one, BlockSet.single, Nat.testBit_two_pow, decide_eq_true_eq,
    decide_eq_true_eq, eq_comm (a := b)]
  simp only [mem_predecessors]

def Below (t t' : List BlockSet) : Prop := ∀ b d, InTable t b d → InTable t' b d

theorem Below.dominatorsOf (h : Below t t') (hd : (dominatorsOf blocks t b).testBit d = true) :
    (dominatorsOf blocks t' b).testBit d = true := by
  by_cases hb : b = 0
  · subst hb
    rw [testBit_dominatorsOf_zero] at hd ⊢
    exact hd
  · rw [testBit_dominatorsOf_ne hb] at hd ⊢
    rcases hd with ⟨hlt, hps⟩ | heq
    · exact .inl ⟨hlt, fun k hk => h k d (hps k hk)⟩
    · exact .inr heq

theorem inTable_updateAt (hb : b < t.length) : InTable (updateAt blocks t b) k d ↔
    if k = b then (dominatorsOf blocks t b).testBit d = true else InTable t k d := by
  unfold InTable updateAt
  by_cases hk : k = b
  · subst hk
    simp [List.getD, hb]
  · simp [List.getD, List.getElem?_set_ne (Ne.symm hk), hk]

/-- What holds of the table at every moment: an update can only take blocks out of it, and the blocks on
all ways to a block are in its set. -/
structure Narrowing (blocks : List Block) (t : List BlockSet) : Prop where
  length : t.length = blocks.length
  lt : ∀ b d, InTable t b d → d < blocks.length
  shrinks : ∀ b < blocks.length, ∀ d, (dominatorsOf blocks t b).testBit d = true → InTable t b d
  covers : ∀ b < blocks.length, ∀ d < blocks.length,
    (∀ passed, Walk blocks b passed → d ∈ passed) → InTable t b d

theorem Narrowing.below_updateAt (h : Narrowing blocks t) (hb : b < blocks.length) :
    Below (updateAt blocks t b) t := by
  intro k d hd
  rw [inTable_updateAt (h.length ▸ hb)] at hd
  split at hd
  · next hk => exact hk ▸ h.shrinks b hb d hd
  · exact hd

/-- Blocks on all ways to a block satisfy its equation, as a way to a predecessor goes on to it. -/
theorem Narrowing.testBit_dominatorsOf (h : Narrowing blocks t) (hd : d < blocks.length)
    (hways : ∀ passed, Walk blocks b passed → d ∈ passed) :
    (dominatorsOf blocks t b).testBit d = true := by
  by_cases hb : b = 0
  · subst hb
    exact testBit_dominatorsOf_zero.mpr (List.mem_singleton.mp (hways _ .entry))
  · rw [testBit_dominatorsOf_ne hb, or_iff_not_imp_right]
    intro hne
    refine ⟨hd, fun k hk => h.covers k hk.lt d hd fun passed hpassed => ?_⟩
    exact (List.mem_cons.mp (hways _ (hpassed.step hk))).resolve_left hne

theorem Narrowing.updateAt (h : Narrowing blocks t) (hb : b < blocks.length) :
    Narrowing blocks (updateAt blocks t b) := by
  have hbelow := h.below_updateAt hb
  have hin := fun k d => @inTable_updateAt blocks t b d k (h.length ▸ hb)
  refine ⟨by rw [Ssa.updateAt, List.length_set, h.length], fun k d hd => h.lt k d (hbelow k d hd),
    fun k hk d hd => ?_, fun k hk d hd hways => ?_⟩
  · rw [hin]
    split
    · next heq => exact heq ▸ hbelow.dominatorsOf hd
    · exact h.shrinks k hk d (hbelow.dominatorsOf hd)
  · rw [hin]
    split
    · next heq => exact h.testBit_dominatorsOf hd (heq ▸ hways)
    · exact h.covers k hk d hd hways

theorem Narrowing.ext (ht : Narrowing blocks t) (ht' : Narrowing blocks t') (h : Below t t')
    (h' : ∀ b < blocks.length, ∀ d, InTable t' b d → InTable t b d) : t = t' := by
  apply List.ext_getElem (ht.length.trans ht'.length.symm)
  intro b hb hb'
  apply Nat.eq_of_testBit_eq
  intro d
  have hbd : InTable t b d ↔ InTable t' b d := ⟨h b d, h' b (ht.length ▸ hb) d⟩
  rw [InTable, InTable, List.getD_eq_getElem _ _ hb, List.getD_eq_getElem _ _ hb'] at hbd
  exact Bool.eq_iff_iff.mpr hbd

/-! ## Sweeps -/

theorem Narrowing.foldl_updateAt (h : Narrowing blocks t) {bs : List Nat}
    (hbs : ∀ b ∈ bs, b < blocks.length) :
    Narrowing blocks (bs.foldl (Ssa.updateAt blocks) t) ∧ Below (bs.foldl (Ssa.updateAt blocks) t) t ∧
      (bs.foldl (Ssa.updateAt blocks) t = t → ∀ b ∈ bs, Ssa.updateAt blocks t b = t) := by
  induction bs generalizing t with
  | nil => exact ⟨h, fun _ _ hd => hd, fun _ b hb => absurd hb List.not_mem_nil⟩
  | cons b bs ih =>
    obtain ⟨hb, hbs⟩ := List.forall_mem_cons.mp hbs
    obtain ⟨hend, hbelow, hfix⟩ := ih (h.updateAt hb) hbs
    refine ⟨hend, fun k d hd => h.below_updateAt hb k d (hbelow k d hd), fun heq => ?_⟩
    rw [List.foldl_cons] at heq
    have hfirst : Ssa.updateAt blocks t b = t :=
      (h.updateAt hb).ext h (h.below_updateAt hb) fun k _ d hd => hbelow k d (heq.symm ▸ hd)
    rw [hfirst] at heq hfix
    exact List.forall_mem_cons.mpr ⟨hfirst, hfix heq⟩

theorem Narrowing.sweep (h : Narrowing blocks t) :
    Narrowing blocks (sweep blocks t) ∧ Below (Ssa.sweep blocks t) t := by
  obtain ⟨hend, hbelow, -⟩ := h.foldl_updateAt fun b hb => List.mem_range.mp hb
  exact ⟨hend, hbelow⟩

theorem Narrowing.inTable_iff (h : Narrowing blocks t) (heq : Ssa.sweep blocks t = t)
    (hb : b < blocks.length) : InTable t b d ↔ (dominatorsOf blocks t b).testBit d = true := by
  obtain ⟨-, -, hfix⟩ := h.foldl_updateAt fun b hb => List.mem_range.mp hb
  have hin := @inTable_updateAt blocks t b d b (h.length ▸ hb)
  rwa [hfix heq b (List.mem_range.mpr hb), if_pos rfl] at hin

def pairs (n : Nat) (t : List BlockSet) : Finset (Nat × Nat) :=
  (Finset.range n ×ˢ Finset.range n).filter fun x => InTable t x.1 x.2

theorem mem_pairs : (b, d) ∈ pairs n t ↔ (b < n ∧ d < n) ∧ InTable t b d := by
  simp [pairs]

theorem card_pairs_lt (ht : Narrowing blocks t) (ht' : Narrowing blocks t') (h : Below t t')
    (hne : t ≠ t') : (pairs blocks.length t).card < (pairs blocks.length t').card := by
  apply Finset.card_lt_card
  refine ⟨fun x hx => ?_, fun hsub => hne (ht.ext ht' h fun b hb d hd => ?_)⟩
  · obtain ⟨hlt, hin⟩ := mem_pairs.mp hx
    exact mem_pairs.mpr ⟨hlt, h _ _ hin⟩
  · exact (mem_pairs.mp (hsub (mem_pairs.mpr ⟨⟨hb, ht'.lt b d hd⟩, hd⟩))).2

/-- The rounds end where a sweep changes nothing, if more are allowed than there are blocks in the sets
to begin with. -/
theorem Narrowing.refine (h : Narrowing blocks t) (rounds : Nat)
    (hrounds : (pairs blocks.length t).card < rounds) :
    Narrowing blocks (refine blocks rounds t) ∧
      Ssa.sweep blocks (Ssa.refine blocks rounds t) = Ssa.refine blocks rounds t ∧
      ∃ used < rounds, (Ssa.sweep blocks)^[used] t = Ssa.refine blocks rounds t := by
  induction rounds generalizing t with
  | zero => omega
  | succ rounds ih =>
    rw [Ssa.refine]
    by_cases heq : Ssa.sweep blocks t = t
    · rw [if_pos heq]
      exact ⟨h, heq, 0, by omega, rfl⟩
    · rw [if_neg heq]
      obtain ⟨hnext, hbelow⟩ := h.sweep
      have hlt := card_pairs_lt hnext h hbelow heq
      obtain ⟨hend, hfix, used, hused, hiter⟩ := ih hnext (by omega)
      exact ⟨hend, hfix, used + 1, by omega, hiter⟩

theorem inTable_undecided : InTable (undecided blocks) b d ↔
    b < blocks.length ∧ if b = 0 then d = 0 else d < blocks.length := by
  rw [undecided, inTable_map]
  by_cases hb : b = 0
  · simp only [hb, if_true, BlockSet.single, Nat.testBit_two_pow, decide_eq_true_eq]
    rw [eq_comm (a := d)]
  · simp [hb, BlockSet.all, Nat.testBit_two_pow_sub_one]

theorem narrowing_undecided : Narrowing blocks (undecided blocks) := by
  refine ⟨by simp [undecided], fun b d hd => ?_, fun b hb d hd => ?_, fun b hb d hd hways => ?_⟩
  · obtain ⟨hb, hd⟩ := inTable_undecided.mp hd
    split at hd <;> omega
  · refine inTable_undecided.mpr ⟨hb, ?_⟩
    split
    · next h => exact testBit_dominatorsOf_zero.mp (h ▸ hd)
    · next h =>
      rw [testBit_dominatorsOf_ne h] at hd
      omega
  · refine inTable_undecided.mpr ⟨hb, ?_⟩
    split
    · next h =>
      subst h
      exact List.mem_singleton.mp (hways _ .entry)
    · exact hd

/-! ## The dominators -/

theorem narrowing_dominators (blocks : List Block) : Narrowing blocks (dominators blocks) ∧
    sweep blocks (dominators blocks) = dominators blocks ∧
    ∃ used < blocks.length * blocks.length + 2,
      (sweep blocks)^[used] (undecided blocks) = dominators blocks := by
  have hcard := Finset.card_filter_le (Finset.range blocks.length ×ˢ Finset.range blocks.length)
    fun x => InTable (undecided blocks) x.1 x.2
  rw [Finset.card_product, Finset.card_range] at hcard
  exact narrowing_undecided.refine _ (Nat.lt_of_le_of_lt hcard (by omega))

theorem inTable_dominators (h : InTable (dominators blocks) b d) :
    (dominatorsOf blocks (dominators blocks) b).testBit d = true := by
  obtain ⟨hsound, hfix, -⟩ := narrowing_dominators blocks
  exact (hsound.inTable_iff hfix (hsound.length ▸ h.lt)).mp h

theorem inTable_dominators_zero (h : InTable (dominators blocks) 0 d) : d = 0 :=
  testBit_dominatorsOf_zero.mp (inTable_dominators h)

theorem inTable_dominators_edge (h : InTable (dominators blocks) b d) (hne : d ≠ b)
    (he : Edge blocks k b) : InTable (dominators blocks) k d := by
  by_cases hb : b = 0
  · subst hb
    exact absurd (inTable_dominators_zero h) hne
  · have hd := (testBit_dominatorsOf_ne hb).mp (inTable_dominators h)
    exact (hd.resolve_right hne).2 k he

theorem Walk.mem_of_inTable (h : Walk blocks b passed) (hd : InTable (dominators blocks) b d) :
    d ∈ passed := by
  induction h with
  | entry => exact List.mem_singleton.mpr (inTable_dominators_zero hd)
  | @step k target passed _ he ih =>
    by_cases heq : d = target
    · exact heq ▸ List.mem_cons_self
    · exact List.mem_cons_of_mem _ (ih (inTable_dominators_edge hd heq he))

theorem inTable_dominators_entry (hb : b < blocks.length) : InTable (dominators blocks) b 0 :=
  (narrowing_dominators blocks).1.covers b hb 0 (by omega) fun _ h => h.zero_mem

/-- The table of dominators is what sweeps reach that change nothing further. A block that control can
reach from the entry is dominated by exactly the blocks on every way to it; a block that it cannot reach
is dominated by all blocks. -/
theorem dominators_eq_on_every_way (blocks : List Block) :
    (∃ used < blocks.length * blocks.length + 2,
      (sweep blocks)^[used] (undecided blocks) = dominators blocks) ∧
    sweep blocks (dominators blocks) = dominators blocks ∧
    ∀ b < blocks.length,
      ((∃ passed, Walk blocks b passed) → ∀ d, InTable (dominators blocks) b d ↔
        ∀ passed, Walk blocks b passed → d ∈ passed) ∧
      ((¬∃ passed, Walk blocks b passed) → ∀ d, InTable (dominators blocks) b d ↔
        d < blocks.length) := by
  obtain ⟨hsound, hfix, hused⟩ := narrowing_dominators blocks
  refine ⟨hused, hfix, fun b hb => ⟨?_, fun hnone d => ⟨hsound.lt b d, fun hd => ?_⟩⟩⟩
  · rintro ⟨passed, hpassed⟩ d
    refine ⟨fun hd passed h => h.mem_of_inTable hd, fun h => ?_⟩
    exact hsound.covers b hb d (hpassed.mem_lt hb d (h passed hpassed)) h
  · exact hsound.covers b hb d hd fun passed h => absurd ⟨passed, h⟩ hnone

/-- Two arms meet in a block with a way back to one of them; control does not reach the last block. -/
example : dominators [⟨0, "entry", [], some (.branch (.param 0) 1 2)⟩, ⟨1, "then", [], some (.jump 3)⟩,
    ⟨2, "else", [], some (.jump 3)⟩, ⟨3, "end", [], some (.jump 1)⟩, ⟨4, "dead", [], some (.jump 3)⟩] =
    [0b00001, 0b00011, 0b00101, 0b01001, 0b11111] := by decide

end StructLang.Ssa
