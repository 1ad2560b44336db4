import Mathlib.Data.List.Chain
import Mathlib.Data.List.Nodup
import StructLang.Proofs.Flat.Growth

/-!
# Drafts of flat code under a discipline

A discipline says which instructions may stand after those since the last label, and which stack space
may be taken. The invariant of drafts is stated for any discipline: the body keeps it, labels are
pairwise distinct, jumps lead to labels further on that are there or are still to come, and what
follows a jump is a label. Every step that lowering takes with a draft keeps it.
-/

namespace StructLang.Flat

def Instr.label? : Instr → Option String
  | label l => some l
  | _ => none

def Instr.targets : Instr → List String
  | jump l => [l]
  | jumpIf _ t e => [t, e]
  | _ => []

def labels (code : List Instr) : List String := code.filterMap Instr.label?

@[simp] theorem labels_append (c c' : List Instr) : labels (c ++ c') = labels c ++ labels c' :=
  List.filterMap_append

theorem labels_single (i : Instr) : labels [i] = i.label?.toList := by
  cases h : i.label? <;> simp [labels, h]

theorem mem_labels : l ∈ labels code ↔ .label l ∈ code := by
  rw [labels, List.mem_filterMap]
  constructor
  · rintro ⟨i, hi, hl⟩
    cases i <;> cases hl
    exact hi
  · intro h
    exact ⟨_, h, rfl⟩

theorem labels_of_straight (h : Straight code) : labels code = [] := by
  refine List.filterMap_eq_nil_iff.mpr fun i hi => ?_
  have hlabel := (h i hi).1
  cases i with
  | label => cases hlabel
  | _ => rfl

theorem targets_of_straight {i : Instr} (h : i.IsStraight) : i.targets = [] := by
  have hjump := h.2
  cases i with
  | jump | jumpIf => cases hjump
  | _ => rfl

/-- Every jump leads to a label that comes after it, in the code or later. -/
def Onward (later : List String) : List Instr → Prop
  | [] => True
  | i :: rest => (∀ l ∈ i.targets, l ∈ labels rest ++ later) ∧ Onward later rest

theorem Onward.mono (h : Onward later code) (hsub : later ⊆ later') : Onward later' code := by
  induction code with
  | nil => trivial
  | cons i rest ih =>
    refine ⟨fun l hl => ?_, ih h.2⟩
    have hmem := h.1 l hl
    rw [List.mem_append] at hmem ⊢
    exact hmem.imp_right (hsub ·)

theorem onward_append :
    Onward later (code ++ code') ↔ Onward (labels code' ++ later) code ∧ Onward later code' := by
  induction code with
  | nil => simp [Onward]
  | cons i rest ih =>
    rw [List.cons_append, Onward, Onward, ih, labels_append, List.append_assoc, and_assoc]

theorem onward_of_straight (h : Straight code) : Onward later code := by
  induction code with
  | nil => trivial
  | cons i rest ih =>
    obtain ⟨hi, hrest⟩ := List.forall_mem_cons.mp h
    refine ⟨?_, ih hrest⟩
    rw [targets_of_straight hi]
    exact List.forall_mem_nil _

theorem Onward.exists_label (h : Onward [] code) {k : Nat} (hi : code[k]? = some i)
    (hl : l ∈ i.targets) : ∃ n, k < n ∧ code[n]? = some (.label l) := by
  induction code generalizing k with
  | nil => cases hi
  | cons j rest ih =>
    cases k with
    | zero =>
      cases hi
      have hmem := h.1 l hl
      rw [List.append_nil, mem_labels] at hmem
      obtain ⟨n, hn⟩ := List.mem_iff_getElem?.mp hmem
      exact ⟨n + 1, Nat.succ_pos n, hn⟩
    | succ k =>
      obtain ⟨n, hlt, hn⟩ := ih h.2 hi
      exact ⟨n + 1, Nat.succ_lt_succ hlt, hn⟩

def sinceLabel (before : List Instr) : List Instr → List Instr
  | [] => before
  | i :: rest => sinceLabel (if i.isLabel then [] else before ++ [i]) rest

theorem sinceLabel_append (before code code' : List Instr) :
    sinceLabel before (code ++ code') = sinceLabel (sinceLabel before code) code' := by
  induction code generalizing before with
  | nil => rfl
  | cons i rest ih => exact ih _

theorem sinceLabel_straight (h : Straight code) : sinceLabel before code = before ++ code := by
  induction code generalizing before with
  | nil => simp [sinceLabel]
  | cons i rest ih =>
    obtain ⟨hi, hrest⟩ := List.forall_mem_cons.mp h
    rw [sinceLabel, hi.1, if_neg Bool.false_ne_true, ih hrest]
    simp

/-- Every instruction may stand after those since the last label. -/
def Coded (P : List Instr → Instr → Prop) (before : List Instr) : List Instr → Prop
  | [] => True
  | i :: rest => P before i ∧ Coded P (sinceLabel before [i]) rest

theorem coded_append :
    Coded P before (code ++ code') ↔ Coded P before code ∧ Coded P (sinceLabel before code) code' := by
  induction code generalizing before with
  | nil => simp [Coded, sinceLabel]
  | cons i rest ih =>
    rw [List.cons_append, Coded, Coded, ih, and_assoc]
    rfl

theorem Coded.mono (h : Coded P before code)
    (hPQ : ∀ before i, P before i → Q before i) : Coded Q before code := by
  induction code generalizing before with
  | nil => trivial
  | cons i rest ih => exact ⟨hPQ _ _ h.1, ih h.2⟩

theorem Coded.getElem? (h : Coded P before code) (hi : code[n]? = some i) :
    P (sinceLabel before (code.take n)) i := by
  induction code generalizing before n with
  | nil => cases hi
  | cons j rest ih =>
    cases n with
    | zero =>
      cases hi
      exact h.1
    | succ n => exact ih h.2 hi

/-- What is asked of code. -/
structure Discipline where
  instr : List Instr → Instr → Prop
  /-- An instruction may take stack space. -/
  slot : Instr → Prop

/-- Straight code and stack space that keep a discipline. -/
structure Emitted (D : Discipline) (before : List Instr) (s : Supply) (code : List Instr)
    (s' : Supply) : Prop where
  straight : Straight code
  code : Coded D.instr before code
  slots : ∀ i ∈ s'.slots, i ∈ s.slots ∨ D.slot i

namespace Emitted

variable {code : List Instr}

theorem nil (h : s'.slots = s.slots) : Emitted D before s [] s' :=
  ⟨List.forall_mem_nil _, True.intro, fun _ hi => .inl (h ▸ hi)⟩

theorem append (h : Emitted D before s code s') (h' : Emitted D (before ++ code) s' code' s'') :
    Emitted D before s (code ++ code') s'' := by
  refine ⟨List.forall_mem_append.mpr ⟨h.straight, h'.straight⟩, coded_append.mpr ⟨h.code, ?_⟩, ?_⟩
  · rw [sinceLabel_straight h.straight]
    exact h'.code
  · intro i hi
    rcases h'.slots i hi with hi | hi
    · exact h.slots i hi
    · exact .inr hi

theorem single (h : D.instr before i) (hi : i.IsStraight) (hs : s'.slots = s.slots) :
    Emitted D before s [i] s' :=
  ⟨List.forall_mem_singleton.mpr hi, ⟨h, True.intro⟩, fun _ hi => .inl (hs ▸ hi)⟩

theorem assign (h : D.instr before (.assign s.temp cls op args)) :
    Emitted D before s [.assign s.temp cls op args] s.bump :=
  .single h ⟨rfl, rfl⟩ rfl

theorem allocate
    (h : D.slot (.assign (s.slot hint) .long (.alloc align) [.int (Int64.ofNat size)])) :
    Emitted D before s [] (s.allocate hint align size) := by
  refine ⟨List.forall_mem_nil _, True.intro, fun i hi => ?_⟩
  rcases List.mem_append.mp hi with hi | hi
  · exact .inl hi
  · rw [List.mem_singleton.mp hi]
    exact .inr h

theorem cons (h : Emitted D before s [i] s') (h' : Emitted D (before ++ [i]) s' code s'') :
    Emitted D before s (i :: code) s'' :=
  h.append h'

end Emitted

theorem Interned.emitted (h : Interned text s v s') : Emitted D before s [] s' := by
  cases h <;> exact .nil rfl

/-! ## Drafts -/

def CarriesLabel (l : String) (n : Nat) : Prop := l = s!".L{n}"

theorem determines_carriesLabel : Determines CarriesLabel := by
  rintro _ n n' rfl h
  exact append_number_inj h

def Lands (i j : Instr) : Prop := i.isJump = true → j.isLabel = true

namespace Draft

def dests (d : Draft) : List String := Flat.dests d.slots ++ Flat.dests d.body

/-- The invariant of drafts of a function that started with the given numbers. `pending` are the labels
for later. -/
structure Sound (D : Discipline) (temp label : Nat) (pending : List String) (d : Draft) : Prop where
  code : Coded D.instr [] d.body
  slots : ∀ i ∈ d.slots, D.slot i
  temp_le : temp ≤ d.nextTemp
  temps : Named Carries temp d.nextTemp d.dests
  label_le : label ≤ d.nextLabel
  labels : Named CarriesLabel label d.nextLabel (labels d.body ++ pending)
  onward : Onward pending d.body
  lands : d.body.IsChain Lands

theorem isTerminated_emit (d : Draft) (i : Instr) : (d.emit i).isTerminated = i.isJump := by
  simp [isTerminated, emit]

theorem isTerminated_extend {d : Draft} (ho : d.isTerminated = false)
    (h : Straight code) : (d.extend s code).isTerminated = false := by
  rcases List.eq_nil_or_concat code with rfl | ⟨init, i, rfl⟩
  · simpa [isTerminated, extend] using ho
  · have hi := (h i (by simp)).2
    simp [isTerminated, extend, ← List.append_assoc, hi]

theorem not_jump_of_open {d : Draft} (ho : d.isTerminated = false) :
    ∀ i ∈ d.body.getLast?, i.isJump = false := by
  intro i hi
  rw [isTerminated, Option.mem_def.mp hi] at ho
  exact ho

namespace Sound

variable {label : Nat} {d : Draft}

theorem extend (h : d.Sound D temp label pending) (ho : d.isTerminated = false)
    {code : List Instr} (hd : Draws d.supply code s)
    (he : ∀ before, Emitted D before d.supply code s) :
    (d.extend s code).Sound D temp label pending := by
  obtain ⟨new, hnew, -, hnamed⟩ := hd.slots
  have hstraight := (he []).straight
  have hlabels : Flat.labels (d.body ++ code) = Flat.labels d.body := by
    rw [labels_append, labels_of_straight hstraight, List.append_nil]
  refine ⟨coded_append.mpr ⟨h.code, (he _).code⟩, ?_, Nat.le_trans h.temp_le hd.temps, ?_,
    h.label_le, ?_, ?_, ?_⟩
  · intro i hi
    rcases (he []).slots i hi with hi | hi
    · exact h.slots i hi
    · exact hi
  · refine (h.temps.append determines_carries hnamed h.temp_le hd.temps).perm ?_
    simp only [Draft.dests, Draft.extend, hnew, dests_append, List.append_assoc]
    refine .append_left _ ?_
    simp only [← List.append_assoc]
    exact .append_right _ List.perm_append_comm
  · simpa only [Draft.extend, hlabels] using h.labels
  · refine onward_append.mpr ⟨?_, onward_of_straight hstraight⟩
    rw [labels_of_straight hstraight]
    exact h.onward
  · refine h.lands.append ?_ ?_
    · refine List.isChain_iff_getElem.mpr fun n hn hjump => ?_
      rw [(hstraight _ (List.getElem_mem _)).2] at hjump
      cases hjump
    · intro i hi j _ hjump
      rw [not_jump_of_open ho i hi] at hjump
      cases hjump

theorem emit (h : d.Sound D temp label pending) (hi : D.instr (sinceLabel [] d.body) i)
    (hdest : i.dest? = none) (hpending : pending = i.label?.toList ++ pending')
    (htargets : ∀ l ∈ i.targets, l ∈ pending')
    (hlands : d.isTerminated = false ∨ i.isLabel = true) :
    (d.emit i).Sound D temp label pending' := by
  have hlabels : Flat.labels (d.emit i).body ++ pending' = Flat.labels d.body ++ pending := by
    rw [Draft.emit, labels_append, labels_single, hpending, List.append_assoc]
  refine ⟨coded_append.mpr ⟨h.code, hi, True.intro⟩, h.slots, h.temp_le, ?_, h.label_le, ?_, ?_, ?_⟩
  · simpa [Draft.dests, Draft.emit, Flat.dests, hdest] using h.temps
  · rw [hlabels]
    exact h.labels
  · refine onward_append.mpr ⟨?_, fun l hl => List.mem_append_right _ (htargets l hl), True.intro⟩
    rw [labels_single, ← hpending]
    exact h.onward
  · refine h.lands.append (List.isChain_singleton i) fun j hj k hk hjump => ?_
    cases hk
    rcases hlands with ho | hlabel
    · rw [not_jump_of_open ho j hj] at hjump
      cases hjump
    · exact hlabel

theorem emitJump (h : d.Sound D temp label pending) (ho : d.isTerminated = false)
    (hjump : i.isJump = true) (hi : D.instr (sinceLabel [] d.body) i)
    (htargets : ∀ l ∈ i.targets, l ∈ pending) : (d.emit i).Sound D temp label pending := by
  refine h.emit hi ?_ ?_ htargets (.inl ho) <;> cases i <;> first | rfl | cases hjump

theorem emitLabel (h : d.Sound D temp label (l :: pending))
    (hl : ∀ before, D.instr before (.label l)) : (d.emit (.label l)).Sound D temp label pending :=
  h.emit (hl _) rfl rfl (List.forall_mem_nil _) (.inr rfl)

theorem emitIfOpen (h : d.Sound D temp label pending) (hjump : i.isJump = true)
    (hi : ∀ before, D.instr before i) (htargets : ∀ l ∈ i.targets, l ∈ pending) :
    (d.emitIfOpen i).Sound D temp label pending := by
  unfold Draft.emitIfOpen
  split
  · exact h
  · next ho => exact h.emitJump (by simpa using ho) hjump (hi _) htargets

theorem bumpLabel (h : d.Sound D temp label pending) (k : Nat) :
    (d.bumpLabel k).Sound D temp label (((List.range k).map d.label) ++ pending) := by
  have hnew : Named CarriesLabel d.nextLabel (d.nextLabel + k) ((List.range k).map d.label) := by
    refine ⟨?_, ?_⟩
    · refine List.Nodup.map_on (fun a _ b _ heq => ?_) List.nodup_range
      exact Nat.add_left_cancel (append_number_inj heq)
    · intro x hx
      obtain ⟨a, ha, rfl⟩ := List.mem_map.mp hx
      have := List.mem_range.mp ha
      exact ⟨d.nextLabel + a, rfl, by omega, by omega⟩
  refine ⟨h.code, h.slots, h.temp_le, h.temps, Nat.le_add_right_of_le h.label_le, ?_, ?_, h.lands⟩
  · refine (h.labels.append determines_carriesLabel hnew h.label_le (Nat.le_add_right _ _)).perm ?_
    rw [List.append_assoc]
    exact .append_left _ List.perm_append_comm
  · exact h.onward.mono (List.subset_append_right _ _)

theorem reopen (h : d.Sound D temp label pending) (hl : ∀ before l, D.instr before (.label l)) :
    d.reopen.Sound D temp label pending ∧ d.reopen.isTerminated = false := by
  unfold Draft.reopen
  split
  · have hbumped : (d.bumpLabel 1).Sound D temp label (d.label 0 :: pending) := by
      simpa [List.range_succ] using h.bumpLabel 1
    exact ⟨hbumped.emitLabel (hl · _), isTerminated_emit _ _⟩
  · next ho => exact ⟨h, by simpa using ho⟩

theorem openBranch (h : d.Sound D temp label pending) (ho : d.isTerminated = false)
    (hv : ∀ t e, D.instr (sinceLabel [] d.body) (.jumpIf v t e))
    (hl : ∀ before l, D.instr before (.label l)) :
    (d.openBranch v).Sound D temp label (d.label 1 :: d.label 2 :: pending) ∧
      (d.openBranch v).isTerminated = false := by
  have hbumped : (d.bumpLabel 3).Sound D temp label
      (d.label 0 :: d.label 1 :: d.label 2 :: pending) := by
    simpa [List.range_succ] using h.bumpLabel 3
  refine ⟨(hbumped.emitJump ho rfl (hv _ _) ?_).emitLabel (hl · _), isTerminated_emit _ _⟩
  simp [Instr.targets]

theorem closeArm (h : d.Sound D temp label (next :: pending)) (hlast : last ∈ next :: pending)
    (hjump : ∀ before l, D.instr before (.jump l)) (hl : ∀ before l, D.instr before (.label l)) :
    (d.closeArm next last).Sound D temp label pending ∧ (d.closeArm next last).isTerminated = false := by
  exact ⟨(h.emitIfOpen rfl (hjump · _) (List.forall_mem_singleton.mpr hlast)).emitLabel (hl · _),
    isTerminated_emit _ _⟩

theorem start (d : Draft) :
    Sound D d.nextTemp d.nextLabel [] { d with slots := [], body := [] } :=
  ⟨True.intro, List.forall_mem_nil _, Nat.le_refl _, .nil, Nat.le_refl _, .nil, True.intro, .nil⟩

end Sound

end Draft

end StructLang.Flat
