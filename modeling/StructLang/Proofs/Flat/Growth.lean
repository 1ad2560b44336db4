import StructLang.Proofs.Flat.Code
import StructLang.Proofs.Numbering

/-!
# How flat code grows

Lowering only adds: data and stack space go to the end of their lists, code goes to the end of the body,
and every temporary that is assigned has a name with a fresh number. The numbers run through the whole
module, so no two functions assign the same temporary.
-/

namespace StructLang.Flat

def Instr.dest? : Instr → Option String
  | assign dest .. | call (some (dest, _)) .. => some dest
  | _ => none

def dests (code : List Instr) : List String := code.filterMap Instr.dest?

@[simp] theorem dests_nil : dests [] = [] := rfl

@[simp] theorem dests_append (c c' : List Instr) : dests (c ++ c') = dests c ++ dests c' :=
  List.filterMap_append

theorem mem_dests : t ∈ dests code ↔ ∃ i ∈ code, i.dest? = some t :=
  List.mem_filterMap

def Instr.isLabel : Instr → Bool
  | label _ => true
  | _ => false

def Instr.IsStraight (i : Instr) : Prop := i.isLabel = false ∧ i.isJump = false

theorem Instr.isStraight_of_dest? {i : Instr} (h : i.dest? = some t) : i.IsStraight := by
  cases i with
  | assign | call => exact ⟨rfl, rfl⟩
  | _ => cases h

def Straight (code : List Instr) : Prop := ∀ i ∈ code, i.IsStraight

theorem Straight.nil : Straight [] := List.forall_mem_nil _

theorem Straight.append (h : Straight code) (h' : Straight code') : Straight (code ++ code') :=
  List.forall_mem_append.mpr ⟨h, h'⟩

theorem Straight.single {i : Instr} (hi : i.IsStraight) : Straight [i] := List.forall_mem_singleton.mpr hi

/-- The instruction takes stack space, under a name with a hint and a number. -/
def Instr.IsAlloc (i : Instr) : Prop :=
  ∃ (hint : String) (n align : Nat) (size : Int64),
    i = .assign s!"{hint}.{n}" .long (.alloc align) [.int size]

/-- A name that lowering gave to a temporary or to stack space, with its number. -/
inductive Carries : String → Nat → Prop where
  | temp (n : Nat) : Carries s!".t{n}" n
  | slot (hint : String) (n : Nat) : Carries s!"{hint}.{n}" n

theorem temp_ne_slot (n : Nat) (hint : String) (k : Nat) : s!".t{n}" ≠ s!"{hint}.{k}" := by
  intro h
  have hlist : [] ++ '.' :: 't' :: Nat.toDigits 10 n =
      hint.toList ++ '.' :: Nat.toDigits 10 k := by
    have htoList := congrArg String.toList h
    rw [show s!"{hint}.{k}" = numberedName hint k from rfl, toList_numberedName] at htoList
    simpa [ToString.toString, Nat.repr_eq_ofList_toDigits] using htoList
  have hdot : ∀ n : Nat, '.' ∉ Nat.toDigits 10 n := fun n hm => by
    cases isDigit_of_mem_digits hm
  -- the last dot of the first name stands before a letter
  obtain ⟨-, hdigits⟩ := append_cons_inj (by simpa using hdot n) (hdot k) hlist
  have ht : 't' ∈ Nat.toDigits 10 k := hdigits ▸ List.mem_cons_self
  cases isDigit_of_mem_digits ht

theorem determines_carries : Determines Carries := by
  intro x n n' h h'
  generalize hx : x = y at h'
  cases h with
  | temp =>
    cases h' with
    | temp => exact append_number_inj hx
    | slot hint => exact absurd hx (temp_ne_slot n hint n')
  | slot hint =>
    cases h' with
    | temp => exact absurd hx.symm (temp_ne_slot n' hint n)
    | slot hint' => exact (numberedName_inj.mp hx).2

/-- Straight code drawn from a supply: what it added, with every temporary assigned once. -/
structure Draws (s : Supply) (code : List Instr) (s' : Supply) : Prop where
  straight : Straight code
  data : s.data <+: s'.data
  temps : s.nextTemp ≤ s'.nextTemp
  slots : ∃ new, s'.slots = s.slots ++ new ∧ (∀ i ∈ new, i.IsAlloc) ∧
    Named Carries s.nextTemp s'.nextTemp (dests new ++ dests code)

namespace Draws

theorem nil : Draws s [] s := ⟨.nil, List.prefix_rfl, Nat.le_refl _, [], by simp, by simp, .nil⟩

theorem append (h : Draws s c s') (h' : Draws s' c' s'') : Draws s (c ++ c') s'' := by
  obtain ⟨new, hnew, halloc, hnamed⟩ := h.slots
  obtain ⟨new', hnew', halloc', hnamed'⟩ := h'.slots
  refine ⟨h.straight.append h'.straight, h.data.trans h'.data, Nat.le_trans h.temps h'.temps,
    new ++ new', ?_, ?_, ?_⟩
  · rw [hnew', hnew, List.append_assoc]
  · exact List.forall_mem_append.mpr ⟨halloc, halloc'⟩
  · refine (hnamed.append determines_carries hnamed' h.temps h'.temps).perm ?_
    simp only [dests_append, List.append_assoc]
    refine .append_left _ ?_
    simp only [← List.append_assoc]
    exact .append_right _ List.perm_append_comm

theorem assign (h : i.dest? = some s.temp) : Draws s [i] s.bump := by
  refine ⟨.single (i.isStraight_of_dest? h), List.prefix_rfl, Nat.le_succ _, [], by simp [Supply.bump],
    by simp, ?_⟩
  simpa [dests, h] using
    (show Named Carries s.nextTemp s.bump.nextTemp [s.temp] from
      .single (.temp _) (Nat.le_refl _) (Nat.lt_succ_self _))

theorem effect (h : i.dest? = none) (hi : i.IsStraight) : Draws s [i] s := by
  refine ⟨.single hi, List.prefix_rfl, Nat.le_refl _, [], by simp, by simp, ?_⟩
  simpa [dests, h] using Named.nil

theorem allocate (hint : String) (align size : Nat) : Draws s [] (s.allocate hint align size) := by
  refine ⟨.nil, List.prefix_rfl, Nat.le_succ _, _, rfl, ?_, ?_⟩
  · exact List.forall_mem_singleton.mpr ⟨hint, _, align, _, rfl⟩
  · exact Named.single (.slot hint s.nextTemp) (Nat.le_refl _) (Nat.lt_succ_self _)

theorem cons (h : Draws s [i] s') (h' : Draws s' c s'') : Draws s (i :: c) s'' := h.append h'

end Draws

theorem Allocated.draws (h : Allocated env ty hint s slot s') : Draws s [] s' := by
  cases h with
  | mk => exact .allocate ..

theorem StoreCode.straight (h : StoreCode env v a ty code) : Straight code := by
  cases h <;> exact .single ⟨rfl, rfl⟩

theorem StoreCode.draws (h : StoreCode env v a ty code) : Draws s code s := by
  cases h <;> exact .effect rfl ⟨rfl, rfl⟩

theorem ToValue.draws (h : ToValue s low v code s') : Draws s code s' := by
  cases h with
  | value | struct => exact .nil
  | load => exact .assign rfl

theorem ToAddress.draws (h : ToAddress env s low v code s') : Draws s code s' := by
  cases h with
  | place | struct => exact .nil
  | spill _ ha hs => exact ha.draws.append hs.draws

theorem SlotAddress.draws (h : SlotAddress s slot v code s') : Draws s code s' := by
  cases h with
  | direct => exact .nil
  | reference => exact .assign rfl

theorem Interned.draws (h : Interned text s v s') : Draws s [] s' := by
  cases h with
  | old => exact .nil
  | new => exact ⟨.nil, List.prefix_append _ _, Nat.le_refl _, [], by simp, by simp, .nil⟩

theorem CastCode.draws (h : CastCode v source target s w code s') : Draws s code s' := by
  cases h with
  | same => exact .nil
  | convert => exact .assign rfl

theorem CallCode.draws (h : CallCode callee args s v code s') : Draws s code s' := by
  cases h with
  | void => exact .effect rfl ⟨rfl, rfl⟩
  | result => exact .assign rfl

mutual

theorem ExprCode.draws {s s' : Supply} {code : List Instr} :
    ExprCode env scope e s low code s' → Draws s code s'
  | .integer .. | .float .. | .bool .. => .nil
  | .text _ hv => hv.draws
  | .var _ _ ha => ha.draws
  | .unary _ he hv _ => he.draws.append (hv.draws.append (.assign rfl))
  | .compare _ _ hl hv hr hw _ _ _ | .arith _ _ hl hv hr hw _ _ _ =>
    hl.draws.append (hv.draws.append (hr.draws.append (hw.draws.append (.assign rfl))))
  | .cast _ _ he hv hw => he.draws.append (hv.draws.append hw.draws)
  | .call _ _ _ hargs hcall => hargs.draws.append hcall.draws
  | .construct _ _ ha hargs => ha.draws.append hargs.draws
  | .access _ _ _ he ha => he.draws.append (ha.draws.append (.assign rfl))

theorem ArgsCode.draws {s s' : Supply} {code : List Instr} :
    ArgsCode env scope receiver es s args code s' → Draws s code s'
  | .nil => .nil
  | .receiver he ha hes => he.draws.append (ha.draws.append hes.draws)
  | .value he hv _ _ hes => he.draws.append (hv.draws.append hes.draws)

theorem FieldsCode.draws {s s' : Supply} {code : List Instr} :
    FieldsCode env scope base fields es s code s' → Draws s code s'
  | .nil | .none => .nil
  | .cons he hv hs hes =>
    he.draws.append (hv.draws.append (.cons (.assign rfl) (hs.draws.append hes.draws)))

end

theorem ValueCode.draws (h : ValueCode env scope e s v code s') : Draws s code s' := by
  cases h with
  | mk he hv => exact he.draws.append hv.draws

theorem ZeroWords.draws (h : ZeroWords a words offset s code s') : Draws s code s' := by
  induction h with
  | nil => exact .nil
  | first _ ih => exact .cons (.effect rfl ⟨rfl, rfl⟩) ih
  | next _ _ ih => exact .cons (.assign rfl) (.cons (.effect rfl ⟨rfl, rfl⟩) ih)

theorem ZeroCode.draws (h : ZeroCode env a s ty code s') :
    Draws s code s' := by
  cases h with
  | struct h => exact h.draws
  | single | double | scalar => exact .effect rfl ⟨rfl, rfl⟩

theorem ReceiverCode.draws (h : ReceiverCode env scope s receiver scope' params code s') :
    Draws s code s' := by
  cases h with
  | none => exact .nil
  | some ha => exact ha.draws.append (.effect rfl ⟨rfl, rfl⟩)

theorem ParamsCode.draws (h : ParamsCode env scope ps s scope' params code s') :
    Draws s code s' := by
  induction h with
  | nil => exact .nil
  | cons ha hs _ _ ih => exact (ha.draws.append hs.draws).append ih

/-! ## Drafts -/

/-- What later drafts of a function keep of an earlier one. -/
structure Draft.Grows (d d' : Draft) : Prop where
  data : d.data <+: d'.data
  slots : d.slots <+: d'.slots
  body : d.body <+: d'.body
  temps : d.nextTemp ≤ d'.nextTemp
  labels : d.nextLabel ≤ d'.nextLabel

namespace Draft.Grows

variable {d : Draft}

theorem refl : d.Grows d :=
  ⟨List.prefix_rfl, List.prefix_rfl, List.prefix_rfl, Nat.le_refl _, Nat.le_refl _⟩

theorem trans (h : d.Grows d') (h' : d'.Grows d'') : d.Grows d'' :=
  ⟨h.data.trans h'.data, h.slots.trans h'.slots, h.body.trans h'.body,
    Nat.le_trans h.temps h'.temps, Nat.le_trans h.labels h'.labels⟩

theorem extend (h : Draws d.supply code s) : d.Grows (d.extend s code) := by
  obtain ⟨new, hnew, -⟩ := h.slots
  exact ⟨h.data, ⟨new, hnew.symm⟩, List.prefix_append _ _, h.temps, Nat.le_refl _⟩

theorem emit (i : Instr) : d.Grows (d.emit i) :=
  ⟨List.prefix_rfl, List.prefix_rfl, List.prefix_append _ _, Nat.le_refl _, Nat.le_refl _⟩

theorem emitIfOpen (i : Instr) : d.Grows (d.emitIfOpen i) := by
  unfold Draft.emitIfOpen
  split
  · exact refl
  · exact emit i

theorem bumpLabel (k : Nat) : d.Grows (d.bumpLabel k) :=
  ⟨List.prefix_rfl, List.prefix_rfl, List.prefix_rfl, Nat.le_refl _, Nat.le_add_right _ _⟩

theorem reopen : d.Grows d.reopen := by
  unfold Draft.reopen
  split
  · exact (bumpLabel 1).trans (emit _)
  · exact refl

theorem openBranch (v : Operand) : d.Grows (d.openBranch v) :=
  ((bumpLabel 3).trans (emit _)).trans (emit _)

theorem closeArm (next last : String) : d.Grows (d.closeArm next last) :=
  (emitIfOpen _).trans (emit _)

end Draft.Grows

mutual

theorem StmtCode.grows : StmtCode env scope stmt d scope' d' → d.Grows d'
  | .declare _ ha _ hv hs => .extend (ha.draws.append (hv.draws.append hs.draws))
  | .declareZero _ ha _ hz => .extend (ha.draws.append hz.draws)
  | .assign _ hv ha hs => .extend (hv.draws.append (ha.draws.append hs.draws))
  | .branch hv ht => ((((Draft.Grows.extend hv.draws).trans (.openBranch _)).trans ht.grows).trans
      (.closeArm _ _)).trans (.closeArm _ _)
  | .branchElse hv ht he => (((((Draft.Grows.extend hv.draws).trans (.openBranch _)).trans
      ht.grows).trans (.closeArm _ _)).trans he.grows).trans (.closeArm _ _)
  | .retNone => .emit _
  | .ret hv => (Draft.Grows.extend hv.draws).trans (.emit _)
  | .expr hv => .extend hv.draws

theorem StmtsCode.grows : StmtsCode env scope stmts d d' → d.Grows d'
  | .nil => .refl
  | .cons hs hrest => (Draft.Grows.reopen.trans hs.grows).trans hrest.grows

theorem BlockCode.grows : BlockCode env scope b d d' → d.Grows d'
  | .mk h => h.grows

end

end StructLang.Flat
