import StructLang.Proofs.Flat.Ownership
import StructLang.Proofs.Lowering

/-!
# The structure of lowered flat code

Whatever types an analysis hands to lowering, the functions that come out are put together well: jumps
lead to labels of the same body, no temporary of the module is assigned twice, and a temporary is read
only where it is a parameter, stack space or was assigned since the last label. The functions of a typed
program also write only to stack space of their own.
-/

namespace StructLang.Flat

/-- What an instruction takes. -/
def Instr.operands : Instr → List Operand
  | assign _ _ _ args => args
  | store _ v a => [v, a]
  | blit source target _ => [source, target]
  | call _ _ args => args.map Prod.snd
  | jumpIf cond _ _ => [cond]
  | ret v => v.toList
  | label _ | jump _ | halt => []

def Instr.isAlloc : Instr → Bool
  | assign _ _ (.alloc _) _ => true
  | _ => false

/-- The temporary is assigned by one of the instructions at the start of the body that take stack
space. -/
def Function.HasSlot (f : Function) (t : String) : Prop :=
  t ∈ dests (f.body.tail.takeWhile Instr.isAlloc)

/-- The temporary is assigned in the code, and no label comes after that. -/
def AssignedSinceLabel (code : List Instr) (t : String) : Prop :=
  ∃ before i after, code = before ++ i :: after ∧ i.dest? = some t ∧ ∀ j ∈ after, j.isLabel = false

/-- A function is put together well. -/
structure Function.WellBuilt (f : Function) : Prop where
  start : f.body.head? = some (.label "start")
  labels : (labels f.body).Nodup
  targets : ∀ i ∈ f.body, ∀ l ∈ i.targets, l ∈ Flat.labels f.body
  lands : ∀ (n : Nat) (i j : Instr), f.body[n]? = some i → i.isJump = true →
    f.body[n + 1]? = some j → j.isLabel = true
  last : ∃ i, f.body.getLast? = some i ∧ i.isJump = true
  reads : ∀ (n : Nat) (i : Instr), f.body[n]? = some i → ∀ t, .temp t ∈ i.operands →
    t ∈ f.params.map Prod.snd ∨ f.HasSlot t ∨ AssignedSinceLabel (f.body.take n) t

/-! ## Operands that are assigned -/

/-- What the code of a function may use. -/
structure Space where
  params : List String
  slots : List String
  /-- The code is that of a typed body, which writes only to this stack space. -/
  strict : Prop

section

variable {c : Space}

/-- If the operand is a temporary, it is a given one or was assigned before. -/
def Operand.Known (c : Space) (before : List Instr) (v : Operand) : Prop :=
  ∀ t, v = .temp t → t ∈ c.params ++ c.slots ∨ t ∈ dests before

theorem Operand.Known.append {v : Operand} (h : v.Known c before) (code : List Instr) :
    v.Known c (before ++ code) := by
  intro t ht
  rw [dests_append]
  exact (h t ht).imp_right (List.mem_append_left _)

variable {d : Draft}

theorem known_last (h : i.dest? = some t) :
    (Operand.temp t).Known c (before ++ [i]) := by
  rintro _ ⟨⟩
  exact .inr (mem_dests.mpr ⟨i, by simp, h⟩)

theorem known_param (h : t ∈ c.params) : (Operand.temp t).Known c before := by
  rintro _ ⟨⟩
  exact .inl (List.mem_append_left _ h)

theorem known_slot (h : t ∈ c.slots) : (Operand.temp t).Known c before := by
  rintro _ ⟨⟩
  exact .inl (List.mem_append_right _ h)

theorem known_int (v : Int64) : (Operand.int v).Known c before := nofun

/-- Only what is given or was assigned since the last label is read, and strict code writes only to
stack space of its own. -/
def closing (c : Space) : Discipline where
  instr before i := (∀ v ∈ i.operands, v.Known c before) ∧ (c.strict → i.WritesOwn c.slots before)
  slot := Instr.IsAlloc

theorem closing_silent (h : ∀ v ∈ i.operands, v.Known c before) (hi : i.writes? = none) :
    (closing c).instr before i :=
  ⟨h, fun _ _ _ hw => by cases hi.symm.trans hw⟩

theorem closing_jump (before : List Instr) (l : String) : (closing c).instr before (.jump l) :=
  closing_silent nofun rfl

theorem closing_label (before : List Instr) (l : String) : (closing c).instr before (.label l) :=
  closing_silent nofun rfl

theorem Emitted.compute (h : ∀ v ∈ args, v.Known c before) :
    Emitted (closing c) before s [.assign s.temp cls op args] s.bump :=
  .assign (closing_silent h rfl)

theorem Emitted.write {s : Supply} (h : ∀ v ∈ i.operands, v.Known c before)
    (hi : i.writes? = some (a, size)) (ha : c.strict → a.Owned c.slots before) :
    Emitted (closing c) before s [i] s := by
  refine .single ⟨h, fun hstrict a' size' hw => ?_⟩ ?_ rfl
  · cases hi.symm.trans hw
    exact ha hstrict
  · cases i with
    | store | blit => exact ⟨rfl, rfl⟩
    | _ => cases hi

def Lowered.Known (c : Space) (before : List Instr) : Lowered → Prop
  | .value _ v | .place _ v => v.Known c before

def Scope.Slotted (slots : List String) (scope : Scope Slot) : Prop :=
  ∀ name slot, scope.lookup? name = some slot → slot.temp ∈ slots

theorem Scope.Slotted.storage (h : Scope.Slotted slots scope)
    (hslot : scope.storage name = .ok slot) : slot.temp ∈ slots :=
  h name slot (lookup?_of_storage hslot)

theorem Draws.dests_subset (h : Draws s code s') (hw : dests s'.slots ⊆ c.slots) :
    dests s.slots ⊆ c.slots := by
  obtain ⟨new, hnew, -⟩ := h.slots
  rw [hnew, dests_append] at hw
  exact fun t ht => hw (List.mem_append_left _ ht)

/-! ## Expressions -/

theorem Allocated.known (h : Allocated env ty hint s slot s') (hw : dests s'.slots ⊆ c.slots)
    (before : List Instr) : Emitted (closing c) before s [] s' ∧ slot ∈ c.slots := by
  cases h with
  | mk => exact ⟨.allocate ⟨_, _, _, _, rfl⟩, hw (by simp [Supply.allocate, dests, Instr.dest?])⟩

theorem StoreCode.known (h : StoreCode env v a ty code) (hv : v.Known c before)
    (ha : a.Known c before) (hown : c.strict → a.Owned c.slots before) :
    Emitted (closing c) before s code s := by
  have hreads : ∀ x ∈ [v, a], x.Known c before := by simpa using ⟨hv, ha⟩
  cases h <;> exact .write hreads rfl hown

theorem StoreCode.known_slot (h : StoreCode env v (.temp slot) ty code) (hv : v.Known c before)
    (hslot : slot ∈ c.slots) : Emitted (closing c) before s code s :=
  h.known hv (Flat.known_slot hslot) fun _ => owned_start hslot

theorem ToValue.known (h : ToValue s low v code s') (hlow : low.Known c before) :
    Emitted (closing c) before s code s' ∧ v.Known c (before ++ code) := by
  cases h with
  | value | struct => exact ⟨.nil rfl, by rw [List.append_nil]; exact hlow⟩
  | load => exact ⟨.compute (List.forall_mem_singleton.mpr hlow), known_last rfl⟩

theorem ToAddress.known (h : ToAddress env s low v code s') (hw : dests s'.slots ⊆ c.slots)
    (hlow : low.Known c before) :
    Emitted (closing c) before s code s' ∧ v.Known c (before ++ code) := by
  cases h with
  | place | struct => exact ⟨.nil rfl, by rw [List.append_nil]; exact hlow⟩
  | spill _ ha hs =>
    obtain ⟨h1, hslot⟩ := ha.known hw before
    refine ⟨h1.append (hs.known_slot ?_ hslot), known_slot hslot⟩
    rw [List.append_nil]
    exact hlow

theorem SlotAddress.known {slot : Slot} (h : SlotAddress s slot v code s')
    (hslot : slot.temp ∈ c.slots) :
    Emitted (closing c) before s code s' ∧ v.Known c (before ++ code) := by
  cases h with
  | direct => exact ⟨.nil rfl, known_slot hslot⟩
  | reference =>
    exact ⟨.compute (List.forall_mem_singleton.mpr (known_slot hslot)), known_last rfl⟩

theorem SlotAddress.owned {slot : Slot} (h : SlotAddress s slot v code s') (hslot : slot.temp ∈ c.slots)
    (href : slot.byReference = false) : v.Owned c.slots before := by
  cases h with
  | direct => exact owned_start hslot
  | reference h => cases h.symm.trans href

theorem castOp_known (h : castOp v source target = .ok (cls, op, args)) (hv : v.Known c before) :
    ∀ x ∈ args, x.Known c before := by
  have hboth : ∀ x ∈ [v, .int 0], x.Known c before := by simpa using ⟨hv, known_int 0⟩
  have hone : ∀ x ∈ [v], x.Known c before := by simpa using hv
  unfold castOp at h
  split at h <;> cases h <;> assumption

theorem CastCode.known (h : CastCode v source target s w code s') (hv : v.Known c before) :
    Emitted (closing c) before s code s' ∧ w.Known c (before ++ code) := by
  cases h with
  | same => exact ⟨.nil rfl, by rwa [List.append_nil]⟩
  | convert _ hop => exact ⟨.compute (castOp_known hop hv), known_last rfl⟩

theorem CallCode.known (h : CallCode callee args s v code s')
    (hargs : ∀ a ∈ args, a.2.Known c before) :
    Emitted (closing c) before s code s' ∧ v.Known c (before ++ code) := by
  have hreads : ∀ a ∈ args.map Prod.snd, Operand.Known c before a := List.forall_mem_map.mpr hargs
  cases h with
  | void => exact ⟨.single (closing_silent hreads rfl) ⟨rfl, rfl⟩ rfl, known_int 0⟩
  | result => exact ⟨.single (closing_silent hreads rfl) ⟨rfl, rfl⟩ rfl, known_last rfl⟩

theorem unaryOp_known {op : UnaryOp} (hv : v.Known c before) :
    ∀ x ∈ (unaryOp op v).2, x.Known c before := by
  cases op with
  | neg => simpa [unaryOp] using hv
  | not | bitNot => simpa [unaryOp] using ⟨hv, known_int _⟩

theorem Emitted.operator {low1 : Lowered}
    (h1 : Emitted (closing c) before s c1 s1 ∧ low1.Known c (before ++ c1))
    (hv : ToValue s1 low1 v c2 s2)
    (h3 : Emitted (closing c) (before ++ c1 ++ c2) s2 c3 s3 ∧ low2.Known c (before ++ c1 ++ c2 ++ c3))
    (hw : ToValue s3 low2 w c4 s4) : Emitted (closing c) before s
        (c1 ++ (c2 ++ (c3 ++ (c4 ++ [.assign s4.temp cls op [v, w]])))) s4.bump ∧
      (Operand.temp s4.temp).Known c
        (before ++ (c1 ++ (c2 ++ (c3 ++ (c4 ++ [.assign s4.temp cls op [v, w]]))))) := by
  obtain ⟨h2, hval1⟩ := hv.known h1.2
  obtain ⟨h4, hval2⟩ := hw.known h3.2
  refine ⟨h1.1.append (h2.append (h3.1.append (h4.append (.compute ?_)))), ?_⟩
  · exact List.forall_mem_cons.mpr
      ⟨(hval1.append c3).append c4, List.forall_mem_singleton.mpr hval2⟩
  · simp only [← List.append_assoc]
    exact known_last rfl

theorem Emitted.args {args : List (Class × Operand)} (h1 : Emitted (closing c) before s c1 s1)
    (h2 : Emitted (closing c) (before ++ c1) s1 c2 s2 ∧ v.Known c (before ++ c1 ++ c2))
    (h3 : Emitted (closing c) (before ++ c1 ++ c2) s2 c3 s3 ∧
      ∀ a ∈ args, a.2.Known c (before ++ c1 ++ c2 ++ c3)) :
    Emitted (closing c) before s (c1 ++ (c2 ++ c3)) s3 ∧
      ∀ a ∈ (cls, v) :: args, a.2.Known c (before ++ (c1 ++ (c2 ++ c3))) := by
  refine ⟨h1.append (h2.1.append h3.1), List.forall_mem_cons.mpr ⟨?_, ?_⟩⟩
  · simpa only [List.append_assoc] using h2.2.append _
  · simpa only [List.append_assoc] using h3.2

theorem floatLiteral_known : (floatLiteral value ty).Known c before := by
  unfold floatLiteral
  split <;> exact nofun

theorem Emitted.offset (hslot : slot ∈ c.slots) (offset : Int64) :
    Emitted (closing c) before s [.assign s.temp .long .add [.temp slot, .int offset]] s.bump :=
  .compute (List.forall_mem_cons.mpr ⟨known_slot hslot, List.forall_mem_singleton.mpr (known_int _)⟩)

variable {env : Env}

mutual

theorem ExprCode.known (hl : c.strict → env.layouts.Packed) (hs : Scope.Slotted c.slots scope)
    {e : Expr} {code : List Instr} (before : List Instr) :
    ExprCode env scope e s low code s' → dests s'.slots ⊆ c.slots →
    Emitted (closing c) before s code s' ∧ low.Known c (before ++ code)
  | .integer .., _ | .bool .., _ => ⟨.nil rfl, known_int _⟩
  | .float .., _ => ⟨.nil rfl, floatLiteral_known⟩
  | .text _ hv, _ => ⟨hv.emitted, by cases hv <;> exact nofun⟩
  | .var _ hslot ha, _ => ha.known (hs.storage hslot)
  | .unary _ he hv _, hw => by
    obtain ⟨h1, hlow⟩ := he.known hl hs before (hv.draws.dests_subset hw)
    obtain ⟨h2, hval⟩ := hv.known hlow
    refine ⟨h1.append (h2.append (.compute (unaryOp_known hval))), ?_⟩
    rw [← List.append_assoc, ← List.append_assoc]
    exact known_last rfl
  | .compare _ _ hcl hv hcr hv' _ _ _, hw | .arith _ _ hcl hv hcr hv' _ _ _, hw => by
    have hw3 := hv'.draws.dests_subset hw
    have hw2 := hv.draws.dests_subset (hcr.draws.dests_subset hw3)
    exact Emitted.operator (hcl.known hl hs before hw2) hv (hcr.known hl hs _ hw3) hv'
  | .cast _ _ he hv hcast, hw => by
    have hw2 := hcast.draws.dests_subset hw
    obtain ⟨h1, hlow⟩ := he.known hl hs before (hv.draws.dests_subset hw2)
    obtain ⟨h2, hval⟩ := hv.known hlow
    obtain ⟨h3, hres⟩ := hcast.known hval
    refine ⟨h1.append (h2.append h3), ?_⟩
    rw [← List.append_assoc, ← List.append_assoc]
    exact hres
  | .call _ _ _ hargs hcall, hw => by
    obtain ⟨h1, hknown⟩ := hargs.known hl hs before (hcall.draws.dests_subset hw)
    obtain ⟨h2, hres⟩ := hcall.known hknown
    refine ⟨h1.append h2, ?_⟩
    rw [← List.append_assoc]
    exact hres
  | .construct _ hlayout ha hargs, hw => by
    obtain ⟨h1, hslot⟩ := ha.known (hargs.draws.dests_subset hw) before
    refine ⟨h1.append (hargs.known hl hs _ hslot hw fun hstrict => ?_), known_slot hslot⟩
    obtain ⟨d, rfl⟩ := hl hstrict _ _ (layoutOf_eq_ok hlayout)
    exact ⟨0, 0, env.layouts.consecutive_packed d, .none, Nat.le_refl 0⟩
  | .access _ _ _ he ha, hw => by
    obtain ⟨h1, hlow⟩ := he.known hl hs before (ha.draws.dests_subset hw)
    obtain ⟨h2, haddr⟩ := ha.known hw hlow
    refine ⟨h1.append (h2.append (.compute ?_)), ?_⟩
    · exact List.forall_mem_cons.mpr ⟨haddr, List.forall_mem_singleton.mpr (known_int _)⟩
    · rw [← List.append_assoc, ← List.append_assoc]
      exact known_last rfl

theorem ArgsCode.known (hl : c.strict → env.layouts.Packed) (hs : Scope.Slotted c.slots scope)
    {code : List Instr} (before : List Instr) :
    ArgsCode env scope receiver es s args code s' → dests s'.slots ⊆ c.slots →
    Emitted (closing c) before s code s' ∧ ∀ a ∈ args, a.2.Known c (before ++ code)
  | .nil, _ => ⟨.nil rfl, nofun⟩
  | .receiver he ha hes, hw => by
    have hw2 := hes.draws.dests_subset hw
    obtain ⟨h1, hlow⟩ := he.known hl hs before (ha.draws.dests_subset hw2)
    exact Emitted.args h1 (ha.known hw2 hlow) (hes.known hl hs _ hw)
  | .value he hv _ _ hes, hw => by
    have hw2 := hes.draws.dests_subset hw
    obtain ⟨h1, hlow⟩ := he.known hl hs before (hv.draws.dests_subset hw2)
    exact Emitted.args h1 (hv.known hlow) (hes.known hl hs _ hw)

/-- The fields of a new struct are written one after the other. -/
theorem FieldsCode.known (hl : c.strict → env.layouts.Packed) (hs : Scope.Slotted c.slots scope)
    {code : List Instr} (before : List Instr) (hslot : slot ∈ c.slots) :
    FieldsCode env scope (.temp slot) fields es s code s' → dests s'.slots ⊆ c.slots →
    (c.strict → ∃ offset n, env.layouts.Consecutive offset fields ∧ Reached c.slots before slot n ∧
      offset ≤ n) →
    Emitted (closing c) before s code s'
  | .nil, _, _ | .none, _, _ => .nil rfl
  | @FieldsCode.cons _ _ _ field _ _ _ _ _ c1 _ v c2 s2 c3 _ _ he hv hst hes, hw, hroom => by
    have hw2 := hes.draws.dests_subset hw
    obtain ⟨h1, hlow⟩ := he.known hl hs before (hv.draws.dests_subset hw2)
    obtain ⟨h2, hval⟩ := hv.known hlow
    have hpoints : (Operand.temp s2.temp).PointsInto c.slots _ slot field.offset :=
      pointsInto_last (before ++ c1 ++ c2) hslot
    have hreached : c.strict → ∃ n, Reached c.slots (before ++ c1 ++ c2 ++
        [.assign s2.temp .long .add [.temp slot, .int (Int64.ofNat field.offset)]]) slot n ∧
          field.offset ≤ n := by
      intro hstrict
      obtain ⟨_, n, ⟨rfl, -⟩, hn, hle⟩ := hroom hstrict
      exact ⟨n, ((hn.append c1).append c2).append _, hle⟩
    have hstore := hst.known (s := s2.bump) (hval.append _) (known_last rfl) fun hstrict => by
      obtain ⟨n, hn, hle⟩ := hreached hstrict
      exact ⟨slot, _, n, hpoints, hn, hle⟩
    obtain ⟨i, rfl, hi⟩ := hst.eq_write
    refine h1.append (h2.append (.cons (.offset hslot _) (hstore.append
      (hes.known hl hs _ hslot hw fun hstrict => ?_))))
    obtain ⟨_, -, ⟨rfl, hrest⟩, -⟩ := hroom hstrict
    obtain ⟨n, hn, hle⟩ := hreached hstrict
    exact ⟨_, _, hrest, .write hi hpoints hn hle, Nat.mod_le _ _⟩

end

theorem ValueCode.known (hl : c.strict → env.layouts.Packed)
    (hs : Scope.Slotted c.slots scope) (h : ValueCode env scope e s v code s') (hw : dests s'.slots ⊆ c.slots)
    (before : List Instr) : Emitted (closing c) before s code s' ∧ v.Known c (before ++ code) := by
  cases h with
  | mk he hv =>
    obtain ⟨h1, hlow⟩ := he.known hl hs before (hv.draws.dests_subset hw)
    obtain ⟨h2, hval⟩ := hv.known hlow
    exact ⟨h1.append h2, by simpa only [List.append_assoc] using hval⟩

theorem ZeroWords.known (h : ZeroWords (.temp slot) words offset s code s')
    (hslot : slot ∈ c.slots) (before : List Instr) (hn : Reached c.slots before slot offset) :
    Emitted (closing c) before s code s' := by
  induction h generalizing before with
  | nil => exact .nil rfl
  | first _ ih =>
    refine .cons (.write ?_ rfl fun _ => owned_start hslot) (ih _ ?_)
    · exact List.forall_mem_cons.mpr ⟨known_int _, List.forall_mem_singleton.mpr (known_slot hslot)⟩
    · change Reached c.slots _ slot (0 + 4)
      exact reached_last rfl (.start hslot) hn
  | @next words offset s _ _ _ _ ih =>
    have hpoints : (Operand.temp s.temp).PointsInto c.slots _ slot offset :=
      pointsInto_last before hslot
    have hreached := hn.append
      [.assign s.temp .long .add [.temp slot, .int (Int64.ofNat offset)]]
    refine .cons (.offset hslot _) (.cons (.write ?_ rfl fun _ => ?_)
      (ih _ (reached_last rfl hpoints hreached)))
    · exact List.forall_mem_cons.mpr ⟨known_int _, List.forall_mem_singleton.mpr (known_last rfl)⟩
    · exact ⟨slot, offset, offset, hpoints, hreached, Nat.le_refl _⟩

theorem ZeroCode.known (h : ZeroCode env (.temp slot) s ty code s') (hslot : slot ∈ c.slots)
    (before : List Instr) : Emitted (closing c) before s code s' := by
  have hstore : ∀ v : Operand, (∀ t, v ≠ .temp t) → ∀ x ∈ [v, .temp slot], x.Known c before := by
    intro v hv
    exact List.forall_mem_cons.mpr
      ⟨fun t ht => absurd ht (hv t), List.forall_mem_singleton.mpr (known_slot hslot)⟩
  cases h with
  | struct h => exact h.known hslot before .none
  | single | double | scalar => exact .write (hstore _ nofun) rfl fun _ => owned_start hslot

/-! ## Statements -/

/-- Names in scope have stack space, and in strict code only a receiver is held by reference. -/
structure Sheltered (c : Space) (names : Scope Binding) (storage : Scope Slot) : Prop where
  slots : Scope.Slotted c.slots storage
  receivers : c.strict → ∀ name b slot, names.lookup? name = some b →
    storage.lookup? name = some slot → slot.byReference = b.isReceiver

namespace Sheltered

theorem empty : Sheltered c Scope.empty.push Scope.empty.push := ⟨nofun, nofun⟩

theorem push (h : Sheltered c names storage)
    : Sheltered c names.push storage.push := ⟨h.slots, h.receivers⟩

theorem define (h : Sheltered c names storage) (name : String)
    (hslot : slot.temp ∈ c.slots) (href : slot.byReference = b.isReceiver) :
    Sheltered c (names.define name b) (storage.define name slot) := by
  constructor
  · intro other slot' hl
    rw [Scope.lookup?_define] at hl
    split at hl
    · cases hl
      exact hslot
    · exact h.slots other slot' hl
  · intro hstrict other b' slot' hb hl
    rw [Scope.lookup?_define] at hb hl
    split at hl
    · next heq =>
      rw [if_pos heq] at hb
      cases hl
      cases hb
      exact href
    · next hne =>
      rw [if_neg hne] at hb
      exact h.receivers hstrict other b' slot' hb hl

theorem retype (h : Sheltered c names storage) (heq : c.strict → names' = names) :
    Sheltered c names' storage :=
  ⟨h.slots, fun hstrict => heq hstrict ▸ h.receivers hstrict⟩

theorem declare (h : Sheltered c names storage)
    (ht : c.strict → StmtTyped f ret names (.declare decl) names') {slot : Slot}
    (hslot : slot.temp ∈ c.slots) (href : slot.byReference = false) :
    Sheltered c names' (storage.define decl.name slot) := by
  by_cases hstrict : c.strict
  · cases ht hstrict
    exact h.define _ hslot href
  · exact ⟨(h.define (b := ⟨.void, false, false⟩) _ hslot href).slots, (absurd · hstrict)⟩

end Sheltered

theorem Draft.Grows.dests_subset (h : d.Grows d') (hw : Flat.dests d'.slots ⊆ c.slots) :
    Flat.dests d.slots ⊆ c.slots := by
  obtain ⟨new, hnew⟩ := h.slots
  rw [← hnew, dests_append] at hw
  exact fun t ht => hw (List.mem_append_left _ ht)

theorem Draft.slots_closeArm (d : Draft) (next last : String) :
    (d.closeArm next last).slots = d.slots := by
  unfold Draft.closeArm Draft.emitIfOpen
  split <;> rfl

theorem ValueCode.closed (hl : c.strict → env.layouts.Packed) (hs : Scope.Slotted c.slots scope)
    (hv : ValueCode env scope e d.supply v code s) (hw : dests s.slots ⊆ c.slots)
    (ho : d.isTerminated = false) (h : d.Sound (closing c) temp label pending) :
    (d.extend s code).Sound (closing c) temp label pending ∧ (d.extend s code).isTerminated = false ∧
      v.Known c (sinceLabel [] (d.extend s code).body) := by
  refine ⟨h.extend ho hv.draws fun before => (hv.known hl hs hw before).1,
    Draft.isTerminated_extend ho hv.draws.straight, ?_⟩
  rw [Draft.extend, sinceLabel_append, sinceLabel_straight hv.draws.straight]
  exact (hv.known hl hs hw _).2

theorem ValueCode.closed_branch (hl : c.strict → env.layouts.Packed)
    (hs : Scope.Slotted c.slots scope) (hv : ValueCode env scope e d.supply v code s)
    (hw : dests s.slots ⊆ c.slots) (ho : d.isTerminated = false)
    (h : d.Sound (closing c) temp label pending) :
    ((d.extend s code).openBranch v).Sound (closing c) temp label
      (d.label 1 :: d.label 2 :: pending) := by
  obtain ⟨hsound, ho1, hval⟩ := hv.closed hl hs hw ho h
  exact (hsound.openBranch ho1 (fun _ _ => closing_silent (List.forall_mem_singleton.mpr hval) rfl)
    closing_label).1

section

variable {cond : Expr}

theorem arm_typed (h : StmtTyped f ret names (.branch span cond t none) names') :
    BlockTyped f ret names.push t := by
  cases h
  assumption

theorem arms_typed (h : StmtTyped f ret names (.branch span cond t (some e)) names') :
    BlockTyped f ret names.push t ∧ BlockTyped f ret names.push e := by
  cases h
  exact ⟨‹_›, ‹_›⟩

end

mutual

/-- Every statement keeps the invariant. -/
theorem StmtCode.closed (hl : c.strict → env.layouts.Packed) {scope : Scope Slot} {d d' : Draft}
    {pending : List String} (hs : Sheltered c names scope)
    (ht : c.strict → StmtTyped f ret names stmt names') (ho : d.isTerminated = false)
    (h : d.Sound (closing c) temp label pending) :
    StmtCode env scope stmt d scope' d' → dests d'.slots ⊆ c.slots →
    d'.Sound (closing c) temp label pending ∧ Sheltered c names' scope'
  | .declare _ ha _ hv hst, hw => by
    have hw1 := hv.draws.dests_subset hw
    have hslot := (ha.known hw1 []).2
    refine ⟨h.extend ho (ha.draws.append (hv.draws.append hst.draws)) fun before => ?_,
      hs.declare ht hslot rfl⟩
    obtain ⟨h1, hval⟩ := hv.known hl hs.slots hw (before ++ [])
    exact (ha.known hw1 before).1.append (h1.append (hst.known_slot hval hslot))
  | .declareZero _ ha _ hz, hw => by
    have hw1 := hz.draws.dests_subset hw
    have hslot := (ha.known hw1 []).2
    refine ⟨h.extend ho (ha.draws.append hz.draws) fun before => ?_, hs.declare ht hslot rfl⟩
    exact (ha.known hw1 before).1.append (hz.known hslot _)
  | .assign hslot hv ha hst, hw => by
    refine ⟨h.extend ho (hv.draws.append (ha.draws.append hst.draws)) fun before => ?_,
      hs.retype fun hstrict => by cases ht hstrict; rfl⟩
    obtain ⟨h1, hval⟩ := hv.known hl hs.slots (ha.draws.dests_subset hw) before
    obtain ⟨h2, haddr⟩ := ha.known (hs.slots.storage hslot)
    refine h1.append (h2.append (hst.known (hval.append _) haddr fun hstrict => ?_))
    -- the variable is no receiver, so that its stack space is written
    cases ht hstrict with
    | assign hb hrec _ =>
      refine ha.owned (hs.slots.storage hslot) ?_
      rw [hs.receivers hstrict _ _ _ hb (lookup?_of_storage hslot), hrec]
  -- the labels of the second arm and of what follows stay for later while the first arm is lowered
  | .branch hv hct, hw => by
    rw [Draft.slots_closeArm, Draft.slots_closeArm] at hw
    have hsound := hv.closed_branch hl hs.slots (hct.grows.dests_subset hw) ho h
    have h1 := hct.closed hl hs.push (fun hstrict => arm_typed (ht hstrict)) hsound hw
    have h2 := (h1.closeArm (List.mem_cons_of_mem _ List.mem_cons_self) closing_jump closing_label).1
    exact ⟨(h2.closeArm List.mem_cons_self closing_jump closing_label).1,
      hs.retype fun hstrict => by cases ht hstrict; rfl⟩
  | .branchElse hv hct hce, hw => by
    rw [Draft.slots_closeArm] at hw
    have hw1 := hce.grows.dests_subset hw
    rw [Draft.slots_closeArm] at hw1
    have hsound := hv.closed_branch hl hs.slots (hct.grows.dests_subset hw1) ho h
    have h1 := hct.closed hl hs.push (fun hstrict => (arms_typed (ht hstrict)).1) hsound hw1
    have h2 := (h1.closeArm (List.mem_cons_of_mem _ List.mem_cons_self) closing_jump closing_label).1
    have h3 := hce.closed hl hs.push (fun hstrict => (arms_typed (ht hstrict)).2) h2 hw
    exact ⟨(h3.closeArm List.mem_cons_self closing_jump closing_label).1,
      hs.retype fun hstrict => by cases ht hstrict; rfl⟩
  | .retNone, _ => ⟨h.emitJump ho rfl (closing_silent nofun rfl) nofun,
      hs.retype fun hstrict => by cases ht hstrict; rfl⟩
  | .ret hv, hw => by
    obtain ⟨hsound, ho1, hval⟩ := hv.closed hl hs.slots hw ho h
    have hreads := closing_silent (i := .ret (some _)) (List.forall_mem_singleton.mpr hval) rfl
    exact ⟨hsound.emitJump ho1 rfl hreads nofun, hs.retype fun hstrict => by cases ht hstrict; rfl⟩
  | .expr hv, hw => ⟨(hv.closed hl hs.slots hw ho h).1,
      hs.retype fun hstrict => by cases ht hstrict; rfl⟩

theorem StmtsCode.closed (hl : c.strict → env.layouts.Packed) {scope : Scope Slot} {d d' : Draft}
    {pending : List String} (hs : Sheltered c names scope)
    (ht : c.strict → StmtsTyped f ret names stmts) (h : d.Sound (closing c) temp label pending) :
    StmtsCode env scope stmts d d' → dests d'.slots ⊆ c.slots →
    d'.Sound (closing c) temp label pending
  | .nil, _ => h
  | @StmtsCode.cons _ _ _ stmt rest _ _ _ hcs hcrest, hw => by
    obtain ⟨names', hstmt, hrest⟩ : ∃ names', (c.strict → StmtTyped f ret names stmt names') ∧
        (c.strict → StmtsTyped f ret names' rest) := by
      by_cases hstrict : c.strict
      · cases ht hstrict with
        | cons hstmt hrest => exact ⟨_, fun _ => hstmt, fun _ => hrest⟩
      · exact ⟨names, (absurd · hstrict), (absurd · hstrict)⟩
    obtain ⟨hopened, ho⟩ := h.reopen closing_label
    obtain ⟨h1, hs1⟩ := hcs.closed hl hs hstmt ho hopened (hcrest.grows.dests_subset hw)
    exact hcrest.closed hl hs1 hrest h1 hw

theorem BlockCode.closed (hl : c.strict → env.layouts.Packed) {scope : Scope Slot} {d d' : Draft}
    {pending : List String} (hs : Sheltered c names scope) (ht : c.strict → BlockTyped f ret names b)
    (h : d.Sound (closing c) temp label pending) :
    BlockCode env scope b d d' → dests d'.slots ⊆ c.slots → d'.Sound (closing c) temp label pending
  | .mk hc, hw => hc.closed hl hs (fun hstrict => by cases ht hstrict; assumption) h hw

end

/-! ## Functions -/

theorem ReceiverCode.closed
    (h : ReceiverCode env Scope.empty.push s receiver scope' params code s')
    (hw : dests s'.slots ⊆ c.slots) (hparams : params.map Prod.snd ⊆ c.params)
    (before : List Instr) :
    Emitted (closing c) before s code s' ∧ Sheltered c (receiverScope receiver) scope' := by
  cases h with
  | none => exact ⟨.nil rfl, .empty⟩
  | some ha =>
    obtain ⟨h1, hslot⟩ := ha.known hw before
    refine ⟨h1.append (.write ?_ rfl fun _ => owned_start hslot), Sheltered.empty.define _ hslot rfl⟩
    exact List.forall_mem_cons.mpr
      ⟨known_param (hparams (by simp)), List.forall_mem_singleton.mpr (known_slot hslot)⟩

theorem ParamsCode.closed (h : ParamsCode env scope ps s scope' params code s')
    (hs : Sheltered c names scope) (hw : dests s'.slots ⊆ c.slots)
    (hparams : params.map Prod.snd ⊆ c.params) (before : List Instr) :
    Emitted (closing c) before s code s' ∧
      Sheltered c (ps.foldl (fun scope p => scope.define p.name ⟨p.ty, false, false⟩) names) scope' := by
  induction h generalizing before names with
  | nil => exact ⟨.nil rfl, hs⟩
  | cons ha hst _ hrest ih =>
    obtain ⟨hparam, hparams⟩ := List.cons_subset.mp hparams
    obtain ⟨h1, hslot⟩ := ha.known (hrest.draws.dests_subset hw) before
    obtain ⟨h2, hinner⟩ :=
      ih (hs.define _ (b := ⟨_, false, false⟩) hslot rfl) hw hparams (before ++ _)
    exact ⟨(h1.append (hst.known_slot (known_param hparam) hslot)).append h2, hinner⟩

theorem BodyCode.closed (h : BodyCode env g { d with slots := [], body := [] } params d')
    (hl : c.strict → env.layouts.Packed) (ht : c.strict → BlockTyped f g.ret g.startScope g.body)
    (hw : dests d'.slots ⊆ c.slots) (hparams : params.map Prod.snd ⊆ c.params) :
    d'.Sound (closing c) d.nextTemp d.nextLabel [] ∧ d'.isTerminated = true := by
  cases h with
  | @mk scope1 receiver c1 s1 scope2 params c2 s2 d1 hreceiver hps hblock =>
    rw [List.map_append] at hparams
    obtain ⟨hparams1, hparams2⟩ := List.append_subset.mp hparams
    have hw1 := (Draft.Grows.emitIfOpen _).dests_subset hw
    have hw2 : dests s2.slots ⊆ c.slots := hblock.grows.dests_subset hw1
    have hw3 := hps.draws.dests_subset hw2
    have hscope1 := (hreceiver.closed hw3 hparams1 []).2
    have hscope2 := (hps.closed hscope1 hw2 hparams2 []).2
    have hentry := (Draft.Sound.start d).extend (D := closing c) rfl (hreceiver.draws.append hps.draws)
      fun before => (hreceiver.closed hw3 hparams1 before).1.append (hps.closed hscope1 hw2 hparams2 _).1
    have hbody := hblock.closed hl hscope2 ht hentry hw1
    have hend : ∀ i : Instr, i = (if g.ret = .void then .ret none else .halt) →
        i.isJump = true ∧ i.operands = [] ∧ i.writes? = none ∧ i.targets = [] := by
      rintro _ rfl
      split <;> exact ⟨rfl, rfl, rfl, rfl⟩
    obtain ⟨hjump, hoperands, hwrites, htargets⟩ := hend _ rfl
    refine ⟨hbody.emitIfOpen hjump (fun before => closing_silent (by simp [hoperands]) hwrites)
      (by simp [htargets]), ?_⟩
    unfold Draft.emitIfOpen
    split
    · assumption
    · rw [Draft.isTerminated_emit, hjump]

end

theorem Instr.IsAlloc.isAlloc {i : Instr} (h : i.IsAlloc) : i.isAlloc = true := by
  obtain ⟨hint, n, align, size, rfl⟩ := h
  rfl

theorem Instr.IsAlloc.isStraight {i : Instr} (h : i.IsAlloc) : i.IsStraight := by
  obtain ⟨hint, n, align, size, rfl⟩ := h
  exact ⟨rfl, rfl⟩

theorem Draft.Sound.onward_body {label : Nat} {d : Draft} (h : d.Sound (closing c) temp label []) :
    Onward [] (.label "start" :: d.slots ++ d.body) :=
  ⟨List.forall_mem_nil _,
    onward_append.mpr ⟨onward_of_straight fun i hi => (h.slots i hi).isStraight, h.onward⟩⟩

theorem assignedSinceLabel_of_mem (h : t ∈ dests (sinceLabel [] code)) :
    AssignedSinceLabel code t := by
  induction code using List.reverseRecOn with
  | nil => cases h
  | append_singleton init i ih =>
    rw [sinceLabel_append, sinceLabel, sinceLabel] at h
    split at h
    · cases h
    · next hlabel =>
      rw [dests_append] at h
      rcases List.mem_append.mp h with h | h
      · obtain ⟨before, j, after, rfl, hj, hafter⟩ := ih h
        refine ⟨before, j, after ++ [i], by simp, hj, List.forall_mem_append.mpr ⟨hafter, ?_⟩⟩
        simpa using hlabel
      · obtain ⟨j, hj, ht⟩ := mem_dests.mp h
        cases List.mem_singleton.mp hj
        exact ⟨init, i, [], rfl, ht, List.forall_mem_nil _⟩

theorem AssignedSinceLabel.append_left (h : AssignedSinceLabel code t) (before : List Instr) :
    AssignedSinceLabel (before ++ code) t := by
  obtain ⟨init, i, after, rfl, hi, hafter⟩ := h
  exact ⟨before ++ init, i, after, by simp, hi, hafter⟩

theorem getElem?_append_cases {ys : List α} (h : (xs ++ ys)[n]? = some y) :
    y ∈ xs ∨ ∃ k, n = xs.length + k ∧ ys[k]? = some y := by
  rcases Nat.lt_or_ge n xs.length with hlt | hge
  · rw [List.getElem?_append_left hlt] at h
    exact .inl (List.mem_of_getElem? h)
  · rw [List.getElem?_append_right hge] at h
    exact .inr ⟨n - xs.length, by omega, h⟩

/-- A draft that keeps the invariant and ends with a jump gives a function that is put together well. -/
theorem wellBuilt_of_sound {f : Function} {d : Draft} {temp label : Nat} {strict : Prop}
    (h : d.Sound (closing ⟨f.params.map Prod.snd, dests d.slots, strict⟩) temp label [])
    (ht : d.isTerminated = true) (hf : f.body = .label "start" :: d.slots ++ d.body) :
    f.WellBuilt := by
  have hlabels : Flat.labels f.body = "start" :: Flat.labels d.body := by
    rw [hf, labels_append, ← List.singleton_append, labels_append,
      labels_of_straight fun i hi => (h.slots i hi).isStraight]
    rfl
  have hslots : ∀ t ∈ dests d.slots, f.HasSlot t := by
    intro t hm
    have htail : f.body.tail = d.slots ++ d.body := by simp [hf]
    rw [Function.HasSlot, htail, List.takeWhile_append_of_pos fun i hi => (h.slots i hi).isAlloc,
      dests_append]
    exact List.mem_append_left _ hm
  obtain ⟨last, hlast⟩ : ∃ i, d.body.getLast? = some i := by
    cases hl : d.body.getLast? with
    | none => simp [Draft.isTerminated, hl] at ht
    | some i => exact ⟨i, rfl⟩
  have hjump : last.isJump = true := by simpa [Draft.isTerminated, hlast] using ht
  have hstraight : ∀ i ∈ .label "start" :: d.slots, i.isJump = false :=
    List.forall_mem_cons.mpr ⟨rfl, fun i hi => (h.slots i hi).isStraight.2⟩
  refine ⟨by rw [hf]; rfl, ?_, ?_, ?_, ⟨last, ?_, hjump⟩, ?_⟩
  · have hnamed := h.labels
    rw [List.append_nil] at hnamed
    rw [hlabels, List.nodup_cons]
    refine ⟨fun hm => ?_, hnamed.nodup⟩
    obtain ⟨n, hn, -⟩ := hnamed.numbers _ hm
    have hhead := congrArg (·.toList.head?) hn
    simp [ToString.toString] at hhead
  · intro i hi l hl
    obtain ⟨k, hk⟩ := List.mem_iff_getElem?.mp hi
    obtain ⟨n, -, hn⟩ := (hf ▸ h.onward_body).exists_label hk hl
    exact mem_labels.mpr (List.mem_of_getElem? hn)
  · intro n i j hi hend hnext
    rw [hf] at hi hnext
    rcases getElem?_append_cases hi with hi | ⟨k, rfl, hk⟩
    · rw [hstraight i hi] at hend
      cases hend
    · rw [Nat.add_assoc, List.getElem?_append_right (Nat.le_add_right _ _),
        Nat.add_sub_cancel_left] at hnext
      obtain ⟨hlt, rfl⟩ := List.getElem?_eq_some_iff.mp hnext
      obtain ⟨_, rfl⟩ := List.getElem?_eq_some_iff.mp hk
      exact List.isChain_iff_getElem.mp h.lands k hlt hend
  · rw [hf, List.getLast?_append, hlast]
    rfl
  · intro n i hi t hread
    rw [hf] at hi
    rcases getElem?_append_cases hi with hi | ⟨k, rfl, hk⟩
    · rcases List.mem_cons.mp hi with rfl | hi
      · cases hread
      · obtain ⟨hint, number, align, size, rfl⟩ := h.slots i hi
        simp [Instr.operands] at hread
    · rcases (h.code.getElem? hk).1 _ hread t rfl with hbase | hassigned
      · exact (List.mem_append.mp hbase).imp_right fun hm => .inl (hslots t hm)
      · rw [hf, List.take_append, List.take_of_length_le (by omega), Nat.add_sub_cancel_left]
        exact .inr (.inr ((assignedSinceLabel_of_mem hassigned).append_left _))

/-! ## Modules -/

theorem FunctionCode.sound {strict : Prop} (h : FunctionCode env d g F d')
    (hl : strict → env.layouts.Packed) (ht : strict → BlockTyped f g.ret g.startScope g.body) :
    d'.Sound (closing ⟨F.params.map Prod.snd, dests d'.slots, strict⟩) d.nextTemp d.nextLabel [] ∧
      d'.isTerminated = true ∧ F.body = .label "start" :: d'.slots ++ d'.body := by
  cases h with
  | mk hbody _ =>
    obtain ⟨hsound, hend⟩ := hbody.closed (c := ⟨_, dests d'.slots, strict⟩) hl ht
      (List.Subset.refl _) (List.Subset.refl _)
    exact ⟨hsound, hend, rfl⟩

theorem FunctionCode.sound_lax (h : FunctionCode env d g F d') :
    d'.Sound (closing ⟨F.params.map Prod.snd, dests d'.slots, False⟩) d.nextTemp d.nextLabel [] ∧
      d'.isTerminated = true ∧ F.body = .label "start" :: d'.slots ++ d'.body :=
  h.sound (f := Program.findings ⟨[]⟩) False.elim False.elim

theorem FunctionCode.wellBuilt (h : FunctionCode env d g f d') :
    f.WellBuilt ∧ d.nextTemp ≤ d'.nextTemp ∧
      Named Carries d.nextTemp d'.nextTemp (dests f.body) := by
  obtain ⟨hsound, ht, hf⟩ := h.sound_lax
  refine ⟨wellBuilt_of_sound hsound ht hf, hsound.temp_le, ?_⟩
  rw [hf, dests_append]
  exact hsound.temps

theorem FunctionsCode.wellBuilt (h : FunctionsCode env d gs fs d') :
    (∀ f ∈ fs, f.WellBuilt) ∧ d.nextTemp ≤ d'.nextTemp ∧
      Named Carries d.nextTemp d'.nextTemp (fs.flatMap fun f => dests f.body) := by
  induction h with
  | nil => exact ⟨List.forall_mem_nil _, Nat.le_refl _, .nil⟩
  | cons hf _ ih =>
    obtain ⟨hbuilt, hle, hnamed⟩ := hf.wellBuilt
    obtain ⟨hbuilts, hles, hnameds⟩ := ih
    exact ⟨List.forall_mem_cons.mpr ⟨hbuilt, hbuilts⟩, Nat.le_trans hle hles,
      hnamed.append determines_carries hnameds hle hles⟩

theorem FunctionsCode.exists_code (h : FunctionsCode env d gs fs d') :
    ∀ f ∈ fs, ∃ g ∈ gs, ∃ before after, FunctionCode env before g f after := by
  induction h with
  | nil => exact List.forall_mem_nil _
  | cons hf _ ih =>
    refine List.forall_mem_cons.mpr ⟨⟨_, List.mem_cons_self, _, _, hf⟩, fun f hf => ?_⟩
    obtain ⟨g, hg, hcode⟩ := ih f hf
    exact ⟨g, List.mem_cons_of_mem _ hg, hcode⟩

theorem ofProgram_eq_ok (h : Module.ofProgram p analysis = .ok m) : ∃ d,
      FunctionsCode ⟨analysis.typeTable, p.symbols, p.layouts⟩ ⟨[], 0, 0, [], []⟩ p.functions
        m.functions d ∧ m.data = d.data ∧
      m.types = p.layouts.toList.map fun l => ⟨l.name, l.align, l.size⟩ := by
  unfold Module.ofProgram at h
  obtain ⟨r, hfns, h⟩ := except_bind_eq_ok.mp h
  cases h
  exact ⟨r.2, functionsCode_of_eq_ok hfns, rfl, rfl⟩

/-- A function takes its stack space first and writes to nothing else. -/
structure Function.Owns (f : Function) (slots rest : List Instr) : Prop where
  body : f.body = .label "start" :: slots ++ rest
  allocs : ∀ i ∈ slots, i.IsAlloc
  code : Coded (Instr.WritesOwn (dests slots)) [] rest
  nodup : (dests slots ++ dests rest).Nodup

theorem FunctionCode.owns (h : FunctionCode env d g F d') (hl : env.layouts.Packed)
    (hbody : BlockTyped f g.ret g.startScope g.body) : F.Owns d'.slots d'.body := by
  obtain ⟨hsound, -, hF⟩ := h.sound (fun _ : True => hl) fun _ => hbody
  exact ⟨hF, hsound.slots, hsound.code.mono fun before i hi => hi.2 trivial, hsound.temps.nodup⟩

theorem owns_of_ofProgram (hp : p.WellTyped) (h : Module.ofProgram p p.analyze = .ok m) :
    ∀ F ∈ m.functions, ∃ slots rest, F.Owns slots rest := by
  obtain ⟨d, hcodes, -⟩ := ofProgram_eq_ok h
  intro F hF
  obtain ⟨g, hg, _, _, hcode⟩ := hcodes.exists_code F hF
  exact ⟨_, _, hcode.owns hp.packed_layouts (hp.bodies g hg)⟩

/-- Lowering gives functions that are put together well and that assign no temporary twice in the whole
module, whatever the analysis says of the program. -/
theorem bodies_wellBuilt {p : Program} {analysis : Analysis} {m : Module}
    (h : Module.ofProgram p analysis = .ok m) :
    (∀ f ∈ m.functions, f.WellBuilt) ∧ (m.functions.flatMap fun f => dests f.body).Nodup := by
  obtain ⟨d, hfunctions, -⟩ := ofProgram_eq_ok h
  obtain ⟨hbuilt, -, hnamed⟩ := hfunctions.wellBuilt
  exact ⟨hbuilt, hnamed.nodup⟩

theorem bodies_wellBuilt_broken : ∃ p next m,
    Program.parse Program.brokenSource 0 0 = .ok (p, next) ∧ p.analyze.hasErrors = true ∧
      Module.ofProgram p p.analyze = .ok m ∧ m.functions.length = 2 ∧
      (∀ f ∈ m.functions, f.WellBuilt) ∧ (m.functions.flatMap fun f => dests f.body).Nodup := by
  obtain ⟨p, next, hparse, htest⟩ := Program.exists_of_parses
    (show Program.parses Program.brokenSource (fun p => p.analyze.hasErrors &&
      (match Module.ofProgram p p.analyze with
        | .ok m => m.functions.length == 2
        | .error _ => false)) = true by decide +kernel)
  rw [Bool.and_eq_true] at htest
  obtain ⟨herrors, hok⟩ := htest
  cases hm : Module.ofProgram p p.analyze with
  | error e =>
    rw [hm] at hok
    cases hok
  | ok m =>
    rw [hm] at hok
    exact ⟨p, next, m, hparse, herrors, hm, by simpa using hok, bodies_wellBuilt hm⟩

end StructLang.Flat
