import StructLang.Proofs.Flat.Totality
import StructLang.Proofs.Flat.Values

/-!
# What stack space holds

Values in the bytes of the stack: a scalar as its class spells it, a struct as its fields one after the
other. What holds of some bytes holds wherever they are copied to.
-/

namespace StructLang.Flat

open scoped CoreNumbers

/-! ## Memory that stays -/

/-- The stack outside of some bytes stays as it is, and nothing is printed. -/
structure Machine.Keeps (lo hi : Nat) (s s' : Machine) : Prop where
  size : s.memory.stack.size ≤ s'.memory.stack.size
  bytes : ∀ i < s.memory.stack.size, i < lo ∨ hi ≤ i → s'.memory.stack[i]? = s.memory.stack[i]?
  output : s'.output = s.output

namespace Machine.Keeps

variable {s : Machine}

theorem refl : s.Keeps lo hi s := ⟨Nat.le_refl _, fun _ _ _ => rfl, rfl⟩

theorem trans (h : s.Keeps lo hi s') (h' : s'.Keeps lo' hi' s'') (hlo : lo ≤ lo') (hhi : hi ≤ hi') :
    s.Keeps lo hi' s'' := by
  refine ⟨Nat.le_trans h.size h'.size, fun i hi1 hi2 => ?_, h'.output.trans h.output⟩
  have hsize := h.size
  rw [h'.bytes i (by omega) (by omega), h.bytes i hi1 (by omega)]

theorem all_trans (h : s.Keeps 0 0 s') (h' : s'.Keeps lo hi s'')
    (hlo : s.memory.stack.size ≤ lo) : s.Keeps 0 0 s'' := by
  refine ⟨Nat.le_trans h.size h'.size, fun i hi1 hi2 => ?_, h'.output.trans h.output⟩
  have hsize := h.size
  rw [h'.bytes i (by omega) (by omega), h.bytes i hi1 hi2]

theorem mono (h : s.Keeps lo hi s') (hlo : lo' ≤ lo) (hhi : hi ≤ hi') : s.Keeps lo' hi' s' :=
  ⟨h.size, fun i hi1 hi2 => h.bytes i hi1 (by omega), h.output⟩

theorem of_all (h : s.Keeps 0 0 s') : s.Keeps lo hi s' :=
  ⟨h.size, fun i hi _ => h.bytes i hi (.inr (Nat.zero_le i)), h.output⟩

end Machine.Keeps

def Machine.put (s : Machine) (start : Nat) (bytes : List UInt8) : Machine :=
  { s with memory := { s.memory with stack := Memory.overwrite s.memory.stack start bytes } }

theorem Machine.size_put (s : Machine) (start : Nat) (bytes : List UInt8) :
    (s.put start bytes).memory.stack.size = s.memory.stack.size :=
  Memory.size_overwrite ..

theorem Machine.keeps_put (s : Machine) (start : Nat) (bytes : List UInt8) :
    s.Keeps start (start + bytes.length) (s.put start bytes) :=
  ⟨Nat.le_of_eq (s.size_put start bytes).symm, fun _ _ h => Memory.getElem?_overwrite_of_not h, rfl⟩

theorem Memory.getElem?_overwrite
    (hk : k < bytes.length) (hsize : start + bytes.length ≤ region.size) :
    (overwrite region start bytes)[start + k]? = bytes[k]? := by
  induction bytes generalizing region start k with
  | nil => cases hk
  | cons b rest ih =>
    rw [List.length_cons] at hk hsize
    rw [overwrite]
    cases k with
    | zero =>
      rw [getElem?_overwrite_of_not (.inl (by omega))]
      exact Array.getElem?_setIfInBounds_self_of_lt (by omega)
    | succ k =>
      have hroom : start + 1 + rest.length ≤ (region.setIfInBounds start b).size := by
        rw [Array.size_setIfInBounds]
        omega
      rw [show start + (k + 1) = start + 1 + k by omega, ih (by omega) hroom]
      rfl

theorem Memory.slice?_overwrite (hsize : start + bytes.length ≤ region.size) :
    slice? (overwrite region start bytes) start bytes.length = some bytes :=
  slice?_eq_some.mpr ⟨by rwa [size_overwrite], rfl, fun _ hk => getElem?_overwrite hk hsize⟩

/-! ## Values in memory -/

mutual

/-- The bytes from a place in the stack on spell a value of a type. -/
inductive Holds (s : Symbols) (l : Layouts) (stack : Array UInt8) :
    Ty → Meaning.Value → Nat → Prop where
  | scalar {ty v x cls bytes start} (h : Stands ty v x) (hc : Class.ofSource ty = .ok cls)
      (hs : Memory.slice? stack start cls.width = some bytes) (hd : cls.decode bytes = .int x) :
      Holds s l stack ty v start
  | struct {name d vs start} (hd : s.struct? name = some d)
      (h : HoldAll s l stack (d.fields.map TypedName.ty) vs start) :
      Holds s l stack (.struct name) (.record vs) start

/-- The bytes from a place in the stack on spell values one after the other. -/
inductive HoldAll (s : Symbols) (l : Layouts) (stack : Array UInt8) :
    List Ty → List Meaning.Value → Nat → Prop where
  | nil {start} : HoldAll s l stack [] [] start
  | cons {ty v ts vs start} (h : Holds s l stack ty v start)
      (hs : HoldAll s l stack ts vs (start + l.sizeOf ty)) :
      HoldAll s l stack (ty :: ts) (v :: vs) start

end

section

variable {l : Layouts} {ts : List Ty}

/-- Every declared struct has its layout, and the room of its fields is a 64-bit number. -/
structure Measured (s : Symbols) (l : Layouts) : Prop where
  laid : LaidOut s l
  sum_lt : ∀ d ∈ s.structs, (d.fields.map fun f => l.sizeOf f.ty).sum < 2 ^ (64 : Nat)

theorem sizeOf_struct (hl : Measured s l) (hd : s.struct? name = some d) :
    l.sizeOf (.struct name) = ((d.fields.map TypedName.ty).map l.sizeOf).sum := by
  simp only [Layouts.sizeOf, Ty.structName?, Option.bind_some, hl.laid name d hd]
  rw [(Layouts.packed_exact (hl.sum_lt d (Symbols.struct?_eq_some hd).1)).1, List.map_map]
  rfl

theorem holds_scalar (hx : Stands ty v x) (hc : Class.ofSource ty = .ok cls)
    (hs : Memory.slice? stack start cls.width = some bytes) (hd : cls.decode bytes = .int x)
    (hbytes : ∀ i < l.sizeOf ty, stack'[start' + i]? = stack[start + i]?) :
    Holds s l stack' ty v start' := by
  have hwidth := width_of_ofSource hc hx.isStruct_eq_false l
  obtain ⟨-, hlen, hk⟩ := Memory.slice?_eq_some.mp hs
  have hpos : 0 < cls.width := by cases cls <;> exact Nat.zero_lt_succ _
  have hall : ∀ k < cls.width, stack'[start' + k]? = bytes[k]? := by
    intro k hlt
    rw [hbytes k (hwidth ▸ hlt), hk k hlt]
  have hlast := hall (cls.width - 1) (by omega)
  rw [List.getElem?_eq_getElem (by omega)] at hlast
  have := (Array.getElem?_eq_some_iff.mp hlast).1
  exact .scalar hx hc (Memory.slice?_eq_some.mpr ⟨by omega, hlen, hall⟩) hd

mutual

theorem Holds.move (hl : Measured s l) (v : Meaning.Value) {ty : Ty} {start start' : Nat}
    (h : Holds s l stack ty v start)
    (hbytes : ∀ i < l.sizeOf ty, stack'[start' + i]? = stack[start + i]?) :
    Holds s l stack' ty v start' := by
  cases v with
  | record vs =>
    cases h with
    | scalar hx => cases hx
    | struct hd h =>
      refine .struct hd (HoldAll.move hl vs h fun i hi => hbytes i ?_)
      rwa [sizeOf_struct hl hd]
  | unit | bool | int | float | text =>
    cases h with
    | scalar hx hc hs hd => exact holds_scalar hx hc hs hd hbytes

theorem HoldAll.move (hl : Measured s l) (vs : List Meaning.Value) {ts : List Ty} {start start' : Nat}
    (h : HoldAll s l stack ts vs start)
    (hbytes : ∀ i < (ts.map l.sizeOf).sum, stack'[start' + i]? = stack[start + i]?) :
    HoldAll s l stack' ts vs start' := by
  cases vs with
  | nil =>
    cases h
    exact .nil
  | cons v vs =>
    cases h with
    | cons h hs =>
      rw [List.map_cons, List.sum_cons] at hbytes
      refine .cons (Holds.move hl v h fun i hi => hbytes i (by omega))
        (HoldAll.move hl vs hs fun i hi => ?_)
      rw [Nat.add_assoc, Nat.add_assoc]
      exact hbytes _ (by omega)

end

theorem Holds.copy (hl : Measured s l) (h : Holds s l stack ty v start)
    (hbytes : ∀ i < l.sizeOf ty, stack'[start' + i]? = stack[start + i]?) :
    Holds s l stack' ty v start' :=
  h.move hl v hbytes

theorem HoldAll.getElem? (h : HoldAll s l stack ts vs start) (hi : ts[i]? = some ty) :
    ∃ v, vs[i]? = some v ∧ Holds s l stack ty v (start + ((ts.take i).map l.sizeOf).sum) := by
  induction i generalizing ts vs start with
  | zero =>
    cases h with
    | nil => cases hi
    | cons h _ =>
      cases hi
      exact ⟨_, rfl, h⟩
  | succ i ih =>
    cases h with
    | nil => cases hi
    | cons _ hs =>
      obtain ⟨v, hv, h⟩ := ih hs hi
      rw [List.take_succ_cons, List.map_cons, List.sum_cons, ← Nat.add_assoc]
      exact ⟨v, hv, h⟩

theorem sum_take_add_le (hi : ts[i]? = some ty) :
    ((ts.take i).map l.sizeOf).sum + l.sizeOf ty ≤ (ts.map l.sizeOf).sum := by
  obtain ⟨hlt, rfl⟩ := List.getElem?_eq_some_iff.mp hi
  conv_rhs => rw [← List.take_append_drop i ts, List.drop_eq_getElem_cons hlt]
  rw [List.map_append, List.sum_append, List.map_cons, List.sum_cons]
  omega

/-! ## Addresses of values -/

/-- A word is the address of a value, in a place as it is said to be. -/
def Leads (s : Symbols) (l : Layouts) (stack : Array UInt8) (P : Nat → Prop) (ty : Ty)
    (v : Meaning.Value) (x : Int64) : Prop :=
  ∃ start, addressOf x = stackBase + start ∧ start + l.sizeOf ty ≤ stack.size ∧ P start ∧
    Holds s l stack ty v start

def Gives (s : Symbols) (l : Layouts) (stack : Array UInt8) (P : Nat → Prop) (ty : Ty)
    (v : Meaning.Value) (x : Int64) : Prop :=
  if ty.isStruct then Leads s l stack P ty v x else Stands ty v x

theorem Leads.imp (h : Leads s l stack P ty v x) (hP : ∀ start, P start → P' start) :
    Leads s l stack P' ty v x := by
  obtain ⟨start, hx, hsize, hstart, h⟩ := h
  exact ⟨start, hx, hsize, hP start hstart, h⟩

theorem Leads.keeps (hl : Measured s l) (h : Leads s l stack P ty v x)
    (hsize : stack.size ≤ stack'.size)
    (hbytes : ∀ start i, P start → i < l.sizeOf ty → start + i < stack.size →
      stack'[start + i]? = stack[start + i]?) : Leads s l stack' P ty v x := by
  obtain ⟨start, hx, hroom, hstart, h⟩ := h
  exact ⟨start, hx, Nat.le_trans hroom hsize, hstart,
    h.copy hl fun i hi => hbytes start i hstart hi (by omega)⟩

theorem Gives.imp (h : Gives s l stack P ty v x) (hP : ∀ start, P start → P' start) :
    Gives s l stack P' ty v x := by
  unfold Gives at h ⊢
  split at h
  · next hty => rw [if_pos hty]; exact h.imp hP
  · next hty => rw [if_neg hty]; exact h

theorem Gives.keeps (hl : Measured s l) (h : Gives s l stack P ty v x)
    (hsize : stack.size ≤ stack'.size)
    (hbytes : ∀ start i, P start → i < l.sizeOf ty → start + i < stack.size →
      stack'[start + i]? = stack[start + i]?) : Gives s l stack' P ty v x := by
  unfold Gives at h ⊢
  split at h
  · next hty => rw [if_pos hty]; exact h.keeps hl hsize hbytes
  · next hty => rw [if_neg hty]; exact h

theorem Gives.leads (h : Gives s l stack P (.struct name) v x) :
    Leads s l stack P (.struct name) v x := h

theorem Gives.stands (h : Gives s l stack P ty v x) (hty : ty.isStruct = false) : Stands ty v x := by
  rwa [Gives, if_neg (by simp [hty])] at h

theorem Leads.inside (h : Leads s l stack P ty v x) :
    Leads s l stack (fun start => start + l.sizeOf ty ≤ stack.size) ty v x := by
  obtain ⟨start, hx, hroom, -, h⟩ := h
  exact ⟨start, hx, hroom, hroom, h⟩

theorem Gives.inside (h : Gives s l stack P ty v x) :
    Gives s l stack (fun start => start + l.sizeOf ty ≤ stack.size) ty v x := by
  unfold Gives at h ⊢
  split at h
  · next hty => rw [if_pos hty]; exact h.inside
  · next hty => rw [if_neg hty]; exact h

/-- The address of a field leads to the value of the field. -/
theorem Leads.field (hl : Measured s l) (hd : s.struct? struct = some d)
    (hf : s.field? (.struct struct) member = some (index, fieldTy)) (hsmall : stack.size < 2 ^ (62 : Nat))
    (h : Leads s l stack P (.struct struct) v x)
    (hP : ∀ start offset, P start → offset + l.sizeOf fieldTy ≤ l.sizeOf (.struct struct) →
      P' (start + offset)) :
    Leads s l stack P' fieldTy (v.field index) (x + Int64.ofNat (l.offsetOf d index)) := by
  obtain ⟨d', g, hd', -, hg, rfl⟩ := Symbols.field?_eq_some hf
  cases hd.symm.trans hd'
  obtain ⟨start, hx, hroom, hstart, h⟩ := h
  have hoffset : l.offsetOf d index = (((d.fields.map TypedName.ty).take index).map l.sizeOf).sum := by
    rw [← List.map_take, List.map_map]
    rfl
  have hty : (d.fields.map TypedName.ty)[index]? = some g.ty := by
    rw [List.getElem?_map, hg]
    rfl
  have hle := sum_take_add_le (l := l) hty
  rw [← hoffset, ← sizeOf_struct hl hd] at hle
  cases h with
  | scalar hs => cases hs.isStruct_eq_false
  | @struct _ d' vs _ hd' hall =>
    cases hd.symm.trans hd'
    obtain ⟨w, hw, hfield⟩ := hall.getElem? hty
    have hbase : addressOf x + l.offsetOf d index < 2 ^ (64 : Nat) := by
      unfold stackBase at hx
      omega
    refine ⟨start + l.offsetOf d index, ?_, by omega, hP _ _ hstart hle, ?_⟩
    · rw [addressOf_add hbase, hx, Nat.add_assoc]
    · rw [hoffset]
      simpa [Meaning.Value.field, hw] using hfield

end

/-! ## Reading and writing -/

section

variable {mach : Machine}

theorem address_sub (h : b = stackBase + start) : b - stackBase = start := by
  omega

theorem Leads.load (h : Leads s l mach.memory.stack P ty v a) (hs : ty.isStruct = false)
    (hc : Class.ofSource ty = .ok cls) :
    ∃ x, mach.memory.load cls (addressOf a) = .ok (.int x) ∧ Stands ty v x := by
  obtain ⟨start, ha, -, -, h⟩ := h
  cases h with
  | struct => cases hs
  | @scalar _ _ x cls' bytes _ hx hc' hs' hd =>
    cases hc.symm.trans hc'
    refine ⟨x, ?_, hx⟩
    have hread : mach.memory.read (addressOf a) cls.width = .ok bytes :=
      Memory.read_eq_ok.mpr (.inl ⟨by omega, by rwa [address_sub ha]⟩)
    rw [Memory.load, hread, ← hd]
    rfl

theorem write_eq (hb : b = stackBase + start)
    (hsize : start + bytes.length ≤ mach.memory.stack.size) :
    mach.memory.write b bytes = .ok (mach.put start bytes).memory :=
  Memory.write_eq_ok.mpr ⟨by omega, by rwa [address_sub hb], by rw [address_sub hb]; rfl⟩

theorem Stands.store (l : Layouts) (h : Stands ty v x) (hc : Class.ofSource ty = .ok cls)
    (hb : b = stackBase + start) (hsize : start + l.sizeOf ty ≤ mach.memory.stack.size) :
    ∃ bytes, bytes.length = l.sizeOf ty ∧
      mach.memory.store cls (.int x) b = .ok (mach.put start bytes).memory ∧
      Holds s l (mach.put start bytes).memory.stack ty v start := by
  obtain ⟨bytes, henc, hdec⟩ := h.decode_encode hc
  have hwidth := width_of_ofSource hc h.isStruct_eq_false l
  have hlen := Class.length_encode henc
  rw [← hwidth] at hsize
  refine ⟨bytes, hlen.trans hwidth, ?_, .scalar h hc (hlen ▸ Memory.slice?_overwrite ?_) hdec⟩
  · rw [Memory.store, henc]
    exact write_eq hb (hlen ▸ hsize)
  · exact hlen ▸ hsize

theorem Leads.copy (hl : Measured s l) (h : Leads s l mach.memory.stack P ty v x)
    (hty : l.sizeOf ty = size) (hb : b = stackBase + start)
    (hsize : start + size ≤ mach.memory.stack.size) : ∃ bytes, bytes.length = size ∧
      mach.memory.copy (addressOf x) b size = .ok (mach.put start bytes).memory ∧
      Holds s l (mach.put start bytes).memory.stack ty v start := by
  obtain ⟨source, hx, hroom, -, h⟩ := h
  rw [hty] at hroom
  obtain ⟨bytes, hslice⟩ : ∃ bytes, Memory.slice? mach.memory.stack source size = some bytes := by
    rw [Memory.slice?, if_pos hroom]
    exact ⟨_, rfl⟩
  obtain ⟨-, hlen, hk⟩ := Memory.slice?_eq_some.mp hslice
  have hread : mach.memory.read (addressOf x) size = .ok bytes :=
    Memory.read_eq_ok.mpr (.inl ⟨by omega, by rwa [address_sub hx]⟩)
  refine ⟨bytes, hlen, ?_, h.copy hl fun i hi => ?_⟩
  · rw [Memory.copy, hread]
    exact write_eq hb (hlen ▸ hsize)
  · rw [hty, ← hlen] at hi
    rw [hk i (hlen ▸ hi)]
    exact Memory.getElem?_overwrite hi (hlen ▸ hsize)

end

end StructLang.Flat
