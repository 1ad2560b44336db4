import StructLang.Flat.Memory
import StructLang.Proofs.Acceptance
import StructLang.Proofs.Flat.Drafts
import StructLang.Proofs.Layouts

/-!
# Writing to stack space

Code that writes only to the stack space that its function takes itself: at its address, or at an offset
from it up to which the code has written before. So no check of the size of stack space is needed to see
that a write stays above where the space starts.
-/

namespace StructLang

open scoped CoreNumbers

def Layouts.Consecutive (l : Layouts) : Nat → List FieldLayout → Prop
  | _, [] => True
  | offset, field :: rest =>
    field.offset = offset ∧ l.Consecutive (Extent.advance offset (l.sizeOf field.ty)) rest

theorem Layouts.consecutive_packed (l : Layouts) (d : StructDef) :
    l.Consecutive 0 (l.packed d).fields := by
  suffices h : ∀ (fields : List TypedName) (offset : Nat), l.Consecutive offset
      (StructLayout.place offset (fields.map fun f => (f, l.extentOf f.ty))) from h d.fields 0
  intro fields
  induction fields with
  | nil => exact fun _ => True.intro
  | cons f rest ih =>
    intro offset
    refine ⟨rfl, ?_⟩
    rw [← l.size_extentOf]
    exact ih _

def Layouts.Packed (l : Layouts) : Prop := ∀ name sl, l.get? name = some sl → ∃ d, sl = l.packed d

theorem Layouts.Packed.sizeOf_lt {l : Layouts} (h : l.Packed) (ty : Ty) : l.sizeOf ty < 2 ^ (64 : Nat) := by
  unfold Layouts.sizeOf
  split
  · next sl hsl =>
    obtain ⟨name, -, hname⟩ := Option.bind_eq_some_iff.mp hsl
    obtain ⟨d, rfl⟩ := h name sl hname
    rw [l.size_packed]
    exact Nat.mod_lt _ (Nat.two_pow_pos 64)
  · cases ty <;> simp [Extent.scalarSize, Extent.unresolved]

theorem Program.WellTyped.packed_layouts {p : Program} (h : p.WellTyped) : p.layouts.Packed := by
  intro name sl hsl
  rw [p.get?_layouts h.grounded h.symbols.fieldsDeclared, Option.map_eq_some_iff] at hsl
  obtain ⟨d, -, rfl⟩ := hsl
  exact ⟨d, rfl⟩

namespace Flat

def Instr.writes? : Instr → Option (Operand × Nat)
  | store cls _ a => some (a, cls.width)
  | blit _ a size => some (a, size)
  | _ => none

/-- The operand is the address of stack space plus an offset. -/
inductive Operand.PointsInto (base : List String) (before : List Instr) :
    Operand → String → Nat → Prop where
  | start {t} (h : t ∈ base) : PointsInto base before (.temp t) t 0
  | offset {t slot offset} (hs : slot ∈ base)
      (h : .assign t .long .add [.temp slot, .int (Int64.ofNat offset)] ∈ before) :
      PointsInto base before (.temp t) slot offset

/-- Code has written up to an offset in stack space. -/
inductive Reached (base : List String) : List Instr → String → Nat → Prop where
  | none {before slot} : Reached base before slot 0
  | write {before after i a size slot offset n} (hi : i.writes? = some (a, size))
      (ha : a.PointsInto base before slot offset) (hn : Reached base before slot n)
      (hle : offset ≤ n) : Reached base (before ++ i :: after) slot (offset + size)

/-- The operand points into stack space, not past what was written there. -/
def Operand.Owned (base : List String) (before : List Instr) (a : Operand) : Prop :=
  ∃ slot offset n, a.PointsInto base before slot offset ∧ Reached base before slot n ∧ offset ≤ n

def Instr.WritesOwn (base : List String) (before : List Instr) (i : Instr) : Prop :=
  ∀ a size, i.writes? = some (a, size) → a.Owned base before

theorem Reached.append (h : Reached base before slot n) (code : List Instr) :
    Reached base (before ++ code) slot n := by
  cases h with
  | none => exact .none
  | write hi ha hn hle =>
    rw [List.append_assoc, List.cons_append]
    exact .write hi ha hn hle

theorem pointsInto_last (before : List Instr) (hs : slot ∈ base) : (Operand.temp t).PointsInto base
      (before ++ [.assign t .long .add [.temp slot, .int (Int64.ofNat offset)]]) slot offset :=
  .offset hs (by simp)

theorem reached_last (hi : i.writes? = some (a, size))
    (ha : a.PointsInto base before slot n) (hn : Reached base before slot n) :
    Reached base (before ++ [i]) slot (n + size) :=
  .write hi ha hn (Nat.le_refl n)

theorem owned_start (hs : slot ∈ base) : (Operand.temp slot).Owned base before :=
  ⟨slot, 0, 0, .start hs, .none, Nat.le_refl 0⟩

theorem layoutOf_eq_ok (h : Lower.layoutOf env name = .ok sl) :
    env.layouts.get? name = some sl := by
  unfold Lower.layoutOf at h
  split at h
  · next heq =>
    cases h
    exact heq
  · cases h

theorem width_of_ofSource (h : Class.ofSource ty = .ok cls) (hs : ty.isStruct = false)
    (l : Layouts) : cls.width = l.sizeOf ty := by
  cases ty with
  | struct => cases hs
  | unknown | error | void => cases h
  | _ =>
    cases h
    rfl

theorem StoreCode.eq_write (h : StoreCode env v a ty code) :
    ∃ i, code = [i] ∧ i.writes? = some (a, env.layouts.sizeOf ty) := by
  cases h with
  | struct => exact ⟨_, rfl, rfl⟩
  | scalar hs hc => exact ⟨_, rfl, by rw [← width_of_ofSource hc hs]; rfl⟩

end Flat

end StructLang
