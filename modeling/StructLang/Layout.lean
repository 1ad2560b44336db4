import StructLang.Tree.Basic

/-!
# Layout of structs

Fields are packed in order without padding. A struct is aligned to eight bytes if it holds something
eight bytes wide, else to four. A struct that is unknown or that holds itself counts as eight bytes.
Sizes and offsets are 64-bit numbers, and their sums wrap around.
-/

namespace StructLang

open scoped CoreNumbers

/-- Bytes that a value takes and their alignment. -/
structure Extent where
  size : Nat
  align : Nat
deriving DecidableEq

namespace Extent

/-- What stands for a struct whose layout cannot be computed. -/
def unresolved : Extent := ⟨8, 8⟩

/-- Where a field ends, as a 64-bit number. -/
def advance (offset size : Nat) : Nat := (offset + size) % 2 ^ (64 : Nat)

/-- The size of a type that is no struct of the program. -/
def scalarSize : Ty → Nat
  | .i32 | .bool | .f32 => 4
  | .i64 | .f64 | .string => 8
  | .void => 0
  | .struct _ | .unknown | .error => unresolved.size

/-- The extent of a type that is no struct of the program. -/
def scalar (ty : Ty) : Extent := ⟨scalarSize ty, max (scalarSize ty) 4⟩

end Extent

/-- A field with its place in the struct. -/
structure FieldLayout where
  name : String
  ty : Ty
  offset : Nat
  size : Nat
deriving DecidableEq

/-- The places of all fields of a struct. -/
structure StructLayout where
  name : String
  size : Nat
  align : Nat
  fields : List FieldLayout
deriving DecidableEq

namespace StructLayout

/-- Size and alignment of the struct. -/
def extent (l : StructLayout) : Extent := ⟨l.size, l.align⟩

/-- Position and place of the first field with this name. -/
def field? (l : StructLayout) (name : String) : Option (Nat × FieldLayout) :=
  (l.fields.zipIdx.find? fun p => p.1.name == name).map fun p => (p.2, p.1)

/-- Offset of the first field with this name. -/
def offset? (l : StructLayout) (name : String) : Option Nat :=
  (l.field? name).map fun p => p.2.offset

/-- Place fields one after the other from an offset on. -/
def place : Nat → List (TypedName × Extent) → List FieldLayout
  | _, [] => []
  | offset, (f, e) :: rest => ⟨f.name, f.ty, offset, e.size⟩ :: place (Extent.advance offset e.size) rest

/-- Pack measured fields. -/
def pack (name : String) (fields : List (TypedName × Extent)) : StructLayout :=
  { name
    size := fields.foldl (fun offset p => Extent.advance offset p.2.size) 0
    align := fields.foldl (fun a p => max a p.2.align) 4
    fields := place 0 fields }

end StructLayout

/-- The layouts of a program's structs. -/
structure Layouts where
  /-- Computed layouts, one for a name. -/
  done : List StructLayout
  /-- Names of the structs in the order in which they are declared. -/
  order : List String

namespace Layouts

/-- The layout under a name. -/
def get? (l : Layouts) (name : String) : Option StructLayout :=
  l.done.find? fun s => s.name == name

/-- Bytes that a value of a type takes. -/
def sizeOf (l : Layouts) (ty : Ty) : Nat :=
  match ty.structName?.bind l.get? with
  | some s => s.size
  | none => Extent.scalarSize ty

/-- Layouts in the order of declarations; a name declared twice appears twice. -/
def toList (l : Layouts) : List StructLayout := l.order.filterMap l.get?

/-- Add a layout. -/
def insert (l : Layouts) (s : StructLayout) : Layouts := { l with done := s :: l.done }

/-- Measure fields in order, with a way to measure the struct that a field names. -/
def measureFields (measure : String → Layouts → Extent × Layouts) :
    List TypedName → Layouts → List (TypedName × Extent) × Layouts
  | [], l => ([], l)
  | f :: rest, l =>
    let (e, l) := match f.ty with
      | .struct name => measure name l
      | ty => (Extent.scalar ty, l)
    let (es, l) := measureFields measure rest l
    ((f, e) :: es, l)

/-- Measure a struct, whose computation is under way for the structs `visiting`. A struct that is met
again on the way down is not resolved, so the depth never exceeds the number of structs. -/
def measure (defs : List StructDef) :
    Nat → List String → StructDef → Layouts → Extent × Layouts
  | depth, visiting, d, l =>
    match l.get? d.name with
    | some s => (s.extent, l)
    | none =>
      if visiting.contains d.name then (Extent.unresolved, l)
      else match depth with
        | 0 => (Extent.unresolved, l)
        | depth + 1 =>
          let inner (name : String) (l : Layouts) : Extent × Layouts :=
            match defs.findRev? fun d => d.name == name with
            | some d' => measure defs depth (d.name :: visiting) d' l
            | none => (Extent.unresolved, l)
          let (fields, l) := measureFields inner d.fields l
          let s := StructLayout.pack d.name fields
          (s.extent, l.insert s)

end Layouts

/-- The layouts of all structs. Where a name is declared twice, a field means the later declaration,
and of the two the one that is measured first counts. -/
def Program.layouts (p : Program) : Layouts :=
  p.structs.foldl (fun l d => (Layouts.measure p.structs p.structs.length [] d l).2)
    ⟨[], p.structs.map StructDef.name⟩

end StructLang
