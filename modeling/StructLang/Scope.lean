/-!
# Lexical scopes

A scope is a stack of frames, one per enclosing body. Looking a name up goes from the innermost frame
outward, and within a frame the latest binding counts. `Scope.bindings` lists all bindings in that
order.
-/

namespace StructLang

/-- Frames of bindings, the innermost first and in each frame the latest first. -/
structure Scope (α : Type) where
  frames : List (List (String × α))

namespace Scope

variable {α : Type}

def empty : Scope α := ⟨[]⟩

/-- Every binding, in the order in which a lookup meets them. -/
def bindings (s : Scope α) : List (String × α) := s.frames.flatten

def push (s : Scope α) : Scope α := ⟨[] :: s.frames⟩

/-- Close all frames. -/
def clear (_ : Scope α) : Scope α := empty

/-- Close the innermost frame, if there is one. -/
def pop (s : Scope α) : Scope α := ⟨s.frames.tail⟩

/-- Bind a name in the innermost frame, which is opened if there is none. -/
def define (s : Scope α) (name : String) (value : α) : Scope α :=
  match s.frames with
  | [] => ⟨[[(name, value)]]⟩
  | frame :: rest => ⟨((name, value) :: frame) :: rest⟩

/-- The binding of a name that counts. -/
def lookup? (s : Scope α) (name : String) : Option α := s.bindings.lookup name

@[simp] theorem bindings_push (s : Scope α) : s.push.bindings = s.bindings := rfl

@[simp] theorem bindings_define (s : Scope α) (name : String) (value : α) :
    (s.define name value).bindings = (name, value) :: s.bindings := by
  unfold define bindings
  split <;> simp_all

/-- A name that has just been bound has its new binding, and no other name is affected. -/
theorem lookup?_define (s : Scope α) (name other : String) (value : α) :
    (s.define name value).lookup? other =
      if other = name then some value else s.lookup? other := by
  simp only [lookup?, bindings_define, List.lookup_cons]
  split <;> simp_all

/-- Opening a frame changes no lookup. -/
@[simp] theorem lookup?_push (s : Scope α) (name : String) :
    s.push.lookup? name = s.lookup? name := rfl

end Scope

end StructLang
