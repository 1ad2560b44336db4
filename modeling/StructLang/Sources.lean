import StructLang.Text.Location
import StructLang.Text.Span

/-!
# Source files

The texts of one compilation. A span names its file by position in this list.
-/

namespace StructLang

/-- A text and the path under which it was read. -/
structure SourceFile where
  path : String
  text : String

/-- The files of a compilation in the order in which they were read. -/
structure Sources where
  files : List SourceFile

namespace Sources

def empty : Sources := ⟨[]⟩

/-- Add a file; its number is the count of the files before it. -/
def add (s : Sources) (file : SourceFile) : Sources := ⟨s.files ++ [file]⟩

/-- The file of a span with the location of the span's start. -/
def locate? (s : Sources) (span : Span) : Option (SourceFile × Location) :=
  s.files[span.file]?.map fun f => (f, Text.locate f.text span.start)

end Sources

end StructLang
