/-!
# Spans

A span is a range of bytes of one source file. Files are numbered in the order in which they are
read.
-/

namespace StructLang

/-- The bytes from `start` up to `stop` of a file. -/
structure Span where
  start : Nat
  stop : Nat
  file : Nat
deriving DecidableEq, Inhabited

namespace Span

/-- The least span that covers both; the file is that of the first. -/
def merge (a b : Span) : Span := ⟨min a.start b.start, max a.stop b.stop, a.file⟩

/-- Number of bytes; zero when the ends are the wrong way round. -/
def length (s : Span) : Nat := s.stop - s.start

/-- Whether both ends coincide. -/
def isEmpty (s : Span) : Bool := s.start == s.stop

end Span

end StructLang
