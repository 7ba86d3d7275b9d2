/-! Byte ranges of source text, alone and within a numbered file. -/

namespace LoanScope

/-- A half-open range of byte offsets. Nothing asks `start` to be the smaller one. -/
structure Span where
  start : UInt32
  stop : UInt32
deriving DecidableEq, Repr

namespace Span

/-- The span of what has no place in the text. -/
def detached : Span := ⟨0, 0⟩

instance : Inhabited Span := ⟨detached⟩

def isEmpty (s : Span) : Bool := s.stop ≤ s.start

/-- The least range around both spans. -/
def cover (s t : Span) : Span := ⟨min s.start t.start, max s.stop t.stop⟩

def text (s : Span) : String := s!"{s.start}..{s.stop}"

end Span

abbrev FileId := UInt32

/-- A span and the file it lies in. -/
structure FileSpan where
  file : FileId
  span : Span
deriving DecidableEq, Repr, Inhabited

namespace FileSpan

def detached (file : FileId) : FileSpan := ⟨file, .detached⟩

def text (s : FileSpan) : String := s!"file#{s.file}@{s.span.text}"

end FileSpan

end LoanScope
