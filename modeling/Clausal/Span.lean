/-!
# Source spans

A span is a half-open range of byte offsets in a named source, with the line on which it begins
and the offset at which that line begins. Columns are derived.
-/
namespace Clausal

structure Span where
  source : String
  start : Nat
  stop : Nat
  line : Nat
  lineStart : Nat
  deriving DecidableEq, Repr, Inhabited

namespace Span

/-- The empty span at the very beginning of a source. -/
def initial (source : String) : Span := ⟨source, 0, 0, 1, 0⟩

def column (s : Span) : Nat := s.start - s.lineStart

def length (s : Span) : Nat := s.stop - s.start

def isEmpty (s : Span) : Bool := s.length == 0

/-- Drops `front` bytes at the start and `back` bytes at the end. The line is taken to begin
`back` bytes earlier as well. -/
def strip (s : Span) (front back : Nat) : Span :=
  { s with start := s.start + front, stop := s.stop - back, lineStart := s.lineStart - back }

/-- The smallest span over both; the line is that of whichever starts first. -/
def merge (a b : Span) : Span :=
  { (if a.start ≤ b.start then a else b) with stop := max a.stop b.stop }

def render (s : Span) : String :=
  "File \"" ++ s.source ++ "\", line " ++ toString s.line ++ ", column " ++ toString s.column ++
    ", characters " ++ toString s.start ++ "-" ++ toString s.stop

theorem merge_start (a b : Span) : (a.merge b).start = min a.start b.start := by
  unfold merge
  split <;> simp <;> omega

theorem merge_stop (a b : Span) : (a.merge b).stop = max a.stop b.stop := rfl

end Span

end Clausal
