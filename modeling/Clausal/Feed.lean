import Clausal.Span

/-!
# Hash feeds

The feed of a value is the sequence of bytes that a hash function is given for it. Equal values
must have equal feeds, or a hash table would lose them.
-/
namespace Clausal.Feed

/-- The low bytes of a number, least significant first. -/
def little (width n : Nat) : List UInt8 :=
  (List.range width).map fun i => UInt8.ofNat (n / Nat.pow 256 i)

def word (n : Nat) : List UInt8 := little 8 n

/-- A text ends with a byte that occurs in no UTF-8 text. -/
def text (s : String) : List UInt8 := s.toUTF8.data.toList ++ [0xFF]

/-- Which of several alternatives follows. -/
def tag (n : Nat) : List UInt8 := word n

def optional {α : Type} (feed : α → List UInt8) : Option α → List UInt8
  | none => tag 0
  | some a => tag 1 ++ feed a

def span (s : Span) : List UInt8 :=
  text s.source ++ word s.start ++ word s.stop ++ word s.line ++ word s.lineStart

end Clausal.Feed
