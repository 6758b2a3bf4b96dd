/-!
# Symbols

A symbol is the position of a name in a table of names. The first positions of every table hold
the same well-known names, so these symbols need no table at hand.
-/
namespace Clausal

structure Symbol where
  index : Nat
  deriving DecidableEq, Repr, Inhabited

namespace Symbol

/-- The well-known names, in the order of their symbols. -/
def wellKnown : List String :=
  ["[]", "::", ",", ";", ":-", "=>", "->", "!", "pi", "sigma", "=", "is", "_", "#spill", "?-",
    ":", "prop", "type", "ctype", "main", "true", "fail", "i", "o"]

def nil : Symbol := ⟨0⟩
def cons : Symbol := ⟨1⟩
/-- Heads a clause, between its conclusion and its body. -/
def neck : Symbol := ⟨4⟩
/-- Separates argument types. -/
def arrow : Symbol := ⟨6⟩
/-- Marks a term written between braces. -/
def spill : Symbol := ⟨13⟩
/-- Separates the context of a sequent from its conclusion. -/
def turnstile : Symbol := ⟨14⟩
/-- Separates the eigenvariables of a sequent from its context. -/
def colon : Symbol := ⟨15⟩
/-- The type of propositions. -/
def prop : Symbol := ⟨16⟩

def isWellKnown (s : Symbol) : Bool := s.index < wellKnown.length

/-- The form used where no table is at hand. -/
def handle (s : Symbol) : String := "#" ++ toString s.index

/-- Older spellings of well-known names read as the current ones. -/
def canonical (name : String) : String :=
  if name = "nil" then "[]" else if name = "cons" then "::" else if name = "&" then "," else name

theorem canonical_idem (name : String) : canonical (canonical name) = canonical name := by
  unfold canonical
  split
  · decide
  · split
    · decide
    · split <;> simp_all

end Symbol

end Clausal
