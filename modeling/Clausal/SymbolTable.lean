import Clausal.Symbol

/-!
# Tables of names

A table grows at its end and never changes what it holds, so a symbol stays good for as long as
its table lives. Fresh names carry a hyphen after the leading underscores, which no identifier
in a source text can.
-/
namespace Clausal

structure SymbolTable where
  names : Array String
  /-- Fresh variables minted so far. -/
  variableCount : Nat
  /-- Fresh constants minted so far. -/
  constantCount : Nat
  deriving DecidableEq, Repr

namespace SymbolTable

def initial : SymbolTable := ⟨Symbol.wellKnown.toArray, 0, 0⟩

instance : Inhabited SymbolTable := ⟨initial⟩

def size (t : SymbolTable) : Nat := t.names.size

def lookup (t : SymbolTable) (name : String) : Option Symbol :=
  (t.names.findIdx? (· == Symbol.canonical name)).map Symbol.mk

/-- The symbol of a name, which enters the table if it is not there yet. -/
def intern (t : SymbolTable) (name : String) : Symbol × SymbolTable :=
  match t.lookup name with
  | some s => (s, t)
  | none => (⟨t.size⟩, { t with names := t.names.push (Symbol.canonical name) })

def name? (t : SymbolTable) (s : Symbol) : Option String := t.names[s.index]?

/-- The name of a symbol; a symbol of another table shows its position. -/
def name (t : SymbolTable) (s : Symbol) : String := (t.name? s).getD s.handle

def variableName (n : Nat) : String := "_-" ++ toString n

def constantName (n : Nat) : String := "__-" ++ toString n

def freshVariable (t : SymbolTable) : Symbol × SymbolTable :=
  let n := t.variableCount + 1
  { t with variableCount := n }.intern (variableName n)

def freshConstant (t : SymbolTable) : Symbol × SymbolTable :=
  let n := t.constantCount + 1
  { t with constantCount := n }.intern (constantName n)

theorem lookup_canonical (t : SymbolTable) (name : String) :
    t.lookup (Symbol.canonical name) = t.lookup name := by
  simp only [lookup, Symbol.canonical_idem]

theorem name?_of_lookup {t : SymbolTable} {name : String} {s : Symbol}
    (h : t.lookup name = some s) : t.name? s = some (Symbol.canonical name) := by
  obtain ⟨i, hi, rfl⟩ := Option.map_eq_some_iff.1 h
  obtain ⟨hlt, heq, _⟩ := Array.findIdx?_eq_some_iff_getElem.1 hi
  simp only [name?, Array.getElem?_eq_getElem hlt]
  exact congrArg some (eq_of_beq heq)

theorem intern_of_lookup {t : SymbolTable} {name : String} {s : Symbol}
    (h : t.lookup name = some s) : t.intern name = (s, t) := by
  simp [intern, h]

theorem intern_of_lookup_eq_none {t : SymbolTable} {name : String} (h : t.lookup name = none) :
    t.intern name = (⟨t.size⟩, { t with names := t.names.push (Symbol.canonical name) }) := by
  simp [intern, h]

theorem name?_intern (t : SymbolTable) (name : String) :
    (t.intern name).2.name? (t.intern name).1 = some (Symbol.canonical name) := by
  cases h : t.lookup name with
  | some s => simpa [intern_of_lookup h] using name?_of_lookup h
  | none => simp [intern_of_lookup_eq_none h, name?, size]

/-- What a table holds stays when a name enters it. -/
theorem name?_intern_of_name? {t : SymbolTable} {s : Symbol} {held : String} (name : String)
    (h : t.name? s = some held) : (t.intern name).2.name? s = some held := by
  cases hl : t.lookup name with
  | some u => simpa [intern_of_lookup hl] using h
  | none =>
    obtain ⟨hlt, _⟩ := Array.getElem?_eq_some_iff.1 h
    simpa [intern_of_lookup_eq_none hl, name?, Array.getElem?_push, Nat.ne_of_lt hlt] using h

theorem variableName_injective {m n : Nat} (h : variableName m = variableName n) : m = n := by
  have hs := congrArg String.toList h
  simp only [variableName, String.toList_append, List.append_cancel_left_eq] at hs
  have hd := congrArg (fun digits => Nat.ofDigitChars 10 digits 0) hs
  simpa [Nat.toString_eq_repr, Nat.toList_repr] using hd

end SymbolTable

end Clausal
