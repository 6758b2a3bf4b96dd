import Clausal.Operator
import Clausal.Symbol

/-!
# Operator tables

A table lists the accepted definitions, earliest first. A symbol has at most one definition for
each placement: the first one stays, and `define` refuses a different one.
-/
namespace Clausal

structure OperatorTable where
  entries : List (Symbol × Operator)
  deriving DecidableEq, Repr

namespace OperatorTable

def empty : OperatorTable := ⟨[]⟩

instance : Inhabited OperatorTable := ⟨empty⟩

def lookup (t : OperatorTable) (s : Symbol) (p : Placement) : Option Operator :=
  (t.entries.find? fun e => e.1 == s && e.2.placement == p).map (·.2)

/-- The earliest definition of a symbol, in whichever placement. -/
def first? (t : OperatorTable) (s : Symbol) : Option Operator :=
  (t.entries.find? fun e => e.1 == s).map (·.2)

def isOperator (t : OperatorTable) (s : Symbol) : Bool := (t.first? s).isSome

/-- The number of symbols with a definition. -/
def size (t : OperatorTable) : Nat := (t.entries.map (·.1)).eraseDups.length

/-- Adds a definition, or gives the different one that already holds its place. -/
def define (t : OperatorTable) (s : Symbol) (o : Operator) : Except Operator OperatorTable :=
  match t.lookup s o.placement with
  | none => .ok ⟨t.entries ++ [(s, o)]⟩
  | some old => if old = o then .ok t else .error old

theorem mem_of_lookup {t : OperatorTable} {s : Symbol} {p : Placement} {o : Operator}
    (h : t.lookup s p = some o) : (s, o) ∈ t.entries ∧ o.placement = p := by
  obtain ⟨⟨u, o⟩, he, rfl⟩ := Option.map_eq_some_iff.1 h
  have hp := List.find?_some he
  simp only [Bool.and_eq_true, beq_iff_eq] at hp
  obtain ⟨rfl, hp⟩ := hp
  exact ⟨List.mem_of_find?_eq_some he, hp⟩

theorem placement_of_lookup {t : OperatorTable} {s : Symbol} {p : Placement} {o : Operator}
    (h : t.lookup s p = some o) : o.placement = p :=
  (mem_of_lookup h).2

theorem isOperator_of_lookup {t : OperatorTable} {s : Symbol} {p : Placement} {o : Operator}
    (h : t.lookup s p = some o) : t.isOperator s = true := by
  obtain ⟨e, he, rfl⟩ := Option.map_eq_some_iff.1 h
  have hp := List.find?_some he
  simp only [Bool.and_eq_true] at hp
  simp only [isOperator, first?, Option.isSome_map, List.find?_isSome]
  exact ⟨e, List.mem_of_find?_eq_some he, hp.1⟩

theorem define_eq_error_iff {t : OperatorTable} {s : Symbol} {o old : Operator} :
    t.define s o = .error old ↔ t.lookup s o.placement = some old ∧ old ≠ o := by
  cases h : t.lookup s o.placement with
  | none => simp [define, h]
  | some k =>
    by_cases hk : k = o
    · simp only [define, h, hk, if_true, Option.some.injEq, reduceCtorEq, false_iff]
      rintro ⟨rfl, hne⟩
      exact hne rfl
    · simp only [define, h, hk, if_false, Except.error.injEq, Option.some.injEq]
      exact ⟨fun e => ⟨e, e ▸ hk⟩, And.left⟩

/-- A definition that has a place keeps it. -/
theorem lookup_define_of_lookup {t t' : OperatorTable} {s u : Symbol} {o held : Operator}
    {p : Placement} (h : t.define s o = .ok t') (hu : t.lookup u p = some held) :
    t'.lookup u p = some held := by
  cases hs : t.lookup s o.placement with
  | some old =>
    by_cases ho : old = o
    · obtain rfl : t = t' := by simpa [define, hs, ho] using h
      exact hu
    · simp [define, hs, ho] at h
  | none =>
    obtain rfl : ⟨t.entries ++ [(s, o)]⟩ = t' := by simpa [define, hs] using h
    obtain ⟨e, he, rfl⟩ := Option.map_eq_some_iff.1 hu
    simp [lookup, List.find?_append, he]

theorem lookup_define_self {t t' : OperatorTable} {s : Symbol} {o : Operator}
    (h : t.define s o = .ok t') : t'.lookup s o.placement = some o := by
  cases hs : t.lookup s o.placement with
  | some old =>
    by_cases ho : old = o
    · exact lookup_define_of_lookup h (ho ▸ hs)
    · simp [define, hs, ho] at h
  | none =>
    obtain rfl : ⟨t.entries ++ [(s, o)]⟩ = t' := by simpa [define, hs] using h
    have hn := Option.map_eq_none_iff.1 hs
    simp [lookup, List.find?_append, hn]

end OperatorTable

end Clausal
