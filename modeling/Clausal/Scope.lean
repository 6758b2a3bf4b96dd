import Clausal.Decl

/-!
# Nested programs

A scope holds the declarations of one block, and the blocks inside it in the order in which they
were opened. Clauses between two blocks stand together.
-/
namespace Clausal

/-- Where a clause goes relative to a named one. -/
inductive Insertion where
  | before (name : String)
  | after (name : String)
  deriving DecidableEq, Repr

structure ClauseOptions where
  id : Option String
  insertion : Option Insertion
  onlyIf : Option String
  deriving DecidableEq, Repr

structure RuleOptions where
  id : String
  onlyIf : Option String
  deriving DecidableEq, Repr

inductive TypeOption where
  | plain
  | external
  | index (depths : List UInt64)
  deriving DecidableEq, Repr

/-- The declarations of a block whose own blocks are of type `β`. -/
structure Scope (β : Type) where
  macros : List MacroDef
  types : List (TypeDecl TypeOption)
  abbreviations : List TypeAbbreviation
  modes : List Mode
  body : List β
  deriving Repr

namespace Scope

def empty {β : Type} : Scope β := ⟨[], [], [], [], []⟩

end Scope

inductive Block where
  /-- A block in braces with the names that are local to it. -/
  | locals (names : List Symbol) (scope : Scope Block)
  | clauses (clauses : List (Clause ClauseOptions))
  | namespaced (name : Symbol) (scope : Scope Block)
  | shortened (shorthands : List Shorthand) (scope : Scope Block)
  | constraints (names : List Symbol) (rules : List (Rule RuleOptions)) (scope : Scope Block)

abbrev NestedProgram := Scope Block

end Clausal
