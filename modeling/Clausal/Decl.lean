import Clausal.Digest
import Clausal.Term
import Clausal.Text.Quoted

/-!
# Flat programs

A flat program is the list of declarations of a text. Openings and closings of blocks are
declarations of their own, and so is the inclusion of other units.
-/
namespace Clausal

/-- An attribute of a declaration, as written. -/
inductive Attribute where
  | name (text : String)
  | after (text : String)
  | before (text : String)
  | onlyIf (text : String)
  | external
  /-- The depth to index each argument at. -/
  | index (depths : List UInt64)
  deriving DecidableEq, Repr

namespace Attribute

def render : Attribute → String
  | name text => ":name " ++ Text.quoted text
  | after text => ":after " ++ Text.quoted text
  | before text => ":before " ++ Text.quoted text
  | onlyIf text => ":if " ++ Text.quoted text
  | external => ":external"
  | index depths =>
    ":index(" ++ String.intercalate " " (depths.map fun n => toString n.toNat) ++ ")"

end Attribute

structure Clause (α : Type) where
  span : Span
  attributes : α
  body : Term
  deriving DecidableEq, Repr

/-- `eigen : context ?- conclusion`. -/
structure Sequent where
  eigen : Term
  context : Term
  conclusion : Term
  deriving DecidableEq, Repr

/-- `rule matched \ removed | guard <=> goal`. -/
structure Rule (α : Type) where
  matched : List Sequent
  removed : List Sequent
  guard : Option Term
  goal : Option Sequent
  attributes : α
  span : Span
  deriving DecidableEq, Repr

/-- A named abbreviation for terms, abstracted over its parameters. -/
structure MacroDef where
  span : Span
  name : Symbol
  body : Term
  deriving DecidableEq, Repr

inductive Direction where
  | input
  | output
  deriving DecidableEq, Repr

structure Mode where
  span : Span
  name : Symbol
  args : List Direction
  deriving DecidableEq, Repr

structure TypeDecl (α : Type) where
  span : Span
  attributes : α
  name : Symbol
  type : Term
  deriving DecidableEq, Repr

/-- A named abbreviation for types, abstracted over its parameters. -/
structure TypeAbbreviation where
  span : Span
  name : Symbol
  value : Term
  arity : Nat
  deriving DecidableEq, Repr

/-- Lets `full` be written as `short`. -/
structure Shorthand where
  span : Span
  full : Symbol
  short : Symbol
  deriving DecidableEq, Repr

inductive Decl where
  | openBlock (span : Span)
  | openNamespace (span : Span) (name : Symbol)
  | openConstraint (span : Span) (names : List Symbol)
  | shorten (span : Span) (shorthands : List Shorthand)
  | close (span : Span)
  /-- Units included at this place, each with the digest of its text. -/
  | accumulated (span : Span) (units : List (Digest × List Decl))
  | clause (clause : Clause (List Attribute))
  | locals (span : Span) (names : List Symbol)
  | modes (modes : List Mode)
  | rule (rule : Rule (List Attribute))
  | macroDef (definition : MacroDef)
  | types (types : List (TypeDecl (List Attribute)))
  | typeAbbreviation (abbreviation : TypeAbbreviation)
  /-- A directive that declares nothing, such as a fixity declaration. -/
  | ignored (span : Span)
  deriving Repr, Inhabited

namespace Decl

/-- The span of a declaration. A group of modes or types has the span of its first member. -/
def span? : Decl → Option Span
  | openBlock span | openNamespace span _ | openConstraint span _ | shorten span _ | close span
  | accumulated span _ | locals span _ | ignored span => some span
  | clause c => some c.span
  | rule r => some r.span
  | macroDef m => some m.span
  | typeAbbreviation a => some a.span
  | modes ms => ms.head?.map (·.span)
  | types ts => ts.head?.map (·.span)

end Decl

end Clausal
