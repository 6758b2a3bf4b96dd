import Clausal.Fault
import Clausal.Scope

/-!
# Typed attributes

Each kind of declaration admits some attributes, each at most once, in any order.
-/
namespace Clausal

/-- Fills an empty place. -/
def setOnce {α : Type} (what : String) (value : α) : Option α → Except NestingFault (Option α)
  | none => .ok (some value)
  | some _ => .error (.repeatedAttribute what)

namespace ClauseOptions

def empty : ClauseOptions := ⟨none, none, none⟩

def add (o : ClauseOptions) : Attribute → Except NestingFault ClauseOptions
  | .name text => do return { o with id := ← setOnce "name" text o.id }
  | .before text => do
    return { o with insertion := ← setOnce "before/after" (.before text) o.insertion }
  | .after text => do
    return { o with insertion := ← setOnce "before/after" (.after text) o.insertion }
  | .onlyIf text => do return { o with onlyIf := ← setOnce "if" text o.onlyIf }
  | other => .error (.attributeNotAllowed other.render "clauses")

def ofAttributes (attributes : List Attribute) : Except NestingFault ClauseOptions :=
  attributes.foldlM add empty

end ClauseOptions

namespace RuleOptions

/-- The name and the condition of a rule, as far as they are given. -/
structure Given where
  id : Option String
  onlyIf : Option String
  deriving DecidableEq, Repr

def Given.add (o : Given) : Attribute → Except NestingFault Given
  | .name text => do return { o with id := ← setOnce "name" text o.id }
  | .onlyIf text => do return { o with onlyIf := ← setOnce "if" text o.onlyIf }
  | other => .error (.attributeNotAllowed other.render "rules")

/-- A rule without a name is named by its span. -/
def ofAttributes (span : Span) (attributes : List Attribute) :
    Except NestingFault RuleOptions := do
  let o ← attributes.foldlM Given.add ⟨none, none⟩
  return ⟨o.id.getD span.render, o.onlyIf⟩

end RuleOptions

namespace TypeOption

def add (o : Option TypeOption) : Attribute → Except NestingFault (Option TypeOption)
  | .external => setOnce "external/index" .external o
  | .index depths => setOnce "external/index" (.index depths) o
  | other => .error (.attributeNotAllowed other.render "types")

def ofAttributes (attributes : List Attribute) : Except NestingFault TypeOption := do
  let o ← attributes.foldlM add none
  return o.getD .plain

end TypeOption

end Clausal
