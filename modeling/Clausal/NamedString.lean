import Clausal.Decl
import Clausal.Vocabulary

/-!
# Named strings

A program names a string by a fact `name "s"` or by a definition `macro @name :- "s"`. The first
of either kind counts; included units are searched where they stand.
-/
namespace Clausal

mutual

/-- The string that a declaration gives to the fact or the macro. -/
def Decl.string? (fact definition : Option Symbol) : Decl → Option String
  | .clause c =>
    match c.body.args with
    | [.literal a] => if fact.isSome ∧ c.body.headSymbol? = fact then a.string? else none
    | _ => none
  | .macroDef m =>
    match m.body with
    | .literal a => if some m.name = definition then a.string? else none
    | _ => none
  | .accumulated _ units => stringInUnits? fact definition units
  | _ => none

def stringInUnits? (fact definition : Option Symbol) : List (Digest × List Decl) → Option String
  | [] => none
  | (_, decls) :: rest =>
    (stringIn? fact definition decls).or (stringInUnits? fact definition rest)

def stringIn? (fact definition : Option Symbol) : List Decl → Option String
  | [] => none
  | decl :: rest => (decl.string? fact definition).or (stringIn? fact definition rest)

end

def namedString? (v : Vocabulary) (program : List Decl) (name : String) : Option String :=
  stringIn? (v.lookup name) (v.lookup ("@" ++ name)) program

end Clausal
