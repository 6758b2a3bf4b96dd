import Clausal.SymbolTable
import Clausal.Term
import Clausal.Text.Class

/-!
# Terms as text

Terms show their tree: operators stand in front of their arguments like any other name, in
parentheses, and cells of a list show as a list. Fixities are not consulted.
-/
namespace Clausal

def Quotation.render (q : Quotation) : String :=
  match q.kind with
  | some kind => "\x7b\x7bkind:" ++ kind ++ " " ++ q.data ++ "\x7d\x7d"
  | none => "\x7b\x7b" ++ q.data ++ "\x7d\x7d"

namespace Term

/-- Whether a name can stand alone, without parentheses. -/
def isPlainName (name : String) : Bool :=
  match name.toList with
  | [] => false
  | c :: rest =>
    if Text.isAlphabetic c || c == '_' || c == '@' then
      rest.all fun c => Text.isAlphanumeric c || c == '_' || c == '\'' || c == '.' || c == '-'
    else name == "[]" || name == "!"

def renderName (name : String) : String :=
  if isPlainName name then name else "(" ++ name ++ ")"

/-- Where a term stands: alone, as an argument, or as what follows the first element of a list. -/
inductive Place where
  | alone
  | argument
  | tail
  deriving DecidableEq, Repr

namespace Place

/-- Sets off a text that is no list; `closed` texts need no parentheses as arguments. -/
def enclose (closed : Bool) (text : String) : Place → String
  | alone => text
  | argument => if closed then text else "(" ++ text ++ ")"
  | tail => " | " ++ text

/-- Sets off the elements of a list, given as its first element and what follows. -/
def encloseList (first rest : String) : Place → String
  | tail => ", " ++ first ++ rest
  | _ => "[" ++ first ++ rest ++ "]"

end Place

section

variable (names : SymbolTable)

mutual

def renderAt : Place → Term → String
  | place, .const s =>
    if place = .tail ∧ s = Symbol.nil then "" else place.enclose true (renderName (names.name s))
  | place, .app head args =>
    match args, decide (head.symbol? = some Symbol.cons) with
    | [first, rest], true => place.encloseList (renderAt .alone first) (renderAt .tail rest)
    | args, closed => place.enclose closed (renderAt .argument head ++ renderArgs args)
  | place, .lam x body =>
    place.enclose false (renderName (names.name x) ++ "\\ " ++ renderAt .alone body)
  | place, .literal a => place.enclose true a.render
  | place, .quoted q => place.enclose true q.render

def renderArgs : List Term → String
  | [] => ""
  | t :: ts => " " ++ renderAt .argument t ++ renderArgs ts

end

def render (t : Term) : String := renderAt names .alone t

end

end Term

end Clausal
