import Clausal.Decl

/-!
# Declarations in constructor form

Some declarations are listed by their constructors and fields, symbols by their positions.
-/
namespace Clausal.CommandLine.Dump

def separated (items : List String) : String := String.intercalate ", " items

def sequence (items : List String) : String := "[" ++ separated items ++ "]"

def constructed (name : String) (arguments : List String) : String :=
  name ++ "(" ++ separated arguments ++ ")"

def record (name : String) (fields : List (String × String)) : String :=
  name ++ " \x7b " ++ separated (fields.map fun f => f.1 ++ ": " ++ f.2) ++ " \x7d"

def optional {α : Type} (dump : α → String) : Option α → String
  | none => "None"
  | some a => constructed "Some" [dump a]

def number (n : Nat) : String := toString n

def span (s : Span) : String :=
  record "Loc" [("source_name", Text.quoted s.source), ("source_start", number s.start),
    ("source_stop", number s.stop), ("line", number s.line),
    ("line_starts_at", number s.lineStart)]

def symbol (s : Symbol) : String := constructed "Symbol" [number s.index]

def symbols (names : List Symbol) : String := sequence (names.map symbol)

def literal (a : Literal) : String := "CData(" ++ a.type.name ++ ": " ++ a.render ++ ")"

def literalType (t : LiteralType) : String :=
  record "CDataType" [("name", Text.quoted t.name), ("hconsed", toString t.isPooled)]

def quotation (q : Quotation) : String :=
  record "Quote" [("data", Text.quoted q.data), ("loc", span q.span),
    ("kind", optional Text.quoted q.kind)]

mutual

def term : Term → String
  | .const s => constructed "Const" [symbol s]
  | .app head args => constructed "App" [term head, sequence (terms args)]
  | .lam x body => constructed "Lam" [symbol x, term body]
  | .literal a => constructed "CData" [literal a]
  | .quoted q => constructed "Quoted" [quotation q]

def terms : List Term → List String
  | [] => []
  | t :: ts => term t :: terms ts

end

def oneAttribute : Attribute → String
  | .name text => constructed "Name" [Text.quoted text]
  | .after text => constructed "After" [Text.quoted text]
  | .before text => constructed "Before" [Text.quoted text]
  | .onlyIf text => constructed "If" [Text.quoted text]
  | .external => "External"
  | .index depths => constructed "Index" [sequence (depths.map fun n => number n.toNat)]

def attributes (found : List Attribute) : String := sequence (found.map oneAttribute)

def sequent (s : Sequent) : String :=
  record "Sequent" [("eigen", term s.eigen), ("context", term s.context),
    ("conclusion", term s.conclusion)]

def shorthand (s : Shorthand) : String :=
  record "Shorthand" [("loc", span s.span), ("full_name", symbol s.full),
    ("short_name", symbol s.short)]

def mode (m : Mode) : String :=
  record "Mode" [("loc", span m.span), ("name", symbol m.name),
    ("args", sequence (m.args.map fun d => toString (d = .input : Bool)))]

def rule (r : Rule (List Attribute)) : String :=
  record "Chr" [("to_match", sequence (r.matched.map sequent)),
    ("to_remove", sequence (r.removed.map sequent)), ("guard", optional term r.guard),
    ("new_goal", optional sequent r.goal), ("attributes", attributes r.attributes),
    ("loc", span r.span)]

def typeAbbreviation (a : TypeAbbreviation) : String :=
  record "TypeAbbreviation" [("loc", span a.span), ("name", symbol a.name),
    ("value", term a.value), ("nparams", number a.arity)]

end Clausal.CommandLine.Dump
