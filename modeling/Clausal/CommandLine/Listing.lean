import Clausal.CommandLine.Dump
import Clausal.Scope
import Clausal.Vocabulary

/-!
# Listings

A flat program is listed one declaration a line, included units indented below their digest. A
nested program is listed scope by scope. Fixity declarations do not show.
-/
namespace Clausal.CommandLine

/-- The beginning of a line at a depth. -/
def indent (depth : Nat) : String := String.ofList (List.replicate (2 * depth) ' ')

def line (depth : Nat) (text : String) : String := indent depth ++ text ++ "\n"

section

variable (v : Vocabulary)

def clauseLine (depth : Nat) (body : Term) : String := line depth (v.render body ++ " .")

def typeLine (depth : Nat) (name : Symbol) (type : Term) : String :=
  line depth ("type " ++ v.name name ++ " " ++ v.render type ++ " .")

def macroLine (depth : Nat) (m : MacroDef) : String :=
  line depth ("macro " ++ v.name m.name ++ " := " ++ v.render m.body ++ " .")

mutual

def listDecl (depth : Nat) : Decl → String
  | .clause c => clauseLine v depth c.body
  | .types types => String.join (types.map fun t => typeLine v depth t.name t.type)
  | .macroDef m => macroLine v depth m
  | .accumulated span units => listUnits depth span units
  | .ignored _ => ""
  | .openBlock s => line depth (Dump.constructed "Begin" [Dump.span s])
  | .openNamespace s name =>
    line depth (Dump.constructed "Namespace" [Dump.span s, Dump.symbol name])
  | .openConstraint s names =>
    line depth (Dump.constructed "Constraint" [Dump.span s, Dump.symbols names])
  | .shorten s shorthands =>
    line depth (Dump.constructed "Shorten"
      [Dump.span s, Dump.sequence (shorthands.map Dump.shorthand)])
  | .close s => line depth (Dump.constructed "End" [Dump.span s])
  | .locals s names => line depth (Dump.constructed "Local" [Dump.span s, Dump.symbols names])
  | .modes modes => line depth (Dump.constructed "Mode" [Dump.sequence (modes.map Dump.mode)])
  | .rule r => line depth (Dump.constructed "Chr" [Dump.rule r])
  | .typeAbbreviation a =>
    line depth (Dump.constructed "TypeAbbreviation" [Dump.typeAbbreviation a])

def listUnits (depth : Nat) (span : Span) : List (Digest × List Decl) → String
  | [] => ""
  | (digest, decls) :: rest =>
    line depth ("% accumulated at " ++ span.render ++ " (" ++ digest.hex ++ ")") ++
      listDecls (depth + 1) decls ++ listUnits depth span rest

def listDecls (depth : Nat) : List Decl → String
  | [] => ""
  | decl :: rest => listDecl depth decl ++ listDecls depth rest

end

/-- The names of a list of symbols with a text between them. -/
def joinedNames (between : String) (names : List Symbol) : String :=
  String.intercalate between (names.map v.name)

mutual

def listBlock (depth : Nat) : Block → String
  | .clauses clauses => String.join (clauses.map fun c => clauseLine v depth c.body)
  | .locals names scope =>
    line depth ("\x7b local " ++ joinedNames v ", " names) ++ listScope (depth + 1) scope ++
      line depth "\x7d"
  | .namespaced name scope =>
    line depth ("namespace " ++ v.name name ++ " \x7b") ++ listScope (depth + 1) scope ++
      line depth "\x7d"
  | .shortened shorthands scope =>
    String.join (shorthands.map fun s =>
      line depth ("% shorten " ++ v.name s.full ++ " to " ++ v.name s.short)) ++
      listScope (depth + 1) scope
  | .constraints names rules scope =>
    line depth ("constraint " ++ joinedNames v " " names ++ " \x7b % " ++
      toString rules.length ++ " rules") ++
      listScope (depth + 1) scope ++ line depth "\x7d"

def listScope (depth : Nat) : Scope Block → String
  | ⟨macros, types, _, _, body⟩ =>
    String.join (macros.map (macroLine v depth)) ++
      String.join (types.map fun t => typeLine v depth t.name t.type) ++ listBlocks depth body

def listBlocks (depth : Nat) : List Block → String
  | [] => ""
  | block :: rest => listBlock depth block ++ listBlocks depth rest

end

end

end Clausal.CommandLine
