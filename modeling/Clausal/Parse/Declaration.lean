import Clausal.Decl
import Clausal.Parse.Expression

/-!
# Reading declarations

A text is read into a flat list of declarations. Fixity declarations change the operators as soon
as their precedence is read, so they act on everything after them.
-/
namespace Clausal

/-- The words that begin a declaration other than a clause. -/
inductive Keyword where
  | nameSpace
  | constraint
  | shorten
  | localNames
  | type
  | kind
  | external
  | mode
  | pred
  | macroDef
  | typeAbbreviation
  | rule
  | accumulate
  | fixity (fixity : Fixity)
  deriving DecidableEq, Repr

namespace Keyword

def plain : List Keyword :=
  [nameSpace, constraint, shorten, localNames, type, kind, external, mode, pred, macroDef,
    typeAbbreviation, rule, accumulate]

def all : List Keyword := plain ++ Fixity.all.map fixity

def text : Keyword → String
  | nameSpace => "namespace"
  | constraint => "constraint"
  | shorten => "shorten"
  | localNames => "local"
  | type => "type"
  | kind => "kind"
  | external => "external"
  | mode => "mode"
  | pred => "pred"
  | macroDef => "macro"
  | typeAbbreviation => "typeabbrev"
  | rule => "rule"
  | accumulate => "accumulate"
  | fixity f => f.keyword

def takesAttributes : Keyword → Bool
  | type | kind | external | pred | rule => true
  | _ => false

/-- The keyword that a token is. -/
def of? : TokenKind → Option Keyword
  | .ident name => all.find? (·.text == name)
  | _ => none

end Keyword

namespace Parse

/-- Reads a text by including it, or tells that it has been included; the digest names it. -/
abbrev Include : Type := Span → String → Parse (Digest × List Decl)

def string : Parse String := do
  let t ← next
  match t.kind with
  | .string text => pure text
  | _ => failExpected .string t

/-- The depths of an index attribute, up to the closing parenthesis. -/
def indexDepths : Parse (List UInt64) :=
  repeated (fun depths => do
    let t ← next
    match t.kind with
    | .rightParen => pure (.done depths)
    | .ident name =>
      if name = "_" then pure (.again (depths ++ [0])) else failExpected .indexDepth t
    | .int digits =>
      match boundedNat? (Nat.pow 2 64 - 1) digits with
      | some n => pure (.again (depths ++ [UInt64.ofNat n]))
      | none => fail (.integer t.span)
    | _ => failExpected .indexDepth t) []

/-- An attribute after its colon. -/
def oneAttribute : Parse Attribute := do
  let t ← next
  match t.kind with
  | .ident "name" => do pure (.name (← string))
  | .ident "before" => do pure (.before (← string))
  | .ident "after" => do pure (.after (← string))
  | .ident "if" => do pure (.onlyIf (← string))
  | .ident "external" => pure .external
  | .ident "index" => do
    let _ ← expect .leftParen
    pure (.index (← indexDepths))
  | .ident other => failAt t.span (.unknownAttribute other)
  | _ => failExpected .attributeName t

/-- The attributes in front of a declaration. -/
def attributes : Parse (List Attribute) :=
  repeated (fun found => do
    if ← eatSymbol ":" then pure (.again (found ++ [← oneAttribute]))
    else pure (.done found)) []

/-- A declared name, possibly in parentheses. -/
def declaredName : Parse Symbol := do
  let t ← next
  match t.kind with
  | .ident name | .macroName name => change (·.intern name)
  | .symbolic name =>
    if name = "," ∨ name = "|" then failExpected .name t else change (·.intern name)
  | .leftParen =>
    let inner ← next
    match inner.kind with
    | .ident name | .symbolic name | .macroName name =>
      let s ← change (·.intern name)
      let _ ← expect .rightParen
      pure s
    | _ => failExpected .name inner
  | _ => failExpected .name t

/-- Reads items with commas between them. -/
def separated {α : Type} (item : Parse α) : Parse (List α) :=
  repeated (fun found => do
    let found := found ++ [← item]
    if ← eatSymbol "," then pure (.again found) else pure (.done found)) []

def declaredNames : Parse (List Symbol) := separated declaredName

def typesOf (span : Span) (names : List Symbol) (attributes : List Attribute) (type : Term) :
    Decl :=
  .types (names.map fun name => ⟨span, attributes, name, type⟩)

/-- The names, the type and the stop of a type or kind declaration. -/
def typeDecl (start : Span) (attributes : List Attribute) : Parse Decl := do
  let names ← declaredNames
  let type ← term
  let _ ← expect .stop
  pure (typesOf (← spanFrom start) names attributes type)

/-- The last segment of a qualified name. -/
def lastSegment (name : String) : String :=
  String.ofList (name.toList.reverse.takeWhile (· != '.')).reverse

/-- One name between the braces after a namespace. -/
def shorthand (nameSpace : String) : Parse Shorthand := do
  let t ← next
  match t.kind with
  | .ident name =>
    let full ← change (·.intern (nameSpace ++ "." ++ name))
    let short ← change (·.intern (lastSegment name))
    pure ⟨t.span, full, short⟩
  | _ => failExpected .name t

/-- `p.{ a, b }`. -/
def shorthandGroup : Parse (List Shorthand) := do
  let t ← next
  match t.kind with
  | .ident nameSpace =>
    let point ← next
    if point.isSymbol "." then
      let _ ← expect .leftBrace
      let found ← separated (shorthand nameSpace)
      let _ ← expect .rightBrace
      pure found
    else failExpected .pointAfterNamespace point
  | _ => failExpected .nameSpace t

def direction? : TokenKind → Option Direction
  | .ident name => if name = "i" then some .input else if name = "o" then some .output else none
  | _ => none

/-- `(p i o)`. -/
def mode : Parse Mode := do
  let first ← expect .leftParen
  let name ← declaredName
  let args ← repeated (fun args => do
    let t ← next
    if t.kind = .rightParen then pure (.done args)
    else
      match direction? t.kind with
      | some d => pure (.again (args ++ [d]))
      | none => failExpected .mode t) []
  pure ⟨← spanFrom first.span, name, args⟩

/-- `i:t`, one argument of a predicate. -/
def predicateArg : Parse (Direction × Term) := do
  let t ← next
  match direction? t.kind with
  | none => failExpected .mode t
  | some d =>
    let colon ← next
    if colon.isSymbol ":" then
      let type ← expressionAt Precedence.predicateArgument true
      pure (d, type)
    else failExpected .colonAfterMode colon

/-- The type of a predicate with arguments of the given types. -/
def predicateType (args : List Term) : Term :=
  args.foldr (fun arg result => Term.node Symbol.arrow [arg, result]) (.const Symbol.prop)

/-- A predicate declares its mode and its type. -/
def predicate (start : Span) (attributes : List Attribute) : Parse (List Decl) := do
  let name ← declaredName
  let args ← if (← peek).kind = .stop then pure [] else separated predicateArg
  let _ ← expect .stop
  let span ← spanFrom start
  pure [.modes [⟨span, name, args.map (·.1)⟩],
    .types [⟨span, attributes, name, predicateType (args.map (·.2))⟩]]

/-- The names that stand as parameters. -/
def parameters (span : Span) : List Term → Parse (List Symbol)
  | [] => pure []
  | .const s :: rest => do pure (s :: (← parameters span rest))
  | other :: _ => do failAt span (.parameter ((← vocabulary).render other))

def macroDecl (start : Span) : Parse Decl := do
  let t ← term
  let _ ← expect .stop
  let span ← spanFrom start
  match t.argsOf? Symbol.neck with
  | some [head, body] =>
    let v ← vocabulary
    match head.headSymbol?.filter fun s => (v.name s).toList.head? = some '@' with
    | some name =>
      let params ← parameters span head.args
      pure (.macroDef ⟨span, name, Term.abstract params body⟩)
    | none => failAt span (.macroName (v.render head))
  | _ => failAt span .macroForm

def typeAbbreviation (start : Span) : Parse Decl := do
  let head ← closedTerm
  let value ← term
  let _ ← expect .stop
  let span ← spanFrom start
  match head.headSymbol? with
  | some name =>
    let params ← parameters span head.args
    pure (.typeAbbreviation ⟨span, name, Term.abstract params value, params.length⟩)
  | none => failAt span (.abbreviationHead ((← vocabulary).render head))

def freshVariable : Parse Term := change (·.freshVariable)

/-- `(E : C ?- G)`, `(C ?- G)` or `G`. Missing parts are fresh variables. -/
def sequentOf (t : Term) : Parse Sequent :=
  match t.argsOf? Symbol.turnstile with
  | some [front, conclusion] =>
    match front.argsOf? Symbol.colon with
    | some [eigen, context] => pure ⟨eigen, context, conclusion⟩
    | _ => do pure ⟨← freshVariable, front, conclusion⟩
  | _ => do
    let eigen ← freshVariable
    let context ← freshVariable
    pure ⟨eigen, context, t⟩

def sequent : Parse Sequent := do sequentOf (← closedTerm)

def endsSequents (t : Token) : Bool :=
  t.isStop || t.kind = .backslash || t.isSymbol "|" || t.isSymbol "<=>"

def sequents : Parse (List Sequent) :=
  repeated (fun found => do
    if endsSequents (← peek) then pure (.done found)
    else pure (.again (found ++ [← sequent]))) []

/-- `rule matched \ removed | guard <=> goal`, with every part optional. -/
def ruleDecl (start : Span) (attributes : List Attribute) : Parse Decl := do
  let matched ← sequents
  let removed ←
    if (← peek).kind = .backslash then do
      let _ ← next
      sequents
    else pure []
  let guard ← if ← eatSymbol "|" then some <$> closedTerm else pure none
  let goal ← if ← eatSymbol "<=>" then some <$> sequent else pure none
  let _ ← expect .stop
  pure (.rule ⟨matched, removed, guard, goal, attributes, ← spanFrom start⟩)

/-- The name of a unit to include, and what it gives. -/
def inclusion (incl : Include) : Parse (Digest × List Decl) := do
  let t ← next
  match t.kind with
  | .ident name | .string name => incl t.span name
  | _ => failExpected .unitName t

def accumulateDecl (incl : Include) (start : Span) : Parse Decl := do
  let units ← separated (inclusion incl)
  let _ ← expect .stop
  pure (.accumulated (← spanFrom start) units)

/-- Declares the operators one by one, up to the first that is refused. -/
def defineAll (fixity : Fixity) (precedence : Nat) : List (String × Span) → Parse Unit
  | [] => pure ()
  | (name, span) :: rest => do
    match ← change (·.defineOperator name fixity precedence) with
    | .ok _ => defineAll fixity precedence rest
    | .error e => failAt span (.operator e)

/-- The names and the precedence of a fixity declaration. -/
def operators (fixity : Fixity) : Parse Unit :=
  repeated (fun names => do
    let t ← next
    match t.kind with
    | .int digits =>
      match boundedNat? (Nat.pow 2 63 - 1) digits with
      | none => fail (.integer t.span)
      | some precedence =>
        if names.isEmpty then failAt t.span (.noOperators fixity)
        else
          defineAll fixity precedence names
          pure (.done ())
    | .ident name | .symbolic name => pure (.again (names ++ [(name, t.span)]))
    | _ => failExpected .operatorOrPrecedence t) []

def localDecls (start : Span) : Parse (List Decl) := do
  let names ← declaredNames
  if (← peek).kind = .stop then
    let _ ← next
    pure [.locals (← spanFrom start) names]
  else
    let type ← term
    let _ ← expect .stop
    let span ← spanFrom start
    pure [.locals span names, typesOf span names [] type]

/-- The names in front of an opening brace, which is read too. -/
def namesBeforeBrace : Parse (List Symbol) :=
  repeated (fun names => do
    if (← peek).kind = .leftBrace then
      let _ ← next
      pure (.done names)
    else pure (.again (names ++ [← declaredName]))) []

/-- What follows `external`. -/
def externalDecl (start : Span) (attributes : List Attribute) : Parse (List Decl) := do
  let t ← next
  let attributes := attributes ++ [.external]
  match Keyword.of? t.kind with
  | some .type | some .kind => do pure [← typeDecl start attributes]
  | some .pred => predicate start attributes
  | _ => failExpected .declarationAfterExternal t

/-- A declaration after its keyword. -/
def keywordDecl (incl : Include) (start : Span) (attributes : List Attribute) :
    Keyword → Parse (List Decl)
  | .nameSpace => do
    let name ← declaredName
    let _ ← expect .leftBrace
    pure [.openNamespace (← spanFrom start) name]
  | .constraint => do
    let names ← namesBeforeBrace
    pure [.openConstraint (← spanFrom start) names]
  | .shorten => do
    let groups ← separated shorthandGroup
    let _ ← expect .stop
    pure [.shorten (← spanFrom start) groups.flatten]
  | .localNames => localDecls start
  | .type | .kind => do pure [← typeDecl start attributes]
  | .external => externalDecl start attributes
  | .mode => do
    let modes ← separated mode
    let _ ← expect .stop
    pure [.modes modes]
  | .pred => predicate start attributes
  | .macroDef => do pure [← macroDecl start]
  | .typeAbbreviation => do pure [← typeAbbreviation start]
  | .rule => do pure [← ruleDecl start attributes]
  | .accumulate => do pure [← accumulateDecl incl start]
  | .fixity f => do
    operators f
    let _ ← expect .stop
    pure [.ignored (← spanFrom start)]

/-- A declaration that is no brace. -/
def attributedDecl (incl : Include) (start : Span) : Parse (List Decl) := do
  let attributes ← attributes
  let t ← peek
  match Keyword.of? t.kind with
  | none =>
    let body ← term
    let _ ← expect .stop
    pure [.clause ⟨← spanFrom start, attributes, body⟩]
  | some keyword =>
    if !attributes.isEmpty && !keyword.takesAttributes then
      failAt t.span (.attributesNotAllowed keyword.text)
    else
      let _ ← next
      keywordDecl incl start attributes keyword

def declaration (incl : Include) : Parse (List Decl) := do
  let t ← peek
  match t.kind with
  | .leftBrace =>
    let _ ← next
    pure [.openBlock t.span]
  | .rightBrace =>
    let _ ← next
    pure [.close t.span]
  | _ => attributedDecl incl t.span

/-- All declarations up to the end of the input. -/
def declarations (incl : Include) : Parse (List Decl) :=
  repeated (fun found => do
    if (← peek).kind = .endOfInput then pure (.done found)
    else pure (.again (found ++ (← declaration incl)))) []

end Parse

end Clausal
