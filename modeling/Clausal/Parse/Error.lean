import Clausal.Fault
import Clausal.Token.Scan

/-!
# Errors of reading a program

Every error that a text causes carries the span of the offending place.
-/
namespace Clausal

/-- What the grammar wants where something else stands. -/
inductive Expected where
  | kind (kind : TokenKind)
  | declarationAfterExternal
  | attributeName
  | indexDepth
  | string
  | name
  | nameSpace
  | pointAfterNamespace
  | mode
  | colonAfterMode
  | unitName
  | operatorOrPrecedence
  deriving DecidableEq, Repr

namespace Expected

def render : Expected → String
  | kind k => k.render
  | declarationAfterExternal => "type, kind or pred after external"
  | attributeName => "attribute name"
  | indexDepth => "index depth"
  | string => "a string"
  | name => "a name"
  | nameSpace => "a namespace"
  | pointAfterNamespace => "`.` after namespace"
  | mode => "mode i or o"
  | colonAfterMode => "`:` after mode"
  | unitName => "a unit name"
  | operatorOrPrecedence => "an operator or a precedence"

end Expected

/-- Why a text is no program. -/
inductive SyntaxFault where
  | scan (fault : ScanFault)
  | expected (what : Expected) (found : TokenKind)
  | unexpected (found : TokenKind)
  /-- An operator where an operand is due. -/
  | unexpectedOperator (found : TokenKind)
  | nonAssociativeChain (found : TokenKind)
  | mixedChain (found : TokenKind) (earlier : Grouping)
  | looseOperator (found : TokenKind) (precedence required : Nat)
  | attributesNotAllowed (keyword : String)
  | unknownAttribute (name : String)
  | macroForm
  | macroName (shown : String)
  | abbreviationHead (shown : String)
  | parameter (shown : String)
  | noOperators (fixity : Fixity)
  | operator (error : TermError)
  deriving DecidableEq, Repr

namespace SyntaxFault

def message : SyntaxFault → String
  | scan f => f.message
  | expected what found => "expected " ++ what.render ++ ", found " ++ found.render
  | unexpected found => "unexpected " ++ found.render
  | unexpectedOperator found => "unexpected operator " ++ found.render
  | nonAssociativeChain found =>
    "precedence conflict: cannot chain non-associative operator " ++ found.render ++
      "; use parenthesis"
  | mixedChain found earlier =>
    "associativity conflict: cannot chain " ++ found.render ++
      " with an operator of the same precedence and " ++ earlier.text ++
      " associativity; use parenthesis"
  | looseOperator found precedence required =>
    "precedence conflict: prefix operator " ++ found.render ++ " (" ++ toString precedence ++
      ") cannot appear where precedence " ++ toString required ++ " is required; use parenthesis"
  | attributesNotAllowed keyword =>
    "attributes are not allowed on " ++ keyword ++ " declarations"
  | unknownAttribute name => "unknown attribute :" ++ name
  | macroForm => "a macro must have the form @name Args :- Body"
  | macroName shown => "macro names start with @, found " ++ shown
  | abbreviationHead shown => "bad type abbreviation head " ++ shown
  | parameter shown => "parameter " ++ shown ++ " is not a name"
  | noOperators fixity => fixity.keyword ++ " declaration without operators"
  | operator error => error.message

end SyntaxFault

/-- Why the name of a unit leads to no text. -/
inductive LoadFault where
  | disabled
  | noSuchUnit
  | fileNotFound
  deriving DecidableEq, Repr

namespace LoadFault

def message : LoadFault → String
  | disabled => "accumulation is disabled"
  | noSuchUnit => "no such unit"
  | fileNotFound => "file not found"

end LoadFault

inductive ParseError where
  | grammar (span : Span) (fault : SyntaxFault)
  | term (error : TermError)
  /-- An integer beyond its range. -/
  | integer (span : Span)
  | load (span : Span) (name : String) (fault : LoadFault)
  /-- A file that could not be read as text. -/
  | unreadable (path reason : String)
  /-- Nothing is known about a file yet; the caller has to look. -/
  | unexplored (path : String)
  deriving DecidableEq, Repr

namespace ParseError

def anomaly (fault : Anomaly) : ParseError := term (.anomaly fault)

def span? : ParseError → Option Span
  | grammar span _ | integer span | load span _ _ => some span
  | term error => error.span?
  | unreadable _ _ | unexplored _ => none

def message : ParseError → String
  | grammar span fault => span.render ++ ": syntax error: " ++ fault.message
  | term error => error.message
  | integer span =>
    span.render ++ ": bad integer literal: number too large to fit in target type"
  | load span name fault =>
    span.render ++ ": cannot accumulate " ++ Text.quoted name ++ ": " ++ fault.message
  | unreadable path reason => "cannot read " ++ path ++ ": " ++ reason
  | unexplored path => "cannot read " ++ path ++ ": not looked at yet"

end ParseError

end Clausal
