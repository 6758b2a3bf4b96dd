import Clausal.Operator
import Clausal.Span
import Clausal.Text.Quoted

/-!
# What can go wrong with terms

Errors are kept as causes; `message` gives their wording. An anomaly is a broken promise of a
caller inside the program, never a fault of a source text.
-/
namespace Clausal

inductive Anomaly where
  | emptyApplication
  | emptySequence
  /-- A symbol of another, larger table. -/
  | foreignSymbol (index size : Nat)
  /-- A bound on the work for an input was too small. -/
  | exhausted
  deriving DecidableEq, Repr

namespace Anomaly

def reason : Anomaly → String
  | emptyApplication => "mk_app: empty application"
  | emptySequence => "mk_seq: empty sequence"
  | foreignSymbol index size =>
    "symbol " ++ toString index ++ " not in table of size " ++ toString size
  | exhausted => "work bound exhausted"

def message (a : Anomaly) : String := "anomaly: " ++ a.reason

end Anomaly

/-- Why a term cannot be built. -/
inductive TermFault where
  /-- The head is neither a constant, an application nor a quotation. -/
  | cannotApply (kind shown : String)
  | quotationDelimiters
  | quotationKindUnterminated
  | quotationKindEmpty
  deriving DecidableEq, Repr

namespace TermFault

def message : TermFault → String
  | cannotApply kind shown => "cannot apply " ++ kind ++ " " ++ shown
  | quotationDelimiters => "bad quotation delimiters"
  | quotationKindUnterminated => "bad quotation: kind is not followed by a space or newline"
  | quotationKindEmpty => "bad quotation: empty kind"

end TermFault

/-- Why a flat program has no nested form. -/
inductive NestingFault where
  | unmatchedEnd
  | neverClosed
  | misplacedLocal
  | misplacedRule
  | repeatedAttribute (what : String)
  | attributeNotAllowed (shown place : String)
  deriving DecidableEq, Repr

namespace NestingFault

def message : NestingFault → String
  | unmatchedEnd => "unmatched block end"
  | neverClosed => "block is never closed"
  | misplacedLocal => "local declarations are only allowed inside \x7b \x7d blocks"
  | misplacedRule => "rules are only allowed inside constraint blocks"
  | repeatedAttribute what => "duplicate attribute " ++ what
  | attributeNotAllowed shown place =>
    "attribute " ++ shown ++ " is not allowed on " ++ place

end NestingFault

/-- The errors that arise without reading a source text. -/
inductive TermError where
  | malformed (span : Span) (fault : TermFault)
  | nesting (span : Span) (fault : NestingFault)
  | unknownFixity (name : String)
  | invalidFixity (text : String)
  | outOfRange (name : String) (precedence : Int)
  | redefinition (name : String) (old new : Operator)
  | anomaly (fault : Anomaly)
  deriving DecidableEq, Repr

namespace TermError

def span? : TermError → Option Span
  | malformed span _ | nesting span _ => some span
  | _ => none

def message : TermError → String
  | malformed span fault => span.render ++ ": syntax error: " ++ fault.message
  | nesting span fault => span.render ++ ": " ++ fault.message
  | unknownFixity name => "no fixity declared for " ++ Text.quoted name
  | invalidFixity text => "invalid fixity: " ++ text
  | outOfRange name precedence =>
    "precedence " ++ toString precedence ++ " of " ++ Text.quoted name ++ " out of range " ++
      toString Precedence.lowest ++ "..=" ++ toString Precedence.tightest
  | redefinition name old new =>
    "cannot re-declare " ++ Text.quoted name ++ " as " ++ new.render ++ "; it is already " ++
      old.render
  | anomaly fault => fault.message

end TermError

end Clausal
