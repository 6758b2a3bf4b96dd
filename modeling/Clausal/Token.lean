import Clausal.Span
import Clausal.Text.Quoted

/-!
# Tokens

Operators are not a kind of their own: whether a name or a run of symbol characters acts as an
operator is for the operator table to say, which declarations may change between two tokens.
-/
namespace Clausal

inductive TokenKind where
  /-- A name, possibly qualified as in `std.map`. -/
  | ident (name : String)
  /-- A name with its leading `@`. -/
  | macroName (name : String)
  /-- A run of symbol characters, or one of `, ; ! |`. -/
  | symbolic (name : String)
  | int (digits : String)
  | float (text : String)
  /-- A string, with its escapes resolved. -/
  | string (text : String)
  /-- The raw text of a quotation with its braces. -/
  | quotation (raw : String)
  | leftParen
  | rightParen
  | leftBracket
  | rightBracket
  | leftBrace
  | rightBrace
  | backslash
  /-- The point that closes a declaration. -/
  | stop
  | endOfInput
  deriving DecidableEq, Repr, Inhabited

namespace TokenKind

def render : TokenKind → String
  | ident name | macroName name | symbolic name => "`" ++ name ++ "`"
  | int text | float text => "number " ++ text
  | string text => "string " ++ Text.quoted text
  | quotation _ => "quotation"
  | leftParen => "`(`"
  | rightParen => "`)`"
  | leftBracket => "`[`"
  | rightBracket => "`]`"
  | leftBrace => "`\x7b`"
  | rightBrace => "`\x7d`"
  | backslash => "`\\`"
  | stop => "end of declaration"
  | endOfInput => "end of input"

/-- The name of a token that may denote an operator. -/
def name? : TokenKind → Option String
  | ident name | symbolic name => some name
  | _ => none

def isStop : TokenKind → Bool
  | stop | endOfInput => true
  | _ => false

end TokenKind

structure Token where
  kind : TokenKind
  span : Span
  deriving DecidableEq, Repr, Inhabited

namespace Token

def isIdent (t : Token) (name : String) : Bool := t.kind = .ident name

def isSymbol (t : Token) (name : String) : Bool := t.kind = .symbolic name

def isStop (t : Token) : Bool := t.kind.isStop

end Token

end Clausal
