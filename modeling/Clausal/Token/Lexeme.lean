import Clausal.Decimal.Read
import Clausal.Text.Class
import Clausal.Token

/-!
# Lexemes

Each kind of token that may be longer than one character has a function that takes the longest
lexeme of the kind from the front of a text, by one pass over it. Positions play no part here.
-/
namespace Clausal.Lexeme

def isNameStart (c : Char) : Bool := Text.isAlphabetic c || c == '_'

def isNameChar (c : Char) : Bool := Text.isAlphanumeric c || c == '_' || c == '\''

def isSymbolChar (c : Char) : Bool := "+-*/^<>=~:.?@#$&".toList.contains c

/-- Whether the first character of a text satisfies a test. -/
def startsWith (p : Char → Bool) : List Char → Bool
  | [] => false
  | c :: _ => p c

/-- A name with the further segments of a qualified one. -/
def name : List Char → List Char
  | [] => []
  | c :: rest =>
    if isNameChar c then c :: name rest
    else if c == '.' && startsWith isNameStart rest then c :: name rest
    else []

/-- Whether a point followed by this text closes a declaration. -/
def endsDeclaration : List Char → Bool
  | [] => true
  | c :: _ => Text.isBlank c || c == '%'

/-- The rest of a run of symbol characters. It stops before a point that closes a declaration
and before a comment. -/
def symbols : List Char → List Char
  | [] => []
  | c :: rest =>
    if !isSymbolChar c then []
    else if c == '.' && endsDeclaration rest then []
    else if c == '/' && startsWith (· == '*') rest then []
    else c :: symbols rest

/-- The digits after the first one, and the fraction and exponent if there are any. -/
structure Number where
  text : List Char
  isFloat : Bool
  deriving DecidableEq, Repr

/-- A point and digits. -/
def fraction : List Char → List Char
  | '.' :: d :: rest => if d.isDigit then '.' :: d :: rest.takeWhile Char.isDigit else []
  | _ => []

def exponentDigits (front : List Char) : List Char → List Char
  | d :: rest => if d.isDigit then front ++ d :: rest.takeWhile Char.isDigit else []
  | [] => []

/-- The letter, an optional sign, and digits. -/
def exponent : List Char → List Char
  | e :: rest =>
    if e == 'e' || e == 'E' then
      match rest with
      | s :: digits =>
        if s == '+' || s == '-' then exponentDigits [e, s] digits else exponentDigits [e] rest
      | [] => []
    else []
  | [] => []

def number (text : List Char) : Number :=
  let whole := text.takeWhile Char.isDigit
  let rest := text.drop whole.length
  let part := fraction rest
  let power := exponent (rest.drop part.length)
  ⟨whole ++ part ++ power, !(part.isEmpty && power.isEmpty)⟩

/-- What follows an opening quote. -/
inductive StringBody where
  /-- The text without its escapes, and the number of characters up to and with the quote. -/
  | closed (text : List Char) (length : Nat)
  | unterminated
  /-- The escaped character, and the number of characters up to and with it. -/
  | unknownEscape (c : Char) (length : Nat)
  deriving DecidableEq, Repr

namespace StringBody

/-- Adds a character of the text, which took `width` characters to write. -/
def add (c : Char) (width : Nat) : StringBody → StringBody
  | closed text length => closed (c :: text) (width + length)
  | unterminated => unterminated
  | unknownEscape e length => unknownEscape e (width + length)

end StringBody

def unescape : Char → Option Char
  | 'n' => some '\n'
  | 't' => some '\t'
  | '\\' => some '\\'
  | '"' => some '"'
  | _ => none

def stringBody : List Char → StringBody
  | [] => .unterminated
  | ['\\'] => .unterminated
  | '"' :: _ => .closed [] 1
  | '\\' :: e :: rest =>
    match unescape e with
    | some c => (stringBody rest).add c 2
    | none => .unknownEscape e 2
  | c :: rest => (stringBody rest).add c 1

/-- Whether a text begins with `n` copies of a character. -/
def startsWithRun (c : Char) (n : Nat) (text : List Char) : Bool :=
  text.take n == List.replicate n c

/-- The number of characters up to the run of `n` closing braces that brings the nesting depth
to zero; `skip` characters are the rest of a run that has been counted. -/
def quotationLength (n : Nat) : (depth skip : Nat) → List Char → Option Nat
  | 0, 0, _ => some 0
  | _, _, [] => none
  | depth, skip + 1, _ :: rest => (quotationLength n depth skip rest).map (· + 1)
  | depth + 1, 0, c :: rest =>
    if startsWithRun '\x7d' n (c :: rest) then
      (quotationLength n depth (n - 1) rest).map (· + 1)
    else if startsWithRun '\x7b' n (c :: rest) then
      (quotationLength n (depth + 2) (n - 1) rest).map (· + 1)
    else (quotationLength n (depth + 1) 0 rest).map (· + 1)

/-- The length of a quotation, given that two braces open it. -/
def quotation (text : List Char) : Option Nat :=
  let n := (text.takeWhile (· == '\x7b')).length
  (quotationLength n 1 0 (text.drop n)).map (n + ·)

/-- Whether a gap is inside a line comment, inside a block comment that opened after so many
characters, or in neither. -/
inductive Gap where
  | plain
  | line
  | block (opened : Nat)
  deriving DecidableEq, Repr

/-- The length of the blanks and comments in front of a text, or the number of characters before
a comment that is never closed. `passed` characters of the gap are already behind. -/
def gap : Gap → (passed : Nat) → List Char → Except Nat Nat
  | .block opened, _, [] => .error opened
  | .plain, passed, [] | .line, passed, [] => .ok passed
  | .line, passed, c :: rest => gap (if c == '\n' then .plain else .line) (passed + 1) rest
  | .block _, passed, '*' :: '/' :: rest => gap .plain (passed + 2) rest
  | .block opened, passed, _ :: rest => gap (.block opened) (passed + 1) rest
  | .plain, passed, '/' :: '*' :: rest => gap (.block passed) (passed + 2) rest
  | .plain, passed, c :: rest =>
    if Text.isBlank c then gap .plain (passed + 1) rest
    else if c == '%' then gap .line (passed + 1) rest
    else .ok passed

end Clausal.Lexeme
