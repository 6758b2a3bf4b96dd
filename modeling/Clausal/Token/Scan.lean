import Clausal.Token.Lexeme

/-!
# From text to tokens

A cursor is a place in a source text. `Cursor.next` takes one token, or one fault, from it. The
items of a text do not depend on what is done with them, so `scan` lists them all: after finitely
many the same item repeats for ever, the end of the input or a character that begins no token.
-/
namespace Clausal

inductive ScanFault where
  | unexpected (c : Char)
  | unterminatedComment
  | unterminatedString
  | unterminatedQuotation
  | unknownEscape (c : Char)
  deriving DecidableEq, Repr

namespace ScanFault

def message : ScanFault → String
  | unexpected c => "unexpected character " ++ Text.quotedChar c
  | unterminatedComment => "unterminated comment"
  | unterminatedString => "unterminated string literal"
  | unterminatedQuotation => "unterminated quotation"
  | unknownEscape c => "unknown escape \\" ++ c.toString ++ " in string literal"

end ScanFault

/-- A fault of the text at a place. -/
structure ScanError where
  span : Span
  fault : ScanFault
  deriving DecidableEq, Repr

/-- What is read from a text at one step. -/
inductive Item where
  | token (token : Token)
  | fault (error : ScanError)
  deriving DecidableEq, Repr, Inhabited

structure Cursor where
  source : String
  rest : List Char
  offset : Nat
  line : Nat
  lineStart : Nat
  deriving DecidableEq, Repr

namespace Cursor

def initial (source text : String) : Cursor := ⟨source, text.toList, 0, 1, 0⟩

/-- Moves over one character. -/
def step (k : Cursor) : Cursor :=
  match k.rest with
  | [] => k
  | c :: rest =>
    let offset := k.offset + c.utf8Size
    if c = '\n' then { k with rest, offset, line := k.line + 1, lineStart := offset }
    else { k with rest, offset }

/-- Moves over a number of characters. -/
def advance (k : Cursor) : Nat → Cursor
  | 0 => k
  | n + 1 => k.step.advance n

@[simp] theorem rest_step (k : Cursor) : k.step.rest = k.rest.tail := by
  unfold step
  split
  · simp_all
  · split <;> simp_all

@[simp] theorem rest_advance (k : Cursor) (n : Nat) : (k.advance n).rest = k.rest.drop n := by
  induction n generalizing k with
  | zero => rfl
  | succ n ih => simp [advance, ih]

theorem advance_add (k : Cursor) (m n : Nat) : k.advance (m + n) = (k.advance m).advance n := by
  induction m generalizing k with
  | zero => simp [advance]
  | succ m ih => simp only [Nat.succ_add, advance, ih]

/-- The span up to a later cursor. -/
def spanTo (k last : Cursor) : Span := ⟨k.source, k.offset, last.offset, k.line, k.lineStart⟩

/-- The empty span at a cursor. -/
def here (k : Cursor) : Span := k.spanTo k

/-- The token made of the next `length` characters. -/
def take (k : Cursor) (kind : TokenKind) (length : Nat) : Item × Cursor :=
  let last := k.advance length
  (.token ⟨kind, k.spanTo last⟩, last)

/-- A fault found after `length` characters. -/
def refuse (k : Cursor) (span : Span) (fault : ScanFault) (length : Nat) : Item × Cursor :=
  (.fault ⟨span, fault⟩, k.advance length)

/-- Characters that are tokens by themselves. -/
def single? : Char → Option TokenKind
  | '(' => some .leftParen
  | ')' => some .rightParen
  | '[' => some .leftBracket
  | ']' => some .rightBracket
  | '\x7b' => some .leftBrace
  | '\x7d' => some .rightBrace
  | '\\' => some .backslash
  | ',' => some (.symbolic ",")
  | ';' => some (.symbolic ";")
  | '!' => some (.symbolic "!")
  | '|' => some (.symbolic "|")
  | _ => none

/-- A string, at its opening quote; `rest` follows the quote. -/
def takeString (k : Cursor) (rest : List Char) : Item × Cursor :=
  match Lexeme.stringBody rest with
  | .closed text length => k.take (.string (String.ofList text)) (length + 1)
  | .unterminated => k.refuse k.here .unterminatedString k.rest.length
  | .unknownEscape c length =>
    k.refuse (k.advance (length + 1)).here (.unknownEscape c) (length + 1)

def takeQuotation (k : Cursor) : Item × Cursor :=
  match Lexeme.quotation k.rest with
  | some length => k.take (.quotation (String.ofList (k.rest.take length))) length
  | none => k.refuse k.here .unterminatedQuotation k.rest.length

/-- A token that is its own text. -/
def takeText (k : Cursor) (kind : String → TokenKind) (text : List Char) : Item × Cursor :=
  k.take (kind (String.ofList text)) text.length

/-- The item at a place where no blanks and comments are left. -/
def item (k : Cursor) : Item × Cursor :=
  match k.rest with
  | [] => k.take .endOfInput 0
  | c :: rest =>
    if c = '.' && Lexeme.endsDeclaration rest then k.take .stop 1
    else if c = '\x7b' && Lexeme.startsWith (· == '\x7b') rest then k.takeQuotation
    else
      match single? c with
      | some kind => k.take kind 1
      | none =>
        if Lexeme.isNameStart c then k.takeText .ident (Lexeme.name k.rest)
        else if c = '@' && Lexeme.startsWith Lexeme.isNameStart rest then
          k.takeText .macroName ('@' :: Lexeme.name rest)
        else if c.isDigit then
          let number := Lexeme.number k.rest
          k.takeText (if number.isFloat then .float else .int) number.text
        else if c = '"' then k.takeString rest
        else if Lexeme.isSymbolChar c then k.takeText .symbolic (c :: Lexeme.symbols rest)
        else k.refuse k.here (.unexpected c) 0

/-- The next item, after blanks and comments. -/
def next (k : Cursor) : Item × Cursor :=
  match Lexeme.gap .plain 0 k.rest with
  | .ok length => (k.advance length).item
  | .error length =>
    k.refuse (k.advance length).here .unterminatedComment k.rest.length

end Cursor

/-- The items of a text: finitely many, then one that repeats. -/
structure Scan where
  items : List Item
  last : Item
  deriving DecidableEq, Repr, Inhabited

namespace Scan

/-- Reads items until one is found that leaves the cursor where it is, or the bound is used up. -/
def fromCursor : Nat → Cursor → Scan
  | 0, k => ⟨[], k.next.1⟩
  | fuel + 1, k =>
    let (item, after) := k.next
    if k.offset < after.offset then
      let scan := fromCursor fuel after
      ⟨item :: scan.items, scan.last⟩
    else ⟨[], item⟩

/-- Every item but the last takes a character, so the length of the text is bound enough. -/
def ofText (source text : String) : Scan :=
  fromCursor text.toList.length (Cursor.initial source text)

/-- The item at a position. -/
def get (s : Scan) (n : Nat) : Item := s.items.getD n s.last

end Scan

end Clausal
