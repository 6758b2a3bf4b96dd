import Clausal.Text.Class

/-!
# Quoted text in messages

`quoted` writes a string between double quotes so that every character of it can be seen: the
quote itself, the backslash and the usual controls get short escapes, and whatever has no glyph
of its own is written by its code point.
-/
namespace Clausal.Text

/-- Lower case and without leading zeros. -/
def hex (n : Nat) : String := String.ofList (Nat.toDigits 16 n)

def codePoint (c : Char) : List Char :=
  "\\u\x7b".toList ++ (hex c.toNat).toList ++ ['\x7d']

/-- One character inside the given quotes. -/
def escape (quote c : Char) : List Char :=
  if c = '\x00' then ['\\', '0']
  else if c = '\t' then ['\\', 't']
  else if c = '\r' then ['\\', 'r']
  else if c = '\n' then ['\\', 'n']
  else if c = '\\' ∨ c = quote then ['\\', c]
  else if isExtending c ∨ ¬ isPrintable c then codePoint c
  else [c]

def quotedWith (quote : Char) (text : List Char) : String :=
  String.ofList (quote :: text.flatMap (escape quote) ++ [quote])

def quoted (text : String) : String := quotedWith '"' text.toList

def quotedChar (c : Char) : String := quotedWith '\'' [c]

end Clausal.Text
