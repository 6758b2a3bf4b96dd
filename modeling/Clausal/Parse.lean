import Clausal.Digest
import Clausal.Parse.Error
import Clausal.Vocabulary

/-!
# Reading with a state

A `Parse` is a step that reads items, may change the vocabulary, and either gives a value or
fails. A step that fails keeps what it has changed: names stay interned, operators stay declared,
items stay read.
-/
namespace Clausal

structure ParseState where
  vocabulary : Vocabulary
  /-- The texts that have been included. -/
  seen : List Digest
  /-- The items that are not read yet. -/
  ahead : Scan
  /-- The span of the token read last. -/
  last : Span
  deriving Repr

/-- Ready to read a text. -/
def ParseState.initial (vocabulary : Vocabulary) (seen : List Digest) (source text : String) :
    ParseState :=
  ⟨vocabulary, seen, Scan.ofText source text, Span.initial source⟩

def Parse (α : Type) : Type := ParseState → Except ParseError α × ParseState

namespace Parse

def run {α : Type} (p : Parse α) (s : ParseState) : Except ParseError α × ParseState := p s

instance : Monad Parse where
  pure a := fun s => (.ok a, s)
  bind p f := fun s =>
    match p s with
    | (.ok a, s) => f a s
    | (.error e, s) => (.error e, s)

@[simp] theorem run_pure {α : Type} (a : α) (s : ParseState) :
    (pure a : Parse α).run s = (.ok a, s) := rfl

theorem run_bind {α β : Type} (p : Parse α) (f : α → Parse β) (s : ParseState) :
    (p >>= f).run s =
      match p.run s with
      | (.ok a, s) => (f a).run s
      | (.error e, s) => (.error e, s) := rfl

def fail {α : Type} (e : ParseError) : Parse α := fun s => (.error e, s)

def failAt {α : Type} (span : Span) (fault : SyntaxFault) : Parse α := fail (.grammar span fault)

def ofExcept {α : Type} : Except TermError α → Parse α
  | .ok a => pure a
  | .error e => fail (.term e)

def state : Parse ParseState := fun s => (.ok s, s)

def vocabulary : Parse Vocabulary := fun s => (.ok s.vocabulary, s)

/-- Makes a change to the vocabulary. -/
def change {α : Type} (f : Vocabulary → α × Vocabulary) : Parse α := fun s =>
  let (a, vocabulary) := f s.vocabulary
  (.ok a, { s with vocabulary })

end Parse

namespace Scan

/-- The token at a position, if all items before it are tokens; else the first fault, which is
read thereby. A fault that repeats for ever stays. -/
def peekItem (last : Item) : Nat → List Item → Except ScanError Token × List Item
  | _, [] =>
    match last with
    | .token t => (.ok t, [])
    | .fault e => (.error e, [])
  | _, .fault e :: rest => (.error e, rest)
  | 0, .token t :: rest => (.ok t, .token t :: rest)
  | n + 1, .token t :: rest =>
    let (found, rest) := peekItem last n rest
    (found, .token t :: rest)

def peek (s : Scan) (n : Nat) : Except ScanError Token × Scan :=
  let (found, items) := peekItem s.last n s.items
  (found, { s with items })

/-- Reads the first item. -/
def advance (s : Scan) : Scan := { s with items := s.items.tail }

end Scan

namespace Parse

/-- The token `n` places ahead, without reading it. -/
def peekAt (n : Nat) : Parse Token := fun s =>
  let (found, ahead) := s.ahead.peek n
  match found with
  | .ok t => (.ok t, { s with ahead })
  | .error e => (.error (.grammar e.span (.scan e.fault)), { s with ahead })

def peek : Parse Token := peekAt 0

/-- Reads the next token. -/
def next : Parse Token := do
  let t ← peek
  fun s => (.ok t, { s with ahead := s.ahead.advance, last := t.span })

def failExpected {α : Type} (what : Expected) (t : Token) : Parse α :=
  failAt t.span (.expected what t.kind)

/-- Reads a token, which must be of the given kind. -/
def expect (kind : TokenKind) : Parse Token := do
  let t ← next
  if t.kind = kind then pure t else failExpected (.kind kind) t

/-- Reads the next token if it is the given symbol. -/
def eatSymbol (name : String) : Parse Bool := do
  let t ← peek
  if t.isSymbol name then
    let _ ← next
    pure true
  else pure false

/-- The span from a place to the end of the token read last. -/
def spanFrom (start : Span) : Parse Span := fun s => (.ok (start.merge s.last), s)

/-- One round of a repetition: what to go on with, or the result. -/
inductive Round (α β : Type) where
  | again (a : α)
  | done (b : β)

def rounds {α β : Type} (body : α → Parse (Round α β)) : Nat → α → Parse β
  | 0, _ => fail (.anomaly .exhausted)
  | n + 1, a => do
    match ← body a with
    | .again a => rounds body n a
    | .done b => pure b

/-- Repeats a step that reads a token in every round but the last. -/
def repeated {α β : Type} (body : α → Parse (Round α β)) (a : α) : Parse β := fun s =>
  rounds body (s.ahead.items.length + 1) a s

/-- Reads another text with the same vocabulary, then goes on where it was. -/
def within {α : Type} (source text : String) (p : Parse α) : Parse α := fun s =>
  let (result, inner) := p (ParseState.initial s.vocabulary s.seen source text)
  (result, { s with vocabulary := inner.vocabulary, seen := inner.seen })

end Parse

end Clausal
