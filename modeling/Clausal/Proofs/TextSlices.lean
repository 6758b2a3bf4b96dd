import Clausal.Proofs.TokenSpans

/-!
# Slices of a text

Lexemes are cut out of a text at byte offsets. A cut that is out of bounds, or in the midst of a
character, has no result. The scanner here looks at its text through such cuts only, and every cut
that it makes has a result: it is the scanner that holds what is left of the text.
-/
namespace Clausal

/-- The part of a text between two byte offsets, if they are in order and stand between characters of
the text or at its ends. -/
def slice? (text : String) (start stop : Nat) : Option String :=
  if start ≤ stop ∧ String.Pos.Raw.IsValid text ⟨start⟩ ∧ String.Pos.Raw.IsValid text ⟨stop⟩ then
    some (String.Pos.Raw.extract text ⟨start⟩ ⟨stop⟩)
  else none

theorem isValid_of_append {text : String} {front rest : List Char} {n : Nat}
    (h : text.toList = front ++ rest) (hn : n = String.utf8Len front) :
    String.Pos.Raw.IsValid text ⟨n⟩ := by
  refine String.Pos.Raw.isValid_iff_exists_append.2
    ⟨String.ofList front, String.ofList rest, ?_, ?_⟩
  · rw [← String.ofList_append, ← h, String.ofList_toList]
  · simp [String.rawEndPos, hn, String.utf8ByteSize_ofList]

/-- Offsets that count whole characters cut out the characters between them. -/
theorem slice?_of_append {text : String} {front lexeme rest : List Char} {start stop : Nat}
    (h : text.toList = front ++ lexeme ++ rest) (hstart : start = String.utf8Len front)
    (hstop : stop = String.utf8Len front + String.utf8Len lexeme) :
    slice? text start stop = some (String.ofList lexeme) := by
  have hfront : String.Pos.Raw.IsValid text ⟨start⟩ :=
    isValid_of_append (h.trans (List.append_assoc _ _ _)) hstart
  have hback : String.Pos.Raw.IsValid text ⟨stop⟩ :=
    isValid_of_append h (hstop.trans (String.utf8Len_append _ _).symm)
  have hle : start ≤ stop := by omega
  have htext : text = String.ofList (front ++ lexeme ++ rest) := by
    rw [← h, String.ofList_toList]
  rw [slice?, if_pos ⟨hle, hfront, hback⟩, htext, hstart, hstop, String.extract_of_valid]

/-- A place in a text that is kept elsewhere. -/
structure Place where
  source : String
  offset : Nat
  line : Nat
  lineStart : Nat
  deriving DecidableEq, Repr

namespace Place

def initial (source : String) : Place := ⟨source, 0, 1, 0⟩

def spanTo (p last : Place) : Span := ⟨p.source, p.offset, last.offset, p.line, p.lineStart⟩

def here (p : Place) : Span := p.spanTo p

section

variable (text : String)

/-- What is left of the text. -/
def rest? (p : Place) : Option (List Char) :=
  (slice? text p.offset text.utf8ByteSize).map String.toList

/-- Moves over one character. -/
def step? (p : Place) : Option Place := do
  match ← p.rest? text with
  | [] => some p
  | c :: _ =>
    let offset := p.offset + c.utf8Size
    if c = '\n' then some { p with offset, line := p.line + 1, lineStart := offset }
    else some { p with offset }

def advance? (p : Place) : Nat → Option Place
  | 0 => some p
  | n + 1 => do (← p.step? text).advance? n

/-- The token made of the next `length` characters. -/
def take? (p : Place) (kind : TokenKind) (length : Nat) : Option (Item × Place) := do
  let last ← p.advance? text length
  some (.token ⟨kind, p.spanTo last⟩, last)

def refuse? (p : Place) (span : Span) (fault : ScanFault) (length : Nat) : Option (Item × Place) := do
  let last ← p.advance? text length
  some (.fault ⟨span, fault⟩, last)

/-- The token whose text is cut out of the source, behind a number of characters. -/
def takeSlice? (p : Place) (kind : String → TokenKind) (skip length : Nat) :
    Option (Item × Place) := do
  let start ← p.advance? text skip
  let last ← start.advance? text length
  let lexeme ← slice? text start.offset last.offset
  some (.token ⟨kind lexeme, p.spanTo last⟩, last)

/-- A string, at its opening quote; `rest` follows the quote. -/
def takeString? (p : Place) (rest : List Char) : Option (Item × Place) :=
  match Lexeme.stringBody rest with
  | .closed s length => p.take? text (.string (String.ofList s)) (length + 1)
  | .unterminated => p.refuse? text p.here .unterminatedString (rest.length + 1)
  | .unknownEscape c length => do
    let after ← p.advance? text (length + 1)
    p.refuse? text after.here (.unknownEscape c) (length + 1)

def takeQuotation? (p : Place) (rest : List Char) : Option (Item × Place) :=
  match Lexeme.quotation rest with
  | some length => p.takeSlice? text .quotation 0 length
  | none => p.refuse? text p.here .unterminatedQuotation rest.length

/-- The item at a place where no blanks and comments are left. -/
def item? (p : Place) : Option (Item × Place) := do
  match ← p.rest? text with
  | [] => p.take? text .endOfInput 0
  | c :: rest =>
    if c = '.' && Lexeme.endsDeclaration rest then p.take? text .stop 1
    else if c = '\x7b' && Lexeme.startsWith (· == '\x7b') rest then p.takeQuotation? text (c :: rest)
    else
      match Cursor.single? c with
      | some kind => p.take? text kind 1
      | none =>
        if Lexeme.isNameStart c then p.takeSlice? text .ident 0 (Lexeme.name (c :: rest)).length
        else if c = '@' && Lexeme.startsWith Lexeme.isNameStart rest then
          p.takeSlice? text (fun name => .macroName ("@" ++ name)) 1 (Lexeme.name rest).length
        else if c.isDigit then
          let number := Lexeme.number (c :: rest)
          p.takeSlice? text (if number.isFloat then .float else .int) 0 number.text.length
        else if c = '"' then p.takeString? text rest
        else if Lexeme.isSymbolChar c then
          p.takeSlice? text .symbolic 0 (Lexeme.symbols rest).length.succ
        else p.refuse? text p.here (.unexpected c) 0

/-- The next item, after blanks and comments. -/
def next? (p : Place) : Option (Item × Place) := do
  let rest ← p.rest? text
  match Lexeme.gap .plain 0 rest with
  | .ok length => (← p.advance? text length).item? text
  | .error length =>
    let opened ← p.advance? text length
    p.refuse? text opened.here .unterminatedComment rest.length

end

end Place

namespace Cursor

/-- Where the cursor stands, without what is left of the text. -/
def place (k : Cursor) : Place := ⟨k.source, k.offset, k.line, k.lineStart⟩

/-- The cursor stands in that text. -/
def StandsIn (k : Cursor) (text : String) : Prop :=
  ∃ front, k.Behind front ∧ text.toList = front ++ k.rest

theorem standsIn_initial (source text : String) : (initial source text).StandsIn text :=
  ⟨[], behind_initial source text, rfl⟩

@[simp] theorem place_offset (k : Cursor) : k.place.offset = k.offset := rfl

@[simp] theorem place_spanTo (k last : Cursor) : k.place.spanTo last.place = k.spanTo last := rfl

/-- Past the end of the text, a cursor stays. -/
theorem advance_min (k : Cursor) (n : Nat) : k.advance n = k.advance (min n k.rest.length) := by
  rcases Nat.le_total n k.rest.length with hn | hn
  · rw [Nat.min_eq_left hn]
  · obtain ⟨m, rfl⟩ := Nat.exists_eq_add_of_le hn
    have hend : (k.advance k.rest.length).rest = [] := by simp
    rw [Nat.min_eq_right hn, advance_add, advance_of_nil hend]

namespace StandsIn

variable {k : Cursor} {text : String}

theorem advance (h : k.StandsIn text) (n : Nat) : (k.advance n).StandsIn text := by
  obtain ⟨front, hbehind, htext⟩ := h
  rw [advance_min]
  refine ⟨_, hbehind.advance (Nat.min_le_right _ _), ?_⟩
  rw [rest_advance, List.append_assoc, List.take_append_drop, htext]

theorem next (h : k.StandsIn text) : k.next.2.StandsIn text := by
  obtain ⟨n, hn⟩ := next_snd k
  rw [hn]
  exact h.advance n

theorem past (h : k.StandsIn text) (n : Nat) : (k.past n).StandsIn text := by
  induction n generalizing k with
  | zero => exact h
  | succ n ih => exact ih h.next

/-- Between a cursor and a later one there are the characters that it has moved over. -/
theorem slice? (h : k.StandsIn text) (n : Nat) :
    slice? text k.offset (k.advance n).offset = some (String.ofList (k.rest.take n)) := by
  obtain ⟨front, hbehind, htext⟩ := h
  rw [advance_min]
  have hafter := hbehind.advance (Nat.min_le_right n k.rest.length)
  rw [← List.take_take, List.take_length] at hafter
  have hsplit : text.toList = front ++ k.rest.take n ++ k.rest.drop n := by
    rw [List.append_assoc, List.take_append_drop, htext]
  refine slice?_of_append hsplit hbehind.offset ?_
  rw [hafter.offset, String.utf8Len_append]

theorem rest? (h : k.StandsIn text) : k.place.rest? text = some k.rest := by
  obtain ⟨front, hbehind, htext⟩ := h
  have hsize : text.utf8ByteSize = String.utf8Len front + String.utf8Len k.rest := by
    rw [← String.utf8Len_toList, htext, String.utf8Len_append]
  have hall : text.toList = front ++ k.rest ++ [] := by rw [List.append_nil, htext]
  rw [Place.rest?, place_offset, slice?_of_append hall hbehind.offset hsize, Option.map_some,
    String.toList_ofList]

theorem step? (h : k.StandsIn text) : k.place.step? text = some k.step.place := by
  rw [Place.step?, h.rest?, Option.bind_eq_bind, Option.bind_some, Cursor.step]
  cases k.rest with
  | nil => rfl
  | cons c rest => dsimp only; split_ifs <;> rfl

theorem advance? (h : k.StandsIn text) (n : Nat) :
    k.place.advance? text n = some (k.advance n).place := by
  induction n generalizing k with
  | zero => rfl
  | succ n ih =>
    rw [Place.advance?, h.step?, Option.bind_eq_bind, Option.bind_some]
    exact ih (h.advance 1)

theorem take? (h : k.StandsIn text) (kind : TokenKind) (n : Nat) :
    k.place.take? text kind n = some ((k.take kind n).1, (k.take kind n).2.place) := by
  rw [Place.take?, h.advance?, Option.bind_eq_bind, Option.bind_some]
  rfl

theorem refuse? (h : k.StandsIn text) (span : Span) (fault : ScanFault) (n : Nat) :
    k.place.refuse? text span fault n =
      some ((k.refuse span fault n).1, (k.refuse span fault n).2.place) := by
  rw [Place.refuse?, h.advance?, Option.bind_eq_bind, Option.bind_some]
  rfl

theorem takeSlice? (h : k.StandsIn text) (kind : String → TokenKind) (skip n : Nat) :
    k.place.takeSlice? text kind skip n =
      some ((k.take (kind (String.ofList ((k.rest.drop skip).take n))) (skip + n)).1,
        (k.take (kind (String.ofList ((k.rest.drop skip).take n))) (skip + n)).2.place) := by
  have hstart := h.advance skip
  simp only [Place.takeSlice?, h.advance?, hstart.advance?, place_offset, hstart.slice?,
    Option.bind_eq_bind, Option.bind_some, rest_advance, Cursor.take, advance_add, place_spanTo]

/-- A token that is its own text is cut out of the text. -/
theorem takeText (h : k.StandsIn text) (kind : String → TokenKind) {lexeme : List Char}
    (hl : lexeme <+: k.rest) :
    k.place.takeSlice? text kind 0 lexeme.length =
      some ((k.takeText kind lexeme).1, (k.takeText kind lexeme).2.place) := by
  rw [h.takeSlice?, List.drop_zero, ← List.prefix_iff_eq_take.1 hl, Nat.zero_add]
  rfl

theorem takeString? (h : k.StandsIn text) {c : Char} {rest : List Char} (hk : k.rest = c :: rest) :
    k.place.takeString? text rest =
      some ((k.takeString rest).1, (k.takeString rest).2.place) := by
  unfold Place.takeString? Cursor.takeString
  cases Lexeme.stringBody rest with
  | closed s length => exact h.take? _ _
  | unterminated =>
    rw [hk, List.length_cons]
    exact h.refuse? _ _ _
  | unknownEscape e length =>
    dsimp only
    rw [h.advance?, Option.bind_eq_bind, Option.bind_some]
    exact h.refuse? _ _ _

theorem takeQuotation? (h : k.StandsIn text) :
    k.place.takeQuotation? text k.rest = some (k.takeQuotation.1, k.takeQuotation.2.place) := by
  unfold Place.takeQuotation? Cursor.takeQuotation
  cases Lexeme.quotation k.rest with
  | none => exact h.refuse? _ _ _
  | some length =>
    dsimp only
    rw [h.takeSlice?, List.drop_zero, Nat.zero_add]

/-- The name of a macro is cut out behind its first character. -/
theorem takeMacroName (h : k.StandsIn text) {c : Char} {rest : List Char} (hk : k.rest = c :: rest) :
    k.place.takeSlice? text (fun name => .macroName ("@" ++ name)) 1 (Lexeme.name rest).length =
      some ((k.takeText .macroName ('@' :: Lexeme.name rest)).1,
        (k.takeText .macroName ('@' :: Lexeme.name rest)).2.place) := by
  have hname : (k.rest.drop 1).take (Lexeme.name rest).length = Lexeme.name rest := by
    rw [hk, List.drop_one, List.tail_cons]
    exact (List.prefix_iff_eq_take.1 (Lexeme.name_isPrefix rest)).symm
  have htext : "@" ++ String.ofList (Lexeme.name rest) = String.ofList ('@' :: Lexeme.name rest) := by
    rw [← List.singleton_append, String.ofList_append]
  rw [h.takeSlice?, hname, htext, Nat.add_comm]
  rfl

theorem item? (h : k.StandsIn text) : k.place.item? text = some (k.item.1, k.item.2.place) := by
  rw [Place.item?, h.rest?, Option.bind_eq_bind, Option.bind_some, Cursor.item]
  cases hk : k.rest with
  | nil => exact h.take? _ _
  | cons c rest =>
    have hself : ∀ {lexeme : List Char}, lexeme <+: c :: rest → lexeme <+: k.rest := by
      rw [hk]
      exact id
    dsimp only
    cases Cursor.single? c with
    | some kind =>
      dsimp only
      split_ifs
      · exact h.take? _ _
      · rw [← hk]
        exact h.takeQuotation?
      · exact h.take? _ _
    | none =>
      dsimp only
      split_ifs
      · exact h.take? _ _
      · rw [← hk]
        exact h.takeQuotation?
      · exact h.takeText _ (hself (Lexeme.name_isPrefix _))
      · exact h.takeMacroName hk
      · exact h.takeText _ (hself (Lexeme.number_isPrefix _))
      · exact h.takeText _ (hself (Lexeme.number_isPrefix _))
      · exact h.takeString? hk
      · exact h.takeText _ (hself (List.cons_prefix_cons.2 ⟨rfl, Lexeme.symbols_isPrefix _⟩))
      · exact h.refuse? _ _ _

/-- The scanner that cuts gives the items of the one that holds what is left. -/
theorem next? (h : k.StandsIn text) : k.place.next? text = some (k.next.1, k.next.2.place) := by
  rw [Place.next?, h.rest?, Option.bind_eq_bind, Option.bind_some, Cursor.next]
  cases Lexeme.gap .plain 0 k.rest with
  | ok length =>
    dsimp only
    rw [h.advance?, Option.bind_eq_bind, Option.bind_some]
    exact (h.advance length).item?
  | error length =>
    dsimp only
    rw [h.advance?, Option.bind_eq_bind, Option.bind_some]
    exact h.refuse? _ _ _

end StandsIn

end Cursor

end Clausal
