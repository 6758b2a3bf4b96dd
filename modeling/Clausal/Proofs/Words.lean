import Clausal.Proofs.Spelling

/-!
# Words

A word is a text that is one token: a name, a run of symbol characters, a number, or a character by
itself. It keeps its kind in front of anything that cannot go on with a name or with a run of symbol
characters, and a text of words with spaces between them is read word by word.
-/
namespace Clausal

namespace Lexeme

/-- No blank outside ASCII is a letter or a number. -/
theorem blankRanges_disjoint :
    ((Text.alphabeticRanges.toList ++ Text.numericRanges.toList).all fun a =>
      Text.blankRanges.toList.all fun r =>
        Nat.blt r.1 0x80 || Nat.blt a.2 r.1 || Nat.blt r.2 a.1) = true := by decide +kernel

theorem isNameChar_of_ascii_blank :
    ∀ n < 0x80, Text.isBlank (Char.ofNat n) = true → isNameChar (Char.ofNat n) = false := by
  simp only [Text.isBlank_eq]
  decide

theorem isBlank_of_isNameChar {c : Char} (h : isNameChar c = true) : Text.isBlank c = false := by
  rw [← Bool.not_eq_true]
  intro hb
  by_cases hc : c.toNat < 0x80
  · have hn := isNameChar_of_ascii_blank c.toNat hc
    rw [Char.ofNat_toNat, h] at hn
    exact Bool.noConfusion (hn hb)
  · have hu : c ≠ '_' ∧ c ≠ '\'' := by
      constructor <;> rintro rfl <;> exact hc (by decide)
    simp only [isNameChar, Text.isAlphanumeric, hc, if_false, Bool.or_eq_true, beq_iff_eq, hu.1, hu.2,
      or_false] at h
    simp only [Text.isBlank, Text.inRanges, Array.any_eq_true', Bool.and_eq_true,
      decide_eq_true_eq] at h hb
    obtain ⟨r, hr, hlo, hhi⟩ := hb
    obtain ⟨a, ha, hlo', hhi'⟩ : ∃ a ∈ Text.alphabeticRanges.toList ++ Text.numericRanges.toList,
        a.1 ≤ c.toNat ∧ c.toNat ≤ a.2 := by
      rcases h with ⟨a, ha, hin⟩ | ⟨a, ha, hin⟩
      · exact ⟨a, List.mem_append_left _ (Array.mem_toList_iff.2 ha), hin⟩
      · exact ⟨a, List.mem_append_right _ (Array.mem_toList_iff.2 ha), hin⟩
    have hd := List.all_eq_true.1 (List.all_eq_true.1 blankRanges_disjoint a ha) r
      (Array.mem_toList_iff.2 hr)
    simp only [Bool.or_eq_true, Nat.blt_eq] at hd
    have hascii : ∀ r ∈ Text.blankRanges.toList, r.1 < 0x80 → r.2 < 0x80 := by decide
    have hlt := hascii r (by simpa using hr)
    omega

theorem isNameChar_of_isNameStart {c : Char} (h : isNameStart c = true) : isNameChar c = true := by
  simp only [isNameStart, Bool.or_eq_true] at h
  simp only [isNameChar, Bool.or_eq_true]
  exact .inl (h.imp_left Text.isAlphanumeric_of_isAlphabetic)

theorem isBlank_of_isNameStart {c : Char} (h : isNameStart c = true) : Text.isBlank c = false :=
  isBlank_of_isNameChar (isNameChar_of_isNameStart h)

/-- A property of each of these characters, decided by going through them. -/
theorem forall_mem_of_all {p : Char → Prop} [DecidablePred p] {chars : List Char}
    (h : (chars.all fun c => decide (p c)) = true) : ∀ c ∈ chars, p c :=
  fun c hc => of_decide_eq_true (List.all_eq_true.1 h c hc)

theorem mem_digits_of_isDigit {c : Char} (h : c.isDigit = true) : c ∈ "0123456789".toList := by
  have hall : ∀ n < 58, 48 ≤ n → Char.ofNat n ∈ "0123456789".toList := by decide
  simp only [Char.isDigit, Bool.and_eq_true, decide_eq_true_eq] at h
  simpa using hall c.toNat (Nat.lt_succ_of_le h.2) h.1

theorem isNameChar_of_isDigit {c : Char} (h : c.isDigit = true) : isNameChar c = true := by
  have hlt : c.toNat < 0x80 := by
    simp only [Char.isDigit, Bool.and_eq_true, decide_eq_true_eq] at h
    exact Nat.lt_of_le_of_lt h.2 (by decide)
  simp [isNameChar, Text.isAlphanumeric, hlt, Char.isAlphanum, h]

theorem single?_of_isNameStart {c : Char} (h : isNameStart c = true) : Cursor.single? c = none := by
  unfold Cursor.single?
  split <;> first | rfl | exact absurd h (by decide)

/-- A character of symbols begins no token of another kind. -/
theorem of_isSymbolChar {c : Char} (h : isSymbolChar c = true) :
    Text.isBlank c = false ∧ c ≠ '%' ∧ c ≠ '\x7b' ∧ Cursor.single? c = none ∧
      isNameStart c = false ∧ c.isDigit = false ∧ c ≠ '"' := by
  have hall : ∀ c ∈ "+-*/^<>=~:.?@#$&".toList,
      Text.isBlank c = false ∧ c ≠ '%' ∧ c ≠ '\x7b' ∧ Cursor.single? c = none ∧
        isNameStart c = false ∧ c.isDigit = false ∧ c ≠ '"' := by
    simp only [Text.isBlank_eq]
    exact forall_mem_of_all (by decide)
  exact hall c (by simpa [isSymbolChar] using h)

theorem of_isDigit {c : Char} (h : c.isDigit = true) :
    Text.isBlank c = false ∧ c ≠ '%' ∧ c ≠ '/' ∧ c ≠ '.' ∧ c ≠ '\x7b' ∧ Cursor.single? c = none ∧
      isNameStart c = false ∧ c ≠ '@' := by
  have hall : ∀ c ∈ "0123456789".toList,
      Text.isBlank c = false ∧ c ≠ '%' ∧ c ≠ '/' ∧ c ≠ '.' ∧ c ≠ '\x7b' ∧
        Cursor.single? c = none ∧ isNameStart c = false ∧ c ≠ '@' := by
    simp only [Text.isBlank_eq]
    exact forall_mem_of_all (by decide)
  exact hall c (mem_digits_of_isDigit h)

theorem of_single? {c : Char} {kind : TokenKind} (h : Cursor.single? c = some kind) :
    Text.isBlank c = false ∧ c ≠ '%' ∧ c ≠ '/' ∧ c ≠ '.' := by
  have hall : ∀ c ∈ "()[]\x7b\x7d\\,;!|".toList,
      Text.isBlank c = false ∧ c ≠ '%' ∧ c ≠ '/' ∧ c ≠ '.' := by
    simp only [Text.isBlank_eq]
    exact forall_mem_of_all (by decide)
  refine hall c ?_
  unfold Cursor.single? at h
  split at h <;> simp at h ⊢

end Lexeme

/-- Neither a name nor a run of symbol characters can go on with this text. -/
def EndsWord (text : List Char) : Prop :=
  Lexeme.startsWith (fun c => Lexeme.isNameChar c || Lexeme.isSymbolChar c) text = false

namespace EndsWord

theorem nil : EndsWord [] := rfl

theorem space (text : List Char) : EndsWord (' ' :: text) := by
  change (Lexeme.isNameChar ' ' || Lexeme.isSymbolChar ' ') = false
  decide

/-- No character of a name or of symbols comes next. -/
theorem startsWith {text : List Char} (h : EndsWord text) {p : Char → Bool}
    (hp : ∀ c, p c = true → Lexeme.isNameChar c = true ∨ Lexeme.isSymbolChar c = true) :
    Lexeme.startsWith p text = false := by
  cases text with
  | nil => rfl
  | cons c rest =>
    change p c = false
    rw [← Bool.not_eq_true]
    intro hc
    have hn : (Lexeme.isNameChar c || Lexeme.isSymbolChar c) = false := h
    simp only [Bool.or_eq_false_iff] at hn
    rcases hp c hc with hx | hx
    · exact Bool.noConfusion (hn.1.symm.trans hx)
    · exact Bool.noConfusion (hn.2.symm.trans hx)

end EndsWord

namespace Lexeme

variable {w text : List Char}

theorem name_of_endsWord (h : EndsWord text) : name text = [] := by
  cases text with
  | nil => rfl
  | cons c rest =>
    have hc : isNameChar c = false :=
      h.startsWith (p := isNameChar) fun _ hx => .inl hx
    have hp : (c == '.') = false := h.startsWith (p := (· == '.')) fun x hx => by
      obtain rfl := eq_of_beq hx
      exact .inr (by decide)
    simp [name, hc, hp]

theorem name_append (w : List Char) (h : EndsWord text) : name (w ++ text) = name w := by
  induction w with
  | nil => exact name_of_endsWord h
  | cons c rest ih =>
    have hs : startsWith isNameStart (rest ++ text) = startsWith isNameStart rest := by
      cases rest with
      | nil => exact h.startsWith fun _ hx => .inl (isNameChar_of_isNameStart hx)
      | cons d rest => rfl
    rw [List.cons_append, name, name, hs, ih]

theorem number_append (hw : ∀ d ∈ w, d.isDigit = true) (h : EndsWord text) :
    number (w ++ text) = ⟨w, false⟩ := by
  have hd : text.takeWhile Char.isDigit = [] := by
    cases text with
    | nil => rfl
    | cons c rest =>
      have hc : c.isDigit = false := h.startsWith (p := Char.isDigit) fun _ hx =>
        .inl (isNameChar_of_isDigit hx)
      simp [hc]
  have hf : fraction text = [] := by
    have hp : startsWith (· == '.') text = false := h.startsWith fun x hx => by
      obtain rfl := eq_of_beq hx
      exact .inr (by decide)
    unfold fraction
    split
    · simp [startsWith] at hp
    · rfl
  have he : exponent text = [] := by
    cases text with
    | nil => rfl
    | cons c rest =>
      have hp : (c == 'e' || c == 'E') = false :=
        h.startsWith (p := fun c => c == 'e' || c == 'E') fun x hx => by
          rcases Bool.or_eq_true_iff.1 hx with hx | hx <;> obtain rfl := eq_of_beq hx <;>
            exact .inl (by decide)
      simp [exponent, hp]
  have ht : (w ++ text).takeWhile Char.isDigit = w := by
    rw [List.takeWhile_append_of_pos hw, hd, List.append_nil]
  simp [number, ht, hf, he]

theorem symbols_of_endsWord (h : EndsWord text) : symbols text = [] := by
  cases text with
  | nil => rfl
  | cons c rest =>
    have hc : isSymbolChar c = false :=
      h.startsWith (p := isSymbolChar) fun _ hx => .inr hx
    simp [symbols, hc]

theorem not_comment_append {c : Char} (hc : ¬ (c = '/' ∧ startsWith (· == '*') w = true))
    (h : EndsWord text) : ¬ (c = '/' ∧ startsWith (· == '*') (w ++ text) = true) := by
  rintro ⟨hs, hx⟩
  cases w with
  | nil =>
    rw [List.nil_append, h.startsWith fun x hx => ?_] at hx
    · exact Bool.noConfusion hx
    · obtain rfl := eq_of_beq hx
      exact .inr (by decide)
  | cons d rest => exact hc ⟨hs, hx⟩

theorem symbols_append (hw : symbols w = w) (h : EndsWord text) : symbols (w ++ text) = w := by
  induction w with
  | nil => exact symbols_of_endsWord h
  | cons c rest ih =>
    rw [symbols] at hw
    split_ifs at hw with h1 h2 h3
    simp only [List.cons.injEq, true_and] at hw
    rw [List.cons_append, symbols, if_neg h1, if_neg, if_neg, ih hw]
    · simpa using not_comment_append (by simpa using h3) h
    · cases rest with
      | nil =>
        simp only [endsDeclaration, Bool.and_true, beq_iff_eq] at h2
        simp [h2]
      | cons d rest => exact h2

end Lexeme

/-- A text that is one token of the given kind, wherever a word may end behind it. -/
inductive Word : List Char → TokenKind → Prop
  | name {c : Char} {rest : List Char} (start : Lexeme.isNameStart c = true)
      (run : Lexeme.name (c :: rest) = c :: rest) :
      Word (c :: rest) (.ident (String.ofList (c :: rest)))
  | symbols {c : Char} {rest : List Char} (start : Lexeme.isSymbolChar c = true)
      (stop : ¬ (c = '.' ∧ Lexeme.endsDeclaration rest = true))
      (macroName : ¬ (c = '@' ∧ Lexeme.startsWith Lexeme.isNameStart rest = true))
      (comment : ¬ (c = '/' ∧ Lexeme.startsWith (· == '*') rest = true))
      (run : Lexeme.symbols rest = rest) :
      Word (c :: rest) (.symbolic (String.ofList (c :: rest)))
  | macroName {c : Char} {rest : List Char} (start : Lexeme.isNameStart c = true)
      (run : Lexeme.name (c :: rest) = c :: rest) :
      Word ('@' :: c :: rest) (.macroName (String.ofList ('@' :: c :: rest)))
  | digits {c : Char} {rest : List Char} (run : ∀ d ∈ c :: rest, d.isDigit = true) :
      Word (c :: rest) (.int (String.ofList (c :: rest)))
  | single {c : Char} {kind : TokenKind} (brace : c ≠ '\x7b')
      (h : Cursor.single? c = some kind) : Word [c] kind

theorem Word.ne_nil {w : List Char} {kind : TokenKind} (h : Word w kind) : w ≠ [] := by
  cases h <;> simp

/-- A character that is a token by itself is one in front of anything. -/
theorem begins_single {c : Char} {kind : TokenKind} (brace : c ≠ '\x7b')
    (hk : Cursor.single? c = some kind) (text : List Char) : Begins (c :: text) kind 1 := by
  obtain ⟨hblank, hpercent, hslash, hpoint⟩ := Lexeme.of_single? hk
  refine ⟨Lexeme.gap_zero hblank hpercent (fun hc => hslash hc.1), fun k hr => ?_⟩
  rw [Cursor.item, hr]
  simp only [hpoint, brace, decide_false, Bool.false_and, Bool.false_eq_true, if_false, hk]

namespace Cursor

open Lexeme

variable {k : Cursor} {c : Char} {rest : List Char}

theorem item_ident (hk : k.rest = c :: rest) (hc : isNameStart c = true) :
    k.item = k.takeText .ident (name (c :: rest)) := by
  have hpoint : c ≠ '.' := by rintro rfl; exact absurd hc (by decide)
  have hbrace : c ≠ '\x7b' := by rintro rfl; exact absurd hc (by decide)
  rw [item, hk]
  simp only [hpoint, hbrace, decide_false, Bool.false_and, Bool.false_eq_true, if_false,
    single?_of_isNameStart hc, hc, if_true]

theorem item_macroName (hk : k.rest = '@' :: rest) (hs : startsWith isNameStart rest = true) :
    k.item = k.takeText .macroName ('@' :: name rest) := by
  rw [item, hk]
  simp only [hs]
  rfl

theorem item_number (hk : k.rest = c :: rest) (hc : c.isDigit = true) :
    k.item = k.takeText (if (number (c :: rest)).isFloat then .float else .int)
      (number (c :: rest)).text := by
  obtain ⟨-, -, -, hpoint, hbrace, hsingle, hstart, hat⟩ := of_isDigit hc
  rw [item, hk]
  simp only [hpoint, hbrace, hat, decide_false, Bool.false_and, Bool.false_eq_true, if_false,
    hsingle, hstart, hc, if_true]

theorem item_symbolic (hk : k.rest = c :: rest) (hc : isSymbolChar c = true)
    (stop : ¬ (c = '.' ∧ endsDeclaration rest = true))
    (sigil : ¬ (c = '@' ∧ startsWith isNameStart rest = true)) :
    k.item = k.takeText .symbolic (c :: symbols rest) := by
  obtain ⟨-, -, hbrace, hsingle, hstart, hdigit, hquote⟩ := of_isSymbolChar hc
  rw [item, hk]
  simp only [Bool.and_eq_true, decide_eq_true_eq, stop, sigil, hbrace, false_and, if_false, hsingle,
    hstart, hdigit, hquote, Bool.false_eq_true, hc, if_true]

end Cursor

/-- A name is a token where it does not go on. -/
theorem begins_name {c : Char} {rest text : List Char} (start : Lexeme.isNameStart c = true)
    (run : Lexeme.name (c :: rest ++ text) = c :: rest) :
    Begins (c :: rest ++ text) (.ident (String.ofList (c :: rest))) (c :: rest).length := by
  have hslash : c ≠ '/' := by rintro rfl; exact absurd start (by decide)
  have hpercent : c ≠ '%' := by rintro rfl; exact absurd start (by decide)
  refine ⟨Lexeme.gap_zero (Lexeme.isBlank_of_isNameStart start) hpercent
    (fun hc => hslash hc.1), fun k hk => ?_⟩
  rw [List.cons_append] at hk
  rw [Cursor.item_ident hk start, ← List.cons_append, run]
  rfl

theorem Word.begins {w text : List Char} {kind : TokenKind} (hw : Word w kind)
    (h : EndsWord text) : Begins (w ++ text) kind w.length := by
  cases hw with
  | @name c rest start run => exact begins_name start (by rw [Lexeme.name_append _ h, run])
  | @symbols c rest start stop macroName comment run =>
    obtain ⟨hblank, hpercent, -⟩ := Lexeme.of_isSymbolChar start
    refine ⟨Lexeme.gap_zero hblank hpercent (Lexeme.not_comment_append comment h), fun k hk => ?_⟩
    have hpoint : ¬ (c = '.' ∧ Lexeme.endsDeclaration (rest ++ text) = true) := by
      rintro ⟨hc, he⟩
      refine stop ⟨hc, ?_⟩
      cases rest with
      | nil => rfl
      | cons d rest => exact he
    have hmacro : ¬ (c = '@' ∧ Lexeme.startsWith Lexeme.isNameStart (rest ++ text) = true) := by
      rintro ⟨hc, hx⟩
      cases rest with
      | nil =>
        have hn := h.startsWith (p := Lexeme.isNameStart) fun _ hx =>
          .inl (Lexeme.isNameChar_of_isNameStart hx)
        exact Bool.noConfusion (hn.symm.trans hx)
      | cons d rest => exact macroName ⟨hc, hx⟩
    rw [List.cons_append] at hk
    rw [Cursor.item_symbolic hk start hpoint hmacro, Lexeme.symbols_append run h]
    rfl
  | @macroName c rest start run =>
    refine ⟨Lexeme.gap_zero (by rw [Text.isBlank_eq]; decide) (by decide) (by simp), fun k hk => ?_⟩
    rw [List.cons_append] at hk
    rw [Cursor.item_macroName hk start, Lexeme.name_append _ h, run]
    rfl
  | @digits c rest run =>
    have hc : c.isDigit = true := run c List.mem_cons_self
    obtain ⟨hblank, hpercent, hslash, -⟩ := Lexeme.of_isDigit hc
    refine ⟨Lexeme.gap_zero hblank hpercent (fun hx => hslash hx.1), fun k hk => ?_⟩
    rw [List.cons_append] at hk
    rw [Cursor.item_number hk hc, ← List.cons_append, Lexeme.number_append run h]
    rfl
  | single brace hk => exact begins_single brace hk text

namespace Cursor

variable {k : Cursor} {c : Char} {rest : List Char}

/-- What the scanner finds where neither a blank nor a comment stands: a case for each kind of lexeme, and
for each way in which a lexeme is refused. -/
inductive Scans (k : Cursor) : Item × Cursor → Prop
  | endOfInput (text : k.rest = []) : Scans k (k.take .endOfInput 0)
  | stop {rest : List Char} (text : k.rest = '.' :: rest) (ends : Lexeme.endsDeclaration rest = true) :
      Scans k (k.take .stop 1)
  | quotation {rest : List Char} {length : Nat} (text : k.rest = '\x7b' :: '\x7b' :: rest)
      (closed : Lexeme.quotation k.rest = some length) :
      Scans k (k.take (.quotation (String.ofList (k.rest.take length))) length)
  | openQuotation {rest : List Char} (text : k.rest = '\x7b' :: '\x7b' :: rest)
      (unclosed : Lexeme.quotation k.rest = none) :
      Scans k (k.refuse k.here .unterminatedQuotation k.rest.length)
  | single {c : Char} {rest : List Char} {kind : TokenKind} (text : k.rest = c :: rest)
      (brace : ¬ (c = '\x7b' ∧ Lexeme.startsWith (· == '\x7b') rest = true))
      (alone : single? c = some kind) : Scans k (k.take kind 1)
  | name {c : Char} {rest : List Char} (text : k.rest = c :: rest)
      (start : Lexeme.isNameStart c = true) : Scans k (k.takeText .ident (Lexeme.name (c :: rest)))
  | macroName {rest : List Char} (text : k.rest = '@' :: rest)
      (start : Lexeme.startsWith Lexeme.isNameStart rest = true) :
      Scans k (k.takeText .macroName ('@' :: Lexeme.name rest))
  | number {c : Char} {rest : List Char} (text : k.rest = c :: rest) (digit : c.isDigit = true) :
      Scans k (k.takeText (if (Lexeme.number (c :: rest)).isFloat then .float else .int)
        (Lexeme.number (c :: rest)).text)
  | string {rest chars : List Char} {length : Nat} (text : k.rest = '"' :: rest)
      (closed : Lexeme.stringBody rest = .closed chars length) :
      Scans k (k.take (.string (String.ofList chars)) (length + 1))
  | openString {rest : List Char} (text : k.rest = '"' :: rest)
      (unclosed : Lexeme.stringBody rest = .unterminated) :
      Scans k (k.refuse k.here .unterminatedString k.rest.length)
  | unknownEscape {rest : List Char} {e : Char} {length : Nat} (text : k.rest = '"' :: rest)
      (unknown : Lexeme.stringBody rest = .unknownEscape e length) :
      Scans k (k.refuse (k.advance (length + 1)).here (.unknownEscape e) (length + 1))
  | symbols {c : Char} {rest : List Char} (text : k.rest = c :: rest)
      (symbol : Lexeme.isSymbolChar c = true)
      (stop : ¬ (c = '.' ∧ Lexeme.endsDeclaration rest = true))
      (macroName : ¬ (c = '@' ∧ Lexeme.startsWith Lexeme.isNameStart rest = true)) :
      Scans k (k.takeText .symbolic (c :: Lexeme.symbols rest))
  | unexpected {c : Char} {rest : List Char} (text : k.rest = c :: rest) (alone : single? c = none)
      (start : Lexeme.isNameStart c = false) (digit : c.isDigit = false) (quote : c ≠ '"')
      (symbol : Lexeme.isSymbolChar c = false) : Scans k (k.refuse k.here (.unexpected c) 0)

theorem scans_takeQuotation (text : k.rest = '\x7b' :: '\x7b' :: rest) : k.Scans k.takeQuotation := by
  rw [takeQuotation]
  split
  · next hclosed => exact .quotation text hclosed
  · next hunclosed => exact .openQuotation text hunclosed

theorem scans_takeString (text : k.rest = '"' :: rest) : k.Scans (k.takeString rest) := by
  rw [takeString]
  split
  · next hclosed => exact .string text hclosed
  · next hunclosed => exact .openString text hunclosed
  · next hunknown => exact .unknownEscape text hunknown

theorem scans_item (k : Cursor) : k.Scans k.item := by
  rw [item]
  split
  · next hk => exact .endOfInput hk
  next c rest hk =>
  split
  · next hpoint =>
    simp only [Bool.and_eq_true, decide_eq_true_eq] at hpoint
    obtain ⟨rfl, hends⟩ := hpoint
    exact .stop hk hends
  next hpoint =>
  split
  · next hbraces =>
    simp only [Bool.and_eq_true, decide_eq_true_eq] at hbraces
    obtain ⟨rfl, hstart⟩ := hbraces
    cases rest with
    | nil => cases hstart
    | cons d rest =>
      obtain rfl := eq_of_beq hstart
      exact scans_takeQuotation hk
  next hbrace =>
  split
  · next kind halone => exact .single hk (by simpa using hbrace) halone
  next halone =>
  rw [hk]
  split_ifs with hstart hmacro hdigit hquote hsymbol
  · exact .name hk hstart
  · simp only [Bool.and_eq_true, decide_eq_true_eq] at hmacro
    obtain ⟨rfl, hmacro⟩ := hmacro
    exact .macroName hk hmacro
  · exact .number hk hdigit
  · subst hquote
    exact scans_takeString hk
  · exact .symbols hk hsymbol (by simpa using hpoint) (by simpa using hmacro)
  · exact .unexpected hk halone (by simpa using hstart) (by simpa using hdigit) hquote
      (by simpa using hsymbol)

end Cursor

/-- The name that a token shows. -/
def TokenKind.word? : TokenKind → Option String
  | ident name | macroName name | symbolic name => some name
  | _ => none

/-- Where a space follows it, the name is read as one token of this kind. -/
def ReadsAs (name : String) (kind : TokenKind) : Prop :=
  (Cursor.initial "" (name ++ " ")).next.1.kind? = some kind ∧
    (Cursor.initial "" (name ++ " ")).next.2.rest = [' ']

instance (name : String) (kind : TokenKind) : Decidable (ReadsAs name kind) :=
  inferInstanceAs (Decidable (_ ∧ _))

namespace Cursor

variable {k : Cursor}

theorem next_of_kind? {kind : TokenKind} (h : k.next.1.kind? = some kind) :
    ∃ n, Lexeme.gap .plain 0 k.rest = .ok n ∧ k.next = (k.advance n).item := by
  cases hg : Lexeme.gap .plain 0 k.rest with
  | ok n => exact ⟨n, rfl, by rw [next, hg]⟩
  | error n => simp [next, hg, refuse, Item.kind?] at h

theorem kind_of_take {kind kind' : TokenKind} {n : Nat}
    (h : (k.take kind' n).1.kind? = some kind) : kind' = kind :=
  Option.some.inj h

/-- A character that is a token by itself is its own name, if it has one. -/
theorem single?_word? {c : Char} {kind : TokenKind} {name : String} (h : single? c = some kind)
    (hn : kind.word? = some name) : kind = .symbolic name ∧ [c] = name.toList := by
  unfold single? at h
  split at h <;> simp only [Option.some.injEq, reduceCtorEq] at h <;> subst h <;>
    simp_all [TokenKind.word?] <;> subst hn <;> decide

/-- A token that shows a name is a run of name characters, perhaps behind `@`, a symbol by itself
or a run of symbol characters. -/
theorem item_of_word? {kind : TokenKind} {name : String} (h : k.item.1.kind? = some kind)
    (hn : kind.word? = some name) :
    ∃ c rest, k.rest = c :: rest ∧
      ((kind = .ident name ∧ Lexeme.isNameStart c = true ∧
          Lexeme.name (c :: rest) = name.toList) ∨
        (kind = .macroName name ∧ c = '@' ∧ Lexeme.startsWith Lexeme.isNameStart rest = true ∧
          '@' :: Lexeme.name rest = name.toList) ∨
        (kind = .symbolic name ∧ single? c = some kind ∧ [c] = name.toList) ∨
        (kind = .symbolic name ∧ Lexeme.isSymbolChar c = true ∧
          ¬ (c = '.' ∧ Lexeme.endsDeclaration rest = true) ∧
          ¬ (c = '@' ∧ Lexeme.startsWith Lexeme.isNameStart rest = true) ∧
          c :: Lexeme.symbols rest = name.toList)) ∧
      k.item.2 = k.advance name.toList.length := by
  have hscans := k.scans_item
  generalize k.item = x at h hscans ⊢
  cases hscans with
  | endOfInput | stop | quotation | string =>
    obtain rfl := kind_of_take h
    cases hn
  | openQuotation | openString | unknownEscape | unexpected => cases h
  | single text _ alone =>
    obtain rfl := kind_of_take h
    obtain ⟨hkind, hname⟩ := single?_word? alone hn
    exact ⟨_, _, text, .inr (.inr (.inl ⟨hkind, alone, hname⟩)), by rw [← hname]; rfl⟩
  | name text start =>
    obtain rfl := kind_of_take h
    obtain rfl := Option.some.inj hn
    exact ⟨_, _, text, .inl ⟨rfl, start, by simp⟩, by simp [takeText, take]⟩
  | macroName text start =>
    obtain rfl := kind_of_take h
    obtain rfl := Option.some.inj hn
    exact ⟨_, _, text, .inr (.inl ⟨rfl, rfl, start, by simp⟩), by simp [takeText, take]⟩
  | number text =>
    obtain rfl := kind_of_take h
    split at hn <;> cases hn
  | symbols text symbol stop macroName =>
    obtain rfl := kind_of_take h
    obtain rfl := Option.some.inj hn
    exact ⟨_, _, text, .inr (.inr (.inr ⟨rfl, symbol, stop, macroName, by simp⟩)),
      by simp [takeText, take]⟩

end Cursor

namespace Lexeme

theorem le_gap {g : Gap} {passed n : Nat} {text : List Char} (h : gap g passed text = .ok n) :
    passed ≤ n := by
  fun_induction gap g passed text with
  | case1 => simp at h
  | case2 => simp_all
  | case3 => simp_all
  | case4 passed c rest ih => exact Nat.le_of_succ_le (ih h)
  | case5 opened passed rest ih => exact Nat.le_trans (Nat.le_add_right _ _) (ih h)
  | case6 opened passed c rest hc ih => exact Nat.le_of_succ_le (ih h)
  | case7 passed rest ih => exact Nat.le_trans (Nat.le_add_right _ _) (ih h)
  | case8 passed c rest hc hb ih => exact Nat.le_of_succ_le (ih h)
  | case9 passed c rest hc hb hp ih => exact Nat.le_of_succ_le (ih h)
  | case10 passed c rest hc hb hp => exact Nat.le_of_eq (Except.ok.inj h)

theorem not_comment_of_gap_zero {c : Char} {rest : List Char}
    (h : gap .plain 0 (c :: rest) = .ok 0) :
    ¬ (c = '/' ∧ startsWith (· == '*') rest = true) := by
  rintro ⟨rfl, hs⟩
  cases rest with
  | nil => simp [startsWith] at hs
  | cons d rest =>
    obtain rfl := eq_of_beq hs
    rw [gap] at h
    exact absurd (le_gap h) (by omega)

theorem symbols_space (w : List Char) : symbols (w ++ [' ']) = symbols w := by
  induction w with
  | nil => decide
  | cons c rest ih =>
    have he : endsDeclaration (rest ++ [' ']) = endsDeclaration rest := by
      cases rest with
      | nil => simp [endsDeclaration, Text.isBlank_space]
      | cons d rest => rfl
    have hs : startsWith (· == '*') (rest ++ [' ']) = startsWith (· == '*') rest := by
      cases rest with
      | nil => decide
      | cons d rest => rfl
    rw [List.cons_append, symbols, symbols, he, hs, ih]

end Lexeme

theorem ReadsAs.word {name : String} {kind : TokenKind} (h : ReadsAs name kind)
    (hk : kind.word? = some name) : Word name.toList kind := by
  obtain ⟨hkind, hrest⟩ := h
  obtain ⟨n, hg, hn⟩ := Cursor.next_of_kind? hkind
  rw [hn] at hkind hrest
  obtain ⟨c, rest, hc, hcases, hafter⟩ := Cursor.item_of_word? hkind hk
  have htext : (Cursor.initial "" (name ++ " ")).rest = name.toList ++ [' '] := by
    simp [Cursor.initial]
  rw [hafter, Cursor.rest_advance, Cursor.rest_advance, htext] at hrest
  -- The token is as long as the name, so no gap is in front of it.
  obtain rfl : n = 0 := by
    have hl := congrArg List.length hrest
    simp only [List.length_drop, List.length_append, List.length_singleton] at hl
    omega
  rw [Cursor.rest_advance, htext, List.drop_zero] at hc
  rw [htext, hc] at hg
  have hcomment := Lexeme.not_comment_of_gap_zero hg
  have hname : name = String.ofList name.toList := by simp
  generalize name.toList = w at hc hcases hname
  subst hname
  cases w with
  | nil =>
    obtain ⟨rfl, rfl⟩ := List.cons.inj hc
    rcases hcases with ⟨-, hx, -⟩ | ⟨-, hx, -⟩ | ⟨-, -, hx⟩ | ⟨-, hx, -⟩
    · exact absurd hx (by decide)
    · exact absurd hx (by decide)
    · exact absurd hx (by decide)
    · exact absurd hx (by decide)
  | cons d w =>
    obtain ⟨rfl, rfl⟩ : d = c ∧ w ++ [' '] = rest := by simpa using hc
    rcases hcases with ⟨rfl, hstart, hrun⟩ | ⟨rfl, rfl, hstart, hrun⟩ | ⟨rfl, hsingle, hrun⟩ |
      ⟨rfl, hsymbol, hpoint, hmacro, hrun⟩
    · rw [← List.cons_append, Lexeme.name_append _ (.space [])] at hrun
      exact .name hstart hrun
    · rw [Lexeme.name_append _ (.space [])] at hrun
      cases w with
      | nil => exact absurd hstart (by decide)
      | cons c rest => exact .macroName hstart (List.cons.inj hrun).2
    · obtain rfl : w = [] := by simpa using hrun.symm
      exact .single (by rintro rfl; exact absurd hsingle (by simp [Cursor.single?])) hsingle
    · rw [Lexeme.symbols_space] at hrun
      refine .symbols hsymbol ?_ ?_ ?_ (List.cons.inj hrun).2
      · rintro ⟨rfl, he⟩
        refine hpoint ⟨rfl, ?_⟩
        cases w with
        | nil => simp [Lexeme.endsDeclaration, Text.isBlank_space]
        | cons d rest => exact he
      · rintro ⟨rfl, hx⟩
        refine hmacro ⟨rfl, ?_⟩
        cases w with
        | nil => exact absurd hx (by decide)
        | cons d rest => exact hx
      · rintro ⟨rfl, hx⟩
        refine hcomment ⟨rfl, ?_⟩
        cases w with
        | nil => exact absurd hx (by decide)
        | cons d rest => exact hx

namespace Spells

/-- A word in front of a text that no word can go on with. -/
theorem word {w text : List Char} {kind : TokenKind} {kinds : List TokenKind} (hw : Word w kind)
    (h : EndsWord text) (hr : Spells text kinds) : Spells (w ++ text) (kind :: kinds) := by
  refine token (hw.begins h) (List.length_pos_iff.2 hw.ne_nil) (by simp) ?_
  rw [List.drop_left]
  exact hr

end Spells

/-- The kind of token that the word is in front of a space. -/
def wordKind (w : String) : TokenKind :=
  (Cursor.initial "" (w ++ " ")).next.1.kind?.getD .endOfInput

theorem ReadsAs.wordKind_eq {name : String} {kind : TokenKind} (h : ReadsAs name kind) :
    wordKind name = kind := by
  rw [wordKind, h.1, Option.getD_some]

/-- Words with a space between any two are read one by one. -/
theorem Spells.spaced {words : List String} (h : ∀ w ∈ words, Word w.toList (wordKind w)) :
    Spells (" ".intercalate words).toList (words.map wordKind) := by
  induction words with
  | nil => exact Spells.nil
  | cons w rest ih =>
    have hw := h w List.mem_cons_self
    have hr := ih fun u hu => h u (List.mem_cons_of_mem _ hu)
    cases rest with
    | nil => simpa using Spells.word hw EndsWord.nil Spells.nil
    | cons u rest =>
      rw [String.intercalate_cons_cons, String.toList_append, String.toList_append,
        List.append_assoc]
      exact Spells.word hw (EndsWord.space _) (Spells.blank Text.isBlank_space hr)

end Clausal
