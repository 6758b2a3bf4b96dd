import Clausal.Parse.Expression
import Clausal.Proofs.Breaks

/-!
# Texts put together

A text that spells its tokens in front of anything that ends a word can be set between others like
it. Names, numbers, strings and bracketed texts are of this kind.
-/
namespace Clausal

/-- The text is these tokens, wherever a word may end behind it. -/
def SpelledAs (text : String) (kinds : List TokenKind) : Prop :=
  ∀ more ks, EndsWord more → Spells more ks → Spells (text.toList ++ more) (kinds ++ ks)

/-- A word may end in front of the text. -/
def SetsOff (text : String) : Prop := ∀ more, EndsWord more → EndsWord (text.toList ++ more)

theorem setsOff_of_head {text : String} {c : Char} {rest : List Char} (h : text.toList = c :: rest)
    (hc : (Lexeme.isNameChar c || Lexeme.isSymbolChar c) = false) : SetsOff text := by
  intro more _
  rw [h]
  exact hc

namespace SpelledAs

variable {text other : String} {kinds ks : List TokenKind} {kind : TokenKind}

theorem empty : SpelledAs "" [] := fun _ _ _ h => h

theorem append (h : SpelledAs text kinds) (ho : SpelledAs other ks) (hs : SetsOff other) :
    SpelledAs (text ++ other) (kinds ++ ks) := by
  intro more ks' he hm
  rw [String.toList_append, List.append_assoc, List.append_assoc]
  exact h _ _ (hs more he) (ho more ks' he hm)

theorem space (h : SpelledAs text (kind :: ks)) : SpelledAs (" " ++ text) (kind :: ks) := by
  intro more ks' he hm
  rw [String.toList_append, List.append_assoc]
  exact Spells.blank Text.isBlank_space (h more ks' he hm)

/-- A character that is a token by itself, in front of anything. -/
theorem behind (other : String) {c : Char} (hc : other.toList = [c]) (brace : c ≠ '\x7b')
    (hk : Cursor.single? c = some kind) (h : SpelledAs text kinds) :
    SpelledAs (other ++ text) (kind :: kinds) := by
  intro more ks' he hm
  rw [String.toList_append, hc, List.append_assoc]
  exact Spells.token (begins_single brace hk _) Nat.one_pos (by simp) (h more ks' he hm)

theorem ofWord (text : String) (h : Word text.toList kind) : SpelledAs text [kind] :=
  fun _ _ he hm => Spells.word h he hm

theorem closing : SpelledAs ")" [.rightParen] := ofWord _ (.single (by decide) rfl)

theorem parenthesized (h : SpelledAs text kinds) :
    SpelledAs ("(" ++ text ++ ")") (.leftParen :: (kinds ++ [.rightParen])) := by
  rw [String.append_assoc]
  exact behind "(" rfl (by decide) rfl (h.append closing (setsOff_of_head rfl (by decide)))

end SpelledAs

theorem Lexeme.isNameChar_or_eq_of_mem_name {c : Char} {text : List Char} (h : c ∈ name text) :
    isNameChar c = true ∨ c = '.' := by
  induction text with
  | nil => simp [name] at h
  | cons d rest ih =>
    rw [name] at h
    split at h
    · next hd =>
      rcases List.mem_cons.1 h with rfl | h
      · exact .inl hd
      · exact ih h
    · split at h
      · next hd =>
        rcases List.mem_cons.1 h with rfl | h
        · simp only [Bool.and_eq_true, beq_iff_eq] at hd
          exact .inr hd.1
        · exact ih h
      · simp at h

namespace Term

/-- A name that is one token of an identifier or of a macro name shows without parentheses. -/
theorem isPlainName_of_readsAs {name : String} {kind : TokenKind} (h : ReadsAs name kind)
    (hk : kind = .ident name ∨ kind = .macroName name) : isPlainName name = true := by
  have hchars : ∀ {text : List Char}, Lexeme.name text = text → ∀ c ∈ text,
      (Text.isAlphanumeric c || c == '_' || c == '\'' || c == '.' || c == '-') = true := by
    intro text ht c hc
    rcases Lexeme.isNameChar_or_eq_of_mem_name (ht.symm ▸ hc) with hn | rfl
    · simp only [Lexeme.isNameChar, Bool.or_eq_true] at hn
      simp only [Bool.or_eq_true]
      exact .inl (.inl hn)
    · decide
  have hword := h.word (by rcases hk with rfl | rfl <;> rfl)
  unfold isPlainName
  rcases hk with rfl | rfl
  · generalize hw : name.toList = w at hword
    cases hword with
    | @name c rest start run =>
      have hstart : (Text.isAlphabetic c || c == '_' || c == '@') = true := by
        simp only [Lexeme.isNameStart] at start
        simp [start]
      simp only [hstart, if_true]
      exact List.all_eq_true.2 fun d hd => hchars run d (List.mem_cons_of_mem _ hd)
    | single brace hsingle =>
      unfold Cursor.single? at hsingle
      split at hsingle <;> simp at hsingle
  · generalize hw : name.toList = w at hword
    cases hword with
    | @macroName c rest start run =>
      have hat : (Text.isAlphabetic '@' || '@' == '_' || '@' == '@') = true := by decide
      simp only [hat, if_true]
      exact List.all_eq_true.2 (hchars run)
    | single brace hsingle =>
      unfold Cursor.single? at hsingle
      split at hsingle <;> simp at hsingle

end Term

theorem Word.ofName {text : String} (hstart : Lexeme.startsWith Lexeme.isNameStart text.toList = true)
    (hrun : Lexeme.name text.toList = text.toList) : Word text.toList (.ident text) := by
  cases htext : text.toList with
  | nil =>
    rw [htext] at hstart
    cases hstart
  | cons c rest =>
    rw [htext] at hstart hrun
    obtain rfl : text = String.ofList (c :: rest) := by rw [← htext, String.ofList_toList]
    exact .name hstart hrun

theorem Word.ofNat (n : Nat) : Word (toString n).toList (.int (toString n)) := by
  have hdigits : ∀ d ∈ (toString n).toList, d.isDigit = true := by
    intro d hd
    rw [Nat.toString_eq_ofList_toDigits, String.toList_ofList] at hd
    exact Nat.isDigit_of_mem_toDigits (by decide) (by decide) hd
  have hne : (toString n).toList ≠ [] := by
    rw [Nat.toString_eq_ofList_toDigits, String.toList_ofList]
    exact Nat.toDigits_ne_nil
  obtain ⟨c, rest, hc⟩ := List.exists_cons_of_ne_nil hne
  have hs : toString n = String.ofList (c :: rest) := by rw [← hc, String.ofList_toList]
  rw [hs, String.toList_ofList]
  exact .digits (hc ▸ hdigits)

theorem SpelledAs.ofNat (n : Nat) : SpelledAs (toString n) [.int (toString n)] :=
  SpelledAs.ofWord _ (.ofNat n)

theorem Parse.boundedNat?_toString {n greatest : Nat} (h : n ≤ greatest) :
    boundedNat? greatest (toString n) = some n := by
  have hv : Decimal.digitsValue (toString n).toList = n := by
    rw [Nat.toString_eq_ofList_toDigits, String.toList_ofList]
    exact Nat.ofDigitChars_ten_toDigits
  rw [boundedNat?]
  simp only [hv, if_pos h]

theorem Lexeme.stringBody_escapeChar (c : Char) (rest : List Char) :
    stringBody (Literal.escapeChar c ++ rest) =
      (stringBody rest).add c (Literal.escapeChar c).length := by
  unfold Literal.escapeChar
  split
  · simp [stringBody, unescape]
  · simp [stringBody, unescape]
  · simp [stringBody, unescape]
  · simp [stringBody, unescape]
  · next hb hq _ _ => exact stringBody_cons hb hq rest

theorem Lexeme.stringBody_escape (text more : List Char) :
    stringBody (text.flatMap Literal.escapeChar ++ '"' :: more) =
      .closed text ((text.flatMap Literal.escapeChar).length + 1) := by
  induction text with
  | nil =>
    rw [List.flatMap_nil, List.nil_append, stringBody]
    rfl
  | cons c rest ih =>
    rw [List.flatMap_cons, List.append_assoc, stringBody_escapeChar, ih, List.length_append,
      StringBody.add, Nat.add_assoc]

theorem Lexeme.gap_quote (rest : List Char) : gap .plain 0 ('"' :: rest) = .ok 0 :=
  gap_zero (by rw [Text.isBlank_eq]; decide) (by decide) (by simp)

theorem Cursor.item_quote {k : Cursor} {rest : List Char} (hk : k.rest = '"' :: rest) :
    k.item = k.takeString rest := by
  have hclass : Lexeme.isNameStart '"' = false := by decide
  rw [item, hk]
  simp only [single?, hclass]
  rfl

/-- A string is a token in front of anything. -/
theorem begins_string (text : String) (more : List Char) :
    Begins ((Literal.renderString text).toList ++ more) (.string text)
      (Literal.renderString text).toList.length := by
  let body := text.toList.flatMap Literal.escapeChar
  have hshape : (Literal.renderString text).toList ++ more = '"' :: (body ++ '"' :: more) := by
    simp [Literal.renderString, body]
  have hlength : (Literal.renderString text).toList.length = body.length + 2 := by
    simp [Literal.renderString, body]
  rw [hshape, hlength]
  refine ⟨Lexeme.gap_quote _, fun k hk => ?_⟩
  rw [Cursor.item_quote hk, Cursor.takeString, Lexeme.stringBody_escape]
  dsimp only
  rw [String.ofList_toList]

theorem Spells.string {more : List Char} {kinds : List TokenKind} (text : String)
    (h : Spells more kinds) : Spells ((Literal.renderString text).toList ++ more) (.string text :: kinds) := by
  refine Spells.token (begins_string text more) (by simp [Literal.renderString]) (by simp) ?_
  rw [List.drop_left]
  exact h

theorem SpelledAs.string (text : String) :
    SpelledAs (Literal.renderString text) [.string text] :=
  fun _ _ _ hm => Spells.string text hm

end Clausal
