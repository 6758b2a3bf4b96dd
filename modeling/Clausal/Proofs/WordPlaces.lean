import Clausal.Proofs.UnitSpans

/-!
# Where the words of a text stand

In a text of words with a space between any two, each token is the word at its place in the row, and its
span says what is written in front of it.
-/
namespace Clausal

/-- Words with a space behind each. -/
def lead (words : List String) : List Char := words.flatMap fun w => w.toList ++ [' ']

theorem lead_cons (w : String) (rest : List String) :
    lead (w :: rest) = w.toList ++ ' ' :: lead rest := by
  simp [lead]

theorem toList_spaced (w : String) (rest : List String) :
    (" ".intercalate (w :: rest) ++ " ").toList = lead (w :: rest) := by
  induction rest generalizing w with
  | nil => simp [lead]
  | cons u rest ih =>
    rw [String.intercalate_cons_cons, lead_cons, ← ih u]
    simp

/-- A text of words, taken apart at one of them. -/
theorem exists_spaced (before : List String) (w : String) (after : List String) :
    ∃ text, EndsWord text ∧
      (" ".intercalate (before ++ w :: after)).toList = lead before ++ (w.toList ++ text) := by
  induction before with
  | nil =>
    cases after with
    | nil => exact ⟨[], .nil, by simp [lead]⟩
    | cons u after =>
      refine ⟨' ' :: (" ".intercalate (u :: after)).toList, .space _, ?_⟩
      rw [List.nil_append, String.intercalate_cons_cons]
      simp [lead]
  | cons x before ih =>
    obtain ⟨text, htext, heq⟩ := ih
    refine ⟨text, htext, ?_⟩
    obtain ⟨u, rest, hne⟩ : ∃ u rest, before ++ w :: after = u :: rest := by
      cases before <;> exact ⟨_, _, rfl⟩
    rw [List.cons_append, hne, String.intercalate_cons_cons, ← hne, lead_cons]
    simp [heq]

namespace Cursor

variable {k : Cursor} {front gap w text : List Char} {kind : TokenKind}

/-- Behind a space, or behind nothing, a word is the next token. -/
theorem next_word (hw : Word w kind) (htext : EndsWord text) (hgap : gap = [] ∨ gap = [' '])
    (hk : k.rest = gap ++ (w ++ text)) : k.next = (k.advance gap.length).take kind w.length := by
  obtain ⟨hzero, hitem⟩ := hw.begins htext
  have hrest : (k.advance gap.length).rest = w ++ text := by
    rw [rest_advance, hk, List.drop_left]
  rw [← hitem _ hrest]
  refine next_of_gap ?_
  rw [hk]
  rcases hgap with rfl | rfl
  · exact hzero
  · exact Lexeme.gap_blank Text.isBlank_space _ hzero

/-- The span of a word, with what is in front of it. -/
theorem covers_word {before : List String} {t : Token} (hk : k.Behind front)
    (hgap : gap = [] ∨ gap = [' ']) (hrest : k.rest = gap ++ (lead before ++ (w ++ text)))
    (hbefore : ∀ x ∈ before, Word x.toList (wordKind x)) (hw : Word w kind) (htext : EndsWord text)
    (ht : (k.past before.length).next.1 = .token t) :
    t.span.Covers k.source (front ++ (gap ++ lead before)) w := by
  induction before generalizing k front gap with
  | nil =>
    have hrest : k.rest = gap ++ (w ++ text) := hrest
    rw [List.length_nil, past, next_word hw htext hgap hrest] at ht
    have hbehind := hk.advance (n := gap.length) (by rw [hrest, List.length_append]; omega)
    have hafter : (k.advance gap.length).rest = w ++ text := by
      rw [rest_advance, hrest, List.drop_left]
    have hcovers := hbehind.spanTo (n := w.length) (by rw [hafter, List.length_append]; omega)
    rw [hafter, hrest, List.take_left, List.take_left, source_advance] at hcovers
    rw [← Item.token.inj ht]
    simpa [lead] using hcovers
  | cons x before ih =>
    have hx := hbefore x List.mem_cons_self
    rw [lead_cons, List.append_assoc, List.cons_append] at hrest
    rw [List.length_cons, past, next_word hx (.space _) hgap hrest] at ht
    rw [← List.append_assoc] at hrest
    have hadvance : ((k.advance gap.length).take (wordKind x) x.toList.length).2 =
        k.advance (gap ++ x.toList).length := by
      rw [List.length_append, advance_add]
      rfl
    rw [hadvance] at ht
    have hbehind := hk.advance (n := (gap ++ x.toList).length)
      (by rw [hrest]; exact (List.prefix_append _ _).length_le)
    rw [hrest, List.take_left] at hbehind
    have hcovers := ih hbehind (.inr rfl) (by rw [rest_advance, hrest, List.drop_left]; rfl)
      (fun y hy => hbefore y (List.mem_cons_of_mem _ hy)) ht
    rw [source_advance] at hcovers
    simpa [lead_cons] using hcovers

end Cursor

/-- The token at a place of a text of words covers the word there. -/
theorem Source.covers_word {u : Source} {before after : List String} {w : String} {t : Token}
    (htext : u.text = " ".intercalate (before ++ w :: after))
    (hwords : ∀ x ∈ before ++ w :: after, Word x.toList (wordKind x))
    (ht : u.scan.get before.length = .token t) : t.span.Covers u.name (lead before) w.toList := by
  obtain ⟨text, hends, heq⟩ := exists_spaced before w after
  rw [get_scan] at ht
  refine Cursor.covers_word (Cursor.behind_initial u.name u.text) (.inl rfl) ?_
    (fun x hx => hwords x (List.mem_append_left _ hx))
    (hwords w (List.mem_append_right _ List.mem_cons_self)) hends ht
  rw [List.nil_append, ← heq, ← htext]
  rfl

end Clausal
