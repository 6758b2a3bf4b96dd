import Clausal.Proofs.TermOrigins

/-!
# Lines of quotations

The span of quoted text keeps the line of the braces in front of it, although it begins behind them, the
kind and the blanks around that. So its line falls behind by the line breaks that are passed over, and it
is right if and only if there are none.
-/
namespace Clausal

/-- The line on which the byte at an offset lies, counted from one. -/
def Source.lineAt (u : Source) (offset : Nat) : Nat :=
  1 + (String.Pos.Raw.extract u.text ⟨0⟩ ⟨offset⟩).toList.count '\n'

theorem Source.lineAt_append {u : Source} {front rest : List Char} (h : u.text.toList = front ++ rest) :
    u.lineAt (String.utf8Len front) = 1 + front.count '\n' := by
  have htext : u.text = String.ofList ([] ++ front ++ rest) := by
    rw [List.nil_append, ← h, String.ofList_toList]
  have hextract := String.extract_of_valid [] front rest
  rw [String.utf8Len_nil, Nat.zero_add] at hextract
  rw [lineAt, htext, hextract, String.toList_ofList]

namespace Quotation

/-- Without a kind there are only braces in front of quoted text. -/
theorem Opening.newline_notMem {opening : List Char} (h : Opening none opening) : '\n' ∉ opening := by
  cases h with
  | plain hbraces =>
    intro hmem
    exact absurd (hbraces _ hmem) (by decide)

/-- Line breaks in the opening are passed over. -/
theorem CutFrom.line_add {q : Quotation} {u : Source} {front opening back : List Char}
    (h : q.CutFrom u front opening back) :
    q.span.line + opening.count '\n' = u.lineAt q.span.start := by
  have hsplit : u.text.toList = front ++ opening ++ (q.data.toList ++ back) := by
    rw [h.text, List.append_assoc]
  rw [h.start, Source.lineAt_append hsplit, h.line, List.count_append, Nat.add_assoc]

end Quotation

/-- Every quotation in a term that a call gives is cut out of one of the texts of the call. Its line is that of
its opening braces: it is the line where the data begin if and only if no line break stands between
the braces and the data, and so it is whenever there is no kind. -/
theorem quotation_line_eq_iff {v : Vocabulary} {call : Call} {t : Term} {q : Quotation}
    (h : call.GivesTerm v t) (hq : (Term.quoted q).Within t) :
    ∃ x front opening back, call.Offers x ∧ q.CutFrom x front opening back ∧
      q.span.line + opening.count '\n' = x.lineAt q.span.start ∧
      (q.span.line = x.lineAt q.span.start ↔ '\n' ∉ opening) ∧
      (q.kind = none → q.span.line = x.lineAt q.span.start) := by
  obtain ⟨x, hx, ht⟩ := Call.readFrom h
  obtain ⟨front, opening, back, hcut⟩ := (ht.of_within hq).of_quoted
  have hline := hcut.line_add
  have hiff : q.span.line = x.lineAt q.span.start ↔ '\n' ∉ opening := by
    rw [← hline, ← List.count_eq_zero]
    omega
  refine ⟨x, front, opening, back, hx, hcut, hline, hiff, fun hkind => hiff.2 ?_⟩
  have hopening := hcut.opens
  rw [hkind] at hopening
  exact hopening.newline_notMem

/-- A line break behind the kind. -/
def kindOnItsLine : String := "\x7b\x7bkind:elpi\nfoo\x7d\x7d"

/-- The data stand on the second line, and the span says that it is the first. -/
theorem quotation_line_kindOnItsLine :
    ∃ q, (Call.term kindOnItsLine).GivesTerm .initial (.quoted q) ∧
      q.span = ⟨"<term>", 12, 15, 1, 0⟩ ∧ (Source.mk "<term>" kindOnItsLine).lineAt 12 = 2 ∧
      ∃ opening : List Char, q.span.line + opening.count '\n' = 2 ∧ '\n' ∈ opening := by
  have hgives : (Call.term kindOnItsLine).GivesTerm .initial
      (.quoted ⟨"foo", ⟨"<term>", 12, 15, 1, 0⟩, some "elpi"⟩) := .inl (by decide +kernel)
  have hline : (Source.mk "<term>" kindOnItsLine).lineAt 12 = 2 := by decide +kernel
  obtain ⟨x, front, opening, back, rfl, -, hadd, hiff, -⟩ := quotation_line_eq_iff hgives .refl
  rw [hline] at hadd hiff
  refine ⟨_, hgives, rfl, hline, opening, hadd, ?_⟩
  by_contra hnot
  exact absurd (hiff.2 hnot) (by decide)

end Clausal
