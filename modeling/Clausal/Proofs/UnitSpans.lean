import Clausal.Proofs.QuotationSlices
import Clausal.Source.Loader

/-!
# Spans of a unit

A span that stands for a part of a unit begins and ends between characters of its text, in this order,
and says on which line it begins and where that line begins. Tokens and faults of a text have such
spans, and so has what two of them merge into. The span of quoted text is cut out of its token's; it
is a part of the text too, but its line is not counted anew.
-/
namespace Clausal

/-- The span is a part of the text of that unit. -/
structure Span.LiesIn (s : Span) (u : Source) : Prop where
  source : s.source = u.name
  start_le_stop : s.start ≤ s.stop
  stop_le : s.stop ≤ u.text.utf8ByteSize
  start_isValid : String.Pos.Raw.IsValid u.text ⟨s.start⟩
  stop_isValid : String.Pos.Raw.IsValid u.text ⟨s.stop⟩

/-- The span says on which line it begins, and where that line begins. -/
def Span.CountsLines (s : Span) (u : Source) : Prop :=
  ∃ front back, u.text.toList = front ++ back ∧ String.utf8Len front = s.start ∧
    s.line = 1 + front.count '\n' ∧ LineStart front s.lineStart

/-- The span is that of a part of the text, with its line. -/
structure Span.ExactIn (s : Span) (u : Source) : Prop extends s.LiesIn u where
  lines : s.CountsLines u

namespace Span

variable {s s' : Span} {u : Source} {front lexeme back : List Char}

theorem liesIn_of_append (h : u.text.toList = front ++ lexeme ++ back) (hsource : s.source = u.name)
    (hstart : s.start = String.utf8Len front) (hstop : s.stop = String.utf8Len (front ++ lexeme)) :
    s.LiesIn u := by
  have hlexeme := String.utf8Len_append front lexeme
  have hback := String.utf8Len_append (front ++ lexeme) back
  have hsize : u.text.utf8ByteSize = String.utf8Len (front ++ lexeme ++ back) := by
    rw [← h, String.utf8Len_toList]
  exact ⟨hsource, by omega, by omega,
    isValid_of_append (h.trans (List.append_assoc _ _ _)) hstart, isValid_of_append h hstop⟩

theorem Covers.exactIn (h : s.Covers u.name front lexeme)
    (htext : u.text.toList = front ++ lexeme ++ back) : s.ExactIn u :=
  ⟨liesIn_of_append htext h.source h.start h.stop, front, lexeme ++ back,
    by rw [htext, List.append_assoc], h.start.symm, h.line, h.lineStart⟩

/-- The span over two parts of a text is one itself. -/
theorem ExactIn.merge (h : s.ExactIn u) (h' : s'.ExactIn u) : (s.merge s').ExactIn u := by
  have hle := Nat.le_max_left s.stop s'.stop
  have hle' := Nat.le_max_right s.stop s'.stop
  have hstop := Nat.max_le.2 ⟨h.stop_le, h'.stop_le⟩
  have hvalid : String.Pos.Raw.IsValid u.text ⟨max s.stop s'.stop⟩ := by
    rcases Nat.le_total s.stop s'.stop with hlt | hlt
    · rw [Nat.max_eq_right hlt]
      exact h'.stop_isValid
    · rw [Nat.max_eq_left hlt]
      exact h.stop_isValid
  unfold Span.merge
  split_ifs
  · exact ⟨⟨h.source, Nat.le_trans h.start_le_stop hle, hstop, h.start_isValid, hvalid⟩, h.lines⟩
  · exact ⟨⟨h'.source, Nat.le_trans h'.start_le_stop hle', hstop, h'.start_isValid, hvalid⟩, h'.lines⟩

theorem exactIn_initial (u : Source) : (Span.initial u.name).ExactIn u := by
  have hcovers : (Span.initial u.name).Covers u.name [] [] :=
    ⟨rfl, rfl, rfl, rfl, [], [], rfl, by simp, .inl rfl, rfl⟩
  exact hcovers.exactIn rfl

end Span

namespace Quotation

/-- What may stand in front of quoted text: braces, and the kind if there is one. -/
inductive Opening : Option String → List Char → Prop
  | plain {braces : List Char} (hbraces : ∀ c ∈ braces, c = openBrace) : Opening none braces
  | kind {braces blanks kind : List Char} {c : Char} (hbraces : ∀ c ∈ braces, c = openBrace)
      (hblanks : ∀ c ∈ blanks, Text.isBlank c = true) (hkind : ∀ c ∈ kind, inKind c = true)
      (hc : inKind c = false) :
      Opening (some (String.ofList kind)) (braces ++ (blanks ++ ("kind:".toList ++ (kind ++ [c]))))

/-- The span of quoted text is that of the part of the raw text which it quotes. -/
theorem exists_strip {span : Span} {raw : List Char} {q : Quotation} (h : ofRaw span raw = .ok q) :
    ∃ opening closing, raw = opening ++ q.data.toList ++ closing ∧ Opening q.kind opening ∧
      q.span = span.strip (String.utf8Len opening) (String.utf8Len closing) := by
  unfold ofRaw at h
  dsimp only at h
  split_ifs at h with hdelimiters
  simp only [not_or, Nat.not_lt] at hdelimiters
  obtain ⟨opens, closes, hraw, hbraces, hopens, hcloses, hlen⟩ := exists_braces rfl hdelimiters.2.1
  generalize (raw.takeWhile (· == openBrace)).length = width at *
  have hbetween : (raw.drop width).take (raw.length - 2 * width) = between width raw := rfl
  rw [hbetween] at h
  generalize between width raw = inner at *
  split at h
  · obtain rfl := Except.ok.inj h
    exact ⟨opens, closes, by rw [hraw, String.toList_ofList], .plain hbraces, by rw [hopens, hcloses]⟩
  · next tagged htagged =>
    split at h
    · cases h
    · next c body hbody =>
      split_ifs at h
      obtain rfl := Except.ok.inj h
      -- In front of the data stand the braces, blanks and the kind; blanks and braces stand behind it.
      have hinner : inner = inner.takeWhile Text.isBlank ++ ("kind:".toList ++
          (tagged.takeWhile inKind ++ c :: body)) := by
        have hkind : tagged.takeWhile inKind ++ c :: body = tagged := by
          rw [← hbody]
          exact List.takeWhile_append_dropWhile
        rw [hkind, ← after?_eq_some htagged, List.takeWhile_append_dropWhile]
      have hc : inKind c = false := by
        have hhead := List.head?_dropWhile_not inKind tagged
        rwa [show tagged.dropWhile inKind = c :: body from hbody, List.head?_cons] at hhead
      have hopening : Opening (some (String.ofList (tagged.takeWhile inKind)))
          (opens ++ (inner.takeWhile Text.isBlank ++ ("kind:".toList ++
            (tagged.takeWhile inKind ++ [c])))) :=
        .kind hbraces (fun _ => List.mem_takeWhile_imp) (fun _ => List.mem_takeWhile_imp) hc
      obtain ⟨blanks, hblanks⟩ := trimEnd_isPrefix body
      generalize hfront : opens ++ (inner.takeWhile Text.isBlank ++ ("kind:".toList ++
        (tagged.takeWhile inKind ++ [c]))) = front at hopening
      have hsplit : raw = front ++ trimEnd body ++ (blanks ++ closes) := by
        rw [hraw, hinner, ← hfront]
        conv_lhs => rw [← hblanks]
        simp only [List.append_assoc, List.cons_append, List.nil_append]
      refine ⟨front, blanks ++ closes, by rw [String.toList_ofList]; exact hsplit, hopening, ?_⟩
      have hraw' : String.utf8Len raw = String.utf8Len front + String.utf8Len (trimEnd body) +
          (String.utf8Len blanks + width) := by
        rw [hsplit, String.utf8Len_append, String.utf8Len_append, String.utf8Len_append, hcloses]
      have hbody' : String.utf8Len body = String.utf8Len (trimEnd body) + String.utf8Len blanks := by
        conv_lhs => rw [← hblanks]
        rw [String.utf8Len_append]
      simp only [utf8Length_eq, String.utf8Len_append, hcloses]
      congr 1 <;> omega

/-- The quotation is cut out of the text of that unit, between `front` and its opening and `back`. Its
line is that of the opening. -/
structure CutFrom (q : Quotation) (u : Source) (front opening back : List Char) : Prop where
  text : u.text.toList = front ++ opening ++ q.data.toList ++ back
  opens : Opening q.kind opening
  source : q.span.source = u.name
  start : q.span.start = String.utf8Len (front ++ opening)
  stop : q.span.stop = String.utf8Len (front ++ opening ++ q.data.toList)
  line : q.span.line = 1 + front.count '\n'

namespace CutFrom

variable {q : Quotation} {u : Source} {front opening back : List Char}

theorem liesIn (h : q.CutFrom u front opening back) : q.span.LiesIn u :=
  Span.liesIn_of_append h.text h.source h.start h.stop

/-- The bytes of the text that the span names are the data. -/
theorem slice? (h : q.CutFrom u front opening back) :
    slice? u.text q.span.start q.span.stop = some q.data := by
  rw [slice?_of_append h.text h.start (by rw [h.stop, String.utf8Len_append]), String.ofList_toList]

end CutFrom

end Quotation

namespace Cursor

variable {k : Cursor} {u : Source}

@[simp] theorem source_past (k : Cursor) (n : Nat) : (k.past n).source = k.source := by
  induction n generalizing k with
  | zero => rfl
  | succ n ih =>
    obtain ⟨m, hm⟩ := k.next_snd
    rw [past, ih, hm, source_advance]

theorem StandsIn.spanTo (h : k.StandsIn u.text) (hsource : k.source = u.name) (n : Nat) :
    (k.spanTo (k.advance n)).ExactIn u := by
  obtain ⟨front, hbehind, htext⟩ := h
  rw [advance_min]
  have hcovers := hbehind.spanTo (Nat.min_le_right n k.rest.length)
  rw [hsource] at hcovers
  have hsplit : u.text.toList = front ++ k.rest.take (min n k.rest.length) ++
      k.rest.drop (min n k.rest.length) := by
    rw [htext, List.append_assoc, List.take_append_drop]
  exact hcovers.exactIn hsplit

theorem StandsIn.here (h : k.StandsIn u.text) (hsource : k.source = u.name) : k.here.ExactIn u :=
  h.spanTo hsource 0

/-- The span of a fault is empty and stands at the cursor or behind it. -/
theorem item_fault {e : ScanError} (h : k.item.1 = .fault e) : ∃ n, e.span = (k.advance n).here := by
  have hscans := k.scans_item
  generalize k.item = x at h hscans
  cases hscans with
  | openQuotation | openString | unexpected =>
    obtain rfl := Item.fault.inj h
    exact ⟨0, rfl⟩
  | unknownEscape =>
    obtain rfl := Item.fault.inj h
    exact ⟨_, rfl⟩
  | _ => cases h

theorem StandsIn.fault (h : k.StandsIn u.text) (hsource : k.source = u.name) {e : ScanError}
    (he : k.next.1 = .fault e) : e.span.ExactIn u := by
  have hhere : ∀ n, (k.advance n).here.ExactIn u := fun n =>
    (h.advance n).here (by rw [source_advance, hsource])
  rw [Cursor.next] at he
  split at he
  · next m _ =>
    obtain ⟨n, hn⟩ := item_fault he
    rw [hn, ← advance_add]
    exact hhere _
  · obtain rfl := Item.fault.inj he
    exact hhere _

/-- A token covers its lexeme, and shows it unless that is a string or has always the same text. -/
theorem StandsIn.token (h : k.StandsIn u.text) (hsource : k.source = u.name) {t : Token}
    (ht : k.next.1 = .token t) : ∃ front lexeme back, u.text.toList = front ++ lexeme ++ back ∧
      t.span.Covers u.name front lexeme ∧ ∀ name ∈ t.kind.written?, name = String.ofList lexeme := by
  by_cases hend : t.kind = .endOfInput
  · have hkind : k.next.1.kind? = some .endOfInput := by
      rw [ht, ← hend]
      rfl
    obtain ⟨n, -, hnil, hnext⟩ := gap_of_end hkind
    obtain ⟨front, hbehind, htext⟩ := h.advance n
    have hspan : t.span = (k.advance n).here := by
      rw [hnext] at ht
      exact congrArg Token.span (Item.token.inj ht).symm
    have hcovers := hbehind.spanTo (Nat.zero_le (k.advance n).rest.length)
    rw [source_advance, hsource, List.take_zero] at hcovers
    rw [hnil] at htext
    refine ⟨front, [], [], by simpa using htext, hspan ▸ hcovers, ?_⟩
    simp [hend, TokenKind.written?]
  · obtain ⟨m, n, -, hle, -, htake, hwritten⟩ := next_lexeme ht hend
    obtain ⟨front, hbehind, htext⟩ := h.advance m
    have hspan : t.span = (k.advance m).spanTo ((k.advance m).advance n) := by
      rw [htake] at ht
      exact congrArg Token.span (Item.token.inj ht).symm
    have hlen : n ≤ (k.advance m).rest.length := by
      rw [rest_advance, List.length_drop]
      omega
    have hcovers := hbehind.spanTo hlen
    rw [← hspan, source_advance, hsource] at hcovers
    refine ⟨front, (k.advance m).rest.take n, (k.advance m).rest.drop n, ?_, hcovers, ?_⟩
    · rw [htext, List.append_assoc, List.take_append_drop]
    · rwa [rest_advance]

end Cursor

/-- The items of a unit. -/
def Source.scan (u : Source) : Scan := Scan.ofText u.name u.text

/-- The token stands somewhere in the text of that unit. -/
def Token.WrittenIn (t : Token) (u : Source) : Prop := ∃ n, u.scan.get n = .token t

namespace Source

variable {u : Source} {n : Nat}

theorem get_scan (u : Source) (n : Nat) :
    u.scan.get n = ((Cursor.initial u.name u.text).past n).next.1 :=
  Scan.get_ofText u.name u.text n

theorem standsIn_past (u : Source) (n : Nat) :
    ((Cursor.initial u.name u.text).past n).StandsIn u.text :=
  (Cursor.standsIn_initial u.name u.text).past n

theorem exactIn_of_fault {e : ScanError} (h : u.scan.get n = .fault e) : e.span.ExactIn u := by
  rw [get_scan] at h
  exact (u.standsIn_past n).fault (Cursor.source_past _ n) h

end Source

namespace Token.WrittenIn

variable {t : Token} {u : Source}

theorem covers (h : t.WrittenIn u) : ∃ front lexeme back, u.text.toList = front ++ lexeme ++ back ∧
    t.span.Covers u.name front lexeme ∧ ∀ name ∈ t.kind.written?, name = String.ofList lexeme := by
  obtain ⟨n, hn⟩ := h
  rw [Source.get_scan] at hn
  exact (u.standsIn_past n).token (Cursor.source_past _ n) hn

theorem exactIn (h : t.WrittenIn u) : t.span.ExactIn u := by
  obtain ⟨front, lexeme, back, htext, hcovers, -⟩ := h.covers
  exact hcovers.exactIn htext

/-- What a quotation quotes is a part of the text. -/
theorem cutFrom (h : t.WrittenIn u) {raw : String} (hraw : t.kind = .quotation raw) {q : Quotation}
    (hq : Quotation.ofRaw t.span raw.toList = .ok q) :
    ∃ front opening back, q.CutFrom u front opening back := by
  obtain ⟨front, lexeme, back, htext, hcovers, hwritten⟩ := h.covers
  have hlexeme : raw.toList = lexeme := by
    rw [hwritten raw (by rw [hraw]; rfl), String.toList_ofList]
  obtain ⟨opening, closing, hsplit, hopening, hspan⟩ := Quotation.exists_strip hq
  rw [hlexeme] at hsplit
  refine ⟨front, opening, closing ++ back, by simp [htext, hsplit], hopening, ?_, ?_, ?_, ?_⟩
  · rw [hspan]
    exact hcovers.source
  · simp [hspan, Span.strip, hcovers.start]
  · simp only [hspan, Span.strip, hcovers.stop, hsplit, String.utf8Len_append]
    omega
  · rw [hspan]
    exact hcovers.line

end Token.WrittenIn

end Clausal
