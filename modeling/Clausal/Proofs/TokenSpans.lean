import Clausal.Proofs.JoinedScans
import Mathlib.Data.String.Basic

/-!
# Where tokens stand in a text

The tokens of a text cover it in order. Between two of them, and in front of the first, there is a gap
of blanks and comments. A cursor counts bytes, lines and the place where the line began, so the span
of a token says where in the text its lexeme stands.
-/
namespace Clausal

/-- Blanks, line comments with their line break, and closed block comments. -/
inductive IsGap : List Char → Prop
  | nil : IsGap []
  | blank {c : Char} {w : List Char} (hc : Text.isBlank c = true) (hw : IsGap w) : IsGap (c :: w)
  | line {comment w : List Char} (hc : '\n' ∉ comment) (hw : IsGap w) :
      IsGap ('%' :: (comment ++ '\n' :: w))
  | block {comment w : List Char} (hc : ¬ ['*', '/'] <:+: comment) (hw : IsGap w) :
      IsGap ('/' :: '*' :: (comment ++ '*' :: '/' :: w))

namespace Lexeme

/-- What is left of a gap inside a comment, or outside any. -/
def GapFrom : Gap → List Char → Prop
  | .plain, w => IsGap w
  | .line, w => ∃ comment rest, w = comment ++ '\n' :: rest ∧ '\n' ∉ comment ∧ IsGap rest
  | .block _, w =>
    ∃ comment rest, w = comment ++ '*' :: '/' :: rest ∧ ¬ ['*', '/'] <:+: comment ∧ IsGap rest

/-- A gap that text follows is complete. -/
theorem gapFrom_of_gap {g : Gap} {passed n : Nat} {w : List Char} (h : gap g passed w = .ok n) :
    ∃ m, n = passed + m ∧ m ≤ w.length ∧ (m < w.length → GapFrom g (w.take m)) := by
  fun_induction gap g passed w with
  | case1 => cases h
  | case2 passed | case3 passed =>
    obtain rfl := Except.ok.inj h
    exact ⟨0, rfl, Nat.le_refl _, fun hlt => absurd hlt (Nat.lt_irrefl _)⟩
  | case4 passed c w ih =>
    obtain ⟨m, rfl, hle, hgap⟩ := ih h
    refine ⟨m + 1, by omega, Nat.succ_le_succ hle, fun hlt => ?_⟩
    have hgap := hgap (Nat.lt_of_succ_lt_succ hlt)
    rw [List.take_succ_cons]
    by_cases hc : c = '\n'
    · subst hc
      exact ⟨[], w.take m, rfl, by simp, hgap⟩
    · simp only [beq_iff_eq, hc, if_false] at hgap
      obtain ⟨comment, rest, hw, hcomment, hrest⟩ := hgap
      exact ⟨c :: comment, rest, by rw [hw, List.cons_append],
        by simp [hcomment, Ne.symm hc], hrest⟩
  | case5 opened passed w ih =>
    obtain ⟨m, rfl, hle, hgap⟩ := ih h
    refine ⟨m + 2, by omega, by simp only [List.length_cons]; omega, fun hlt => ?_⟩
    simp only [List.length_cons] at hlt
    exact ⟨[], w.take m, rfl, by simp, hgap (by omega)⟩
  | case6 opened passed c w hend ih =>
    obtain ⟨m, rfl, hle, hgap⟩ := ih h
    refine ⟨m + 1, by omega, Nat.succ_le_succ hle, fun hlt => ?_⟩
    obtain ⟨comment, rest, hw, hcomment, hrest⟩ := hgap (Nat.lt_of_succ_lt_succ hlt)
    refine ⟨c :: comment, rest, by rw [List.take_succ_cons, hw, List.cons_append], ?_, hrest⟩
    rw [List.infix_cons_iff, not_or]
    refine ⟨?_, hcomment⟩
    -- The comment ends at the first mark for its end.
    rintro ⟨more, hmore⟩
    obtain ⟨rfl, rfl⟩ := List.cons.inj hmore
    have hback := List.take_append_drop m w
    rw [hw] at hback
    exact hend _ rfl hback.symm
  | case7 passed w ih =>
    obtain ⟨m, rfl, hle, hgap⟩ := ih h
    refine ⟨m + 2, by omega, by simp only [List.length_cons]; omega, fun hlt => ?_⟩
    simp only [List.length_cons] at hlt
    obtain ⟨comment, rest, hw, hcomment, hrest⟩ := hgap (by omega)
    rw [List.take_succ_cons, List.take_succ_cons, hw]
    exact .block hcomment hrest
  | case8 passed c w hopen hb ih =>
    obtain ⟨m, rfl, hle, hgap⟩ := ih h
    refine ⟨m + 1, by omega, Nat.succ_le_succ hle, fun hlt => ?_⟩
    rw [List.take_succ_cons]
    exact .blank hb (hgap (Nat.lt_of_succ_lt_succ hlt))
  | case9 passed c w hopen hb hp ih =>
    obtain ⟨m, rfl, hle, hgap⟩ := ih h
    refine ⟨m + 1, by omega, Nat.succ_le_succ hle, fun hlt => ?_⟩
    obtain ⟨comment, rest, hw, hcomment, hrest⟩ := hgap (Nat.lt_of_succ_lt_succ hlt)
    rw [List.take_succ_cons, hw, beq_iff_eq.1 hp]
    exact .line hcomment hrest
  | case10 passed c w hopen hb hp =>
    obtain rfl := Except.ok.inj h
    exact ⟨0, rfl, Nat.zero_le _, fun _ => .nil⟩

section

variable {comment : List Char} (rest : List Char)

theorem gap_percent (passed : Nat) : gap .plain passed ('%' :: rest) = gap .line (passed + 1) rest := by
  have hblank : ¬ Text.isBlank '%' = true := by
    rw [Text.isBlank_eq]
    decide
  rw [gap, if_neg hblank]
  · rfl
  · exact fun _ h _ => absurd h (by decide)

theorem gap_line (h : '\n' ∉ comment) (passed : Nat) :
    gap .line passed (comment ++ '\n' :: rest) = gap .plain (passed + comment.length + 1) rest := by
  induction comment generalizing passed with
  | nil => rfl
  | cons c comment ih =>
    rw [List.mem_cons, not_or] at h
    have hc : (c == '\n') = false := beq_eq_false_iff_ne.2 (Ne.symm h.1)
    rw [List.cons_append, gap, hc, add_length_cons]
    exact ih h.2 (passed + 1)

theorem gap_lastLine (h : '\n' ∉ comment) (passed : Nat) :
    gap .line passed comment = .ok (passed + comment.length) := by
  induction comment generalizing passed with
  | nil => rfl
  | cons c comment ih =>
    rw [List.mem_cons, not_or] at h
    have hc : (c == '\n') = false := beq_eq_false_iff_ne.2 (Ne.symm h.1)
    rw [gap, hc, add_length_cons]
    exact ih h.2 (passed + 1)

theorem gap_block (h : ¬ ['*', '/'] <:+: comment) (opened passed : Nat) :
    gap (.block opened) passed (comment ++ '*' :: '/' :: rest) =
      gap .plain (passed + comment.length + 2) rest := by
  induction comment generalizing passed with
  | nil => rfl
  | cons c comment ih =>
    rw [List.infix_cons_iff, not_or] at h
    -- A mark for the end that began here would be in the comment, or its `/` would be the `*` behind it.
    have hend : ∀ w, c = '*' → comment ++ '*' :: '/' :: rest ≠ '/' :: w := by
      rintro w rfl he
      cases comment with
      | nil => exact absurd (List.cons.inj he).1 (by decide)
      | cons d comment =>
        obtain rfl : d = '/' := (List.cons.inj he).1
        exact h.1 (List.prefix_append ['*', '/'] comment)
    rw [List.cons_append, gap, add_length_cons]
    · exact ih h.2 (passed + 1)
    · exact hend

end

end Lexeme

/-- A gap is taken as a whole, whatever follows it. -/
theorem IsGap.gap_append {w : List Char} (h : IsGap w) (passed : Nat) (rest : List Char) :
    Lexeme.gap .plain passed (w ++ rest) = Lexeme.gap .plain (passed + w.length) rest := by
  induction h generalizing passed with
  | nil => rfl
  | @blank c w hc _ ih =>
    have hslash : c ≠ '/' := by
      rintro rfl
      exact absurd hc (by rw [Text.isBlank_eq]; decide)
    rw [List.cons_append, Lexeme.gap, if_pos hc, Lexeme.add_length_cons]
    · exact ih (passed + 1)
    · exact fun _ h _ => hslash h
  | @line comment w hc _ ih =>
    have hrest := ih (passed + 1 + comment.length + 1)
    have hlength : passed + ('%' :: (comment ++ '\n' :: w)).length =
        passed + 1 + comment.length + 1 + w.length := by
      simp
      omega
    rw [hlength, ← hrest, ← Lexeme.gap_line (w ++ rest) hc, ← Lexeme.gap_percent]
    simp
  | @block comment w hc _ ih =>
    have hrest := ih (passed + 2 + comment.length + 2)
    have hlength : passed + ('/' :: '*' :: (comment ++ '*' :: '/' :: w)).length =
        passed + 2 + comment.length + 2 + w.length := by
      simp
      omega
    rw [hlength, ← hrest, ← Lexeme.gap_block (w ++ rest) hc passed]
    simp [Lexeme.gap]

/-- A text is taken as a whole exactly if it is a gap, but for the line break that a comment at its end
may lack. -/
theorem Lexeme.gap_eq_length_iff {w : List Char} :
    Lexeme.gap .plain 0 w = .ok w.length ↔ IsGap (w ++ ['\n']) := by
  constructor
  · intro h
    -- Behind a line break the gap ends in front of a letter, so what it takes is complete.
    rcases Lexeme.gap_append_newline h ['a'] with ⟨hlt, -⟩ | ⟨-, happ⟩
    · omega
    have hstops : Lexeme.gap .plain (0 + w.length + 1) ['a'] = .ok (0 + w.length + 1) := by
      rw [Lexeme.gap, if_neg (by rw [Text.isBlank_eq]; decide)]
      · rfl
      · exact fun _ hc _ => absurd hc (by decide)
    obtain ⟨m, hm, -, hgap⟩ := Lexeme.gapFrom_of_gap (happ.trans hstops)
    have htake : (w ++ ['\n', 'a']).take m = w ++ ['\n'] := by
      rw [show m = w.length + 1 by omega, List.take_append, List.take_of_length_le (Nat.le_succ _),
        Nat.add_sub_cancel_left]
      rfl
    have hgap : IsGap ((w ++ ['\n', 'a']).take m) := hgap (by simp; omega)
    rwa [htake] at hgap
  · intro h
    have hall := h.gap_append 0 []
    rw [List.append_nil, Lexeme.gap, List.length_append] at hall
    rcases Lexeme.gap_append_break Lexeme.isBreak_newline .plain 0 w [] with
      ⟨n, hn, -, happ⟩ | ⟨g, hw, happ⟩
    · have := Except.ok.inj (happ.symm.trans hall)
      simp at this
      omega
    · rw [hw, Nat.zero_add]
      cases g with
      | plain | line => rfl
      | block opened =>
        rw [hall] at happ
        cases happ

/-- The line that a text ends in begins at that byte. -/
def LineStart (front : List Char) (n : Nat) : Prop :=
  ∃ before last, front = before ++ last ∧ '\n' ∉ last ∧
    (before = [] ∨ ∃ w, before = w ++ ['\n']) ∧ n = String.utf8Len before

/-- The span is that of `lexeme` behind `front`. -/
structure Span.Covers (s : Span) (source : String) (front lexeme : List Char) : Prop where
  source : s.source = source
  start : s.start = String.utf8Len front
  stop : s.stop = String.utf8Len (front ++ lexeme)
  line : s.line = 1 + front.count '\n'
  lineStart : LineStart front s.lineStart

namespace Cursor

variable {k : Cursor} {front : List Char}

/-- The cursor stands behind that part of a text. -/
structure Behind (k : Cursor) (front : List Char) : Prop where
  offset : k.offset = String.utf8Len front
  line : k.line = 1 + front.count '\n'
  lineStart : LineStart front k.lineStart

theorem behind_initial (source text : String) : (initial source text).Behind [] :=
  ⟨rfl, rfl, [], [], rfl, by simp, .inl rfl, rfl⟩

@[simp] theorem source_step (k : Cursor) : k.step.source = k.source := by
  unfold step
  split
  · rfl
  · split_ifs <;> rfl

@[simp] theorem source_advance (k : Cursor) (n : Nat) : (k.advance n).source = k.source := by
  induction n generalizing k with
  | zero => rfl
  | succ n ih => rw [advance, ih, source_step]

theorem offset_advance (k : Cursor) (n : Nat) :
    (k.advance n).offset = k.offset + String.utf8Len (k.rest.take n) := by
  induction n generalizing k with
  | zero => simp [advance]
  | succ n ih =>
    cases hk : k.rest with
    | nil =>
      have hstep : k.step = k := by rw [step, hk]
      rw [advance, hstep, ih, hk, List.take_nil, List.take_nil]
    | cons c rest =>
      have hstep : k.step.offset = k.offset + c.utf8Size := by
        rw [step, hk]
        dsimp only
        split_ifs <;> rfl
      rw [advance, ih, hstep, rest_step, hk, List.tail_cons, List.take_succ_cons, String.utf8Len_cons]
      omega

theorem Behind.step (h : k.Behind front) {c : Char} {rest : List Char} (hk : k.rest = c :: rest) :
    k.step.Behind (front ++ [c]) := by
  have hsize : String.utf8Len (front ++ [c]) = String.utf8Len front + c.utf8Size := by
    simp
  by_cases hc : c = '\n'
  · have hstep : k.step = ⟨k.source, rest, k.offset + c.utf8Size, k.line + 1,
        k.offset + c.utf8Size⟩ := by
      rw [Cursor.step, hk]
      exact if_pos hc
    rw [hstep]
    refine ⟨by rw [hsize, h.offset], ?_, front ++ [c], [], by simp, by simp, ?_, ?_⟩
    · rw [List.count_append, hc, h.line]
      rfl
    · exact .inr ⟨front, by rw [hc]⟩
    · rw [hsize, h.offset]
  · have hstep : k.step = ⟨k.source, rest, k.offset + c.utf8Size, k.line, k.lineStart⟩ := by
      rw [Cursor.step, hk]
      exact if_neg hc
    obtain ⟨before, last, hfront, hlast, hbefore, hstart⟩ := h.lineStart
    rw [hstep]
    refine ⟨by rw [hsize, h.offset], ?_, before, last ++ [c], ?_, ?_, hbefore, hstart⟩
    · rw [List.count_append, h.line, List.count_singleton]
      simp [hc]
    · rw [hfront, List.append_assoc]
    · simp [hlast, Ne.symm hc]

theorem Behind.advance (h : k.Behind front) {n : Nat} (hn : n ≤ k.rest.length) :
    (k.advance n).Behind (front ++ k.rest.take n) := by
  induction n generalizing k front with
  | zero => simpa [Cursor.advance] using h
  | succ n ih =>
    cases hk : k.rest with
    | nil => simp [hk] at hn
    | cons c rest =>
      have hrest : k.step.rest = rest := by rw [rest_step, hk, List.tail_cons]
      rw [hk, List.length_cons] at hn
      have hnext := ih (h.step hk) (by rw [hrest]; omega)
      rw [hrest, List.append_assoc] at hnext
      exact hnext

theorem Behind.spanTo (h : k.Behind front) {n : Nat} (hn : n ≤ k.rest.length) :
    (k.spanTo (k.advance n)).Covers k.source front (k.rest.take n) :=
  ⟨rfl, h.offset, (h.advance hn).offset, h.line, h.lineStart⟩

end Cursor

/-- The span of a text that begins at the cursor. -/
def Cursor.spanOver (k : Cursor) (text : List Char) : Span :=
  ⟨k.source, k.offset, k.offset + String.utf8Len text, k.line, k.lineStart⟩

/-- The next item of a text that begins with a token is that token, and the rest of the text is left. -/
theorem Begins.next {text : List Char} {kind : TokenKind} {length : Nat} (h : Begins text kind length)
    {k : Cursor} (hk : k.rest = text) :
    k.next.1 = .token ⟨kind, k.spanOver (text.take length)⟩ ∧ k.next.2.rest = text.drop length := by
  have hnext : k.next = k.take kind length := by
    rw [Cursor.next, hk, h.1]
    exact h.2 k hk
  rw [hnext, ← hk, Cursor.take, Cursor.spanTo, Cursor.offset_advance, Cursor.rest_advance]
  exact ⟨rfl, rfl⟩

/-- Tokens that cover a text from its front, which stands behind `front`, with gaps between them. -/
inductive Tiles (source : String) : (front : List Char) → List Token → (text : List Char) → Prop
  | nil (front text : List Char) : Tiles source front [] text
  | cons {front gap lexeme text : List Char} {t : Token} {tokens : List Token} (hgap : IsGap gap)
      (hne : lexeme ≠ []) (hspan : t.span.Covers source (front ++ gap) lexeme)
      (hwritten : ∀ name ∈ t.kind.written?, name = String.ofList lexeme)
      (hrest : Tiles source (front ++ gap ++ lexeme) tokens text) :
      Tiles source front (t :: tokens) (gap ++ lexeme ++ text)

namespace Cursor

/-- One call after another yields these tokens, and none of them is the end of the input. -/
def Yields (k : Cursor) : List Token → Prop
  | [] => True
  | t :: tokens => k.next.1 = .token t ∧ t.kind ≠ .endOfInput ∧ k.next.2.Yields tokens

def decidableYields (k : Cursor) : (tokens : List Token) → Decidable (k.Yields tokens)
  | [] => isTrue trivial
  | t :: tokens =>
    have := k.next.2.decidableYields tokens
    inferInstanceAs (Decidable (k.next.1 = .token t ∧ t.kind ≠ .endOfInput ∧ _))

instance (k : Cursor) (tokens : List Token) : Decidable (k.Yields tokens) :=
  k.decidableYields tokens

/-- The cursor behind `n` items. -/
def past (k : Cursor) : Nat → Cursor
  | 0 => k
  | n + 1 => k.next.2.past n

variable {k : Cursor} {front : List Char}

/-- A token is a gap and a lexeme. -/
theorem next_lexeme {t : Token} (h : k.next.1 = .token t) (ht : t.kind ≠ .endOfInput) :
    ∃ m n, 0 < n ∧ m + n ≤ k.rest.length ∧ IsGap (k.rest.take m) ∧
      k.next = (k.advance m).take t.kind n ∧
      ∀ name ∈ t.kind.written?, name = String.ofList ((k.rest.drop m).take n) := by
  have hkind : k.next.1.kind? = some t.kind := by rw [h]; rfl
  obtain ⟨m, hg, hnext⟩ := next_of_kind? hkind
  have hitem : (k.advance m).item = (.token t, k.next.2) := by rw [← hnext, ← h]
  have hne : (k.advance m).rest ≠ [] := by
    intro hnil
    rw [item, hnil] at hitem
    exact ht (congrArg Token.kind (Item.token.inj (Prod.mk.inj hitem).1)).symm
  obtain ⟨n, hpos, hle, htake, -, hwritten⟩ := item_lexeme hitem hne
  obtain ⟨m', rfl, -, hgap⟩ := Lexeme.gapFrom_of_gap hg
  rw [Nat.zero_add] at hle hitem htake hwritten
  rw [rest_advance, List.length_drop] at hle
  rw [rest_advance] at hwritten
  refine ⟨m', n, hpos, by omega, hgap (by omega), ?_, hwritten⟩
  rw [← htake, ← h]

theorem tiles_of_yields {tokens : List Token} (hk : k.Behind front) (h : k.Yields tokens) :
    Tiles k.source front tokens k.rest := by
  induction tokens generalizing k front with
  | nil => exact .nil front k.rest
  | cons t tokens ih =>
    obtain ⟨htoken, ht, hrest⟩ := h
    obtain ⟨m, n, hpos, hle, hgap, htake, hwritten⟩ := next_lexeme htoken ht
    have hm := hk.advance (n := m) (by omega)
    have hlen : n ≤ (k.advance m).rest.length := by
      rw [rest_advance, List.length_drop]
      omega
    have hspan : t.span = (k.advance m).spanTo ((k.advance m).advance n) := by
      rw [htake] at htoken
      exact congrArg Token.span (Item.token.inj htoken).symm
    have hcovers := hm.spanTo hlen
    rw [← hspan, rest_advance, source_advance] at hcovers
    have hafter := hm.advance hlen
    rw [rest_advance] at hafter
    rw [htake] at hrest
    have htail := ih hafter hrest
    simp only [source_advance, rest_advance] at htail
    have htext : k.rest = k.rest.take m ++ (k.rest.drop m).take n ++ (k.rest.drop m).drop n := by
      rw [List.append_assoc, List.take_append_drop, List.take_append_drop]
    rw [htext]
    refine .cons hgap ?_ hcovers hwritten htail
    rw [Ne, ← List.length_eq_zero_iff, List.length_take, List.length_drop]
    omega

end Cursor

namespace Tiles

variable {source : String} {front text : List Char} {tokens : List Token}

/-- Every token covers a part of the text that is not empty. -/
theorem covers (h : Tiles source front tokens text) {t : Token} (ht : t ∈ tokens) :
    ∃ more lexeme rest, text = more ++ lexeme ++ rest ∧ lexeme ≠ [] ∧
      t.span.Covers source (front ++ more) lexeme ∧
      ∀ name ∈ t.kind.written?, name = String.ofList lexeme := by
  induction h with
  | nil => cases ht
  | @cons front gap lexeme text t' tokens hgap hne hspan hwritten hrest ih =>
    rcases List.mem_cons.1 ht with rfl | ht
    · exact ⟨gap, lexeme, text, rfl, hne, hspan, hwritten⟩
    · obtain ⟨more, lexeme', rest, rfl, hne', hspan', hwritten'⟩ := ih ht
      refine ⟨gap ++ lexeme ++ more, lexeme', rest, by simp, hne', ?_, hwritten'⟩
      simpa using hspan'

theorem stop_le_start (h : Tiles source front tokens text) :
    tokens.Pairwise fun a b => a.span.stop ≤ b.span.start := by
  induction h with
  | nil => exact .nil
  | @cons front gap lexeme text t tokens hgap hne hspan hwritten hrest ih =>
    refine List.pairwise_cons.2 ⟨fun b hb => ?_, ih⟩
    obtain ⟨more, lexeme', rest, -, -, hspan', -⟩ := hrest.covers hb
    rw [hspan.stop, hspan'.start]
    exact (String.utf8Len_append _ more).symm ▸ Nat.le_add_right _ _

theorem length_le (h : Tiles source front tokens text) : tokens.length ≤ String.utf8Len text := by
  induction h with
  | nil => exact Nat.zero_le _
  | @cons front gap lexeme text t tokens hgap hne hspan hwritten hrest ih =>
    have hpos : String.utf8Len lexeme ≠ 0 := mt String.utf8Len_eq_zero.1 hne
    simp only [List.length_cons, String.utf8Len_append]
    omega

/-- A span is made of places in the text, and cuts out of it what the token shows. -/
theorem extract {whole : String} (h : Tiles source [] tokens whole.toList) {t : Token}
    (ht : t ∈ tokens) :
    t.span.start < t.span.stop ∧
      String.Pos.Raw.IsValid whole ⟨t.span.start⟩ ∧ String.Pos.Raw.IsValid whole ⟨t.span.stop⟩ ∧
      ∀ name ∈ t.kind.written?,
        String.Pos.Raw.extract whole ⟨t.span.start⟩ ⟨t.span.stop⟩ = name := by
  obtain ⟨more, lexeme, rest, htext, hne, hspan, hwritten⟩ := h.covers ht
  have hpos : String.utf8Len lexeme ≠ 0 := mt String.utf8Len_eq_zero.1 hne
  have hwhole : whole = String.ofList (more ++ lexeme ++ rest) := by
    rw [← htext, String.ofList_toList]
  have hsize := String.utf8Len_append more lexeme
  have hstart := hspan.start
  have hstop := hspan.stop
  rw [List.nil_append] at hstart hstop
  refine ⟨by omega, ?_, ?_, fun name hname => ?_⟩
  · refine String.Pos.Raw.isValid_iff_exists_append.2
      ⟨String.ofList more, String.ofList (lexeme ++ rest), ?_, ?_⟩
    · rw [hwhole, ← String.ofList_append, List.append_assoc]
    · simp [String.rawEndPos, hstart, String.utf8ByteSize_ofList]
  · refine String.Pos.Raw.isValid_iff_exists_append.2
      ⟨String.ofList (more ++ lexeme), String.ofList rest, ?_, ?_⟩
    · rw [hwhole, ← String.ofList_append]
    · simp [String.rawEndPos, hstop, String.utf8ByteSize_ofList]
  · rw [hwhole, hstart, hstop, hsize, String.extract_of_valid, ← hwritten name hname]

end Tiles

namespace Cursor

variable {k : Cursor}

theorem next_next_of_end (h : k.next.1.kind? = some .endOfInput) : k.next.2.next = k.next := by
  obtain ⟨n, -, hnil, hnext⟩ := gap_of_end h
  rw [hnext]
  exact next_of_nil hnil

/-- The end of the input is given exactly where nothing but a gap is left. -/
theorem kind?_next_eq_endOfInput_iff : k.next.1.kind? = some .endOfInput ↔ IsGap (k.rest ++ ['\n']) := by
  rw [← Lexeme.gap_eq_length_iff]
  constructor
  · intro h
    obtain ⟨n, hg, hnil, -⟩ := gap_of_end h
    obtain ⟨m, rfl, hm, -⟩ := Lexeme.gapFrom_of_gap hg
    rw [rest_advance, List.drop_eq_nil_iff] at hnil
    rw [hg]
    exact congrArg Except.ok (by omega)
  · intro hg
    rw [next_of_gap hg, item, rest_advance, List.drop_length]
    rfl

/-- Once the input has ended, every call says so again. -/
theorem next_past_of_end (h : k.next.1.kind? = some .endOfInput) (n : Nat) :
    (k.past n).next = k.next := by
  induction n generalizing k with
  | zero => rfl
  | succ n ih =>
    have hagain := next_next_of_end h
    rw [past, ih (by rw [hagain]; exact h), hagain]

theorem past_add (k : Cursor) (m n : Nat) : k.past (m + n) = (k.past m).past n := by
  induction m generalizing k with
  | zero => rw [Nat.zero_add, past]
  | succ m ih => rw [Nat.succ_add, past, past, ih]

/-- The items of a text are what one call after another gives. -/
theorem get_scan (k : Cursor) (n : Nat) : k.scan.get n = (k.past n).next.1 := by
  induction k using moving_induction generalizing n with
  | step k ih =>
    by_cases hmoved : k.next.2.rest.length < k.rest.length
    · rw [scan_of_moved hmoved]
      cases n with
      | zero => rfl
      | succ n => exact ih hmoved n
    · have hpast : ∀ n, k.past n = k := by
        intro n
        induction n with
        | zero => rfl
        | succ n ih => rw [past, next_snd_of_still hmoved, ih]
      rw [scan_of_still hmoved, hpast]
      rfl

end Cursor

theorem Scan.get_ofText (source text : String) (n : Nat) :
    (Scan.ofText source text).get n = ((Cursor.initial source text).past n).next.1 :=
  (Cursor.initial source text).get_scan n

/-- Tokens cover a text in order, and what lies between them is blanks and comments. Every span has
bytes of the text, begins and ends between characters, says its line and where that begins, and holds
the text that the token shows. There are no more tokens than bytes. The input ends exactly where
nothing but a gap is left, whose last line may lack its break, and once it has ended, it has for ever. -/
theorem tiles_of_text (source text : String) {tokens : List Token}
    (h : (Cursor.initial source text).Yields tokens) :
    Tiles source [] tokens text.toList ∧
      (tokens.Pairwise fun a b => a.span.stop ≤ b.span.start) ∧
      (∀ t ∈ tokens, t.span.start < t.span.stop ∧
        String.Pos.Raw.IsValid text ⟨t.span.start⟩ ∧ String.Pos.Raw.IsValid text ⟨t.span.stop⟩ ∧
        ∀ name ∈ t.kind.written?,
          String.Pos.Raw.extract text ⟨t.span.start⟩ ⟨t.span.stop⟩ = name) ∧
      tokens.length ≤ text.utf8ByteSize ∧
      (∀ n, ((Cursor.initial source text).past n).next.1.kind? = some .endOfInput ↔
        IsGap (((Cursor.initial source text).past n).rest ++ ['\n'])) ∧
      ∀ m n, m ≤ n →
        ((Cursor.initial source text).past m).next.1.kind? = some .endOfInput →
        ((Cursor.initial source text).past n).next.1 =
          ((Cursor.initial source text).past m).next.1 := by
  have htiles := Cursor.tiles_of_yields (Cursor.behind_initial source text) h
  refine ⟨htiles, htiles.stop_le_start, fun t ht => htiles.extract ht, ?_,
    fun n => Cursor.kind?_next_eq_endOfInput_iff, fun m n hmn hend => ?_⟩
  · rw [← String.utf8Len_toList]
    exact htiles.length_le
  · obtain ⟨d, rfl⟩ := Nat.exists_eq_add_of_le hmn
    rw [Cursor.past_add, Cursor.next_past_of_end hend]

/-- A comment with a character of two bytes, a name, a number, and a string over two lines. -/
def twoLines : String := "%é\nab 12\"c\nd\"."

def twoLinesTokens : List Token :=
  [⟨.ident "ab", ⟨"main", 4, 6, 2, 4⟩⟩, ⟨.int "12", ⟨"main", 7, 9, 2, 4⟩⟩,
    ⟨.string "c\nd", ⟨"main", 9, 14, 2, 4⟩⟩, ⟨.stop, ⟨"main", 14, 15, 3, 12⟩⟩]

theorem tiles_twoLines :
    (Cursor.initial "main" twoLines).Yields twoLinesTokens ∧
      Tiles "main" [] twoLinesTokens twoLines.toList ∧ twoLinesTokens.length ≤ twoLines.utf8ByteSize := by
  have h : (Cursor.initial "main" twoLines).Yields twoLinesTokens := by decide +kernel
  obtain ⟨htiles, -, -, hlength, -⟩ := tiles_of_text "main" twoLines h
  exact ⟨h, htiles, hlength⟩

end Clausal
