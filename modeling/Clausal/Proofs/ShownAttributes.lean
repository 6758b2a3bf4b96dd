import Clausal.Proofs.AttributedClauses
import Clausal.Proofs.Layout

/-!
# Attributes as they are shown

The text of an attribute is shown with the escapes of messages, of which the scanner knows four. So
attributes that are shown in front of a clause are read back if no character of their texts needs another
one, and else the clause is refused at the escape.
-/
namespace Clausal

/-- The items ahead are those of a text, of which a gap may still be in front. -/
def ParseState.StandsAt (s : ParseState) (text : List Char) : Prop :=
  ∃ (k : Cursor) (gap : List Char), IsGap gap ∧ k.rest = gap ++ text ∧ s.ahead = k.scan

theorem IsGap.snoc {w : List Char} (h : IsGap w) {c : Char} (hc : Text.isBlank c = true) :
    IsGap (w ++ [c]) := by
  induction h with
  | nil => exact .blank hc .nil
  | blank hb _ ih => exact .blank hb ih
  | line hcomment _ ih => simpa using IsGap.line hcomment ih
  | block hcomment _ ih => simpa using IsGap.block hcomment ih

namespace ParseState.StandsAt

variable {s : ParseState} {text : List Char}

theorem initial (v : Vocabulary) (seen : List Digest) (source text : String) :
    (ParseState.initial v seen source text).StandsAt text.toList :=
  ⟨.initial source text, [], .nil, rfl, rfl⟩

theorem blank (h : s.StandsAt (' ' :: text)) : s.StandsAt text := by
  obtain ⟨k, gap, hgap, hk, hahead⟩ := h
  exact ⟨k, gap ++ [' '], hgap.snoc Text.isBlank_space, by simpa using hk, hahead⟩

/-- The first item is that of the text, and if it takes any of the text, the others come behind it. -/
theorem item (h : s.StandsAt text) {n : Nat} (hg : Lexeme.gap .plain 0 text = .ok n) :
    ∃ k : Cursor, k.rest = text.drop n ∧ s.ahead.get 0 = k.item.1 ∧
      (k.item.2.rest.length < text.length →
        s.ahead = ⟨k.item.1 :: k.item.2.scan.items, k.item.2.scan.last⟩) := by
  obtain ⟨k, gap, hgap, hk, hahead⟩ := h
  have hskip : Lexeme.gap .plain 0 k.rest = .ok (gap.length + n) := by
    rw [hk, hgap.gap_append, Nat.zero_add, Lexeme.gap_add, hg]
  have hnext := Cursor.next_of_gap hskip
  refine ⟨k.advance (gap.length + n), ?_, ?_, fun hlt => ?_⟩
  · rw [Cursor.rest_advance, hk, ← List.drop_drop, List.drop_left]
  · rw [hahead, Cursor.get_zero_scan, hnext]
  · -- An item that takes some of the text leaves less than the gap and the text.
    have hmoved : k.next.2.rest.length < k.rest.length := by
      rw [hnext, hk, List.length_append]
      omega
    rw [hahead, Cursor.scan_of_moved hmoved, hnext]

theorem token (h : s.StandsAt text) {kind : TokenKind} {length : Nat} (hb : Begins text kind length)
    (hpos : 0 < length) (hle : length ≤ text.length) :
    ∃ t, s.ahead.get 0 = .token t ∧ t.kind = kind ∧ (s.read t).StandsAt (text.drop length) ∧
      (s.read t).ahead.items.length < s.ahead.items.length := by
  obtain ⟨k, hk, hget, hbehind⟩ := h.item hb.1
  rw [List.drop_zero] at hk
  rw [hb.2 k hk] at hget hbehind
  have hafter : (k.take kind length).2.rest = text.drop length := by
    rw [Cursor.take, Cursor.rest_advance, hk]
  have hahead := hbehind (by rw [hafter, List.length_drop]; omega)
  refine ⟨⟨kind, k.spanTo (k.advance length)⟩, hget, rfl, ⟨_, [], .nil, hafter, ?_⟩, ?_⟩
  · rw [ParseState.read, hahead]
    rfl
  · rw [ParseState.read, hahead]
    exact Nat.lt_succ_self _

/-- The items of a text that begins with a token do not depend on where it stands. -/
theorem ahead_matches (h : s.StandsAt text) {k : Cursor} (hk : k.rest = text) {t : Token}
    (ht : k.next.1 = .token t) (hgoes : t.kind ≠ .endOfInput) : s.ahead.Matches Anywhere k.scan := by
  have hkind : k.next.1.kind? = some t.kind := by rw [ht]; rfl
  obtain ⟨n, hg, hnext⟩ := Cursor.next_of_kind? hkind
  have hmoved : k.next.2.rest.length < k.rest.length :=
    (Cursor.next_of_token (Prod.ext ht rfl) hgoes []).2
  rw [hk] at hg
  obtain ⟨k₀, hk₀, -, hbehind⟩ := h.item hg
  have hrest : k₀.rest = (k.advance n).rest := by rw [hk₀, Cursor.rest_advance, hk]
  obtain ⟨hitem, hafter⟩ := Cursor.item_matches hrest
  rw [← hnext] at hitem hafter
  obtain ⟨hitems, hlast⟩ := Cursor.scan_matches hafter
  rw [hbehind (by rwa [hafter, ← hk]), Cursor.scan_of_moved hmoved]
  exact ⟨.cons hitem hitems, hlast⟩

end ParseState.StandsAt

namespace Parse

/-- The step reads a value off the front of a text and leaves the rest. -/
def Takes {α : Type} (p : Parse α) (text : List Char) (a : α) (rest : List Char) : Prop :=
  ∀ s, s.StandsAt text → ∃ s', p s = (.ok a, s') ∧ s'.StandsAt rest ∧ s'.moment = s.moment ∧
    s'.ahead.items.length ≤ s.ahead.items.length

/-- The step meets an escape that the scanner does not know. -/
def MeetsEscape {α : Type} (p : Parse α) (text : List Char) : Prop :=
  ∀ s, s.StandsAt text → ∃ span e s', e ∈ ['0', 'r', 'u'] ∧
    p s = (.error (.grammar span (.scan (.unknownEscape e))), s') ∧ s'.moment = s.moment

section

variable {α β : Type} {p : Parse α} {f : α → Parse β} {a : α} {b : β} {kind : TokenKind}
variable {text rest more : List Char} {length : Nat}

namespace Takes

theorem pure : Takes (Pure.pure a) text a text := fun s hs => ⟨s, rfl, hs, rfl, Nat.le_refl _⟩

theorem bind (hp : Takes p text a rest) (hf : Takes (f a) rest b more) : Takes (p >>= f) text b more := by
  intro s hs
  obtain ⟨s₁, hrun, hs₁, hm, hle⟩ := hp s hs
  obtain ⟨s₂, hrun', hs₂, hm', hle'⟩ := hf s₁ hs₁
  exact ⟨s₂, (Pairing.bind_of_ok hrun).trans hrun', hs₂, hm'.trans hm, Nat.le_trans hle' hle⟩

theorem behind_blank (h : Takes p text a rest) : Takes p (' ' :: text) a rest := fun s hs => h s hs.blank

end Takes

section

variable (hb : Begins text kind length) (hpos : 0 < length) (hle : length ≤ text.length)
include hb hpos hle

theorem takes_next {f : Token → Parse β} (hf : ∀ t, t.kind = kind → Takes (f t) (text.drop length) b rest) :
    Takes (next >>= f) text b rest := by
  intro s hs
  obtain ⟨t, hget, ht, hs₁, hlt⟩ := hs.token hb hpos hle
  obtain ⟨s₂, hrun, hs₂, hm, hle'⟩ := hf t ht (s.read t) hs₁
  exact ⟨s₂, (Pairing.bind_of_ok (next_of_token hget)).trans hrun, hs₂, hm, by omega⟩

theorem takes_expect {f : Token → Parse β}
    (hf : ∀ t, Takes (f t) (text.drop length) b rest) : Takes (expect kind >>= f) text b rest := by
  intro s hs
  obtain ⟨t, hget, ht, hs₁, hlt⟩ := hs.token hb hpos hle
  obtain ⟨s₂, hrun, hs₂, hm, hle'⟩ := hf t (s.read t) hs₁
  exact ⟨s₂, (Pairing.bind_of_ok (expect_of_token hget ht)).trans hrun, hs₂, hm, by omega⟩

theorem meetsEscape_next {f : Token → Parse β}
    (hf : ∀ t, t.kind = kind → MeetsEscape (f t) (text.drop length)) : MeetsEscape (next >>= f) text := by
  intro s hs
  obtain ⟨t, hget, ht, hs₁, -⟩ := hs.token hb hpos hle
  obtain ⟨span, e, s₂, he, hrun, hm⟩ := hf t ht (s.read t) hs₁
  exact ⟨span, e, s₂, he, (Pairing.bind_of_ok (next_of_token hget)).trans hrun, hm⟩

end

theorem MeetsEscape.bind (h : MeetsEscape p text) : MeetsEscape (p >>= f) text := by
  intro s hs
  obtain ⟨span, e, s', he, hrun, hm⟩ := h s hs
  exact ⟨span, e, s', he, Pairing.bind_of_error hrun, hm⟩

theorem MeetsEscape.behind_blank (h : MeetsEscape p text) : MeetsEscape p (' ' :: text) :=
  fun s hs => h s hs.blank

theorem peek_of_fault {s : ParseState} {e : ScanError} (h : s.ahead.get 0 = .fault e) :
    ∃ s', peek s = (.error (.grammar e.span (.scan e.fault)), s') ∧ s'.moment = s.moment := by
  obtain ⟨v, seen, ⟨items, last⟩, span⟩ := s
  cases items with
  | nil =>
    obtain rfl : last = .fault e := h
    exact ⟨_, rfl, rfl⟩
  | cons i rest =>
    obtain rfl : i = .fault e := h
    exact ⟨_, rfl, rfl⟩

end

end Parse

/-- A character whose escape in a message, if it has one, is one that the scanner knows. -/
def Text.isLegible (c : Char) : Bool :=
  c == '\n' || c == '\t' || isPrintable c && !isExtending c

theorem Text.escape_of_isLegible {c : Char} (h : isLegible c = true) :
    escape '"' c = Literal.escapeChar c := by
  simp only [isLegible, Bool.or_eq_true, beq_iff_eq, Bool.and_eq_true, Bool.not_eq_true'] at h
  rcases h with (rfl | rfl) | ⟨hprint, hextend⟩
  · decide
  · decide
  have hzero : c ≠ '\x00' := by rintro rfl; exact absurd hprint (by decide)
  have hreturn : c ≠ '\r' := by rintro rfl; exact absurd hprint (by decide)
  have htab : c ≠ '\t' := by rintro rfl; exact absurd hprint (by decide)
  have hline : c ≠ '\n' := by rintro rfl; exact absurd hprint (by decide)
  unfold escape Literal.escapeChar
  rw [if_neg hzero, if_neg htab, if_neg hreturn, if_neg hline]
  by_cases hback : c = '\\'
  · subst hback
    rfl
  by_cases hquote : c = '"'
  · subst hquote
    rfl
  rw [if_neg (by simp [hback, hquote]), if_neg (by simp [hprint, hextend])]
  split <;> simp_all

/-- Of all other escapes the scanner knows none. -/
theorem Text.escape_of_not_isLegible {c : Char} (h : isLegible c = false) :
    ∃ e tail, escape '"' c = '\\' :: e :: tail ∧ e ∈ ['0', 'r', 'u'] := by
  simp only [isLegible, Bool.or_eq_false_iff, beq_eq_false_iff_ne] at h
  obtain ⟨⟨hline, htab⟩, hshown⟩ := h
  unfold escape
  rw [if_neg htab, if_neg hline]
  by_cases hzero : c = '\x00'
  · exact ⟨'0', [], if_pos hzero, by simp⟩
  by_cases hreturn : c = '\r'
  · exact ⟨'r', [], by rw [if_neg hzero, if_pos hreturn], by simp⟩
  have hplain : ¬ (c = '\\' ∨ c = '"') := by
    rintro (rfl | rfl) <;> exact absurd hshown (by decide)
  have hhidden : isExtending c = true ∨ ¬ isPrintable c = true := by
    cases hp : isPrintable c <;> cases he : isExtending c <;> simp_all
  rw [if_neg hzero, if_neg hreturn, if_neg hplain, if_pos hhidden]
  exact ⟨'u', _, rfl, by simp⟩

/-- All characters of the text are legible. -/
def Text.Legible (text : String) : Prop := ∀ c ∈ text.toList, isLegible c = true

instance (text : String) : Decidable (Text.Legible text) := List.decidableBAll _ _

theorem Text.quoted_of_legible {text : String} (h : Legible text) :
    quoted text = Literal.renderString text := by
  have hescape : text.toList.flatMap (escape '"') = text.toList.flatMap Literal.escapeChar :=
    List.flatMap_congr fun c hc => escape_of_isLegible (h c hc)
  rw [quoted, quotedWith, Literal.renderString, hescape]

/-- The scanner refuses a text at the first character that is not legible. -/
theorem Lexeme.stringBody_of_not_legible {text : List Char} (h : ∃ c ∈ text, Text.isLegible c = false)
    (more : List Char) :
    ∃ e length, e ∈ ['0', 'r', 'u'] ∧
      stringBody (text.flatMap (Text.escape '"') ++ more) = .unknownEscape e length := by
  induction text with
  | nil => simp at h
  | cons c text ih =>
    -- A legible character is taken, and the one sought is behind it.
    rw [List.flatMap_cons, List.append_assoc]
    cases hc : Text.isLegible c with
    | true =>
      obtain ⟨d, hd, hnot⟩ := h
      rcases List.mem_cons.1 hd with rfl | hd
      · rw [hc] at hnot
        cases hnot
      obtain ⟨e, length, he, hbody⟩ := ih ⟨d, hd, hnot⟩
      rw [Text.escape_of_isLegible hc, stringBody_escapeChar, hbody]
      exact ⟨e, _, he, rfl⟩
    | false =>
      obtain ⟨e, tail, hescape, he⟩ := Text.escape_of_not_isLegible hc
      have hunknown : ∀ e ∈ ['0', 'r', 'u'], unescape e = none := forall_mem_of_all (by decide)
      rw [hescape]
      refine ⟨e, 2, he, ?_⟩
      rw [List.cons_append, List.cons_append, stringBody]
      rw [hunknown e he]

theorem Text.toList_space_quoted (text : String) (more : List Char) :
    (" " ++ quoted text).toList ++ more = ' ' :: ((quoted text).toList ++ more) := by
  have hspace : " ".toList = [' '] := rfl
  rw [String.toList_append, List.append_assoc, hspace, List.singleton_append]

namespace Parse

theorem takes_string {text : String} (h : Text.Legible text) (more : List Char) :
    Takes string ((Text.quoted text).toList ++ more) text more := by
  have hbegins := begins_string text more
  rw [← Text.quoted_of_legible h] at hbegins
  have hrest : ((Text.quoted text).toList ++ more).drop (Text.quoted text).toList.length = more :=
    List.drop_left
  refine takes_next hbegins (by simp [Text.quoted, Text.quotedWith]) (by simp) fun t ht => ?_
  rw [ht, hrest]
  exact .pure

theorem meetsEscape_string {text : String} (h : ¬ Text.Legible text) (more : List Char) :
    MeetsEscape string ((Text.quoted text).toList ++ more) := by
  have hillegible : ∃ c ∈ text.toList, Text.isLegible c = false := by simpa [Text.Legible] using h
  have hshape : (Text.quoted text).toList ++ more =
      '"' :: (text.toList.flatMap (Text.escape '"') ++ '"' :: more) := by
    simp [Text.quoted, Text.quotedWith]
  obtain ⟨e, length, he, hbody⟩ := Lexeme.stringBody_of_not_legible hillegible ('"' :: more)
  rw [hshape]
  intro s hs
  obtain ⟨k, hk, hget, -⟩ := hs.item (Lexeme.gap_quote _)
  rw [List.drop_zero] at hk
  have hitem : ∃ span, k.item.1 = .fault ⟨span, .unknownEscape e⟩ := by
    rw [Cursor.item_quote hk, Cursor.takeString, hbody]
    exact ⟨_, rfl⟩
  obtain ⟨span, hitem⟩ := hitem
  obtain ⟨s', hpeek, hm⟩ := peek_of_fault (hget.trans hitem)
  exact ⟨span, e, s', he, Pairing.bind_of_error (Pairing.bind_of_error hpeek), hm⟩

end Parse

theorem begins_colon {text : List Char} (h : Lexeme.startsWith Lexeme.isSymbolChar text = false) :
    Begins (':' :: text) (.symbolic ":") 1 := by
  have hsymbols : Lexeme.symbols text = [] := by
    cases text with
    | nil => rfl
    | cons c rest =>
      have hc : Lexeme.isSymbolChar c = false := h
      rw [Lexeme.symbols, hc]
      rfl
  refine ⟨Lexeme.gap_zero (by rw [Text.isBlank_eq]; decide) (by decide) (by simp), fun k hk => ?_⟩
  rw [Cursor.item_symbolic hk (by decide) (by simp) (by simp), hsymbols]
  rfl

namespace Attribute

/-- The word behind the colon. -/
def word : Attribute → String
  | name _ => "name"
  | after _ => "after"
  | before _ => "before"
  | onlyIf _ => "if"
  | external => "external"
  | index _ => "index"

/-- What is shown behind the word. -/
def argument : Attribute → String
  | name text | after text | before text | onlyIf text => " " ++ Text.quoted text
  | external => ""
  | index depths => "(" ++ String.intercalate " " (depths.map fun n => toString n.toNat) ++ ")"

theorem render_eq (a : Attribute) : a.render = ":" ++ a.word ++ a.argument := by
  cases a with
  | name text | after text | before text | onlyIf text | external => rfl
  | index depths => simp only [render, word, argument, String.append_assoc]; rfl

theorem word_mem (a : Attribute) : a.word ∈ ["name", "after", "before", "if", "external", "index"] := by
  cases a <;> simp [word]

theorem word_isWord (a : Attribute) : Word a.word.toList (.ident a.word) := by
  have hwords : ∀ text ∈ ["name", "after", "before", "if", "external", "index"],
      Lexeme.startsWith Lexeme.isNameStart text.toList = true ∧ Lexeme.name text.toList = text.toList := by
    decide
  obtain ⟨hstart, hrun⟩ := hwords _ a.word_mem
  exact .ofName hstart hrun

/-- No word goes on with the colon in front of it. -/
theorem startsWith_word (a : Attribute) (more : List Char) :
    Lexeme.startsWith Lexeme.isSymbolChar (a.word.toList ++ more) = false := by
  have hwords : ∀ text ∈ ["name", "after", "before", "if", "external", "index"],
      Lexeme.startsWith Lexeme.isSymbolChar text.toList = false := by
    decide
  obtain ⟨c, rest, hword⟩ := List.exists_cons_of_ne_nil a.word_isWord.ne_nil
  have hc := hwords _ a.word_mem
  rw [hword] at hc ⊢
  exact hc

/-- The text that an attribute has, if it has one. -/
def text? : Attribute → Option String
  | name text | after text | before text | onlyIf text => some text
  | external | index _ => none

/-- The text, if there is one, is legible. -/
def Legible (a : Attribute) : Prop := ∀ text ∈ a.text?, Text.Legible text

theorem endsWord_argument (a : Attribute) {more : List Char} (h : EndsWord more) :
    EndsWord (a.argument.toList ++ more) := by
  cases a with
  | name text | after text | before text | onlyIf text =>
    rw [argument, String.toList_append]
    exact EndsWord.space _
  | external => exact h
  | index depths =>
    rw [argument, String.append_assoc, String.toList_append]
    exact (by decide : (Lexeme.isNameChar '(' || Lexeme.isSymbolChar '(') = false)

end Attribute

namespace Parse

/-- One round of reading the depths of an index. -/
def depthRound (depths : List UInt64) : Parse (Round (List UInt64) (List UInt64)) := do
  let t ← next
  match t.kind with
  | .rightParen => pure (.done depths)
  | .ident name =>
    if name = "_" then pure (.again (depths ++ [0])) else failExpected .indexDepth t
  | .int digits =>
    match boundedNat? (Nat.pow 2 64 - 1) digits with
    | some n => pure (.again (depths ++ [UInt64.ofNat n]))
    | none => fail (.integer t.span)
  | _ => failExpected .indexDepth t

theorem indexDepths_eq : indexDepths = repeated depthRound [] := rfl

theorem depthRound_of_nat {s : ParseState} {n : UInt64} (found : List UInt64) {text : List Char}
    (h : s.StandsAt ((toString n.toNat).toList ++ text)) (hends : EndsWord text) :
    ∃ s', depthRound found s = (.ok (.again (found ++ [n])), s') ∧ s'.StandsAt text ∧
      s'.moment = s.moment ∧ s'.ahead.items.length < s.ahead.items.length := by
  have hword := Word.ofNat n.toNat
  obtain ⟨t, hget, ht, hs₁, hlt⟩ := h.token (hword.begins hends)
    (List.length_pos_iff.2 hword.ne_nil) (by simp)
  rw [List.drop_left] at hs₁
  have hbound : boundedNat? (Nat.pow 2 64 - 1) (toString n.toNat) = some n.toNat :=
    boundedNat?_toString (Nat.le_pred_of_lt n.toNat_lt)
  refine ⟨s.read t, (Pairing.bind_of_ok (next_of_token hget)).trans ?_, hs₁, rfl, hlt⟩
  rw [ht]
  simp only [hbound, UInt64.ofNat_toNat]
  rfl

/-- The depths up to the closing parenthesis, with spaces between them. -/
theorem rolls_depths (depths found : List UInt64) {s : ParseState} {more : List Char}
    (h : s.StandsAt ((String.intercalate " " (depths.map fun n => toString n.toNat)).toList ++ ')' :: more)) :
    ∃ s', Rolls depthRound found s (found ++ depths) s' ∧ s'.StandsAt (')' :: more) ∧
      s'.moment = s.moment ∧ s'.ahead.items.length ≤ s.ahead.items.length := by
  have hparen : EndsWord (')' :: more) :=
    (by decide : (Lexeme.isNameChar ')' || Lexeme.isSymbolChar ')') = false)
  induction depths generalizing found s with
  | nil => exact ⟨s, by rw [List.append_nil]; exact .refl found s, h, rfl, Nat.le_refl _⟩
  | cons n depths ih =>
    cases depths with
    | nil =>
      obtain ⟨s₁, hround, hs₁, hm, hlt⟩ := depthRound_of_nat found h hparen
      exact ⟨s₁, .step hround hlt (.refl _ _), hs₁, hm, hlt.le⟩
    | cons m depths =>
      rw [List.map_cons, List.map_cons, String.intercalate_cons_cons, String.append_assoc,
        String.toList_append, String.toList_append, List.append_assoc, List.append_assoc] at h
      obtain ⟨s₁, hround, hs₁, hm, hlt⟩ := depthRound_of_nat found h (EndsWord.space _)
      obtain ⟨s₂, hrolls, hs₂, hm', hle⟩ := ih (found ++ [n]) hs₁.blank
      rw [List.append_assoc] at hrolls
      exact ⟨s₂, .step hround hlt hrolls, hs₂, hm'.trans hm, by omega⟩

theorem takes_indexDepths (depths : List UInt64) (more : List Char) :
    Takes indexDepths
      ((String.intercalate " " (depths.map fun n => toString n.toNat)).toList ++ ')' :: more) depths more := by
  rw [indexDepths_eq]
  intro s hs
  obtain ⟨s₁, hrolls, hs₁, hm, hle⟩ := rolls_depths depths [] hs
  obtain ⟨t, hget, ht, hs₂, hlt⟩ := hs₁.token (begins_single (by decide) rfl more) Nat.one_pos (by simp)
  have hround : depthRound depths s₁ = (.ok (.done depths), s₁.read t) := by
    rw [depthRound, Pairing.bind_of_ok (next_of_token hget), ht]
    rfl
  exact ⟨s₁.read t, hrolls.repeated_of_done hround, hs₂, hm, by omega⟩

/-- An attribute behind its colon. -/
theorem takes_oneAttribute {a : Attribute} (h : a.Legible) {more : List Char} (hmore : EndsWord more) :
    Takes oneAttribute (a.word.toList ++ (a.argument.toList ++ more)) a more := by
  have hword := a.word_isWord
  refine takes_next (hword.begins (a.endsWord_argument hmore)) (List.length_pos_iff.2 hword.ne_nil)
    (by simp) fun t ht => ?_
  rw [List.drop_left, ht]
  have hstring : ∀ {text : String} (make : String → Attribute), Text.Legible text →
      Takes (string >>= fun text => pure (make text)) ((" " ++ Text.quoted text).toList ++ more)
        (make text) more := by
    intro text make htext
    rw [Text.toList_space_quoted]
    refine Takes.behind_blank (Takes.bind (takes_string htext more) ?_)
    exact .pure
  cases a with
  | name text => exact hstring .name (h text rfl)
  | after text => exact hstring .after (h text rfl)
  | before text => exact hstring .before (h text rfl)
  | onlyIf text => exact hstring .onlyIf (h text rfl)
  | external => exact .pure
  | index depths =>
    rw [Attribute.argument, String.append_assoc, String.toList_append, String.toList_append, List.append_assoc,
      List.append_assoc]
    exact takes_expect (begins_single (by decide) rfl _) Nat.one_pos (by simp) fun _ =>
      (takes_indexDepths depths more).bind .pure

theorem meetsEscape_oneAttribute {a : Attribute} (h : ¬ a.Legible) {more : List Char} (hmore : EndsWord more) :
    MeetsEscape oneAttribute (a.word.toList ++ (a.argument.toList ++ more)) := by
  have hword := a.word_isWord
  refine meetsEscape_next (hword.begins (a.endsWord_argument hmore)) (List.length_pos_iff.2 hword.ne_nil)
    (by simp) fun t ht => ?_
  rw [List.drop_left, ht]
  have hstring : ∀ {text : String} (make : String → Attribute), ¬ Text.Legible text →
      MeetsEscape (string >>= fun text => pure (make text)) ((" " ++ Text.quoted text).toList ++ more) := by
    intro text make htext
    rw [Text.toList_space_quoted]
    exact (meetsEscape_string htext more).bind.behind_blank
  have hnot : ∀ {text : String}, a.text? = some text → ¬ Text.Legible text := by
    intro text ha htext
    refine h fun other hother => ?_
    obtain rfl : other = text := Option.some.inj (hother.symm.trans ha)
    exact htext
  cases a with
  | name text => exact hstring .name (hnot rfl)
  | after text => exact hstring .after (hnot rfl)
  | before text => exact hstring .before (hnot rfl)
  | onlyIf text => exact hstring .onlyIf (hnot rfl)
  | external => exact absurd (fun _ htext => by cases htext) h
  | index depths => exact absurd (fun _ htext => by cases htext) h

section

variable {s : ParseState} {a : Attribute} {more : List Char}

/-- At an attribute as it is shown the next token is its colon. -/
theorem exists_colon (h : s.StandsAt (a.render.toList ++ more)) :
    ∃ t, s.ahead.get 0 = .token t ∧ t.kind = .symbolic ":" ∧
      (s.read t).StandsAt (a.word.toList ++ (a.argument.toList ++ more)) ∧
      (s.read t).ahead.items.length < s.ahead.items.length := by
  have hshape : a.render.toList ++ more = ':' :: (a.word.toList ++ (a.argument.toList ++ more)) := by
    simp [a.render_eq]
  rw [hshape] at h
  exact h.token (begins_colon (a.startsWith_word _)) Nat.one_pos (by simp)

theorem eatSymbol_of_colon {t : Token} (hget : s.ahead.get 0 = .token t) (ht : t.kind = .symbolic ":") :
    eatSymbol ":" s = (.ok true, s.read t) := by
  have hsymbol : t.isSymbol ":" = true := by simp [Token.isSymbol, ht]
  rw [eatSymbol, Pairing.bind_of_ok (peek_of_token hget), if_pos hsymbol]
  exact Pairing.bind_of_ok (next_of_token hget)

theorem attributeRound_of_legible (found : List Attribute) (h : s.StandsAt (a.render.toList ++ more))
    (ha : a.Legible) (hmore : EndsWord more) :
    ∃ s', attributeRound found s = (.ok (.again (found ++ [a])), s') ∧ s'.StandsAt more ∧
      s'.moment = s.moment ∧ s'.ahead.items.length < s.ahead.items.length := by
  obtain ⟨t, hget, ht, hs₁, hlt⟩ := exists_colon h
  obtain ⟨s₂, hone, hs₂, hm, hle⟩ := takes_oneAttribute ha hmore _ hs₁
  refine ⟨s₂, (Pairing.bind_of_ok (eatSymbol_of_colon hget ht)).trans ?_, hs₂, hm, by omega⟩
  exact Pairing.bind_of_ok hone

theorem attributeRound_of_not_legible (found : List Attribute) (h : s.StandsAt (a.render.toList ++ more))
    (ha : ¬ a.Legible) (hmore : EndsWord more) :
    ∃ span e s', e ∈ ['0', 'r', 'u'] ∧
      attributeRound found s = (.error (.grammar span (.scan (.unknownEscape e))), s') ∧
      s'.moment = s.moment := by
  obtain ⟨t, hget, ht, hs₁, -⟩ := exists_colon h
  obtain ⟨span, e, s₂, he, hone, hm⟩ := meetsEscape_oneAttribute ha hmore _ hs₁
  refine ⟨span, e, s₂, he, (Pairing.bind_of_ok (eatSymbol_of_colon hget ht)).trans ?_, hm⟩
  exact Pairing.bind_of_error hone

end

end Parse

namespace Attribute

/-- Attributes as they are shown, in front of a text, with spaces between them. -/
def shownBefore (attributes : List Attribute) (text : String) : String :=
  String.intercalate " " (attributes.map render ++ [text])

@[simp] theorem shownBefore_nil (text : String) : shownBefore [] text = text := String.intercalate_singleton

theorem toList_shownBefore_cons (a : Attribute) (attributes : List Attribute) (text : String) :
    (shownBefore (a :: attributes) text).toList =
      a.render.toList ++ ' ' :: (shownBefore attributes text).toList := by
  obtain ⟨next, others, hnext⟩ : ∃ next others, attributes.map render ++ [text] = next :: others :=
    List.exists_cons_of_ne_nil (by simp)
  rw [shownBefore, shownBefore, List.map_cons, List.cons_append, hnext, String.intercalate_cons_cons,
    String.toList_append, String.toList_append, List.append_assoc]
  rfl

end Attribute

namespace Parse

open Attribute (shownBefore toList_shownBefore_cons)

section

variable {s : ParseState} {attributes : List Attribute} {text : String}

/-- Legible attributes are read one by one. -/
theorem rolls_attributes (found : List Attribute) (h : s.StandsAt (shownBefore attributes text).toList)
    (hlegible : ∀ a ∈ attributes, a.Legible) :
    ∃ s', Rolls attributeRound found s (found ++ attributes) s' ∧ s'.StandsAt text.toList ∧
      s'.moment = s.moment := by
  induction attributes generalizing found s with
  | nil => exact ⟨s, by rw [List.append_nil]; exact .refl found s, h, rfl⟩
  | cons a attributes ih =>
    rw [toList_shownBefore_cons] at h
    obtain ⟨ha, hothers⟩ := List.forall_mem_cons.1 hlegible
    obtain ⟨s₁, hround, hs₁, hm, hlt⟩ := attributeRound_of_legible found h ha (EndsWord.space _)
    obtain ⟨s₂, hrolls, hs₂, hm'⟩ := ih (found ++ [a]) hs₁.blank hothers
    rw [List.append_assoc] at hrolls
    exact ⟨s₂, .step hround hlt hrolls, hs₂, hm'.trans hm⟩

/-- The first attribute that is not legible stops the reading. -/
theorem rolls_to_escape (found : List Attribute) (h : s.StandsAt (shownBefore attributes text).toList)
    (hillegible : ∃ a ∈ attributes, ¬ a.Legible) :
    ∃ found' s' span e s'', Rolls attributeRound found s found' s' ∧ e ∈ ['0', 'r', 'u'] ∧
      attributeRound found' s' = (.error (.grammar span (.scan (.unknownEscape e))), s'') ∧
      s''.moment = s.moment := by
  induction attributes generalizing found s with
  | nil => simp at hillegible
  | cons a attributes ih =>
    rw [toList_shownBefore_cons] at h
    by_cases ha : a.Legible
    · have hothers : ∃ a ∈ attributes, ¬ a.Legible := by simpa [ha] using hillegible
      obtain ⟨s₁, hround, hs₁, hm, hlt⟩ := attributeRound_of_legible found h ha (EndsWord.space _)
      obtain ⟨found', s₂, span, e, s₃, hrolls, he, herror, hm'⟩ := ih (found ++ [a]) hs₁.blank hothers
      exact ⟨found', s₂, span, e, s₃, .step hround hlt hrolls, he, herror, hm'.trans hm⟩
    · obtain ⟨span, e, s₁, he, hround, hm⟩ := attributeRound_of_not_legible found h ha (EndsWord.space _)
      exact ⟨found, s, span, e, s₁, .refl found s, he, hround, hm⟩

end

theorem kind?_eq_of_matches {spans : Span → Span → Prop} {i i' : Item} (h : i.Matches spans i') :
    i.kind? = i'.kind? := by
  cases i <;> cases i'
  · exact congrArg some h.kind
  · exact h.elim
  · exact h.elim
  · rfl

section

variable {v : Vocabulary} {loader : Loader} {source text : String} {attributes : List Attribute}

theorem moment_initial (v : Vocabulary) (seen : List Digest) (source text : String) :
    (ParseState.initial v seen source text).moment = ⟨v, seen⟩ := rfl

theorem parseText_of_contents (hv : v.Reachable) {r : Except ParseError (List Decl)} {s : ParseState}
    (h : contents loader (.initial v [] source text) = (r, s)) :
    parseText v loader source text = (r, s.vocabulary) := by
  obtain ⟨hresult, hmoment⟩ := contents_ends_eq loader (s := .initial v [] source text) hv
  rw [h] at hresult hmoment
  exact Prod.ext hresult.symm (congrArg Moment.vocabulary hmoment).symm

/-- At attributes as they are shown the first token is a colon. -/
theorem exists_first_colon (v : Vocabulary) (source : String) (hne : attributes ≠ []) (text : String) :
    ∃ t, (ParseState.initial v [] source (shownBefore attributes text)).ahead.get 0 = .token t ∧
      t.kind = .symbolic ":" := by
  obtain ⟨a, others, rfl⟩ := List.exists_cons_of_ne_nil hne
  have hstands := ParseState.StandsAt.initial v [] source (shownBefore (a :: others) text)
  rw [toList_shownBefore_cons] at hstands
  obtain ⟨t, hget, ht, -, -⟩ := exists_colon hstands
  exact ⟨t, hget, ht⟩

theorem parseText_shownBefore (hv : v.Reachable) {c : Clause (List Attribute)} {s : ParseState}
    (h : contents loader (.initial v [] source text) = (.ok [.clause c], s))
    (hlegible : ∀ a ∈ attributes, a.Legible) :
    ∃ c', parseText v loader source (shownBefore attributes text) = (.ok [.clause c'], s.vocabulary) ∧
      c'.attributes = attributes ++ c.attributes ∧ SameParts c'.body c.body := by
  by_cases hne : attributes = []
  · subst hne
    exact ⟨c, by rw [Attribute.shownBefore_nil, parseText_of_contents hv h], rfl, rfl⟩
  obtain ⟨colon, hget, hcolon⟩ := exists_first_colon v source hne text
  obtain ⟨t, ht, hgoes, hclause, hend⟩ := (row_of_contents (steady_initial hv [] source text) h).clause_inv
  have hfirst : (Cursor.initial source text).next.1 = .token t := by
    rw [← Cursor.get_zero_scan]
    exact ht
  obtain ⟨s₂, hrolls, hs₂, hm⟩ := rolls_attributes [] (.initial v [] source _) hlegible
  -- Behind the attributes stand the items of the text by itself, and nothing else has changed.
  rw [moment_initial, ← moment_initial v [] source text] at hm
  obtain ⟨c', s₃, hbehind, hattributes, hbody, hm', hahead⟩ :=
    clauseBehind_anywhere attributes (a := colon.span) hv hm (hs₂.ahead_matches rfl hfirst hgoes) hclause
  have hend' : (s₃.ahead.get 0).kind? = some .endOfInput :=
    (kind?_eq_of_matches (hahead.get 0)).trans hend
  have hcontents : contents loader (.initial v [] source (shownBefore attributes text)) =
      (.ok [.clause c'], s₃) :=
    contents_of_clauseBehind (steady_initial hv [] source _) hget hcolon (hrolls.clauseBehind hbehind) hend'
  have hvocabulary : s₃.vocabulary = s.vocabulary := congrArg Moment.vocabulary hm'
  exact ⟨c', by rw [parseText_of_contents hv hcontents, hvocabulary], hattributes, hbody⟩

theorem parseText_shownBefore_refused (hv : v.Reachable) (hillegible : ∃ a ∈ attributes, ¬ a.Legible) :
    ∃ span e, e ∈ ['0', 'r', 'u'] ∧ parseText v loader source (shownBefore attributes text) =
      (.error (.grammar span (.scan (.unknownEscape e))), v) := by
  have hne : attributes ≠ [] := by
    rintro rfl
    simp at hillegible
  obtain ⟨colon, hget, hcolon⟩ := exists_first_colon v source hne text
  obtain ⟨found, s, span, e, s', hrolls, he, herror, hm⟩ :=
    rolls_to_escape [] (.initial v [] source (shownBefore attributes text)) hillegible
  have hvocabulary : s'.vocabulary = v := congrArg Moment.vocabulary hm
  exact ⟨span, e, he, by
    rw [parseText_of_contents hv (contents_of_attribute_error hget hcolon hrolls herror), hvocabulary]⟩

end

end Parse

/-- Attributes that are shown in front of a clause are read back in front of its own, and the clause is the
same but for where it stands, if and only if all their texts are legible. Else the text is refused for
an escape that the scanner does not know. -/
theorem attributes_readBack_iff {v w : Vocabulary} (hv : v.Reachable) (loader : Loader)
    (source text : String) {c : Clause (List Attribute)}
    (h : parseText v loader source text = (.ok [.clause c], w)) (attributes : List Attribute) :
    ((∃ c', parseText v loader source (Attribute.shownBefore attributes text) = (.ok [.clause c'], w) ∧
        c'.attributes = attributes ++ c.attributes ∧ SameParts c'.body c.body) ↔
      ∀ a ∈ attributes, a.Legible) ∧
    ((∃ a ∈ attributes, ¬ a.Legible) → ∃ span e, e ∈ ['0', 'r', 'u'] ∧
      parseText v loader source (Attribute.shownBefore attributes text) =
        (.error (.grammar span (.scan (.unknownEscape e))), v)) := by
  rcases hrest : Parse.contents loader (.initial v [] source text) with ⟨r, s⟩
  rw [Parse.parseText_of_contents hv hrest] at h
  obtain ⟨rfl, rfl⟩ := Prod.mk.inj h
  refine ⟨⟨?_, Parse.parseText_shownBefore hv hrest⟩, Parse.parseText_shownBefore_refused hv⟩
  rintro ⟨c', hc', -⟩
  by_contra hnot
  obtain ⟨span, e, -, herror⟩ := Parse.parseText_shownBefore_refused hv (by simpa using hnot)
  rw [hc'] at herror
  cases (Prod.mk.inj herror).1

/-- A name with a quote and a line break, and depths. -/
def legibleAttributes : List Attribute := [.name "\"\n", .index [1, 0, 2]]

/-- A carriage return in a name. -/
def returnAttribute : Attribute := .name "\r"

/-- The legible attributes are read back. The carriage return is shown as an escape, and is not. -/
theorem attributes_readBack_not_return :
    ∃ c w, parseText .initial .disabled "main" "p." = (.ok [.clause c], w) ∧
      (∃ c', parseText .initial .disabled "main" (Attribute.shownBefore legibleAttributes "p.") =
        (.ok [.clause c'], w) ∧ c'.attributes = legibleAttributes ++ c.attributes) ∧
      Attribute.shownBefore [returnAttribute] "p." = ":name \"\\r\" p." ∧
      ∃ span e, parseText .initial .disabled "main" (Attribute.shownBefore [returnAttribute] "p.") =
        (.error (.grammar span (.scan (.unknownEscape e))), .initial) := by
  have hclause : ∀ r, parseText .initial .disabled "main" "p." = r →
      r.1.toOption.map (·.map Decl.isClause) = some [true] := by
    rintro _ rfl
    decide +kernel
  rcases hr : parseText .initial .disabled "main" "p." with ⟨e | ds, w⟩
  · cases hclause _ hr
  obtain ⟨d, rfl, hd⟩ := List.map_eq_singleton_iff.1 (Option.some.inj (hclause _ hr))
  obtain ⟨c, rfl⟩ : ∃ c, d = .clause c := by
    cases d <;> first | exact ⟨_, rfl⟩ | cases hd
  have hlegible : ∀ a ∈ legibleAttributes, a.Legible := by
    have htext : Text.Legible "\"\n" := by decide
    simp [legibleAttributes, Attribute.Legible, Attribute.text?, htext]
  have hreturn : ¬ returnAttribute.Legible := fun h => absurd (h "\r" rfl) (by decide)
  obtain ⟨c', hread, hattributes, -⟩ :=
    (attributes_readBack_iff .initial .disabled "main" "p." hr legibleAttributes).1.2 hlegible
  obtain ⟨span, e, -, hrefused⟩ :=
    (attributes_readBack_iff .initial .disabled "main" "p." hr [returnAttribute]).2 (by simpa using hreturn)
  exact ⟨c, w, rfl, ⟨c', hread, hattributes⟩, by decide, span, e, hrefused⟩

end Clausal
