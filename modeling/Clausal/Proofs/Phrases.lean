import Clausal.Proofs.SpelledTexts

/-!
# Phrases

What is shown of a term is a phrase: a row of pieces with spaces between them, or a binder with a phrase
behind it. A piece is a leaf, a list, or a phrase in parentheses. The text of a phrase tells it apart from
any other. Its tokens do, for the grammar of phrases is read without looking back: the next token decides
how a phrase goes on or that it ends.
-/
namespace Clausal

open Term (isPlainName)

/-- The name is an identifier, a macro name or a symbol. -/
def IsWord (name : String) : Prop :=
  ReadsAs name (.ident name) ∨ ReadsAs name (.macroName name) ∨ ReadsAs name (.symbolic name)

instance (name : String) : Decidable (IsWord name) := inferInstanceAs (Decidable (_ ∨ _ ∨ _))

namespace IsWord

variable {name other : String}

theorem word? (h : IsWord name) : (wordKind name).word? = some name := by
  rcases h with h | h | h <;> rw [h.wordKind_eq] <;> rfl

theorem word (h : IsWord name) : Word name.toList (wordKind name) := by
  rcases h with h | h | h <;> rw [h.wordKind_eq] <;> exact h.word rfl

theorem eq_of_wordKind (h : IsWord name) (ho : IsWord other) (hk : wordKind name = wordKind other) :
    name = other :=
  Option.some.inj (h.word?.symm.trans (hk ▸ ho.word?))

end IsWord

/-- A name or a literal as it is shown. Names that cannot stand alone have parentheses. -/
inductive Leaf where
  | nil
  | plain (name : String) (h : IsWord name ∧ isPlainName name = true)
  | operator (name : String) (h : IsWord name ∧ isPlainName name = false)
  | nat (n : Nat)
  | negative (n : Nat)
  | string (text : String)
  deriving DecidableEq

mutual

inductive Piece where
  | leaf (a : Leaf)
  | list (first : Phrase) (rest : Remainder)
  | group (inside : Phrase)

inductive Phrase where
  | row (first : Piece) (others : List Piece)
  | lambda (binder : Leaf) (body : Phrase)

/-- What follows the first element of a list, up to the bracket that closes it. -/
inductive Remainder where
  | closed
  | next (element : Phrase) (rest : Remainder)
  | bar (tail : Phrase)

end

def Leaf.text : Leaf → String
  | nil => "[]"
  | plain name _ => name
  | operator name _ => "(" ++ name ++ ")"
  | nat n => toString n
  | negative n => "-" ++ toString n
  | string text => Literal.renderString text

def Leaf.kinds : Leaf → List TokenKind
  | nil => [.leftBracket, .rightBracket]
  | plain name _ => [wordKind name]
  | operator name _ => [.leftParen, wordKind name, .rightParen]
  | nat n => [.int (toString n)]
  | negative n => [.symbolic "-", .int (toString n)]
  | string text => [.string text]

mutual

def Piece.text : Piece → String
  | .leaf a => a.text
  | .list first rest => "[" ++ (first.text ++ rest.text)
  | .group inside => "(" ++ inside.text ++ ")"

def Phrase.text : Phrase → String
  | .row first others => first.text ++ rowText others
  | .lambda binder body => binder.text ++ ("\\" ++ (" " ++ body.text))

def Remainder.text : Remainder → String
  | .closed => "]"
  | .next element rest => "," ++ (" " ++ element.text ++ rest.text)
  | .bar tail => " " ++ ("|" ++ (" " ++ tail.text ++ "]"))

def rowText : List Piece → String
  | [] => ""
  | w :: ws => " " ++ w.text ++ rowText ws

end

mutual

def Piece.kinds : Piece → List TokenKind
  | .leaf a => a.kinds
  | .list first rest => .leftBracket :: (first.kinds ++ rest.kinds)
  | .group inside => .leftParen :: (inside.kinds ++ [.rightParen])

def Phrase.kinds : Phrase → List TokenKind
  | .row first others => first.kinds ++ rowKinds others
  | .lambda binder body => binder.kinds ++ .backslash :: body.kinds

def Remainder.kinds : Remainder → List TokenKind
  | .closed => [.rightBracket]
  | .next element rest => .symbolic "," :: (element.kinds ++ rest.kinds)
  | .bar tail => .symbolic "|" :: (tail.kinds ++ [.rightBracket])

def rowKinds : List Piece → List TokenKind
  | [] => []
  | w :: ws => w.kinds ++ rowKinds ws

end

/-- The token ends a phrase. -/
def Closing (k : TokenKind) : Prop :=
  k = .rightParen ∨ k = .rightBracket ∨ k = .symbolic "," ∨ k = .symbolic "|"

/-- No token goes on with a phrase. -/
def EndsPhrase (ks : List TokenKind) : Prop := ∀ k ∈ ks.head?, Closing k

theorem endsPhrase_cons {k : TokenKind} {ks : List TokenKind} (h : Closing k) :
    EndsPhrase (k :: ks) := by
  intro k' hk'
  obtain rfl : k = k' := by simpa using hk'
  exact h

/-- The row begins with a token that begins a piece. -/
def Opens (ks : List TokenKind) : Prop := ∃ k rest, ks = k :: rest ∧ ¬ Closing k ∧ k ≠ .backslash

theorem IsWord.not_closing {name : String} (h : IsWord name) (hp : isPlainName name = true) :
    ¬ Closing (wordKind name) ∧ wordKind name ≠ .backslash := by
  have hw := h.word?
  refine ⟨?_, fun hk => by simp [hk, TokenKind.word?] at hw⟩
  rintro (hk | hk | hk | hk) <;> rw [hk] at hw <;> simp only [TokenKind.word?, Option.some.injEq,
    reduceCtorEq] at hw
  · subst hw
    exact absurd hp (by decide)
  · subst hw
    exact absurd hp (by decide)

theorem Leaf.opens (a : Leaf) : Opens a.kinds := by
  cases a with
  | plain name h => exact ⟨_, _, rfl, h.1.not_closing h.2⟩
  | _ => exact ⟨_, _, rfl, by simp [Closing], by simp⟩

theorem Opens.append {ks : List TokenKind} (h : Opens ks) (more : List TokenKind) :
    Opens (ks ++ more) := by
  obtain ⟨k, rest, rfl, hk⟩ := h
  exact ⟨k, rest ++ more, rfl, hk⟩

theorem Opens.not_endsPhrase {ks : List TokenKind} (h : Opens ks) : ¬ EndsPhrase ks := by
  obtain ⟨k, rest, rfl, hk, -⟩ := h
  exact fun he => hk (he k rfl)

theorem Piece.opens (a : Piece) : Opens a.kinds := by
  cases a with
  | leaf a =>
    rw [Piece.kinds]
    exact a.opens
  | list first rest =>
    rw [Piece.kinds]
    exact ⟨_, _, rfl, by simp [Closing], by simp⟩
  | group inside =>
    rw [Piece.kinds]
    exact ⟨_, _, rfl, by simp [Closing], by simp⟩

theorem Phrase.opens (p : Phrase) : Opens p.kinds := by
  cases p with
  | row first others =>
    rw [Phrase.kinds]
    exact first.opens.append _
  | lambda binder body =>
    rw [Phrase.kinds]
    exact binder.opens.append _

theorem Remainder.endsPhrase (r : Remainder) (more : List TokenKind) : EndsPhrase (r.kinds ++ more) := by
  cases r <;> rw [Remainder.kinds] <;> exact endsPhrase_cons (by simp [Closing])

theorem eq_of_toString {m n : Nat} (h : toString m = toString n) : m = n := by
  have hm := Parse.boundedNat?_toString (Nat.le_max_left m n)
  have hn := Parse.boundedNat?_toString (Nat.le_max_right m n)
  rw [h, hn] at hm
  exact (Option.some.inj hm).symm

namespace Leaf

variable {x y : List TokenKind}

/-- A word that needs parentheses is not the first token of a leaf that a parenthesis closes. -/
theorem kinds_ne_operator (a : Leaf) {name : String} (h : IsWord name ∧ isPlainName name = false) :
    a.kinds ++ x ≠ wordKind name :: .rightParen :: y := by
  obtain ⟨hw, hp⟩ := h
  intro he
  cases a with
  | plain other ho =>
    obtain ⟨hk, -⟩ := List.cons.inj he
    rw [ho.1.eq_of_wordKind hw hk, hp] at ho
    exact Bool.noConfusion ho.2
  | negative n =>
    obtain ⟨-, hrest⟩ := List.cons.inj he
    exact TokenKind.noConfusion (List.cons.inj hrest).1
  | _ =>
    have hk := hw.word?
    rw [← (List.cons.inj he).1] at hk
    simp [TokenKind.word?] at hk

/-- A plain word shows as no other leaf. -/
theorem eq_plain {b : Leaf} {name : String} {h : IsWord name ∧ isPlainName name = true}
    (he : (plain name h).kinds ++ x = b.kinds ++ y) : plain name h = b ∧ x = y := by
  have hk := h.1.word?
  cases b with
  | plain other ho =>
    simp only [kinds, List.cons_append, List.nil_append, List.cons.injEq] at he
    obtain rfl := h.1.eq_of_wordKind ho.1 he.1
    exact ⟨rfl, he.2⟩
  | negative n =>
    rw [(List.cons.inj he).1] at hk
    obtain rfl : name = "-" := by simpa [TokenKind.word?] using hk.symm
    exact absurd h.2 (by decide)
  | _ =>
    rw [(List.cons.inj he).1] at hk
    simp [TokenKind.word?] at hk

theorem kinds_append_inj {a b : Leaf} (h : a.kinds ++ x = b.kinds ++ y) : a = b ∧ x = y := by
  cases b with
  | plain other ho => exact (eq_plain h.symm).imp Eq.symm Eq.symm
  | operator other ho =>
    cases a with
    | plain name hn => exact eq_plain h
    | operator name hn =>
      simp only [kinds, List.cons_append, List.nil_append, List.cons.injEq, true_and] at h
      obtain rfl := hn.1.eq_of_wordKind ho.1 h.1
      exact ⟨rfl, h.2⟩
    | _ => simp [kinds] at h
  | nil =>
    cases a with
    | plain name hn => exact eq_plain h
    | nil => exact ⟨rfl, by simpa [kinds] using h⟩
    | _ => simp [kinds] at h
  | nat n =>
    cases a with
    | plain name hn => exact eq_plain h
    | nat m =>
      simp only [kinds, List.cons_append, List.nil_append, List.cons.injEq, TokenKind.int.injEq] at h
      exact ⟨by rw [eq_of_toString h.1], h.2⟩
    | _ => simp [kinds] at h
  | negative n =>
    cases a with
    | plain name hn => exact eq_plain h
    | negative m =>
      simp only [kinds, List.cons_append, List.nil_append, List.cons.injEq, TokenKind.int.injEq,
        true_and] at h
      exact ⟨by rw [eq_of_toString h.1], h.2⟩
    | _ => simp [kinds] at h
  | string text =>
    cases a with
    | plain name hn => exact eq_plain h
    | string other =>
      simp only [kinds, List.cons_append, List.nil_append, List.cons.injEq, TokenKind.string.injEq] at h
      exact ⟨by rw [h.1], h.2⟩
    | _ => simp [kinds] at h

end Leaf

variable {x y : List TokenKind}

theorem Piece.kinds_ne_operator (a : Piece) {name : String}
    (h : IsWord name ∧ isPlainName name = false) :
    a.kinds ++ x ≠ wordKind name :: .rightParen :: y := by
  have hk := h.1.word?
  cases a with
  | leaf a =>
    rw [Piece.kinds]
    exact a.kinds_ne_operator h
  | list first rest =>
    rw [Piece.kinds]
    intro he
    rw [← (List.cons.inj he).1] at hk
    simp [TokenKind.word?] at hk
  | group inside =>
    rw [Piece.kinds]
    intro he
    rw [← (List.cons.inj he).1] at hk
    simp [TokenKind.word?] at hk

theorem Phrase.kinds_ne_operator (p : Phrase) {name : String}
    (h : IsWord name ∧ isPlainName name = false) :
    p.kinds ++ x ≠ wordKind name :: .rightParen :: y := by
  cases p with
  | row first others =>
    rw [Phrase.kinds, List.append_assoc]
    exact first.kinds_ne_operator h
  | lambda binder body =>
    rw [Phrase.kinds, List.append_assoc]
    exact binder.kinds_ne_operator h

/-- A leaf is no phrase in parentheses. -/
theorem Leaf.kinds_ne_group (a : Leaf) (p : Phrase) :
    a.kinds ++ x ≠ .leftParen :: (p.kinds ++ .rightParen :: y) := by
  intro h
  cases a with
  | plain name hn =>
    have hk := hn.1.word?
    rw [(List.cons.inj h).1] at hk
    simp [TokenKind.word?] at hk
  | operator name hn => exact p.kinds_ne_operator hn (List.cons.inj h).2.symm
  | _ => simp [kinds] at h

/-- A leaf is no list, since an element of a list does not begin with a bracket that closes one. -/
theorem Leaf.kinds_ne_list (a : Leaf) (p : Phrase) :
    a.kinds ++ x ≠ .leftBracket :: (p.kinds ++ y) := by
  intro h
  cases a with
  | plain name hn =>
    have hk := hn.1.word?
    rw [(List.cons.inj h).1] at hk
    simp [TokenKind.word?] at hk
  | nil =>
    obtain ⟨k, rest, hk, hclosing, -⟩ := p.opens.append y
    rw [hk] at h
    exact hclosing (.inr (.inl (List.cons.inj (List.cons.inj h).2).1.symm))
  | _ => simp [kinds] at h

/-- A row of pieces does not begin with a binder. -/
theorem Piece.kinds_ne_binder (a : Piece) (binder : Leaf) {others : List Piece} (hx : EndsPhrase x) :
    a.kinds ++ (rowKinds others ++ x) ≠ binder.kinds ++ .backslash :: y := by
  intro h
  cases a with
  | leaf a =>
    rw [Piece.kinds] at h
    obtain ⟨-, hrest⟩ := Leaf.kinds_append_inj h
    cases others with
    | nil =>
      rw [rowKinds, List.nil_append] at hrest
      exact absurd (hx .backslash (by rw [hrest]; rfl)) (by simp [Closing])
    | cons w ws =>
      rw [rowKinds, List.append_assoc] at hrest
      obtain ⟨k, rest, hk, -, hback⟩ := w.opens.append (rowKinds ws ++ x)
      rw [hk] at hrest
      exact hback (List.cons.inj hrest).1
  | list first rest =>
    rw [Piece.kinds, List.cons_append, List.append_assoc] at h
    exact binder.kinds_ne_list first h.symm
  | group inside =>
    rw [Piece.kinds, List.cons_append, List.append_assoc] at h
    exact binder.kinds_ne_group inside h.symm

mutual

/-- A piece is told by its tokens, whatever follows. -/
theorem Piece.kinds_append_inj {a b : Piece} {x y : List TokenKind}
    (h : a.kinds ++ x = b.kinds ++ y) : a = b ∧ x = y := by
  match a, b with
  | .leaf a, .leaf b =>
    rw [Piece.kinds, Piece.kinds] at h
    exact (Leaf.kinds_append_inj h).imp_left (congrArg _)
  | .leaf a, .list first rest =>
    rw [Piece.kinds, Piece.kinds, List.cons_append, List.append_assoc] at h
    exact absurd h (a.kinds_ne_list first)
  | .leaf a, .group inside =>
    rw [Piece.kinds, Piece.kinds, List.cons_append, List.append_assoc] at h
    exact absurd h (a.kinds_ne_group inside)
  | .list first rest, .leaf b =>
    rw [Piece.kinds, Piece.kinds, List.cons_append, List.append_assoc] at h
    exact absurd h.symm (b.kinds_ne_list first)
  | .list first rest, .list first' rest' =>
    simp only [Piece.kinds, List.cons_append, List.append_assoc, List.cons.injEq, true_and] at h
    obtain ⟨rfl, hrest⟩ := Phrase.kinds_append_inj (rest.endsPhrase x) (rest'.endsPhrase y) h
    obtain ⟨rfl, hmore⟩ := Remainder.kinds_append_inj hrest
    exact ⟨rfl, hmore⟩
  | .list first rest, .group inside => simp [Piece.kinds] at h
  | .group inside, .leaf b =>
    rw [Piece.kinds, Piece.kinds, List.cons_append, List.append_assoc] at h
    exact absurd h.symm (b.kinds_ne_group inside)
  | .group inside, .list first rest => simp [Piece.kinds] at h
  | .group inside, .group inside' =>
    simp only [Piece.kinds, List.cons_append, List.append_assoc, List.nil_append, List.cons.injEq,
      true_and] at h
    obtain ⟨rfl, hmore⟩ := Phrase.kinds_append_inj (endsPhrase_cons (.inl rfl))
      (endsPhrase_cons (.inl rfl)) h
    exact ⟨rfl, (List.cons.inj hmore).2⟩

/-- A phrase is told by its tokens if what follows does not go on with it. -/
theorem Phrase.kinds_append_inj {p q : Phrase} {x y : List TokenKind} (hx : EndsPhrase x)
    (hy : EndsPhrase y) (h : p.kinds ++ x = q.kinds ++ y) : p = q ∧ x = y := by
  match p, q with
  | .row first others, .row first' others' =>
    rw [Phrase.kinds, Phrase.kinds, List.append_assoc, List.append_assoc] at h
    obtain ⟨rfl, hrest⟩ := Piece.kinds_append_inj h
    obtain ⟨rfl, hmore⟩ := rowKinds_append_inj hx hy hrest
    exact ⟨rfl, hmore⟩
  | .row first others, .lambda binder body =>
    rw [Phrase.kinds, Phrase.kinds, List.append_assoc, List.append_assoc] at h
    exact absurd h (first.kinds_ne_binder binder hx)
  | .lambda binder body, .row first others =>
    rw [Phrase.kinds, Phrase.kinds, List.append_assoc, List.append_assoc] at h
    exact absurd h.symm (first.kinds_ne_binder binder hy)
  | .lambda binder body, .lambda binder' body' =>
    rw [Phrase.kinds, Phrase.kinds, List.append_assoc, List.append_assoc] at h
    obtain ⟨rfl, hbody⟩ := Leaf.kinds_append_inj h
    obtain ⟨rfl, hmore⟩ := Phrase.kinds_append_inj hx hy (List.cons.inj hbody).2
    exact ⟨rfl, hmore⟩

theorem Remainder.kinds_append_inj {r r' : Remainder} {x y : List TokenKind}
    (h : r.kinds ++ x = r'.kinds ++ y) : r = r' ∧ x = y := by
  match r, r' with
  | .closed, .closed => exact ⟨rfl, by simpa [Remainder.kinds] using h⟩
  | .next element rest, .next element' rest' =>
    simp only [Remainder.kinds, List.cons_append, List.append_assoc, List.cons.injEq, true_and] at h
    obtain ⟨rfl, hrest⟩ := Phrase.kinds_append_inj (rest.endsPhrase x) (rest'.endsPhrase y) h
    obtain ⟨rfl, hmore⟩ := Remainder.kinds_append_inj hrest
    exact ⟨rfl, hmore⟩
  | .bar tail, .bar tail' =>
    simp only [Remainder.kinds, List.cons_append, List.append_assoc, List.nil_append, List.cons.injEq,
      true_and] at h
    have hcloses : ∀ more, EndsPhrase (.rightBracket :: more) := fun _ => endsPhrase_cons (.inr (.inl rfl))
    obtain ⟨rfl, hmore⟩ := Phrase.kinds_append_inj (hcloses x) (hcloses y) h
    exact ⟨rfl, (List.cons.inj hmore).2⟩
  | .closed, .next _ _ | .closed, .bar _ | .next _ _, .closed | .next _ _, .bar _
  | .bar _, .closed | .bar _, .next _ _ => simp [Remainder.kinds] at h

theorem rowKinds_append_inj {ws ws' : List Piece} {x y : List TokenKind} (hx : EndsPhrase x)
    (hy : EndsPhrase y) (h : rowKinds ws ++ x = rowKinds ws' ++ y) : ws = ws' ∧ x = y := by
  match ws, ws' with
  | [], [] => exact ⟨rfl, h⟩
  | [], w :: ws =>
    rw [rowKinds, rowKinds, List.nil_append, List.append_assoc] at h
    exact absurd (h ▸ hx) (w.opens.append _).not_endsPhrase
  | w :: ws, [] =>
    rw [rowKinds, rowKinds, List.nil_append, List.append_assoc] at h
    exact absurd (h ▸ hy) (w.opens.append _).not_endsPhrase
  | w :: ws, w' :: ws' =>
    rw [rowKinds, rowKinds, List.append_assoc, List.append_assoc] at h
    obtain ⟨rfl, hrest⟩ := Piece.kinds_append_inj h
    obtain ⟨rfl, hmore⟩ := rowKinds_append_inj hx hy hrest
    exact ⟨rfl, hmore⟩

end

/-- A text spells one row of tokens. -/
theorem Spells.unique {text : List Char} {kinds kinds' : List TokenKind} (h : Spells text kinds)
    (h' : Spells text kinds') : kinds = kinds' := by
  let k : Cursor := ⟨"", text, 0, 1, 0⟩
  have hitems := (h k text.length rfl (Nat.le_refl _)).items
  rw [(h' k text.length rfl (Nat.le_refl _)).items] at hitems
  exact ((List.map_inj_right fun _ _ => Option.some.inj).1 hitems).symm

/-- A minus sign in front of a digit is a token by itself. -/
theorem begins_minus {d : Char} (hd : d.isDigit = true) (text : List Char) :
    Begins ('-' :: d :: text) (.symbolic "-") 1 := by
  refine ⟨Lexeme.gap_zero (by rw [Text.isBlank_eq]; decide) (by decide) (by simp), fun k hk => ?_⟩
  have hsymbol : Lexeme.isSymbolChar d = false := by
    rw [← Bool.not_eq_true]
    intro hs
    have hdigit := (Lexeme.of_isSymbolChar hs).2.2.2.2.2.1
    exact Bool.noConfusion (hdigit.symm.trans hd)
  have hrun : Lexeme.symbols (d :: text) = [] := by simp [Lexeme.symbols, hsymbol]
  rw [Cursor.item_symbolic hk (by decide) (by simp) (by simp), hrun]
  rfl

theorem SpelledAs.negative (n : Nat) :
    SpelledAs ("-" ++ toString n) [.symbolic "-", .int (toString n)] := by
  intro more ks he hm
  obtain ⟨d, rest, hd, hdigit⟩ : ∃ d rest, (toString n).toList = d :: rest ∧ d.isDigit = true := by
    rw [Nat.toString_eq_ofList_toDigits, String.toList_ofList]
    obtain ⟨d, rest, hd⟩ := List.exists_cons_of_ne_nil (Nat.toDigits_ne_nil (n := n) (b := 10))
    have hmem : d ∈ Nat.toDigits 10 n := by
      rw [hd]
      exact List.mem_cons_self
    exact ⟨d, rest, hd, Nat.isDigit_of_mem_toDigits (by decide) (by decide) hmem⟩
  have hdigits := SpelledAs.ofNat n more ks he hm
  rw [String.toList_append, List.append_assoc, hd]
  rw [hd] at hdigits
  exact Spells.token (begins_minus hdigit (rest ++ more)) Nat.one_pos (by simp) hdigits

theorem Leaf.spelled (a : Leaf) : SpelledAs a.text a.kinds := by
  cases a with
  | nil =>
    have hbrackets : ("[]" : String) = "[" ++ "]" := by decide
    rw [text, hbrackets]
    exact .behind "[" rfl (by decide) rfl (.ofWord "]" (.single (by decide) rfl))
  | plain name h => exact .ofWord _ (h.1.word)
  | operator name h => exact .parenthesized (.ofWord _ (h.1.word))
  | nat n => exact .ofNat n
  | negative n => exact .negative n
  | string text => exact .string text

theorem Remainder.setsOff (r : Remainder) : SetsOff r.text := by
  cases r <;> rw [Remainder.text]
  · exact setsOff_of_head rfl (by decide)
  · exact setsOff_of_head (c := ',') (by simp; rfl) (by decide)
  · exact setsOff_of_head (c := ' ') (by simp; rfl) (by decide)

theorem setsOff_rowText (ws : List Piece) : SetsOff (rowText ws) := by
  cases ws with
  | nil =>
    rw [rowText]
    exact fun _ h => h
  | cons w ws =>
    rw [rowText]
    exact setsOff_of_head (c := ' ') (by simp; rfl) (by decide)

/-- A space in front of what begins with a token of its own. -/
theorem SpelledAs.space_of_opens {text : String} {ks : List TokenKind} (h : SpelledAs text ks)
    (ho : Opens ks) : SpelledAs (" " ++ text) ks := by
  obtain ⟨k, rest, rfl, -⟩ := ho
  exact h.space

mutual

theorem Piece.spelled : (a : Piece) → SpelledAs a.text a.kinds
  | .leaf a => by
    rw [Piece.text, Piece.kinds]
    exact a.spelled
  | .list first rest => by
    rw [Piece.text, Piece.kinds]
    exact .behind "[" rfl (by decide) rfl (first.spelled.append rest.spelled rest.setsOff)
  | .group inside => by
    rw [Piece.text, Piece.kinds]
    exact .parenthesized inside.spelled

theorem Phrase.spelled : (p : Phrase) → SpelledAs p.text p.kinds
  | .row first others => by
    rw [Phrase.text, Phrase.kinds]
    exact first.spelled.append (spelled_rowText others) (setsOff_rowText others)
  | .lambda binder body => by
    rw [Phrase.text, Phrase.kinds]
    exact binder.spelled.append ((body.spelled.space_of_opens body.opens).behind "\\" rfl (by decide) rfl)
      (setsOff_of_head (c := '\\') (by simp; rfl) (by decide))

theorem Remainder.spelled : (r : Remainder) → SpelledAs r.text r.kinds
  | .closed => by
    rw [Remainder.text, Remainder.kinds]
    exact .ofWord _ (.single (by decide) rfl)
  | .next element rest => by
    rw [Remainder.text, Remainder.kinds]
    exact .behind "," rfl (by decide) rfl
      ((element.spelled.space_of_opens element.opens).append rest.spelled rest.setsOff)
  | .bar tail => by
    rw [Remainder.text, Remainder.kinds]
    have hclosed : SpelledAs "]" [.rightBracket] := .ofWord _ (.single (by decide) rfl)
    exact .space (.behind "|" rfl (by decide) rfl ((tail.spelled.space_of_opens tail.opens).append hclosed
      (setsOff_of_head rfl (by decide))))

theorem spelled_rowText : (ws : List Piece) → SpelledAs (rowText ws) (rowKinds ws)
  | [] => by
    rw [rowText, rowKinds]
    exact .empty
  | w :: ws => by
    rw [rowText, rowKinds]
    exact (w.spelled.space_of_opens w.opens).append (spelled_rowText ws) (setsOff_rowText ws)

end

/-- The text of a phrase tells it. -/
theorem Phrase.text_injective {p q : Phrase} (h : p.text = q.text) : p = q := by
  have hp : Spells (p.text.toList ++ []) (p.kinds ++ []) := p.spelled [] [] .nil .nil
  have hq : Spells (q.text.toList ++ []) (q.kinds ++ []) := q.spelled [] [] .nil .nil
  rw [h] at hp
  exact (Phrase.kinds_append_inj (fun _ hk => (by cases hk)) (fun _ hk => (by cases hk))
    (hp.unique hq)).1

end Clausal
