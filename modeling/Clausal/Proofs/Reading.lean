import Clausal.Parse.Expression

/-!
# Reading by kinds of tokens

What a step of a reader does is decided by the kinds of the tokens ahead, not by their places.
`Does` says what one step makes of a row of kinds. `Reads` says it of a bounded step, for every
bound that has four levels for each token left. Each production of the grammar has its rules here,
so that a proof about a text never opens a reader.
-/
namespace Clausal

def Item.kind? : Item → Option TokenKind
  | .token t => some t.kind
  | .fault _ => none

/-- All items are tokens, of the given kinds, and then the input ends. -/
structure Scan.Shows (s : Scan) (kinds : List TokenKind) : Prop where
  items : s.items.map Item.kind? = kinds.map some
  last : s.last.kind? = some .endOfInput

namespace Scan

theorem peekItem_of_kinds {last : Item} (hl : last.kind? = some .endOfInput) :
    ∀ (n : Nat) {items : List Item} {kinds : List TokenKind},
      items.map Item.kind? = kinds.map some →
        ∃ t, peekItem last n items = (.ok t, items) ∧ t.kind = (kinds.drop n).headD .endOfInput
  | n, [], kinds, h => by
    obtain rfl : kinds = [] := by simpa using h.symm
    cases last with
    | token t => exact ⟨t, by cases n <;> rfl, by simpa [Item.kind?] using hl⟩
    | fault e => simp [Item.kind?] at hl
  | n, item :: items, kinds, h => by
    obtain ⟨k, ks, rfl⟩ : ∃ k ks, kinds = k :: ks := by
      cases kinds with
      | nil => simp at h
      | cons k ks => exact ⟨k, ks, rfl⟩
    simp only [List.map_cons, List.cons.injEq] at h
    cases item with
    | fault e => simp [Item.kind?] at h
    | token t =>
      cases n with
      | zero => exact ⟨t, rfl, by simpa [Item.kind?] using h.1⟩
      | succ n =>
        obtain ⟨u, hu, hk⟩ := peekItem_of_kinds hl n h.2
        exact ⟨u, by simp [peekItem, hu], by simpa using hk⟩

theorem Shows.peek {s : Scan} {kinds : List TokenKind} (h : s.Shows kinds) (n : Nat) :
    ∃ t, s.peek n = (.ok t, s) ∧ t.kind = (kinds.drop n).headD .endOfInput := by
  obtain ⟨t, ht, hk⟩ := peekItem_of_kinds h.last n h.items
  exact ⟨t, by simp [Scan.peek, ht], hk⟩

theorem Shows.advance {s : Scan} {kinds : List TokenKind} (h : s.Shows kinds) :
    s.advance.Shows kinds.tail :=
  ⟨by simp only [Scan.advance, List.map_tail, h.items], h.last⟩

end Scan

/-- The state has this vocabulary and tokens of these kinds ahead. -/
structure ParseState.At (s : ParseState) (v : Vocabulary) (kinds : List TokenKind) : Prop where
  vocabulary : s.vocabulary = v
  ahead : s.ahead.Shows kinds

/-- What comes of a step: a value, with the vocabulary and the kinds that are left, or a fault. -/
inductive Outcome (α : Type) where
  | value (a : α) (v : Vocabulary) (rest : List TokenKind)
  | refusal (fault : SyntaxFault)

def Outcome.Of {α : Type} : Outcome α → Except ParseError α × ParseState → Prop
  | value a v rest, r => ∃ s, r = (.ok a, s) ∧ s.At v rest
  | refusal fault, r => ∃ span s, r = (.error (.grammar span fault), s)

namespace Parse

variable {α β γ : Type} {v v' : Vocabulary} {kinds rest : List TokenKind}

/-- The step has this outcome wherever the vocabulary and the kinds ahead are the given ones. -/
def Does (p : Parse α) (v : Vocabulary) (kinds : List TokenKind) (o : Outcome α) : Prop :=
  ∀ s : ParseState, s.At v kinds → o.Of (p.run s)

namespace Does

protected theorem pure (a : α) : (pure a : Parse α).Does v kinds (.value a v kinds) :=
  fun s hs => ⟨s, rfl, hs⟩

protected theorem bind {p : Parse α} {f : α → Parse β} {a : α} {o : Outcome β}
    (hp : p.Does v kinds (.value a v' rest)) (hf : (f a).Does v' rest o) :
    (p >>= f).Does v kinds o := by
  intro s hs
  obtain ⟨s', hr, hs'⟩ := hp s hs
  rw [run_bind, hr]
  exact hf s' hs'

theorem bind_refusal {p : Parse α} {f : α → Parse β} {fault : SyntaxFault}
    (hp : p.Does v kinds (.refusal fault)) : (p >>= f).Does v kinds (.refusal fault) := by
  intro s hs
  obtain ⟨span, s', hr⟩ := hp s hs
  rw [run_bind, hr]
  exact ⟨span, s', rfl⟩

theorem failAt (span : Span) (fault : SyntaxFault) :
    (Parse.failAt span fault : Parse α).Does v kinds (.refusal fault) :=
  fun s _ => ⟨span, s, rfl⟩

theorem vocabulary_bind {f : Vocabulary → Parse β} {o : Outcome β} (h : (f v).Does v kinds o) :
    (Parse.vocabulary >>= f).Does v kinds o := by
  intro s hs
  obtain rfl := hs.vocabulary
  exact h s hs

theorem spanFrom_bind {f : Span → Parse β} {o : Outcome β} (start : Span)
    (h : ∀ span, (f span).Does v kinds o) : (spanFrom start >>= f).Does v kinds o :=
  fun s hs => h (start.merge s.last) s hs

theorem change (c : Vocabulary → α × Vocabulary) :
    (Parse.change c).Does v kinds (.value (c v).1 (c v).2 kinds) := by
  intro s hs
  obtain rfl := hs.vocabulary
  exact ⟨{ s with vocabulary := (c s.vocabulary).2 }, rfl, rfl, hs.ahead⟩

theorem peekAt_bind {f : Token → Parse β} {o : Outcome β} (n : Nat)
    (h : ∀ t : Token, t.kind = (kinds.drop n).headD .endOfInput → (f t).Does v kinds o) :
    (peekAt n >>= f).Does v kinds o := by
  intro s hs
  obtain ⟨t, ht, hk⟩ := hs.ahead.peek n
  have hr : (peekAt n).run s = (.ok t, s) := by simp [peekAt, run, ht]
  rw [run_bind, hr]
  exact h t hk s hs

theorem peek_bind {f : Token → Parse β} {o : Outcome β}
    (h : ∀ t : Token, t.kind = kinds.headD .endOfInput → (f t).Does v kinds o) :
    (peek >>= f).Does v kinds o :=
  peekAt_bind 0 (by simpa using h)

theorem bind_assoc {p : Parse α} {f : α → Parse β} {g : β → Parse γ} {o : Outcome γ}
    (h : (p >>= fun a => f a >>= g).Does v kinds o) : (p >>= f >>= g).Does v kinds o := by
  have he : (p >>= f >>= g) = p >>= fun a => f a >>= g := by
    funext s
    change ((p >>= f) >>= g).run s = _
    rw [run_bind, run_bind]
    change _ = (p >>= fun a => f a >>= g).run s
    rw [run_bind]
    rcases p.run s with ⟨r, s'⟩
    cases r with
    | ok a => rfl
    | error e => rfl
  rw [he]
  exact h

/-- At the end of the input `next` reads the end again and again. -/
theorem next_bind {f : Token → Parse β} {o : Outcome β}
    (h : ∀ t : Token, t.kind = kinds.headD .endOfInput → (f t).Does v kinds.tail o) :
    (next >>= f).Does v kinds o := by
  refine bind_assoc (peek_bind fun t ht s hs => ?_)
  exact h t ht _ ⟨hs.vocabulary, hs.ahead.advance⟩

theorem expect_bind {f : Token → Parse β} {o : Outcome β} {kind : TokenKind}
    (h : ∀ t : Token, (f t).Does v kinds o) : (expect kind >>= f).Does v (kind :: kinds) o := by
  refine bind_assoc (next_bind fun t ht => ?_)
  rw [if_pos (by simpa using ht)]
  exact Does.bind (Does.pure t) (h t)

theorem expect_end_bind {f : Token → Parse β} {o : Outcome β}
    (h : ∀ t : Token, (f t).Does v [] o) : (expect .endOfInput >>= f).Does v [] o := by
  refine bind_assoc (next_bind fun t ht => ?_)
  rw [if_pos (by simpa using ht)]
  exact Does.bind (Does.pure t) (h t)

end Does

end Parse

end Clausal
