import Clausal.Parse.Entry
import Clausal.Proofs.Interchangeable

/-!
# Comparing two runs

A reader is put together from few steps. A relation between steps that holds of those few, and of
two steps in a row where it holds of each, therefore holds of all readers. `Comparison` lists what is asked of
such a relation; what two runs are compared for is left to its instances.

The vocabularies of the two runs change on the way, so what relates two values depends on the moment.
-/
namespace Clausal

/-- What a run has gathered so far. -/
structure Moment where
  vocabulary : Vocabulary
  /-- The texts that have been included. -/
  seen : List Digest

def ParseState.moment (s : ParseState) : Moment := ⟨s.vocabulary, s.seen⟩

/-- A moment of each of two runs. -/
structure World where
  left : Moment
  right : Moment

namespace World

def matching (W : World) (spans : Span → Span → Prop) : Matching :=
  W.left.vocabulary.matching W.right.vocabulary spans

/-- Nothing gets lost between a world and a later one. -/
structure Le (W W' : World) : Prop where
  left : W.left.vocabulary.Extends W'.left.vocabulary
  right : W.right.vocabulary.Extends W'.right.vocabulary
  seenLeft : W.left.seen ⊆ W'.left.seen
  seenRight : W.right.seen ⊆ W'.right.seen

/-- No text is included between the two worlds. -/
structure Quiet (W W' : World) : Prop where
  left : W'.left.seen = W.left.seen
  right : W'.right.seen = W.right.seen

def add (W : World) (a : Addition) : World :=
  ⟨⟨a.apply W.left.vocabulary, W.left.seen⟩, ⟨a.apply W.right.vocabulary, W.right.seen⟩⟩

/-- Both runs have included a text. -/
def mark (W : World) (digest : Digest) : World :=
  ⟨⟨W.left.vocabulary, digest :: W.left.seen⟩, ⟨W.right.vocabulary, digest :: W.right.seen⟩⟩

theorem Le.refl (W : World) : W.Le W :=
  ⟨.refl _, .refl _, List.Subset.refl _, List.Subset.refl _⟩

theorem Le.trans {W W' W'' : World} (h : W.Le W') (g : W'.Le W'') : W.Le W'' :=
  ⟨h.left.trans g.left, h.right.trans g.right, List.Subset.trans h.seenLeft g.seenLeft,
    List.Subset.trans h.seenRight g.seenRight⟩

theorem Quiet.refl (W : World) : W.Quiet W := ⟨rfl, rfl⟩

theorem Quiet.trans {W W' W'' : World} (h : W.Quiet W') (g : W'.Quiet W'') : W.Quiet W'' :=
  ⟨g.left.trans h.left, g.right.trans h.right⟩

theorem le_add (W : World) (a : Addition) : W.Le (W.add a) :=
  ⟨a.extends_apply _, a.extends_apply _, List.Subset.refl _, List.Subset.refl _⟩

theorem quiet_add (W : World) (a : Addition) : W.Quiet (W.add a) := ⟨rfl, rfl⟩

theorem le_mark (W : World) (digest : Digest) : W.Le (W.mark digest) :=
  ⟨.refl _, .refl _, List.subset_cons_self _ _, List.subset_cons_self _ _⟩

theorem Le.matching {W W' : World} (h : W.Le W') (spans : Span → Span → Prop) :
    (W.matching spans).Le (W'.matching spans) :=
  Vocabulary.matching_le h.left h.right

end World

/-- A token of the same kind at a span that corresponds. -/
structure Token.Matches (spans : Span → Span → Prop) (t t' : Token) : Prop where
  kind : t.kind = t'.kind
  span : spans t.span t'.span

/-- The tokens that end a declaration. -/
def TokenKind.closes : TokenKind → Bool
  | stop | leftBrace | rightBrace => true
  | _ => false

namespace Parse

/-- How far the reading of a declaration is. -/
inductive Phase where
  /-- There is more to be read. -/
  | within
  /-- The token ahead is of a known kind. -/
  | before (kind : TokenKind)
  /-- The last token of the declaration has been read. -/
  | behind

structure Comparison where
  admits : World → Prop
  spans : Span → Span → Prop
  bounds : Nat → Nat → Prop
  /-- From a phase and a world on the two steps go together, to a phase that may depend on the
  result. -/
  relates : {α β : Type} → Phase → (α → Phase) → World → (World → α → β → Prop) →
    Parse α → Parse β → Prop
  interchangeable : ∀ {W}, admits W → W.left.vocabulary.Interchangeable W.right.vocabulary
  merge : ∀ {a b c d}, spans a b → spans c d → spans (a.merge c) (b.merge d)
  strip : ∀ {a b}, spans a b → ∀ front back, spans (a.strip front back) (b.strip front back)
  bounds_succ : ∀ {n m}, bounds (n + 1) m → ∃ m', m = m' + 1 ∧ bounds n m'
  /-- Worlds that are not admitted do not matter. -/
  assume : ∀ {α β : Type} {φ : Phase} {ψ : α → Phase} {W : World} {R : World → α → β → Prop}
    {p : Parse α} {q : Parse β}, (admits W → relates φ ψ W R p q) → relates φ ψ W R p q
  pure : ∀ {α β : Type} {φ : Phase} {ψ : α → Phase} {W : World} {R : World → α → β → Prop} {a : α}
    {b : β}, ψ a = φ → R W a b → relates φ ψ W R (pure a) (pure b)
  bind : ∀ {α β γ δ : Type} {φ : Phase} {ψ : α → Phase} {χ : γ → Phase} {W : World}
    {R : World → α → β → Prop} {S : World → γ → δ → Prop} {p : Parse α} {q : Parse β}
    {f : α → Parse γ} {g : β → Parse δ}, relates φ ψ W R p q →
      (∀ {W' a b}, W.Le W' → R W' a b → relates (ψ a) χ W' S (f a) (g b)) →
        relates φ χ W S (p >>= f) (q >>= g)
  fail : ∀ {α β : Type} {φ : Phase} {ψ : α → Phase} {W : World} {R : World → α → β → Prop}
    {e e' : ParseError}, (W.matching spans).Alike e e' → relates φ ψ W R (fail e) (fail e')
  exhausted : ∀ {α β : Type} {φ : Phase} {ψ : α → Phase} {W : World} {R : World → α → β → Prop}
    {m : Nat} {q : Parse β}, bounds 0 m → (m = 0 → q = Parse.fail (.anomaly .exhausted)) →
      relates φ ψ W R (Parse.fail (.anomaly .exhausted)) q
  /-- A step that takes its bound from the number of items ahead. -/
  sized : ∀ {α β : Type} {φ : Phase} {ψ : α → Phase} {W : World} {R : World → α → β → Prop}
    {p : Nat → Parse α} {q : Nat → Parse β} {size : Nat → Nat}, (∀ {a b}, a ≤ b → size a ≤ size b) →
      (∀ {n m}, bounds n m → relates φ ψ W R (p n) (q m)) →
        relates φ ψ W R (fun s => p (size s.ahead.items.length) s)
          (fun s => q (size s.ahead.items.length) s)
  reopen : ∀ {α β : Type} {ψ : α → Phase} {W : World} {R : World → α → β → Prop} {p : Parse α}
    {q : Parse β} (kind : TokenKind), relates .within ψ W R p q → relates (.before kind) ψ W R p q
  vocabulary : ∀ {φ W}, relates φ (fun _ => φ) W
    (fun W' v w => W' = W ∧ v = W.left.vocabulary ∧ w = W.right.vocabulary) vocabulary vocabulary
  change : ∀ {α β : Type} {φ W} (a : Addition) {c : Vocabulary → α × Vocabulary}
    {d : Vocabulary → β × Vocabulary}, (∀ v, (c v).2 = a.apply v) → (∀ v, (d v).2 = a.apply v) →
      relates φ (fun _ => φ) W (fun W' x y => W' = W.add a ∧ x = (c W.left.vocabulary).1 ∧
        y = (d W.right.vocabulary).1) (change c) (change d)
  spanFrom : ∀ {φ W a b}, spans a b →
    relates φ (fun _ => φ) W (fun W' x y => W' = W ∧ spans x y) (spanFrom a) (spanFrom b)
  peek : ∀ {W}, relates .within (fun t => .before t.kind) W
    (fun W' t t' => W' = W ∧ t.Matches spans t') peek peek
  /-- Behind a name the next token may be looked at. -/
  peekBehind : ∀ {W kind}, kind.name?.isSome = true → relates (.before kind) (fun _ => .before kind) W
    (fun W' t t' => W' = W ∧ t.Matches spans t') (peekAt 1) (peekAt 1)
  next : ∀ {W}, relates .within (fun _ => .within) W
    (fun W' t t' => W' = W ∧ t.Matches spans t') Parse.next Parse.next
  close : ∀ {W kind}, kind.closes = true → relates (.before kind) (fun _ => .behind) W
    (fun W' t t' => W' = W ∧ t.Matches spans t') Parse.next Parse.next
  expectClose : ∀ {W kind}, kind.closes = true → relates .within (fun _ => .behind) W
    (fun W' t t' => W' = W ∧ t.Matches spans t') (expect kind) (expect kind)

namespace Comparison

variable (C : Comparison)

/-- Terms that are read alike. -/
abbrev terms (W : World) (a b : Term) : Prop := a.Matches (W.matching C.spans) b

abbrev termLists (W : World) (as bs : List Term) : Prop :=
  Term.MatchesAll (W.matching C.spans) as bs

abbrev alike {α : Type} [Labeled α] (W : World) (a b : α) : Prop :=
  (W.matching C.spans).Alike a b

/-- Two steps that go together and include no text. -/
abbrev reads {α β : Type} (φ : Phase) (ψ : α → Phase) (W : World) (R : World → α → β → Prop)
    (p : Parse α) (q : Parse β) : Prop :=
  C.relates φ ψ W (fun W' a b => W.Quiet W' ∧ R W' a b) p q

/-- Steps in the midst of a declaration. -/
abbrev Reads {α β : Type} (W : World) (R : World → α → β → Prop) (p : Parse α) (q : Parse β) : Prop :=
  C.reads .within (fun _ => .within) W R p q

variable {C} {α β γ δ : Type} {φ : Phase} {ψ : α → Phase} {χ : γ → Phase} {W W' : World}
variable {R : World → α → β → Prop} {S : World → γ → δ → Prop}
variable {p : Parse α} {q : Parse β} {f : α → Parse γ} {g : β → Parse δ}

theorem terms_mono {a b : Term} (hle : W.Le W') (h : C.terms W a b) : C.terms W' a b :=
  h.mono (hle.matching C.spans)

theorem alike_mono [Labeled α] {a b : α} (hle : W.Le W') (h : C.alike W a b) : C.alike W' a b :=
  h.mono (hle.matching C.spans)

theorem bind_pure_eq (p : Parse α) : (p >>= Pure.pure) = p := by
  funext s
  change (p >>= Pure.pure).run s = p.run s
  rw [run_bind]
  rcases p.run s with ⟨r, s'⟩
  cases r <;> rfl

theorem weaken {R' : World → α → β → Prop} (h : C.relates φ ψ W R p q)
    (hR : ∀ {W' a b}, W.Le W' → R W' a b → R' W' a b) : C.relates φ ψ W R' p q := by
  have hb := C.bind (χ := ψ) (S := R') (f := Pure.pure) (g := Pure.pure) h fun hle hab =>
    C.pure rfl (hR hle hab)
  rwa [bind_pure_eq, bind_pure_eq] at hb

theorem reads_pure {a : α} {b : β} (hψ : ψ a = φ) (h : R W a b) :
    C.reads φ ψ W R (Pure.pure a) (Pure.pure b) :=
  C.pure hψ ⟨.refl W, h⟩

theorem reads_bind (hp : C.reads φ ψ W R p q)
    (hf : ∀ {W' a b}, W.Le W' → R W' a b → C.reads (ψ a) χ W' S (f a) (g b)) :
    C.reads φ χ W S (p >>= f) (q >>= g) := by
  refine C.bind hp fun hle hab => ?_
  exact weaken (hf hle hab.2) fun _ hcd => ⟨hab.1.trans hcd.1, hcd.2⟩

/-- Steps that include nothing, in front of others. -/
theorem bind_reads (hp : C.reads φ ψ W R p q)
    (hf : ∀ {W' a b}, W.Le W' → W.Quiet W' → R W' a b → C.relates (ψ a) χ W' S (f a) (g b)) :
    C.relates φ χ W S (p >>= f) (q >>= g) :=
  C.bind hp fun hle hab => hf hle hab.1 hab.2

section

variable {χ : γ → Phase} {S : World → γ → δ → Prop}

theorem vocabulary_bind {f : Vocabulary → Parse γ} {g : Vocabulary → Parse δ}
    (h : C.relates φ χ W S (f W.left.vocabulary) (g W.right.vocabulary)) :
    C.relates φ χ W S (Parse.vocabulary >>= f) (Parse.vocabulary >>= g) := by
  refine C.bind C.vocabulary ?_
  rintro W' v w - ⟨rfl, rfl, rfl⟩
  exact h

theorem peek_bind {f : Token → Parse γ} {g : Token → Parse δ}
    (h : ∀ {t t'}, t.Matches C.spans t' → C.relates (.before t.kind) χ W S (f t) (g t')) :
    C.relates .within χ W S (Parse.peek >>= f) (Parse.peek >>= g) := by
  refine C.bind C.peek ?_
  rintro W' t t' - ⟨rfl, ht⟩
  exact h ht

theorem peekBehind_bind {kind : TokenKind} {f : Token → Parse γ} {g : Token → Parse δ}
    (hk : kind.name?.isSome = true)
    (h : ∀ {t t'}, t.Matches C.spans t' → C.relates (.before kind) χ W S (f t) (g t')) :
    C.relates (.before kind) χ W S (peekAt 1 >>= f) (peekAt 1 >>= g) := by
  refine C.bind (C.peekBehind hk) ?_
  rintro W' t t' - ⟨rfl, ht⟩
  exact h ht

theorem next_bind {f : Token → Parse γ} {g : Token → Parse δ}
    (h : ∀ {t t'}, t.Matches C.spans t' → C.relates .within χ W S (f t) (g t')) :
    C.relates .within χ W S (Parse.next >>= f) (Parse.next >>= g) := by
  refine C.bind C.next ?_
  rintro W' t t' - ⟨rfl, ht⟩
  exact h ht

theorem close_bind {kind : TokenKind} {f : Token → Parse γ} {g : Token → Parse δ}
    (hk : kind.closes = true)
    (h : ∀ {t t'}, t.Matches C.spans t' → C.relates .behind χ W S (f t) (g t')) :
    C.relates (.before kind) χ W S (Parse.next >>= f) (Parse.next >>= g) := by
  refine C.bind (C.close hk) ?_
  rintro W' t t' - ⟨rfl, ht⟩
  exact h ht

theorem expectClose_bind {kind : TokenKind} {f : Token → Parse γ} {g : Token → Parse δ}
    (hk : kind.closes = true) (h : ∀ {t t'}, C.relates .behind χ W S (f t) (g t')) :
    C.relates .within χ W S (expect kind >>= f) (expect kind >>= g) := by
  refine C.bind (C.expectClose hk) ?_
  rintro W' t t' - ⟨rfl, -⟩
  exact h

theorem spanFrom_bind {a b : Span} {f : Span → Parse γ} {g : Span → Parse δ} (hab : C.spans a b)
    (h : ∀ {x y}, C.spans x y → C.relates φ χ W S (f x) (g y)) :
    C.relates φ χ W S (Parse.spanFrom a >>= f) (Parse.spanFrom b >>= g) := by
  refine C.bind (C.spanFrom hab) ?_
  rintro W' x y - ⟨rfl, hxy⟩
  exact h hxy

theorem failAt {a b : Span} (hab : C.spans a b) (fault : SyntaxFault) :
    C.relates φ ψ W R (Parse.failAt a fault) (Parse.failAt b fault) :=
  C.fail fun _ _ hj => congrArg (ParseError.grammar · fault) (hj.span hab)

theorem failExpected {t t' : Token} (ht : t.Matches C.spans t') (what : Expected) :
    C.relates φ ψ W R (Parse.failExpected what t) (Parse.failExpected what t') := by
  unfold Parse.failExpected
  rw [← ht.kind]
  exact failAt ht.span _

theorem failInteger {a b : Span} (hab : C.spans a b) :
    C.relates φ ψ W R (Parse.fail (.integer a)) (Parse.fail (.integer b)) :=
  C.fail fun _ _ hj => congrArg ParseError.integer (hj.span hab)

theorem expect_bind (kind : TokenKind) {f : Token → Parse γ} {g : Token → Parse δ}
    (h : ∀ {t t'}, t.Matches C.spans t' → C.relates .within χ W S (f t) (g t')) :
    C.relates .within χ W S (expect kind >>= f) (expect kind >>= g) := by
  have he : C.relates .within (fun _ => .within) W (fun W' t t' => W' = W ∧ t.Matches C.spans t')
      (expect kind) (expect kind) := by
    refine next_bind fun {t t'} ht => ?_
    rw [ht.kind]
    split_ifs
    · exact C.pure rfl ⟨rfl, ht⟩
    · exact failExpected ht _
  refine C.bind he ?_
  rintro W' t t' - ⟨rfl, ht⟩
  exact h ht

theorem eatSymbol_bind (name : String) {f : Bool → Parse γ} {g : Bool → Parse δ}
    (h : ∀ {b}, C.relates .within χ W S (f b) (g b)) :
    C.relates .within χ W S (eatSymbol name >>= f) (eatSymbol name >>= g) := by
  have he : C.relates .within (fun _ => .within) W (fun W' b b' => W' = W ∧ b = b')
      (eatSymbol name) (eatSymbol name) := by
    refine peek_bind fun {t t'} ht => C.reopen _ ?_
    have hs : t.isSymbol name = t'.isSymbol name := by rw [Token.isSymbol, Token.isSymbol, ht.kind]
    rw [hs]
    split_ifs
    · exact next_bind fun _ => C.pure rfl ⟨rfl, rfl⟩
    · exact C.pure rfl ⟨rfl, rfl⟩
  refine C.bind he ?_
  rintro W' b b' - ⟨rfl, rfl⟩
  exact h

end

theorem reads_change (a : Addition) {c : Vocabulary → α × Vocabulary} {d : Vocabulary → β × Vocabulary}
    (hc : ∀ v, (c v).2 = a.apply v) (hd : ∀ v, (d v).2 = a.apply v)
    (h : C.admits W → R (W.add a) (c W.left.vocabulary).1 (d W.right.vocabulary).1) :
    C.reads φ (fun _ => φ) W R (Parse.change c) (Parse.change d) := by
  refine C.assume fun hW => weaken (C.change a hc hd) ?_
  rintro W' x y - ⟨rfl, rfl, rfl⟩
  exact ⟨W.quiet_add a, h hW⟩

theorem reads_intern (name : String) :
    C.reads φ (fun _ => φ) W C.alike (Parse.change (·.intern name)) (Parse.change (·.intern name)) :=
  reads_change (.name name) (fun _ => rfl) (fun _ => rfl) fun _ =>
    Matching.alike_symbol (Vocabulary.sameName_intern _ _ name)

theorem reads_constant (name : String) :
    C.reads φ (fun _ => φ) W C.terms (Parse.change (·.constant name))
      (Parse.change (·.constant name)) :=
  reads_change (.name name) (fun _ => rfl) (fun _ => rfl) fun _ =>
    Vocabulary.sameName_intern _ _ name

theorem reads_freshVariable :
    C.reads φ (fun _ => φ) W C.terms (Parse.change (·.freshVariable))
      (Parse.change (·.freshVariable)) :=
  reads_change .variable (fun _ => rfl) (fun _ => rfl) fun hW =>
    (C.interchangeable hW).sameName_freshVariable

theorem reads_lambda (binder : String) {a b : Term} (h : C.terms W a b) :
    C.reads φ (fun _ => φ) W C.terms (Parse.change (·.lambda binder a))
      (Parse.change (·.lambda binder b)) :=
  reads_change (.name binder) (fun _ => rfl) (fun _ => rfl) fun _ =>
    ⟨Vocabulary.sameName_intern _ _ binder, terms_mono (W.le_add _) h⟩

/-- Both go on, or both are done. -/
def roundRel (A : World → α → β → Prop) (B : World → γ → δ → Prop) (W : World) :
    Round α γ → Round β δ → Prop
  | .again a, .again b => A W a b
  | .done c, .done d => B W c d
  | _, _ => False

def roundPhase (φ : Phase) : Round α γ → Phase
  | .again _ => .within
  | .done _ => φ

theorem rounds {A : World → α → β → Prop} {B : World → γ → δ → Prop} {body : α → Parse (Round α γ)}
    {body' : β → Parse (Round β δ)}
    (hbody : ∀ {W' a b}, W.Le W' → A W' a b →
      C.relates .within (roundPhase φ) W' (roundRel A B) (body a) (body' b))
    {n m : Nat} (hnm : C.bounds n m) {a : α} {b : β} (hab : A W a b) :
    C.relates .within (fun _ => φ) W B (Parse.rounds body n a) (Parse.rounds body' m b) := by
  induction n generalizing m W a b with
  | zero => exact C.exhausted hnm fun hm => by rw [hm]; rfl
  | succ n ih =>
    obtain ⟨m, rfl, hlt⟩ := C.bounds_succ hnm
    refine C.bind (hbody (.refl W) hab) ?_
    rintro W' (a | c) (b | d) hle hr
    · exact ih (fun hle' => hbody (hle.trans hle')) hlt hr
    · exact hr.elim
    · exact hr.elim
    · exact C.pure rfl hr

theorem repeated {A : World → α → β → Prop} {B : World → γ → δ → Prop} {body : α → Parse (Round α γ)}
    {body' : β → Parse (Round β δ)} {a : α} {b : β} (hab : A W a b)
    (hbody : ∀ {W' a b}, W.Le W' → A W' a b →
      C.relates .within (roundPhase φ) W' (roundRel A B) (body a) (body' b)) :
    C.relates .within (fun _ => φ) W B (Parse.repeated body a) (Parse.repeated body' b) :=
  C.sized (fun h => Nat.succ_le_succ h) fun hnm => rounds hbody hnm hab

/-- A repetition that includes nothing. -/
theorem reads_repeated {A : World → α → β → Prop} {B : World → γ → δ → Prop}
    {body : α → Parse (Round α γ)} {body' : β → Parse (Round β δ)} {a : α} {b : β} (hab : A W a b)
    (hbody : ∀ {W' a b}, W.Le W' → A W' a b →
      C.reads .within (roundPhase φ) W' (roundRel A B) (body a) (body' b)) :
    C.reads .within (fun _ => φ) W B (Parse.repeated body a) (Parse.repeated body' b) := by
  refine repeated (A := fun W' a b => W.Quiet W' ∧ A W' a b) ⟨.refl W, hab⟩ fun {W' a b} hle h => ?_
  refine weaken (hbody hle h.2) ?_
  rintro W'' (a | c) (b | d) - ⟨hq, hr⟩
  · exact ⟨h.1.trans hq, hr⟩
  · exact hr
  · exact hr
  · exact ⟨h.1.trans hq, hr⟩

end Comparison

end Parse

end Clausal
