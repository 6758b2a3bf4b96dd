import Clausal.Proofs.ComparedPrograms

/-!
# Runs in step

Two runs over items that correspond stay in step: they succeed together or fail together, and the
worlds they reach are admitted again. The comparison may be given up once the first run has included a text that
spoils it. For that case it is kept on record what the first run does by itself.
-/
namespace Clausal

def Item.Matches (spans : Span → Span → Prop) : Item → Item → Prop
  | .token t, .token t' => t.Matches spans t'
  | .fault e, .fault e' => spans e.span e'.span ∧ e.fault = e'.fault
  | _, _ => False

structure Scan.Matches (spans : Span → Span → Prop) (s s' : Scan) : Prop where
  items : List.Forall₂ (Item.Matches spans) s.items s'.items
  last : s.last.Matches spans s'.last

namespace Item

variable {spans : Span → Span → Prop}

theorem Matches.refl (h : ∀ a, spans a a) (i : Item) : i.Matches spans i := by
  cases i with
  | token t => exact ⟨rfl, h _⟩
  | fault e => exact ⟨h _, rfl⟩

end Item

namespace Scan

variable {spans : Span → Span → Prop}

theorem Matches.refl (h : ∀ a, spans a a) (s : Scan) : s.Matches spans s :=
  ⟨List.forall₂_same.2 fun _ _ => .refl h _, .refl h _⟩

theorem Matches.get {s s' : Scan} (h : s.Matches spans s') (n : Nat) : (s.get n).Matches spans (s'.get n) := by
  have hget : ∀ {items items' : List Item} {last last' : Item}, last.Matches spans last' →
      List.Forall₂ (Item.Matches spans) items items' → ∀ n,
        ((Scan.mk items last).get n).Matches spans ((Scan.mk items' last').get n) := by
    intro items items' last last' hlast hitems
    induction hitems with
    | nil => exact fun _ => hlast
    | cons hitem _ ih =>
      intro n
      cases n with
      | zero => exact hitem
      | succ n => exact ih n
  exact hget h.last h.items n

theorem Matches.advance {s s' : Scan} (h : s.Matches spans s') : s.advance.Matches spans s'.advance := by
  obtain ⟨items, last⟩ := s
  obtain ⟨items', last'⟩ := s'
  obtain ⟨hi, hl⟩ := h
  refine ⟨?_, hl⟩
  change List.Forall₂ (Item.Matches spans) items items' at hi
  cases hi with
  | nil => exact .nil
  | cons _ hrest => exact hrest

theorem peekItem_matches {last last' : Item} (hl : last.Matches spans last') :
    ∀ (n : Nat) {items items' : List Item}, List.Forall₂ (Item.Matches spans) items items' →
      ExceptRel (fun e e' : ScanError => spans e.span e'.span ∧ e.fault = e'.fault)
        (Token.Matches spans) (peekItem last n items).1 (peekItem last' n items').1 ∧
      List.Forall₂ (Item.Matches spans) (peekItem last n items).2 (peekItem last' n items').2 := by
  intro n items items' h
  induction h generalizing n with
  | nil =>
    match last, last', hl with
    | .token t, .token t', ht => cases n <;> exact ⟨ht, .nil⟩
    | .fault e, .fault e', he => cases n <;> exact ⟨he, .nil⟩
  | @cons i i' rest rest' hi hrest ih =>
    match i, i', hi with
    | .fault e, .fault e', he => cases n <;> exact ⟨he, hrest⟩
    | .token t, .token t', ht =>
      cases n with
      | zero => exact ⟨ht, .cons ht hrest⟩
      | succ n =>
        obtain ⟨hfound, hafter⟩ := ih n
        exact ⟨hfound, .cons ht hafter⟩

theorem Matches.peek {s s' : Scan} (h : s.Matches spans s') (n : Nat) :
    ExceptRel (fun e e' : ScanError => spans e.span e'.span ∧ e.fault = e'.fault)
        (Token.Matches spans) (s.peek n).1 (s'.peek n).1 ∧
      (s.peek n).2.Matches spans (s'.peek n).2 := by
  obtain ⟨hfound, hitems⟩ := peekItem_matches h.last n h.items
  exact ⟨hfound, hitems, h.last⟩

end Scan

namespace Parse

structure Pairing where
  admits : World → Prop
  spans : Span → Span → Prop
  /-- With these texts the first run is no longer compared. -/
  spoiled : List Digest → Prop
  interchangeable : ∀ {W}, admits W → W.left.vocabulary.Interchangeable W.right.vocabulary
  admits_add : ∀ {W} a, admits W → admits (W.add a)
  refl : ∀ a, spans a a
  merge : ∀ {a b c d}, spans a b → spans c d → spans (a.merge c) (b.merge d)
  strip : ∀ {a b}, spans a b → ∀ front back, spans (a.strip front back) (b.strip front back)
  spoiled_mono : ∀ {xs ys}, xs ⊆ ys → spoiled xs → spoiled ys

namespace Pairing

variable (P : Pairing) {α β γ δ : Type}

/-- The runs are in this world, with items that correspond ahead. -/
structure InStep (W : World) (s s' : ParseState) : Prop where
  left : s.moment = W.left
  right : s'.moment = W.right
  ahead : s.ahead.Matches P.spans s'.ahead
  last : P.spans s.last s'.last

/-- What the first run does by itself. -/
def Alone (W : World) (R : World → α → β → Prop) (p : Parse α) : Prop :=
  ∀ s : ParseState, s.moment = W.left → ∃ W', W.Le W' ∧ P.admits W' ∧ (p s).2.moment = W'.left ∧
    ∀ a, (p s).1 = .ok a → ∃ b, R W' a b

/-- Both runs have succeeded in step, or both have failed. -/
def EndsIn (W : World) (R : World → α → β → Prop) :
    Except ParseError α × ParseState → Except ParseError β × ParseState → Prop
  | (.ok a, s), (.ok b, s') => R W a b ∧ P.InStep W s s'
  | (.error e, s), (.error e', s') =>
    (W.matching P.spans).Alike e e' ∧ s.moment = W.left ∧ s'.moment = W.right
  | _, _ => False

def Together (W : World) (R : World → α → β → Prop) (p : Parse α) (q : Parse β) : Prop :=
  ∀ s s', P.InStep W s s' → P.spoiled (p s).2.seen ∨
    ∃ W', W.Le W' ∧ P.admits W' ∧ P.EndsIn W' R (p s) (q s')

/-- Steps that keep two runs in step. -/
structure Keeps (W : World) (R : World → α → β → Prop) (p : Parse α) (q : Parse β) : Prop where
  alone : P.Alone W R p
  together : P.Together W R p q

variable {P} {W : World} {R : World → α → β → Prop} {S : World → γ → δ → Prop}
variable {p : Parse α} {q : Parse β} {f : α → Parse γ} {g : β → Parse δ}

theorem bind_of_ok {s s₁ : ParseState} {a : α} (h : p s = (.ok a, s₁)) : (p >>= f) s = f a s₁ := by
  have hrun : p.run s = (.ok a, s₁) := h
  change (p >>= f).run s = _
  rw [run_bind, hrun]
  rfl

theorem bind_of_error {s s₁ : ParseState} {e : ParseError} (h : p s = (.error e, s₁)) :
    (p >>= f) s = (.error e, s₁) := by
  have hrun : p.run s = (.error e, s₁) := h
  change (p >>= f).run s = _
  rw [run_bind, hrun]

/-- A change leaves the vocabulary that the addition makes of the one before. -/
theorem change_ends {a : Addition} {c : Vocabulary → α × Vocabulary} (hc : ∀ v, (c v).2 = a.apply v)
    {s : ParseState} {m : Moment} (hs : s.moment = m) :
    (change c s).2.moment = ⟨a.apply m.vocabulary, m.seen⟩ ∧ (change c s).1 = .ok (c m.vocabulary).1 := by
  subst hs
  exact ⟨congrArg (Moment.mk · s.seen) (hc s.vocabulary), rfl⟩

theorem Alone.bind (hp : P.Alone W R p)
    (hf : ∀ {W' a b}, W.Le W' → P.admits W' → R W' a b → P.Alone W' S (f a)) :
    P.Alone W S (p >>= f) := by
  intro s hs
  obtain ⟨W₁, hle, hW₁, hm, hr⟩ := hp s hs
  rcases hps : p s with ⟨_ | a, s₁⟩
  · rw [bind_of_error hps]
    rw [hps] at hm
    exact ⟨W₁, hle, hW₁, hm, by simp⟩
  · rw [hps] at hm hr
    obtain ⟨b, hab⟩ := hr a rfl
    obtain ⟨W₂, hle', hW₂, hm', hr'⟩ := hf hle hW₁ hab s₁ hm
    rw [bind_of_ok hps]
    exact ⟨W₂, hle.trans hle', hW₂, hm', hr'⟩

/-- Nothing that has been seen is forgotten. -/
theorem Alone.seen_subset (hp : P.Alone W R p) {s : ParseState} (hs : s.moment = W.left) :
    s.seen ⊆ (p s).2.seen := by
  obtain ⟨W', hle, -, hm, -⟩ := hp s hs
  have h₁ : s.seen = W.left.seen := congrArg Moment.seen hs
  have h₂ : (p s).2.seen = W'.left.seen := congrArg Moment.seen hm
  rw [h₁, h₂]
  exact hle.seenLeft

theorem Keeps.bind (hp : P.Keeps W R p q)
    (hf : ∀ {W' a b}, W.Le W' → P.admits W' → R W' a b → P.Keeps W' S (f a) (g b)) :
    P.Keeps W S (p >>= f) (q >>= g) := by
  refine ⟨hp.alone.bind fun hle hW hab => (hf hle hW hab).alone, fun s s' hs => ?_⟩
  rcases hps : p s with ⟨_ | a, s₁⟩
  · have ht := hp.together s s' hs
    rw [bind_of_error hps]
    rw [hps] at ht
    refine ht.imp_right ?_
    rintro ⟨W', hle, hW', he⟩
    rcases hqs : q s' with ⟨_ | b, s₁'⟩
    · rw [hqs] at he
      rw [bind_of_error hqs]
      exact ⟨W', hle, hW', he⟩
    · rw [hqs] at he
      exact he.elim
  · rw [bind_of_ok hps]
    rcases hp.together s s' hs with hspoiled | ⟨W', hle, hW', he⟩
    · -- Once spoiled, the rest of the first run keeps what it has seen.
      obtain ⟨W₁, hle, hW₁, hm, hr⟩ := hp.alone s hs.left
      rw [hps] at hm hr hspoiled
      obtain ⟨b, hab⟩ := hr a rfl
      exact .inl (P.spoiled_mono ((hf hle hW₁ hab).alone.seen_subset hm) hspoiled)
    · rcases hqs : q s' with ⟨_ | b, s₁'⟩
      · rw [hps, hqs] at he
        exact he.elim
      · rw [hps, hqs] at he
        obtain ⟨hab, hs₁⟩ := he
        rw [bind_of_ok hqs]
        refine ((hf hle hW' hab).together s₁ s₁' hs₁).imp_right ?_
        rintro ⟨W'', hle', hW'', he⟩
        exact ⟨W'', hle.trans hle', hW'', he⟩

/-- A step that leaves the world as it is. -/
theorem keeps_of_still (hW : P.admits W) (hp : ∀ s, (p s).2.moment = s.moment)
    (hr : ∀ s a, s.moment = W.left → (p s).1 = .ok a → ∃ b, R W a b)
    (ht : ∀ s s', P.InStep W s s' → P.EndsIn W R (p s) (q s')) : P.Keeps W R p q where
  alone s hs := ⟨W, .refl W, hW, (hp s).trans hs, fun a => hr s a hs⟩
  together s s' hs := .inr ⟨W, .refl W, hW, ht s s' hs⟩

theorem keeps_pure {a : α} {b : β} (hW : P.admits W) (h : R W a b) :
    P.Keeps W R (pure a) (pure b) :=
  keeps_of_still hW (fun _ => rfl) (fun _ _ _ hc => ⟨b, Except.ok.inj hc ▸ h⟩) fun _ _ hs => ⟨h, hs⟩

theorem keeps_fail {e e' : ParseError} (hW : P.admits W) (h : (W.matching P.spans).Alike e e') :
    P.Keeps W R (fail e : Parse α) (fail e' : Parse β) := by
  refine keeps_of_still hW (fun _ => rfl) (fun s a _ hc => ?_) fun s s' hs => ⟨h, hs.left, hs.right⟩
  exact absurd hc (by simp [fail])

theorem keeps_peekAt (hW : P.admits W) (n : Nat) :
    P.Keeps W (fun W' t t' => W' = W ∧ t.Matches P.spans t') (peekAt n) (peekAt n) := by
  have hmoment : ∀ s, (peekAt n s).2.moment = s.moment := by
    intro s
    rcases h : s.ahead.peek n with ⟨_ | t, ahead⟩ <;> simp [peekAt, h, ParseState.moment]
  refine keeps_of_still hW hmoment (fun s t _ _ => ⟨t, rfl, rfl, P.refl _⟩) fun s s' hs => ?_
  obtain ⟨hfound, hahead⟩ := hs.ahead.peek n
  rcases hl : s.ahead.peek n with ⟨e | t, ahead⟩ <;> rcases hr : s'.ahead.peek n with ⟨e' | t', ahead'⟩ <;>
    rw [hl, hr] at hfound hahead <;> simp only [peekAt, hl, hr]
  · refine ⟨fun r r' hj => ?_, hs.left, hs.right⟩
    simp only [relabel, ParseError.relabeled, hj.span hfound.1, hfound.2]
  · exact hfound.elim
  · exact hfound.elim
  · exact ⟨⟨rfl, hfound⟩, hs.left, hs.right, hahead, hs.last⟩

theorem keeps_next (hW : P.admits W) :
    P.Keeps W (fun W' t t' => W' = W ∧ t.Matches P.spans t') next next := by
  refine (keeps_peekAt hW 0).bind fun {W' t t'} _ _ h => ?_
  obtain ⟨rfl, ht⟩ := h
  refine keeps_of_still hW (fun _ => rfl) (fun _ u _ hu => ⟨t', rfl, Except.ok.inj hu ▸ ht⟩) fun s s' hs => ?_
  exact ⟨⟨rfl, ht⟩, hs.left, hs.right, hs.ahead.advance, ht.span⟩

theorem keeps_expect (hW : P.admits W) (kind : TokenKind) :
    P.Keeps W (fun W' t t' => W' = W ∧ t.Matches P.spans t') (expect kind) (expect kind) := by
  refine (keeps_next hW).bind fun {W' t t'} _ _ h => ?_
  obtain ⟨rfl, ht⟩ := h
  rw [ht.kind]
  split_ifs
  · exact keeps_pure hW ⟨rfl, ht⟩
  · unfold failExpected failAt
    rw [ht.kind]
    exact keeps_fail hW fun _ _ hj => congrArg (ParseError.grammar · _) (hj.span ht.span)

theorem keeps_change (hW : P.admits W) (a : Addition) {c : Vocabulary → α × Vocabulary}
    {d : Vocabulary → β × Vocabulary} (hc : ∀ v, (c v).2 = a.apply v) (hd : ∀ v, (d v).2 = a.apply v) :
    P.Keeps W (fun W' x y => W' = W.add a ∧ x = (c W.left.vocabulary).1 ∧
      y = (d W.right.vocabulary).1) (change c) (change d) := by
  refine ⟨fun s hs => ?_, fun s s' hs => .inr ?_⟩
  · obtain ⟨hm, hr⟩ := change_ends hc hs
    refine ⟨W.add a, W.le_add a, P.admits_add a hW, hm, fun x hx => ⟨_, rfl, ?_, rfl⟩⟩
    exact (Except.ok.inj (hr.symm.trans hx)).symm
  · obtain ⟨hm, hr⟩ := change_ends hc hs.left
    obtain ⟨hm', hr'⟩ := change_ends hd hs.right
    refine ⟨W.add a, W.le_add a, P.admits_add a hW, ⟨rfl, ?_, ?_⟩, hm, hm', hs.ahead, hs.last⟩
    · exact Except.ok.inj hr
    · exact Except.ok.inj hr'

theorem keeps_sized {p : Nat → Parse α} {q : Nat → Parse β} (size : Nat → Nat)
    (h : ∀ n, P.Keeps W R (p n) (q n)) :
    P.Keeps W R (fun s => p (size s.ahead.items.length) s)
      (fun s => q (size s.ahead.items.length) s) := by
  refine ⟨fun s hs => (h _).alone s hs, fun s s' hs => ?_⟩
  have ht := (h (size s.ahead.items.length)).together s s' hs
  have hlen : s'.ahead.items.length = s.ahead.items.length := hs.ahead.items.length_eq.symm
  simpa only [hlen] using ht

/-- Runs in step are a comparison, whatever the phases are. -/
def comparison (P : Pairing) : Comparison where
  admits := P.admits
  spans := P.spans
  bounds := Eq
  relates _ _ W R p q := P.admits W → P.Keeps W R p q
  interchangeable := P.interchangeable
  merge := P.merge
  strip := P.strip
  bounds_succ := fun h => ⟨_, h.symm, rfl⟩
  assume h hW := h hW hW
  pure _ h hW := keeps_pure hW h
  bind hp hf hW := (hp hW).bind fun hle hW' hab => hf hle hab hW'
  fail h hW := keeps_fail hW h
  exhausted h hq hW := by
    rw [hq h.symm]
    exact keeps_fail hW fun _ _ _ => rfl
  sized {_ _ _ _ _ _ _ _ size} _ h hW := keeps_sized size fun _ => h rfl hW
  reopen _ h := h
  vocabulary hW := by
    refine keeps_of_still hW (fun _ => rfl) (fun s v hs hv => ⟨_, rfl, ?_, rfl⟩) fun s s' hs => ?_
    · exact (Except.ok.inj hv).symm.trans (congrArg Moment.vocabulary hs)
    · exact ⟨⟨rfl, congrArg Moment.vocabulary hs.left, congrArg Moment.vocabulary hs.right⟩, hs⟩
  change {_ _ _ _} a {_ _} hc hd hW := keeps_change hW a hc hd
  spanFrom {_ _ a b} hab hW := by
    refine keeps_of_still hW (fun _ => rfl) (fun s x _ hx => ⟨b.merge s.last, rfl, ?_⟩) fun s s' hs => ?_
    · rw [← Except.ok.inj hx]
      exact P.merge hab (P.refl _)
    · exact ⟨⟨rfl, P.merge hab hs.last⟩, hs⟩
  peek hW := keeps_peekAt hW 0
  peekBehind _ hW := keeps_peekAt hW 1
  next hW := keeps_next hW
  close _ hW := keeps_next hW
  expectClose _ hW := keeps_expect hW _

end Pairing

end Parse

end Clausal
