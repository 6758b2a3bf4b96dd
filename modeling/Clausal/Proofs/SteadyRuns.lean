import Clausal.Proofs.DeclarationRows

/-!
# Reading goes on after an error

Whether a reader succeeds or fails, it leaves a vocabulary that is sound, forgets no text that has been
included, and the items that are left end as they did. So the next reader begins in a state that is as good as
any.
-/
namespace Clausal.Parse

/-- From any state of this world the step comes to a later world, also when it fails, and the scan ends as
before. -/
def Follows {α β : Type} (W : World) (R : World → α → β → Prop) (p : Parse α) : Prop :=
  ∀ s : ParseState, s.moment = W.left → ∃ W', W.Le W' ∧ Pairing.diagonal.admits W' ∧
    (p s).2.moment = W'.left ∧ (p s).2.ahead.last = s.ahead.last ∧
    ∀ a, (p s).1 = .ok a → ∃ b, R W' a b

namespace Follows

variable {α β γ δ : Type} {W : World} {R : World → α → β → Prop} {S : World → γ → δ → Prop}
variable {p : Parse α} {f : α → Parse γ}

theorem bind (hp : Follows W R p)
    (hf : ∀ {W' a b}, W.Le W' → Pairing.diagonal.admits W' → R W' a b → Follows W' S (f a)) :
    Follows W S (p >>= f) := by
  intro s hs
  obtain ⟨W₁, hle, hW₁, hm, hlast, hr⟩ := hp s hs
  rcases hps : p s with ⟨_ | a, s₁⟩
  · rw [hps] at hm hlast
    rw [Pairing.bind_of_error hps]
    exact ⟨W₁, hle, hW₁, hm, hlast, fun _ h => (by cases h)⟩
  · rw [hps] at hm hlast hr
    obtain ⟨b, hab⟩ := hr a rfl
    obtain ⟨W₂, hle', hW₂, hm', hlast', hr'⟩ := hf hle hW₁ hab s₁ hm
    rw [Pairing.bind_of_ok hps]
    exact ⟨W₂, hle.trans hle', hW₂, hm', hlast'.trans hlast, hr'⟩

/-- A step that leaves the world as it is. -/
theorem of_still (hW : Pairing.diagonal.admits W)
    (hp : ∀ s, (p s).2.moment = s.moment ∧ (p s).2.ahead.last = s.ahead.last)
    (hr : ∀ s a, s.moment = W.left → (p s).1 = .ok a → ∃ b, R W a b) : Follows W R p :=
  fun s hs => ⟨W, .refl W, hW, (hp s).1.trans hs, (hp s).2, fun a => hr s a hs⟩

theorem pure {a : α} {b : β} (hW : Pairing.diagonal.admits W) (h : R W a b) :
    Follows W R (Pure.pure a) :=
  of_still hW (fun _ => ⟨rfl, rfl⟩) fun _ _ _ hc => ⟨b, Except.ok.inj hc ▸ h⟩

theorem fail {e : ParseError} (hW : Pairing.diagonal.admits W) : Follows W R (Parse.fail e) :=
  of_still hW (fun _ => ⟨rfl, rfl⟩) fun _ _ _ hc => (by cases hc)

theorem peekAt (hW : Pairing.diagonal.admits W) (n : Nat) :
    Follows W (fun W' t t' => W' = W ∧ t.Matches Eq t') (peekAt n) := by
  refine of_still hW (fun s => ?_) fun s t _ _ => ⟨t, rfl, rfl, rfl⟩
  rcases h : s.ahead.peek n with ⟨_ | t, ahead⟩ <;>
    simp only [Parse.peekAt, h, ParseState.moment, true_and] <;>
    simp only [Scan.peek] at h <;> rw [← (Prod.mk.inj h).2]

theorem next (hW : Pairing.diagonal.admits W) :
    Follows W (fun W' t t' => W' = W ∧ t.Matches Eq t') next := by
  refine (peekAt hW 0).bind ?_
  rintro W' t t' - - ⟨rfl, ht⟩
  exact of_still hW (fun _ => ⟨rfl, rfl⟩) fun _ u _ hu => ⟨t', rfl, Except.ok.inj hu ▸ ht⟩

theorem expect (hW : Pairing.diagonal.admits W) (kind : TokenKind) :
    Follows W (fun W' t t' => W' = W ∧ t.Matches Eq t') (expect kind) := by
  refine (next hW).bind ?_
  rintro W' t t' - - ⟨rfl, ht⟩
  split_ifs
  · exact pure hW ⟨rfl, ht⟩
  · exact fail hW

theorem change (hW : Pairing.diagonal.admits W) (a : Addition) {c : Vocabulary → α × Vocabulary}
    {d : Vocabulary → β × Vocabulary} (hc : ∀ v, (c v).2 = a.apply v) :
    Follows W (fun W' x y => W' = W.add a ∧ x = (c W.left.vocabulary).1 ∧
      y = (d W.right.vocabulary).1) (change c) := by
  intro s hs
  obtain ⟨hm, hr⟩ := Pairing.change_ends hc hs
  refine ⟨W.add a, W.le_add a, Pairing.diagonal.admits_add a hW, hm, rfl, fun x hx => ⟨_, rfl, ?_, rfl⟩⟩
  exact (Except.ok.inj (hr.symm.trans hx)).symm

theorem bounds_succ {n m : Nat} (h : n + 1 = m) : ∃ m', m = m' + 1 ∧ n = m' := ⟨n, h.symm, rfl⟩

end Follows

/-- What follows is a comparison, of which the second run does not matter. -/
def following : Comparison where
  admits := Pairing.diagonal.admits
  spans := Eq
  bounds := Eq
  relates _ _ W R p _ := Pairing.diagonal.admits W → Follows W R p
  interchangeable := Pairing.diagonal.interchangeable
  merge := Pairing.diagonal.merge
  strip := Pairing.diagonal.strip
  bounds_succ := Follows.bounds_succ
  assume h hW := h hW hW
  pure _ h hW := .pure hW h
  bind hp hf hW := (hp hW).bind fun hle hW' hab => hf hle hab hW'
  fail _ hW := .fail hW
  exhausted _ _ hW := .fail hW
  sized _ h hW s hs := h rfl hW s hs
  reopen _ h := h
  vocabulary {φ W} hW := by
    refine .of_still hW (fun _ => ⟨rfl, rfl⟩) fun s v hs hv => ⟨_, rfl, ?_, rfl⟩
    exact (Except.ok.inj hv).symm.trans (congrArg Moment.vocabulary hs)
  change a _ _ hc _ hW := .change hW a hc
  spanFrom {φ W a b} hab hW := by
    refine .of_still hW (fun _ => ⟨rfl, rfl⟩) fun s x _ hx => ⟨x, rfl, rfl⟩
  peek hW := .peekAt hW 0
  peekBehind _ hW := .peekAt hW 1
  next hW := .next hW
  close _ hW := .next hW
  expectClose _ hW := .expect hW _

/-- The account that says nothing. -/
def noAccount : following.Account where
  decls _ _ _ _ := True
  units _ _ _ _ := True
  declares _ _ _ := trivial
  append _ _ _ _ := trivial
  nil := trivial
  snoc _ _ _ _ := trivial
  accumulated _ _ _ := trivial

variable {loader : Loader}

theorem follows_includeUnit {body : Parse (List Decl)}
    (hbody : ∀ {W}, Pairing.diagonal.admits W → Follows W (fun _ _ (_ : List Decl) => True) body) :
    noAccount.Includes (includeUnit loader body) (includeUnit loader body) := by
  intro W a b name hab hW s hs
  cases hl : loader.load a name with
  | error e =>
    rw [includeUnit_of_error hl]
    exact ⟨W, .refl W, hW, hs, rfl, fun _ h => (by cases h)⟩
  | ok source =>
    by_cases hd : source.digest ∈ s.seen
    · rw [includeUnit_of_seen hl hd]
      exact ⟨W, .refl W, hW, hs, rfl, fun u _ => ⟨u, trivial⟩⟩
    · have hentering : (s.entering source).moment = (W.mark source.digest).left := by
        rw [World.mark, ← hs]
        rfl
      obtain ⟨W', hle, hW', hm, -, -⟩ :=
        hbody (Pairing.marks_same.admits_mark source.digest hW) (s.entering source) hentering
      rw [includeUnit_of_unseen hl hd]
      exact ⟨W', (W.le_mark _).trans hle, hW', hm, rfl, fun u _ => ⟨u, trivial⟩⟩

theorem follows_unitBody (loader : Loader) (depth : Nat) {W : World} (hW : Pairing.diagonal.admits W) :
    Follows W (fun _ _ (_ : List Decl) => True) (unitBody loader depth) := by
  have hagain : ∀ {W : World} {p q : Parse (List Decl)},
      noAccount.Declares .behind W p q → noAccount.Declares .within W p q := fun h => h
  induction depth generalizing W with
  | zero =>
    exact Comparison.Account.declares_declarations (follows_includeUnit fun hW => .fail hW) hagain hW
  | succ depth ih =>
    exact Comparison.Account.declares_declarations (follows_includeUnit ih) hagain hW

/-- A step that follows leaves a steady state. -/
theorem Follows.steady {α β : Type} {R : World → α → β → Prop} {p : Parse α} {s : ParseState}
    (h : Follows ⟨s.moment, s.moment⟩ R p) (hs : Steady s) : Steady (p s).2 := by
  obtain ⟨W', -, hW', hm, hlast, -⟩ := h s rfl
  refine ⟨?_, fun kind hk => hs.last kind (hlast ▸ hk)⟩
  have hv : (p s).2.vocabulary = W'.left.vocabulary := congrArg Moment.vocabulary hm
  exact hv ▸ hW'.2

theorem Follows.seen_subset {α β : Type} {R : World → α → β → Prop} {p : Parse α} {s : ParseState}
    (h : Follows ⟨s.moment, s.moment⟩ R p) : s.seen ⊆ (p s).2.seen := by
  obtain ⟨W', hle, -, hm, -⟩ := h s rfl
  have hseen : (p s).2.seen = W'.left.seen := congrArg Moment.seen hm
  exact hseen ▸ hle.seenLeft

theorem Steady.admits {s : ParseState} (hs : Steady s) :
    Pairing.diagonal.admits ⟨s.moment, s.moment⟩ := ⟨rfl, hs.reachable⟩

theorem Steady.follows_program {s : ParseState} (hs : Steady s) (loader : Loader) :
    Follows ⟨s.moment, s.moment⟩ (fun _ _ (_ : List Decl) => True) (program loader) :=
  follows_unitBody loader loader.texts.length hs.admits

theorem Steady.follows_declaration {s : ParseState} (hs : Steady s) (loader : Loader) :
    Follows ⟨s.moment, s.moment⟩ (fun _ _ (_ : List Decl) => True)
      (Parse.declaration (includeUnit loader (program loader))) :=
  Comparison.Account.declares_declaration (A := noAccount)
    (follows_includeUnit (follows_unitBody loader loader.texts.length)) hs.admits

theorem Steady.follows_includeUnit {s : ParseState} (hs : Steady s) (loader : Loader) (span : Span)
    (name : String) :
    Follows ⟨s.moment, s.moment⟩ (fun _ _ (_ : Digest × List Decl) => True)
      (includeUnit loader (program loader) span name) :=
  Parse.follows_includeUnit (follows_unitBody loader loader.texts.length) name rfl hs.admits

theorem Steady.follows_term {s : ParseState} (hs : Steady s) :
    Follows ⟨s.moment, s.moment⟩ (fun W' t t' => World.Quiet ⟨s.moment, s.moment⟩ W' ∧
      following.terms W' t t') term :=
  Comparison.reads_term (C := following) hs.admits

end Clausal.Parse
