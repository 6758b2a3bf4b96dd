import Clausal.Proofs.JoinedPrograms
import Clausal.Proofs.Layout
import Clausal.Source.Files

/-!
# Programs of other layout

Nothing that is read from a text depends on where in it the tokens stand, but for the spans. A unit may
be looked for next to the source that includes it, and that source is the same whatever the layout.
-/
namespace Clausal

/-- Of the place where a unit is named, only the source that it is in matters for what is found. -/
def Loader.BySource (loader : Loader) : Prop :=
  ∀ {a b : Span} (name : String), a.source = b.source →
    ExceptRel SameParts (· = ·) (loader.load a name) (loader.load b name)

theorem Loader.bySource_disabled : Loader.disabled.BySource := fun _ _ => rfl

theorem UnitStore.bySource (store : UnitStore) : store.loader.BySource := by
  intro a b name _
  simp only [loader]
  cases store.find? name with
  | some source => exact rfl
  | none => exact rfl

theorem SearchPath.bySource (s : SearchPath) (view : FileView) : (s.loader view).BySource := by
  intro a b name hab
  simp only [loader, hab]
  induction s.candidates (some b.source) name with
  | nil => exact rfl
  | cons path rest ih =>
    simp only [firstFile]
    cases view.status path with
    | absent => exact ih
    | unexplored | unreadable | text => exact rfl

/-- Both spans are in the source. -/
structure BothIn (source : String) (a b : Span) : Prop where
  left : a.source = source
  right : b.source = source

namespace BothIn

variable {source : String} {a b c d : Span}

theorem merge (h : BothIn source a b) (g : BothIn source c d) :
    BothIn source (a.merge c) (b.merge d) := by
  have hmerge : ∀ {a c : Span}, a.source = source → c.source = source → (a.merge c).source = source := by
    intro a c ha hc
    unfold Span.merge
    split_ifs
    · exact ha
    · exact hc
  exact ⟨hmerge h.left g.left, hmerge h.right g.right⟩

theorem strip (h : BothIn source a b) (front back : Nat) :
    BothIn source (a.strip front back) (b.strip front back) :=
  ⟨h.left, h.right⟩

end BothIn

namespace Item

def span : Item → Span
  | token t => t.span
  | fault e => e.span

theorem Matches.bothIn {i i' : Item} {source : String} (h : i.Matches Anywhere i')
    (hi : i.span.source = source) (hi' : i'.span.source = source) : i.Matches (BothIn source) i' := by
  cases i <;> cases i'
  · exact ⟨h.kind, hi, hi'⟩
  · exact h.elim
  · exact h.elim
  · exact ⟨⟨hi, hi'⟩, h.2⟩

end Item

namespace Cursor

/-- An item is found in the source that the cursor is in. -/
theorem source_item (k : Cursor) : k.item.1.span.source = k.source := by
  have hscans := k.scans_item
  generalize k.item = x at hscans ⊢
  cases hscans with
  | unknownEscape => exact k.source_advance _
  | _ => rfl

theorem source_next (k : Cursor) : k.next.1.span.source = k.source ∧ k.next.2.source = k.source := by
  constructor
  · cases hg : Lexeme.gap .plain 0 k.rest with
    | ok n => rw [next_of_gap hg, source_item, source_advance]
    | error n =>
      rw [next_of_gap_error hg]
      exact k.source_advance n
  · obtain ⟨n, hn⟩ := k.next_snd
    rw [hn, source_advance]

theorem source_scan (k : Cursor) :
    (∀ i ∈ k.scan.items, i.span.source = k.source) ∧ k.scan.last.span.source = k.source := by
  induction k using moving_induction with
  | step k ih =>
    obtain ⟨hitem, hsource⟩ := k.source_next
    by_cases hmoved : k.next.2.rest.length < k.rest.length
    · obtain ⟨hitems, hlast⟩ := ih hmoved
      rw [hsource] at hitems hlast
      rw [scan_of_moved hmoved]
      exact ⟨List.forall_mem_cons.2 ⟨hitem, hitems⟩, hlast⟩
    · rw [scan_of_still hmoved]
      exact ⟨by simp, hitem⟩

end Cursor

theorem Scan.Matches.bothIn {source text text' : String}
    (h : (Scan.ofText source text).Matches Anywhere (Scan.ofText source text')) :
    (Scan.ofText source text).Matches (BothIn source) (Scan.ofText source text') := by
  obtain ⟨hitems, hlast⟩ := h
  obtain ⟨hsources, hsource⟩ := (Cursor.initial source text).source_scan
  obtain ⟨hsources', hsource'⟩ := (Cursor.initial source text').source_scan
  refine ⟨?_, hlast.bothIn hsource hsource'⟩
  have hall : ∀ {xs ys : List Item}, List.Forall₂ (Item.Matches Anywhere) xs ys →
      (∀ i ∈ xs, i.span.source = source) → (∀ i ∈ ys, i.span.source = source) →
        List.Forall₂ (Item.Matches (BothIn source)) xs ys := by
    intro xs ys hxy hx hy
    induction hxy with
    | nil => exact .nil
    | cons hi _ ih =>
      rw [List.forall_mem_cons] at hx hy
      exact .cons (hi.bothIn hx.1 hy.1) (ih hx.2 hy.2)
  exact hall hitems hsources hsources'

namespace Parse

open Pairing (diagonal bind_of_ok bind_of_error change_ends)

/-- The runs are in this world, and items of one source are ahead that match. -/
structure Abreast (source : String) (W : World) (s s' : ParseState) : Prop where
  left : s.moment = W.left
  right : s'.moment = W.right
  ahead : s.ahead.Matches (BothIn source) s'.ahead
  last : BothIn source s.last s'.last

namespace Abreast

variable {source : String} {α β γ δ : Type} {W : World} {R : World → α → β → Prop}
variable {S : World → γ → δ → Prop} {p : Parse α} {q : Parse β} {f : α → Parse γ} {g : β → Parse δ}

/-- Both runs have succeeded abreast, or both have failed with the same error but for its place. -/
def Ends (source : String) (W : World) (R : World → α → β → Prop) :
    Except ParseError α × ParseState → Except ParseError β × ParseState → Prop
  | (.ok a, s), (.ok b, s') => R W a b ∧ Abreast source W s s'
  | (.error e, s), (.error e', s') => SameParts e e' ∧ s.moment = W.left ∧ s'.moment = W.right
  | _, _ => False

/-- Steps that keep two runs of one vocabulary abreast. -/
def Keeps (source : String) (W : World) (R : World → α → β → Prop) (p : Parse α) (q : Parse β) : Prop :=
  diagonal.admits W → ∀ s s', Abreast source W s s' →
    ∃ W', W.Le W' ∧ diagonal.admits W' ∧ Ends source W' R (p s) (q s')

/-- A step that leaves the world as it is. -/
theorem keeps_of_still (h : diagonal.admits W → ∀ s s', Abreast source W s s' →
    Ends source W R (p s) (q s')) : Keeps source W R p q :=
  fun hW s s' hs => ⟨W, .refl W, hW, h hW s s' hs⟩

theorem keeps_bind (hp : Keeps source W R p q)
    (hf : ∀ {W' a b}, W.Le W' → R W' a b → Keeps source W' S (f a) (g b)) :
    Keeps source W S (p >>= f) (q >>= g) := by
  intro hW s s' hs
  obtain ⟨W', hle, hW', he⟩ := hp hW s s' hs
  rcases hps : p s with ⟨e | a, s₁⟩ <;> rcases hqs : q s' with ⟨e' | b, s₁'⟩ <;> rw [hps, hqs] at he
  · rw [bind_of_error hps, bind_of_error hqs]
    exact ⟨W', hle, hW', he⟩
  · exact he.elim
  · exact he.elim
  · obtain ⟨hab, hs₁⟩ := he
    obtain ⟨W'', hle', hW'', he'⟩ := hf hle hab hW' s₁ s₁' hs₁
    rw [bind_of_ok hps, bind_of_ok hqs]
    exact ⟨W'', hle.trans hle', hW'', he'⟩

theorem keeps_fail {e e' : ParseError} (h : (W.matching (BothIn source)).Alike e e') :
    Keeps source W R (Parse.fail e) (Parse.fail e') := by
  refine keeps_of_still fun hW s s' hs => ⟨h _ _ ?_, hs.left, hs.right⟩
  exact Pairing.joins_unlocated hW.2 (congrArg Moment.vocabulary hW.1)

theorem keeps_peekAt (n : Nat) : Keeps source W (fun W' t t' => W' = W ∧ t.Matches (BothIn source) t')
    (peekAt n) (peekAt n) := by
  refine keeps_of_still fun _ s s' hs => ?_
  obtain ⟨hfound, hahead⟩ := hs.ahead.peek n
  rcases hl : s.ahead.peek n with ⟨e | t, ahead⟩ <;> rcases hr : s'.ahead.peek n with ⟨e' | t', ahead'⟩ <;>
    rw [hl, hr] at hfound hahead <;> simp only [peekAt, hl, hr]
  · refine ⟨?_, hs.left, hs.right⟩
    rw [SameParts, hfound.2]
    rfl
  · exact hfound.elim
  · exact hfound.elim
  · exact ⟨⟨rfl, hfound⟩, hs.left, hs.right, hahead, hs.last⟩

theorem keeps_next : Keeps source W (fun W' t t' => W' = W ∧ t.Matches (BothIn source) t')
    Parse.next Parse.next := by
  refine keeps_bind (keeps_peekAt 0) fun {W' t t'} _ h => keeps_of_still fun _ s s' hs => ?_
  exact ⟨h, hs.left, hs.right, hs.ahead.advance, h.2.span⟩

theorem keeps_expect (kind : TokenKind) :
    Keeps source W (fun W' t t' => W' = W ∧ t.Matches (BothIn source) t') (expect kind) (expect kind) := by
  refine keeps_bind keeps_next fun {W' t t'} _ h => ?_
  obtain ⟨rfl, ht⟩ := h
  rw [ht.kind]
  split_ifs
  · exact keeps_of_still fun _ s s' hs => ⟨⟨rfl, ht⟩, hs⟩
  · unfold failExpected failAt
    rw [ht.kind]
    exact keeps_fail fun _ _ hj => congrArg (ParseError.grammar · _) (hj.span ht.span)

theorem keeps_change (a : Addition) {c : Vocabulary → α × Vocabulary} {d : Vocabulary → β × Vocabulary}
    (hc : ∀ v, (c v).2 = a.apply v) (hd : ∀ v, (d v).2 = a.apply v) :
    Keeps source W (fun W' x y => W' = W.add a ∧ x = (c W.left.vocabulary).1 ∧
      y = (d W.right.vocabulary).1) (change c) (change d) := by
  intro hW s s' hs
  obtain ⟨hm, hr⟩ := change_ends hc hs.left
  obtain ⟨hm', hr'⟩ := change_ends hd hs.right
  refine ⟨W.add a, W.le_add a, diagonal.admits_add a hW, ⟨rfl, ?_, ?_⟩, hm, hm', hs.ahead, hs.last⟩
  · exact Except.ok.inj hr
  · exact Except.ok.inj hr'

theorem keeps_sized {p : Nat → Parse α} {q : Nat → Parse β} (size : Nat → Nat)
    (h : ∀ n, Keeps source W R (p n) (q n)) :
    Keeps source W R (fun s => p (size s.ahead.items.length) s)
      (fun s => q (size s.ahead.items.length) s) := by
  intro hW s s' hs
  have hends := h (size s.ahead.items.length) hW s s' hs
  have hlength : s'.ahead.items.length = s.ahead.items.length := hs.ahead.items.length_eq.symm
  simpa only [hlength] using hends

end Abreast

/-- Runs over one source are a comparison. -/
def Comparison.abreast (source : String) : Comparison where
  admits := diagonal.admits
  spans := BothIn source
  bounds := Eq
  relates _ _ W R p q := Abreast.Keeps source W R p q
  interchangeable := diagonal.interchangeable
  merge := BothIn.merge
  strip := BothIn.strip
  bounds_succ := diagonal.comparison.bounds_succ
  assume h hW := h hW hW
  pure _ h := Abreast.keeps_of_still fun _ _ _ hs => ⟨h, hs⟩
  bind := Abreast.keeps_bind
  fail := Abreast.keeps_fail
  exhausted h hq := by
    rw [hq h.symm]
    exact Abreast.keeps_fail fun _ _ _ => rfl
  sized {_ _ _ _ _ _ _ _ size} _ h := Abreast.keeps_sized size fun _ => h rfl
  reopen _ h := h
  vocabulary := Abreast.keeps_of_still fun _ _ _ hs =>
    ⟨⟨rfl, congrArg Moment.vocabulary hs.left, congrArg Moment.vocabulary hs.right⟩, hs⟩
  change := Abreast.keeps_change
  spanFrom hab := Abreast.keeps_of_still fun _ _ _ hs => ⟨⟨rfl, hab.merge hs.last⟩, hs⟩
  peek := Abreast.keeps_peekAt 0
  peekBehind _ := Abreast.keeps_peekAt 1
  next := Abreast.keeps_next
  close _ := Abreast.keeps_next
  expectClose _ := Abreast.keeps_expect _

namespace Abreast

variable {source : String} {loader : Loader}

/-- What is alike at corresponding places is so at any. -/
theorem alike_anywhere {α : Type} [Labeled α] {W : World} {spans : Span → Span → Prop} {a b : α}
    (h : (W.matching spans).Alike a b) : (W.matching Anywhere).Alike a b := by
  have hle : (W.matching spans).Le (W.matching Anywhere) := ⟨fun hs => hs, fun _ => trivial⟩
  exact h.mono hle

/-- The account that declarations are alike wherever they stand. -/
def account (source : String) : (Comparison.abreast source).Account where
  decls _ W' ds ds' := (W'.matching Anywhere).Alike ds ds'
  units _ W' us us' := (W'.matching Anywhere).Alike us us'
  declares _ _ h := alike_anywhere h.alike
  append _ hle hds hes := (hds.mono (hle.matching Anywhere)).append hes
  nil := Matching.alike_nil
  snoc _ hle hus hu := (hus.mono (hle.matching Anywhere)).append hu
  accumulated _ hus _ := by
    refine Matching.Alike.singleton fun r r' hj => ?_
    simp only [relabel, Decl.relabeled, Decl.relabeledUnits_eq_map]
    exact congrArg₂ Decl.accumulated (hj.span trivial) (hus r r' hj)

/-- The text of a unit is read once and for all: in both runs it is the same, in one vocabulary. -/
theorem includes_includeUnit (source : String) (h : loader.BySource) :
    (account source).Includes (includeUnit loader (program loader)) (includeUnit loader (program loader)) := by
  intro W a b name hab hW s s' hs
  have hmoment : s.moment = s'.moment := hs.left.trans (hW.1.trans hs.right.symm)
  have hload := h name (hab.left.trans hab.right.symm)
  rcases hla : loader.load a name with e | unit <;> rcases hlb : loader.load b name with e' | unit' <;>
    rw [hla, hlb] at hload
  · rw [includeUnit_of_error hla, includeUnit_of_error hlb]
    exact ⟨W, .refl W, hW, hload, hs.left, hs.right⟩
  · exact hload.elim
  · exact hload.elim
  obtain rfl : unit = unit' := hload
  have hseen : s.seen = s'.seen := congrArg Moment.seen hmoment
  by_cases hd : unit.digest ∈ s.seen
  · rw [includeUnit_of_seen hla hd, includeUnit_of_seen hlb (hseen ▸ hd)]
    exact ⟨W, .refl W, hW, fun _ _ _ => rfl, hs⟩
  rw [includeUnit_of_unseen hla hd, includeUnit_of_unseen hlb (hseen ▸ hd)]
  have henter : s'.entering unit = s.entering unit := by
    have hvocabulary : s.vocabulary = s'.vocabulary := congrArg Moment.vocabulary hmoment
    rw [ParseState.entering, ParseState.entering, hvocabulary, hseen]
  have hmark : (⟨(s.entering unit).moment, (s.entering unit).moment⟩ : World) = W.mark unit.digest := by
    rw [World.mark, ← hW.1, ← hs.left]
    rfl
  have hkeep := Pairing.keeps_program (Pairing.includes_diagonal loader)
    (W := W.mark unit.digest) (Pairing.marks_same.admits_mark _ hW)
  rw [← hmark] at hkeep
  obtain ⟨W', hle, hW', he⟩ := (hkeep.together _ _ (Pairing.inStep_diagonal _)).resolve_left id
  rw [hmark] at hle
  rw [henter]
  refine ⟨W', (W.le_mark _).trans hle, hW', ?_⟩
  rcases hb : program loader (s.entering unit) with ⟨e | ds, s₁⟩ <;> rw [hb] at he
  · exact ⟨rfl, he.2⟩
  · obtain ⟨hds, hs₁⟩ := he
    refine ⟨?_, hs₁.left, hs₁.right, hs.ahead, hs.last⟩
    have hsame : diagonal.comparison.alike W' ds ds := hds
    refine Matching.Alike.singleton fun r r' hj => ?_
    exact congrArg (Prod.mk unit.digest) (alike_anywhere hsame r r' hj)

end Abreast

end Parse

open Parse in
/-- What is read from a text depends on its items, and on where they stand for the spans only. -/
theorem parseText_of_matches {v : Vocabulary} (hv : v.Reachable) {loader : Loader} (h : loader.BySource)
    {source text text' : String}
    (hitems : (Scan.ofText source text).Matches Anywhere (Scan.ofText source text')) :
    SameOutcomeParts (parseText v loader source text).1 (parseText v loader source text').1 ∧
      (parseText v loader source text).2 = (parseText v loader source text').2 := by
  let s : ParseState := .initial v [] source text
  let s' : ParseState := .initial v [] source text'
  have hagain : ∀ {W} {p q : Parse (List Decl)}, (Abreast.account source).Declares .behind W p q →
      (Abreast.account source).Declares .within W p q := fun h => h
  have hkeep : Abreast.Keeps source ⟨s.moment, s'.moment⟩
      (fun W' ds ds' => (W'.matching Anywhere).Alike ds ds') (contents loader) (contents loader) :=
    Comparison.Account.declares_declarations (Abreast.includes_includeUnit source h) hagain
  obtain ⟨W, -, hW, he⟩ := hkeep ⟨rfl, hv⟩ s s' ⟨rfl, rfl, hitems.bothIn, rfl, rfl⟩
  have hj : (W.matching Anywhere).Joins .unlocated .unlocated :=
    Pairing.joins_unlocated hW.2 (congrArg Moment.vocabulary hW.1)
  have hends : SameOutcomeParts (contents loader s).1 (contents loader s').1 ∧
      (contents loader s).2.moment = (contents loader s').2.moment := by
    rcases hp : contents loader s with ⟨e | ds, s₁⟩ <;>
      rcases hq : contents loader s' with ⟨e' | ds', s₁'⟩ <;> rw [hp, hq] at he
    · exact ⟨he.1, he.2.1.trans (hW.1.trans he.2.2.symm)⟩
    · exact he.elim
    · exact he.elim
    · exact ⟨he.1 _ _ hj, he.2.left.trans (hW.1.trans he.2.right.symm)⟩
  obtain ⟨hresult, hmoment⟩ := contents_ends_eq loader (s := s) hv
  obtain ⟨hresult', hmoment'⟩ := contents_ends_eq loader (s := s') hv
  rw [hresult, hresult', hmoment, hmoment'] at hends
  exact ⟨hends.1, congrArg Moment.vocabulary hends.2⟩

/-- Layout does not matter. Where the scanner comes to a gap that begins with a blank or a line comment,
any other such gap may stand: every call of the scanner gives a token of the same kind or the same
fault, and the program that is read is the same but for spans, or it is refused for the same cause. -/
theorem parseText_respaced {v : Vocabulary} (hv : v.Reachable) {loader : Loader} (hl : loader.BySource)
    (source : String) {front gap gap' rest : String} {n : Nat}
    (hn : ((Cursor.initial source (front ++ gap ++ rest)).past n).rest = (gap ++ rest).toList)
    (h : Spacing gap.toList rest.toList) (h' : Spacing gap'.toList rest.toList) :
    (∀ m, ((Cursor.initial source (front ++ gap ++ rest)).past m).next.1.Matches Anywhere
        ((Cursor.initial source (front ++ gap' ++ rest)).past m).next.1) ∧
      SameOutcomeParts (parseText v loader source (front ++ gap ++ rest)).1
        (parseText v loader source (front ++ gap' ++ rest)).1 ∧
      (parseText v loader source (front ++ gap ++ rest)).2 =
        (parseText v loader source (front ++ gap' ++ rest)).2 := by
  have hitems := Scan.ofText_spacing source h h' hn
  refine ⟨fun m => ?_, parseText_of_matches hv hl hitems⟩
  rw [← Scan.get_ofText, ← Scan.get_ofText]
  exact hitems.get m

/-- A unit that declares an operator. -/
def operatorUnit : UnitStore := ⟨[("u", "infix is 50.")]⟩

/-- A blank behind an inclusion gives way to comments with a point and an opening brace in them. -/
theorem parseText_commented :
    ((Cursor.initial "main" ("accumulate u." ++ " " ++ "p is q.")).past 3).rest =
        (" " ++ "p is q.").toList ∧
      SameOutcomeParts
        (parseText .initial operatorUnit.loader "main" ("accumulate u." ++ " " ++ "p is q.")).1
        (parseText .initial operatorUnit.loader "main"
          ("accumulate u." ++ "% .\n/* \x7b */" ++ "p is q.")).1 ∧
      (parseText .initial operatorUnit.loader "main" ("accumulate u." ++ " " ++ "p is q.")).1.isOk = true := by
  have hn : ((Cursor.initial "main" ("accumulate u." ++ " " ++ "p is q.")).past 3).rest =
      (" " ++ "p is q.").toList := by decide +kernel
  have hblank : Spacing " ".toList "p is q.".toList :=
    ⟨by simp [Lexeme.startsWith, Lexeme.isBreak, Text.isBlank_space], .inl (.blank Text.isBlank_space .nil)⟩
  have hcomments : Spacing "% .\n/* \x7b */".toList "p is q.".toList := by
    have hline : '\n' ∉ [' ', '.'] := by decide
    have hblock : ¬ ['*', '/'] <:+: [' ', '\x7b', ' '] := by decide
    exact ⟨by simp [Lexeme.startsWith, Lexeme.isBreak], .inl (.line hline (.block hblock .nil))⟩
  have h := parseText_respaced .initial operatorUnit.bySource "main" hn hblank hcomments
  exact ⟨hn, h.2.1, by decide +kernel⟩

end Clausal
