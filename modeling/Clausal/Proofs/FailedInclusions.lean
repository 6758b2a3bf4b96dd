import Clausal.Proofs.AccumulatedTexts
import Clausal.Proofs.SteadyRuns

/-!
# A text that has failed counts as seen

A text counts as seen from the moment its reading begins. Where the reading fails, in the text itself or in a
unit that it includes, the error ends all readers around it and nothing is taken back, so that later directives
for the same text find it seen and give no declarations.
-/
namespace Clausal.Parse

variable {loader : Loader}

/-- The reader of the declarations from `s₀` comes to a declaration in this state. -/
inductive ReadsOn (loader : Loader) (s₀ : ParseState) : ParseState → Prop
  | start : ReadsOn loader s₀ s₀
  | next {s s₁ : ParseState} {t : Token} {ds : List Decl} (before : ReadsOn loader s₀ s)
      (get : s.ahead.get 0 = .token t) (goesOn : t.kind ≠ .endOfInput)
      (first : declaration (includeUnit loader (program loader)) s = (.ok ds, s₁)) :
      ReadsOn loader s₀ s₁

/-- The token ahead is the name of a unit. -/
structure Named (s : ParseState) (t : Token) (name : String) : Prop where
  get : s.ahead.get 0 = .token t
  kind : t.kind = .ident name ∨ t.kind = .string name

/-- It comes to a place in a directive where the name of a unit is read. -/
inductive Awaits (loader : Loader) (s₀ : ParseState) : ParseState → Prop
  | first {s : ParseState} {t : Token} (before : ReadsOn loader s₀ s) (get : s.ahead.get 0 = .token t)
      (kind : t.kind = .ident "accumulate") : Awaits loader s₀ (s.read t)
  | more {s s₁ : ParseState} {t c : Token} {name : String} {unit : Digest × List Decl}
      (before : Awaits loader s₀ s) (named : Named s t name)
      (included : includeUnit loader (program loader) t.span name (s.read t) = (.ok unit, s₁))
      (get : s₁.ahead.get 0 = .token c) (comma : c.isSymbol "," = true) : Awaits loader s₀ (s₁.read c)

/-- It comes to include the unit of this name, in the text itself or in one that is included on the way. -/
inductive ComesToInclude (loader : Loader) : ParseState → Span → String → ParseState → Prop
  | here {s₀ s : ParseState} {t : Token} {name : String} (awaits : Awaits loader s₀ s)
      (named : Named s t name) : ComesToInclude loader s₀ t.span name (s.read t)
  | within {s₀ s u : ParseState} {t : Token} {name : String} {source : Source} {span : Span}
      {inner : String} (awaits : Awaits loader s₀ s) (named : Named s t name)
      (load : loader.load t.span name = .ok source) (unseen : source.digest ∉ s.seen)
      (rest : ComesToInclude loader (s.entering source) span inner u) :
      ComesToInclude loader s₀ span inner u

section

variable {s₀ s s₁ u u' : ParseState} {span : Span} {name : String} {e : ParseError}

theorem Steady.read {t : Token} (hs : Steady s) : Steady (s.read t) := ⟨hs.reachable, hs.last⟩

theorem seen_read (s : ParseState) (t : Token) : (s.read t).seen = s.seen := rfl

theorem entering_read (s : ParseState) (t : Token) (source : Source) :
    (s.read t).entering source = s.entering source := rfl

theorem Steady.entering (hs : Steady s) (source : Source) : Steady (s.entering source) :=
  steady_initial hs.reachable _ _ _

theorem ReadsOn.steady (h : ReadsOn loader s₀ s) (hs : Steady s₀) : Steady s ∧ s₀.seen ⊆ s.seen := by
  induction h with
  | start => exact ⟨hs, List.Subset.refl _⟩
  | next before get goesOn first ih =>
    obtain ⟨hsteady, hseen⟩ := ih
    have hfollows := hsteady.follows_declaration loader
    have hnext := hfollows.steady hsteady
    have hsub := hfollows.seen_subset
    rw [first] at hnext hsub
    exact ⟨hnext, List.Subset.trans hseen hsub⟩

theorem Awaits.steady (h : Awaits loader s₀ s) (hs : Steady s₀) : Steady s ∧ s₀.seen ⊆ s.seen := by
  induction h with
  | first before get kind =>
    obtain ⟨hsteady, hseen⟩ := before.steady hs
    exact ⟨hsteady.read, hseen⟩
  | @more s s₁ t c name unit before named included get comma ih =>
    obtain ⟨hsteady, hseen⟩ := ih
    have hfollows := (hsteady.read (t := t)).follows_includeUnit loader t.span name
    have hnext := hfollows.steady hsteady.read
    have hsub := hfollows.seen_subset
    rw [included] at hnext hsub
    exact ⟨hnext.read, List.Subset.trans hseen hsub⟩

theorem ComesToInclude.steady (h : ComesToInclude loader s₀ span name u) (hs : Steady s₀) :
    Steady u ∧ s₀.seen ⊆ u.seen := by
  induction h with
  | here awaits named =>
    obtain ⟨hsteady, hseen⟩ := awaits.steady hs
    exact ⟨hsteady.read, hseen⟩
  | within awaits named load unseen rest ih =>
    obtain ⟨hsteady, hseen⟩ := awaits.steady hs
    obtain ⟨hinner, hsub⟩ := ih (hsteady.entering _)
    exact ⟨hinner, List.Subset.trans hseen (List.Subset.trans (List.subset_cons_self _ _) hsub)⟩

theorem ReadsOn.contents_eq (h : ReadsOn loader s₀ s) (hs : Steady s₀) :
    ∃ ds, contents loader s₀ = prepend ds (contents loader s) := by
  induction h with
  | start => exact ⟨[], (prepend_nil _).symm⟩
  | next before get goesOn first ih =>
    obtain ⟨ds, hds⟩ := ih
    have hsteady := (before.steady hs).1
    rw [contents_of_declaration hsteady get goesOn first, prepend_prepend] at hds
    exact ⟨_, hds⟩

/-- One round of reading the units of a directive. -/
def unitRound (loader : Loader) (units : List (Digest × List Decl)) :
    Parse (Round (List (Digest × List Decl)) (List (Digest × List Decl))) :=
  inclusion (includeUnit loader (program loader)) >>= fun unit => eatSymbol "," >>= fun more =>
    if more then pure (.again (units ++ [unit])) else pure (.done (units ++ [unit]))

/-- A run of `p` from `s` begins with one of `q` from `u`. -/
def BeginsAs {α β : Type} (p : Parse α) (s : ParseState) (q : Parse β) (u : ParseState) : Prop :=
  ∃ rest, p s = (q >>= rest) u

theorem BeginsAs.bind {α β γ : Type} {p : Parse α} {q : Parse β} (h : BeginsAs p s q u) (f : α → Parse γ) :
    BeginsAs (p >>= f) s q u := by
  obtain ⟨rest, h⟩ := h
  refine ⟨fun b => rest b >>= f, ?_⟩
  rcases hq : q u with ⟨e | b, u₁⟩
  · rw [Pairing.bind_of_error hq] at h
    rw [Pairing.bind_of_error h, Pairing.bind_of_error hq]
  · rw [Pairing.bind_of_ok hq] at h
    rw [Pairing.bind_of_ok hq]
    rcases hr : rest b u₁ with ⟨e | a, u₂⟩
    · rw [Pairing.bind_of_error (h.trans hr), Pairing.bind_of_error hr]
    · rw [Pairing.bind_of_ok (h.trans hr), Pairing.bind_of_ok hr]

theorem BeginsAs.of_eq {α β : Type} {p p' : Parse α} {q : Parse β} {s' : ParseState}
    (h : BeginsAs p s q u) (he : p' s' = p s) : BeginsAs p' s' q u := by
  obtain ⟨rest, h⟩ := h
  exact ⟨rest, he.trans h⟩

/-- Where a step has come on, the run goes on from there. -/
theorem BeginsAs.follow {α β : Type} {p : Parse α} {q q' : Parse β} (h : BeginsAs p s q u)
    (he : q u = q' u') : BeginsAs p s q' u' := by
  obtain ⟨rest, h⟩ := h
  refine ⟨rest, h.trans ?_⟩
  rcases hq : q' u' with ⟨e | b, u₁⟩
  · rw [Pairing.bind_of_error (he.trans hq), Pairing.bind_of_error hq]
  · rw [Pairing.bind_of_ok (he.trans hq), Pairing.bind_of_ok hq]

theorem BeginsAs.error {α β : Type} {p : Parse α} {q : Parse β} (h : BeginsAs p s q u)
    (hq : q u = (.error e, u')) : p s = (.error e, u') := by
  obtain ⟨rest, h⟩ := h
  rw [h, Pairing.bind_of_error hq]

theorem beginsAs_prepend {β : Type} {p : Parse (List Decl)} {q : Parse β} (h : BeginsAs p s q u)
    {p' : Parse (List Decl)} {s' : ParseState} {ds : List Decl} (he : p' s' = prepend ds (p s)) :
    BeginsAs p' s' q u := by
  refine (h.bind fun rest => pure (ds ++ rest)).of_eq (he.trans ?_)
  rcases hp : p s with ⟨e | rest, s₁⟩
  · rw [Pairing.bind_of_error hp]
    rfl
  · rw [Pairing.bind_of_ok hp]
    rfl

theorem beginsAs_accumulate {t : Token} (get : s.ahead.get 0 = .token t)
    (kind : t.kind = .ident "accumulate") : BeginsAs (contents loader) s
      (rounds (unitRound loader) ((s.read t).ahead.items.length + 1) []) (s.read t) := by
  have hseparated : BeginsAs (separated (inclusion (includeUnit loader (program loader)))) (s.read t)
      (rounds (unitRound loader) ((s.read t).ahead.items.length + 1) []) (s.read t) :=
    ⟨pure, by rw [Comparison.bind_pure_eq]; rfl⟩
  have hdirective : BeginsAs (accumulateDecl (includeUnit loader (program loader)) t.span) (s.read t)
      (rounds (unitRound loader) ((s.read t).ahead.items.length + 1) []) (s.read t) :=
    hseparated.bind _
  have hdeclaration := (hdirective.bind fun d => pure [d]).of_eq
    (declaration_accumulate (includeUnit loader (program loader)) get kind)
  have hround : declarationRound loader [] s =
      (declaration (includeUnit loader (program loader)) >>= fun ds => pure (.again ([] ++ ds))) s := by
    rw [declarationRound, Pairing.bind_of_ok (peek_of_token get), if_neg (by rw [kind]; simp)]
  exact ((hdeclaration.bind _).of_eq hround).bind _

theorem unitRound_of_comma {t c : Token} {units : List (Digest × List Decl)} {unit : Digest × List Decl}
    (named : Named s t name)
    (included : includeUnit loader (program loader) t.span name (s.read t) = (.ok unit, s₁))
    (get : s₁.ahead.get 0 = .token c) (comma : c.isSymbol "," = true) :
    unitRound loader units s = (.ok (.again (units ++ [unit])), s₁.read c) := by
  have heat : eatSymbol "," s₁ = (.ok true, s₁.read c) := by
    rw [eatSymbol, Pairing.bind_of_ok (peek_of_token get), if_pos comma,
      Pairing.bind_of_ok (next_of_token get)]
    rfl
  rw [unitRound, Pairing.bind_of_ok ((inclusion_of_token named.get named.kind).trans included),
    Pairing.bind_of_ok heat]
  rfl

theorem unitRound_of_error {t : Token} {units : List (Digest × List Decl)} (named : Named s t name)
    (included : includeUnit loader (program loader) t.span name (s.read t) = (.error e, s₁)) :
    unitRound loader units s = (.error e, s₁) :=
  Pairing.bind_of_error ((inclusion_of_token named.get named.kind).trans included)

/-- A token that is not the end of the input is an item of its own. -/
theorem Steady.length_read {t : Token} (hs : Steady s) (get : s.ahead.get 0 = .token t)
    (goesOn : t.kind ≠ .endOfInput) : (s.read t).ahead.items.length + 1 = s.ahead.items.length := by
  rcases Scan.items_of_token get with hitems | ⟨-, hitems⟩
  · rw [hitems]
    rfl
  · have hlast : s.ahead.last = .token t := by
      rw [Scan.get, hitems] at get
      exact get
    exact absurd (hs.last t.kind (by rw [hlast]; rfl)) goesOn

/-- Where a unit is awaited, the rest of the declarations begins with the rounds from there. -/
theorem Awaits.beginsAs (h : Awaits loader s₀ s) (hs : Steady s₀) : ∃ n units,
    s.ahead.items.length ≤ n ∧ BeginsAs (contents loader) s₀ (rounds (unitRound loader) (n + 1) units) s := by
  induction h with
  | first before get kind =>
    obtain ⟨ds, hds⟩ := before.contents_eq hs
    exact ⟨_, [], Nat.le_refl _, beginsAs_prepend (beginsAs_accumulate get kind) hds⟩
  | @more s s₁ t c name unit before named included get comma ih =>
    obtain ⟨n, units, hn, hbegins⟩ := ih
    have hsteady := (before.steady hs).1
    have hfollows := (hsteady.read (t := t)).follows_includeUnit loader t.span name
    have hnext : Steady s₁ := by
      have hafter := hfollows.steady hsteady.read
      rwa [included] at hafter
    have hname : t.kind ≠ .endOfInput := by rcases named.kind with hk | hk <;> simp [hk]
    have hcomma : c.kind ≠ .endOfInput := by
      intro hk
      simp [Token.isSymbol, hk] at comma
    have h₁ := hsteady.length_read named.get hname
    have h₂ := hnext.length_read get hcomma
    rw [(includeUnit_ahead included).1] at h₂
    obtain ⟨n, rfl⟩ : ∃ m, n = m + 1 := ⟨n - 1, by omega⟩
    have hround : rounds (unitRound loader) (n + 1 + 1) units s =
        rounds (unitRound loader) (n + 1) (units ++ [unit]) (s₁.read c) :=
      Pairing.bind_of_ok (unitRound_of_comma named included get comma)
    exact ⟨n, units ++ [unit], by omega, hbegins.follow hround⟩

/-- An inclusion that fails ends the text around it. -/
theorem Awaits.fails {t : Token} (h : Awaits loader s₀ s) (hs : Steady s₀) (named : Named s t name)
    (hfail : includeUnit loader (program loader) t.span name (s.read t) = (.error e, u')) :
    contents loader s₀ = (.error e, u') := by
  obtain ⟨n, units, -, hbegins⟩ := h.beginsAs hs
  exact hbegins.error (Pairing.bind_of_error (unitRound_of_error named hfail))

/-- An inclusion that fails ends all texts around it, and what it has marked stays. -/
theorem ComesToInclude.fails (h : ComesToInclude loader s₀ span name u) (hs : Steady s₀)
    (hfail : includeUnit loader (program loader) span name u = (.error e, u')) :
    ∃ s', contents loader s₀ = (.error e, s') ∧ s'.moment = u'.moment := by
  induction h with
  | here awaits named => exact ⟨u', awaits.fails hs named hfail, rfl⟩
  | @within s₀ s u t name source span inner awaits named load unseen rest ih =>
    have hsteady := (awaits.steady hs).1
    obtain ⟨w, hw, hm⟩ := ih (hsteady.entering source) hfail
    obtain ⟨hresult, hmoment⟩ := contents_ends_eq loader (s := s.entering source) hsteady.reachable
    rw [hw] at hresult hmoment
    have hinclude : includeUnit loader (program loader) t.span name (s.read t) =
        (.error e, { s.read t with
          vocabulary := (program loader (s.entering source)).2.vocabulary
          seen := (program loader (s.entering source)).2.seen }) := by
      refine (includeUnit_of_unseen (s := s.read t) load unseen).trans ?_
      rw [entering_read, ← hresult]
      rfl
    exact ⟨_, awaits.fails hs named hinclude, hmoment.symm.trans hm⟩

end

/-- A call that goes on in the text where the one before has stopped. -/
inductive ReaderCall where
  | declarations
  | term

def ReaderCall.after (loader : Loader) : ReaderCall → ParseState → ParseState
  | .declarations, s => ((program loader).run s).2
  | .term, s => (Parse.term.run s).2

/-- The state behind calls, of which some may have failed. -/
def afterCalls (loader : Loader) (calls : List ReaderCall) (s : ParseState) : ParseState :=
  calls.foldl (fun s call => call.after loader s) s

theorem Steady.after {s : ParseState} (hs : Steady s) (loader : Loader) (call : ReaderCall) :
    Steady (call.after loader s) ∧ s.seen ⊆ (call.after loader s).seen := by
  cases call with
  | declarations => exact ⟨(hs.follows_program loader).steady hs, (hs.follows_program loader).seen_subset⟩
  | term => exact ⟨hs.follows_term.steady hs, hs.follows_term.seen_subset⟩

theorem Steady.afterCalls {s : ParseState} (hs : Steady s) (loader : Loader) (calls : List ReaderCall) :
    Steady (afterCalls loader calls s) ∧ s.seen ⊆ (afterCalls loader calls s).seen := by
  induction calls generalizing s with
  | nil => exact ⟨hs, List.Subset.refl _⟩
  | cons call rest ih =>
    obtain ⟨hnext, hsub⟩ := hs.after loader call
    obtain ⟨hlast, hsub'⟩ := ih hnext
    exact ⟨hlast, List.Subset.trans hsub hsub'⟩

theorem eq_nil_of_inOrder {digest : Digest} {decls : List Decl} {seen : List Digest}
    {es : List (Digest × List Decl)} (h : InOrder EmptyAgain seen es) (hseen : digest ∈ seen)
    (he : (digest, decls) ∈ es) : decls = [] := by
  induction es generalizing seen with
  | nil => cases he
  | cons e rest ih =>
    obtain ⟨hfirst, hrest⟩ := h
    rcases List.mem_cons.1 he with rfl | hmem
    · exact hfirst hseen
    · exact ih hrest (List.mem_cons_of_mem _ hseen) hmem

/-- In this state a text counts as read: directives for it give no declarations and change nothing, and it
has no declarations in what is read. -/
structure PassesOver (loader : Loader) (digest : Digest) (s : ParseState) : Prop where
  directive : ∀ span name source u, ComesToInclude loader s span name u →
    loader.load span name = .ok source → source.digest = digest →
    includeUnit loader (program loader) span name u = (.ok (digest, []), u)
  entries : ∀ ds s', (program loader).run s = (.ok ds, s') →
    ∀ decls, (digest, decls) ∈ entriesOf ds → decls = []

theorem passesOver_of_seen {digest : Digest} {s : ParseState} (hs : Steady s) (hd : digest ∈ s.seen) :
    PassesOver loader digest s where
  directive span name source u hcomes hload hdigest := by
    have hseen : source.digest ∈ u.seen := hdigest ▸ (hcomes.steady hs).2 hd
    rw [includeUnit_of_seen hload hseen, hdigest]
  entries ds s' hrun decls he := by
    obtain ⟨W, -, -, -, hr⟩ := (Pairing.keeps_program (Pairing.includes_visits loader)
      (W := ⟨s.moment, s.moment⟩) hs.admits).alone s rfl
    obtain ⟨_, hvisits⟩ := hr ds (congrArg Prod.fst hrun)
    have hvisits : Visits loader s.moment W.left (entriesOf ds) := hvisits
    have horder : InOrder EmptyAgain s.seen (entriesOf ds) :=
      hvisits.order.mono fun _ _ _ ⟨_, _, _, _, _, hagain, _⟩ => hagain
    exact eq_nil_of_inOrder horder hd he

/-- A failed inclusion has marked its text. -/
theorem mem_seen_of_fails {s s' : ParseState} {span : Span} {name : String} {source : Source}
    {e : ParseError} (hs : Steady s) (hload : loader.load span name = .ok source)
    (h : includeUnit loader (program loader) span name s = (.error e, s')) : source.digest ∈ s'.seen := by
  by_cases hd : source.digest ∈ s.seen
  · rw [includeUnit_of_seen hload hd] at h
    cases h
  · rw [includeUnit_of_unseen hload hd] at h
    obtain ⟨-, rfl⟩ := Prod.mk.inj h
    exact ((hs.entering source).follows_program loader).seen_subset List.mem_cons_self

/-- Where reading the text of a unit has failed, at whatever depth, the call fails with that error, and from
then on the text is passed over. -/
theorem passesOver_of_failed {v : Vocabulary} (hv : v.Reachable) (seen : List Digest)
    (source text : String) (earlier later : List ReaderCall) {u u' : ParseState} {span : Span}
    {name : String} {unit : Source} {e : ParseError}
    (hcomes : ComesToInclude loader (afterCalls loader earlier (.initial v seen source text)) span name u)
    (hload : loader.load span name = .ok unit)
    (hfail : includeUnit loader (program loader) span name u = (.error e, u')) :
    ((program loader).run (afterCalls loader earlier (.initial v seen source text))).1 = .error e ∧
      PassesOver loader unit.digest
        (afterCalls loader (earlier ++ .declarations :: later) (.initial v seen source text)) := by
  obtain ⟨hs, -⟩ := (steady_initial hv seen source text).afterCalls loader earlier
  generalize hw : afterCalls loader earlier (.initial v seen source text) = w at hcomes hs ⊢
  obtain ⟨s', hcontents, hmoment⟩ := hcomes.fails hs hfail
  obtain ⟨hresult, hends⟩ := contents_ends_eq loader hs.reachable
  rw [hcontents] at hresult hends
  refine ⟨hresult.symm, ?_⟩
  have hsplit : afterCalls loader (earlier ++ .declarations :: later) (.initial v seen source text) =
      afterCalls loader later ((program loader).run w).2 := by
    rw [afterCalls, List.foldl_append, List.foldl_cons]
    exact congrArg (fun s => afterCalls loader later ((program loader).run s).2) hw
  have hmarked : unit.digest ∈ ((program loader).run w).2.seen := by
    have hseen : ((program loader).run w).2.seen = u'.seen :=
      congrArg Moment.seen (hends.symm.trans hmoment)
    rw [hseen]
    exact mem_seen_of_fails (hcomes.steady hs).1 hload hfail
  obtain ⟨hnext, -⟩ := hs.after loader .declarations
  obtain ⟨hlast, hsub⟩ := hnext.afterCalls loader later
  rw [hsplit]
  exact passesOver_of_seen hlast (hsub hmarked)

/-- A unit that cannot be read. -/
def brokenUnit : UnitStore := ⟨[("u", "p (")]⟩

/-- In front of two directives for it. -/
def twoDirectives : ParseState := .initial .initial [] "t.lp" "accumulate u accumulate u."

theorem passesOver_brokenUnit : ∃ e,
    ((program brokenUnit.loader).run twoDirectives).1 = .error e ∧
      PassesOver brokenUnit.loader (Source.digest ⟨"u", "p ("⟩)
        (afterCalls brokenUnit.loader [.declarations] twoDirectives) := by
  have hfirst : (twoDirectives.ahead.get 0).kind? = some (.ident "accumulate") := by decide +kernel
  have hsecond : (twoDirectives.ahead.get 1).kind? = some (.ident "u") := by decide +kernel
  obtain ⟨t, hget, ht⟩ := exists_token_of_kind? hfirst
  obtain ⟨t', hget', ht'⟩ := exists_token_of_kind? hsecond
  have hnamed : Named (twoDirectives.read t) t' "u" :=
    ⟨(ParseState.get_read twoDirectives t 0).trans hget', .inl ht'⟩
  have hcomes : ComesToInclude brokenUnit.loader twoDirectives t'.span "u" ((twoDirectives.read t).read t') :=
    .here (.first .start hget ht) hnamed
  have hload : brokenUnit.loader.load t'.span "u" = .ok ⟨"u", "p ("⟩ := rfl
  have hbroken : (program brokenUnit.loader (twoDirectives.entering ⟨"u", "p ("⟩)).1.isOk = false := by
    decide +kernel
  have hunseen : Source.digest ⟨"u", "p ("⟩ ∉ ((twoDirectives.read t).read t').seen := by
    rw [seen_read, seen_read]
    exact List.not_mem_nil
  have hinclude := @includeUnit_of_unseen _ (program brokenUnit.loader) _ _ _ _ hload hunseen
  rw [entering_read, entering_read] at hinclude
  rcases hunit : program brokenUnit.loader (twoDirectives.entering ⟨"u", "p ("⟩) with ⟨e | ds, s'⟩
  · rw [hunit] at hinclude
    obtain ⟨hfails, hpasses⟩ := passesOver_of_failed .initial [] "t.lp" "accumulate u accumulate u." [] []
      hcomes hload hinclude
    exact ⟨e, hfails, hpasses⟩
  · rw [hunit] at hbroken
    cases hbroken

/-- The first call fails in the unit, and the second one succeeds with a unit without declarations. -/
theorem program_brokenUnit_again :
    ((program brokenUnit.loader).run twoDirectives).1.isOk = false ∧
      (((program brokenUnit.loader).run ((program brokenUnit.loader).run twoDirectives).2).1.map
        fun ds => (entriesOf ds).map fun entry => entry.2.length).toOption = some [0] := by
  decide +kernel

end Clausal.Parse
