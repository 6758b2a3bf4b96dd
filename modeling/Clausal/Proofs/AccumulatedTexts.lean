import Clausal.Proofs.AlikeScopes
import Clausal.Proofs.IncludedOnce
import Clausal.Proofs.JoinedPrograms
import Clausal.Proofs.SpelledTexts

/-!
# Including a unit is including its text

A directive that includes a unit may be replaced by the text of the unit, if the text is not included
elsewhere. The text is read from the same vocabulary, and what follows it too; the runs differ in
whether they have seen the text. Nesting goes into the unit in place.
-/
namespace Clausal

/-- The text is a directive that includes the unit of this name. -/
def Directs (text name : String) : Prop :=
  ∃ kind, (kind = .ident name ∨ kind = .string name) ∧
    Spells text.toList [.ident "accumulate", kind, .stop]

namespace Spells

/-- A point at the end of a text. -/
theorem stop : Spells ['.'] [.stop] := by
  have hbegins : Begins ['.'] .stop 1 := by
    refine ⟨Lexeme.gap_zero (by rw [Text.isBlank_eq]; decide) (by decide) (by simp), fun k hk => ?_⟩
    rw [Cursor.item, hk]
    rfl
  exact token hbegins Nat.one_pos (Nat.le_refl 1) nil

theorem accumulate {kind : TokenKind} {kinds : List TokenKind} {text : List Char}
    (h : Spells text (kind :: kinds)) :
    Spells ("accumulate ".toList ++ text) (.ident "accumulate" :: kind :: kinds) := by
  have hword : Word "accumulate".toList (.ident "accumulate") := .name (by decide) (by decide)
  have htext : "accumulate ".toList ++ text = "accumulate".toList ++ (' ' :: text) := rfl
  rw [htext]
  exact word hword (.space text) (blank Text.isBlank_space h)

end Spells

theorem Lexeme.name_point (w : List Char) : name (w ++ ['.']) = name w := by
  induction w with
  | nil => decide
  | cons c w ih =>
    have hs : startsWith isNameStart (w ++ ['.']) = startsWith isNameStart w := by
      cases w with
      | nil => decide
      | cons d w => rfl
    rw [List.cons_append, name, name, hs, ih]

/-- A unit whose name is an identifier. -/
theorem directs_name {name : String} (h : Word name.toList (.ident name)) :
    Directs ("accumulate " ++ name ++ ".") name := by
  refine ⟨_, .inl rfl, ?_⟩
  have hname : Spells (name.toList ++ ['.']) [.ident name, .stop] := by
    generalize hw : name.toList = w at h
    obtain rfl : name = String.ofList w := by rw [← hw, String.ofList_toList]
    cases h with
    | @name c rest start run =>
      refine .token (begins_name start ?_) (Nat.succ_pos _) (by simp) ?_
      · rw [Lexeme.name_point, run]
      · rw [List.drop_left]
        exact .stop
    | single brace hsingle =>
      unfold Cursor.single? at hsingle
      split at hsingle <;> simp at hsingle
  have htext : ("accumulate " ++ name ++ ".").toList = "accumulate ".toList ++ (name.toList ++ ['.']) := by
    simp
  rw [htext]
  exact hname.accumulate

/-- A unit of any name. -/
theorem directs_string (name : String) :
    Directs ("accumulate " ++ Literal.renderString name ++ ".") name := by
  refine ⟨_, .inr rfl, ?_⟩
  have htext : ("accumulate " ++ Literal.renderString name ++ ".").toList =
      "accumulate ".toList ++ ((Literal.renderString name).toList ++ ['.']) := by
    simp
  rw [htext]
  exact (Spells.string name .stop).accumulate

/-- The state behind a token that has been read. -/
def ParseState.read (s : ParseState) (t : Token) : ParseState :=
  { s with ahead := s.ahead.drop 1, last := t.span }

theorem ParseState.get_read (s : ParseState) (t : Token) (i : Nat) :
    (s.read t).ahead.get i = s.ahead.get (1 + i) := Scan.get_drop 1 i

/-- A scan that has run out gives its last item for ever. -/
theorem Scan.items_of_token {x : Scan} {t : Token} (h : x.get 0 = .token t) :
    x.items = .token t :: (x.drop 1).items ∨ x.drop 1 = x ∧ x.items = [] := by
  obtain ⟨items, last⟩ := x
  cases items with
  | nil => exact .inr ⟨rfl, rfl⟩
  | cons i rest =>
    obtain rfl : i = .token t := h
    exact .inl rfl

namespace Parse

section

variable {loader : Loader} {incl : Include} {s s₁ s₂ : ParseState} {t : Token}

theorem eatSymbol_of_token {name : String} (h : s.ahead.get 0 = .token t) (ht : t.isSymbol name = false) :
    eatSymbol name s = (.ok false, s) := by
  rw [eatSymbol, Pairing.bind_of_ok (peek_of_token h), ht]
  rfl

theorem attributes_of_token (h : s.ahead.get 0 = .token t) (ht : t.isSymbol ":" = false) :
    attributes s = (.ok [], s) := by
  have hround : (eatSymbol ":" >>= fun more =>
      if more then oneAttribute >>= fun a => pure (.again ([] ++ [a])) else pure (.done []) :
        Parse (Round (List Attribute) (List Attribute))) s = (.ok (.done []), s) :=
    Pairing.bind_of_ok (eatSymbol_of_token h ht)
  exact Pairing.bind_of_ok hround

/-- The only item of a list that no comma follows. -/
theorem separated_one {α : Type} {item : Parse α} {a : α} (h : item s = (.ok a, s₁))
    (hget : s₁.ahead.get 0 = .token t) (ht : t.isSymbol "," = false) :
    separated item s = (.ok [a], s₁) := by
  have hround : (item >>= fun a => eatSymbol "," >>= fun more =>
      if more then pure (.again ([] ++ [a])) else pure (.done ([] ++ [a])) :
        Parse (Round (List α) (List α))) s = (.ok (.done [a]), s₁) :=
    (Pairing.bind_of_ok h).trans (Pairing.bind_of_ok (eatSymbol_of_token hget ht))
  exact Pairing.bind_of_ok hround

theorem inclusion_of_token {name : String} (hget : s.ahead.get 0 = .token t)
    (ht : t.kind = .ident name ∨ t.kind = .string name) :
    inclusion incl s = incl t.span name (s.read t) := by
  rw [inclusion, Pairing.bind_of_ok (next_of_token hget)]
  rcases ht with ht | ht <;> rw [ht] <;> rfl

theorem accumulateDecl_one (start : Span) {unit : Digest × List Decl}
    (h : inclusion incl s = (.ok unit, s₁)) (hget : s₁.ahead.get 0 = .token t) (ht : t.kind = .stop) :
    accumulateDecl incl start s = (.ok (.accumulated (start.merge t.span) [unit]), s₁.read t) := by
  have hcomma : t.isSymbol "," = false := by simp [Token.isSymbol, ht]
  rw [accumulateDecl, Pairing.bind_of_ok (separated_one h hget hcomma),
    Pairing.bind_of_ok (expect_of_token hget ht)]
  rfl

/-- A declaration that begins with no brace may begin with attributes. -/
theorem declaration_attributed (incl : Include) (hget : s.ahead.get 0 = .token t)
    (hopen : t.kind ≠ .leftBrace) (hclose : t.kind ≠ .rightBrace) :
    declaration incl s = attributedDecl incl t.span s := by
  rw [declaration, Pairing.bind_of_ok (peek_of_token hget)]
  generalize t.kind = kind at hopen hclose
  split
  · exact absurd rfl hopen
  · exact absurd rfl hclose
  · rfl

/-- A declaration is read by its keyword. -/
theorem declaration_keyword (incl : Include) (hget : s.ahead.get 0 = .token t) {keyword : Keyword}
    (ht : Keyword.of? t.kind = some keyword) :
    declaration incl s = keywordDecl incl t.span [] keyword (s.read t) := by
  obtain ⟨name, hname⟩ : ∃ name, t.kind = .ident name := by
    obtain ⟨kind, span⟩ := t
    cases kind <;> first | exact ⟨_, rfl⟩ | cases ht
  have hcolon : t.isSymbol ":" = false := by simp [Token.isSymbol, hname]
  rw [declaration_attributed incl hget (by simp [hname]) (by simp [hname]), attributedDecl,
    Pairing.bind_of_ok (attributes_of_token hget hcolon), Pairing.bind_of_ok (peek_of_token hget), ht]
  exact Pairing.bind_of_ok (next_of_token hget)

theorem declaration_accumulate (incl : Include) (hget : s.ahead.get 0 = .token t) (ht : t.kind = .ident "accumulate") :
    declaration incl s = (accumulateDecl incl t.span >>= fun d => pure [d]) (s.read t) := by
  have hkeyword : Keyword.of? t.kind = some .accumulate := by
    rw [ht]
    decide
  exact declaration_keyword incl hget hkeyword

theorem get_of_shows {x : Scan} {kinds : List TokenKind} (h : x.Shows kinds) (n : Nat) :
    ∃ t, x.get n = .token t ∧ t.kind = (kinds.drop n).headD .endOfInput := by
  obtain ⟨t, ht, hk⟩ := h.peek n
  obtain ⟨-, hget⟩ := Scan.peek_eq_ok ht
  obtain ⟨u, hu, he⟩ := hget n (Nat.le_refl n)
  obtain rfl := he rfl
  exact ⟨u, hu, hk⟩

/-- A directive yields one declaration with the unit, whose text is read with the text itself seen. -/
theorem contents_directive {name : String} {kind : TokenKind} {source : Source} {unit : List Decl}
    (hs : Steady s) (hk : kind = .ident name ∨ kind = .string name)
    (hshows : s.ahead.Shows [.ident "accumulate", kind, .stop])
    (hl : ∀ span, loader.load span name = .ok source) (hunseen : source.digest ∉ s.seen)
    (hu : program loader (s.entering source) = (.ok unit, s₂)) :
    ∃ span s', contents loader s = (.ok [.accumulated span [(source.digest, unit)]], s') ∧
      s'.moment = s₂.moment := by
  obtain ⟨t₀, hget₀, ht₀⟩ := get_of_shows hshows 0
  obtain ⟨t₁, hget₁, ht₁⟩ := get_of_shows hshows 1
  obtain ⟨t₂, hget₂, ht₂⟩ := get_of_shows hshows 2
  obtain ⟨t₃, hget₃, ht₃⟩ := get_of_shows hshows 3
  have hfirst : (s.read t₀).ahead.get 0 = .token t₁ := by rw [ParseState.get_read, hget₁]
  let after : ParseState :=
    { (s.read t₀).read t₁ with
      vocabulary := s₂.vocabulary
      seen := s₂.seen }
  have hinclude : includeUnit loader (program loader) t₁.span name ((s.read t₀).read t₁) =
      (.ok (source.digest, unit), after) := by
    refine (includeUnit_of_unseen (s := (s.read t₀).read t₁) (hl t₁.span) hunseen).trans ?_
    have hentering : ((s.read t₀).read t₁).entering source = s.entering source := rfl
    rw [hentering, hu]
    rfl
  have hunit := (inclusion_of_token hfirst (ht₁ ▸ hk)).trans hinclude
  have hget : ∀ i, after.ahead.get i = s.ahead.get (2 + i) := by
    intro i
    change ((s.read t₀).read t₁).ahead.get i = _
    rw [ParseState.get_read, ParseState.get_read, ← Nat.add_assoc]
  have hsecond : after.ahead.get 0 = .token t₂ := by rw [hget, hget₂]
  have hthird : ((after.read t₂).ahead.get 0).kind? = some .endOfInput := by
    rw [ParseState.get_read, hget, hget₃]
    exact congrArg some ht₃
  have hdecl := (declaration_accumulate (includeUnit loader (program loader)) hget₀ ht₀).trans
    (Pairing.bind_of_ok (accumulateDecl_one t₀.span hunit hsecond ht₂))
  have hgoes : t₀.kind ≠ .endOfInput := by
    rw [ht₀]
    simp
  have hcontents := contents_of_declaration hs hget₀ hgoes hdecl
  rw [contents_of_end hthird] at hcontents
  exact ⟨_, after.read t₂, hcontents, rfl⟩

end

/-- The same outcome but for places, and the same vocabulary. The first has not seen one text, the other may
have. -/
structure Besides (digest : Digest) (x y : Except ParseError (List Decl) × ParseState) : Prop where
  result : SameOutcomeParts x.1 y.1
  vocabulary : x.2.vocabulary = y.2.vocabulary
  seen : ∀ d, d ≠ digest → (d ∈ x.2.seen ↔ d ∈ y.2.seen)

namespace Pairing

/-- One vocabulary, and the same texts seen but for one. The runs part where the first sees it too. -/
def besides (digest : Digest) : Pairing where
  admits W := W.left.vocabulary = W.right.vocabulary ∧ W.left.vocabulary.Reachable ∧
    ∀ d, d ≠ digest → (d ∈ W.left.seen ↔ d ∈ W.right.seen)
  spans := Anywhere
  spoiled seen := digest ∈ seen
  interchangeable hW := ⟨hW.2.1, hW.1 ▸ hW.2.1, fun _ _ => by rw [hW.1], by rw [hW.1]⟩
  admits_add a hW := ⟨congrArg a.apply hW.1, a.reachable_apply hW.2.1, hW.2.2⟩
  refl _ := trivial
  merge _ _ := trivial
  strip _ _ _ := trivial
  spoiled_mono hsub h := hsub h

theorem includes_besides (digest : Digest) (store : UnitStore) :
    (besides digest).Includes (besides digest).comparison.alikeAccount store.loader where
  marks :=
    { seen_iff := fun {W} d hW => by
        by_cases hd : d = digest
        · subst hd
          exact .inl List.mem_cons_self
        · exact .inr (hW.2.2 d hd)
      admits_mark := fun d hW => ⟨hW.1, hW.2.1, fun e he => by
        simp only [World.mark, List.mem_cons, hW.2.2 e he]⟩ }
  loads := loads_store store
  passes := passes_alike
  enters := enters_alike _

end Pairing

open Pairing

/-- A text is read alike whether or not a text has been seen that is not included in it. -/
theorem program_besides (store : UnitStore) {digest : Digest} (s s' : ParseState)
    (hv : s.vocabulary.Reachable) (hvocabulary : s.vocabulary = s'.vocabulary)
    (hseen : ∀ d, d ≠ digest → (d ∈ s.seen ↔ d ∈ s'.seen)) (hahead : s.ahead.Matches Anywhere s'.ahead)
    (hd : digest ∉ (program store.loader s).2.seen) :
    Besides digest (program store.loader s) (program store.loader s') := by
  have hstep : (besides digest).InStep ⟨s.moment, s'.moment⟩ s s' := ⟨rfl, rfl, hahead, trivial⟩
  have hkeep := keeps_program (includes_besides digest store) (W := ⟨s.moment, s'.moment⟩)
    ⟨hvocabulary, hv, hseen⟩
  obtain ⟨W, -, hW, he⟩ := (hkeep.together _ _ hstep).resolve_left hd
  have hj : (W.matching Anywhere).Joins .unlocated .unlocated :=
    joins_unlocated hW.2.1 hW.1
  have hends : ∀ {x y : ParseState}, x.moment = W.left → y.moment = W.right →
      x.vocabulary = y.vocabulary ∧ ∀ d, d ≠ digest → (d ∈ x.seen ↔ d ∈ y.seen) := by
    intro x y hx hy
    obtain ⟨hleft, -, hright⟩ := hW
    rw [← hx, ← hy] at hleft hright
    exact ⟨hleft, hright⟩
  rcases hp : program store.loader s with ⟨e | ds, s₁⟩ <;>
    rcases hq : program store.loader s' with ⟨e' | ds', s₁'⟩ <;> rw [hp, hq] at he
  · obtain ⟨halike, hleft, hright⟩ := he
    exact ⟨halike _ _ hj, (hends hleft hright).1, (hends hleft hright).2⟩
  · exact he.elim
  · exact he.elim
  · obtain ⟨halike, hs⟩ := he
    exact ⟨halike _ _ hj, (hends hs.left hs.right).1, (hends hs.left hs.right).2⟩

/-- Nothing that has been seen is forgotten. -/
theorem seen_subset_program (loader : Loader) {s : ParseState} (hv : s.vocabulary.Reachable) :
    s.seen ⊆ (program loader s).2.seen :=
  (keeps_program (includes_diagonal loader) (W := ⟨s.moment, s.moment⟩) ⟨rfl, hv⟩).alone.seen_subset rfl

/-- The units in what is read have all been seen. -/
theorem entries_subset_program (loader : Loader) {s s₁ : ParseState} {ds : List Decl}
    (hv : s.vocabulary.Reachable) (h : program loader s = (.ok ds, s₁)) :
    (entriesOf ds).map (·.1) ⊆ s₁.seen := by
  obtain ⟨W, -, -, hm, hr⟩ := (keeps_program (includes_visits loader)
    (W := ⟨s.moment, s.moment⟩) ⟨rfl, hv⟩).alone s rfl
  rw [h] at hm hr
  obtain ⟨_, hvisits⟩ := hr ds rfl
  have hvisits : Visits loader s.moment W.left (entriesOf ds) := hvisits
  intro d hd
  have hseen : s₁.seen = W.left.seen := congrArg Moment.seen hm
  rw [hseen]
  exact (hvisits.seen d).2 (.inr hd)

/-- The directive in front of a text, and the text of the unit in front of it, lead to states that differ in
having seen the text. -/
theorem program_directive (store : UnitStore) {directive name : String} {unit : Source}
    {v : Vocabulary} (hv : v.Reachable) (seen : List Digest) (source : String)
    (hname : store.find? name = some unit) (hdirective : Directs directive name) {decls : List Decl}
    {s : ParseState} (h : program store.loader (.initial v seen source unit.text) = (.ok decls, s))
    (honce : unit.digest ∉ s.seen) :
    ∃ span decls' s', program store.loader (.initial v seen source directive) =
        (.ok [.accumulated span [(unit.digest, decls')]], s') ∧
      SameParts decls decls' ∧ s.vocabulary = s'.vocabulary ∧
      ∀ d, d ≠ unit.digest → (d ∈ s.seen ↔ d ∈ s'.seen) := by
  let start : ParseState := .initial v seen source directive
  have hunseen : unit.digest ∉ seen := by
    have hsub := seen_subset_program store.loader (s := .initial v seen source unit.text) hv
    rw [h] at hsub
    exact fun hmem => honce (hsub hmem)
  have hbesides : Besides unit.digest (program store.loader (.initial v seen source unit.text))
      (program store.loader (start.entering unit)) := by
    refine program_besides store _ _ hv rfl (fun d hd => ?_) ?_ (by rwa [h])
    · exact (List.mem_cons.trans (or_iff_right hd)).symm
    · exact Scan.ofText_matches source unit.name unit.text
  rw [h] at hbesides
  obtain ⟨hresult, hvocabulary, hseen⟩ := hbesides
  rcases hu : program store.loader (start.entering unit) with ⟨_ | decls', s₂⟩
  · rw [hu] at hresult
    exact hresult.elim
  rw [hu] at hresult hvocabulary hseen
  obtain ⟨kind, hkind, hspells⟩ := hdirective
  have hload : ∀ span, store.loader.load span name = .ok unit := by
    intro span
    simp only [UnitStore.loader, hname]
  obtain ⟨span, s₃, hcontents, hmoment⟩ := contents_directive (steady_initial hv seen source directive)
    hkind (hspells.ofText source) hload hunseen hu
  obtain ⟨hends, hendsMoment⟩ := contents_ends_eq store.loader (s := start) hv
  rw [hcontents] at hends hendsMoment
  have hafter := hendsMoment.symm.trans hmoment
  refine ⟨span, decls', (program store.loader start).2, Prod.ext hends.symm rfl, hresult, ?_, ?_⟩
  · exact hvocabulary.trans (congrArg Moment.vocabulary hafter).symm
  · have hsame : (program store.loader start).2.seen = s₂.seen := congrArg Moment.seen hafter
    rwa [hsame]

end Parse

/-- Two programs, one with a unit included and the other with its text in place, are both read or neither,
with the same vocabulary left, and both nested alike or neither. -/
structure IncludedInPlace (whole inline : Except ParseError (List Decl) × Vocabulary) : Prop where
  vocabulary : whole.2 = inline.2
  result : BothOrNeither (fun ds ds' => BothOrNeither NestedProgram.Alike (nest ds) (nest ds'))
    whole.1 inline.1

namespace SameOutcomeParts

variable {α : Type} [Labeled α] {x y z : Except ParseError α}

theorem symm (h : SameOutcomeParts x y) : SameOutcomeParts y x := by
  cases x <;> cases y
  · exact Eq.symm h
  · exact h
  · exact h
  · exact Eq.symm h

theorem trans (h : SameOutcomeParts x y) (g : SameOutcomeParts y z) : SameOutcomeParts x z := by
  cases x <;> cases y <;> cases z
  · exact Eq.trans h g
  · exact g
  · exact h.elim
  · exact h.elim
  · exact h.elim
  · exact h.elim
  · exact g.elim
  · exact Eq.trans h g

end SameOutcomeParts

section

open Parse

variable {store : UnitStore} {v : Vocabulary} {directive name : String} {unit : Source}
variable {front decls : List Decl} {s₁ s₂ : ParseState}

/-- Including a unit is including its text: where the texts before the directive and of the unit are read
without fault, and no other inclusion reaches the same text, the directive may be replaced by the text. -/
theorem parseText_accumulated (hv : v.Reachable) (source pre post : String) 
    (hname : store.find? name = some unit) (hdirective : Directs directive name)
    (hpre : (program store.loader).run (.initial v [] source pre) = (.ok front, s₁))
    (hunit : (program store.loader).run (.initial s₁.vocabulary s₁.seen source unit.text) =
      (.ok decls, s₂))
    (honce : unit.digest ∉ ((program store.loader).run (.initial v [] source
      (pre ++ "\n" ++ unit.text ++ "\n" ++ post ++ "\n"))).2.seen) :
    IncludedInPlace
      (parseText v store.loader source (pre ++ "\n" ++ directive ++ "\n" ++ post ++ "\n"))
      (parseText v store.loader source (pre ++ "\n" ++ unit.text ++ "\n" ++ post ++ "\n")) := by
  have htext : ∀ text : String, pre ++ "\n" ++ text ++ "\n" ++ post ++ "\n" =
      pre ++ "\n" ++ (text ++ "\n" ++ (post ++ "\n")) := by
    intro text
    simp only [String.append_assoc]
  rw [htext] at honce
  rw [htext, htext]
  -- The text in place: before it, the text itself, and behind it.
  obtain ⟨hv₁, hinline⟩ := program_joined store hv [] source source pre
    (unit.text ++ "\n" ++ (post ++ "\n")) hpre
  obtain ⟨hv₂, hinside⟩ := program_joined store hv₁ s₁.seen source source unit.text (post ++ "\n") hunit
  have honce₃ : unit.digest ∉
      (program store.loader (.initial s₂.vocabulary s₂.seen source (post ++ "\n"))).2.seen := by
    rw [← hinside.seen, ← hinline.seen]
    exact honce
  have honce₂ : unit.digest ∉ s₂.seen := fun hmem =>
    honce₃ (seen_subset_program store.loader (s := .initial _ _ source (post ++ "\n")) hv₂ hmem)
  -- The directive instead.
  obtain ⟨span, decls', s₃, hdirected, hdecls, hvocabulary, hseen⟩ :=
    program_directive store hv₁ s₁.seen source hname hdirective hunit honce₂
  obtain ⟨-, hwhole⟩ := program_joined store hv [] source source pre
    (directive ++ "\n" ++ (post ++ "\n")) hpre
  obtain ⟨-, hbehind⟩ := program_joined store hv₁ s₁.seen source source directive (post ++ "\n") hdirected
  have hpost := program_besides store (.initial s₂.vocabulary s₂.seen source (post ++ "\n"))
    (.initial s₃.vocabulary s₃.seen source (post ++ "\n")) hv₂ hvocabulary hseen
    (.refl (fun _ => trivial) _) honce₃
  refine ⟨?_, ?_⟩
  · exact hwhole.vocabulary.trans (hbehind.vocabulary.trans
      (hpost.vocabulary.symm.trans (hinside.vocabulary.symm.trans hinline.vocabulary.symm)))
  obtain ⟨rest, hrest, hrestParts⟩ := hwhole.result
  obtain ⟨back, hback, hbackParts⟩ := hbehind.result
  obtain ⟨rest', hrest', hrestParts'⟩ := hinline.result
  obtain ⟨back', hback', hbackParts'⟩ := hinside.result
  have hbacks := hbackParts.trans (hpost.result.symm.trans hbackParts'.symm)
  rw [hback] at hrestParts
  rw [hback'] at hrestParts'
  change BothOrNeither _ (program store.loader _).1 (program store.loader _).1
  rw [hrest, hrest']
  cases back with
  | error e =>
    cases back' with
    | error e' =>
      cases rest <;> cases rest'
      · trivial
      · exact hrestParts'.elim
      · exact hrestParts.elim
      · exact hrestParts.elim
    | ok es' => exact hbacks.elim
  | ok es =>
    cases back' with
    | error e' => exact hbacks.elim
    | ok es' =>
      cases rest with
      | error e => exact hrestParts.elim
      | ok ds =>
        cases rest' with
        | error e' => exact hrestParts'.elim
        | ok ds' =>
          have hparts : SameParts ds' (decls' ++ es) :=
            Eq.trans hrestParts' (SameParts.append hdecls (Eq.symm hbacks))
          refine nest_alike hrestParts hparts fun hmem => honce ?_
          exact entries_subset_program store.loader hv (Prod.ext hrest' rfl) hmem

end

/-- A unit that declares an operator and opens a block. -/
def opener : Source := ⟨"ops", "infix is 50. \x7b q."⟩

def openerStore : UnitStore := ⟨[(opener.name, opener.text)]⟩

open Parse in
/-- The operator is used and the block is closed behind the directive. -/
theorem parseText_opener :
    IncludedInPlace
        (parseText .initial openerStore.loader "main"
          ("p." ++ "\n" ++ "accumulate ops." ++ "\n" ++ "x is y. \x7d" ++ "\n"))
        (parseText .initial openerStore.loader "main"
          ("p." ++ "\n" ++ opener.text ++ "\n" ++ "x is y. \x7d" ++ "\n")) ∧
      (parseText .initial openerStore.loader "main"
        ("p." ++ "\n" ++ opener.text ++ "\n" ++ "x is y. \x7d" ++ "\n")).1.isOk = true := by
  have hok : ∀ r, (program openerStore.loader).run (.initial .initial [] "main" "p.") = r →
      r.1.isOk = true ∧ ((program openerStore.loader).run
        (.initial r.2.vocabulary r.2.seen "main" opener.text)).1.isOk = true := by
    rintro _ rfl
    decide +kernel
  have hwhole : ∀ r, (program openerStore.loader).run (.initial .initial [] "main"
      ("p." ++ "\n" ++ opener.text ++ "\n" ++ "x is y. \x7d" ++ "\n")) = r →
        r.1.isOk = true ∧ r.2.seen = [] := by
    rintro _ rfl
    decide +kernel
  obtain ⟨hread, hseen⟩ := hwhole _ rfl
  have hname : openerStore.find? "ops" = some opener := by decide
  have hdirective : Directs "accumulate ops." "ops" :=
    directs_name (.name (by decide) (by decide))
  rcases hpre : (program openerStore.loader).run (.initial .initial [] "main" "p.") with ⟨_ | front, s₁⟩
  · exact Bool.noConfusion (hok _ hpre).1
  rcases hunit : (program openerStore.loader).run
      (.initial s₁.vocabulary s₁.seen "main" opener.text) with ⟨_ | decls, s₂⟩
  · have hok' := (hok _ hpre).2
    rw [hunit] at hok'
    exact Bool.noConfusion hok'
  · have honce : opener.digest ∉ ((program openerStore.loader).run (.initial .initial [] "main"
        ("p." ++ "\n" ++ opener.text ++ "\n" ++ "x is y. \x7d" ++ "\n"))).2.seen := by
      rw [hseen]
      exact List.not_mem_nil
    exact ⟨parseText_accumulated .initial "main" "p." "x is y. \x7d" hname hdirective hpre hunit honce,
      hread⟩

end Clausal
