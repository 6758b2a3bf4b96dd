import Clausal.Proofs.DeclarationRows
import Clausal.Proofs.Stages

/-!
# Who receives the anonymous variables

A `_` that is read as a term is the next anonymous variable, and so is each part that a sequent lacks. A term
that is read has as many of them as there are such tokens, and the sequents of a rule are filled up one
after the other. This holds of every state of a reader in the course of a session, with a log of the names
that have come up until then, and whatever is in the log is fresh.
-/
namespace Clausal

open SymbolTable (variableName)

namespace Parse

variable {s : ParseState}

/-- `_` comes next, as a term: it is no operator, and where a name may bind, no backslash follows. -/
structure FacesUnderscore (s : ParseState) (limit : Nat) (span : Span) : Prop where
  get : s.ahead.get 0 = .token ⟨.ident "_", span⟩
  operator : operatorSymbol? s.vocabulary (.ident "_") = none
  binds : limit ≤ Precedence.binder → ∃ t, s.ahead.get 1 = .token t ∧ t.kind ≠ .backslash

/-- The state behind a `_` that has been read as a term. -/
def behindUnderscore (s : ParseState) (span : Span) : ParseState :=
  { s with vocabulary := s.vocabulary.freshVariable.2, ahead := s.ahead.drop 1, last := span }

theorem atomic_underscore {limit : Nat} {span : Span} (h : FacesUnderscore s limit span) (n : Nat) :
    (atomic (n + 1) limit).run s = (.ok s.vocabulary.freshVariable.1, behindUnderscore s span) := by
  change atomic (n + 1) limit s = _
  rw [atomic, Pairing.bind_of_ok (next_of_token h.get)]
  dsimp only
  have hbinds : ∀ s₁ : ParseState, s₁.ahead = s.ahead.drop 1 → bindsAt limit s₁ = (.ok false, s₁) := by
    intro s₁ hs₁
    unfold bindsAt
    split_ifs with hl
    · obtain ⟨t, ht, hk⟩ := h.binds hl
      have hget : s₁.ahead.get 0 = .token t := by rw [hs₁, Scan.get_drop, ht]
      rw [Pairing.bind_of_ok (peek_of_token hget)]
      simp only [hk, decide_false]
      rfl
    · rfl
  rw [Pairing.bind_of_ok (hbinds _ rfl), if_neg Bool.false_ne_true]
  have hvocabulary : ∀ s₁ : ParseState, vocabulary s₁ = (.ok s₁.vocabulary, s₁) := fun _ => rfl
  rw [Pairing.bind_of_ok (hvocabulary _), h.operator]
  rfl

end Parse

/-- The eigenvariable and the context that a term shows as a sequent, and its conclusion. -/
inductive ShowsSequent (t : Term) : Option Term → Option Term → Term → Prop
  | full {front eigen context conclusion : Term} (h : t.argsOf? Symbol.turnstile = some [front, conclusion])
      (hfront : front.argsOf? Symbol.colon = some [eigen, context]) :
      ShowsSequent t (some eigen) (some context) conclusion
  | unnamed {front conclusion : Term} (h : t.argsOf? Symbol.turnstile = some [front, conclusion])
      (hfront : ∀ eigen context, front.argsOf? Symbol.colon ≠ some [eigen, context]) :
      ShowsSequent t none (some front) conclusion
  | bare (h : ∀ front conclusion, t.argsOf? Symbol.turnstile ≠ some [front, conclusion]) :
      ShowsSequent t none none t

/-- A part, or the next anonymous variable if it is missing. -/
def Vocabulary.fill (v : Vocabulary) : Option Term → Term × Vocabulary
  | some t => (t, v)
  | none => v.freshVariable

/-- The names that come up when a part is filled in. -/
def Vocabulary.lacks (v : Vocabulary) : Option Term → List Naming
  | some _ => []
  | none => [.anonymous v.symbols]

namespace Parse

variable {s s₁ s' : ParseState} {E F : List Naming}

theorem onward_fill (s : ParseState) (part : Option Term) :
    Onward s (s.vocabulary.lacks part) { s with vocabulary := (s.vocabulary.fill part).2 } := by
  cases part with
  | some _ => exact .refl s
  | none => exact .freshVariable s

/-- What a term shows of a sequent is kept, and what is missing is filled in. -/
theorem sequentOf_fills (s : ParseState) (t : Term) :
    ∃ eigen context conclusion, ShowsSequent t eigen context conclusion ∧
      (sequentOf t).run s = (.ok ⟨(s.vocabulary.fill eigen).1,
          ((s.vocabulary.fill eigen).2.fill context).1, conclusion⟩,
        { s with vocabulary := ((s.vocabulary.fill eigen).2.fill context).2 }) := by
  unfold sequentOf
  split
  · next front conclusion h =>
    split
    · next eigen context hfront => exact ⟨_, _, _, .full h hfront, rfl⟩
    · next hfront => exact ⟨_, _, _, .unnamed h hfront, rfl⟩
  · next h => exact ⟨_, _, _, .bare h, rfl⟩

/-- The sequents are read one after the other, each from a closed term, and between them other things may
be read. -/
inductive SequentsRead : ParseState → List Sequent → List Naming → ParseState → Prop
  | none {s s' : ParseState} {E : List Naming} (h : Onward s E s') : SequentsRead s [] E s'
  | more {s s₁ s₂ s₃ s' : ParseState} {E F G H : List Naming} {t : Term} {q : Sequent} {qs : List Sequent}
      (h : Onward s E s₁) (ht : closedTerm.run s₁ = (.ok t, s₂)) (hterm : Onward s₁ F s₂)
      (hq : (sequentOf t).run s₂ = (.ok q, s₃)) (hsequent : Onward s₂ G s₃)
      (hqs : SequentsRead s₃ qs H s') : SequentsRead s (q :: qs) (E ++ (F ++ (G ++ H))) s'

namespace SequentsRead

variable {qs rs : List Sequent}

theorem onward (h : SequentsRead s qs E s') : Onward s E s' := by
  induction h with
  | none h => exact h
  | more h _ hterm _ hsequent _ ih => exact h.trans (hterm.trans (hsequent.trans ih))

theorem behind (h : SequentsRead s₁ qs F s') (g : Onward s E s₁) : SequentsRead s qs (E ++ F) s' := by
  cases h with
  | none h => exact .none (g.trans h)
  | more h ht hterm hq hsequent hqs =>
    rw [← List.append_assoc]
    exact .more (g.trans h) ht hterm hq hsequent hqs

theorem append (h : SequentsRead s qs E s₁) (g : SequentsRead s₁ rs F s') :
    SequentsRead s (qs ++ rs) (E ++ F) s' := by
  induction h with
  | none h => exact g.behind h
  | more h ht hterm hq hsequent _ ih =>
    simp only [List.append_assoc, List.cons_append]
    exact .more h ht hterm hq hsequent (ih g)

end SequentsRead

/-- The step reads sequents in turn, and what it gives is as it should be for them. -/
def Gathers {α : Type} (p : Parse α) (Q : List Sequent → α → Prop) : Prop :=
  ∀ ⦃E s a s'⦄, Stage E s → p.run s = (.ok a, s') → ∃ qs F, SequentsRead s qs F s' ∧ Q qs a

namespace Gathers

variable {α β : Type} {p : Parse α} {f : α → Parse β} {Q : List Sequent → α → Prop}
variable {R : List Sequent → β → Prop}

theorem pure {a : α} (h : Q [] a) : Gathers (Pure.pure a) Q := by
  intro E s b s' _ hrun
  obtain ⟨rfl, rfl⟩ := eq_ok_of_pure hrun
  exact ⟨[], [], .none (.refl _), h⟩

theorem bind (hp : Gathers p Q) (hf : ∀ qs a, Q qs a → Gathers (f a) fun more b => R (qs ++ more) b) :
    Gathers (p >>= f) R := by
  intro E s b s' hs hrun
  obtain ⟨a, s₁, ha, hrun⟩ := bind_eq_ok hrun
  obtain ⟨qs, F, hqs, hQ⟩ := hp hs ha
  obtain ⟨more, G, hmore, hR⟩ := hf qs a hQ (hs.onward hqs.onward) hrun
  exact ⟨qs ++ more, F ++ G, hqs.append hmore, hR⟩

theorem map {g : α → β} (hp : Gathers p Q) (hg : ∀ qs a, Q qs a → R qs (g a)) : Gathers (g <$> p) R :=
  hp.bind fun qs a ha => pure (by simpa using hg qs a ha)

/-- A step that reads no sequent. -/
theorem of_moves (hp : Moves p) : Gathers p fun qs _ => qs = [] := by
  intro E s a s' hs hrun
  obtain ⟨F, -, hF⟩ := hp hs hrun
  exact ⟨[], F, .none hF, rfl⟩

theorem moves_bind (hp : Moves p) (hf : ∀ a, Gathers (f a) R) : Gathers (p >>= f) R := by
  refine (of_moves hp).bind ?_
  rintro _ a rfl
  exact hf a

theorem rounds {I : List Sequent → α → Prop} {body : α → Parse (Round α β)}
    (hbody : ∀ qs a, I qs a →
      Gathers (body a) fun more => Adds.RoundResult (I (qs ++ more)) (R (qs ++ more))) (n : Nat)
    {qs : List Sequent} {a : α} (ha : I qs a) : Gathers (rounds body n a) fun more => R (qs ++ more) := by
  induction n generalizing qs a with
  | zero => exact fun E s b s' _ hrun => (by cases hrun)
  | succ n ih =>
    refine (hbody qs a ha).bind fun more round hround => ?_
    simp only [← List.append_assoc]
    cases round with
    | again a => exact ih hround
    | done b => exact pure (by simpa [Adds.RoundResult] using hround)

theorem repeated {I : List Sequent → α → Prop} {body : α → Parse (Round α β)} {a : α} (ha : I [] a)
    (hbody : ∀ qs a, I qs a →
      Gathers (body a) fun more => Adds.RoundResult (I (qs ++ more)) (R (qs ++ more))) :
    Gathers (repeated body a) R :=
  fun _ s _ _ hs hrun => rounds hbody (s.ahead.items.length + 1) ha hs hrun

theorem sequent : Gathers sequent fun qs q => qs = [q] := by
  intro E s q s' hs hrun
  obtain ⟨t, s₁, ht, hq⟩ := bind_eq_ok hrun
  obtain ⟨F, -, hterm⟩ := Moves.expressionAt _ _ hs ht
  obtain ⟨eigen, context, conclusion, -, hfills⟩ := sequentOf_fills s₁ t
  obtain ⟨-, rfl⟩ := Prod.mk.inj (hq.symm.trans hfills)
  have hsequent := (onward_fill s₁ eigen).trans (onward_fill _ context)
  exact ⟨[q], _, .more (.refl s) ht hterm hq hsequent (.none (.refl _)), rfl⟩

theorem sequents : Gathers sequents fun qs found => qs = found := by
  refine repeated (I := fun qs found => qs = found) rfl fun qs found hfound => moves_bind Moves.peek fun t => ?_
  split_ifs
  · exact pure (by simpa [Adds.RoundResult] using hfound)
  · refine sequent.bind ?_
    rintro _ q rfl
    exact pure (by simpa [Adds.RoundResult] using hfound)

section

variable (start : Span) (attributes : List Attribute) (matched removed : List Sequent) (guard : Option Term)

/-- The rule is what has been read of it, with the sequents that follow. -/
theorem ruleDecl_goal :
    Gathers (do
      let goal ← if ← Parse.eatSymbol "<=>" then some <$> Parse.sequent else Pure.pure none
      let _ ← Parse.expect .stop
      Pure.pure (Decl.rule ⟨matched, removed, guard, goal, attributes, ← Parse.spanFrom start⟩)) fun more d =>
        ∃ r, d = .rule r ∧ matched ++ (removed ++ more) = r.matched ++ (r.removed ++ r.goal.toList) := by
  have hend : ∀ goal : Option Sequent, Gathers (do
      let _ ← Parse.expect .stop
      Pure.pure (Decl.rule ⟨matched, removed, guard, goal, attributes, ← Parse.spanFrom start⟩)) fun more d =>
        ∃ r, d = .rule r ∧
          matched ++ (removed ++ (goal.toList ++ more)) = r.matched ++ (r.removed ++ r.goal.toList) :=
    fun goal => moves_bind (Moves.expect _) fun _ => moves_bind (Moves.spanFrom _) fun span =>
      pure ⟨_, rfl, by simp⟩
  refine moves_bind (Moves.eatSymbol _) fun arrow => ?_
  dsimp only
  split_ifs
  · refine (sequent.map (R := fun qs goal => qs = goal.toList) fun qs q hq => hq).bind ?_
    rintro _ goal rfl
    exact hend goal
  · refine Gathers.bind (Q := fun qs goal => qs = [] ∧ goal = none) (pure ⟨rfl, rfl⟩) ?_
    rintro _ _ ⟨rfl, rfl⟩
    exact hend none

theorem ruleDecl_guard :
    Gathers (do
      let guard ← if ← Parse.eatSymbol "|" then some <$> Parse.closedTerm else Pure.pure none
      let goal ← if ← Parse.eatSymbol "<=>" then some <$> Parse.sequent else Pure.pure none
      let _ ← Parse.expect .stop
      Pure.pure (Decl.rule ⟨matched, removed, guard, goal, attributes, ← Parse.spanFrom start⟩)) fun more d =>
        ∃ r, d = .rule r ∧ matched ++ (removed ++ more) = r.matched ++ (r.removed ++ r.goal.toList) := by
  refine moves_bind (Moves.eatSymbol _) fun bar => ?_
  dsimp only
  split_ifs
  · refine ((of_moves (Moves.expressionAt _ _)).map (R := fun qs _ => qs = []) fun _ _ h => h).bind ?_
    rintro _ guard rfl
    exact ruleDecl_goal start attributes matched removed guard
  · refine Gathers.bind (Q := fun qs _ => qs = []) (pure rfl) ?_
    rintro _ guard rfl
    exact ruleDecl_goal start attributes matched removed guard

theorem ruleDecl :
    Gathers (ruleDecl start attributes) fun qs d =>
      ∃ r, d = .rule r ∧ qs = r.matched ++ (r.removed ++ r.goal.toList) := by
  refine sequents.bind ?_
  rintro _ matched rfl
  refine moves_bind Moves.peek fun t => ?_
  dsimp only
  split_ifs
  · refine moves_bind Moves.next fun _ => sequents.bind ?_
    rintro _ removed rfl
    exact ruleDecl_guard start attributes _ _
  · refine Gathers.bind (Q := fun qs removed => qs = [] ∧ removed = []) (pure ⟨rfl, rfl⟩) ?_
    rintro _ _ ⟨rfl, rfl⟩
    exact ruleDecl_guard start attributes _ []

end

end Gathers

end Parse

/-- What the readers make of a `_` and of a missing part from a state of a session on. -/
structure MintsFresh (E : List Naming) (s : ParseState) : Prop where
  /-- What has been minted until then is fresh, and stays so whatever names come up later. -/
  fresh : ∀ F w, Becomes s.vocabulary F w → Naming.AllPlain F → Fresh (E ++ F) w.symbols
  later : ∀ F s', Onward s F s' → Stage (E ++ F) s'
  /-- Another text may be included here. -/
  enters : ∀ seen source text, Stage E (.initial s.vocabulary seen source text)
  underscore : ∀ limit span, Parse.FacesUnderscore s limit span →
    Onward s [.anonymous s.vocabulary.symbols] (Parse.behindUnderscore s span) ∧
      ∀ n, (Parse.atomic (n + 1) limit).run s =
        (.ok s.vocabulary.freshVariable.1, Parse.behindUnderscore s span)
  /-- Each `_` among the tokens of a term is another anonymous variable in it. -/
  term : ∀ limit strict t s', (Parse.expressionAt limit strict).run s = (.ok t, s') →
    ∃ C F, s.Takes C s' ∧ Parse.Runs (Parse.expressionAt limit strict) s F ∧ Onward s F s' ∧
      (F.filterMap Naming.anonymous?).length = Grammar.anonymousCount s.vocabulary C ∧
        ∀ a, .anonymous a ∈ F → t.Mentions a.freshVariable.1
  /-- Each part that a sequent lacks is another anonymous variable. -/
  sequent : ∀ t, ∃ eigen context conclusion, ShowsSequent t eigen context conclusion ∧
    let first := s.vocabulary.fill eigen
    let second := first.2.fill context
    (Parse.sequentOf t).run s =
        (.ok ⟨first.1, second.1, conclusion⟩, { s with vocabulary := second.2 }) ∧
      Onward s (s.vocabulary.lacks eigen ++ first.2.lacks context) { s with vocabulary := second.2 }
  /-- All sequents of a rule are read in this way. -/
  rule : ∀ start attributes d s', (Parse.ruleDecl start attributes).run s = (.ok d, s') →
    ∃ r F, d = .rule r ∧ Parse.SequentsRead s (r.matched ++ (r.removed ++ r.goal.toList)) F s'

namespace Stage

variable {E F : List Naming} {s s' : ParseState}

/-- What is minted behind a stage is in no table before it. -/
theorem variableName_notMem (h : Stage E s) (g : Onward s F s') {a : SymbolTable}
    (ha : .anonymous a ∈ F) : variableName (a.variableCount + 1) ∉ s.vocabulary.symbols.names := by
  intro hmem
  have hcount := g.becomes.leads.anonymous_increasing.2 a (Naming.mem_filterMap_anonymous.2 ha)
  rcases h.orderly _ hmem with hp | ⟨n, hn, he⟩ | ⟨n, he⟩
  · exact SymbolTable.not_plain_variableName _ hp
  · have := SymbolTable.variableName_injective he
    omega
  · exact SymbolTable.variableName_ne_constantName _ n he

/-- A term that brings in so many anonymous variables mentions those that have been minted for it. -/
theorem mentions (h : Stage E s) (g : Onward s F s') {t : Term} {n : Nat}
    (ht : s.vocabulary.Gains t n s'.vocabulary) {a : SymbolTable} (ha : .anonymous a ∈ F) :
    t.Mentions a.freshVariable.1 := by
  have hleads := g.becomes.leads
  obtain ⟨-, hname⟩ := hleads.anonymous_spec g.plain h.orderly ha
  have hmem := Vocabulary.mem_names_of_name? hname
  rcases (ht.names _).1 hmem with hold | ⟨x, hx, hxname⟩
  · exact absurd hold (h.variableName_notMem g ha)
  · have hw := (g.reachable h.reachable).wellFormed.symbols
    obtain rfl := Option.some.inj ((hw.lookup_of_name? hxname).symm.trans (hw.lookup_of_name? hname))
    exact hx

theorem mintsFresh (h : Stage E s) : MintsFresh E s where
  fresh _ _ hF hplain := h.fresh hF hplain
  later _ _ := h.onward
  enters := h.enters
  underscore _ _ hfaces := ⟨(Onward.read s _).trans (.freshVariable _), Parse.atomic_underscore hfaces⟩
  term limit strict t s' hrun := by
    obtain ⟨F, hruns, hF⟩ := Parse.Moves.expressionAt limit strict h hrun
    obtain ⟨C, htakes, hgains⟩ := gains_of_expressionAt h.reachable.wellFormed h.aheadEnds hrun
    refine ⟨C, F, htakes, hruns, hF, ?_, fun a ha => h.mentions hF hgains ha⟩
    have hcount := hF.becomes.leads.variableCount_eq
    rw [hgains.variableCount] at hcount
    omega
  sequent t := by
    obtain ⟨eigen, context, conclusion, hshows, hrun⟩ := Parse.sequentOf_fills s t
    exact ⟨eigen, context, conclusion, hshows, hrun,
      (Parse.onward_fill s eigen).trans (Parse.onward_fill _ context)⟩
  rule start attributes d s' hrun := by
    obtain ⟨qs, F, hqs, r, hd, rfl⟩ := Parse.Gathers.ruleDecl start attributes h hrun
    exact ⟨r, F, hd, hqs⟩

end Stage

/-- In every session, each `_` that is read as a term and each part that a sequent lacks receives the next
anonymous variable, and all of these are fresh, whatever is read before or after. So it is at the beginning
of every text and, as one declaration leads to the next, of every declaration. -/
theorem session_fresh (calls : List Call) :
    (∃ E, (∀ seen source text, Stage E (.initial (session calls) seen source text)) ∧
      ∀ more, ∃ F, Becomes (session calls) F (session (calls ++ more)) ∧
        Fresh (E ++ F) (session (calls ++ more)).symbols) ∧
    (∀ E s, Stage E s → MintsFresh E s) ∧
    (∀ loader body, Parse.Staged body → Parse.Staged (Parse.declaration (Parse.includeUnit loader body))) ∧
      ∀ loader depth, Parse.Staged (Parse.unitBody loader depth) := by
  refine ⟨?_, fun E s h => h.mintsFresh, fun loader body hbody => ?_, Parse.Staged.unitBody⟩
  · obtain ⟨E, hE, hplain⟩ := Grows.foldl_apply calls .initial
    have hstage : ∀ seen source text, Stage E (.initial (session calls) seen source text) := fun _ source text =>
      ⟨hE, hplain, reachable_session calls, Scan.plain_ofText source text, Scan.ends_ofText source text⟩
    refine ⟨E, hstage, fun more => ?_⟩
    have hsession : session (calls ++ more) = more.foldl Call.apply (session calls) := List.foldl_append
    obtain ⟨F, hF, hplain'⟩ := Grows.foldl_apply more (session calls)
    rw [hsession]
    exact ⟨F, hF, (hstage [] "" "").fresh hF hplain'⟩
  · exact Parse.Staged.declaration fun span name => Parse.Staged.includeUnit loader hbody span name

/-- A `_` behind a text that has broken off. -/
theorem session_fresh_behindFailure :
    let v := session [.term "f _ (_"]
    ∃ E s', Stage (E ++ [.anonymous v.symbols]) s' ∧
      (Parse.atomic 1 Precedence.lowest).run (.initial v [] "s" "_") = (.ok (.const ⟨27⟩), s') ∧
        (Fresh (E ++ [.anonymous v.symbols]) s'.vocabulary.symbols ∧
          s'.vocabulary.symbols.name? ⟨27⟩ = some "_-3") := by
  intro v
  have hget : (Scan.ofText "s" "_").get 0 = .token ⟨.ident "_", ⟨"s", 0, 1, 1, 0⟩⟩ := by decide +kernel
  have hend : (Scan.ofText "s" "_").get 1 = .token ⟨.endOfInput, ⟨"s", 1, 1, 1, 0⟩⟩ := by decide +kernel
  have hfaces : Parse.FacesUnderscore (.initial v [] "s" "_") Precedence.lowest ⟨"s", 0, 1, 1, 0⟩ :=
    ⟨hget, by decide +kernel, fun _ => ⟨_, hend, by decide⟩⟩
  have hvariable : v.freshVariable.1 = .const ⟨27⟩ := by decide +kernel
  obtain ⟨⟨E, hstage, -⟩, hmints, -⟩ := session_fresh [.term "f _ (_"]
  have h := hmints E _ (hstage [] "s" "_")
  obtain ⟨honward, hrun⟩ := h.underscore Precedence.lowest _ hfaces
  exact ⟨E, _, h.later _ _ honward, hvariable ▸ hrun 0, h.fresh _ _ honward.becomes honward.plain,
    by decide +kernel⟩

-- A reading that fails keeps what it has minted.
example : (session [.term "f _ (_", .constant, .term "_"]).symbols.names.toList.drop 24 =
    ["f", "_-1", "_-2", "__-1", "_-3"] := by
  decide +kernel

end Clausal
