import Clausal.Proofs.BuiltTerms
import Clausal.Proofs.FreshVariables
import Clausal.Proofs.ProgramOutcomes

/-!
# The states of readers in a session

A stage is a state of a reader in the course of a session, with a log of the names that have come up until
then. Whatever is read, a reader comes from one stage to another, also where units are included. The
readers that declarations are made of go on in the same text.
-/
namespace Clausal

/-- A state of a reader in the course of a session, with the names that have been written and minted. -/
structure Stage (E : List Naming) (s : ParseState) : Prop where
  becomes : Becomes .initial E s.vocabulary
  plain : Naming.AllPlain E
  reachable : s.vocabulary.Reachable
  aheadPlain : s.ahead.Plain
  aheadEnds : s.ahead.Ends

/-- From one state of a reader to a later one in the same text, with the names that come up on the way. -/
structure Onward (s : ParseState) (E : List Naming) (s' : ParseState) : Prop where
  becomes : Becomes s.vocabulary E s'.vocabulary
  plain : Naming.AllPlain E
  reachable : s.vocabulary.Reachable → s'.vocabulary.Reachable
  ahead : ∃ k, s'.ahead = s.ahead.drop k

namespace Onward

variable {s s₁ s' : ParseState} {E F : List Naming}

theorem refl (s : ParseState) : Onward s [] s := ⟨.refl _, Naming.allPlain_nil, id, 0, rfl⟩

theorem trans (h : Onward s E s₁) (g : Onward s₁ F s') : Onward s (E ++ F) s' := by
  obtain ⟨j, hj⟩ := h.ahead
  obtain ⟨k, hk⟩ := g.ahead
  exact ⟨h.becomes.trans g.becomes, Naming.allPlain_append h.plain g.plain,
    fun hv => g.reachable (h.reachable hv), j + k, by rw [hk, hj, Scan.drop_drop]⟩

/-- The next anonymous variable is minted, and nothing is read. -/
theorem freshVariable (s : ParseState) :
    Onward s [.anonymous s.vocabulary.symbols] { s with vocabulary := s.vocabulary.freshVariable.2 } where
  becomes := .reads (s := s) .missing
  plain := Naming.allPlain_anonymous _
  reachable h := .freshVariable h
  ahead := ⟨0, rfl⟩

theorem read (s : ParseState) (span : Span) :
    Onward s [] { s with ahead := s.ahead.drop 1, last := span } :=
  ⟨.refl _, Naming.allPlain_nil, id, 1, rfl⟩

end Onward

namespace Stage

variable {s s' : ParseState} {E F : List Naming}

theorem onward (h : Stage E s) (g : Onward s F s') : Stage (E ++ F) s' := by
  obtain ⟨k, hk⟩ := g.ahead
  refine ⟨h.becomes.trans g.becomes, Naming.allPlain_append h.plain g.plain, g.reachable h.reachable, ?_, ?_⟩
  · rw [hk]
    exact ⟨fun i hi => h.aheadPlain.1 i (List.mem_of_mem_drop hi), h.aheadPlain.2⟩
  · rw [hk]
    exact h.aheadEnds

theorem fresh {w : Vocabulary} (h : Stage E s) (hF : Becomes s.vocabulary F w) (hplain : Naming.AllPlain F) :
    Fresh (E ++ F) w.symbols :=
  (h.becomes.trans hF).leads.fresh (Naming.allPlain_append h.plain hplain)

theorem orderly (h : Stage E s) : s.vocabulary.symbols.Orderly :=
  h.becomes.leads.orderly h.plain SymbolTable.orderly_initial

/-- Another text may be read from here. -/
theorem enters (h : Stage E s) (seen : List Digest) (source text : String) :
    Stage E (.initial s.vocabulary seen source text) :=
  ⟨h.becomes, h.plain, h.reachable, Scan.plain_ofText source text, Scan.ends_ofText source text⟩

/-- Behind another text, this one is read on. -/
theorem resumes (h : Stage E s) (g : Stage F s') (seen : List Digest) :
    Stage F { s with vocabulary := s'.vocabulary, seen } :=
  ⟨g.becomes, g.plain, g.reachable, h.aheadPlain, h.aheadEnds⟩

theorem runs {α : Type} {p : Parse α} {Q : α → ParseState → Prop} {a : α} (h : Stage E s)
    (hw : Parse.WritesPlain p) (hd : Parse.Delivers .disabled Q p s) (hrun : p.run s = (.ok a, s')) :
    ∃ F, Parse.Runs p s F ∧ Becomes s.vocabulary F s'.vocabulary ∧ Naming.AllPlain F ∧ s.Before s' ∧
      s'.ahead.Plain := by
  obtain ⟨F, hruns, hplain, hahead, -⟩ := hw s h.aheadPlain
  have hending : Parse.Ending .disabled Q s (p.run s) := hd h.aheadEnds
  have hbecomes := Becomes.reads hruns
  rw [hrun] at hending hahead hbecomes
  cases hending with
  | ok hbefore _ => exact ⟨F, hruns, hbecomes, hplain, hbefore, hahead⟩

end Stage

namespace Parse

variable {α β : Type} {p : Parse α} {f : α → Parse β} {s s' : ParseState} {E : List Naming}

/-- Where the step succeeds, it goes on in the same text. -/
def Moves (p : Parse α) : Prop :=
  ∀ ⦃E s a s'⦄, Stage E s → p.run s = (.ok a, s') → ∃ F, Runs p s F ∧ Onward s F s'

namespace Moves

theorem of_delivers {Q : ParseState → α → ParseState → Prop} (hw : WritesPlain p)
    (hd : ∀ s, Delivers .disabled (Q s) p s)
    (hahead : ∀ E s a s', Stage E s → p.run s = (.ok a, s') → ∃ k, s'.ahead = s.ahead.drop k) : Moves p := by
  intro E s a s' hs hrun
  obtain ⟨F, hruns, hbecomes, hplain, hbefore, -⟩ := hs.runs hw (hd s) hrun
  exact ⟨F, hruns, hbecomes, hplain, hbefore.reachable, hahead E s a s' hs hrun⟩

theorem pure (a : α) : Moves (Pure.pure a) := by
  intro E s b s' _ hrun
  obtain ⟨-, rfl⟩ := eq_ok_of_pure hrun
  exact ⟨[], .quiet fun _ => rfl, .refl _⟩

theorem bind (hp : Moves p) (hf : ∀ a, Moves (f a)) : Moves (p >>= f) := by
  intro E s b s' hs hrun
  obtain ⟨a, s₁, ha, hrun⟩ := bind_eq_ok hrun
  obtain ⟨F, hruns, hF⟩ := hp hs ha
  obtain ⟨G, hruns', hG⟩ := hf a (hs.onward hF) hrun
  exact ⟨F ++ G, .bind hruns ha hruns', hF.trans hG⟩

theorem peek : Moves peek :=
  of_delivers (Adds.peek.mono fun _ _ => trivial) (fun _ => Delivers.peek) fun _ _ _ _ _ hrun =>
    ⟨0, by rw [(peekAt_eq_ok hrun).1]; rfl⟩

theorem next : Moves next :=
  of_delivers (Adds.next.mono fun _ _ => trivial) (fun _ => Delivers.next) fun _ _ _ _ _ hrun =>
    ⟨1, by rw [(next_eq_ok hrun).2]⟩

theorem spanFrom (start : Span) : Moves (spanFrom start) := by
  intro E s a s' _ hrun
  obtain ⟨-, rfl⟩ := Prod.mk.inj hrun
  exact ⟨[], .quiet fun _ => rfl, .refl _⟩

theorem eatSymbol (name : String) : Moves (eatSymbol name) := by
  refine peek.bind fun t => ?_
  split_ifs
  · exact next.bind fun _ => pure true
  · exact pure false

theorem expect (kind : TokenKind) : Moves (expect kind) := by
  refine next.bind fun t => ?_
  split_ifs
  · exact pure t
  · exact fun _ _ _ _ _ hrun => (by cases hrun)

theorem expressionAt (limit : Nat) (strict : Bool) : Moves (expressionAt limit strict) := by
  refine of_delivers (Adds.expressionAt limit strict) (fun _ => Delivers.expressionAt limit strict) ?_
  intro E s t s' hs hrun
  obtain ⟨C, htakes, -⟩ := gains_of_expressionAt hs.reachable.wellFormed hs.aheadEnds hrun
  exact ⟨C.length, htakes.ahead⟩

end Moves

/-- Where the step succeeds, it leads from one stage to another. -/
def Staged (p : Parse α) : Prop :=
  ∀ ⦃E s a s'⦄, Stage E s → p.run s = (.ok a, s') →
    ∃ F, Becomes s.vocabulary F s'.vocabulary ∧ Stage (E ++ F) s'

theorem Moves.staged (h : Moves p) : Staged p := by
  intro E s a s' hs hrun
  obtain ⟨F, -, hF⟩ := h hs hrun
  exact ⟨F, hF.becomes, hs.onward hF⟩

namespace Staged

theorem of_delivers {Q : ParseState → α → ParseState → Prop} (hw : WritesPlain p)
    (hd : ∀ s, Delivers .disabled (Q s) p s) : Staged p := by
  intro E s a s' hs hrun
  obtain ⟨F, -, hbecomes, hplain, hbefore, hahead⟩ := hs.runs hw (hd s) hrun
  exact ⟨F, hbecomes, hs.becomes.trans hbecomes, Naming.allPlain_append hs.plain hplain,
    hbefore.reachable hs.reachable, hahead, hbefore.ends⟩

theorem bind (hp : Staged p) (hf : ∀ a, Staged (f a)) : Staged (p >>= f) := by
  intro E s b s' hs hrun
  obtain ⟨a, s₁, ha, hrun⟩ := bind_eq_ok hrun
  obtain ⟨F, hF, hs₁⟩ := hp hs ha
  obtain ⟨G, hG, hs'⟩ := hf a hs₁ hrun
  exact ⟨F ++ G, hF.trans hG, by rwa [← List.append_assoc]⟩

theorem fail (e : ParseError) : Staged (fail e : Parse α) := fun _ _ _ _ _ hrun => (by cases hrun)

theorem rounds {body : α → Parse (Round α β)} (hbody : ∀ a, Staged (body a)) (n : Nat) (a : α) :
    Staged (rounds body n a) := by
  induction n generalizing a with
  | zero => exact fail _
  | succ n ih =>
    refine (hbody a).bind fun round => ?_
    cases round with
    | again a => exact ih a
    | done b => exact (Moves.pure b).staged

theorem repeated {body : α → Parse (Round α β)} (hbody : ∀ a, Staged (body a)) (a : α) :
    Staged (repeated body a) :=
  fun _ s _ _ hs hrun => rounds hbody (s.ahead.items.length + 1) a hs hrun

theorem separated {item : Parse α} (hitem : Staged item) : Staged (separated item) := by
  refine repeated (fun found => hitem.bind fun a => (Moves.eatSymbol _).staged.bind fun comma => ?_) []
  split_ifs
  · exact (Moves.pure _).staged
  · exact (Moves.pure _).staged

theorem includeUnit (loader : Loader) {body : Parse (List Decl)} (hbody : Staged body) (span : Span)
    (name : String) : Staged (includeUnit loader body span name) := by
  intro E s unit s' hs hrun
  change Parse.includeUnit loader body span name s = _ at hrun
  cases hload : loader.load span name with
  | error e =>
    rw [includeUnit_of_error hload] at hrun
    cases hrun
  | ok source =>
    by_cases hseen : source.digest ∈ s.seen
    · rw [includeUnit_of_seen hload hseen] at hrun
      obtain ⟨-, rfl⟩ := Prod.mk.inj hrun
      exact ⟨[], .refl _, by rwa [List.append_nil]⟩
    · rw [includeUnit_of_unseen hload hseen] at hrun
      rcases hb : body (s.entering source) with ⟨e | ds, s₁⟩ <;> rw [hb] at hrun
      · cases hrun
      · obtain ⟨-, rfl⟩ := Prod.mk.inj hrun
        obtain ⟨F, hF, hs₁⟩ := hbody (hs.enters _ source.name source.text) hb
        exact ⟨F, hF, hs.resumes hs₁ _⟩

section

variable {incl : Include} (hincl : ∀ span name, Staged (incl span name))
include hincl

theorem inclusion : Staged (inclusion incl) := by
  refine Moves.next.staged.bind fun t => ?_
  split
  · exact hincl _ _
  · exact hincl _ _
  · exact fail _

theorem accumulateDecl (start : Span) : Staged (accumulateDecl incl start) :=
  (separated (inclusion hincl)).bind fun _ => (Moves.expect _).staged.bind fun _ =>
    (Moves.spanFrom start).staged.bind fun _ => (Moves.pure _).staged

theorem keywordDecl (start : Span) (attributes : List Attribute) (keyword : Keyword) :
    Staged (keywordDecl incl start attributes keyword) := by
  by_cases h : keyword = .accumulate
  · subst h
    exact (accumulateDecl hincl start).bind fun _ => (Moves.pure _).staged
  -- All other declarations are the same where no unit can be included.
  have hsame : Parse.keywordDecl incl start attributes keyword =
      Parse.keywordDecl (Parse.includeUnit .disabled (Parse.fail (.anomaly .exhausted))) start attributes
        keyword := by
    cases keyword <;> first | rfl | exact absurd rfl h
  rw [hsame]
  exact of_delivers (Adds.keywordDecl (Adds.includes_includeUnit _ (Adds.fail _)) start attributes keyword)
    fun _ => Delivers.keywordDecl (Delivers.includes_includeUnit fun _ hload => (by cases hload)) start attributes
      keyword fun _ hd => hd

theorem attributedDecl (start : Span) : Staged (attributedDecl incl start) := by
  refine (of_delivers Adds.attributes fun _ => Delivers.attributes).bind fun attributes =>
    Moves.peek.staged.bind fun t => ?_
  split
  · exact (Moves.expressionAt _ _).staged.bind fun _ => (Moves.expect _).staged.bind fun _ =>
      (Moves.spanFrom start).staged.bind fun _ => (Moves.pure _).staged
  · split_ifs
    · exact fail _
    · exact Moves.next.staged.bind fun _ => keywordDecl hincl start attributes _

theorem declaration : Staged (declaration incl) := by
  refine Moves.peek.staged.bind fun t => ?_
  split
  · exact Moves.next.staged.bind fun _ => (Moves.pure _).staged
  · exact Moves.next.staged.bind fun _ => (Moves.pure _).staged
  · exact attributedDecl hincl _

theorem declarations : Staged (declarations incl) := by
  refine repeated (fun found => Moves.peek.staged.bind fun t => ?_) []
  split_ifs
  · exact (Moves.pure _).staged
  · exact (declaration hincl).bind fun _ => (Moves.pure _).staged

end

theorem unitBody (loader : Loader) (depth : Nat) : Staged (unitBody loader depth) := by
  induction depth with
  | zero => exact declarations (includeUnit loader (fail _))
  | succ depth ih => exact declarations (includeUnit loader ih)

end Staged

end Parse

end Clausal
