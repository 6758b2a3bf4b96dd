import Clausal.Proofs.InclusionDepth

/-!
# What a reading depends on

A vocabulary enters a reading through its operators, which are found by name, and through the number
of its next fresh variable. Which other names and strings it holds, and at which symbols, does not
matter: two vocabularies that agree on operators and number read every text alike, and agree again
afterwards.
-/
namespace Clausal

namespace Vocabulary

/-- The same operators by name, with the same one first for each name, and the same next variable. -/
structure Agrees (v w : Vocabulary) : Prop where
  definition : ∀ name p, v.definition? name p = w.definition? name p
  earliest : ∀ name, v.earliest? name = w.earliest? name
  variableCount : v.symbols.variableCount = w.symbols.variableCount

theorem Agrees.apply {v w : Vocabulary} (hv : v.WellFormed) (hw : w.WellFormed) (h : v.Agrees w)
    (a : Addition) : (a.apply v).Agrees (a.apply w) where
  definition name p := by
    rw [a.definition?_apply hv, a.definition?_apply hw, h.definition]
  earliest name := by
    rw [a.earliest?_apply hv, a.earliest?_apply hw, h.earliest]
  variableCount := by rw [a.variableCount_apply, a.variableCount_apply, h.variableCount]

/-- A vocabulary that holds more names, but no more operators, agrees with the first. -/
theorem Extends.agrees {v w : Vocabulary} (hv : v.WellFormed) (hw : w.WellFormed) (h : v.Extends w)
    (ho : w.operators = v.operators) (hc : w.symbols.variableCount = v.symbols.variableCount) :
    w.Agrees v := by
  have hbind : ∀ (f : Symbol → Option Operator) (name : String),
      (∀ s : Symbol, v.symbols.size ≤ s.index → f s = none) →
        (w.lookup name).bind f = (v.lookup name).bind f := by
    intro f name hf
    cases hl : v.lookup name with
    | some s =>
      have hs := hw.lookup_eq_some_iff.2 (h _ _ (hv.lookup_eq_some_iff.1 hl))
      rw [hs]
    | none =>
      cases hl' : w.lookup name with
      | none => rfl
      | some s =>
        refine hf s (Nat.le_of_not_lt fun hlt => ?_)
        -- The symbol would be in the first vocabulary, with the same name.
        have hn := Array.getElem?_eq_getElem hlt
        have hs' := h s _ hn
        rw [hw.lookup_eq_some_iff.1 hl'] at hs'
        have hs := hv.lookup_eq_some_iff.2 (hs' ▸ hn)
        rw [hl] at hs
        cases hs
  refine ⟨fun name p => ?_, fun name => ?_, hc⟩
  · rw [definition?, definition?, ho]
    exact hbind _ name fun s hs => hv.lookup_eq_none hs p
  · rw [earliest?, earliest?, ho]
    exact hbind _ name fun s hs => hv.first?_eq_none hs

/-- Symbols read as names, and names as whatever they are to stand for. -/
def byName (v : Vocabulary) (read : String → Symbol) : Relabeling :=
  ⟨fun s => read (v.name s), fun span => span⟩

end Vocabulary

/-- The same error, or values that are equal when symbols are read as names; and vocabularies that
agree again. -/
structure SameOutcome {α : Type} [Labeled α] (x y : Except ParseError α × Vocabulary) : Prop where
  vocabulary : x.2.Agrees y.2
  result : ExceptRel (· = ·)
    (fun a b => ∀ read, relabel (x.2.byName read) a = relabel (y.2.byName read) b) x.1 y.1

instance : Labeled Goal := ⟨fun r g => ⟨relabel r g.span, relabel r g.term⟩⟩

namespace Parse

theorem Comparison.reads_goal {C : Comparison} {W : World} : C.Reads W C.alike goal goal := by
  refine peek_bind fun {t t'} ht => C.reopen _ (reads_bind reads_term fun {W' a b} _ hab => ?_)
  refine spanFrom_bind ht.span fun {x y} hxy => peek_bind fun {u u'} hu => C.reopen _ ?_
  have hend : C.Reads W' C.alike
      (do
        let _ ← expect .endOfInput
        Pure.pure (⟨x, a⟩ : Goal))
      (do
        let _ ← expect .endOfInput
        Pure.pure (⟨y, b⟩ : Goal)) := by
    refine expect_bind _ fun _ => reads_pure rfl fun r r' hj => ?_
    exact congrArg₂ Goal.mk (hj.span hxy) (hab.alike r r' hj)
  dsimp only
  rw [← hu.kind]
  split_ifs
  · exact next_bind fun _ => hend
  · exact hend

namespace Pairing

/-- The vocabularies agree, and the same texts have been seen. -/
structure Agreeing (W : World) : Prop where
  left : W.left.vocabulary.Reachable
  right : W.right.vocabulary.Reachable
  agrees : W.left.vocabulary.Agrees W.right.vocabulary
  seen : W.left.seen = W.right.seen

def agreeing : Pairing where
  admits := Agreeing
  spans := Eq
  spoiled _ := False
  interchangeable hW := ⟨hW.left, hW.right, hW.agrees.definition, hW.agrees.variableCount⟩
  admits_add a hW := ⟨a.reachable_apply hW.left, a.reachable_apply hW.right,
    hW.agrees.apply hW.left.wellFormed hW.right.wellFormed a, hW.seen⟩
  refl _ := rfl
  merge := diagonal.merge
  strip := diagonal.strip
  spoiled_mono _ h := h

theorem includes_agreeing (loader : Loader) :
    agreeing.Includes agreeing.comparison.alikeAccount loader where
  marks :=
    { seen_iff := fun d hW => .inr (by rw [hW.seen])
      admits_mark := fun d hW =>
        ⟨hW.left, hW.right, hW.agrees, congrArg (d :: ·) hW.seen⟩ }
  loads := loads_of_spans_eq rfl
  passes := passes_alike
  enters := enters_alike _

/-- Names are all that is left of the symbols of two vocabularies. -/
theorem joins_byName (W : World) (read : String → Symbol) :
    (W.matching agreeing.spans).Joins (W.left.vocabulary.byName read)
      (W.right.vocabulary.byName read) where
  symbol hs := congrArg read hs.name_eq
  span h := h

theorem sameOutcome {α : Type} [Labeled α] {p q : Parse α} {v w : Vocabulary} (hv : v.Reachable)
    (hw : w.Reachable) (h : v.Agrees w) (source text : String)
    (hkeep : ∀ {W}, agreeing.admits W → agreeing.Keeps W agreeing.comparison.alike p q) :
    SameOutcome ((p (.initial v [] source text)).1, (p (.initial v [] source text)).2.vocabulary)
      ((q (.initial w [] source text)).1, (q (.initial w [] source text)).2.vocabulary) := by
  have hs : agreeing.InStep ⟨⟨v, []⟩, ⟨w, []⟩⟩ (.initial v [] source text)
      (.initial w [] source text) := ⟨rfl, rfl, .refl (fun _ => rfl) _, rfl⟩
  obtain ⟨W, -, hW, he⟩ := ((hkeep ⟨hv, hw, h, rfl⟩).together _ _ hs).resolve_left id
  have hagrees : ∀ {s s' : ParseState}, s.moment = W.left → s'.moment = W.right →
      s.vocabulary = W.left.vocabulary ∧ s'.vocabulary = W.right.vocabulary := fun hs hs' =>
    ⟨congrArg Moment.vocabulary hs, congrArg Moment.vocabulary hs'⟩
  rcases hp : p (.initial v [] source text) with ⟨e | a, s⟩ <;>
    rcases hq : q (.initial w [] source text) with ⟨e' | b, s'⟩ <;> rw [hp, hq] at he
  · obtain ⟨halike, hleft, hright⟩ := he
    obtain ⟨hv', hw'⟩ := hagrees hleft hright
    refine ⟨by simpa only [hv', hw'] using hW.agrees, ?_⟩
    have hee := halike _ _ (joins_byName W default)
    rwa [e.relabel_of_span fun _ => rfl, e'.relabel_of_span fun _ => rfl] at hee
  · exact he.elim
  · exact he.elim
  · obtain ⟨halike, hs⟩ := he
    obtain ⟨hv', hw'⟩ := hagrees hs.left hs.right
    refine ⟨by simpa only [hv', hw'] using hW.agrees, fun read => ?_⟩
    simpa only [hv', hw'] using halike _ _ (joins_byName W read)

end Pairing

end Parse

/-- Whatever is read with the one vocabulary is read alike with the other. -/
structure Vocabulary.ReadsAlike (v w : Vocabulary) : Prop where
  text : ∀ loader source text, SameOutcome (parseText v loader source text) (parseText w loader source text)
  units : ∀ loader names, SameOutcome (parseUnits v loader names) (parseUnits w loader names)
  goal : ∀ source text, SameOutcome (parseGoal v source text) (parseGoal w source text)
  term : ∀ text, SameOutcome (parseTerm v text) (parseTerm w text)

open Parse Pairing in
theorem Vocabulary.Agrees.readsAlike {v w : Vocabulary} (hv : v.Reachable) (hw : w.Reachable)
    (h : v.Agrees w) : v.ReadsAlike w := by
  have hgoal : ∀ source text, SameOutcome (parseGoal v source text) (parseGoal w source text) := by
    intro source text
    have hkeep : ∀ {W}, agreeing.admits W → agreeing.Keeps W agreeing.comparison.alike goal goal := by
      intro W hW
      have hgoal : agreeing.comparison.Reads W agreeing.comparison.alike goal goal :=
        Comparison.reads_goal
      exact Comparison.weaken hgoal (fun _ hg => hg.2) hW
    exact sameOutcome hv hw h source text hkeep
  refine ⟨fun loader source text => ?_, fun loader names => ?_, hgoal, fun text => ?_⟩
  · have hkeep : ∀ {W}, agreeing.admits W →
        agreeing.Keeps W agreeing.comparison.alike (program loader) (program loader) :=
      fun hW => keeps_program (includes_agreeing loader) hW
    exact sameOutcome hv hw h source text hkeep
  · have hkeep : ∀ {W}, agreeing.admits W →
        agreeing.Keeps W agreeing.comparison.alike (includeAll loader names) (includeAll loader names) :=
      fun hW => declares_includeAll (includes_agreeing loader) names hW
    exact sameOutcome hv hw h topLevel "" hkeep
  · obtain ⟨hagrees, hresult⟩ := hgoal "<term>" text
    refine ⟨hagrees, ?_⟩
    have hv' : parseTerm v text = ((parseGoal v "<term>" text).1.map (·.term), (parseGoal v "<term>" text).2) := rfl
    have hw' : parseTerm w text = ((parseGoal w "<term>" text).1.map (·.term), (parseGoal w "<term>" text).2) := rfl
    rw [hv', hw']
    dsimp only
    rcases hx : (parseGoal v "<term>" text).1 with e | a <;>
      rcases hy : (parseGoal w "<term>" text).1 with e' | b <;> rw [hx, hy] at hresult
    · exact hresult
    · exact hresult.elim
    · exact hresult.elim
    · exact fun read => (Goal.mk.inj (hresult read)).2

/-- A vocabulary enters a reading through its operators and its next fresh variable only: where
these agree, every text is read alike, and they agree again afterwards. So a reading that fails
before it has declared an operator or minted a variable leaves no trace in later ones. -/
theorem parse_of_agrees {v w : Vocabulary} (hv : v.Reachable) (hw : w.Reachable) (h : v.Agrees w) :
    v.ReadsAlike w ∧
      ∀ loader source text e v', parseText v loader source text = (.error e, v') →
        v'.operators = v.operators → v'.symbols.variableCount = v.symbols.variableCount →
          v'.ReadsAlike v := by
  refine ⟨h.readsAlike hv hw, fun loader source text e v' hfail ho hc => ?_⟩
  let W : World := ⟨⟨v, []⟩, ⟨v, []⟩⟩
  have hagrees : v.Agrees v := ⟨fun _ _ => rfl, fun _ => rfl, rfl⟩
  obtain ⟨W', hle, hW', hm, -⟩ := (Parse.Pairing.keeps_program (Parse.Pairing.includes_agreeing loader)
    (W := W) ⟨hv, hv, hagrees, rfl⟩).alone (.initial v [] source text) rfl
  obtain rfl : v' = W'.left.vocabulary := by
    rw [← congrArg Moment.vocabulary hm]
    exact (congrArg Prod.snd hfail).symm
  exact (hle.left.agrees hv.wellFormed hW'.left.wellFormed ho hc).readsAlike hW'.left hv

/-- A name that was met before, and a clause that breaks off. -/
theorem parse_brokenClause :
    let v := (Vocabulary.initial.intern "q").2
    Vocabulary.initial.ReadsAlike v ∧
      ∃ e v', parseText Vocabulary.initial .disabled "main" "p ]." = (.error e, v') ∧
        v'.ReadsAlike Vocabulary.initial := by
  intro v
  have hv : v.Reachable := .intern "q" .initial
  have hagrees : Vocabulary.initial.Agrees v := by
    have hw := Vocabulary.Reachable.initial.wellFormed
    exact ⟨fun name p => (hw.definition?_intern "q" name p).symm,
      fun name => (hw.earliest?_intern "q" name).symm, (Addition.variableCount_intern _ "q").symm⟩
  obtain ⟨halike, hlater⟩ := parse_of_agrees .initial hv hagrees
  have hfail : (parseText Vocabulary.initial .disabled "main" "p ].").1.toOption.isNone = true ∧
      (parseText Vocabulary.initial .disabled "main" "p ].").2.operators = .empty ∧
        (parseText Vocabulary.initial .disabled "main" "p ].").2.symbols.variableCount = 0 := by
    decide +kernel
  rcases hp : parseText Vocabulary.initial .disabled "main" "p ]." with ⟨e | ds, v'⟩
  · rw [hp] at hfail
    exact ⟨halike, e, v', rfl, hlater _ _ _ e v' hp hfail.2.1 hfail.2.2⟩
  · rw [hp] at hfail
    exact Bool.noConfusion hfail.1

end Clausal
