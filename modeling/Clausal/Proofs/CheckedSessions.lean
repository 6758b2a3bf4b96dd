import Clausal.Proofs.CheckedPrograms
import Clausal.Proofs.FrameStack
import Clausal.Proofs.FreshVariables
import Clausal.Proofs.NestedTerms
import Clausal.Proofs.Termination
import Clausal.Proofs.TokenQueue

/-!
# Nothing that is relied on fails in a session

A session may read what it likes, and its calls may fail. What the readers rely on holds all the same behind
each of them, so that checking it changes nothing, and the programs that the calls give can be put together,
nested and shown.
-/
namespace Clausal

namespace Parse

theorem sound_parseTexts (v : Vocabulary) (texts : List String) :
    Sound .disabled v termsOf (Baseline.parseTexts v texts) := by
  induction texts generalizing v with
  | nil => exact ⟨.refl v, id, fun _ h => Except.ok.inj h ▸ .nil, fun _ h => (by cases h)⟩
  | cons text rest ih =>
    have hfirst := sound_parseText .disabled v Baseline.sourceName text
    rw [Baseline.parseTexts]
    rcases hrun : parseText v .disabled Baseline.sourceName text with ⟨e | ds, w⟩ <;>
      rw [hrun] at hfirst
    · exact hfirst
    · have hrest := ih w
      refine ⟨hfirst.names.trans hrest.names, fun hv => hrest.reachable (hfirst.reachable hv), ?_, ?_⟩
      all_goals
        dsimp only
        rcases hothers : (Baseline.parseTexts w rest).1 with e | others
      · exact fun _ h => (by cases h)
      · rintro _ ⟨⟩
        rw [termsOf_append, Term.AllFlatIn.append_iff]
        exact ⟨(hfirst.ok ds rfl).mono hrest.names, hrest.ok others hothers⟩
      · rintro _ ⟨⟩
        exact hrest.error e hothers
      · exact fun _ h => (by cases h)

end Parse

/-- Declaring operators keeps the names. -/
theorem Vocabulary.extends_defineOperators (v : Vocabulary) (operators : List (String × Fixity × Nat)) :
    v.Extends (v.defineOperators operators).2 := by
  induction operators generalizing v with
  | nil => exact .refl v
  | cons o rest ih =>
    obtain ⟨name, fixity, precedence⟩ := o
    have hfirst := (Addition.operator name fixity precedence).extends_apply v
    rw [Addition.apply] at hfirst
    rw [Vocabulary.defineOperators]
    rcases hrun : v.defineOperator name fixity precedence with ⟨_ | _, w⟩ <;> rw [hrun] at hfirst
    · exact hfirst
    · exact hfirst.trans (ih w)

/-- A built-in operator that is refused is no anomaly. -/
theorem Vocabulary.anomaly?_of_defineOperators {v : Vocabulary}
    {operators : List (String × Fixity × Nat)} {e : TermError}
    (h : (v.defineOperators operators).1 = .error e) : e.anomaly? = none := by
  induction operators generalizing v with
  | nil => cases h
  | cons o rest ih =>
    obtain ⟨name, fixity, precedence⟩ := o
    rw [Vocabulary.defineOperators] at h
    rcases hrun : v.defineOperator name fixity precedence with ⟨e' | _, w⟩ <;> rw [hrun] at h
    · obtain rfl := Except.error.inj h
      exact Parse.Delivers.anomaly?_of_defineOperator (congrArg Prod.fst hrun)
    · exact ih h

/-- What loading the baseline comes to. -/
structure Baseline.Loads (v : Vocabulary) (r : Baseline.Outcome) : Prop where
  names : v.Extends r.vocabulary
  reachable : v.Reachable → r.vocabulary.Reachable
  ok : ∀ program, r.result = .ok program → Term.AllFlatIn r.vocabulary (termsOf program)
  error : ∀ e, r.result = .error e → e.anomaly? = none

theorem Baseline.loads (v : Vocabulary) (config : Baseline.Config) :
    Baseline.Loads v (Baseline.load v config) := by
  have hbegun : v.Extends v.beginBootstrap.2 := .refl v
  have hbegun' : v.Reachable → v.beginBootstrap.2.Reachable := .bootstrap
  rw [Baseline.load]
  generalize v.beginBootstrap = begun at hbegun hbegun'
  obtain ⟨_ | _, u⟩ := begun
  · exact ⟨hbegun, hbegun', fun _ h => Except.ok.inj h ▸ .nil, fun _ h => (by cases h)⟩
  have hdeclared : v.Extends u.defineBaseline.2 := hbegun.trans (u.extends_defineOperators _)
  have hdeclared' : v.Reachable → u.defineBaseline.2.Reachable := fun hv =>
    (hbegun' hv).defineOperators baselineOperators
  dsimp only
  rcases hdefine : u.defineBaseline with ⟨e | _, w⟩ <;> rw [hdefine] at hdeclared hdeclared'
  · refine ⟨hdeclared, hdeclared', fun _ h => (by cases h), ?_⟩
    rintro _ ⟨⟩
    exact Vocabulary.anomaly?_of_defineOperators (congrArg Prod.fst hdefine)
  have htexts := Parse.sound_parseTexts w (Baseline.texts config.variant)
  dsimp only
  rcases hparse : Baseline.parseTexts w (Baseline.texts config.variant) with ⟨e | program, w'⟩ <;>
    rw [hparse] at htexts
  · refine ⟨hdeclared.trans htexts.names, fun hv => htexts.reachable (hdeclared' hv),
      fun _ h => (by cases h), ?_⟩
    rintro _ ⟨⟩
    exact (htexts.error e rfl).anomaly?_eq_none Loader.reportsLoading_disabled
  · refine ⟨hdeclared.trans htexts.names, fun hv => htexts.reachable (hdeclared' hv), ?_,
      fun _ h => (by cases h)⟩
    rintro _ ⟨⟩
    exact htexts.ok program rfl

namespace Call

/-- The program that a call gives. -/
def program? (v : Vocabulary) : Call → Option (List Decl)
  | program loader source text => (parseText v loader source text).1.toOption
  | units loader names => (parseUnits v loader names).1.toOption
  | baseline config => (Baseline.load v config).result.toOption
  | goal _ _ | term _ | constant => none

/-- The term that a call gives. -/
def term? (v : Vocabulary) : Call → Option Term
  | goal source text => (parseGoal v source text).1.toOption.map (·.term)
  | term text => (parseTerm v text).1.toOption
  | program _ _ _ | units _ _ | baseline _ | constant => none

/-- What a call leaves behind, and what it gives. -/
structure Keeps (v : Vocabulary) (call : Call) : Prop where
  names : v.Extends (call.apply v)
  reachable : v.Reachable → (call.apply v).Reachable
  program : ∀ p, call.program? v = some p → Term.AllFlatIn (call.apply v) (termsOf p)
  term : ∀ t, call.term? v = some t → t.FlatIn (call.apply v)

theorem eq_ok_of_toOption {α ε : Type} {r : Except ε α} {a : α} (h : r.toOption = some a) :
    r = .ok a := by
  cases r with
  | error e => cases h
  | ok b => exact congrArg _ (Option.some.inj h)

theorem keeps (v : Vocabulary) (call : Call) : Keeps v call := by
  cases call with
  | program loader source text =>
    have h := Parse.sound_parseText loader v source text
    exact ⟨h.names, h.reachable, fun p hp => h.ok p (eq_ok_of_toOption hp),
      fun _ h => (by cases h)⟩
  | units loader names =>
    have h := Parse.sound_parseUnits loader v names
    exact ⟨h.names, h.reachable, fun p hp => h.ok p (eq_ok_of_toOption hp),
      fun _ h => (by cases h)⟩
  | goal source text =>
    have h := Parse.sound_parseGoal .disabled v source text
    refine ⟨h.names, h.reachable, fun _ h => (by cases h), fun t ht => ?_⟩
    obtain ⟨g, hg, rfl⟩ := Option.map_eq_some_iff.1 ht
    exact h.ok g (eq_ok_of_toOption hg) _ (by simp)
  | term text =>
    have h := Parse.sound_parseGoal .disabled v "<term>" text
    refine ⟨h.names, h.reachable, fun _ h => (by cases h), fun t ht => ?_⟩
    have hresult : (parseTerm v text).1 = (parseGoal v "<term>" text).1.map (·.term) := rfl
    rw [term?, hresult] at ht
    rcases hg : (parseGoal v "<term>" text).1 with e | g <;> rw [hg] at ht
    · cases ht
    · obtain rfl := Option.some.inj ht
      exact h.ok g hg _ (by simp)
  | baseline config =>
    have h := Baseline.loads v config
    exact ⟨h.names, h.reachable, fun p hp => h.ok p (eq_ok_of_toOption hp),
      fun _ h => (by cases h)⟩
  | constant =>
    exact ⟨fun _ _ hs => SymbolTable.name?_intern_of_name? _ hs, .freshConstant,
      fun _ h => (by cases h), fun _ h => (by cases h)⟩

end Call

theorem extends_foldl_apply (calls : List Call) (v : Vocabulary) :
    v.Extends (calls.foldl Call.apply v) := by
  induction calls generalizing v with
  | nil => exact .refl v
  | cons call rest ih => exact (Call.keeps v call).names.trans (ih _)

theorem reachable_session (calls : List Call) : (session calls).Reachable := by
  have hfold : ∀ v : Vocabulary, v.Reachable → (calls.foldl Call.apply v).Reachable := by
    induction calls with
    | nil => exact fun _ hv => hv
    | cons call rest ih => exact fun v hv => ih _ ((Call.keeps v call).reachable hv)
  exact hfold _ .initial

/-- One of the calls gives this, in the vocabulary that the calls before it have left behind. -/
def Gives {α : Type} (result? : Vocabulary → Call → Option α) (calls : List Call) (a : α) : Prop :=
  ∃ front call back, calls = front ++ call :: back ∧ result? (session front) call = some a

theorem extends_session (front : List Call) (call : Call) (back : List Call) :
    (call.apply (session front)).Extends (session (front ++ call :: back)) := by
  rw [session, session, List.foldl_append, List.foldl_cons]
  exact extends_foldl_apply back _

/-- A program that is put together from programs that the calls give, in any order and number. -/
def Assembled (calls : List Call) (program : List Decl) : Prop :=
  ∃ parts : List (List Decl), (∀ part ∈ parts, Gives Call.program? calls part) ∧
    program = parts.flatten

theorem Gives.flat_program {calls : List Call} {program : List Decl}
    (h : Gives Call.program? calls program) :
    Term.AllFlatIn (session calls) (termsOf program) := by
  obtain ⟨front, call, back, rfl, hp⟩ := h
  exact ((Call.keeps _ call).program program hp).mono (extends_session front call back)

theorem Gives.flat_term {calls : List Call} {t : Term} (h : Gives Call.term? calls t) :
    t.FlatIn (session calls) := by
  obtain ⟨front, call, back, rfl, ht⟩ := h
  exact ((Call.keeps _ call).term t ht).mono (extends_session front call back)

theorem Assembled.flat {calls : List Call} {program : List Decl} (h : Assembled calls program) :
    Term.AllFlatIn (session calls) (termsOf program) := by
  obtain ⟨parts, hparts, rfl⟩ := h
  induction parts with
  | nil => exact .nil
  | cons part rest ih =>
    rw [List.forall_mem_cons] at hparts
    rw [List.flatten_cons, termsOf_append, Term.AllFlatIn.append_iff]
    exact ⟨hparts.1.flat_program, ih hparts.2⟩

/-- What is relied on without a check holds in a session, and for all that it gives. -/
structure Faultless (calls : List Call) : Prop where
  /-- Checking changes nothing, whatever is to be done when a check fails. -/
  text : ∀ halt loader source text, Parse.Checked.parseText halt (session calls) loader source text =
    parseText (session calls) loader source text
  units : ∀ halt loader names, Parse.Checked.parseUnits halt (session calls) loader names =
    parseUnits (session calls) loader names
  goal : ∀ halt source text, Parse.Checked.parseGoal halt (session calls) source text =
    parseGoal (session calls) source text
  baseline : ∀ halt config, Parse.Checked.load halt (session calls) config =
    Baseline.load (session calls) config
  /-- No error is an anomaly, if the loader reports none. -/
  textError : ∀ loader source text e, loader.ReportsLoading →
    (parseText (session calls) loader source text).1 = .error e → e.anomaly? = none
  unitsError : ∀ loader names e, loader.ReportsLoading →
    (parseUnits (session calls) loader names).1 = .error e → e.anomaly? = none
  goalError : ∀ source text e, (parseGoal (session calls) source text).1 = .error e → e.anomaly? = none
  baselineError : ∀ config e, (Baseline.load (session calls) config).result = .error e →
    e.anomaly? = none
  /-- The tokens of a text can be cut out of it one by one and kept in a queue. -/
  tokens : ∀ source text glances, (TokenQueue.initial source text).glances? glances =
    some ((Scan.ofText source text).glances glances)
  /-- This is how the grammar looks ahead and reads. -/
  looks : ∀ n s, (Parse.peekAt n s).1 =
    (s.ahead.glance (.look n)).1.mapError ScanError.refusal ∧
      (Parse.peekAt n s).2.ahead = (s.ahead.glance (.look n)).2
  reads : ∀ s, (Parse.next s).1 = (s.ahead.glance .read).1.mapError ScanError.refusal ∧
    (Parse.next s).2.ahead = (s.ahead.glance .read).2
  /-- There is always a frame to put a declaration into. -/
  nested : ∀ program, Assembled calls program → FrameStack.nest? program = some (nest program)
  /-- All symbols of what is shown have names. -/
  shown : ∀ program, Assembled calls program → ∀ t ∈ termsOf program,
    (session calls).render? t = some ((session calls).render t)
  shownNested : ∀ program result, Assembled calls program → nest program = .ok result →
    ∀ t ∈ result.terms, (session calls).render? t = some ((session calls).render t)
  shownTerm : ∀ t, Gives Call.term? calls t →
    (session calls).render? t = some ((session calls).render t)

open Parse in
/-- Nothing that is relied on fails, whatever is read with whatever loaders, and whether or not it can
be read. -/
theorem session_faultless (calls : List Call) : Faultless calls :=
  have hv := reachable_session calls
  have hshown : ∀ t : Term, t.FlatIn (session calls) →
      (session calls).render? t = some ((session calls).render t) := fun _ ht =>
    (Vocabulary.Extends.refl _).render?_eq hv ht
  { text := fun _ loader source text => Checked.parseText_eq hv loader source text
    units := fun _ loader names => Checked.parseUnits_eq hv loader names
    goal := fun _ source text => Checked.parseGoal_eq hv source text
    baseline := fun _ config => Checked.load_eq hv config
    textError := fun loader source text e hl he =>
      ((sound_parseText loader _ source text).error e he).anomaly?_eq_none hl
    unitsError := fun loader names e hl he =>
      ((sound_parseUnits loader _ names).error e he).anomaly?_eq_none hl
    goalError := fun source text e he =>
      ((sound_parseGoal .disabled _ source text).error e he).anomaly?_eq_none
        Loader.reportsLoading_disabled
    baselineError := fun config => (Baseline.loads _ config).error
    tokens := TokenQueue.glances?_initial
    looks := peekAt_eq_glance
    reads := next_eq_glance
    nested := fun program _ => FrameStack.nest?_eq program
    shown := fun _ hprogram t ht => hshown t (hprogram.flat t ht)
    shownNested := fun _ _ hprogram hnest t ht =>
      hshown t (hprogram.flat t (mem_terms_of_nest hnest ht))
    shownTerm := fun t ht => hshown t ht.flat_term }

end Clausal
