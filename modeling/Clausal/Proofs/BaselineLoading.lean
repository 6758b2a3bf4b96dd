import Clausal.Proofs.VocabularyGrowth
import Mathlib.Data.List.Induction

/-!
# What a loaded baseline is

Loading the baseline sets its flag before it does anything that can fail. So a loading that succeeds has
defined all built-in operators, or comes behind one that has met a different definition and has failed: it
then does nothing, and that definition is still there.
-/
namespace Clausal

namespace Vocabulary

/-- All built-in operators are defined in their places, as they should be. -/
def DefinesBaseline (v : Vocabulary) : Prop :=
  ∀ d ∈ baselineOperators, v.definition? d.1 d.2.1.placement = some ⟨d.2.1, d.2.2⟩

/-- Something else is defined in the place of a built-in operator. -/
def ConflictsWithBaseline (v : Vocabulary) : Prop :=
  ∃ d ∈ baselineOperators, ∃ o, v.definition? d.1 d.2.1.placement = some o ∧ o ≠ ⟨d.2.1, d.2.2⟩

variable {v w : Vocabulary}

theorem DefinesBaseline.not_conflicts (h : v.DefinesBaseline) : ¬ v.ConflictsWithBaseline := by
  intro ⟨d, hd, o, ho, hne⟩
  rw [h d hd] at ho
  exact hne (Option.some.inj ho).symm

theorem GrowsInto.definition? (h : v.GrowsInto w) {name : String} {p : Placement} {o : Operator}
    (ho : v.definition? name p = some o) : w.definition? name p = some o := by
  obtain ⟨s, hs, hso⟩ := Option.bind_eq_some_iff.1 ho
  have hs' : w.lookup name = some s := h.symbols.lookup hs
  rw [Vocabulary.definition?, hs']
  exact OperatorTable.lookup_of_isPrefix h.operators hso

theorem DefinesBaseline.mono (hvw : v.GrowsInto w) (h : v.DefinesBaseline) : w.DefinesBaseline :=
  fun d hd => hvw.definition? (h d hd)

theorem ConflictsWithBaseline.mono (hvw : v.GrowsInto w) (h : v.ConflictsWithBaseline) :
    w.ConflictsWithBaseline := by
  obtain ⟨d, hd, o, ho, hne⟩ := h
  exact ⟨d, hd, o, hvw.definition? ho, hne⟩

/-- Declaring an operator in range leaves it defined, or is refused for the one that is in its place. -/
theorem WellFormed.defineOperator_settles (hv : v.WellFormed) (name : String) (fixity : Fixity)
    {precedence : Nat}
    (hp : ¬ ((precedence : Int) < Precedence.lowest ∨ (Precedence.tightest : Int) < precedence)) :
    (∃ s, (v.defineOperator name fixity precedence).1 = .ok s) ∧
        (v.defineOperator name fixity precedence).2.definition? name fixity.placement =
          some ⟨fixity, precedence⟩ ∨
      (∃ e, (v.defineOperator name fixity precedence).1 = .error e) ∧
        ∃ o, (v.defineOperator name fixity precedence).2.definition? name fixity.placement = some o ∧
          o ≠ ⟨fixity, precedence⟩ := by
  have hafter := (Addition.operator name fixity precedence).definition?_apply hv name fixity.placement
  rw [Addition.apply] at hafter
  rw [defineOperator_fst hv, if_neg hp, hafter]
  cases hd : v.definition? name fixity.placement with
  | none =>
    refine .inl ⟨⟨_, rfl⟩, ?_⟩
    rw [Addition.operator?, if_neg (by simpa using hp)]
    simp [Operator.placement]
  | some old =>
    dsimp only
    rw [Int.toNat_natCast, Option.some_or]
    by_cases ho : old = ⟨fixity, precedence⟩
    · rw [if_pos ho]
      exact .inl ⟨⟨_, rfl⟩, congrArg some ho⟩
    · rw [if_neg ho]
      exact .inr ⟨⟨_, rfl⟩, old, rfl, ho⟩

theorem Reachable.defineOperators_settles (hv : v.Reachable) {operators : List (String × Fixity × Nat)}
    (hp : ∀ d ∈ operators, ¬ ((d.2.2 : Int) < Precedence.lowest ∨ (Precedence.tightest : Int) < d.2.2)) :
    (∃ u, (v.defineOperators operators).1 = .ok u) ∧ (∀ d ∈ operators,
        (v.defineOperators operators).2.definition? d.1 d.2.1.placement = some ⟨d.2.1, d.2.2⟩) ∨
      (∃ e, (v.defineOperators operators).1 = .error e) ∧ ∃ d ∈ operators, ∃ o,
        (v.defineOperators operators).2.definition? d.1 d.2.1.placement = some o ∧
          o ≠ ⟨d.2.1, d.2.2⟩ := by
  induction operators generalizing v with
  | nil => exact .inl ⟨⟨_, rfl⟩, by simp⟩
  | cons d rest ih =>
    obtain ⟨name, fixity, precedence⟩ := d
    obtain ⟨hd, hrest⟩ := List.forall_mem_cons.1 hp
    have hsettles := hv.wellFormed.defineOperator_settles name fixity hd
    have hnext := hv.defineOperator name fixity precedence
    rw [Vocabulary.defineOperators]
    rcases hrun : v.defineOperator name fixity precedence with ⟨e | s, w⟩ <;>
      rw [hrun] at hsettles hnext
    · obtain ⟨⟨_, hs⟩, -⟩ | ⟨-, o, ho, hne⟩ := hsettles
      · cases hs
      · exact .inr ⟨⟨e, rfl⟩, _, List.mem_cons_self, o, ho, hne⟩
    · obtain ⟨-, hdefined⟩ | ⟨⟨_, hs⟩, -⟩ := hsettles
      · have hgrows : w.GrowsInto (w.defineOperators rest).2 :=
          (GrowsInto.lasting w).defineOperators hnext (.refl w) rest
        obtain ⟨hok, hall⟩ | ⟨herror, d, hmem, hconflict⟩ := ih hnext hrest
        · refine .inl ⟨hok, List.forall_mem_cons.2 ⟨hgrows.definition? hdefined, hall⟩⟩
        · exact .inr ⟨herror, d, List.mem_cons_of_mem _ hmem, hconflict⟩
      · cases hs

theorem bootstrapped_apply (a : Addition) : (a.apply v).bootstrapped = v.bootstrapped := by
  cases a with
  | name n => rfl
  | «variable» => rfl
  | text t =>
    obtain ⟨strings, hs⟩ := v.string_snd t
    rw [Addition.apply, hs]
  | operator n f p =>
    by_cases hp : p < Precedence.lowest ∨ (Precedence.tightest : Int) < p
    · simp only [Addition.apply, Vocabulary.defineOperator, if_pos hp]
    · obtain ⟨operators, hv, -⟩ := Addition.defineOperator_snd (v := v) (n := n) (f := f) hp
      rw [Addition.apply, hv]
      rfl

/-- Only the loading of the baseline sets the flag. -/
theorem lasting_bootstrapped (b : Bool) : Lasting fun v => v.bootstrapped = b :=
  ⟨fun a _ h => (bootstrapped_apply a).trans h⟩

end Vocabulary

namespace Baseline

variable {v : Vocabulary}

theorem load_of_bootstrapped (hb : v.bootstrapped = true) (config : Config) :
    (load v config).result = .ok [] ∧ (load v config).vocabulary = v := by
  obtain ⟨symbols, operators, strings, bootstrapped⟩ := v
  obtain rfl : bootstrapped = true := hb
  exact ⟨rfl, rfl⟩

theorem bootstrapped_load (hv : v.Reachable) (config : Config) :
    (load v config).vocabulary.bootstrapped = true :=
  (Vocabulary.lasting_bootstrapped true).load hv rfl config

/-- The first loading defines the built-in operators, or fails because one of them is defined otherwise. -/
theorem load_settles (hv : v.Reachable) (hb : v.bootstrapped = false) (config : Config) :
    (load v config).vocabulary.DefinesBaseline ∨
      (∃ e, (load v config).result = .error e) ∧ (load v config).vocabulary.ConflictsWithBaseline := by
  have hrange : ∀ d ∈ baselineOperators, ¬ ((d.2.2 : Int) < Precedence.lowest ∨
      (Precedence.tightest : Int) < d.2.2) := by
    decide
  have hu : v.beginBootstrap.2.Reachable := .bootstrap hv
  have hbegin : v.beginBootstrap = (true, v.beginBootstrap.2) := by
    rw [Vocabulary.beginBootstrap, hb]
    rfl
  have hsettles := hu.defineOperators_settles hrange
  have hw := hu.defineOperators baselineOperators
  rw [load, hbegin]
  dsimp only [Vocabulary.defineBaseline]
  rcases hdefine : v.beginBootstrap.2.defineOperators baselineOperators with ⟨e | _, w⟩ <;>
    rw [hdefine] at hsettles hw
  · obtain ⟨⟨_, hok⟩, -⟩ | ⟨-, hconflict⟩ := hsettles
    · cases hok
    · exact .inr ⟨⟨_, rfl⟩, hconflict⟩
  · obtain ⟨-, hdefines⟩ | ⟨⟨_, herror⟩, -⟩ := hsettles
    · have hgrows : w.GrowsInto (parseTexts w (texts config.variant)).2 :=
        (Vocabulary.GrowsInto.lasting w).parseTexts hw (.refl w) _
      have hafter := Vocabulary.DefinesBaseline.mono hgrows hdefines
      dsimp only
      rcases hparse : parseTexts w (texts config.variant) with ⟨_ | _, _⟩ <;> rw [hparse] at hafter
      · exact .inl hafter
      · exact .inl hafter
    · cases herror

end Baseline

/-- A use of a vocabulary: a call, or the declaration of an operator. -/
inductive Use where
  | declare (name : String) (fixity : Fixity) (precedence : Int)
  | call (call : Call)

/-- The vocabulary that a use leaves behind, also when it fails. -/
def Use.apply (v : Vocabulary) : Use → Vocabulary
  | declare name fixity precedence => (v.defineOperator name fixity precedence).2
  | call c => c.apply v

def history (uses : List Use) : Vocabulary := uses.foldl Use.apply .initial

theorem history_concat (uses : List Use) (use : Use) :
    history (uses ++ [use]) = use.apply (history uses) := by
  simp [history]

theorem Vocabulary.Reachable.apply {v : Vocabulary} (hv : v.Reachable) (use : Use) :
    (use.apply v).Reachable := by
  cases use with
  | declare name fixity precedence => exact hv.defineOperator name fixity precedence
  | call c => exact (Call.keeps v c).reachable hv

namespace Use

variable {v : Vocabulary}

theorem grows (hv : v.Reachable) (use : Use) : v.GrowsInto (use.apply v) := by
  cases use with
  | declare name fixity precedence => exact .defineOperator v name fixity precedence
  | call c => exact .call hv c

theorem grows_foldl (hv : v.Reachable) (uses : List Use) : v.GrowsInto (uses.foldl apply v) := by
  induction uses generalizing v with
  | nil => exact .refl v
  | cons use rest ih => exact (grows hv use).trans (ih (hv.apply use))

/-- A use that sets the flag is a loading of the baseline. -/
theorem exists_baseline (hv : v.Reachable) {use : Use} (hb : v.bootstrapped = false)
    (h : (use.apply v).bootstrapped = true) : ∃ config, use = .call (.baseline config) := by
  have hkept := Vocabulary.lasting_bootstrapped false
  have hother : (use.apply v).bootstrapped = false → ∃ config, use = .call (.baseline config) := by
    intro hfalse
    rw [h] at hfalse
    cases hfalse
  cases use with
  | declare name fixity precedence => exact hother (hkept.add (.operator name fixity precedence) hv hb)
  | call c =>
    cases c with
    | program loader source text => exact hother (hkept.parseText hv hb loader source text)
    | units loader names => exact hother (hkept.parseUnits hv hb loader names)
    | goal source text => exact hother (hkept.parseGoal hv hb source text)
    | term text => exact hother (hkept.parseGoal hv hb "<term>" text)
    | baseline config => exact ⟨config, rfl⟩
    | constant => exact hother hb

end Use

section

variable {uses : List Use}

theorem reachable_history (uses : List Use) : (history uses).Reachable := by
  induction uses using List.reverseRecOn with
  | nil => exact .initial
  | append_singleton uses use ih => exact history_concat uses use ▸ ih.apply use

theorem history_append_cons (front : List Use) (use : Use) (back : List Use) :
    history (front ++ use :: back) = back.foldl Use.apply (use.apply (history front)) := by
  simp [history]

/-- The flag goes back to a first loading. -/
theorem exists_first_load (h : (history uses).bootstrapped = true) :
    ∃ front config back, uses = front ++ .call (.baseline config) :: back ∧
      (history front).bootstrapped = false := by
  induction uses using List.reverseRecOn with
  | nil => cases h
  | append_singleton uses use ih =>
    rw [history_concat] at h
    cases hb : (history uses).bootstrapped with
    | true =>
      obtain ⟨front, config, back, rfl, hfront⟩ := ih hb
      exact ⟨front, config, back ++ [use], by simp, hfront⟩
    | false =>
      obtain ⟨config, rfl⟩ := Use.exists_baseline (reachable_history uses) hb h
      exact ⟨uses, config, [], rfl, hb⟩

/-- Behind the first loading all built-in operators are defined, or it has failed and the definition that it
has met is still there. -/
theorem history_settled (h : (history uses).bootstrapped = true) :
    (history uses).DefinesBaseline ∨
      (history uses).ConflictsWithBaseline ∧ ∃ front config back e,
        uses = front ++ .call (.baseline config) :: back ∧
          (Baseline.load (history front) config).result = .error e := by
  obtain ⟨front, config, back, rfl, hfront⟩ := exists_first_load h
  have hv := reachable_history front
  have hgrows := Use.grows_foldl (hv.apply (.call (.baseline config))) back
  rw [history_append_cons]
  obtain hdefines | ⟨⟨e, he⟩, hconflict⟩ := Baseline.load_settles hv hfront config
  · exact .inl (hdefines.mono hgrows)
  · exact .inr ⟨hconflict.mono hgrows, front, config, back, e, rfl, he⟩

/-- When the baseline is loaded with success, whatever has been done before, all built-in operators are defined
if and only if none of them had been defined otherwise; they can only be missing behind a loading
that has failed. Loading again does nothing. -/
theorem load_succeeds {config : Baseline.Config} {program : List Decl}
    (h : (Baseline.load (history uses) config).result = .ok program) :
    let w := (Baseline.load (history uses) config).vocabulary
    (w.DefinesBaseline ↔ ¬ (history uses).ConflictsWithBaseline) ∧
      (¬ w.DefinesBaseline → ∃ front config' back e,
        uses = front ++ .call (.baseline config') :: back ∧
          (Baseline.load (history front) config').result = .error e) ∧
      ∀ config', (Baseline.load w config').result = .ok [] ∧
        (Baseline.load w config').vocabulary = w := by
  intro w
  have hv := reachable_history uses
  have hgrows : (history uses).GrowsInto w := Use.grows hv (.call (.baseline config))
  have hagain : ∀ config', (Baseline.load w config').result = .ok [] ∧
      (Baseline.load w config').vocabulary = w :=
    Baseline.load_of_bootstrapped (Baseline.bootstrapped_load hv config)
  cases hb : (history uses).bootstrapped with
  | true =>
    have hw : w = history uses := (Baseline.load_of_bootstrapped hb config).2
    rw [hw] at hagain ⊢
    obtain hdefines | ⟨hconflict, hfailed⟩ := history_settled hb
    · exact ⟨iff_of_true hdefines hdefines.not_conflicts, fun hn => absurd hdefines hn, hagain⟩
    · have hn : ¬ (history uses).DefinesBaseline := fun hd => hd.not_conflicts hconflict
      exact ⟨iff_of_false hn (not_not_intro hconflict), fun _ => hfailed, hagain⟩
  | false =>
    obtain hdefines | ⟨⟨e, he⟩, -⟩ := Baseline.load_settles hv hb config
    · have hn : ¬ (history uses).ConflictsWithBaseline := fun hc =>
        hdefines.not_conflicts (hc.mono hgrows)
      exact ⟨iff_of_true hdefines hn, fun hd => absurd hdefines hd, hagain⟩
    · rw [h] at he
      cases he

/-- An operator that stands in the way: the first loading fails, the second succeeds without it. -/
theorem load_succeeds_incomplete :
    let uses : List Use := [.declare "+" .infixRight 160, .call (.baseline ⟨false, .standard⟩)]
    (Baseline.load (history uses) ⟨false, .standard⟩).result = .ok [] ∧
      ¬ (Baseline.load (history uses) ⟨false, .standard⟩).vocabulary.DefinesBaseline := by
  intro uses
  have hheld : (history uses).bootstrapped = true ∧
      (history uses).definition? "+" .betweenOperands = some ⟨.infixRight, 160⟩ := by
    decide +kernel
  have hresult := (Baseline.load_of_bootstrapped hheld.1 ⟨false, .standard⟩).1
  refine ⟨hresult, fun hdefines => (load_succeeds hresult).1.1 hdefines ?_⟩
  exact ⟨("+", .infixLeft, 160), by decide, _, hheld.2, by decide⟩

end

end Clausal
