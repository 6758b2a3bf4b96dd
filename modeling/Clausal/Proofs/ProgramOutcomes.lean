import Clausal.Proofs.DeclarationOutcomes
import Mathlib.Data.List.Dedup

/-!
# How the entry points end

A text is read for its inclusion only if it has not been seen, and counts as seen from then on. So no
more inclusions nest than there are distinct texts that have not been seen, and a bound that
allows for these is never what ends a reading.
-/
namespace Clausal

namespace Loader

variable {loader : Loader} {seen seen' : List Digest}

/-- The same loader, with each text listed once. -/
def distinct (loader : Loader) : Loader :=
  { loader with
    texts := loader.texts.dedup
    complete := fun h => List.mem_dedup.2 (loader.complete h) }

/-- The number of distinct texts that have not been seen. -/
def unread (loader : Loader) (seen : List Digest) : Nat := loader.distinct.unseen seen

theorem unread_le (loader : Loader) (seen : List Digest) : loader.unread seen ≤ loader.texts.length :=
  Nat.le_trans (loader.distinct.unseen_le seen) (List.dedup_sublist loader.texts).length_le

theorem unread_anti (h : ∀ d ∈ seen, d ∈ seen') : loader.unread seen' ≤ loader.unread seen := by
  refine List.countP_mono_left fun text _ ht => ?_
  simp only [decide_eq_true_eq] at ht ⊢
  exact fun hd => ht (h _ hd)

/-- The text of a unit is not left any more when it is read. -/
theorem unread_lt {span : Span} {name : String} {source : Source}
    (hl : loader.load span name = .ok source) (hd : source.digest ∉ seen) :
    loader.unread (source.digest :: seen) < loader.unread seen :=
  loader.distinct.unseen_cons_lt seen (loader.distinct.complete hl) hd

end Loader

namespace Parse

variable {loader : Loader} {s : ParseState}

namespace Delivers

/-- An inclusion delivers if reading a text that has not been seen does. -/
theorem includes_includeUnit {body : Parse (List Decl)} {seen : List Digest}
    (hbody : ∀ {span name source} (s : ParseState), loader.load span name = .ok source →
      source.digest ∉ s.seen → (∀ d ∈ seen, d ∈ s.seen) →
      Delivers loader (fun ds s' => Term.AllFlatIn s'.vocabulary (termsOf ds)) body
        (s.entering source)) :
    Includes loader seen (includeUnit loader body) := by
  intro span name s hseen hs
  cases hl : loader.load span name with
  | error e =>
    rw [includeUnit_of_error hl]
    exact .error (.refl _) id (.reported hl)
  | ok source =>
    by_cases hd : source.digest ∈ s.seen
    · rw [includeUnit_of_seen hl hd]
      exact .ok (.refl hs) .nil
    · rw [includeUnit_of_unseen hl hd]
      have hout := hbody s hl hd hseen (Scan.ends_ofText _ _)
      rcases hb : body (s.entering source) with ⟨e | ds, s'⟩ <;> rw [hb] at hout
      · cases hout with
        | error hnames hv he => exact .error hnames hv he
      · cases hout with
        | ok hbefore hds =>
          refine .ok ⟨hs, Nat.le_refl _, hbefore.names, hbefore.reachable, fun d hd => ?_⟩ hds
          exact hbefore.seen d (List.mem_cons_of_mem _ hd)

/-- The text of a unit is not left to be included by what it includes. -/
theorem includes_of_unread {body : Parse (List Decl)} {seen : List Digest} {depth : Nat}
    (h : loader.unread seen ≤ depth) (hbody : ∀ s : ParseState, loader.unread s.seen < depth →
      Delivers loader (fun ds s' => Term.AllFlatIn s'.vocabulary (termsOf ds)) body s) :
    Includes loader seen (includeUnit loader body) :=
  includes_includeUnit fun s hl hd hseen => hbody (s.entering _)
    (Nat.lt_of_lt_of_le (Loader.unread_lt hl hd) (Nat.le_trans (Loader.unread_anti hseen) h))

/-- Inclusions nest no deeper than there are distinct texts to be seen. -/
theorem unitBody (depth : Nat) (h : loader.unread s.seen ≤ depth) :
    Delivers loader (fun ds s' => Term.AllFlatIn s'.vocabulary (termsOf ds))
      (unitBody loader depth) s := by
  induction depth generalizing s with
  | zero => exact declarations (includes_of_unread h fun _ hlt => absurd hlt (Nat.not_lt_zero _)) fun _ hd => hd
  | succ depth ih =>
    exact declarations (includes_of_unread h fun _ hlt => ih (Nat.le_of_lt_succ hlt)) fun _ hd => hd

theorem program : Delivers loader (fun ds s' => Term.AllFlatIn s'.vocabulary (termsOf ds))
    (program loader) s :=
  unitBody _ (loader.unread_le s.seen)

theorem includeAll (names : List String) :
    Delivers loader (fun ds s' => Term.AllFlatIn s'.vocabulary (termsOf ds))
      (includeAll loader names) s := by
  induction names generalizing s with
  | nil => exact pure .nil
  | cons name rest ih =>
    have hunit : Includes loader [] (includeUnit loader (Parse.program loader)) :=
      includes_includeUnit fun _ _ _ _ => program
    refine (hunit (Span.initial topLevel) name s (by simp)).bind fun unit s₁ _ hu =>
      ih.bind fun others s₂ h₂ hothers => pure ?_
    simpa [termsOf, Decl.terms, termsOfUnits] using ⟨hu.mono h₂.names, hothers⟩

theorem goal : Delivers loader (fun g s' => g.term.FlatIn s'.vocabulary) goal s := by
  have hend : ∀ (span : Span) (t : Term) (s : ParseState), t.FlatIn s.vocabulary →
      Delivers loader (fun g s' => g.term.FlatIn s'.vocabulary) (do
        let _ ← Parse.expect .endOfInput
        Pure.pure (⟨span, t⟩ : Goal)) s :=
    fun _ _ _ ht => (expect _).bind fun _ _ h _ => pure (ht.mono h.names)
  refine Looks.bind peek fun first _ => term.bind fun t s₁ _ ht =>
    Looks.bind (spanFrom _) fun span _ => Looks.bind peek fun stop _ => ?_
  dsimp only
  split_ifs
  · exact next.bind fun _ s₂ h₂ _ => hend span t s₂ (ht.flat.mono h₂.names)
  · exact hend span t s₁ ht.flat

end Delivers

/-- What an entry point comes to, with the terms that its result holds. -/
structure Sound {α : Type} (loader : Loader) (v : Vocabulary) (terms : α → List Term)
    (r : Except ParseError α × Vocabulary) : Prop where
  names : v.Extends r.2
  reachable : v.Reachable → r.2.Reachable
  ok : ∀ a, r.1 = .ok a → Term.AllFlatIn r.2 (terms a)
  error : ∀ e, r.1 = .error e → e.Explained loader r.2

theorem Ending.sound {α : Type} {terms : α → List Term} {r : Except ParseError α × ParseState}
    (h : Ending loader (fun a s' => Term.AllFlatIn s'.vocabulary (terms a)) s r) :
    Sound loader s.vocabulary terms (r.1, r.2.vocabulary) := by
  cases h with
  | ok hbefore ha =>
    refine ⟨hbefore.names, hbefore.reachable, fun a h => ?_, fun _ h => (by cases h)⟩
    obtain rfl := Except.ok.inj h
    exact ha
  | error hnames hv he =>
    refine ⟨hnames, hv, fun _ h => (by cases h), fun e h => ?_⟩
    obtain rfl := Except.error.inj h
    exact he

variable (loader) (v : Vocabulary)

theorem sound_parseText (source text : String) :
    Sound loader v termsOf (parseText v loader source text) :=
  (Delivers.program (s := .initial v [] source text) (Scan.ends_ofText source text)).sound

theorem sound_parseUnits (names : List String) :
    Sound loader v termsOf (parseUnits v loader names) :=
  (Delivers.includeAll (s := .initial v [] topLevel "") names (Scan.ends_ofText _ _)).sound

theorem sound_parseGoal (source text : String) :
    Sound loader v (fun g => [g.term]) (parseGoal v source text) := by
  have hgoal : Delivers loader (fun g s' => Term.AllFlatIn s'.vocabulary [g.term]) goal
      (.initial v [] source text) :=
    Delivers.goal.mono fun _ _ _ ht => Term.AllFlatIn.cons_iff.2 ⟨ht, .nil⟩
  exact (hgoal (Scan.ends_ofText source text)).sound

end Parse

end Clausal
