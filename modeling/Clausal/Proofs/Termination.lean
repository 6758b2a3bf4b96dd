import Clausal.Proofs.ProgramOutcomes

/-!
# Reading always ends

No bound on the work for a text is ever used up: not the one on how deep readers of terms nest, which
four times the number of items ahead allows for, nor the one on the rounds of a repetition, which
is the number of items ahead, nor the one on how deep inclusions nest, for which the distinct texts that
have not been seen are enough. This holds for texts that include themselves or each other as well.
-/
namespace Clausal

/-- A loader that fails only for want of a text. -/
def Loader.ReportsLoading (loader : Loader) : Prop :=
  ∀ span name e, loader.load span name = .error e → e.shownTerm? = none ∧ e.anomaly? = none

theorem UnitStore.reportsLoading_loader (store : UnitStore) : store.loader.ReportsLoading := by
  intro span name e h
  simp only [UnitStore.loader] at h
  split at h
  · cases h
  · obtain rfl := Except.error.inj h
    exact ⟨rfl, rfl⟩

theorem Loader.reportsLoading_disabled : Loader.disabled.ReportsLoading := by
  rintro span name e ⟨⟩
  exact ⟨rfl, rfl⟩

theorem ParseError.Explained.anomaly?_eq_none {loader : Loader} {v : Vocabulary} {e : ParseError}
    (hl : loader.ReportsLoading) (h : e.Explained loader v) : e.anomaly? = none := by
  cases h with
  | plain _ ha => exact ha
  | shows _ _ ha => exact ha
  | reported h => exact (hl _ _ _ h).2

namespace Parse

/-- The step is not stopped by a bound, and if it succeeds it has read so many items at least. -/
structure Consumes {α : Type} (k : Nat) (p : Parse α) (s : ParseState) : Prop where
  ends : (p s).1 ≠ .error (.anomaly .exhausted)
  left : ∀ {a s'}, p s = (.ok a, s') → s'.left + k ≤ s.left

theorem Delivers.consumes {α : Type} {loader : Loader} {Q : α → ParseState → Prop} {p : Parse α}
    {s : ParseState} {k : Nat} (hl : loader.ReportsLoading) (h : Delivers loader Q p s)
    (hs : s.ahead.Ends) (hk : ∀ a s', s.Before s' → Q a s' → s'.left + k ≤ s.left) :
    Consumes k p s := by
  have hout := h hs
  constructor
  · intro hrun
    rcases hp : p s with ⟨e | a, s'⟩ <;> rw [hp] at hout hrun
    · obtain rfl := Except.error.inj hrun
      cases hout with
      | error _ _ he => cases he.anomaly?_eq_none hl
    · cases hrun
  · intro a s' hrun
    rw [hrun] at hout
    cases hout with
    | ok hbefore ha => exact hk a s' hbefore ha

end Parse

/-- What keeps reading from going on for ever. -/
structure Terminates (loader : Loader) : Prop where
  text : ∀ v source text, (parseText v loader source text).1 ≠ .error (.anomaly .exhausted)
  units : ∀ v names, (parseUnits v loader names).1 ≠ .error (.anomaly .exhausted)
  goal : ∀ v source text, (parseGoal v source text).1 ≠ .error (.anomaly .exhausted)
  /-- Inclusions nest no deeper than there are distinct texts that have not been seen. -/
  depth : ∀ {s : ParseState} {depth}, s.ahead.Ends → loader.unread s.seen ≤ depth →
    Parse.Consumes 0 (Parse.unitBody loader depth) s
  /-- A declaration reads an item. -/
  declaration : ∀ {s : ParseState}, s.ahead.Ends →
    Parse.Consumes 1 (Parse.declaration (Parse.includeUnit loader (Parse.program loader))) s
  /-- An expression reads an item, and a bound of four times the items ahead is enough for it. -/
  expression : ∀ {s : ParseState} {n} limit strict earlier, s.ahead.Ends → 4 * s.left + 3 ≤ n →
    Parse.Consumes 1 (Parse.expression n limit strict earlier) s
  /-- There may be no operator to go on with. -/
  climb : ∀ {s : ParseState} {n} limit strict earlier first, s.ahead.Ends → 4 * s.left + 1 ≤ n →
    Parse.Consumes 0 (Parse.climb n limit strict earlier first) s
  operand : ∀ {s : ParseState} {n} limit, s.ahead.Ends → 4 * s.left + 2 ≤ n →
    Parse.Consumes 1 (Parse.operand n limit) s
  atomic : ∀ {s : ParseState} {n} limit, s.ahead.Ends → 4 * s.left + 1 ≤ n →
    Parse.Consumes 1 (Parse.atomic n limit) s
  elements : ∀ {s : ParseState} {n}, s.ahead.Ends → 4 * s.left + 4 ≤ n →
    Parse.Consumes 1 (Parse.elements n) s
  /-- Arguments may be missing. -/
  arguments : ∀ {s : ParseState} {n}, s.ahead.Ends → 4 * s.left + 2 ≤ n →
    Parse.Consumes 0 (Parse.arguments n) s
  /-- The items of every text come to an end. -/
  ends : ∀ source text, (Scan.ofText source text).Ends

open Parse Delivers in
theorem Loader.ReportsLoading.terminates {loader : Loader} (hl : loader.ReportsLoading) :
    Terminates loader where
  text v source text h := by
    cases ((sound_parseText loader v source text).error _ h).anomaly?_eq_none hl
  units v names h := by
    cases ((sound_parseUnits loader v names).error _ h).anomaly?_eq_none hl
  goal v source text h := by
    cases ((sound_parseGoal loader v source text).error _ h).anomaly?_eq_none hl
  depth {s depth} hs h := (unitBody depth h).consumes hl hs fun _ _ hbefore _ => hbefore.left
  declaration {s} hs :=
    have hincludes : Includes loader [] (Parse.includeUnit loader (Parse.program loader)) :=
      includes_includeUnit fun _ _ _ _ => program
    (declaration hincludes (by simp)).consumes hl hs fun _ _ _ h => h.1
  expression {s n} limit strict earlier hs hn :=
    ((termReaders loader n).expression limit strict earlier hn).consumes hl hs fun _ _ _ h => h.left
  climb {s n} limit strict earlier first hs hn :=
    ((termReaders loader n).climb limit strict earlier hn).consumes hl hs fun _ _ hbefore _ =>
      hbefore.left
  operand {s n} limit hs hn :=
    ((termReaders loader n).operand limit hn).consumes hl hs fun _ _ _ h => h.left
  atomic {s n} limit hs hn :=
    ((termReaders loader n).atomic limit hn).consumes hl hs fun _ _ _ h => h.left
  elements {s n} hs hn := ((termReaders loader n).elements hn).consumes hl hs fun _ _ _ h => h.left
  arguments {s n} hs hn :=
    ((termReaders loader n).arguments hn).consumes hl hs fun _ _ hbefore _ => hbefore.left
  ends := Scan.ends_ofText

/-- Reading ends with every vocabulary and every store of units. -/
theorem terminates_store (store : UnitStore) : Terminates store.loader :=
  store.reportsLoading_loader.terminates

end Clausal
