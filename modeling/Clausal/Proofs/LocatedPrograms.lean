import Clausal.Proofs.LocatedDeclarations
import Clausal.Proofs.Termination

/-!
# Every position is a real one

Whatever is read, an error stands at a part of a unit that has been read, and so does every part of a
program that is returned. The units are known: they are those that the run has marked as seen, each
included by a name that is written in one before it.
-/
namespace Clausal

/-- A unit is refused where its name is written. -/
def Loader.RefusesInPlace (loader : Loader) : Prop :=
  ∀ span name e, loader.load span name = .error e → e.anomaly? = none → e.span? = some span

theorem UnitStore.refusesInPlace_loader (store : UnitStore) : store.loader.RefusesInPlace := by
  intro span name e h _
  simp only [UnitStore.loader] at h
  split at h
  · cases h
  · obtain rfl := Except.error.inj h
    rfl

namespace Parse

namespace Locates

variable {loader : Loader}

/-- What is included is read as a unit of its own, if it is read at all. -/
theorem includes_includeUnit (hl : loader.RefusesInPlace) {body : Parse (List Decl)}
    (hbody : ∀ x, ReadsDecls loader x body) (u : Source) :
    Includes loader u (includeUnit loader body) := by
  intro t name ht hname s hs
  cases hload : loader.load t.span name with
  | error e =>
    rw [includeUnit_of_error hload]
    refine ⟨[], .nil, rfl, fun e' he' ha => ?_, fun _ hb => (by cases hb)⟩
    obtain rfl := Except.error.inj he'
    exact ⟨t.span, hl _ _ _ hload ha, u, List.mem_cons_self, ht.exactIn⟩
  | ok x =>
    by_cases hseen : x.digest ∈ s.seen
    · rw [includeUnit_of_seen hload hseen]
      refine ⟨[], .nil, rfl, fun _ he => (by cases he), fun r hr => ?_⟩
      rw [← Except.ok.inj hr]
      exact ⟨.nil, ⟨0, rfl⟩, hs.last⟩
    · rw [includeUnit_of_unseen hload hseen]
      obtain ⟨units, hr⟩ := hbody x (s.entering x) (ParseState.in_initial _ _ x)
      have hone : ReadsUnits loader u [x] := .snoc .nil List.mem_cons_self ht hname hload
      rcases hb : body (s.entering x) with ⟨e | ds, s'⟩ <;> rw [hb] at hr
      · refine ⟨x :: units, hone.append (by simp) hr.reads, ?_, fun e' he' ha => ?_,
          fun _ h => (by cases h)⟩
        · simpa [ParseState.entering, ParseState.initial] using hr.seen
        · obtain rfl := Except.error.inj he'
          obtain ⟨span, hspan, y, hy, hexact⟩ := hr.error e rfl ha
          exact ⟨span, hspan, y, List.mem_cons_of_mem _ hy, hexact⟩
      · refine ⟨x :: units, hone.append (by simp) hr.reads, ?_, fun _ h => (by cases h),
          fun r hr' => ?_⟩
        · simpa [ParseState.entering, ParseState.initial] using hr.seen
        · rw [← Except.ok.inj hr']
          refine ⟨(hr.ok ds rfl).1.mono fun m hm => ?_, ⟨0, rfl⟩, hs.last⟩
          obtain ⟨y, hy, hreal⟩ := hm
          exact ⟨y, List.mem_cons_of_mem _ hy, hreal⟩

/-- However deep inclusions nest, each text is read in its own unit. -/
theorem unitBody (hl : loader.RefusesInPlace) (depth : Nat) (u : Source) :
    ReadsDecls loader u (unitBody loader depth) := by
  induction depth generalizing u with
  | zero => exact declarations (includes_includeUnit hl (fun _ => exhausted) u)
  | succ depth ih => exact declarations (includes_includeUnit hl ih u)

theorem program (hl : loader.RefusesInPlace) (u : Source) : ReadsDecls loader u (program loader) :=
  unitBody hl _ u

end Locates

end Parse

open Parse in
/-- An error has a span, and the spans of errors and of programs are parts of units that have been
read: they begin and end between characters of the text, in this order, and say on which line they
begin and where that line begins. Only the line of quoted text is excepted. -/
theorem parseText_located (v : Vocabulary) (store : UnitStore) (source text : String) :
    ∃ units, ReadsUnits store.loader ⟨source, text⟩ units ∧
      ((program store.loader).run (.initial v [] source text)).2.seen =
        (units.map Source.digest).reverse ∧
      (∀ e, (parseText v store.loader source text).1 = .error e →
        ∃ span, e.span? = some span ∧ ∃ u ∈ ⟨source, text⟩ :: units, span.ExactIn u) ∧
      ∀ ds, (parseText v store.loader source text).1 = .ok ds →
        ∀ m ∈ marksOf ds, ∃ u ∈ ⟨source, text⟩ :: units, m.RealIn u := by
  obtain ⟨units, hr⟩ := Locates.program store.refusesInPlace_loader ⟨source, text⟩
    (.initial v [] source text) (ParseState.in_initial v [] ⟨source, text⟩)
  have hsound := sound_parseText store.loader v source text
  have hrun : (parseText v store.loader source text).1 =
      ((program store.loader) (.initial v [] source text)).1 := rfl
  refine ⟨units, hr.reads, by simpa [ParseState.initial, run] using hr.seen, fun e he => ?_,
    fun ds hds => ?_⟩
  · have ha := (hsound.error e he).anomaly?_eq_none store.reportsLoading_loader
    exact hr.error e (hrun ▸ he) ha
  · exact (hr.ok ds (hrun ▸ hds)).1

/-- A unit with a quotation. -/
def quotingUnit : UnitStore := ⟨[("u", "a \x7b\x7bb\x7d\x7d.")]⟩

def includingText : Source := ⟨"main", "accumulate u.\nb."⟩

/-- The inclusion, what it includes with the quoted text, and a clause on the second line. -/
def includingMarks : List Mark :=
  [.plain ⟨"main", 0, 13, 1, 0⟩, .plain ⟨"u", 0, 8, 1, 0⟩, ⟨⟨"u", 4, 5, 1, 0⟩, true⟩,
    .plain ⟨"main", 14, 16, 2, 14⟩]

theorem parseText_located_including :
    ∃ ds, (parseText .initial quotingUnit.loader "main" includingText.text).1 = .ok ds ∧
      marksOf ds = includingMarks ∧ ∃ units, ReadsUnits quotingUnit.loader includingText units ∧
        ∀ m ∈ includingMarks, ∃ u ∈ includingText :: units, m.RealIn u := by
  have hmarks : (parseText .initial quotingUnit.loader "main" includingText.text).1.toOption.map
      marksOf = some includingMarks := by decide +kernel
  cases hrun : (parseText .initial quotingUnit.loader "main" includingText.text).1 with
  | error e =>
    rw [hrun] at hmarks
    cases hmarks
  | ok ds =>
    rw [hrun] at hmarks
    have hds : marksOf ds = includingMarks := Option.some.inj hmarks
    obtain ⟨units, hreads, -, -, hreal⟩ :=
      parseText_located .initial quotingUnit "main" includingText.text
    exact ⟨ds, rfl, hds, units, hreads, hds ▸ hreal ds hrun⟩

end Clausal
