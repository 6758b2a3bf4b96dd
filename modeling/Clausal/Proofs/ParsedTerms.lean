import Clausal.Proofs.ProgramOutcomes

/-!
# Terms that are read are in flat form

Whatever a text says, every term of what an entry point gives back has a constant or a quotation at
the head of each application and at least one argument there, down to its last subterm, and holds symbols of
the table only.
-/
namespace Clausal

/-- In flat form, with symbols that are positions of the table. -/
def Term.FlatOver (v : Vocabulary) (t : Term) : Prop := t.Flat fun s => s.index < v.symbols.size

/-- In what a vocabulary of a session grows into, the symbols of terms are positions of the table. -/
theorem Term.FlatIn.flatOver {v w : Vocabulary} {t : Term} (hv : v.Reachable) (hvw : v.Extends w)
    (h : t.FlatIn w) : t.FlatOver w :=
  Flat.mono (fun _ hs => hvw.index_lt hv hs) h

/-- Reading with a vocabulary gives terms in flat form only. What a reading leaves behind can be read with
in turn, also when it has failed. -/
structure ReadsFlat (v : Vocabulary) : Prop where
  text : ∀ {loader source text program w}, parseText v loader source text = (.ok program, w) →
    ∀ t ∈ termsOf program, t.FlatOver w
  units : ∀ {loader names program w}, parseUnits v loader names = (.ok program, w) →
    ∀ t ∈ termsOf program, t.FlatOver w
  goal : ∀ {source text goal w}, parseGoal v source text = (.ok goal, w) → goal.term.FlatOver w
  behindText : ∀ loader source text, (parseText v loader source text).2.Reachable
  behindUnits : ∀ loader names, (parseUnits v loader names).2.Reachable
  behindGoal : ∀ source text, (parseGoal v source text).2.Reachable

theorem Vocabulary.Reachable.readsFlat {v : Vocabulary} (hv : v.Reachable) : ReadsFlat v where
  text {loader source text program w} h t ht := by
    have hsound := Parse.sound_parseText loader v source text
    rw [h] at hsound
    exact (hsound.ok program rfl t ht).flatOver hv hsound.names
  units {loader names program w} h t ht := by
    have hsound := Parse.sound_parseUnits loader v names
    rw [h] at hsound
    exact (hsound.ok program rfl t ht).flatOver hv hsound.names
  goal {source text goal w} h := by
    have hsound := Parse.sound_parseGoal .disabled v source text
    rw [h] at hsound
    exact (hsound.ok goal rfl goal.term (by simp)).flatOver hv hsound.names
  behindText loader source text := (Parse.sound_parseText loader v source text).reachable hv
  behindUnits loader names := (Parse.sound_parseUnits loader v names).reachable hv
  behindGoal source text := (Parse.sound_parseGoal .disabled v source text).reachable hv

/-- A vocabulary with one operator. -/
def joining : Vocabulary := (Vocabulary.initial.defineOperator "+" .infixLeft 160).2

/-- Arguments of an operator, of an application, and of an application in parentheses that is
applied again. -/
theorem readsFlat_joining :
    ∃ program w, parseText joining .disabled "t" "(f a) [b | C] + x\\ \x7b\x7bq\x7d\x7d _." =
      (.ok program, w) ∧ termsOf program ≠ [] ∧ ∀ t ∈ termsOf program, t.FlatOver w := by
  have hok : ((parseText joining .disabled "t"
      "(f a) [b | C] + x\\ \x7b\x7bq\x7d\x7d _.").1.toOption.map fun program =>
        (termsOf program).isEmpty) = some false := by
    decide +kernel
  have hv : joining.Reachable := .defineOperator "+" .infixLeft 160 .initial
  rcases hp : parseText joining .disabled "t" "(f a) [b | C] + x\\ \x7b\x7bq\x7d\x7d _." with
    ⟨_ | program, w⟩
  · rw [hp] at hok
    cases hok
  · rw [hp] at hok
    refine ⟨program, w, rfl, fun hnone => ?_, hv.readsFlat.text hp⟩
    change some (termsOf program).isEmpty = some false at hok
    rw [hnone] at hok
    cases hok

end Clausal
