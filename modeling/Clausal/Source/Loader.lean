import Clausal.Parse.Error
import Clausal.Source.Path

/-!
# Finding the units that a text includes

A loader turns the name of a unit into its text. It can deliver finitely many texts only, and says
which, so a chain of inclusions that never repeats a text is finite.
-/
namespace Clausal

/-- A text and the name it goes by in spans. -/
structure Source where
  name : String
  text : String
  deriving DecidableEq, Repr

structure Loader where
  /-- The unit with a name that was written at a span. -/
  load : Span → String → Except ParseError Source
  texts : List String
  complete : ∀ {span name source}, load span name = .ok source → source.text ∈ texts

/-- The extension of unit files, tried when the name of a unit has none. -/
def sourceExtension : String := "lp"

def withExtension (name : String) : String := name ++ "." ++ sourceExtension

namespace Loader

/-- Refuses every unit. -/
def disabled : Loader where
  load span name := .error (.load span name .disabled)
  texts := []
  complete h := by simp at h

end Loader

/-- Units kept by name. -/
structure UnitStore where
  units : List (String × String)
  deriving DecidableEq, Repr

namespace UnitStore

def empty : UnitStore := ⟨[]⟩

/-- Keeps a text under a name, in place of any earlier one. -/
def insert (u : UnitStore) (name text : String) : UnitStore :=
  ⟨(name, text) :: u.units.filter (·.1 != name)⟩

def get? (u : UnitStore) (name : String) : Option String := u.units.lookup name

/-- The unit of exactly this name, or else of the name with the extension. -/
def find? (u : UnitStore) (name : String) : Option Source :=
  match u.get? name with
  | some text => some ⟨name, text⟩
  | none => (u.get? (withExtension name)).map (⟨withExtension name, ·⟩)

theorem mem_of_get? {u : UnitStore} {name text : String} (h : u.get? name = some text) :
    text ∈ u.units.map (·.2) := by
  obtain ⟨units⟩ := u
  unfold get? at h
  induction units with
  | nil => simp at h
  | cons entry rest ih =>
    obtain ⟨key, value⟩ := entry
    rw [List.lookup_cons] at h
    split at h
    · simp_all
    · exact List.mem_cons_of_mem _ (ih h)

theorem mem_of_find? {u : UnitStore} {name : String} {source : Source}
    (h : u.find? name = some source) : source.text ∈ u.units.map (·.2) := by
  unfold find? at h
  split at h
  · next text ht =>
    obtain rfl := Option.some.inj h
    exact mem_of_get? ht
  · obtain ⟨text, ht, rfl⟩ := Option.map_eq_some_iff.1 h
    exact mem_of_get? ht

def loader (u : UnitStore) : Loader where
  load span name :=
    match u.find? name with
    | some source => .ok source
    | none => .error (.load span name .noSuchUnit)
  texts := u.units.map (·.2)
  complete h := by
    split at h
    · obtain rfl := Except.ok.inj h
      exact mem_of_find? ‹_›
    · cases h

end UnitStore

end Clausal
