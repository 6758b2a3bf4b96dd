import Clausal.Scope.Options

/-!
# Which attributes a declaration admits

Every attribute has a slot. A kind of declaration admits some slots, and no slot is filled twice.
The typed attributes can be written out again, and are read back as they were.
-/
namespace Clausal

namespace Attribute

/-- What an attribute says something about. Two attributes of one slot exclude each other. -/
inductive Slot where
  | name
  | position
  | condition
  | storage
  deriving DecidableEq, Repr

def slot : Attribute → Slot
  | name _ => .name
  | before _ | after _ => .position
  | onlyIf _ => .condition
  | external | index _ => .storage

/-- All attributes have an admitted slot, and no two have the same. -/
def Admitted (slots : List Slot) (attributes : List Attribute) : Prop :=
  (∀ a ∈ attributes, a.slot ∈ slots) ∧ (attributes.map slot).Nodup

instance (slots : List Slot) (attributes : List Attribute) : Decidable (Admitted slots attributes) :=
  inferInstanceAs (Decidable (_ ∧ _))

/-- `add` takes the attributes of free slots among `slots`, and fills their slots. -/
structure Fills {σ : Type} (add : σ → Attribute → Except NestingFault σ) (filled : σ → Slot → Prop)
    (slots : List Slot) : Prop where
  takes : ∀ o a, (∃ o', add o a = .ok o') ↔ a.slot ∈ slots ∧ ¬ filled o a.slot
  fills : ∀ {o a o'}, add o a = .ok o' → ∀ s, filled o' s ↔ s = a.slot ∨ filled o s

namespace Fills

variable {σ : Type} {add : σ → Attribute → Except NestingFault σ} {filled : σ → Slot → Prop}
variable {slots : List Slot}

theorem foldlM_iff (h : Fills add filled slots) (attributes : List Attribute) (o : σ) :
    (∃ o', attributes.foldlM add o = .ok o') ↔
      Admitted slots attributes ∧ ∀ a ∈ attributes, ¬ filled o a.slot := by
  induction attributes generalizing o with
  | nil => simp [Admitted, pure, Except.pure]
  | cons a rest ih =>
    have htakes := h.takes o a
    rw [List.foldlM_cons]
    cases hadd : add o a with
    | error fault =>
      have hnot : ¬ (a.slot ∈ slots ∧ ¬ filled o a.slot) := by
        rw [← htakes, hadd]
        simp
      constructor
      · rintro ⟨o', ho'⟩
        cases ho'
      · rintro ⟨⟨hslots, -⟩, hfree⟩
        exact absurd ⟨hslots a List.mem_cons_self, hfree a List.mem_cons_self⟩ hnot
    | ok o' =>
      obtain ⟨hslot, hfree⟩ := htakes.1 ⟨o', hadd⟩
      have hrest := ih o'
      change (∃ o'', rest.foldlM add o' = .ok o'') ↔ _
      rw [hrest]
      simp only [Admitted, h.fills hadd, List.mem_cons, forall_eq_or_imp, List.map_cons,
        List.nodup_cons, List.mem_map, not_exists, not_and, not_or]
      constructor
      · rintro ⟨⟨hslots, hnodup⟩, hkept⟩
        exact ⟨⟨⟨hslot, hslots⟩, fun b hb => (hkept b hb).1, hnodup⟩, hfree,
          fun b hb => (hkept b hb).2⟩
      · rintro ⟨⟨⟨-, hslots⟩, hother, hnodup⟩, -, hkept⟩
        exact ⟨⟨hslots, hnodup⟩, fun b hb => ⟨hother b hb, hkept b hb⟩⟩

/-- From a state in which nothing is filled. -/
theorem foldlM_of_empty (h : Fills add filled slots) (attributes : List Attribute) {o : σ}
    (ho : ∀ s, ¬ filled o s) :
    (∃ o', attributes.foldlM add o = .ok o') ↔ Admitted slots attributes := by
  rw [h.foldlM_iff, and_iff_left]
  exact fun a _ => ho a.slot

end Fills

end Attribute

section

variable {α β : Type} {what : String} {value : α} {o o' : Option α}

@[simp] theorem setOnce_eq_ok : setOnce what value o = .ok o' ↔ o = none ∧ some value = o' := by
  cases o <;> simp [setOnce]

@[simp] theorem map_setOnce_eq_ok {f : Option α → β} {b : β} :
    f <$> setOnce what value o = .ok b ↔ o = none ∧ f (some value) = b := by
  cases o <;> simp [setOnce, Functor.map, Except.map]

end

namespace ClauseOptions

/-- The slots for attributes of clauses. -/
def slots : List Attribute.Slot := [.name, .position, .condition]

def Filled (o : ClauseOptions) : Attribute.Slot → Prop
  | .name => o.id ≠ none
  | .position => o.insertion ≠ none
  | .condition => o.onlyIf ≠ none
  | .storage => False

theorem fills : Attribute.Fills add Filled slots where
  takes o a := by cases a <;> simp [add, Filled, slots, Attribute.slot]
  fills {o a o'} h s := by
    cases a <;> simp only [add, bind_pure_comp, map_setOnce_eq_ok, reduceCtorEq] at h <;>
      obtain ⟨-, rfl⟩ := h <;> cases s <;> simp [Filled, Attribute.slot]

theorem ofAttributes_iff (attributes : List Attribute) :
    (∃ o, ofAttributes attributes = .ok o) ↔ Attribute.Admitted slots attributes :=
  fills.foldlM_of_empty attributes fun s => by cases s <;> simp [Filled, empty]

/-- The attributes that say what the options say. -/
def attributes (o : ClauseOptions) : List Attribute :=
  (o.id.map .name).toList ++
    (o.insertion.map fun
      | .before text => .before text
      | .after text => .after text).toList ++
    (o.onlyIf.map .onlyIf).toList

theorem ofAttributes_attributes (o : ClauseOptions) : ofAttributes o.attributes = .ok o := by
  obtain ⟨id, insertion, onlyIf⟩ := o
  rcases insertion with _ | text | text <;> cases id <;> cases onlyIf <;> rfl

end ClauseOptions

namespace RuleOptions

/-- The slots for attributes of rules. -/
def slots : List Attribute.Slot := [.name, .condition]

def Given.Filled (o : Given) : Attribute.Slot → Prop
  | .name => o.id ≠ none
  | .condition => o.onlyIf ≠ none
  | .position | .storage => False

theorem Given.fills : Attribute.Fills add Filled slots where
  takes o a := by cases a <;> simp [add, Filled, slots, Attribute.slot]
  fills {o a o'} h s := by
    cases a <;> simp only [add, bind_pure_comp, map_setOnce_eq_ok, reduceCtorEq] at h <;>
      obtain ⟨-, rfl⟩ := h <;> cases s <;> simp [Filled, Attribute.slot]

theorem ofAttributes_iff (span : Span) (attributes : List Attribute) :
    (∃ o, ofAttributes span attributes = .ok o) ↔ Attribute.Admitted slots attributes := by
  rw [← Given.fills.foldlM_of_empty attributes (o := ⟨none, none⟩) fun s => by
    cases s <;> simp [Given.Filled], ofAttributes]
  cases attributes.foldlM Given.add ⟨none, none⟩ <;>
    simp [bind, Except.bind, pure, Except.pure]

/-- The attributes of a rule of that name, which need not come from its span. -/
def attributes (o : RuleOptions) : List Attribute := .name o.id :: (o.onlyIf.map .onlyIf).toList

theorem ofAttributes_attributes (span : Span) (o : RuleOptions) :
    ofAttributes span o.attributes = .ok o := by
  obtain ⟨id, onlyIf⟩ := o
  cases onlyIf <;> rfl

end RuleOptions

namespace TypeOption

/-- The slots for attributes of types. -/
def slots : List Attribute.Slot := [.storage]

def Filled (o : Option TypeOption) : Attribute.Slot → Prop
  | .storage => o ≠ none
  | _ => False

theorem fills : Attribute.Fills add Filled slots where
  takes o a := by cases a <;> simp [add, Filled, slots, Attribute.slot]
  fills {o a o'} h s := by
    cases a <;> simp only [add, setOnce_eq_ok, reduceCtorEq] at h <;>
      obtain ⟨-, rfl⟩ := h <;> cases s <;> simp [Filled, Attribute.slot]

theorem ofAttributes_iff (attributes : List Attribute) :
    (∃ o, ofAttributes attributes = .ok o) ↔ Attribute.Admitted slots attributes := by
  rw [← fills.foldlM_of_empty attributes (o := none) fun s => by cases s <;> simp [Filled],
    ofAttributes]
  cases attributes.foldlM add none <;> simp [bind, Except.bind, pure, Except.pure]

/-- The attributes that say what the option says. -/
def attributes : TypeOption → List Attribute
  | plain => []
  | external => [.external]
  | index depths => [.index depths]

theorem ofAttributes_attributes (o : TypeOption) : ofAttributes o.attributes = .ok o := by
  cases o <;> rfl

end TypeOption

end Clausal
