import Clausal.Proofs.WellNested
import Mathlib.Data.List.Nodup

/-!
# Attributes in any order

The options of a clause, a rule or a type hold each of its attributes, and nothing else but for the name of
a rule that is given none. So the order of the attributes does not matter: two programs that differ in it
only have the same nested form, or an error at the same place.
-/
namespace Clausal

namespace Attribute

/-- How many of the attributes fill a slot. -/
def Slot.uses (s : Slot) (attributes : List Attribute) : Nat := (attributes.map slot).count s

section

variable {slots : List Slot} {attributes others : List Attribute}

theorem Slot.uses_eq_zero_iff {s : Slot} :
    s.uses attributes = 0 ↔ ∀ a ∈ attributes, a.slot ≠ s := by
  simp [uses, List.count_eq_zero]

theorem Slot.forall_iff {p : Slot → Prop} :
    (∀ s, p s) ↔ p .name ∧ p .position ∧ p .condition ∧ p .storage := by
  constructor
  · exact fun h => ⟨h _, h _, h _, h _⟩
  · rintro ⟨hname, hposition, hcondition, hstorage⟩ s
    cases s <;> assumption

theorem admitted_iff_uses :
    Admitted slots attributes ↔
      (∀ s ∈ slots, s.uses attributes ≤ 1) ∧ ∀ s ∉ slots, s.uses attributes = 0 := by
  simp only [Slot.uses_eq_zero_iff, Admitted, List.nodup_iff_count_le_one]
  constructor
  · rintro ⟨hslots, hcount⟩
    exact ⟨fun s _ => hcount s, fun s hs a ha he => hs (he ▸ hslots a ha)⟩
  · rintro ⟨hcount, hnone⟩
    have hslots : ∀ a ∈ attributes, a.slot ∈ slots := fun a ha => by
      by_contra hs
      exact hnone _ hs a ha rfl
    refine ⟨hslots, fun s => ?_⟩
    by_cases hs : s ∈ slots
    · exact hcount s hs
    · have hzero : (attributes.map slot).count s = 0 := Slot.uses_eq_zero_iff.2 (hnone s hs)
      omega

theorem admitted_of_perm (h : attributes.Perm others) (ha : Admitted slots attributes) :
    Admitted slots others :=
  ⟨fun a hm => ha.1 a (h.mem_iff.2 hm), ((h.map slot).nodup_iff).1 ha.2⟩

end

section

variable {σ : Type} {add : σ → Attribute → Except NestingFault σ} {has : σ → Attribute → Prop}

/-- An attribute that is added is there besides those that were there before. -/
def Records (add : σ → Attribute → Except NestingFault σ) (has : σ → Attribute → Prop) : Prop :=
  ∀ {o a o'}, add o a = .ok o' → ∀ b, has o' b ↔ b = a ∨ has o b

theorem Records.foldlM (h : Records add has) {attributes : List Attribute} {o o' : σ}
    (hrun : attributes.foldlM add o = .ok o') (b : Attribute) :
    has o' b ↔ b ∈ attributes ∨ has o b := by
  induction attributes generalizing o with
  | nil =>
    obtain rfl := Except.ok.inj hrun
    simp
  | cons a rest ih =>
    rw [List.foldlM_cons] at hrun
    obtain ⟨o₁, hadd, hrest⟩ := Nesting.ok_of_bind hrun
    rw [ih hrest, h hadd, List.mem_cons, or_left_comm, or_assoc]

end

/-- Attributes of the slots are read, at most one for each, and what is read has them and no others. -/
structure ReadsExactly {σ : Type} (read : List Attribute → Except NestingFault σ)
    (has : σ → Attribute → Prop) (slots : List Slot) : Prop where
  accepts : ∀ attributes, (∃ o, read attributes = .ok o) ↔ Admitted slots attributes
  has_iff : ∀ {attributes o}, read attributes = .ok o → ∀ a, has o a ↔ a ∈ attributes
  ext : ∀ {o o'}, (∀ a, has o a ↔ has o' a) → o = o'

namespace ReadsExactly

variable {σ : Type} {read : List Attribute → Except NestingFault σ} {has : σ → Attribute → Prop}
variable {slots : List Slot} {attributes others : List Attribute} {o : σ}

theorem eq_ok_of_perm (h : ReadsExactly read has slots) (hperm : attributes.Perm others)
    (ho : read attributes = .ok o) : read others = .ok o := by
  have hadmitted := admitted_of_perm hperm ((h.accepts attributes).1 ⟨o, ho⟩)
  obtain ⟨o', ho'⟩ := (h.accepts others).2 hadmitted
  have hsame : ∀ a, has o' a ↔ has o a := fun a => by
    rw [h.has_iff ho', h.has_iff ho, hperm.mem_iff]
  rw [ho', h.ext hsame]

theorem eq_ok_iff_of_perm (h : ReadsExactly read has slots) (hperm : attributes.Perm others) (o : σ) :
    read attributes = .ok o ↔ read others = .ok o :=
  ⟨h.eq_ok_of_perm hperm, h.eq_ok_of_perm hperm.symm⟩

end ReadsExactly

end Attribute

open Attribute (Slot Records ReadsExactly)

namespace ClauseOptions

def Has (o : ClauseOptions) : Attribute → Prop
  | .name text => o.id = some text
  | .before text => o.insertion = some (.before text)
  | .after text => o.insertion = some (.after text)
  | .onlyIf text => o.onlyIf = some text
  | .external | .index _ => False

theorem records : Records add Has := by
  intro o a o' h b
  cases a <;> simp only [add, bind_pure_comp, map_setOnce_eq_ok, reduceCtorEq] at h <;>
    obtain ⟨hfree, rfl⟩ := h <;> cases b <;> simp [Has, hfree, eq_comm]

theorem reads_exactly : ReadsExactly ofAttributes Has slots where
  accepts := ofAttributes_iff
  has_iff h a := by
    rw [records.foldlM h a, or_iff_left]
    cases a <;> simp [Has, empty]
  ext {o o'} h := by
    obtain ⟨id, insertion, onlyIf⟩ := o
    obtain ⟨id', insertion', onlyIf'⟩ := o'
    obtain rfl : id = id' := Option.ext fun text => h (.name text)
    obtain rfl : onlyIf = onlyIf' := Option.ext fun text => h (.onlyIf text)
    obtain rfl : insertion = insertion' := Option.ext fun position => by
      cases position with
      | before text => exact h (.before text)
      | after text => exact h (.after text)
    rfl

end ClauseOptions

namespace RuleOptions

def Given.Has (o : Given) : Attribute → Prop
  | .name text => o.id = some text
  | .onlyIf text => o.onlyIf = some text
  | .before _ | .after _ | .external | .index _ => False

theorem Given.records : Records Given.add Given.Has := by
  intro o a o' h b
  cases a <;> simp only [add, bind_pure_comp, map_setOnce_eq_ok, reduceCtorEq] at h <;>
    obtain ⟨hfree, rfl⟩ := h <;> cases b <;> simp [Has, hfree, eq_comm]

theorem Given.reads_exactly : ReadsExactly (List.foldlM Given.add ⟨none, none⟩) Given.Has slots where
  accepts attributes := Given.fills.foldlM_of_empty attributes fun s => by cases s <;> simp [Filled]
  has_iff h a := by
    rw [Given.records.foldlM h a, or_iff_left]
    cases a <;> simp [Has]
  ext {o o'} h := by
    obtain ⟨id, onlyIf⟩ := o
    obtain ⟨id', onlyIf'⟩ := o'
    obtain rfl : id = id' := Option.ext fun text => h (.name text)
    obtain rfl : onlyIf = onlyIf' := Option.ext fun text => h (.onlyIf text)
    rfl

/-- The rule has that name and that condition. -/
def Has (o : RuleOptions) : Attribute → Prop
  | .name text => o.id = text
  | .onlyIf text => o.onlyIf = some text
  | .before _ | .after _ | .external | .index _ => False

theorem ofAttributes_eq_ok {span : Span} {attributes : List Attribute} {o : RuleOptions} :
    ofAttributes span attributes = .ok o ↔
      ∃ given, attributes.foldlM Given.add ⟨none, none⟩ = .ok given ∧
        o = ⟨given.id.getD span.render, given.onlyIf⟩ := by
  rw [ofAttributes]
  cases attributes.foldlM Given.add ⟨none, none⟩ with
  | error fault => simp [bind, Except.bind]
  | ok given => simp [bind, Except.bind, pure, Except.pure, eq_comm]

theorem has_iff {span : Span} {attributes : List Attribute} {o : RuleOptions}
    (h : ofAttributes span attributes = .ok o) (a : Attribute) :
    o.Has a ↔ a ∈ attributes ∨ a = .name span.render ∧ Slot.name.uses attributes = 0 := by
  obtain ⟨given, hgiven, rfl⟩ := ofAttributes_eq_ok.1 h
  have hhas := Given.reads_exactly.has_iff hgiven
  have hnamed : Slot.name.uses attributes = 0 ↔ given.id = none := by
    rw [Slot.uses_eq_zero_iff, Option.eq_none_iff_forall_ne_some]
    constructor
    · intro hnone text htext
      exact hnone (.name text) ((hhas (.name text)).1 htext) rfl
    · intro hnone a ha hslot
      cases a <;> cases hslot
      exact hnone _ ((hhas _).2 ha)
  rw [hnamed, ← hhas]
  cases a with
  | name text => cases hid : given.id <;> simp [Has, Given.Has, hid, eq_comm]
  | _ => simp [Has, Given.Has]

theorem ofAttributes_of_perm {span : Span} {attributes others : List Attribute} (o : RuleOptions)
    (hperm : attributes.Perm others) :
    ofAttributes span attributes = .ok o ↔ ofAttributes span others = .ok o := by
  simp only [ofAttributes_eq_ok, Given.reads_exactly.eq_ok_iff_of_perm hperm]

end RuleOptions

namespace TypeOption

def Has : TypeOption → Attribute → Prop
  | external, .external => True
  | index depths, .index depths' => depths = depths'
  | _, _ => False

/-- What is given so far, if anything. -/
def GivenHas : Option TypeOption → Attribute → Prop
  | some o, a => o.Has a
  | none, _ => False

theorem records : Records add GivenHas := by
  intro o a o' h b
  cases a <;> simp only [add, setOnce_eq_ok, reduceCtorEq] at h <;>
    obtain ⟨rfl, rfl⟩ := h <;> cases b <;> simp [GivenHas, Has, eq_comm]

theorem reads_exactly : ReadsExactly ofAttributes Has slots where
  accepts := ofAttributes_iff
  has_iff {attributes o} h a := by
    obtain ⟨given, hgiven, ho⟩ := Nesting.ok_of_bind h
    obtain rfl := Except.ok.inj ho
    have hhas := records.foldlM hgiven a
    rw [or_iff_left (show ¬ GivenHas none a from id)] at hhas
    rw [← hhas]
    cases given <;> cases a <;> simp [GivenHas, Has]
  ext {o o'} h := by
    have hexternal := h .external
    cases o <;> cases o' <;> simp only [Has, iff_true, iff_false, not_true] at hexternal
    · rfl
    case plain.index depths => exact absurd ((h (.index depths)).2 rfl) id
    case index.plain depths => exact absurd ((h (.index depths)).1 rfl) id
    case external.external => rfl
    case index.index depths depths' => rw [(h (.index depths')).2 rfl]

theorem eq_plain_iff {attributes : List Attribute} {o : TypeOption} (h : ofAttributes attributes = .ok o) :
    o = plain ↔ attributes = [] := by
  have hhas := reads_exactly.has_iff h
  constructor
  · rintro rfl
    refine List.eq_nil_iff_forall_not_mem.2 fun a ha => ?_
    have := (hhas a).2 ha
    cases a <;> exact this
  · rintro rfl
    exact reads_exactly.ext fun a => by
      rw [hhas a]
      cases a <;> simp [Has]

end TypeOption

/-- The same type declaration with its attributes in any order. -/
structure TypeDecl.Reordered (t u : TypeDecl (List Attribute)) : Prop where
  span : t.span = u.span
  attributes : t.attributes.Perm u.attributes
  name : t.name = u.name
  type : t.type = u.type

mutual

/-- The same declaration with the attributes of every clause, rule and type in it in any order. -/
inductive Decl.Reordered : Decl → Decl → Prop
  | refl (d : Decl) : Decl.Reordered d d
  | clause (span : Span) {attributes others : List Attribute} (h : attributes.Perm others) (body : Term) :
      Decl.Reordered (.clause ⟨span, attributes, body⟩) (.clause ⟨span, others, body⟩)
  | rule (r : Rule (List Attribute)) {others : List Attribute} (h : r.attributes.Perm others) :
      Decl.Reordered (.rule r) (.rule { r with attributes := others })
  | types {ts us : List (TypeDecl (List Attribute))} (h : List.Forall₂ TypeDecl.Reordered ts us) :
      Decl.Reordered (.types ts) (.types us)
  | accumulated (span : Span) {us vs : List (Digest × List Decl)} (h : UnitsReordered us vs) :
      Decl.Reordered (.accumulated span us) (.accumulated span vs)

inductive UnitsReordered : List (Digest × List Decl) → List (Digest × List Decl) → Prop
  | nil : UnitsReordered [] []
  | cons (digest : Digest) {ds es : List Decl} {us vs : List (Digest × List Decl)}
      (h : AllReordered ds es) (hs : UnitsReordered us vs) :
      UnitsReordered ((digest, ds) :: us) ((digest, es) :: vs)

inductive AllReordered : List Decl → List Decl → Prop
  | nil : AllReordered [] []
  | cons {d e : Decl} {ds es : List Decl} (h : d.Reordered e) (hs : AllReordered ds es) :
      AllReordered (d :: ds) (e :: es)

end

namespace Nesting

/-- The same result, or errors at the same place. -/
inductive Agree {α : Type} : Except TermError α → Except TermError α → Prop
  | ok (a : α) : Agree (.ok a) (.ok a)
  | error {e e' : TermError} (h : e.span? = e'.span?) : Agree (.error e) (.error e')

theorem Agree.refl {α : Type} : (r : Except TermError α) → Agree r r
  | .ok a => .ok a
  | .error _ => .error rfl

theorem Agree.bind {α β : Type} {r r' : Except TermError α} {f g : α → Except TermError β}
    (h : Agree r r') (hf : ∀ a, Agree (f a) (g a)) : Agree (r >>= f) (r' >>= g) := by
  cases h with
  | ok a => exact hf a
  | error h => exact .error h

theorem agree_located {α : Type} {r r' : Except NestingFault α} (h : ∀ a, r = .ok a ↔ r' = .ok a)
    (span : Span) : Agree (located span r) (located span r') := by
  cases r with
  | ok a =>
    rw [(h a).1 rfl]
    exact .ok a
  | error fault =>
    cases r' with
    | ok a => cases (h a).2 rfl
    | error fault' => exact .error rfl

theorem agree_addClause (n : Nesting) (span : Span) {attributes others : List Attribute}
    (h : attributes.Perm others) (body : Term) :
    Agree (n.addClause ⟨span, attributes, body⟩) (n.addClause ⟨span, others, body⟩) :=
  (agree_located (ClauseOptions.reads_exactly.eq_ok_iff_of_perm h) span).bind fun _ => .refl _

theorem agree_addRule (n : Nesting) (r : Rule (List Attribute)) {others : List Attribute}
    (h : r.attributes.Perm others) : Agree (n.addRule r) (n.addRule { r with attributes := others }) :=
  (agree_located (fun o => RuleOptions.ofAttributes_of_perm o h) r.span).bind fun _ => .refl _

theorem agree_addType (n : Nesting) {t u : TypeDecl (List Attribute)} (h : t.Reordered u) :
    Agree (n.addType t) (n.addType u) := by
  rw [addType, addType, h.span, h.name, h.type]
  exact (agree_located (TypeOption.reads_exactly.eq_ok_iff_of_perm h.attributes) u.span).bind fun _ => .refl _

theorem agree_addTypes (n : Nesting) {ts us : List (TypeDecl (List Attribute))}
    (h : List.Forall₂ TypeDecl.Reordered ts us) : Agree (ts.foldlM addType n) (us.foldlM addType n) := by
  induction h generalizing n with
  | nil => exact .refl _
  | cons htype _ ih => exact (n.agree_addType htype).bind ih

mutual

theorem agree_add {d e : Decl} (h : d.Reordered e) (n : Nesting) : Agree (n.add d) (n.add e) := by
  match h with
  | .refl _ => exact .refl _
  | .clause span hperm body => exact n.agree_addClause span hperm body
  | .rule r hperm => exact n.agree_addRule r hperm
  | .types hall => exact n.agree_addTypes hall
  | .accumulated _ hunits => exact agree_addUnits hunits n

theorem agree_addUnits {us vs : List (Digest × List Decl)} (h : UnitsReordered us vs) (n : Nesting) :
    Agree (n.addUnits us) (n.addUnits vs) := by
  match h with
  | .nil => exact .refl _
  | .cons digest hdecls hrest =>
    rw [addUnits, addUnits]
    split
    · exact agree_addUnits hrest n
    · exact (agree_addAll hdecls _).bind (agree_addUnits hrest)

theorem agree_addAll {ds es : List Decl} (h : AllReordered ds es) (n : Nesting) :
    Agree (n.addAll ds) (n.addAll es) := by
  match h with
  | .nil => exact .refl _
  | .cons hdecl hrest => exact (agree_add hdecl n).bind (agree_addAll hrest)

end

end Nesting

theorem wellPlaced_singleton {around : List Bracket} {d : Decl} :
    WellPlaced around [d] ↔ d.StandsIn around := by
  rw [wellPlaced_cons, and_iff_left wellPlaced_nil]

/-- The nesting goes on just with a declaration that may stand at its place. -/
theorem Follows.exists_ok_iff {n : Nesting} {d : Decl} {seen : List Digest} {r : Except TermError Nesting}
    (h : Follows n [d] seen r) : (∃ m, r = .ok m) ↔ d.StandsIn n.brackets := by
  rw [← wellPlaced_singleton]
  cases r with
  | ok m => exact iff_of_true ⟨m, rfl⟩ h.1
  | error e =>
    obtain ⟨span, fault, -, hfirst⟩ := h
    exact iff_of_false (fun ⟨m, hm⟩ => by cases hm) hfirst.not_wellPlaced

namespace Nesting

variable (n : Nesting)

theorem accepts_clause (c : Clause (List Attribute)) :
    (∃ m, n.addClause c = .ok m) ↔ Attribute.Admitted ClauseOptions.slots c.attributes :=
  (n.follows_clause c).exists_ok_iff

theorem accepts_rule (r : Rule (List Attribute)) :
    (∃ m, n.addRule r = .ok m) ↔ (∃ b ∈ n.brackets.head?, b.opening.isConstraint = true) ∧
      Attribute.Admitted RuleOptions.slots r.attributes :=
  (n.follows_rule r).exists_ok_iff

theorem accepts_type (t : TypeDecl (List Attribute)) :
    (∃ m, n.addType t = .ok m) ↔ Attribute.Admitted TypeOption.slots t.attributes := by
  rw [(n.follows_type t).exists_ok_iff]
  simp [Decl.StandsIn]

theorem addClause_eq_ok {c : Clause (List Attribute)} {m : Nesting} :
    n.addClause c = .ok m ↔ ∃ o, ClauseOptions.ofAttributes c.attributes = .ok o ∧
      m = n.onTop fun d => { d with clauses := d.clauses ++ [⟨c.span, o, c.body⟩] } := by
  rw [addClause]
  cases ClauseOptions.ofAttributes c.attributes with
  | ok o => simp [located, bind, Except.bind, pure, Except.pure, eq_comm]
  | error fault => simp [located, bind, Except.bind]

theorem addType_eq_ok {t : TypeDecl (List Attribute)} {m : Nesting} :
    n.addType t = .ok m ↔ ∃ o, TypeOption.ofAttributes t.attributes = .ok o ∧
      m = n.onTop fun d =>
        { d with scope.types := d.scope.types ++ [⟨t.span, o, t.name, t.type⟩] } := by
  rw [addType]
  cases TypeOption.ofAttributes t.attributes with
  | ok o => simp [located, bind, Except.bind, pure, Except.pure, eq_comm]
  | error fault => simp [located, bind, Except.bind]

/-- The frames with the rule in the innermost of them that is no `shorten` scope, which must be a
constraint block. -/
def withRule (frames : List Frame) (r : Rule RuleOptions) : Option (List Frame) :=
  onScope Opening.isConstraint (fun d => { d with rules := d.rules ++ [r] }) frames

theorem addRule_eq_ok {r : Rule (List Attribute)} {m : Nesting} :
    n.addRule r = .ok m ↔ ∃ o, RuleOptions.ofAttributes r.span r.attributes = .ok o ∧
      ∃ frames, withRule n.frames ⟨r.matched, r.removed, r.guard, r.goal, o, r.span⟩ = some frames ∧
        m = { n with frames } := by
  rw [addRule]
  cases RuleOptions.ofAttributes r.span r.attributes with
  | error fault => simp [located, bind, Except.bind]
  | ok o =>
    simp only [located, bind, Except.bind, Except.ok.injEq, exists_eq_left', withRule]
    split
    · next frames hframes => simp [hframes, pure, Except.pure, eq_comm]
    · next hframes => simp [hframes, throw, throwThe, MonadExceptOf.throw]

end Nesting

open Nesting in
/-- Which attributes are accepted, and what becomes of them: a clause has at most one name, one position
and one condition, a rule at most one name and one condition, a type at most one of the attributes that
say how it is stored, and no others. The options have these attributes and no others, but a rule without a
name is named by its span, and a type without attributes is plain. The order of attributes changes neither
the nested form of a program nor the place of its error. -/
theorem attributes_exact :
    (∀ (n : Nesting) (c : Clause (List Attribute)),
      ((∃ m, n.addClause c = .ok m) ↔
        Slot.name.uses c.attributes ≤ 1 ∧ Slot.position.uses c.attributes ≤ 1 ∧
          Slot.condition.uses c.attributes ≤ 1 ∧ Slot.storage.uses c.attributes = 0) ∧
      ∀ m, n.addClause c = .ok m → ∃ o : ClauseOptions,
        m = n.onTop (fun d => { d with clauses := d.clauses ++ [⟨c.span, o, c.body⟩] }) ∧
          ∀ a, o.Has a ↔ a ∈ c.attributes) ∧
    (∀ (n : Nesting) (r : Rule (List Attribute)),
      ((∃ m, n.addRule r = .ok m) ↔
        (∃ b ∈ n.brackets.head?, b.opening.isConstraint = true) ∧
          Slot.name.uses r.attributes ≤ 1 ∧ Slot.condition.uses r.attributes ≤ 1 ∧
            Slot.position.uses r.attributes = 0 ∧ Slot.storage.uses r.attributes = 0) ∧
      ∀ m, n.addRule r = .ok m → ∃ (o : RuleOptions) (frames : List Frame),
        withRule n.frames ⟨r.matched, r.removed, r.guard, r.goal, o, r.span⟩ = some frames ∧
          m = { n with frames } ∧
            ∀ a, o.Has a ↔
              a ∈ r.attributes ∨ a = .name r.span.render ∧ Slot.name.uses r.attributes = 0) ∧
    (∀ (n : Nesting) (t : TypeDecl (List Attribute)),
      ((∃ m, n.addType t = .ok m) ↔
        Slot.storage.uses t.attributes ≤ 1 ∧ Slot.name.uses t.attributes = 0 ∧
          Slot.position.uses t.attributes = 0 ∧ Slot.condition.uses t.attributes = 0) ∧
      ∀ m, n.addType t = .ok m → ∃ o : TypeOption,
        m = n.onTop (fun d =>
            { d with scope.types := d.scope.types ++ [⟨t.span, o, t.name, t.type⟩] }) ∧
          (∀ a, o.Has a ↔ a ∈ t.attributes) ∧ (o = .plain ↔ t.attributes = [])) ∧
    ∀ p q, AllReordered p q → Agree (nest p) (nest q) := by
  refine ⟨fun n c => ⟨?_, fun m hm => ?_⟩, fun n r => ⟨?_, fun m hm => ?_⟩,
    fun n t => ⟨?_, fun m hm => ?_⟩, fun p q hpq => ?_⟩
  · rw [n.accepts_clause, Attribute.admitted_iff_uses, Slot.forall_iff, Slot.forall_iff]
    simp [ClauseOptions.slots, and_assoc]
  · obtain ⟨o, ho, rfl⟩ := n.addClause_eq_ok.1 hm
    exact ⟨o, rfl, ClauseOptions.reads_exactly.has_iff ho⟩
  · rw [n.accepts_rule, Attribute.admitted_iff_uses, Slot.forall_iff, Slot.forall_iff]
    simp [RuleOptions.slots, and_assoc]
  · obtain ⟨o, ho, frames, hframes, rfl⟩ := n.addRule_eq_ok.1 hm
    exact ⟨o, frames, hframes, rfl, RuleOptions.has_iff ho⟩
  · rw [n.accepts_type, Attribute.admitted_iff_uses, Slot.forall_iff, Slot.forall_iff]
    simp [TypeOption.slots]
  · obtain ⟨o, ho, rfl⟩ := n.addType_eq_ok.1 hm
    exact ⟨o, rfl, TypeOption.reads_exactly.has_iff ho, TypeOption.eq_plain_iff ho⟩
  · exact (agree_addAll hpq _).bind fun _ => .refl _

/-- A unit with a clause that has these attributes. -/
def attributedUnit (attributes : List Attribute) : List Decl :=
  [.accumulated (lineSpan 1)
    [(⟨Digest.start⟩, [.clause ⟨lineSpan 2, attributes, .const ⟨24⟩⟩])]]

theorem attributes_exact_swapped :
    AllReordered (attributedUnit [.before "b", .name "n"]) (attributedUnit [.name "n", .before "b"]) ∧
      Nesting.Agree (nest (attributedUnit [.before "b", .name "n"]))
        (nest (attributedUnit [.name "n", .before "b"])) ∧
      ∃ result, nest (attributedUnit [.name "n", .before "b"]) = .ok result := by
  have hreordered :
      AllReordered (attributedUnit [.before "b", .name "n"]) (attributedUnit [.name "n", .before "b"]) :=
    .cons (.accumulated _ (.cons _ (.cons (.clause _ (.swap _ _ _) _) .nil) .nil)) .nil
  exact ⟨hreordered, attributes_exact.2.2.2 _ _ hreordered, _, rfl⟩

end Clausal
