import Clausal.Parse.Error
import Clausal.Decl
import Mathlib.Data.Option.Basic
import Mathlib.Data.List.Forall2

/-!
# The same with other symbols and spans

Two vocabularies may give a name different symbols, and a text that stands elsewhere has other
spans. A relabeling replaces the symbols and spans of whatever is read. Two things are alike under a
matching of symbols and spans if all relabelings that identify what it matches make them equal.
-/
namespace Clausal

structure Relabeling where
  symbol : Symbol → Symbol
  span : Span → Span

class Labeled (α : Type) where
  relabel : Relabeling → α → α

export Labeled (relabel)

instance : Labeled Symbol := ⟨Relabeling.symbol⟩
instance : Labeled Span := ⟨Relabeling.span⟩
instance : Labeled Digest := ⟨fun _ d => d⟩
instance : Labeled Direction := ⟨fun _ d => d⟩
instance {α : Type} [Labeled α] : Labeled (List α) := ⟨fun r => List.map (relabel r)⟩
instance {α : Type} [Labeled α] : Labeled (Option α) := ⟨fun r => Option.map (relabel r)⟩
instance {α β : Type} [Labeled α] [Labeled β] : Labeled (α × β) := ⟨fun r => Prod.map (relabel r) (relabel r)⟩

mutual

def Term.relabeled (r : Relabeling) : Term → Term
  | .const s => .const (r.symbol s)
  | .app head args => .app (head.relabeled r) (relabeledAll r args)
  | .lam x body => .lam (r.symbol x) (body.relabeled r)
  | .literal a => .literal a
  | .quoted q => .quoted { q with span := r.span q.span }

def Term.relabeledAll (r : Relabeling) : List Term → List Term
  | [] => []
  | t :: ts => t.relabeled r :: relabeledAll r ts

end

instance : Labeled Term := ⟨Term.relabeled⟩

instance : Labeled Sequent :=
  ⟨fun r s => ⟨relabel r s.eigen, relabel r s.context, relabel r s.conclusion⟩⟩

instance {α : Type} : Labeled (Clause α) :=
  ⟨fun r c => { c with span := relabel r c.span, body := relabel r c.body }⟩

instance {α : Type} : Labeled (Rule α) :=
  ⟨fun r u => ⟨relabel r u.matched, relabel r u.removed, relabel r u.guard, relabel r u.goal,
    u.attributes, relabel r u.span⟩⟩

instance : Labeled MacroDef :=
  ⟨fun r m => ⟨relabel r m.span, relabel r m.name, relabel r m.body⟩⟩

instance : Labeled Mode :=
  ⟨fun r m => { m with span := relabel r m.span, name := relabel r m.name }⟩

instance {α : Type} : Labeled (TypeDecl α) :=
  ⟨fun r t => ⟨relabel r t.span, t.attributes, relabel r t.name, relabel r t.type⟩⟩

instance : Labeled TypeAbbreviation :=
  ⟨fun r a => ⟨relabel r a.span, relabel r a.name, relabel r a.value, a.arity⟩⟩

instance : Labeled Shorthand :=
  ⟨fun r s => ⟨relabel r s.span, relabel r s.full, relabel r s.short⟩⟩

mutual

def Decl.relabeled (r : Relabeling) : Decl → Decl
  | .openBlock span => .openBlock (r.span span)
  | .openNamespace span name => .openNamespace (r.span span) (r.symbol name)
  | .openConstraint span names => .openConstraint (r.span span) (relabel r names)
  | .shorten span shorthands => .shorten (r.span span) (relabel r shorthands)
  | .close span => .close (r.span span)
  | .accumulated span units => .accumulated (r.span span) (relabeledUnits r units)
  | .clause c => .clause (relabel r c)
  | .locals span names => .locals (r.span span) (relabel r names)
  | .modes ms => .modes (relabel r ms)
  | .rule u => .rule (relabel r u)
  | .macroDef m => .macroDef (relabel r m)
  | .types ts => .types (relabel r ts)
  | .typeAbbreviation a => .typeAbbreviation (relabel r a)
  | .ignored span => .ignored (r.span span)

def Decl.relabeledUnits (r : Relabeling) : List (Digest × List Decl) → List (Digest × List Decl)
  | [] => []
  | (digest, decls) :: rest => (digest, relabeledAll r decls) :: relabeledUnits r rest

def Decl.relabeledAll (r : Relabeling) : List Decl → List Decl
  | [] => []
  | d :: rest => d.relabeled r :: relabeledAll r rest

end

instance : Labeled Decl := ⟨Decl.relabeled⟩

theorem Decl.relabeledAll_eq_map (r : Relabeling) (decls : List Decl) :
    Decl.relabeledAll r decls = relabel r decls := by
  induction decls with
  | nil => rfl
  | cons d rest ih => simp only [Decl.relabeledAll, ih]; rfl

theorem Decl.relabeledUnits_eq_map (r : Relabeling) (units : List (Digest × List Decl)) :
    Decl.relabeledUnits r units = relabel r units := by
  induction units with
  | nil => rfl
  | cons unit rest ih =>
    simp only [Decl.relabeledUnits, ih, Decl.relabeledAll_eq_map]
    rfl

def TermError.relabeled (r : Relabeling) : TermError → TermError
  | .malformed span fault => .malformed (r.span span) fault
  | .nesting span fault => .nesting (r.span span) fault
  | e => e

instance : Labeled TermError := ⟨TermError.relabeled⟩

def ParseError.relabeled (r : Relabeling) : ParseError → ParseError
  | .grammar span fault => .grammar (r.span span) fault
  | .term e => .term (relabel r e)
  | .integer span => .integer (r.span span)
  | .load span name fault => .load (r.span span) name fault
  | e => e

instance : Labeled ParseError := ⟨ParseError.relabeled⟩

section

variable {α β : Type} [Labeled α] [Labeled β] (r : Relabeling)

@[simp] theorem relabel_symbol (s : Symbol) : relabel r s = r.symbol s := rfl
@[simp] theorem relabel_span (s : Span) : relabel r s = r.span s := rfl
@[simp] theorem relabel_nil : relabel r ([] : List α) = [] := rfl
@[simp] theorem relabel_cons (a : α) (l : List α) : relabel r (a :: l) = relabel r a :: relabel r l := rfl
@[simp] theorem relabel_append (l l' : List α) : relabel r (l ++ l') = relabel r l ++ relabel r l' := List.map_append
@[simp] theorem relabel_mk (a : α) (b : β) : relabel r (a, b) = (relabel r a, relabel r b) := rfl

end

def Relabeling.id : Relabeling := ⟨fun s => s, fun span => span⟩

class LawfulLabeled (α : Type) [Labeled α] : Prop where
  relabel_id : ∀ a : α, relabel .id a = a

export LawfulLabeled (relabel_id)

attribute [simp] relabel_id

instance : LawfulLabeled Symbol := ⟨fun _ => rfl⟩
instance : LawfulLabeled Span := ⟨fun _ => rfl⟩
instance : LawfulLabeled Digest := ⟨fun _ => rfl⟩
instance : LawfulLabeled Direction := ⟨fun _ => rfl⟩

instance {α : Type} [Labeled α] [LawfulLabeled α] : LawfulLabeled (List α) :=
  ⟨fun l => (List.map_congr_left fun a _ => relabel_id a).trans l.map_id⟩

instance {α : Type} [Labeled α] [LawfulLabeled α] : LawfulLabeled (Option α) :=
  ⟨fun o => by cases o <;> simp [relabel, relabel_id]⟩

mutual

theorem Term.relabeled_id (t : Term) : t.relabeled .id = t := by
  cases t with
  | const s => rfl
  | app head args => rw [Term.relabeled, head.relabeled_id, Term.relabeledAll_id args]
  | lam x body => rw [Term.relabeled, body.relabeled_id]; rfl
  | literal a => rfl
  | quoted q => rfl

theorem Term.relabeledAll_id (ts : List Term) : Term.relabeledAll .id ts = ts := by
  cases ts with
  | nil => rfl
  | cons t ts => rw [Term.relabeledAll, t.relabeled_id, Term.relabeledAll_id ts]

end

instance : LawfulLabeled Term := ⟨Term.relabeled_id⟩

instance : LawfulLabeled Sequent where
  relabel_id s := by
    change Sequent.mk (relabel .id s.eigen) (relabel .id s.context) (relabel .id s.conclusion) = s
    simp only [relabel_id]

instance {α : Type} : LawfulLabeled (Clause α) where
  relabel_id c := by
    change Clause.mk c.span c.attributes (relabel .id c.body) = c
    rw [relabel_id]

instance {α : Type} : LawfulLabeled (Rule α) where
  relabel_id u := by
    change Rule.mk (relabel .id u.matched) (relabel .id u.removed) (relabel .id u.guard)
      (relabel .id u.goal) u.attributes u.span = u
    simp only [relabel_id]

instance : LawfulLabeled MacroDef where
  relabel_id m := by
    change MacroDef.mk m.span m.name (relabel .id m.body) = m
    rw [relabel_id]

instance : LawfulLabeled Mode := ⟨fun _ => rfl⟩

instance {α : Type} : LawfulLabeled (TypeDecl α) where
  relabel_id t := by
    change TypeDecl.mk t.span t.attributes t.name (relabel .id t.type) = t
    rw [relabel_id]

instance : LawfulLabeled TypeAbbreviation where
  relabel_id a := by
    change TypeAbbreviation.mk a.span a.name (relabel .id a.value) a.arity = a
    rw [relabel_id]

instance : LawfulLabeled Shorthand := ⟨fun _ => rfl⟩

mutual

theorem Decl.relabeled_id (d : Decl) : d.relabeled .id = d := by
  cases d with
  | accumulated span units => rw [Decl.relabeled, Decl.relabeledUnits_id units]; rfl
  | openBlock span | openNamespace span name | close span | ignored span => rfl
  | openConstraint span names | locals span names | shorten span names =>
    rw [Decl.relabeled, relabel_id]; rfl
  | clause c | modes ms | rule u | macroDef m | types ts | typeAbbreviation a =>
    rw [Decl.relabeled, relabel_id]

theorem Decl.relabeledUnits_id (units : List (Digest × List Decl)) :
    Decl.relabeledUnits .id units = units := by
  cases units with
  | nil => rfl
  | cons unit rest =>
    rw [Decl.relabeledUnits, Decl.relabeledAll_id unit.2, Decl.relabeledUnits_id rest]

theorem Decl.relabeledAll_id (decls : List Decl) : Decl.relabeledAll .id decls = decls := by
  cases decls with
  | nil => rfl
  | cons d rest => rw [Decl.relabeledAll, d.relabeled_id, Decl.relabeledAll_id rest]

end

instance : LawfulLabeled Decl := ⟨Decl.relabeled_id⟩

/-- Errors hold spans but no symbols. -/
theorem ParseError.relabel_congr {r r' : Relabeling} (h : ∀ a, r.span a = r'.span a) (e : ParseError) :
    relabel r e = relabel r' e := by
  cases e with
  | term e => cases e <;> simp only [relabel, relabeled, TermError.relabeled, h]
  | _ => simp only [relabel, relabeled, h]

theorem ParseError.relabel_of_span {r : Relabeling} (h : ∀ a, r.span a = a) (e : ParseError) :
    relabel r e = e := by
  cases e with
  | term e => cases e <;> simp only [relabel, relabeled, TermError.relabeled, h]
  | _ => simp only [relabel, relabeled, h]

/-- Forgets where things stand. -/
def Relabeling.unlocated : Relabeling := ⟨fun s => s, fun _ => Span.initial ""⟩

/-- The same but for where it stands. -/
abbrev SameParts {α : Type} [Labeled α] (a b : α) : Prop := relabel .unlocated a = relabel .unlocated b

namespace SameParts

variable {α : Type} [Labeled α] {a b : α} {as bs cs ds : List α}

theorem cons (h : SameParts a b) (hs : SameParts as bs) : SameParts (a :: as) (b :: bs) := by
  rw [SameParts, relabel_cons, relabel_cons, h, hs]

theorem append (h : SameParts as bs) (hs : SameParts cs ds) : SameParts (as ++ cs) (bs ++ ds) := by
  rw [SameParts, relabel_append, relabel_append, h, hs]

theorem singleton (h : SameParts a b) : SameParts [a] [b] := h.cons rfl

theorem forall₂ (h : SameParts as bs) : List.Forall₂ SameParts as bs := by
  induction as generalizing bs with
  | nil =>
    cases bs with
    | nil => exact .nil
    | cons b bs => cases h
  | cons a as ih =>
    cases bs with
    | nil => cases h
    | cons b bs =>
      obtain ⟨hab, hrest⟩ := List.cons.inj h
      exact .cons hab (ih hrest)

theorem of_append (h : SameParts as (bs ++ cs)) :
    ∃ front back, as = front ++ back ∧ SameParts front bs ∧ SameParts back cs := by
  rw [SameParts, relabel_append] at h
  obtain ⟨front, back, rfl, hfront, hback⟩ := List.map_eq_append_iff.1 h
  exact ⟨front, back, rfl, hfront, hback⟩

theorem of_cons (h : SameParts as (b :: bs)) :
    ∃ first rest, as = first :: rest ∧ SameParts first b ∧ SameParts rest bs := by
  rw [SameParts, relabel_cons] at h
  obtain ⟨first, rest, rfl, hfirst, hrest⟩ := List.map_eq_cons_iff.1 h
  exact ⟨first, rest, rfl, hfirst, hrest⟩

theorem symbols_eq {names names' : List Symbol} (h : SameParts names names') : names = names' := by
  have hid : ∀ names : List Symbol, relabel .unlocated names = names := fun names => names.map_id
  rwa [SameParts, hid, hid] at h

end SameParts

structure Matching where
  symbols : Symbol → Symbol → Prop
  spans : Span → Span → Prop

namespace Matching

/-- The relabelings identify what is matched. -/
structure Joins (m : Matching) (r r' : Relabeling) : Prop where
  symbol : ∀ {s t}, m.symbols s t → r.symbol s = r'.symbol t
  span : ∀ {a b}, m.spans a b → r.span a = r'.span b

/-- The same up to matched symbols and spans. -/
def Alike {α : Type} [Labeled α] (m : Matching) (a b : α) : Prop :=
  ∀ r r', m.Joins r r' → relabel r a = relabel r' b

structure Le (m m' : Matching) : Prop where
  symbols : ∀ {s t}, m.symbols s t → m'.symbols s t
  spans : ∀ {a b}, m.spans a b → m'.spans a b

variable {α β : Type} [Labeled α] [Labeled β] {m m' : Matching}

theorem Alike.mono {a b : α} (hle : m.Le m') (h : m.Alike a b) : m'.Alike a b :=
  fun r r' hj => h r r' ⟨fun hs => hj.symbol (hle.symbols hs), fun hs => hj.span (hle.spans hs)⟩

theorem alike_symbol {s t : Symbol} (h : m.symbols s t) : m.Alike s t := fun _ _ hj => hj.symbol h

theorem alike_nil : m.Alike ([] : List α) [] := fun _ _ _ => rfl

theorem Alike.cons {a b : α} {as bs : List α} (h : m.Alike a b) (hs : m.Alike as bs) :
    m.Alike (a :: as) (b :: bs) := by
  intro r r' hj
  rw [relabel_cons, relabel_cons, h r r' hj, hs r r' hj]

theorem Alike.singleton {a b : α} (h : m.Alike a b) : m.Alike [a] [b] := h.cons alike_nil

theorem Alike.append {as bs cs ds : List α} (h : m.Alike as bs) (hs : m.Alike cs ds) :
    m.Alike (as ++ cs) (bs ++ ds) := by
  intro r r' hj
  rw [relabel_append, relabel_append, h r r' hj, hs r r' hj]

end Matching

end Clausal
