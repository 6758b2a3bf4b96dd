import Clausal.Proofs.Relabeling
import Clausal.Proofs.Vocabularies

/-!
# Syntax trees

What the tokens of a term say, without places and without a vocabulary. Applications take one argument
at a time, so every way to put parentheses around the front of an application gives one tree. In a
vocabulary a tree becomes a term: its parts are built from left to right, names and strings enter where
they stand, and an application gathers its arguments in one list.
-/
namespace Clausal

namespace Term

variable {t u r : Term} {us : List Term}

/-- The application to one more argument. -/
def applied : Term → Term → Term
  | app head args, a => app head (args ++ [a])
  | head, a => app head [a]

/-- Whether a term may stand in front of arguments. -/
def isApplicable : Term → Bool
  | const _ | app _ _ | quoted _ => true
  | lam _ _ | literal _ => false

theorem foldl_applied_app (head : Term) (args us : List Term) :
    us.foldl applied (app head args) = app head (args ++ us) := by
  induction us generalizing args with
  | nil => rw [List.foldl_nil, List.append_nil]
  | cons u us ih => rw [List.foldl_cons, applied, ih, List.append_assoc, List.singleton_append]

theorem relabeledAll_eq_map (r : Relabeling) (ts : List Term) :
    relabeledAll r ts = ts.map (relabeled r) := by
  induction ts with
  | nil => rfl
  | cons t ts ih => rw [relabeledAll, ih, List.map_cons]

theorem relabeled_applied (r : Relabeling) (t u : Term) :
    (t.applied u).relabeled r = (t.relabeled r).applied (u.relabeled r) := by
  cases t with
  | app head args =>
    simp only [applied, relabeled, relabeledAll_eq_map, List.map_append, List.map_cons, List.map_nil]
  | _ => rfl

theorem isApplicable_relabeled (r : Relabeling) (t : Term) :
    (t.relabeled r).isApplicable = t.isApplicable := by
  cases t <;> rfl

end Term

namespace Vocabulary

/-- A known name changes nothing. -/
theorem intern_of_lookup {v : Vocabulary} {name : String} {s : Symbol} (h : v.lookup name = some s) :
    v.intern name = (s, v) := by
  have hintern : v.symbols.intern name = (s, v.symbols) := SymbolTable.intern_of_lookup h
  rw [intern, hintern]

variable {t : Term} (v : Vocabulary) (span : Span) (u : Term) (us : List Term)

theorem apply_of_isApplicable (h : t.isApplicable = true) :
    v.apply span (t :: u :: us) = .ok ((u :: us).foldl Term.applied t) := by
  cases t with
  | app head args => rw [Term.foldl_applied_app]; rfl
  | const s | quoted q => exact congrArg Except.ok (Term.foldl_applied_app _ [u] us).symm
  | lam | literal => cases h

theorem apply_of_not_isApplicable (h : t.isApplicable = false) :
    v.apply span (t :: u :: us) =
      .error (.malformed span (.cannotApply t.kindName (v.render t))) := by
  cases t with
  | app | const | quoted => cases h
  | lam | literal => rfl

end Vocabulary

namespace SameParts

variable {t t' u u' : Term}

theorem applied (h : SameParts t t') (hu : SameParts u u') : SameParts (t.applied u) (t'.applied u') := by
  change (t.applied u).relabeled _ = (t'.applied u').relabeled _
  rw [Term.relabeled_applied, Term.relabeled_applied]
  exact congrArg₂ Term.applied h hu

theorem lam (h : SameParts t t') (x : Symbol) : SameParts (Term.lam x t) (Term.lam x t') :=
  congrArg (Term.lam x) h

theorem node {s : Symbol} {ts us : List Term} (h : SameParts ts us) :
    SameParts (Term.node s ts) (Term.node s us) := by
  change Term.app _ (Term.relabeledAll _ ts) = Term.app _ (Term.relabeledAll _ us)
  rw [Term.relabeledAll_eq_map, Term.relabeledAll_eq_map]
  exact congrArg _ h

theorem isApplicable (h : SameParts t t') : t.isApplicable = t'.isApplicable := by
  rw [← Term.isApplicable_relabeled .unlocated t, ← Term.isApplicable_relabeled .unlocated t']
  exact congrArg Term.isApplicable h

end SameParts

inductive SyntaxTree where
  /-- An operator, or a constant that the syntax itself brings in. -/
  | symbol (s : Symbol)
  | anonymous
  | name (name : String)
  /-- A number; a string enters the vocabulary. -/
  | literal (a : Literal) (h : a.string? = none)
  | string (text : String)
  | quotation (q : Quotation)
  | lambda (binder : String) (body : SyntaxTree)
  | apply (f a : SyntaxTree)

namespace SyntaxTree

/-- The tree of a name that stands alone. -/
def ofName (n : String) : SyntaxTree := if n = "_" then anonymous else name n

def nil : SyntaxTree := symbol Symbol.nil

def unary (s : Symbol) (a : SyntaxTree) : SyntaxTree := apply (symbol s) a

def binary (s : Symbol) (a b : SyntaxTree) : SyntaxTree := apply (apply (symbol s) a) b

def cell (first rest : SyntaxTree) : SyntaxTree := binary Symbol.cons first rest

/-- Whether arguments may follow. -/
def isApplicable : SyntaxTree → Bool
  | symbol _ | anonymous | name _ | quotation _ | apply _ _ => true
  | literal .. | string _ | lambda _ _ => false

/-- The term of a tree, and the vocabulary that it leaves. -/
def build : SyntaxTree → Vocabulary → Term × Vocabulary
  | symbol s, v => (.const s, v)
  | anonymous, v => v.freshVariable
  | name n, v => v.constant n
  | literal a _, v => (.literal a, v)
  | string text, v => (.literal (v.string text).1, (v.string text).2)
  | quotation q, v => (.quoted q, v)
  | lambda x body, v =>
    let (t, v) := body.build v
    v.lambda x t
  | apply f a, v =>
    let (t, v) := f.build v
    let (u, v) := a.build v
    (t.applied u, v)

variable (a b : SyntaxTree) (s : Symbol) (v : Vocabulary)

theorem build_ofName (n : String) : (ofName n).build v = Parse.nameTerm v n := by
  unfold ofName Parse.nameTerm
  split_ifs <;> rfl

theorem build_binary : (binary s a b).build v =
    (Term.node s [(a.build v).1, (b.build (a.build v).2).1], (b.build (a.build v).2).2) := rfl

theorem build_apply : (apply a b).build v =
    ((a.build v).1.applied (b.build (a.build v).2).1, (b.build (a.build v).2).2) := rfl

/-- A tree may have arguments if its term may. -/
theorem isApplicable_build : (a.build v).1.isApplicable = a.isApplicable := by
  cases a with
  | apply f a =>
    rw [build_apply]
    cases (f.build v).1 <;> rfl
  | _ => rfl

/-- What every step of building keeps, building keeps. -/
theorem build_induction {K : Vocabulary → Prop} (hintern : ∀ v n, K v → K (v.intern n).2)
    (hvariable : ∀ v, K v → K v.freshVariable.2) (hstring : ∀ v text, K v → K (v.string text).2)
    {v : Vocabulary} (hv : K v) : K (a.build v).2 := by
  induction a generalizing v with
  | symbol s | literal a h | quotation q => exact hv
  | anonymous => exact hvariable v hv
  | name n => exact hintern v n hv
  | string text => exact hstring v text hv
  | lambda x body ih => exact hintern _ x (ih hv)
  | apply f a ihf iha => exact iha (ihf hv)

theorem build_wellFormed {v : Vocabulary} (hv : v.WellFormed) : (a.build v).2.WellFormed :=
  a.build_induction (fun _ n h => h.intern n) (fun _ h => h.freshVariable)
    (fun _ text h => h.string text) hv

/-- Building a term changes no operator. -/
theorem build_sameOperators {v : Vocabulary} (hv : v.WellFormed) :
    Parse.SameOperators v (a.build v).2 := by
  refine (a.build_induction (K := fun w => w.WellFormed ∧ Parse.SameOperators v w)
    (fun w n h => ⟨h.1.intern n, h.2.trans (.intern h.1 n)⟩)
    (fun w h => ⟨h.1.freshVariable, h.2.trans (.freshVariable h.1)⟩)
    (fun w text h => ⟨h.1.string text, h.2.trans ?_⟩) ⟨hv, .refl v⟩).2
  obtain ⟨strings, hs⟩ := w.string_snd text
  rw [hs]
  exact ⟨rfl, fun _ => rfl⟩

end SyntaxTree

end Clausal
