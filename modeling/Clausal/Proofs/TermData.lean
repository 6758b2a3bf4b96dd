import Clausal.Proofs.FlatTerms
import Clausal.Proofs.UnitSpans

/-!
# Data in terms

Literals and quotations are the leaves of a term that hold data. The ways in which readers build terms bring
in no data of their own, so what holds of all data that is read holds of all data in a term.
-/
namespace Clausal

namespace Term

/-- A term is a part of another one, or that itself. -/
inductive Within (s : Term) : Term → Prop
  | refl : Within s s
  | head {head : Term} {args : List Term} (h : Within s head) : Within s (app head args)
  | arg {head t : Term} {args : List Term} (ht : t ∈ args) (h : Within s t) : Within s (app head args)
  | body {x : Symbol} {body : Term} (h : Within s body) : Within s (lam x body)

/-- All literals and all quotations in a term are so. -/
inductive Carries (L : Literal → Prop) (Q : Quotation → Prop) : Term → Prop
  | const {s : Symbol} : Carries L Q (const s)
  | app {head : Term} {args : List Term} (hhead : Carries L Q head)
      (hargs : ∀ t ∈ args, Carries L Q t) : Carries L Q (app head args)
  | lam {x : Symbol} {body : Term} (h : Carries L Q body) : Carries L Q (lam x body)
  | literal {a : Literal} (h : L a) : Carries L Q (literal a)
  | quoted {q : Quotation} (h : Q q) : Carries L Q (quoted q)

namespace Carries

variable {L : Literal → Prop} {Q : Quotation → Prop} {s t head first rest : Term} {args : List Term}
variable {x : Symbol}

theorem app_iff : (Term.app head args).Carries L Q ↔ head.Carries L Q ∧ ∀ t ∈ args, t.Carries L Q :=
  ⟨fun h => by cases h with | app h hargs => exact ⟨h, hargs⟩, fun h => .app h.1 h.2⟩

theorem of_within (h : t.Carries L Q) (hs : s.Within t) : s.Carries L Q := by
  induction hs with
  | refl => exact h
  | head _ ih => exact ih (app_iff.1 h).1
  | arg ht _ ih => exact ih ((app_iff.1 h).2 _ ht)
  | body _ ih =>
    cases h with
    | lam h => exact ih h

theorem of_literal {a : Literal} (h : (Term.literal a).Carries L Q) : L a := by
  cases h with
  | literal h => exact h

theorem of_quoted {q : Quotation} (h : (Term.quoted q).Carries L Q) : Q q := by
  cases h with
  | quoted h => exact h

theorem node (h : ∀ t ∈ args, t.Carries L Q) : (Term.node x args).Carries L Q := .app .const h

theorem node_one (h : t.Carries L Q) : (Term.node x [t]).Carries L Q := node (by simpa using h)

theorem node_two (h : s.Carries L Q) (h' : t.Carries L Q) : (Term.node x [s, t]).Carries L Q :=
  node (by simpa using ⟨h, h'⟩)

theorem cell (h : first.Carries L Q) (h' : rest.Carries L Q) : (Term.cell first rest).Carries L Q :=
  node_two h h'

theorem abstract {parameters : List Symbol} (h : t.Carries L Q) :
    (Term.abstract parameters t).Carries L Q := by
  induction parameters with
  | nil => exact h
  | cons x rest ih => exact ih.lam

theorem of_argsOf? (h : t.Carries L Q) (ha : t.argsOf? x = some args) : ∀ u ∈ args, u.Carries L Q := by
  cases t with
  | app head args' =>
    rw [argsOf?] at ha
    split at ha
    · rw [← Option.some.inj ha]
      exact (app_iff.1 h).2
    · cases ha
  | _ => cases ha

theorem apply {v : Vocabulary} {span : Span} (hall : ∀ u ∈ head :: args, u.Carries L Q)
    (h : v.apply span (head :: args) = .ok t) : t.Carries L Q := by
  obtain ⟨hhead, hargs⟩ := List.forall_mem_cons.1 hall
  cases head with
  | app inner front =>
    obtain rfl := Except.ok.inj h
    obtain ⟨hinner, hfront⟩ := app_iff.1 hhead
    exact .app hinner (List.forall_mem_append.2 ⟨hfront, hargs⟩)
  | const s =>
    cases args with
    | nil => exact Except.ok.inj h ▸ hhead
    | cons first others => exact Except.ok.inj h ▸ .app hhead hargs
  | quoted q =>
    cases args with
    | nil => exact Except.ok.inj h ▸ hhead
    | cons first others => exact Except.ok.inj h ▸ .app hhead hargs
  | lam | literal => cases h

theorem predicateType (h : ∀ t ∈ args, t.Carries L Q) : (Parse.predicateType args).Carries L Q := by
  induction args with
  | nil => exact const
  | cons t args ih =>
    obtain ⟨ht, hargs⟩ := List.forall_mem_cons.1 h
    exact node_two ht (ih hargs)

end Carries

end Term

/-- A literal as the readers of terms make them: a number, or a string from the pool. -/
def Literal.IsRead : Literal → Prop
  | .int _ | .float _ => True
  | .string _ pooled => pooled = true
  | .span _ | .extension _ _ | .malformed _ => False

/-- The data of a term is what can be read from a unit: its quotations are cut out of the text. -/
abbrev Term.ReadFrom (t : Term) (u : Source) : Prop :=
  t.Carries Literal.IsRead fun q => ∃ front opening back, q.CutFrom u front opening back

end Clausal
