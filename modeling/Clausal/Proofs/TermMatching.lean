import Clausal.Proofs.Relabeling
import Clausal.Term.Display

/-!
# Terms of one shape

Two terms match if they are built alike from matched symbols and quotations at matched spans. Whatever
the grammar asks of a term it asks of its shape and of well-known symbols, so matching terms
give the same answers.
-/
namespace Clausal

namespace Term

mutual

def Matches (m : Matching) : Term → Term → Prop
  | const s, const t => m.symbols s t
  | app f as, app g bs => Matches m f g ∧ MatchesAll m as bs
  | lam x a, lam y b => m.symbols x y ∧ Matches m a b
  | literal a, literal b => a = b
  | quoted p, quoted q => p.data = q.data ∧ m.spans p.span q.span ∧ p.kind = q.kind
  | _, _ => False

def MatchesAll (m : Matching) : List Term → List Term → Prop
  | [], [] => True
  | a :: as, b :: bs => Matches m a b ∧ MatchesAll m as bs
  | _, _ => False

end

variable {m m' : Matching}

mutual

theorem Matches.mono (hle : m.Le m') {a b : Term} (h : a.Matches m b) : a.Matches m' b := by
  match a, b, h with
  | const _, const _, h => exact hle.symbols h
  | app _ _, app _ _, ⟨hf, hs⟩ => exact ⟨hf.mono hle, hs.mono hle⟩
  | lam _ _, lam _ _, ⟨hx, hb⟩ => exact ⟨hle.symbols hx, hb.mono hle⟩
  | literal _, literal _, h => exact h
  | quoted _, quoted _, ⟨hd, hs, hk⟩ => exact ⟨hd, hle.spans hs, hk⟩

theorem MatchesAll.mono (hle : m.Le m') {as bs : List Term} (h : MatchesAll m as bs) :
    MatchesAll m' as bs := by
  match as, bs, h with
  | [], [], _ => trivial
  | _ :: _, _ :: _, ⟨ha, hs⟩ => exact ⟨ha.mono hle, hs.mono hle⟩

end

mutual

theorem Matches.relabeled_eq {r r' : Relabeling} (hj : m.Joins r r') {a b : Term} (h : a.Matches m b) :
    a.relabeled r = b.relabeled r' := by
  match a, b, h with
  | const _, const _, h => exact congrArg const (hj.symbol h)
  | app _ _, app _ _, ⟨hf, hs⟩ =>
    simp only [relabeled, hf.relabeled_eq hj, hs.relabeledAll_eq hj]
  | lam _ _, lam _ _, ⟨hx, hb⟩ => simp only [relabeled, hj.symbol hx, hb.relabeled_eq hj]
  | literal _, literal _, h => exact congrArg literal h
  | quoted _, quoted _, ⟨hd, hs, hk⟩ => simp only [relabeled, hd, hj.span hs, hk]

theorem MatchesAll.relabeledAll_eq {r r' : Relabeling} (hj : m.Joins r r') {as bs : List Term}
    (h : MatchesAll m as bs) : relabeledAll r as = relabeledAll r' bs := by
  match as, bs, h with
  | [], [], _ => rfl
  | _ :: _, _ :: _, ⟨ha, hs⟩ =>
    simp only [relabeledAll, ha.relabeled_eq hj, hs.relabeledAll_eq hj]

end

theorem Matches.alike {a b : Term} (h : a.Matches m b) : m.Alike a b :=
  fun _ _ hj => h.relabeled_eq hj

theorem MatchesAll.append {as bs cs ds : List Term} (h : MatchesAll m as bs)
    (hs : MatchesAll m cs ds) : MatchesAll m (as ++ cs) (bs ++ ds) := by
  induction as generalizing bs with
  | nil =>
    cases bs with
    | nil => exact hs
    | cons b bs => exact h.elim
  | cons a as ih =>
    cases bs with
    | nil => exact h.elim
    | cons b bs => exact ⟨h.1, ih h.2⟩

theorem Matches.symbol? {a b : Term} (h : a.Matches m b) :
    Option.Rel m.symbols a.symbol? b.symbol? := by
  cases a <;> cases b <;> first | exact h.elim | exact .none | exact .some h

theorem Matches.headSymbol? {a b : Term} (h : a.Matches m b) :
    Option.Rel m.symbols a.headSymbol? b.headSymbol? := by
  cases a <;> cases b <;> first | exact h.elim | exact .none | exact .some h | exact h.1.symbol?

theorem Matches.args {a b : Term} (h : a.Matches m b) : MatchesAll m a.args b.args := by
  cases a <;> cases b <;> first | exact h.elim | exact trivial | exact h.2

theorem Matches.kindName_eq {a b : Term} (h : a.Matches m b) : a.kindName = b.kindName := by
  cases a <;> cases b <;> first | exact h.elim | rfl | exact congrArg (·.type.name) h

/-- A symbol that matches only itself is found on both sides or on neither. -/
theorem rel_eq_some_iff {x y : Option Symbol} (h : Option.Rel m.symbols x y) {s : Symbol}
    (hs : ∀ {u v}, m.symbols u v → (u = s ↔ v = s)) : x = some s ↔ y = some s := by
  cases h with
  | none => exact Iff.rfl
  | some huv => simpa using hs huv

theorem Matches.argsOf? {a b : Term} (h : a.Matches m b) {s : Symbol}
    (hs : ∀ {u v}, m.symbols u v → (u = s ↔ v = s)) :
    Option.Rel (MatchesAll m) (a.argsOf? s) (b.argsOf? s) := by
  cases a <;> cases b <;> try first | exact h.elim | exact .none
  next f as g bs =>
    have hiff := rel_eq_some_iff h.1.symbol? hs
    simp only [Term.argsOf?]
    by_cases hf : f.symbol? = some s
    · rw [if_pos hf, if_pos (hiff.1 hf)]
      exact .some h.2
    · rw [if_neg hf, if_neg (mt hiff.2 hf)]
      exact .none

end Term

end Clausal
