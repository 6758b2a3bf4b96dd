import Clausal.Proofs.TermData

/-!
# The spans of a program

A program holds spans everywhere: one for each declaration, and more inside of it, also in its terms and
in the units that it includes. `marksOf` lists them all. A term that is read has the spans of its
quotations only.
-/
namespace Clausal

/-- A span that a program holds, and whether it is that of quoted text. -/
structure Mark where
  span : Span
  quoted : Bool
  deriving DecidableEq, Repr

namespace Mark

def plain (span : Span) : Mark := ⟨span, false⟩

/-- The span is a part of the text of that unit, and its line is right unless it is that of quoted
text. -/
def RealIn (m : Mark) (u : Source) : Prop :=
  m.span.LiesIn u ∧ (m.quoted = false → m.span.CountsLines u)

end Mark

theorem Span.ExactIn.realIn {s : Span} {u : Source} (h : s.ExactIn u) : (Mark.plain s).RealIn u :=
  ⟨h.toLiesIn, fun _ => h.lines⟩

mutual

def Term.marks : Term → List Mark
  | .const _ => []
  | .app head args => head.marks ++ marksOfTerms args
  | .lam _ body => body.marks
  | .literal a => a.span?.toList.map .plain
  | .quoted q => [⟨q.span, true⟩]

def marksOfTerms : List Term → List Mark
  | [] => []
  | t :: rest => t.marks ++ marksOfTerms rest

end

theorem mem_marksOfTerms {ts : List Term} {m : Mark} :
    m ∈ marksOfTerms ts ↔ ∃ t ∈ ts, m ∈ t.marks := by
  induction ts with
  | nil => simp [marksOfTerms]
  | cons t ts ih => simp [marksOfTerms, ih]

namespace Term

/-- All marks of a term are so. -/
def Marked (P : Mark → Prop) (t : Term) : Prop := ∀ m ∈ t.marks, P m

namespace Marked

variable {P : Mark → Prop} {head body : Term} {args : List Term} {s x : Symbol}

theorem const : (Term.const s).Marked P := by simp [Marked, marks]

theorem app_iff : (Term.app head args).Marked P ↔ head.Marked P ∧ ∀ t ∈ args, t.Marked P := by
  simp only [Marked, marks, List.mem_append, mem_marksOfTerms, or_imp, forall_and,
    forall_exists_index, and_imp]
  exact and_congr_right fun _ => ⟨fun h t ht m hm => h m t ht hm, fun h m t ht hm => h t ht m hm⟩

theorem literal {a : Literal} (ha : a.span? = none) : (Term.literal a).Marked P := by
  simp [Marked, marks, ha]

end Marked

/-- What is read brings in no spans but those of quoted text. -/
theorem ReadFrom.marked {t : Term} {u : Source} (h : t.ReadFrom u) : t.Marked (·.RealIn u) := by
  induction h with
  | const => exact .const
  | app _ _ ihhead ihargs => exact Marked.app_iff.2 ⟨ihhead, ihargs⟩
  | lam _ ih => exact ih
  | @literal a ha =>
    refine .literal ?_
    cases a with
    | span | extension | malformed => exact ha.elim
    | int | float | string => rfl
  | quoted hq =>
    obtain ⟨front, opening, back, hq⟩ := hq
    intro m hm
    obtain rfl := List.mem_singleton.1 hm
    exact ⟨hq.liesIn, fun h => (by cases h)⟩

end Term

mutual

def Decl.marks : Decl → List Mark
  | .openBlock span | .openNamespace span _ | .openConstraint span _ | .close span | .locals span _
  | .ignored span => [.plain span]
  | .shorten span shorthands => .plain span :: shorthands.map fun s => .plain s.span
  | .accumulated span units => .plain span :: marksOfUnits units
  | .clause c => .plain c.span :: c.body.marks
  | .modes ms => ms.map fun m => .plain m.span
  | .rule r => .plain r.span :: marksOfTerms r.terms
  | .macroDef m => .plain m.span :: m.body.marks
  | .types ts => ts.flatMap fun t => .plain t.span :: t.type.marks
  | .typeAbbreviation a => .plain a.span :: a.value.marks

def marksOfUnits : List (Digest × List Decl) → List Mark
  | [] => []
  | (_, decls) :: rest => marksOf decls ++ marksOfUnits rest

/-- The spans of a program, those of the units that it includes among them. -/
def marksOf : List Decl → List Mark
  | [] => []
  | d :: rest => d.marks ++ marksOf rest

end

theorem mem_marksOf {ds : List Decl} {m : Mark} : m ∈ marksOf ds ↔ ∃ d ∈ ds, m ∈ d.marks := by
  induction ds with
  | nil => simp [marksOf]
  | cons d ds ih => simp [marksOf, ih]

theorem mem_marksOfUnits {units : List (Digest × List Decl)} {m : Mark} :
    m ∈ marksOfUnits units ↔ ∃ unit ∈ units, m ∈ marksOf unit.2 := by
  induction units with
  | nil => simp [marksOfUnits]
  | cons unit units ih => simp [marksOfUnits, ih]

/-- All marks of a program are so. -/
def Marked (P : Mark → Prop) (ds : List Decl) : Prop := ∀ m ∈ marksOf ds, P m

namespace Marked

variable {P Q : Mark → Prop} {ds es : List Decl} {d : Decl}

theorem mono (h : ∀ m, P m → Q m) (hd : Marked P ds) : Marked Q ds := fun m hm => h m (hd m hm)

theorem nil : Marked P [] := by simp [Marked, marksOf]

theorem cons_iff : Marked P (d :: ds) ↔ (∀ m ∈ d.marks, P m) ∧ Marked P ds := by
  simp [Marked, marksOf, or_imp, forall_and]

theorem singleton (h : ∀ m ∈ d.marks, P m) : Marked P [d] := cons_iff.2 ⟨h, nil⟩

theorem append (hd : Marked P ds) (he : Marked P es) : Marked P (ds ++ es) := by
  intro m hm
  obtain ⟨d, hmem, hm⟩ := mem_marksOf.1 hm
  rcases List.mem_append.1 hmem with hmem | hmem
  · exact hd m (mem_marksOf.2 ⟨d, hmem, hm⟩)
  · exact he m (mem_marksOf.2 ⟨d, hmem, hm⟩)

end Marked

end Clausal
