import Clausal.Decl
import Clausal.Proofs.SharedNames

/-!
# Terms in flat form

Terms that are read never put an application at the head of another, apply something to no arguments, or
hold a symbol that their vocabulary does not know. The ways in which the readers build terms keep
them so, and so do additions to the vocabulary.
-/
namespace Clausal

namespace Term

/-- Whether a term can be the head of an application in flat form. -/
def IsHead : Term → Prop
  | const _ | quoted _ => True
  | _ => False

/-- A term over these symbols in which all applications have a constant or a quotation at their head
and at least one argument. -/
inductive Flat (symbols : Symbol → Prop) : Term → Prop
  | const {s : Symbol} (h : symbols s) : Flat symbols (const s)
  | app {head : Term} {args : List Term} (hhead : head.IsHead) (h : Flat symbols head)
      (hne : args ≠ []) (hargs : ∀ t ∈ args, Flat symbols t) : Flat symbols (app head args)
  | lam {x : Symbol} {body : Term} (hx : symbols x) (h : Flat symbols body) :
      Flat symbols (lam x body)
  | literal (a : Literal) : Flat symbols (literal a)
  | quoted (q : Quotation) : Flat symbols (quoted q)

namespace Flat

variable {symbols symbols' : Symbol → Prop} {t head : Term} {ts args : List Term} {s : Symbol}

theorem mono (hle : ∀ s, symbols s → symbols' s) (h : Flat symbols t) : Flat symbols' t := by
  induction h with
  | const h => exact .const (hle _ h)
  | app hhead _ hne _ ih ihargs => exact .app hhead ih hne ihargs
  | lam hx _ ih => exact .lam (hle _ hx) ih
  | literal a => exact .literal a
  | quoted q => exact .quoted q

theorem node (hs : symbols s) (hne : args ≠ []) (hargs : ∀ t ∈ args, Flat symbols t) :
    Flat symbols (Term.node s args) :=
  .app trivial (.const hs) hne hargs

theorem node_one (hs : symbols s) (ht : Flat symbols t) : Flat symbols (Term.node s [t]) :=
  node hs (by simp) (by simpa using ht)

theorem node_two {u : Term} (hs : symbols s) (ht : Flat symbols t) (hu : Flat symbols u) :
    Flat symbols (Term.node s [t, u]) :=
  node hs (by simp) (by simpa using ⟨ht, hu⟩)

theorem of_symbol? (h : Flat symbols t) (hs : t.symbol? = some s) : symbols s := by
  cases h with
  | const h => exact Option.some.inj hs ▸ h
  | _ => cases hs

theorem of_headSymbol? (h : Flat symbols t) (hs : t.headSymbol? = some s) : symbols s := by
  cases h with
  | const h => exact Option.some.inj hs ▸ h
  | app _ h _ _ => exact h.of_symbol? hs
  | _ => cases hs

theorem of_mem_args (h : Flat symbols t) {u : Term} (hu : u ∈ t.args) : Flat symbols u := by
  cases h with
  | app _ _ _ hargs => exact hargs u hu
  | _ => simp [args] at hu

theorem of_argsOf? (h : Flat symbols t) (ha : t.argsOf? s = some args) :
    ∀ u ∈ args, Flat symbols u := by
  intro u hu
  cases h with
  | app _ _ _ hargs =>
    rw [argsOf?] at ha
    split at ha
    · exact hargs u (Option.some.inj ha ▸ hu)
    · cases ha
  | _ => cases ha

theorem abstract {parameters : List Symbol} (hp : ∀ s ∈ parameters, symbols s)
    (h : Flat symbols t) : Flat symbols (Term.abstract parameters t) := by
  induction parameters with
  | nil => exact h
  | cons x rest ih =>
    rw [List.forall_mem_cons] at hp
    exact .lam hp.1 (ih hp.2)

/-- What can be applied is applied in flat form. -/
theorem apply {v : Vocabulary} {span : Span} (hne : args ≠ [])
    (h : v.apply span (head :: args) = .ok t) (hall : ∀ u ∈ head :: args, Flat symbols u) :
    Flat symbols t := by
  rw [List.forall_mem_cons] at hall
  obtain ⟨hhead, hargs⟩ := hall
  cases args with
  | nil => exact absurd rfl hne
  | cons first rest =>
    cases hhead with
    | const hs =>
      obtain rfl := Except.ok.inj h
      exact .app trivial (.const hs) hne hargs
    | @app inner front hhead hinner hne' hfront =>
      obtain rfl := Except.ok.inj h
      refine .app hhead hinner (by simp) fun u hu => ?_
      exact (List.mem_append.1 hu).elim (hfront u) (hargs u)
    | quoted q =>
      obtain rfl := Except.ok.inj h
      exact .app trivial (.quoted q) hne hargs
    | lam | literal => cases h

end Flat

end Term

namespace Vocabulary

/-- The symbols that can occur in a term: those with a name, and the well-known ones. -/
def Knows (v : Vocabulary) (s : Symbol) : Prop :=
  s.isWellKnown = true ∨ ∃ name, v.symbols.name? s = some name

variable {v w : Vocabulary} {s : Symbol}

theorem Extends.knows (h : v.Extends w) (hs : v.Knows s) : w.Knows s :=
  hs.imp_right fun ⟨name, hname⟩ => ⟨name, h s name hname⟩

theorem knows_of_lookup {name : String} (h : v.lookup name = some s) : v.Knows s :=
  .inr ⟨_, SymbolTable.name?_of_lookup h⟩

theorem knows_intern (v : Vocabulary) (name : String) : (v.intern name).2.Knows (v.intern name).1 :=
  .inr ⟨_, SymbolTable.name?_intern v.symbols name⟩

/-- In what a vocabulary of a session grows into, the known symbols are those with a name. -/
theorem Extends.exists_name? (h : v.Extends w) (hv : v.Reachable) (hs : w.Knows s) :
    ∃ name, w.symbols.name? s = some name := by
  rcases hs with hs | hs
  · have hlt : s.index < Symbol.wellKnown.length := of_decide_eq_true hs
    have hname := hv.wellFormed.symbols.name?_wellKnown (List.getElem?_eq_getElem hlt)
    exact ⟨_, h s _ hname⟩
  · exact hs

theorem Extends.index_lt (h : v.Extends w) (hv : v.Reachable) (hs : w.Knows s) :
    s.index < w.symbols.size := by
  obtain ⟨name, hname⟩ := h.exists_name? hv hs
  exact (Array.getElem?_eq_some_iff.1 hname).1

end Vocabulary

namespace Term

/-- A term in flat form over the symbols of a vocabulary. -/
def FlatIn (v : Vocabulary) (t : Term) : Prop := t.Flat v.Knows

variable {v w : Vocabulary}

theorem FlatIn.mono {t : Term} (hvw : v.Extends w) (h : t.FlatIn v) : t.FlatIn w :=
  Flat.mono (fun _ hs => hvw.knows hs) h

/-- Terms in flat form. -/
def AllFlatIn (v : Vocabulary) (ts : List Term) : Prop := ∀ t ∈ ts, t.FlatIn v

namespace AllFlatIn

variable {t : Term} {ts us : List Term}

theorem mono (hvw : v.Extends w) (h : AllFlatIn v ts) : AllFlatIn w ts :=
  fun t ht => (h t ht).mono hvw

@[simp] theorem nil : AllFlatIn v [] := by simp [AllFlatIn]

@[simp] theorem cons_iff : AllFlatIn v (t :: ts) ↔ t.FlatIn v ∧ AllFlatIn v ts := by
  simp [AllFlatIn]

@[simp] theorem append_iff : AllFlatIn v (ts ++ us) ↔ AllFlatIn v ts ∧ AllFlatIn v us := by
  simp [AllFlatIn, or_imp, forall_and]

end AllFlatIn

theorem FlatIn.wellKnown {s : Symbol} (h : s.isWellKnown = true) : (Term.const s).FlatIn v :=
  .const (.inl h)

theorem FlatIn.cell {first rest : Term} (hfirst : first.FlatIn v) (hrest : rest.FlatIn v) :
    (Term.cell first rest).FlatIn v :=
  .node_two (.inl rfl) hfirst hrest

theorem FlatIn.predicateType {args : List Term} (h : AllFlatIn v args) :
    (Parse.predicateType args).FlatIn v := by
  induction args with
  | nil => exact .wellKnown rfl
  | cons arg rest ih =>
    rw [AllFlatIn.cons_iff] at h
    exact .node_two (.inl rfl) h.1 (ih h.2)

end Term

def Sequent.terms (s : Sequent) : List Term := [s.eigen, s.context, s.conclusion]

/-- All parts of a rule. -/
def Rule.terms {α : Type} (r : Rule α) : List Term :=
  r.matched.flatMap Sequent.terms ++ r.removed.flatMap Sequent.terms ++ r.guard.toList ++
    r.goal.toList.flatMap Sequent.terms

mutual

/-- The terms of a declaration, those of the units that it includes among them. -/
def Decl.terms : Decl → List Term
  | .clause c => [c.body]
  | .rule r => r.terms
  | .macroDef m => [m.body]
  | .types ts => ts.map (·.type)
  | .typeAbbreviation a => [a.value]
  | .accumulated _ units => termsOfUnits units
  | .openBlock _ | .openNamespace _ _ | .openConstraint _ _ | .shorten _ _ | .close _ | .locals _ _
  | .modes _ | .ignored _ => []

def termsOfUnits : List (Digest × List Decl) → List Term
  | [] => []
  | (_, decls) :: rest => termsOf decls ++ termsOfUnits rest

/-- The terms of a program. -/
def termsOf : List Decl → List Term
  | [] => []
  | d :: rest => d.terms ++ termsOf rest

end

theorem termsOf_append (ds es : List Decl) : termsOf (ds ++ es) = termsOf ds ++ termsOf es := by
  induction ds with
  | nil => rfl
  | cons d ds ih => simp [termsOf, ih]

end Clausal
