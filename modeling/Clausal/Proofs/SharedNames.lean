import Clausal.Proofs.TermMatching
import Clausal.Proofs.Vocabularies

/-!
# Vocabularies that agree

What reading asks of a vocabulary it asks by name: which definitions a name has as an operator,
and which variable comes next. Two vocabularies that agree on that give the same answers, whatever
else they hold and at whatever symbols, and they agree again when the same is added to both.
-/
namespace Clausal

namespace OperatorTable

variable {t t' : OperatorTable} {s : Symbol} {o : Operator}

theorem lookup_define (h : t.define s o = .ok t') (u : Symbol) (q : Placement) :
    t'.lookup u q = (t.lookup u q).or (if u = s ∧ o.placement = q then some o else none) := by
  unfold define at h
  split at h
  · next hnone =>
    obtain rfl := Except.ok.inj h
    have hone : ([(s, o)].find? fun e => e.1 == u && e.2.placement == q).map (·.2) =
        if u = s ∧ o.placement = q then some o else none := by
      by_cases hc : u = s ∧ o.placement = q
      · obtain ⟨rfl, rfl⟩ := hc
        simp
      · have hc' : ¬ (s = u ∧ o.placement = q) := fun hx => hc ⟨hx.1.symm, hx.2⟩
        simp [hc, hc']
    rw [lookup, List.find?_append, Option.map_or, hone]
    rfl
  · next old hold =>
    split_ifs at h with ho
    obtain rfl := Except.ok.inj h
    split_ifs with hc
    · rw [hc.1, ← hc.2, hold, ho]
      rfl
    · rw [Option.or_none]

theorem first?_define (h : t.define s o = .ok t') (u : Symbol) :
    t'.first? u = (t.first? u).or (if u = s then some o else none) := by
  unfold define at h
  split at h
  · obtain rfl := Except.ok.inj h
    have hone : ([(s, o)].find? fun e => e.1 == u).map (·.2) =
        if u = s then some o else none := by
      by_cases hc : u = s
      · simp [hc]
      · have hc' : ¬ s = u := fun hx => hc hx.symm
        simp [hc, hc']
    rw [first?, List.find?_append, Option.map_or, hone]
    rfl
  · next old hold =>
    split_ifs at h with ho
    obtain rfl := Except.ok.inj h
    split_ifs with hc
    · obtain ⟨x, hx⟩ := Option.isSome_iff_exists.1 (isOperator_of_lookup hold)
      rw [hc, hx]
      rfl
    · rw [Option.or_none]

end OperatorTable

namespace Vocabulary

/-- The definition of a name in a placement. -/
def definition? (v : Vocabulary) (name : String) (p : Placement) : Option Operator :=
  (v.lookup name).bind (v.operators.lookup · p)

/-- The earliest definition of a name. -/
def earliest? (v : Vocabulary) (name : String) : Option Operator :=
  (v.lookup name).bind v.operators.first?

/-- The names of the first are names of the second, with the same symbols. -/
def Extends (v w : Vocabulary) : Prop :=
  ∀ s name, v.symbols.name? s = some name → w.symbols.name? s = some name

theorem Extends.refl (v : Vocabulary) : v.Extends v := fun _ _ h => h

theorem Extends.trans {v w u : Vocabulary} (h : v.Extends w) (g : w.Extends u) : v.Extends u :=
  fun s name hs => g s name (h s name hs)

theorem extends_intern (v : Vocabulary) (name : String) : v.Extends (v.intern name).2 :=
  fun _ _ h => SymbolTable.name?_intern_of_name? name h

theorem WellFormed.lookup_eq_none {v : Vocabulary} (h : v.WellFormed) {s : Symbol}
    (hs : v.symbols.size ≤ s.index) (p : Placement) : v.operators.lookup s p = none := by
  refine Option.eq_none_iff_forall_ne_some.2 fun o ho => ?_
  have hlt := h.named _ (OperatorTable.mem_of_lookup ho).1
  exact absurd hs (Nat.not_le_of_lt hlt)

theorem WellFormed.first?_eq_none {v : Vocabulary} (h : v.WellFormed) {s : Symbol}
    (hs : v.symbols.size ≤ s.index) : v.operators.first? s = none := by
  refine Option.eq_none_iff_forall_ne_some.2 fun o ho => ?_
  obtain ⟨e, he, -⟩ := Option.map_eq_some_iff.1 ho
  have hlt := h.named e (List.mem_of_find?_eq_some he)
  have hes : e.1 = s := by simpa using List.find?_some he
  exact absurd hs (hes ▸ Nat.not_le_of_lt hlt)

/-- A name that enters has no property that only symbols in use have. -/
theorem bind_lookup_intern {v : Vocabulary} {f : Symbol → Option Operator}
    (hf : ∀ s : Symbol, v.symbols.size ≤ s.index → f s = none) (name other : String) :
    ((v.intern name).2.lookup other).bind f = (v.lookup other).bind f := by
  have hl : (v.intern name).2.lookup other = (v.lookup other).or
      (if Symbol.canonical name = Symbol.canonical other then some (v.intern name).1 else none) :=
    v.symbols.lookup_intern name other
  rw [hl]
  cases ho : v.lookup other with
  | some s => rfl
  | none =>
    split_ifs with hc
    · have hn : v.symbols.lookup name = none := by
        rw [← SymbolTable.lookup_canonical, hc, SymbolTable.lookup_canonical]
        exact ho
      exact hf _ (Nat.le_of_eq (SymbolTable.intern_fst_index hn).symm)
    · rfl

theorem WellFormed.definition?_intern {v : Vocabulary} (h : v.WellFormed) (name other : String)
    (p : Placement) : (v.intern name).2.definition? other p = v.definition? other p :=
  bind_lookup_intern (fun _ hs => h.lookup_eq_none hs p) name other

theorem WellFormed.earliest?_intern {v : Vocabulary} (h : v.WellFormed) (name other : String) :
    (v.intern name).2.earliest? other = v.earliest? other :=
  bind_lookup_intern (fun _ hs => h.first?_eq_none hs) name other

/-- A symbol has one name, and a name one symbol. -/
theorem WellFormed.lookup_eq_some_iff {v : Vocabulary} (h : v.WellFormed) {name : String} {s : Symbol} :
    v.lookup name = some s ↔ v.symbols.name? s = some (Symbol.canonical name) := by
  constructor
  · exact SymbolTable.name?_of_lookup
  · intro hs
    have hl := h.symbols.lookup_of_name? hs
    rwa [SymbolTable.lookup_canonical] at hl

/-- Definitions by name after a definition of `s`, which is the symbol of `name`. -/
theorem WellFormed.bind_lookup_or {v : Vocabulary} (h : v.WellFormed) {name : String} {s : Symbol}
    (hs : v.lookup name = some s) (other : String) (f : Symbol → Option Operator)
    (c : Prop) [Decidable c] (o : Operator) :
    ((v.lookup other).bind fun u => (f u).or (if u = s ∧ c then some o else none)) =
      ((v.lookup other).bind f).or
        (if Symbol.canonical name = Symbol.canonical other ∧ c then some o else none) := by
  have hname := h.lookup_eq_some_iff.1 hs
  cases ho : v.lookup other with
  | none =>
    have hne : Symbol.canonical name ≠ Symbol.canonical other := by
      intro he
      have hx := h.lookup_eq_some_iff.2 (he ▸ hname)
      exact Option.some_ne_none s (hx.symm.trans ho)
    simp [hne]
  | some u =>
    have hiff : u = s ↔ Symbol.canonical name = Symbol.canonical other := by
      constructor
      · rintro rfl
        exact Option.some.inj (hname.symm.trans (h.lookup_eq_some_iff.1 ho))
      · intro he
        have hx := h.lookup_eq_some_iff.2 (he ▸ hname)
        exact Option.some.inj (ho.symm.trans hx)
    simp [hiff]

end Vocabulary

/-- What reading adds to a vocabulary. -/
inductive Addition where
  | name (name : String)
  | variable
  | text (text : String)
  | operator (name : String) (fixity : Fixity) (precedence : Int)

namespace Addition

def apply : Addition → Vocabulary → Vocabulary
  | name n, v => (v.intern n).2
  | .variable, v => v.freshVariable.2
  | text t, v => (v.string t).2
  | operator n f p, v => (v.defineOperator n f p).2

/-- The operator that is declared for a name. -/
def operator? (other : String) : Addition → Option Operator
  | operator n f p =>
    if (p < Precedence.lowest ∨ (Precedence.tightest : Int) < p) ∨
      Symbol.canonical n ≠ Symbol.canonical other then none
    else some ⟨f, p.toNat⟩
  | _ => none

def minted : Addition → Nat
  | .variable => 1
  | _ => 0

variable {v : Vocabulary} (a : Addition)

/-- Declaring an operator in range adds a definition where there is none yet. -/
theorem defineOperator_snd {n : String} {f : Fixity} {p : Int}
    (hp : ¬ (p < Precedence.lowest ∨ (Precedence.tightest : Int) < p)) :
    ∃ operators : OperatorTable, (v.defineOperator n f p).2 = { (v.intern n).2 with operators } ∧
      (∀ u q, operators.lookup u q = (v.operators.lookup u q).or
        (if u = (v.intern n).1 ∧ f.placement = q then some ⟨f, p.toNat⟩ else none)) ∧
      ∀ u, operators.first? u = (v.operators.first? u).or
        (if u = (v.intern n).1 then some ⟨f, p.toNat⟩ else none) := by
  rw [Vocabulary.defineOperator, if_neg hp]
  cases hd : v.operators.define (v.intern n).1 ⟨f, p.toNat⟩ with
  | ok operators =>
    have hd' : (v.intern n).2.operators.define (v.intern n).1 ⟨f, p.toNat⟩ = .ok operators := hd
    refine ⟨operators, ?_, OperatorTable.lookup_define hd, OperatorTable.first?_define hd⟩
    dsimp only
    rw [hd']
  | error old =>
    have hold := (OperatorTable.define_eq_error_iff.1 hd).1
    have hd' : (v.intern n).2.operators.define (v.intern n).1 ⟨f, p.toNat⟩ = .error old := hd
    refine ⟨v.operators, ?_, fun u q => ?_, fun u => ?_⟩
    · dsimp only
      rw [hd']
      rfl
    · split_ifs with hc
      · obtain ⟨rfl, rfl⟩ := hc
        have hx : v.operators.lookup (v.intern n).1 f.placement = some old := hold
        rw [hx]
        rfl
      · rw [Option.or_none]
    · split_ifs with hc
      · subst hc
        obtain ⟨x, hx⟩ := Option.isSome_iff_exists.1 (OperatorTable.isOperator_of_lookup hold)
        rw [hx]
        rfl
      · rw [Option.or_none]

theorem reachable_apply (h : v.Reachable) : (a.apply v).Reachable := by
  cases a with
  | name n => exact h.intern n
  | «variable» => exact h.freshVariable
  | text t => exact h.string t
  | operator n f p => exact h.defineOperator n f p

theorem extends_apply (v : Vocabulary) : v.Extends (a.apply v) := by
  cases a with
  | name n => exact v.extends_intern n
  | «variable» =>
    exact fun _ _ hs => SymbolTable.name?_intern_of_name? _ hs
  | text t =>
    obtain ⟨strings, hs⟩ := v.string_snd t
    simp only [apply, hs]
    exact fun _ _ h => h
  | operator n f p =>
    by_cases hp : p < Precedence.lowest ∨ (Precedence.tightest : Int) < p
    · simp only [apply, Vocabulary.defineOperator, if_pos hp]
      exact Vocabulary.Extends.refl v
    · obtain ⟨operators, hv, -⟩ := defineOperator_snd (v := v) (n := n) (f := f) hp
      rw [apply, hv]
      exact v.extends_intern n

theorem variableCount_intern (t : SymbolTable) (name : String) :
    (t.intern name).2.variableCount = t.variableCount := by
  unfold SymbolTable.intern
  split <;> rfl

theorem variableCount_apply (v : Vocabulary) :
    (a.apply v).symbols.variableCount = v.symbols.variableCount + a.minted := by
  cases a with
  | name n => exact variableCount_intern _ n
  | «variable» => exact variableCount_intern _ _
  | text t =>
    obtain ⟨strings, hs⟩ := v.string_snd t
    simp only [apply, hs, minted, Nat.add_zero]
  | operator n f p =>
    by_cases hp : p < Precedence.lowest ∨ (Precedence.tightest : Int) < p
    · simp only [apply, Vocabulary.defineOperator, if_pos hp, minted, Nat.add_zero]
    · obtain ⟨operators, hv, -⟩ := defineOperator_snd (v := v) (n := n) (f := f) hp
      rw [apply, hv]
      exact variableCount_intern _ n

theorem definition?_apply (h : v.WellFormed) (other : String) (q : Placement) :
    (a.apply v).definition? other q =
      (v.definition? other q).or ((a.operator? other).filter fun o => o.placement = q) := by
  cases a with
  | name n => exact (h.definition?_intern n other q).trans (Option.or_none).symm
  | «variable» =>
    exact ((h.withVariableCount _).definition?_intern _ other q).trans (Option.or_none).symm
  | text t =>
    obtain ⟨strings, hs⟩ := v.string_snd t
    simp only [apply, hs]
    exact (Option.or_none).symm
  | operator n f p =>
    by_cases hp : p < Precedence.lowest ∨ (Precedence.tightest : Int) < p
    · simp [apply, Vocabulary.defineOperator, hp, operator?]
    · obtain ⟨operators, hv, hl, -⟩ := defineOperator_snd (v := v) (n := n) (f := f) hp
      have hb := (h.intern n).bind_lookup_or (v.symbols.lookup_intern_self n) other
        (v.operators.lookup · q) (f.placement = q) ⟨f, p.toNat⟩
      rw [← h.definition?_intern n other q, apply, hv]
      refine Eq.trans ?_ (hb.trans ?_)
      · simp only [Vocabulary.definition?, hl]
        rfl
      · simp only [operator?, hp, false_or]
        congr 1
        by_cases hc : Symbol.canonical n = Symbol.canonical other <;>
          by_cases hq : f.placement = q <;> simp [hc, hq, Operator.placement, Option.filter_some]

theorem earliest?_apply (h : v.WellFormed) (other : String) :
    (a.apply v).earliest? other = (v.earliest? other).or (a.operator? other) := by
  cases a with
  | name n => exact (h.earliest?_intern n other).trans (Option.or_none).symm
  | «variable» =>
    exact ((h.withVariableCount _).earliest?_intern _ other).trans (Option.or_none).symm
  | text t =>
    obtain ⟨strings, hs⟩ := v.string_snd t
    simp only [apply, hs]
    exact (Option.or_none).symm
  | operator n f p =>
    by_cases hp : p < Precedence.lowest ∨ (Precedence.tightest : Int) < p
    · simp [apply, Vocabulary.defineOperator, hp, operator?]
    · obtain ⟨operators, hv, -, hl⟩ := defineOperator_snd (v := v) (n := n) (f := f) hp
      have hb := (h.intern n).bind_lookup_or (v.symbols.lookup_intern_self n) other
        v.operators.first? True ⟨f, p.toNat⟩
      simp only [and_true] at hb
      rw [← h.earliest?_intern n other, apply, hv]
      refine Eq.trans ?_ (hb.trans ?_)
      · simp only [Vocabulary.earliest?, funext hl]
        rfl
      · simp only [operator?, hp, false_or, ne_eq, ite_not]
        rfl

end Addition

end Clausal
