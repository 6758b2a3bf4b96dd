import Clausal.Baseline
import Clausal.Proofs.Vocabularies

/-!
# Built-in operators

Where a vocabulary has the built-in operators and no others, whether a token is an operator is read
off the list of them by its name.
-/
namespace Clausal

namespace Vocabulary

/-- The definitions in the operator table, by names. -/
def definitions (v : Vocabulary) : List (String × Fixity × Nat) :=
  v.operators.entries.map fun e => (v.name e.1, e.2.fixity, e.2.precedence)

/-- The operators are the built-in ones. -/
def HasBaseline (v : Vocabulary) : Prop := ∀ d, d ∈ v.definitions ↔ d ∈ baselineOperators

theorem Reachable.defineOperators {v : Vocabulary} (h : v.Reachable)
    (definitions : List (String × Fixity × Nat)) : (v.defineOperators definitions).2.Reachable := by
  induction definitions generalizing v with
  | nil => exact h
  | cons d rest ih =>
    obtain ⟨name, fixity, precedence⟩ := d
    have hd := h.defineOperator name fixity precedence
    unfold Vocabulary.defineOperators
    split
    · next v' hv' =>
      rw [hv'] at hd
      exact ih hd
    · next e v' hv' =>
      rw [hv'] at hd
      exact hd

namespace HasBaseline

variable {v : Vocabulary}

theorem of_eq (h : v.definitions = baselineOperators) : v.HasBaseline := fun d => by rw [h]

theorem mem (h : v.HasBaseline) {s : Symbol} {o : Operator} (hm : (s, o) ∈ v.operators.entries) :
    (v.name s, o.fixity, o.precedence) ∈ baselineOperators :=
  (h _).1 (List.mem_map.2 ⟨(s, o), hm, rfl⟩)

theorem name_eq {s : Symbol} {name : String} (hs : v.lookup name = some s) :
    v.name s = Symbol.canonical name := by
  have hn : v.symbols.name? s = some (Symbol.canonical name) := SymbolTable.name?_of_lookup hs
  rw [Vocabulary.name, SymbolTable.name, hn, Option.getD_some]

/-- A built-in definition is in the table under the symbol of its name. -/
theorem lookup (h : v.HasBaseline) (hv : v.WellFormed) {d : String × Fixity × Nat}
    (hd : d ∈ baselineOperators) :
    ∃ s, v.lookup d.1 = some s ∧ (s, ⟨d.2.1, d.2.2⟩) ∈ v.operators.entries := by
  obtain ⟨⟨s, o⟩, he, rfl⟩ := List.mem_map.1 ((h d).2 hd)
  have hlt : s.index < v.symbols.names.size := hv.named _ he
  have hn : v.symbols.name? s = some (v.name s) := by
    simp [Vocabulary.name, SymbolTable.name, SymbolTable.name?, hlt]
  exact ⟨s, hv.symbols.lookup_of_name? hn, he⟩

end HasBaseline

end Vocabulary

namespace Parse

open Vocabulary

variable {v : Vocabulary} {k : TokenKind}

theorem operatorSymbol?_eq_none (name : String) (h : v.HasBaseline) (hk : k.name? = some name)
    (hn : ∀ d ∈ baselineOperators, d.1 ≠ Symbol.canonical name) : operatorSymbol? v k = none := by
  simp only [operatorSymbol?, hk]
  cases hs : v.lookup name with
  | none => rfl
  | some s =>
    refine if_neg fun ho => ?_
    obtain ⟨o, ho⟩ := Option.isSome_iff_exists.1 ho
    obtain ⟨⟨u, o⟩, he, rfl⟩ := Option.map_eq_some_iff.1 ho
    obtain rfl : u = s := by simpa using List.find?_some he
    have hm := h.mem (List.mem_of_find?_eq_some he)
    exact hn _ hm (HasBaseline.name_eq hs)

theorem operatorAt?_baseline (h : v.HasBaseline) (hv : v.WellFormed) {d : String × Fixity × Nat}
    (hd : d ∈ baselineOperators) (hk : k.name? = some d.1) :
    ∃ s, operatorAt? v d.2.1.placement k = some (s, ⟨d.2.1, d.2.2⟩) := by
  obtain ⟨s, hs, he⟩ := h.lookup hv hd
  refine ⟨s, (operatorAt?_eq_some d.1 hk).2 ⟨hs, ?_⟩⟩
  -- The list has one definition for each name and placement.
  have hone : ∀ d ∈ baselineOperators, ∀ e ∈ baselineOperators,
      d.1 = e.1 → d.2.1.placement = e.2.1.placement → d = e := by decide
  have hcanonical : ∀ d ∈ baselineOperators, Symbol.canonical d.1 = d.1 := by decide
  cases ho : v.operators.lookup s d.2.1.placement with
  | none =>
    have hnone := List.find?_eq_none.1 (Option.map_eq_none_iff.1 ho) _ he
    simp [Operator.placement] at hnone
  | some o =>
    obtain ⟨hm, hp⟩ := OperatorTable.mem_of_lookup ho
    have hname : v.name s = d.1 := (HasBaseline.name_eq hs).trans (hcanonical d hd)
    obtain rfl := hone _ (h.mem hm) d hd hname hp
    rfl

theorem operatorSymbol?_baseline (h : v.HasBaseline) (hv : v.WellFormed)
    {d : String × Fixity × Nat} (hd : d ∈ baselineOperators) (hk : k.name? = some d.1) {s : Symbol}
    (hs : v.lookup d.1 = some s) : operatorSymbol? v k = some s := by
  obtain ⟨u, hu⟩ := operatorAt?_baseline h hv hd hk
  obtain ⟨hu, ho⟩ := (operatorAt?_eq_some d.1 hk).1 hu
  obtain rfl : u = s := Option.some.inj (hu.symm.trans hs)
  have hop : v.isOperator u = true := OperatorTable.isOperator_of_lookup ho
  simp only [operatorSymbol?, hk, hs, hop, if_true]

/-- What is built in under a well-known name has the symbol of that name. -/
theorem operatorAt?_wellKnown (h : v.HasBaseline) (hv : v.WellFormed) {d : String × Fixity × Nat}
    (hd : d ∈ baselineOperators) (hk : k.name? = some d.1) {n : Nat}
    (hn : Symbol.wellKnown[n]? = some d.1) :
    operatorAt? v d.2.1.placement k = some (⟨n⟩, ⟨d.2.1, d.2.2⟩) := by
  obtain ⟨s, hs⟩ := operatorAt?_baseline h hv hd hk
  have hlookup := ((operatorAt?_eq_some d.1 hk).1 hs).1
  have hname : v.lookup d.1 = some ⟨n⟩ := hv.symbols.lookup_of_name? (hv.symbols.name?_wellKnown hn)
  obtain rfl := Option.some.inj (hlookup.symm.trans hname)
  exact hs

/-- A token is no operator where no built-in one of its name may stand. -/
theorem operatorAt?_eq_none_of_hasBaseline (h : v.HasBaseline) (k : TokenKind) (p : Placement)
    (hn : ∀ d ∈ baselineOperators, d.2.1.placement = p → ∀ n, k.name? = some n → d.1 ≠ Symbol.canonical n) :
    operatorAt? v p k = none := by
  cases hat : operatorAt? v p k with
  | none => rfl
  | some e =>
    obtain ⟨s, o⟩ := e
    cases hname : k.name? with
    | none => simp [operatorAt?, operatorSymbol?, hname] at hat
    | some n =>
      obtain ⟨hs, ho⟩ := (operatorAt?_eq_some n hname).1 hat
      obtain ⟨hm, hp⟩ := OperatorTable.mem_of_lookup ho
      exact absurd (HasBaseline.name_eq hs) (hn _ (h.mem hm) hp n hname)

/-- No built-in operator stands after its operand. -/
theorem operatorAt?_afterOperand (h : v.HasBaseline) (k : TokenKind) :
    operatorAt? v .afterOperand k = none :=
  operatorAt?_eq_none_of_hasBaseline h k _ fun d hd hp => absurd hp
    ((by decide : ∀ d ∈ baselineOperators, d.2.1.placement ≠ .afterOperand) d hd)

/-- The comma is looser than the elements of a list. -/
theorem operatorBehind?_comma (h : v.HasBaseline) (hv : v.WellFormed) (following : TokenKind) :
    ∃ s o, operatorBehind? v (.symbolic ",") following = some (s, o) ∧
      o.precedence < Precedence.listElement := by
  have hd : (",", Fixity.infixRight, 110) ∈ baselineOperators := by decide
  obtain ⟨s, hs⟩ := operatorAt?_baseline (k := .symbolic ",") h hv hd rfl
  have hb : operatorAt? v .betweenOperands (.symbolic ",") = _ := hs
  refine ⟨s, ⟨.infixRight, 110⟩, ?_, by decide⟩
  rw [operatorBehind?, hb, operatorAt?_afterOperand h]

/-- A token that may begin an argument is no operator. -/
theorem operatorSymbol?_of_startsArgument (h : startsArgument v k = true) :
    operatorSymbol? v k = none := by
  cases k <;> simp_all [startsArgument, operatorSymbol?, TokenKind.name?]

theorem operatorAt?_of_startsArgument (h : startsArgument v k = true) (p : Placement) :
    operatorAt? v p k = none := by
  rw [operatorAt?, operatorSymbol?_of_startsArgument h]

theorem operatorBefore?_of_startsArgument (h : startsArgument v k = true) (following : TokenKind) :
    operatorBefore? v k following = none := by
  rw [operatorBefore?, operatorAt?_of_startsArgument h]

end Parse

end Clausal
