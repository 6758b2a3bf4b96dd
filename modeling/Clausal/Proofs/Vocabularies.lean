import Clausal.Proofs.TermReading
import Mathlib.Data.List.Nodup

/-!
# Vocabularies as they arise

Every vocabulary grows from the initial one by interning names, minting fresh ones, pooling strings
and declaring operators. All of them hold each name once, in its canonical spelling, and have
operators only for names they hold. So a name that enters later is never an operator, and reading
a term does not change what the tokens behind it are.
-/
namespace Clausal

namespace SymbolTable

structure WellFormed (t : SymbolTable) : Prop where
  distinct : t.names.toList.Nodup
  canonical : ∀ name ∈ t.names, Symbol.canonical name = name
  wellKnown : Symbol.wellKnown <+: t.names.toList

theorem wellFormed_initial : initial.WellFormed := by
  refine ⟨by decide, ?_, by simp [initial]⟩
  intro name hn
  have hall : ∀ n ∈ Symbol.wellKnown, Symbol.canonical n = n := by decide
  exact hall name (by simpa [initial] using hn)

theorem lookup_intern (t : SymbolTable) (name other : String) :
    (t.intern name).2.lookup other = (t.lookup other).or
      (if Symbol.canonical name = Symbol.canonical other then some (t.intern name).1 else none) := by
  cases h : t.lookup name with
  | some s =>
    rw [intern_of_lookup h]
    cases ho : t.lookup other with
    | some u => rfl
    | none =>
      have hne : Symbol.canonical name ≠ Symbol.canonical other := by
        intro he
        rw [← lookup_canonical, he, lookup_canonical, ho] at h
        exact Option.some_ne_none s h.symm
      rw [if_neg hne]
      rfl
  | none =>
    rw [intern_of_lookup_eq_none h]
    simp only [lookup, Array.findIdx?_push, beq_iff_eq]
    cases t.names.findIdx? (· == Symbol.canonical other) with
    | some i => rfl
    | none => by_cases he : Symbol.canonical name = Symbol.canonical other <;> simp [he, size]

theorem index_lt_of_lookup {t : SymbolTable} {name : String} {s : Symbol}
    (h : t.lookup name = some s) : s.index < t.size := by
  obtain ⟨hlt, _⟩ := Array.getElem?_eq_some_iff.1 (name?_of_lookup h)
  exact hlt

/-- A name that enters the table has the next free symbol. -/
theorem intern_fst_index {t : SymbolTable} {name : String} (h : t.lookup name = none) :
    (t.intern name).1.index = t.size := by
  rw [intern_of_lookup_eq_none h]

theorem size_le_size_intern (t : SymbolTable) (name : String) : t.size ≤ (t.intern name).2.size := by
  cases h : t.lookup name with
  | some s => simp [intern_of_lookup h]
  | none => simp [intern_of_lookup_eq_none h, size]

theorem lookup_intern_self (t : SymbolTable) (name : String) :
    (t.intern name).2.lookup name = some (t.intern name).1 := by
  rw [lookup_intern, if_pos rfl]
  cases h : t.lookup name with
  | some s => rw [intern_of_lookup h]; rfl
  | none => rfl

theorem WellFormed.intern {t : SymbolTable} (h : t.WellFormed) (name : String) :
    (t.intern name).2.WellFormed := by
  cases hl : t.lookup name with
  | some s => simpa [intern_of_lookup hl] using h
  | none =>
    have hn : Symbol.canonical name ∉ t.names := by
      intro hm
      have hnone := Option.map_eq_none_iff.1 hl
      simpa using Array.findIdx?_eq_none_iff.1 hnone _ hm
    rw [intern_of_lookup_eq_none hl]
    refine ⟨?_, ?_, ?_⟩
    · simp only [Array.toList_push]
      refine List.nodup_append.2 ⟨h.distinct, by simp, ?_⟩
      rintro a ha b hb rfl
      obtain rfl := List.mem_singleton.1 hb
      exact hn (by simpa using ha)
    · intro other ho
      rcases Array.mem_push.1 ho with ho | rfl
      · exact h.canonical other ho
      · exact Symbol.canonical_idem name
    · exact h.wellKnown.trans (by simp)

/-- In a well-formed table a symbol is found by its name. -/
theorem WellFormed.lookup_of_name? {t : SymbolTable} (h : t.WellFormed) {s : Symbol}
    {name : String} (hs : t.name? s = some name) : t.lookup name = some s := by
  obtain ⟨hlt, hn⟩ := Array.getElem?_eq_some_iff.1 hs
  have hc : Symbol.canonical name = name := h.canonical name (hn ▸ Array.getElem_mem hlt)
  have hi : t.names.findIdx? (· == name) = some s.index := by
    refine Array.findIdx?_eq_some_iff_getElem.2 ⟨hlt, by simpa using hn, ?_⟩
    intro j hj
    have hjl : j < t.names.toList.length := by simpa using Nat.lt_trans hj hlt
    have hsl : s.index < t.names.toList.length := by simpa using hlt
    have hne : t.names.toList[j] ≠ t.names.toList[s.index] :=
      fun he => Nat.ne_of_lt hj ((List.Nodup.getElem_inj_iff h.distinct).1 he)
    simpa [hn] using hne
  simp [lookup, hc, hi]

/-- The well-known names have their symbols in every well-formed table. -/
theorem WellFormed.name?_wellKnown {t : SymbolTable} (h : t.WellFormed) {n : Nat} {name : String}
    (hn : Symbol.wellKnown[n]? = some name) : t.name? ⟨n⟩ = some name := by
  obtain ⟨more, hmore⟩ := h.wellKnown
  obtain ⟨hlt, -⟩ := List.getElem?_eq_some_iff.1 hn
  rw [name?, ← Array.getElem?_toList, ← hmore, List.getElem?_append_left hlt, hn]

end SymbolTable

namespace Vocabulary

structure WellFormed (v : Vocabulary) : Prop where
  symbols : v.symbols.WellFormed
  /-- Operators have names in the table. -/
  named : ∀ e ∈ v.operators.entries, e.1.index < v.symbols.size
  bounded : ∀ e ∈ v.operators.entries, e.2.precedence ≤ Precedence.tightest

/-- The vocabularies that a session can hold. -/
inductive Reachable : Vocabulary → Prop
  | initial : Reachable initial
  | intern {v : Vocabulary} (name : String) : Reachable v → Reachable (v.intern name).2
  | freshVariable {v : Vocabulary} : Reachable v → Reachable v.freshVariable.2
  | freshConstant {v : Vocabulary} : Reachable v → Reachable v.freshConstant.2
  | string {v : Vocabulary} (text : String) : Reachable v → Reachable (v.string text).2
  | defineOperator {v : Vocabulary} (name : String) (fixity : Fixity) (precedence : Int) :
      Reachable v → Reachable (v.defineOperator name fixity precedence).2
  | bootstrap {v : Vocabulary} : Reachable v → Reachable { v with bootstrapped := true }

theorem wellFormed_initial : initial.WellFormed :=
  ⟨SymbolTable.wellFormed_initial, by simp [initial, OperatorTable.empty],
    by simp [initial, OperatorTable.empty]⟩

theorem WellFormed.intern {v : Vocabulary} (h : v.WellFormed) (name : String) :
    (v.intern name).2.WellFormed :=
  ⟨h.symbols.intern name,
    fun e he => Nat.lt_of_lt_of_le (h.named e he) (v.symbols.size_le_size_intern name), h.bounded⟩

theorem WellFormed.withVariableCount {v : Vocabulary} (h : v.WellFormed) (n : Nat) :
    { v with symbols.variableCount := n }.WellFormed :=
  ⟨⟨h.symbols.distinct, h.symbols.canonical, h.symbols.wellKnown⟩, h.named, h.bounded⟩

theorem WellFormed.freshVariable {v : Vocabulary} (h : v.WellFormed) :
    v.freshVariable.2.WellFormed := (h.withVariableCount _).intern _

theorem WellFormed.freshConstant {v : Vocabulary} (h : v.WellFormed) :
    v.freshConstant.2.WellFormed :=
  WellFormed.intern (v := { v with symbols.constantCount := v.symbols.constantCount + 1 })
    ⟨⟨h.symbols.distinct, h.symbols.canonical, h.symbols.wellKnown⟩, h.named, h.bounded⟩ _

theorem string_snd (v : Vocabulary) (text : String) :
    ∃ strings, (v.string text).2 = { v with strings } := by
  unfold string
  split
  · exact ⟨v.strings, rfl⟩
  · exact ⟨v.strings.push text, rfl⟩

theorem WellFormed.string {v : Vocabulary} (h : v.WellFormed) (text : String) :
    (v.string text).2.WellFormed := by
  obtain ⟨strings, hs⟩ := v.string_snd text
  rw [hs]
  exact ⟨h.symbols, h.named, h.bounded⟩

theorem WellFormed.defineOperator {v : Vocabulary} (h : v.WellFormed) (name : String)
    (fixity : Fixity) (precedence : Int) :
    (v.defineOperator name fixity precedence).2.WellFormed := by
  unfold Vocabulary.defineOperator
  split_ifs with hp
  · exact h
  · have hi := h.intern name
    dsimp only
    cases hd : (v.intern name).2.operators.define (v.intern name).1 ⟨fixity, precedence.toNat⟩ with
    | error old => exact hi
    | ok operators =>
      have he : ∀ e ∈ operators.entries, e ∈ v.operators.entries ∨
          e = ((v.intern name).1, ⟨fixity, precedence.toNat⟩) := by
        intro e he
        unfold OperatorTable.define at hd
        split at hd
        · obtain rfl := Except.ok.inj hd
          exact (List.mem_append.1 he).imp_right List.mem_singleton.1
        · split_ifs at hd with ho
          obtain rfl := Except.ok.inj hd
          exact .inl he
      refine ⟨hi.symbols, fun e hm => ?_, fun e hm => ?_⟩
      · rcases he e hm with hm | rfl
        · exact hi.named e hm
        · exact SymbolTable.index_lt_of_lookup (v.symbols.lookup_intern_self name)
      · rcases he e hm with hm | rfl
        · exact h.bounded e hm
        · simp only [Precedence.lowest, not_or, Int.not_lt] at hp
          dsimp only
          omega

theorem Reachable.wellFormed {v : Vocabulary} (h : v.Reachable) : v.WellFormed := by
  induction h with
  | initial => exact wellFormed_initial
  | intern name _ ih => exact ih.intern name
  | freshVariable _ ih => exact ih.freshVariable
  | freshConstant _ ih => exact ih.freshConstant
  | string text _ ih => exact ih.string text
  | defineOperator name fixity precedence _ ih => exact ih.defineOperator name fixity precedence
  | bootstrap _ ih => exact ⟨ih.symbols, ih.named, ih.bounded⟩

end Vocabulary

namespace Parse

theorem operatorAt?_eq_some {v : Vocabulary} {p : Placement} {k : TokenKind} (name : String)
    {s : Symbol} {o : Operator} (hk : k.name? = some name) :
    operatorAt? v p k = some (s, o) ↔ v.lookup name = some s ∧ v.operators.lookup s p = some o := by
  simp only [operatorAt?, operatorSymbol?, hk]
  cases hs : v.lookup name with
  | none => simp
  | some u =>
    by_cases ho : v.isOperator u = true
    · simp only [if_pos ho, Option.map_eq_some_iff, Prod.mk.injEq, Option.some.injEq]
      constructor
      · rintro ⟨o', ho', rfl, rfl⟩
        exact ⟨rfl, ho'⟩
      · rintro ⟨rfl, ho'⟩
        exact ⟨o, ho', rfl, rfl⟩
    · simp only [if_neg ho, reduceCtorEq, Option.some.injEq, false_iff]
      rintro ⟨rfl, ho'⟩
      exact ho (OperatorTable.isOperator_of_lookup ho')

theorem operatorAt?_eq_none {v : Vocabulary} {p : Placement} {k : TokenKind} (name : String)
    (hk : k.name? = some name) :
    operatorAt? v p k = none ↔ ∀ s ∈ v.lookup name, v.operators.lookup s p = none := by
  rw [Option.eq_none_iff_forall_ne_some, Prod.forall]
  simp only [ne_eq, operatorAt?_eq_some name hk, not_and, Option.mem_def,
    Option.eq_none_iff_forall_ne_some]
  exact ⟨fun h s hs o => h s o hs, fun h s o hs => h s hs o⟩

/-- In the two vocabularies the same tokens are operators, with the same definitions. -/
structure SameOperators (v w : Vocabulary) : Prop where
  operators : w.operators = v.operators
  symbol : ∀ k, operatorSymbol? w k = operatorSymbol? v k

namespace SameOperators

variable {v w u : Vocabulary}

theorem refl (v : Vocabulary) : SameOperators v v := ⟨rfl, fun _ => rfl⟩

theorem trans (h : SameOperators v w) (g : SameOperators w u) : SameOperators v u :=
  ⟨g.operators.trans h.operators, fun k => (g.symbol k).trans (h.symbol k)⟩

theorem operatorAt (h : SameOperators v w) (p : Placement) (k : TokenKind) :
    operatorAt? w p k = operatorAt? v p k := by
  simp only [operatorAt?, h.symbol, h.operators]

theorem startsArgument (h : SameOperators v w) (k : TokenKind) :
    startsArgument w k = startsArgument v k := by
  simp only [Parse.startsArgument, h.symbol]

theorem startsTerm (h : SameOperators v w) (k : TokenKind) : startsTerm w k = startsTerm v k := by
  simp only [Parse.startsTerm, h.startsArgument, h.operatorAt]

theorem operatorBehind (h : SameOperators v w) (k following : TokenKind) :
    operatorBehind? w k following = operatorBehind? v k following := by
  simp only [operatorBehind?, h.operatorAt, h.startsTerm]

/-- A name that enters the table has no definition as an operator. -/
theorem intern (hv : v.WellFormed) (name : String) : SameOperators v (v.intern name).2 := by
  refine ⟨rfl, fun k => ?_⟩
  unfold operatorSymbol?
  cases k.name? with
  | none => rfl
  | some other =>
    have hl : (v.intern name).2.lookup other = (v.lookup other).or
        (if Symbol.canonical name = Symbol.canonical other then some (v.intern name).1 else none) :=
      v.symbols.lookup_intern name other
    cases ho : v.lookup other with
    | some s => simp only [hl, ho, Option.some_or]; rfl
    | none =>
      simp only [hl, ho, Option.none_or]
      split_ifs with hc
      · have hn : v.symbols.lookup name = none := by
          rw [← SymbolTable.lookup_canonical, hc, SymbolTable.lookup_canonical]
          exact ho
        have hnot : (v.intern name).2.isOperator (v.intern name).1 = false := by
          rw [← Bool.not_eq_true]
          intro hop
          simp only [Vocabulary.isOperator, OperatorTable.isOperator, OperatorTable.first?,
            Option.isSome_map, List.find?_isSome, beq_iff_eq] at hop
          obtain ⟨e, he, hs⟩ := hop
          have hlt := hv.named e he
          rw [hs] at hlt
          exact Nat.lt_irrefl _ (SymbolTable.intern_fst_index hn ▸ hlt)
        simp only [hnot, Bool.false_eq_true, if_false]
      · rfl

theorem freshVariable (hv : v.WellFormed) : SameOperators v v.freshVariable.2 := by
  let w : Vocabulary := { v with symbols.variableCount := v.symbols.variableCount + 1 }
  have h : SameOperators v w := ⟨rfl, fun _ => rfl⟩
  exact h.trans (intern (hv.withVariableCount _) _)

end SameOperators

end Parse

end Clausal
