import Clausal.Proofs.SharedNames

/-!
# Minted names

The names that a table mints have a hyphen and an underscore in them. As long as only other names are
written, the table holds no minted name but those that it has counted, so the next one is new to it.
-/
namespace Clausal

namespace SymbolTable

open Addition (variableCount_intern)

/-- No minted name is like this. -/
def Plain (name : String) : Prop := '-' ∉ name.toList ∨ '_' ∉ name.toList

theorem not_plain_variableName (n : Nat) : ¬ Plain (variableName n) := by
  simp [Plain, variableName]

theorem not_plain_constantName (n : Nat) : ¬ Plain (constantName n) := by
  simp [Plain, constantName]

theorem variableName_ne_constantName (m n : Nat) : variableName m ≠ constantName n := by
  intro h
  have hs := congrArg String.toList h
  simp [variableName, constantName] at hs

theorem plain_canonical {name : String} (h : Plain name) : Plain (Symbol.canonical name) := by
  unfold Symbol.canonical
  split_ifs
  · exact .inl (by decide)
  · exact .inl (by decide)
  · exact .inl (by decide)
  · exact h

/-- An older spelling of a well-known name is no minted name. -/
theorem canonical_of_not_plain {name : String} (h : ¬ Plain name) :
    Symbol.canonical name = name := by
  unfold Symbol.canonical
  split_ifs with hnil hcons hand
  · exact absurd (.inl (hnil ▸ by decide)) h
  · exact absurd (.inl (hcons ▸ by decide)) h
  · exact absurd (.inl (hand ▸ by decide)) h
  · rfl

/-- Every name of the table is plain, or it has been minted. -/
def Orderly (t : SymbolTable) : Prop :=
  ∀ name ∈ t.names, Plain name ∨ (∃ n ≤ t.variableCount, name = variableName n) ∨
    ∃ n, name = constantName n

theorem plain_of_mem_wellKnown {name : String} (h : name ∈ Symbol.wellKnown) : Plain name :=
  (show ∀ name ∈ Symbol.wellKnown, '-' ∉ name.toList ∨ '_' ∉ name.toList by decide) name h

theorem orderly_initial : initial.Orderly := by
  intro name hn
  exact .inl (plain_of_mem_wellKnown (by simpa [initial] using hn))

theorem names_intern (t : SymbolTable) (name : String) {held : String}
    (h : held ∈ (t.intern name).2.names) : held ∈ t.names ∨ held = Symbol.canonical name := by
  cases hl : t.lookup name with
  | some s => exact .inl (by simpa [intern_of_lookup hl] using h)
  | none => simpa [intern_of_lookup_eq_none hl] using h

variable {t : SymbolTable}

theorem Orderly.intern (h : t.Orderly) {name : String} (hn : Plain name) :
    (t.intern name).2.Orderly := by
  intro held hm
  rw [variableCount_intern]
  rcases t.names_intern name hm with hm | rfl
  · exact h held hm
  · exact .inl (plain_canonical hn)

theorem variableCount_freshVariable (t : SymbolTable) :
    t.freshVariable.2.variableCount = t.variableCount + 1 :=
  variableCount_intern _ _

theorem variableCount_freshConstant (t : SymbolTable) :
    t.freshConstant.2.variableCount = t.variableCount :=
  variableCount_intern _ _

theorem Orderly.freshVariable (h : t.Orderly) : t.freshVariable.2.Orderly := by
  intro held hm
  rw [variableCount_freshVariable]
  rcases names_intern _ _ hm with hm | rfl
  · rcases h held hm with hp | ⟨n, hn, rfl⟩ | hc
    · exact .inl hp
    · exact .inr (.inl ⟨n, Nat.le_succ_of_le hn, rfl⟩)
    · exact .inr (.inr hc)
  · exact .inr (.inl ⟨_, Nat.le_refl _, canonical_of_not_plain (not_plain_variableName _)⟩)

theorem Orderly.freshConstant (h : t.Orderly) : t.freshConstant.2.Orderly := by
  intro held hm
  rw [variableCount_freshConstant]
  rcases names_intern _ _ hm with hm | rfl
  · exact h held hm
  · exact .inr (.inr ⟨_, canonical_of_not_plain (not_plain_constantName _)⟩)

/-- The name that is minted next is not in the table. -/
theorem Orderly.variableName_notMem (h : t.Orderly) :
    variableName (t.variableCount + 1) ∉ t.names := by
  intro hm
  rcases h _ hm with hp | ⟨n, hn, he⟩ | ⟨n, he⟩
  · exact not_plain_variableName _ hp
  · have := variableName_injective he
    omega
  · exact variableName_ne_constantName _ n he

theorem Orderly.lookup_variableName (h : t.Orderly) :
    t.lookup (variableName (t.variableCount + 1)) = none := by
  have hcanonical := canonical_of_not_plain (not_plain_variableName (t.variableCount + 1))
  cases hl : t.lookup (variableName (t.variableCount + 1)) with
  | none => rfl
  | some s =>
    have hname := name?_of_lookup hl
    rw [hcanonical] at hname
    exact absurd (Array.mem_of_getElem? hname) h.variableName_notMem

theorem Orderly.freshVariable_eq (h : t.Orderly) :
    t.freshVariable = (⟨t.size⟩, { t with
      names := t.names.push (variableName (t.variableCount + 1))
      variableCount := t.variableCount + 1 }) := by
  have hl : ({ t with variableCount := t.variableCount + 1 } : SymbolTable).lookup
      (variableName (t.variableCount + 1)) = none := h.lookup_variableName
  rw [SymbolTable.freshVariable, intern_of_lookup_eq_none hl,
    canonical_of_not_plain (not_plain_variableName _)]
  rfl

end SymbolTable

/-- A name is written, or one is minted. The table is that in front of the minting. -/
inductive Naming where
  | written (name : String)
  | anonymous (table : SymbolTable)
  | constant (table : SymbolTable)

namespace Naming

open SymbolTable
open Addition (variableCount_intern)

/-- The table in front of the minting of an anonymous variable. -/
def anonymous? : Naming → Option SymbolTable
  | anonymous table => some table
  | _ => none

theorem filterMap_anonymous (t : SymbolTable) (E : List Naming) :
    (anonymous t :: E).filterMap anonymous? = t :: E.filterMap anonymous? := rfl

theorem mem_filterMap_anonymous {t : SymbolTable} {E : List Naming} :
    t ∈ E.filterMap anonymous? ↔ anonymous t ∈ E := by
  rw [List.mem_filterMap]
  constructor
  · rintro ⟨n, hn, ht⟩
    cases n <;> simp only [anonymous?, Option.some.injEq, reduceCtorEq] at ht
    exact ht ▸ hn
  · exact fun h => ⟨_, h, rfl⟩

/-- From one table to another. -/
inductive Leads : SymbolTable → List Naming → SymbolTable → Prop
  | nil (t : SymbolTable) : Leads t [] t
  | written {t u : SymbolTable} {E : List Naming} (name : String) (h : Leads (t.intern name).2 E u) :
      Leads t (.written name :: E) u
  | anonymous {t u : SymbolTable} {E : List Naming} (h : Leads t.freshVariable.2 E u) :
      Leads t (.anonymous t :: E) u
  | constant {t u : SymbolTable} {E : List Naming} (h : Leads t.freshConstant.2 E u) :
      Leads t (.constant t :: E) u

/-- All names that are written are plain. -/
def AllPlain (E : List Naming) : Prop := ∀ name, written name ∈ E → Plain name

theorem allPlain_nil : AllPlain [] := fun _ h => nomatch h

theorem allPlain_written {name : String} (h : Plain name) : AllPlain [.written name] := by
  intro n hn
  obtain rfl := Naming.written.inj (List.mem_singleton.1 hn)
  exact h

theorem allPlain_anonymous (t : SymbolTable) : AllPlain [.anonymous t] := by
  simp [AllPlain]

theorem allPlain_constant (t : SymbolTable) : AllPlain [.constant t] := by
  simp [AllPlain]

theorem allPlain_append {E F : List Naming} (hE : AllPlain E) (hF : AllPlain F) :
    AllPlain (E ++ F) := fun name h => (List.mem_append.1 h).elim (hE name) (hF name)

namespace Leads

variable {t u w : SymbolTable} {E F : List Naming}

theorem append (h : Leads t E u) (g : Leads u F w) : Leads t (E ++ F) w := by
  induction h with
  | nil => exact g
  | written name _ ih => exact .written name (ih g)
  | anonymous _ ih => exact .anonymous (ih g)
  | constant _ ih => exact .constant (ih g)

/-- What the table holds stays. -/
theorem name?_of_name? (h : Leads t E u) {s : Symbol} {name : String} (hs : t.name? s = some name) :
    u.name? s = some name := by
  induction h with
  | nil => exact hs
  | written _ _ ih => exact ih (name?_intern_of_name? _ hs)
  | anonymous _ ih => exact ih (name?_intern_of_name? _ hs)
  | constant _ ih => exact ih (name?_intern_of_name? _ hs)

/-- Every anonymous variable is counted. -/
theorem variableCount_eq (h : Leads t E u) :
    u.variableCount = t.variableCount + (E.filterMap anonymous?).length := by
  induction h with
  | nil => rfl
  | written name _ ih => rw [ih, variableCount_intern]; rfl
  | anonymous _ ih =>
    rw [ih, variableCount_freshVariable, filterMap_anonymous, List.length_cons]
    omega
  | constant _ ih =>
    rw [ih, variableCount_freshConstant]
    rfl

theorem orderly (h : Leads t E u) (hE : AllPlain E) (ht : t.Orderly) : u.Orderly := by
  induction h with
  | nil => exact ht
  | written name _ ih =>
    exact ih (fun n hn => hE n (List.mem_cons_of_mem _ hn)) (ht.intern (hE name List.mem_cons_self))
  | anonymous _ ih => exact ih (fun n hn => hE n (List.mem_cons_of_mem _ hn)) ht.freshVariable
  | constant _ ih => exact ih (fun n hn => hE n (List.mem_cons_of_mem _ hn)) ht.freshConstant

/-- Every anonymous variable finds its table orderly, and keeps its name. -/
theorem anonymous_spec (h : Leads t E u) (hE : AllPlain E) (ht : t.Orderly) {a : SymbolTable}
    (ha : .anonymous a ∈ E) :
    a.Orderly ∧ u.name? a.freshVariable.1 = some (variableName (a.variableCount + 1)) := by
  induction h with
  | nil => cases ha
  | written name _ ih =>
    exact ih (fun n hn => hE n (List.mem_cons_of_mem _ hn)) (ht.intern (hE name List.mem_cons_self))
      (by simpa using ha)
  | @anonymous t u E h ih =>
    rcases List.mem_cons.1 ha with he | ha
    · obtain rfl := Naming.anonymous.inj he
      refine ⟨ht, h.name?_of_name? ?_⟩
      rw [ht.freshVariable_eq]
      simp [name?, size]
    · exact ih (fun n hn => hE n (List.mem_cons_of_mem _ hn)) ht.freshVariable ha
  | constant _ ih =>
    exact ih (fun n hn => hE n (List.mem_cons_of_mem _ hn)) ht.freshConstant (by simpa using ha)

/-- A minted constant keeps its name. -/
theorem constant_spec (h : Leads t E u) {c : SymbolTable} (hc : .constant c ∈ E) :
    u.name? c.freshConstant.1 = some (constantName (c.constantCount + 1)) := by
  induction h with
  | nil => cases hc
  | written _ _ ih | anonymous _ ih => exact ih (by simpa using hc)
  | @constant t _ _ h ih =>
    rcases List.mem_cons.1 hc with he | hc
    · obtain rfl := Naming.constant.inj he
      refine h.name?_of_name? ((name?_intern _ _).trans ?_)
      rw [canonical_of_not_plain (not_plain_constantName _)]
    · exact ih hc

/-- Anonymous variables are counted up. -/
theorem anonymous_increasing (h : Leads t E u) :
    (E.filterMap anonymous?).Pairwise (fun a b => a.variableCount < b.variableCount) ∧
      ∀ a ∈ E.filterMap anonymous?, t.variableCount ≤ a.variableCount := by
  induction h with
  | nil => exact ⟨.nil, by simp⟩
  | written name _ ih =>
    rw [variableCount_intern] at ih
    exact ih
  | @anonymous t u E _ ih =>
    obtain ⟨hpairs, hcounts⟩ := ih
    rw [variableCount_freshVariable] at hcounts
    rw [filterMap_anonymous]
    refine ⟨List.pairwise_cons.2 ⟨hcounts, hpairs⟩, ?_⟩
    exact List.forall_mem_cons.2 ⟨Nat.le_refl _, fun a ha => Nat.le_of_succ_le (hcounts a ha)⟩
  | constant _ ih =>
    rw [variableCount_freshConstant] at ih
    exact ih

end Leads

end Naming

end Clausal
