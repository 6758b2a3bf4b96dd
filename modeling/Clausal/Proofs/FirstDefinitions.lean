import Clausal.Proofs.Interchangeable
import Clausal.Proofs.OperatorRows

/-!
# The first definition stays

Operators may be declared one after the other, in range or not, with the same definition again or with a
different one. The table then holds for each name and placement what has been declared first, whatever has
been refused in between, and a declaration that is refused leaves no trace.
-/
namespace Clausal

/-- A declaration of an operator, in range or not. -/
structure OperatorDeclaration where
  name : String
  fixity : Fixity
  precedence : Int
  deriving DecidableEq, Repr

namespace OperatorDeclaration

/-- The operator that is declared, if it is in range. -/
def operator? (d : OperatorDeclaration) : Option Operator :=
  if d.precedence < Precedence.lowest ∨ (Precedence.tightest : Int) < d.precedence then none
  else some ⟨d.fixity, d.precedence.toNat⟩

/-- The operator that is declared for a name. -/
def for? (name : String) (d : OperatorDeclaration) : Option Operator :=
  if Symbol.canonical d.name = Symbol.canonical name then d.operator? else none

/-- The first operator that is declared for a name in a placement. -/
def first? (ds : List OperatorDeclaration) (name : String) (p : Placement) : Option Operator :=
  ds.findSome? fun d => (d.for? name).filter fun o => o.placement = p

/-- The first operator that is declared for a name, in whichever placement. -/
def earliest? (ds : List OperatorDeclaration) (name : String) : Option Operator :=
  ds.findSome? (for? name)

def apply (d : OperatorDeclaration) (v : Vocabulary) : Except TermError Symbol × Vocabulary :=
  v.defineOperator d.name d.fixity d.precedence

def applyRows (d : OperatorDeclaration) (names : SymbolTable) (t : OperatorRows) :
    Except TermError Symbol × SymbolTable × OperatorRows :=
  t.defineOperator names d.name d.fixity d.precedence

end OperatorDeclaration

/-- The vocabulary behind declarations, of which some may have been refused. -/
def Vocabulary.declareAll (v : Vocabulary) (ds : List OperatorDeclaration) : Vocabulary :=
  ds.foldl (fun v d => (d.apply v).2) v

/-- The names and the rows behind declarations. -/
def OperatorRows.declareAll (t : OperatorRows) (names : SymbolTable) (ds : List OperatorDeclaration) :
    SymbolTable × OperatorRows :=
  ds.foldl (fun x d => (d.applyRows x.1 x.2).2) (names, t)

namespace OperatorDeclaration

variable {v w : Vocabulary} {d : OperatorDeclaration} {o old : Operator} {e : TermError}

theorem operator?_addition (d : OperatorDeclaration) (name : String) :
    (Addition.operator d.name d.fixity d.precedence).operator? name = d.for? name := by
  by_cases hname : Symbol.canonical d.name = Symbol.canonical name <;>
    simp [Addition.operator?, for?, operator?, hname]

theorem definition?_apply (hv : v.WellFormed) (d : OperatorDeclaration) (name : String)
    (p : Placement) : (d.apply v).2.definition? name p =
      (v.definition? name p).or ((d.for? name).filter fun o => o.placement = p) := by
  rw [← d.operator?_addition]
  exact (Addition.operator d.name d.fixity d.precedence).definition?_apply hv name p

theorem earliest?_apply (hv : v.WellFormed) (d : OperatorDeclaration) (name : String) :
    (d.apply v).2.earliest? name = (v.earliest? name).or (d.for? name) := by
  rw [← d.operator?_addition]
  exact (Addition.operator d.name d.fixity d.precedence).earliest?_apply hv name

/-- A declaration out of range does nothing. -/
theorem apply_of_none (h : d.operator? = none) :
    d.apply v = (.error (.outOfRange d.name d.precedence), v) := by
  unfold operator? at h
  split_ifs at h with hp
  exact if_pos hp

/-- A name that has a definition stands in the table, and interning it changes nothing. -/
theorem intern_of_definition? {name : String} {p : Placement} (h : v.definition? name p = some o) :
    ∃ s, v.intern name = (s, v) ∧ v.operators.lookup s p = some o := by
  obtain ⟨s, hs, ho⟩ := Option.bind_eq_some_iff.1 h
  have hintern : v.symbols.intern name = (s, v.symbols) := SymbolTable.intern_of_lookup hs
  exact ⟨s, by rw [Vocabulary.intern, hintern], ho⟩

/-- A declaration of what is there is accepted and changes nothing. -/
theorem apply_of_same (hd : d.operator? = some o) (h : v.definition? d.name o.placement = some o) :
    ∃ s, d.apply v = (.ok s, v) := by
  obtain ⟨s, hs, ho⟩ := intern_of_definition? h
  unfold operator? at hd
  split_ifs at hd with hp
  obtain rfl := Option.some.inj hd
  have hdefine : v.operators.define s ⟨d.fixity, d.precedence.toNat⟩ = .ok v.operators := by
    rw [OperatorTable.define, ho]
    exact if_pos rfl
  refine ⟨s, ?_⟩
  rw [apply, Vocabulary.defineOperator, if_neg hp, hs]
  dsimp only
  rw [hdefine]

/-- A declaration of anything else is refused and changes nothing. -/
theorem apply_of_other (hd : d.operator? = some o) (h : v.definition? d.name o.placement = some old)
    (hne : old ≠ o) : d.apply v = (.error (.redefinition d.name old o), v) := by
  obtain ⟨s, hs, ho⟩ := intern_of_definition? h
  unfold operator? at hd
  split_ifs at hd with hp
  obtain rfl := Option.some.inj hd
  have hdefine : v.operators.define s ⟨d.fixity, d.precedence.toNat⟩ = .error old :=
    OperatorTable.define_eq_error_iff.2 ⟨ho, hne⟩
  rw [apply, Vocabulary.defineOperator, if_neg hp, hs]
  dsimp only
  rw [hdefine]

/-- A declaration where there is nothing yet is accepted. -/
theorem apply_of_new (hv : v.WellFormed) (hd : d.operator? = some o)
    (h : v.definition? d.name o.placement = none) : (d.apply v).1 = .ok (v.intern d.name).1 := by
  unfold operator? at hd
  split_ifs at hd with hp
  obtain rfl := Option.some.inj hd
  have hnone : v.definition? d.name d.fixity.placement = none := h
  rw [apply, Vocabulary.defineOperator_fst hv, if_neg hp, hnone]

/-- Refused is what is out of range, and what differs from the definition that is there. -/
theorem apply_eq_error_iff (hv : v.WellFormed) : (∃ e, (d.apply v).1 = .error e) ↔
    d.operator? = none ∨ ∃ o old, d.operator? = some o ∧
      v.definition? d.name o.placement = some old ∧ old ≠ o := by
  cases hd : d.operator? with
  | none => simp [apply_of_none hd]
  | some o =>
    cases ho : v.definition? d.name o.placement with
    | none => simp [apply_of_new hv hd ho, ho]
    | some old =>
      by_cases hne : old = o
      · subst hne
        obtain ⟨s, hs⟩ := apply_of_same hd ho
        simp [hs, ho]
      · simp [apply_of_other hd ho hne, ho, hne]

/-- What is refused leaves the vocabulary as it is, its names included. -/
theorem apply_of_error (hv : v.WellFormed) (h : (d.apply v).1 = .error e) : (d.apply v).2 = v := by
  rcases (apply_eq_error_iff hv).1 ⟨e, h⟩ with hd | ⟨o, old, hd, ho, hne⟩
  · rw [apply_of_none hd]
  · rw [apply_of_other hd ho hne]

/-- What is accepted gives the symbol of its name. -/
theorem name?_of_apply (hv : v.WellFormed) {s : Symbol} (h : (d.apply v).1 = .ok s) :
    (d.apply v).2.symbols.name? s = some (Symbol.canonical d.name) := by
  rw [apply, Vocabulary.defineOperator_fst hv] at h
  split_ifs at h with hp
  have hs : s = (v.intern d.name).1 := by
    split at h
    · exact (Except.ok.inj h).symm
    · split_ifs at h
      exact (Except.ok.inj h).symm
  obtain ⟨operators, hafter, -⟩ := Addition.defineOperator_snd (v := v) (n := d.name) (f := d.fixity) hp
  rw [hs, apply, hafter]
  exact v.symbols.name?_intern d.name

end OperatorDeclaration

namespace Vocabulary

open OperatorDeclaration

variable {v w : Vocabulary}

/-- The definition of a name in a placement, after declarations: that of the vocabulary, or else the first that
is declared. -/
def firstOf (v : Vocabulary) (ds : List OperatorDeclaration) (name : String) (p : Placement) :
    Option Operator :=
  (v.definition? name p).or (first? ds name p)

/-- The earliest definition of a name after declarations. -/
def earliestOf (v : Vocabulary) (ds : List OperatorDeclaration) (name : String) : Option Operator :=
  (v.earliest? name).or (OperatorDeclaration.earliest? ds name)

theorem Reachable.declareAll (hv : v.Reachable) (ds : List OperatorDeclaration) :
    (v.declareAll ds).Reachable := by
  induction ds generalizing v with
  | nil => exact hv
  | cons d rest ih => exact ih (hv.defineOperator d.name d.fixity d.precedence)

theorem Reachable.definition?_declareAll (hv : v.Reachable) (ds : List OperatorDeclaration)
    (name : String) (p : Placement) :
    (v.declareAll ds).definition? name p = v.firstOf ds name p := by
  induction ds generalizing v with
  | nil => exact (Option.or_none).symm
  | cons d rest ih =>
    have hnext : (d.apply v).2.Reachable := hv.defineOperator d.name d.fixity d.precedence
    rw [Vocabulary.declareAll, List.foldl_cons]
    refine (ih hnext).trans ?_
    rw [firstOf, firstOf, definition?_apply hv.wellFormed, Option.or_assoc, first?, first?,
      List.findSome?_cons]
    cases (d.for? name).filter fun o => o.placement = p <;> rfl

theorem Reachable.earliest?_declareAll (hv : v.Reachable) (ds : List OperatorDeclaration)
    (name : String) : (v.declareAll ds).earliest? name = v.earliestOf ds name := by
  induction ds generalizing v with
  | nil => exact (Option.or_none).symm
  | cons d rest ih =>
    have hnext : (d.apply v).2.Reachable := hv.defineOperator d.name d.fixity d.precedence
    rw [Vocabulary.declareAll, List.foldl_cons]
    refine (ih hnext).trans ?_
    rw [earliestOf, earliestOf, earliest?_apply hv.wellFormed, Option.or_assoc,
      OperatorDeclaration.earliest?, OperatorDeclaration.earliest?, List.findSome?_cons]
    cases d.for? name <;> rfl

/-- What is defined for a symbol is what is defined for its name. -/
theorem WellFormed.lookup_eq (hv : v.WellFormed) (s : Symbol) (p : Placement) :
    v.operators.lookup s p = (v.symbols.name? s).bind fun name => v.definition? name p := by
  cases hs : v.symbols.name? s with
  | none =>
    exact hv.lookup_eq_none (Array.getElem?_eq_none_iff.1 hs) p
  | some name =>
    have hl : v.lookup name = some s := hv.symbols.lookup_of_name? hs
    rw [Option.bind_some, definition?, hl, Option.bind_some]

theorem WellFormed.operators_first?_eq (hv : v.WellFormed) {s : Symbol} {name : String}
    (hs : v.symbols.name? s = some name) : v.operators.first? s = v.earliest? name := by
  have hl : v.lookup name = some s := hv.symbols.lookup_of_name? hs
  rw [earliest?, hl, Option.bind_some]

theorem WellFormed.isSome_earliest?_iff (hv : v.WellFormed) {name : String}
    (hname : name ∈ v.symbols.names.toList) :
    (v.earliest? name).isSome = true ↔ ∃ e ∈ v.operators.entries, v.symbols.name? e.1 = some name := by
  obtain ⟨i, hi, rfl⟩ := List.mem_iff_getElem.1 hname
  have hs : v.symbols.name? ⟨i⟩ = some v.symbols.names.toList[i] := by
    rw [SymbolTable.name?, ← Array.getElem?_toList, List.getElem?_eq_getElem hi]
  rw [← hv.operators_first?_eq hs, OperatorTable.first?, Option.isSome_map, List.find?_isSome]
  constructor
  · rintro ⟨e, he, hkey⟩
    have hone : e.1 = ⟨i⟩ := by simpa using hkey
    exact ⟨e, he, hone ▸ hs⟩
  · rintro ⟨e, he, hkey⟩
    have hone : e.1 = ⟨i⟩ := by
      have h₁ := hv.symbols.lookup_of_name? hkey
      rw [hv.symbols.lookup_of_name? hs] at h₁
      exact (Option.some.inj h₁).symm
    exact ⟨e, he, by simp [hone]⟩

/-- The names of the symbols with a definition are the names with one. -/
theorem WellFormed.mem_operatorNames_iff (hv : v.WellFormed) (name : String) :
    name ∈ (v.operators.entries.map (·.1)).eraseDups.map v.name ↔
      name ∈ v.symbols.names.toList ∧ (v.earliest? name).isSome = true := by
  rw [List.mem_map]
  constructor
  · rintro ⟨s, hs, rfl⟩
    obtain ⟨e, he, rfl⟩ := List.mem_map.1 (List.mem_eraseDups.1 hs)
    obtain ⟨name, hname⟩ : ∃ name, v.symbols.name? e.1 = some name :=
      ⟨_, Array.getElem?_eq_getElem (hv.named e he)⟩
    have hmem : name ∈ v.symbols.names.toList := Array.mem_toList_iff.2 (Array.mem_of_getElem? hname)
    rw [Vocabulary.name, SymbolTable.name, hname]
    exact ⟨hmem, (hv.isSome_earliest?_iff hmem).2 ⟨e, he, hname⟩⟩
  · rintro ⟨hmem, hsome⟩
    obtain ⟨e, he, hs⟩ := (hv.isSome_earliest?_iff hmem).1 hsome
    refine ⟨e.1, List.mem_eraseDups.2 (List.mem_map_of_mem he), ?_⟩
    rw [Vocabulary.name, SymbolTable.name, hs]
    rfl

theorem WellFormed.nodup_operatorNames (hv : v.WellFormed) :
    ((v.operators.entries.map (·.1)).eraseDups.map v.name).Nodup := by
  have hname : ∀ s ∈ (v.operators.entries.map (·.1)).eraseDups,
      ∃ name, v.symbols.name? s = some name := by
    intro s hs
    obtain ⟨e, he, rfl⟩ := List.mem_map.1 (List.mem_eraseDups.1 hs)
    exact ⟨_, Array.getElem?_eq_getElem (hv.named e he)⟩
  refine (OperatorTable.nodup_eraseDups _).map_on fun s hs u hu he => ?_
  obtain ⟨a, ha⟩ := hname s hs
  obtain ⟨b, hb⟩ := hname u hu
  rw [Vocabulary.name, Vocabulary.name, SymbolTable.name, SymbolTable.name, ha, hb] at he
  obtain rfl : a = b := he
  exact hv.eq_of_sameName ⟨a, ha, hb⟩

/-- There are as many operators as there are names with a definition. -/
theorem WellFormed.size_operators (hv : v.WellFormed) :
    v.operators.size = v.symbols.names.toList.countP fun name => (v.earliest? name).isSome := by
  have hperm : ((v.operators.entries.map (·.1)).eraseDups.map v.name).Perm
      (v.symbols.names.toList.filter fun name => (v.earliest? name).isSome) := by
    refine (List.perm_ext_iff_of_nodup hv.nodup_operatorNames (hv.symbols.distinct.filter _)).2
      fun name => ?_
    rw [hv.mem_operatorNames_iff, List.mem_filter]
  rw [OperatorTable.size, ← List.length_map (f := v.name), hperm.length_eq, List.countP_eq_length_filter]

end Vocabulary

/-- Behind declarations `ds`, a vocabulary `w` holds the first definition for each name and placement,
counted from the definitions of `v`, and nothing else. -/
structure FirstWins (v : Vocabulary) (ds : List OperatorDeclaration) (w : Vocabulary) : Prop where
  definition : ∀ name p, w.definition? name p = v.firstOf ds name p
  lookup : ∀ s p, w.operators.lookup s p =
    (w.symbols.name? s).bind fun name => v.firstOf ds name p
  slot : ∀ s p o, w.operators.lookup s p = some o → o.placement = p
  /-- The reported precedence is that of the earliest definition, and missing if there is none. -/
  reported : ∀ s name, w.symbols.name? s = some name →
    w.operator s = (v.earliestOf ds name).elim (.error (.unknownFixity name)) .ok
  unreported : ∀ name, v.earliestOf ds name = none ↔ ∀ p, v.firstOf ds name p = none
  size : w.operators.size =
    w.symbols.names.toList.countP fun name => (v.earliestOf ds name).isSome
  fails_iff : ∀ d : OperatorDeclaration, (∃ e, (d.apply w).1 = .error e) ↔
    d.operator? = none ∨ ∃ o old, d.operator? = some o ∧
      v.firstOf ds d.name o.placement = some old ∧ old ≠ o
  failing : ∀ (d : OperatorDeclaration) e, (d.apply w).1 = .error e → (d.apply w).2 = w
  repeated : ∀ (d : OperatorDeclaration) o, d.operator? = some o →
    v.firstOf ds d.name o.placement = some o → ∃ s, d.apply w = (.ok s, w)
  accepted : ∀ (d : OperatorDeclaration) s, (d.apply w).1 = .ok s →
    (d.apply w).2.symbols.name? s = some (Symbol.canonical d.name)

/-- The same of rows `t` and the names beside them, that answer like `w`. -/
structure FirstWinsInRows (v : Vocabulary) (ds : List OperatorDeclaration) (w : Vocabulary)
    (names : SymbolTable) (t : OperatorRows) : Prop where
  names_eq : names = w.symbols
  get : ∀ s p, (t.row s).get p = (names.name? s).bind fun name => v.firstOf ds name p
  slot : ∀ s p o, (t.row s).get p = some o → o.placement = p
  earliest : ∀ s name, names.name? s = some name → (t.row s).earliest? = v.earliestOf ds name
  size : t.size = names.names.toList.countP fun name => (v.earliestOf ds name).isSome
  answers : ∀ d : OperatorDeclaration, (d.applyRows names t).1 = (d.apply w).1
  failing : ∀ (d : OperatorDeclaration) e, (d.applyRows names t).1 = .error e →
    (d.applyRows names t).2 = (names, t)

namespace Vocabulary

open OperatorDeclaration

variable {v w : Vocabulary}

theorem earliest?_eq_none_iff {name : String} :
    v.earliest? name = none ↔ ∀ p, v.definition? name p = none := by
  cases hl : v.lookup name with
  | none => simp [earliest?, definition?, hl]
  | some s =>
    simp only [earliest?, definition?, hl, Option.bind_some]
    constructor
    · intro hfirst p
      refine Option.eq_none_iff_forall_ne_some.2 fun o ho => ?_
      have hmem := (OperatorTable.mem_of_lookup ho).1
      simpa using List.find?_eq_none.1 (Option.map_eq_none_iff.1 hfirst) _ hmem
    · intro hnone
      refine Option.eq_none_iff_forall_ne_some.2 fun o ho => ?_
      have hlookup := OperatorTable.lookup_of_first? ho
      rw [hnone] at hlookup
      cases hlookup

theorem Reachable.firstWins_declareAll (hv : v.Reachable) (ds : List OperatorDeclaration) :
    FirstWins v ds (v.declareAll ds) := by
  have hreach := hv.declareAll ds
  have hw := hreach.wellFormed
  have hdefinition := hv.definition?_declareAll ds
  have hearliest := hv.earliest?_declareAll ds
  refine {
    definition := hdefinition
    lookup := fun s p => ?lookup
    slot := fun s p o => OperatorTable.placement_of_lookup
    reported := fun s name hs => ?reported
    unreported := fun name => ?unreported
    size := ?size
    fails_iff := fun d => ?fails
    failing := fun d e => apply_of_error hw
    repeated := fun d o hd ho => apply_of_same hd ((hdefinition _ _).trans ho)
    accepted := fun d s => name?_of_apply hw }
  case lookup =>
    rw [hw.lookup_eq]
    simp only [hdefinition]
  case reported =>
    rw [operator, hw.operators_first?_eq hs, hearliest]
    cases v.earliestOf ds name with
    | some o => rfl
    | none =>
      have hname : (v.declareAll ds).name s = name := by
        rw [Vocabulary.name, SymbolTable.name, hs]
        rfl
      rw [hname]
      rfl
  case unreported =>
    rw [← hearliest, earliest?_eq_none_iff]
    simp only [hdefinition]
  case size =>
    rw [hw.size_operators]
    simp only [hearliest]
  case fails =>
    rw [apply_eq_error_iff hw]
    simp only [hdefinition]

/-- Rows that hold a table answer declarations like it, and hold it again. -/
theorem Reachable.holds_declareAll {t : OperatorRows} (ht : t.Holds v.operators)
    (ds : List OperatorDeclaration) :
    (t.declareAll v.symbols ds).1 = (v.declareAll ds).symbols ∧
      (t.declareAll v.symbols ds).2.Holds (v.declareAll ds).operators := by
  induction ds generalizing v t with
  | nil => exact ⟨rfl, ht⟩
  | cons d rest ih =>
    obtain ⟨t', happly, hholds, -⟩ := ht.defineOperator d.name d.fixity d.precedence
    have hrows : (t.declareAll v.symbols (d :: rest)) =
        t'.declareAll (d.apply v).2.symbols rest := by
      rw [OperatorRows.declareAll, List.foldl_cons, applyRows, happly]
      rfl
    rw [hrows]
    exact ih hholds

theorem Reachable.firstWinsInRows (hv : v.Reachable) (ds : List OperatorDeclaration)
    {t : OperatorRows} (ht : t.Holds v.operators) :
    FirstWinsInRows v ds (v.declareAll ds) (t.declareAll v.symbols ds).1
      (t.declareAll v.symbols ds).2 := by
  have hw := (hv.declareAll ds).wellFormed
  have hfirst := hv.firstWins_declareAll ds
  obtain ⟨hnames, hholds⟩ := holds_declareAll ht ds
  generalize (t.declareAll v.symbols ds).1 = names at hnames
  generalize (t.declareAll v.symbols ds).2 = t at hholds
  subst hnames
  refine {
    names_eq := rfl
    get := fun s p => ((hholds.row s).get p).trans (hfirst.lookup s p)
    slot := fun s p o ho => hfirst.slot s p o (((hholds.row s).get p).symm.trans ho)
    earliest := fun s name hs => ?earliest
    size := hholds.size_eq.trans hfirst.size
    answers := fun d => ?answers
    failing := fun d e he => ?failing }
  case earliest =>
    rw [(hholds.row s).earliest?, hw.operators_first?_eq hs, hv.earliest?_declareAll ds]
  case answers =>
    obtain ⟨t', happly, -⟩ := hholds.defineOperator d.name d.fixity d.precedence
    rw [applyRows, happly]
    rfl
  case failing =>
    obtain ⟨t', happly, -, hsame⟩ := hholds.defineOperator d.name d.fixity d.precedence
    rw [applyRows, happly] at he ⊢
    rw [hsame e he]
    have hkept := hfirst.failing d e he
    rw [OperatorDeclaration.apply] at hkept
    rw [hkept]

/-- Any sequence of declarations makes the table of first definitions, and so do rows. -/
theorem Reachable.firstWins (hv : v.Reachable) (ds : List OperatorDeclaration) :
    FirstWins v ds (v.declareAll ds) ∧
      ∀ t : OperatorRows, t.Holds v.operators →
        FirstWinsInRows v ds (v.declareAll ds) (t.declareAll v.symbols ds).1
          (t.declareAll v.symbols ds).2 :=
  ⟨hv.firstWins_declareAll ds, fun _ ht => hv.firstWinsInRows ds ht⟩

/-- An alias, a second placement, a redefinition and a precedence out of range. -/
def mixedDeclarations : List OperatorDeclaration :=
  [⟨"-", .infixLeft, 160⟩, ⟨"::", .infixRight, 150⟩, ⟨"-", .prefixOp, 190⟩,
    ⟨"cons", .infixRight, 140⟩, ⟨"quot", .infixOnly, 257⟩]

theorem firstWins_mixedDeclarations :
    FirstWins initial mixedDeclarations (initial.declareAll mixedDeclarations) ∧
      FirstWinsInRows initial mixedDeclarations (initial.declareAll mixedDeclarations)
        (OperatorRows.empty.declareAll initial.symbols mixedDeclarations).1
        (OperatorRows.empty.declareAll initial.symbols mixedDeclarations).2 ∧
      (initial.declareAll mixedDeclarations).operators.size = 2 := by
  obtain ⟨hwins, hrows⟩ := Reachable.initial.firstWins mixedDeclarations
  exact ⟨hwins, hrows .empty OperatorRows.holds_empty, by decide +kernel⟩

end Vocabulary

end Clausal
