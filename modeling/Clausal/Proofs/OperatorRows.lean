import Clausal.Proofs.SharedNames

/-!
# Operators in rows

A table can also keep a row for each symbol, with a slot for each placement and a mark at the placement
that came first. A row is then made before anything is checked, and an operator is refused for what stands
in its slot. That is the same table: a row is only left without an operator by a definition that is
accepted, so that a refusal leaves nothing behind.
-/
namespace Clausal

/-- The definitions of one symbol. -/
structure OperatorRow where
  before : Option Operator
  between : Option Operator
  after : Option Operator
  /-- The placement that has been defined first. -/
  first : Option Placement
  deriving DecidableEq, Repr

namespace OperatorRow

def empty : OperatorRow := ⟨none, none, none, none⟩

def get (r : OperatorRow) : Placement → Option Operator
  | .beforeOperand => r.before
  | .betweenOperands => r.between
  | .afterOperand => r.after

def earliest? (r : OperatorRow) : Option Operator := r.first.bind r.get

/-- Fills the slot of an operator. -/
def put (r : OperatorRow) (o : Operator) : OperatorRow :=
  let first := r.first.or (some o.placement)
  match o.placement with
  | .beforeOperand => { r with before := some o, first }
  | .betweenOperands => { r with between := some o, first }
  | .afterOperand => { r with after := some o, first }

theorem first_put (r : OperatorRow) (o : Operator) :
    (r.put o).first = r.first.or (some o.placement) := by
  unfold put
  cases o.placement <;> rfl

theorem get_put (r : OperatorRow) (o : Operator) (p : Placement) :
    (r.put o).get p = if o.placement = p then some o else r.get p := by
  unfold put
  cases o.placement <;> cases p <;> rfl

end OperatorRow

/-- The rows, in the order in which they were made. -/
structure OperatorRows where
  rows : List (Symbol × OperatorRow)
  deriving DecidableEq, Repr

namespace OperatorRows

def empty : OperatorRows := ⟨[]⟩

def size (t : OperatorRows) : Nat := t.rows.length

/-- The row of a symbol. -/
def row (t : OperatorRows) (s : Symbol) : OperatorRow :=
  ((t.rows.find? (·.1 == s)).map (·.2)).getD .empty

/-- Makes a row for a symbol, unless it has one. -/
def enter (t : OperatorRows) (s : Symbol) : OperatorRows :=
  if s ∈ t.rows.map (·.1) then t else ⟨t.rows ++ [(s, .empty)]⟩

/-- Fills a slot in the row of a symbol. -/
def put (t : OperatorRows) (s : Symbol) (o : Operator) : OperatorRows :=
  ⟨t.rows.map fun e => if e.1 = s then (e.1, e.2.put o) else e⟩

/-- Adds a definition, or gives the different one that is in its slot. -/
def define (t : OperatorRows) (s : Symbol) (o : Operator) : Except Operator Unit × OperatorRows :=
  let t := t.enter s
  match (t.row s).get o.placement with
  | none => (.ok (), t.put s o)
  | some old => if old = o then (.ok (), t) else (.error old, t)

/-- Declares an operator, with the names in a table beside the rows. -/
def defineOperator (names : SymbolTable) (t : OperatorRows) (name : String) (fixity : Fixity)
    (precedence : Int) : Except TermError Symbol × SymbolTable × OperatorRows :=
  if precedence < Precedence.lowest ∨ (Precedence.tightest : Int) < precedence then
    (.error (.outOfRange name precedence), names, t)
  else
    let o : Operator := ⟨fixity, precedence.toNat⟩
    let (s, names) := names.intern name
    match t.define s o with
    | (.ok _, t) => (.ok s, names, t)
    | (.error old, t) => (.error (.redefinition name old o), names, t)

variable {t : OperatorRows} {s u : Symbol} {o : Operator}

theorem row_enter (t : OperatorRows) (s u : Symbol) : (t.enter s).row u = t.row u := by
  unfold enter
  split_ifs with hs
  · rfl
  · have hadded : ([(s, OperatorRow.empty)].find? (·.1 == u)).map (·.2) = none ∨
        ([(s, OperatorRow.empty)].find? (·.1 == u)).map (·.2) = some .empty := by
      by_cases hu : s = u <;> simp [hu]
    simp only [row, List.find?_append, Option.map_or]
    cases (t.rows.find? (·.1 == u)).map (·.2) with
    | some r => rfl
    | none => rcases hadded with h | h <;> rw [h] <;> rfl

theorem row_put (hs : s ∈ t.rows.map (·.1)) (u : Symbol) :
    (t.put s o).row u = if u = s then (t.row u).put o else t.row u := by
  have hkey : ((fun e => e.1 == u) ∘ fun e : Symbol × OperatorRow =>
      if e.1 = s then (e.1, e.2.put o) else e) = fun e => e.1 == u := by
    funext e
    simp only [Function.comp]
    split_ifs <;> rfl
  simp only [row, put, List.find?_map, hkey]
  cases hfind : t.rows.find? (·.1 == u) with
  | none =>
    rw [if_neg]
    · rfl
    · rintro rfl
      obtain ⟨e, he, rfl⟩ := List.mem_map.1 hs
      simpa using List.find?_eq_none.1 hfind e he
  | some e =>
    obtain rfl : e.1 = u := by simpa using List.find?_some hfind
    by_cases h : e.1 = s <;> simp [h]

theorem map_fst_put (t : OperatorRows) (s : Symbol) (o : Operator) :
    (t.put s o).rows.map (·.1) = t.rows.map (·.1) := by
  rw [put, List.map_map]
  refine List.map_congr_left fun e _ => ?_
  simp only [Function.comp]
  split_ifs <;> rfl

theorem mem_enter (t : OperatorRows) (s : Symbol) : s ∈ (t.enter s).rows.map (·.1) := by
  unfold enter
  split_ifs with hs
  · exact hs
  · simp

end OperatorRows

/-- What is found first among all entries of a symbol is found first in its placement. -/
theorem OperatorTable.lookup_of_first? {t : OperatorTable} {s : Symbol} {o : Operator}
    (h : t.first? s = some o) : t.lookup s o.placement = some o := by
  obtain ⟨e, he, rfl⟩ := Option.map_eq_some_iff.1 h
  obtain ⟨hkey, front, back, hsplit, hfront⟩ := List.find?_eq_some_iff_append.1 he
  refine Option.map_eq_some_iff.2 ⟨e, List.find?_eq_some_iff_append.2 ⟨?_, front, back, hsplit, ?_⟩, rfl⟩
  · simpa using hkey
  · intro a ha
    have hne := hfront a ha
    simp_all

theorem OperatorTable.nodup_eraseDups : ∀ symbols : List Symbol, symbols.eraseDups.Nodup
  | [] => by simp
  | s :: rest => by
    rw [List.eraseDups_cons, List.nodup_cons]
    exact ⟨by simp, nodup_eraseDups (rest.filter fun u => !u == s)⟩
termination_by symbols => symbols.length
decreasing_by exact Nat.lt_succ_of_le (List.length_filter_le _ _)

/-- The slots hold what a table says of a symbol, and the mark is at its earliest definition. -/
structure OperatorRow.Holds (r : OperatorRow) (t : OperatorTable) (s : Symbol) : Prop where
  get : ∀ p, r.get p = t.lookup s p
  first : r.first = (t.first? s).map Operator.placement

theorem OperatorRow.Holds.earliest? {r : OperatorRow} {t : OperatorTable} {s : Symbol}
    (h : r.Holds t s) : r.earliest? = t.first? s := by
  rw [OperatorRow.earliest?, h.first]
  cases hs : t.first? s with
  | none => rfl
  | some o => exact (h.get o.placement).trans (OperatorTable.lookup_of_first? hs)

namespace OperatorRows

/-- The rows hold a table: one for each symbol that has a definition. -/
structure Holds (t : OperatorRows) (u : OperatorTable) : Prop where
  row : ∀ s, (t.row s).Holds u s
  symbols : t.rows.map (·.1) = (u.entries.map (·.1)).eraseDups

theorem holds_empty : empty.Holds .empty :=
  ⟨fun _ => ⟨fun p => by cases p <;> rfl, rfl⟩, rfl⟩

namespace Holds

variable {t : OperatorRows} {w w' : OperatorTable} {s : Symbol} {o old : Operator}

theorem size_eq (h : t.Holds w) : t.size = w.size := by
  rw [size, OperatorTable.size, ← h.symbols, List.length_map]

/-- A symbol with a definition has a row. -/
theorem mem_of_lookup (h : t.Holds w) {p : Placement} (hl : w.lookup s p = some old) :
    s ∈ t.rows.map (·.1) := by
  rw [h.symbols, List.mem_eraseDups]
  exact List.mem_map_of_mem (OperatorTable.mem_of_lookup hl).1

/-- A row is entered where the list has the first definition of its symbol. -/
theorem map_fst_enter (h : t.Holds w) (s : Symbol) :
    (t.enter s).rows.map (·.1) = (w.entries.map (·.1) ++ [s]).eraseDups := by
  have hmem : s ∈ w.entries.map (·.1) ↔ s ∈ t.rows.map (·.1) := by
    rw [h.symbols, List.mem_eraseDups]
  rw [List.eraseDups_append, ← h.symbols, enter]
  by_cases hs : s ∈ t.rows.map (·.1)
  · rw [if_pos hs]
    simp [List.removeAll, hmem.2 hs]
  · rw [if_neg hs]
    have hs' := mt hmem.1 hs
    simp [List.removeAll, List.eraseDups_cons, hs']

/-- The new definition fills a slot in the row of its symbol, and other rows stay. -/
theorem row_put_enter (h : t.Holds w) (hd : w.define s o = .ok w')
    (hl : w.lookup s o.placement = none) (u : Symbol) : (((t.enter s).put s o).row u).Holds w' u where
  get p := by
    rw [row_put (t.mem_enter s), row_enter, OperatorTable.lookup_define hd]
    by_cases hu : u = s
    · rw [if_pos hu, OperatorRow.get_put, (h.row u).get]
      by_cases hp : o.placement = p
      · subst hu hp
        rw [if_pos rfl, if_pos ⟨rfl, rfl⟩, hl]
        rfl
      · rw [if_neg hp, if_neg (fun hc => hp hc.2), Option.or_none]
    · rw [if_neg hu, if_neg (fun hc => hu hc.1), Option.or_none, (h.row u).get]
  first := by
    rw [row_put (t.mem_enter s), row_enter, OperatorTable.first?_define hd]
    by_cases hu : u = s
    · rw [if_pos hu, if_pos hu, OperatorRow.first_put, (h.row u).first, Option.map_or]
      rfl
    · rw [if_neg hu, if_neg hu, Option.or_none, (h.row u).first]

theorem define_ok (h : t.Holds w) (hd : w.define s o = .ok w') :
    (t.define s o).1 = .ok () ∧ (t.define s o).2.Holds w' := by
  have hget : ((t.enter s).row s).get o.placement = w.lookup s o.placement := by
    rw [row_enter, (h.row s).get]
  rw [OperatorRows.define]
  rw [hget]
  cases hl : w.lookup s o.placement with
  | some held =>
    rw [OperatorTable.define, hl] at hd
    dsimp only at hd ⊢
    split_ifs at hd with ho
    obtain rfl := Except.ok.inj hd
    rw [if_pos ho, enter, if_pos (h.mem_of_lookup hl)]
    exact ⟨rfl, h⟩
  | none =>
    refine ⟨rfl, h.row_put_enter hd hl, ?_⟩
    rw [OperatorTable.define, hl] at hd
    obtain rfl := Except.ok.inj hd
    rw [map_fst_put, h.map_fst_enter, List.map_append]
    rfl

/-- A definition that is refused leaves the rows as they are. -/
theorem define_error (h : t.Holds w) (hd : w.define s o = .error old) :
    t.define s o = (.error old, t) := by
  obtain ⟨hl, hne⟩ := OperatorTable.define_eq_error_iff.1 hd
  rw [OperatorRows.define, enter, if_pos (h.mem_of_lookup hl)]
  rw [(h.row s).get, hl]
  exact if_neg hne

/-- Declaring an operator has the same outcome, and leaves rows that hold the table again. -/
theorem defineOperator {v : Vocabulary} (h : t.Holds v.operators) (name : String) (fixity : Fixity)
    (precedence : Int) :
    ∃ t', t.defineOperator v.symbols name fixity precedence =
        ((v.defineOperator name fixity precedence).1,
          (v.defineOperator name fixity precedence).2.symbols, t') ∧
      t'.Holds (v.defineOperator name fixity precedence).2.operators ∧
      ∀ e, (v.defineOperator name fixity precedence).1 = .error e → t' = t := by
  rw [Vocabulary.defineOperator, OperatorRows.defineOperator]
  split_ifs with hp
  · exact ⟨t, rfl, h, fun _ _ => rfl⟩
  · have hoperators : (v.intern name).2.operators = v.operators := rfl
    dsimp only
    rw [hoperators]
    have hs : (v.intern name).1 = (v.symbols.intern name).1 := rfl
    rw [hs]
    cases hd : v.operators.define (v.symbols.intern name).1 ⟨fixity, precedence.toNat⟩ with
    | ok w =>
      obtain ⟨hok, hholds⟩ := h.define_ok hd
      rcases hr : t.define (v.symbols.intern name).1 ⟨fixity, precedence.toNat⟩ with ⟨r, t'⟩
      rw [hr] at hok hholds
      dsimp only at hok
      subst hok
      exact ⟨t', rfl, hholds, fun _ he => (by cases he)⟩
    | error old =>
      rw [h.define_error hd]
      exact ⟨t, rfl, h, fun _ _ => rfl⟩

end Holds

end OperatorRows

end Clausal
