import Clausal.Proofs.Words
import Clausal.Proofs.Vocabularies

/-!
# Operator trees

A tree of operators over constants is written with spaces between its tokens and with parentheses
only where its operators need them.
-/
namespace Clausal

inductive OperatorTree where
  | leaf (name : String)
  | between (name : String) (o : Operator) (left right : OperatorTree)
  | before (name : String) (o : Operator) (operand : OperatorTree)
  | after (name : String) (o : Operator) (operand : OperatorTree)
  deriving DecidableEq, Repr

namespace OperatorTree

/-- The operator at the top. -/
def operator? : OperatorTree → Option Operator
  | leaf _ => none
  | between _ o _ _ | before _ o _ | after _ o _ => some o

/-- Whether a tree needs no parentheses next to `o`, on the `side` where it stands: its own
operator binds tighter, or as tight if both operators group to that side. -/
def standsBare (t : OperatorTree) (side : Grouping) (o : Operator) : Bool :=
  match t.operator? with
  | none => true
  | some own => o.precedence < own.precedence ||
      o.precedence = own.precedence && o.grouping = side && own.grouping = side

def enclose (bare : Bool) (words : List String) : List String :=
  if bare then words else "(" :: words ++ [")"]

def words : OperatorTree → List String
  | leaf name => [name]
  | between name o left right =>
    enclose (left.standsBare .left o) left.words ++
      name :: enclose (right.standsBare .right o) right.words
  | before name o operand => name :: enclose (operand.standsBare .right o) operand.words
  | after name o operand => enclose (operand.standsBare .left o) operand.words ++ [name]

def text (t : OperatorTree) : String := " ".intercalate t.words

/-- The term of a tree, built from left to right in a vocabulary. -/
def build : OperatorTree → Vocabulary → Term × Vocabulary
  | leaf name, v => Parse.nameTerm v name
  | between name _ left right, v =>
    let (a, v₁) := left.build v
    let (b, v₂) := right.build v₁
    (Term.node (v.intern name).1 [a, b], v₂)
  | before name _ operand, v | after name _ operand, v =>
    let (a, v₁) := operand.build v
    (Term.node (v.intern name).1 [a], v₁)

/-- The name is one token, and `o` is its definition in a placement. -/
def Declares (v : Vocabulary) (name : String) (p : Placement) (o : Operator) : Prop :=
  (ReadsAs name (.ident name) ∨ ReadsAs name (.symbolic name)) ∧
    ∃ s ∈ v.lookup name, v.operators.lookup s p = some o

instance (v : Vocabulary) (name : String) (p : Placement) (o : Operator) :
    Decidable (Declares v name p o) :=
  inferInstanceAs (Decidable (_ ∧ _))

/-- The leaves are names of no operators and the operators are those of the vocabulary. -/
def Over (v : Vocabulary) : OperatorTree → Prop
  | leaf name =>
    ReadsAs name (.ident name) ∧ ∀ s ∈ v.lookup name, v.isOperator s = false
  | between name o left right => Declares v name .betweenOperands o ∧ left.Over v ∧ right.Over v
  | before name o operand => Declares v name .beforeOperand o ∧ operand.Over v
  | after name o operand => Declares v name .afterOperand o ∧ operand.Over v

instance decidableOver (v : Vocabulary) : (t : OperatorTree) → Decidable (t.Over v)
  | leaf _ => inferInstanceAs (Decidable (_ ∧ _))
  | between _ _ left right =>
    have := decidableOver v left
    have := decidableOver v right
    inferInstanceAs (Decidable (_ ∧ _ ∧ _))
  | before _ _ operand | after _ _ operand =>
    have := decidableOver v operand
    inferInstanceAs (Decidable (_ ∧ _))

end OperatorTree

/-- No symbol is declared both between and after operands. -/
def OperatorTable.OneBehind (t : OperatorTable) : Prop :=
  ∀ e ∈ t.entries, ∀ e' ∈ t.entries, e.2.placement = .betweenOperands →
    e'.2.placement = .afterOperand → e.1 ≠ e'.1

instance (t : OperatorTable) : Decidable t.OneBehind :=
  inferInstanceAs (Decidable (∀ e ∈ t.entries, _))

theorem OperatorTable.OneBehind.lookup {t : OperatorTable} (h : t.OneBehind) (s : Symbol) :
    t.lookup s .betweenOperands = none ∨ t.lookup s .afterOperand = none := by
  cases hi : t.lookup s .betweenOperands with
  | none => exact .inl rfl
  | some o =>
    cases ha : t.lookup s .afterOperand with
    | none => exact .inr rfl
    | some o' =>
      obtain ⟨hm, hp⟩ := mem_of_lookup hi
      obtain ⟨hm', hp'⟩ := mem_of_lookup ha
      exact absurd rfl (h (s, o) hm (s, o') hm' hp hp')

open Parse

namespace OperatorTree

variable {v w : Vocabulary} {name : String} {p : Placement} {o : Operator} {t : OperatorTree}

theorem Declares.name? (h : Declares v name p o) : (wordKind name).name? = some name := by
  rcases h.1 with h | h <;> rw [h.wordKind_eq] <;> rfl

theorem declares_iff : Declares v name p o ↔
    (ReadsAs name (.ident name) ∨ ReadsAs name (.symbolic name)) ∧
      ∃ s, operatorAt? v p (wordKind name) = some (s, o) := by
  refine and_congr_right fun hn => exists_congr fun s => ?_
  rw [operatorAt?_eq_some name]
  · rfl
  · rcases hn with h | h <;> rw [h.wordKind_eq] <;> rfl

theorem Declares.operatorAt (h : Declares v name p o) :
    operatorAt? v p (wordKind name) = some ((v.intern name).1, o) := by
  rw [operatorAt?_eq_some name h.name?]
  obtain ⟨hn, s, hs, ho⟩ := h
  have hi : v.symbols.intern name = (s, v.symbols) := SymbolTable.intern_of_lookup hs
  simpa only [Vocabulary.intern, hi] using ⟨hs, ho⟩

theorem Declares.mono (hw : SameOperators v w) (h : Declares v name p o) : Declares w name p o := by
  rw [declares_iff] at h ⊢
  simpa only [hw.operatorAt] using h

theorem Declares.placement (h : Declares v name p o) : o.placement = p := by
  obtain ⟨-, s, -, ho⟩ := h
  exact OperatorTable.placement_of_lookup ho

theorem Declares.grouping_of_before (h : Declares v name .beforeOperand o) : o.grouping = .right := by
  have hp := h.placement
  obtain ⟨fixity, precedence⟩ := o
  cases fixity <;> first | rfl | exact Placement.noConfusion hp

theorem not_operator_iff (hn : ReadsAs name (.ident name)) :
    (∀ s ∈ v.lookup name, v.isOperator s = false) ↔
      operatorSymbol? v (wordKind name) = none := by
  rw [hn.wordKind_eq]
  simp only [operatorSymbol?, TokenKind.name?]
  cases v.lookup name with
  | none => simp
  | some s => cases hs : v.isOperator s <;> simp [hs]

theorem Over.mono (hw : SameOperators v w) (h : t.Over v) : t.Over w := by
  induction t with
  | leaf name =>
    obtain ⟨hn, hs⟩ := h
    rw [not_operator_iff hn, ← hw.symbol] at hs
    exact ⟨hn, (not_operator_iff hn).2 hs⟩
  | between name o left right ihl ihr => exact ⟨h.1.mono hw, ihl h.2.1, ihr h.2.2⟩
  | before name o operand ih => exact ⟨h.1.mono hw, ih h.2⟩
  | after name o operand ih => exact ⟨h.1.mono hw, ih h.2⟩

theorem nameTerm_grows (hv : v.WellFormed) (name : String) :
    (nameTerm v name).2.WellFormed ∧ SameOperators v (nameTerm v name).2 := by
  unfold nameTerm
  split_ifs
  · exact ⟨hv.freshVariable, .freshVariable hv⟩
  · exact ⟨hv.intern name, .intern hv name⟩

theorem build_grows (t : OperatorTree) {v : Vocabulary} (hv : v.WellFormed) :
    (t.build v).2.WellFormed ∧ SameOperators v (t.build v).2 := by
  induction t generalizing v with
  | leaf name => exact nameTerm_grows hv name
  | between name o left right ihl ihr =>
    obtain ⟨hl, hsl⟩ := ihl hv
    obtain ⟨hr, hsr⟩ := ihr hl
    exact ⟨hr, hsl.trans hsr⟩
  | before name o operand ih => exact ih hv
  | after name o operand ih => exact ih hv

theorem readsAs_opening : ReadsAs "(" .leftParen := by decide +kernel

theorem readsAs_closing : ReadsAs ")" .rightParen := by decide +kernel

abbrev kinds (t : OperatorTree) : List TokenKind := t.words.map wordKind

theorem word_of_mem_enclose {bare : Bool} {ws : List String} {u : String}
    (h : ∀ u ∈ ws, Word u.toList (wordKind u)) (hu : u ∈ enclose bare ws) :
    Word u.toList (wordKind u) := by
  unfold enclose at hu
  split_ifs at hu
  · exact h u hu
  · simp only [List.cons_append, List.mem_cons, List.mem_append, List.not_mem_nil, or_false] at hu
    rcases hu with rfl | hu | rfl
    · rw [readsAs_opening.wordKind_eq]
      exact Word.single (by decide) (by decide)
    · exact h u hu
    · rw [readsAs_closing.wordKind_eq]
      exact Word.single (by decide) (by decide)

theorem Declares.word (h : Declares v name p o) : Word name.toList (wordKind name) := by
  rcases h.1 with h | h <;> rw [h.wordKind_eq] <;> exact h.word rfl

theorem Over.word (h : t.Over v) : ∀ u ∈ t.words, Word u.toList (wordKind u) := by
  induction t with
  | leaf name =>
    intro u hu
    obtain rfl := List.mem_singleton.1 hu
    rw [h.1.wordKind_eq]
    exact h.1.word rfl
  | between name o left right ihl ihr =>
    intro u hu
    rcases List.mem_append.1 hu with hu | hu
    · exact word_of_mem_enclose (ihl h.2.1) hu
    · rcases List.mem_cons.1 hu with rfl | hu
      · exact h.1.word
      · exact word_of_mem_enclose (ihr h.2.2) hu
  | before name o operand ih =>
    intro u hu
    rcases List.mem_cons.1 hu with rfl | hu
    · exact h.1.word
    · exact word_of_mem_enclose (ih h.2) hu
  | after name o operand ih =>
    intro u hu
    rcases List.mem_append.1 hu with hu | hu
    · exact word_of_mem_enclose (ih h.2) hu
    · obtain rfl := List.mem_singleton.1 hu
      exact h.1.word

theorem kinds_parentheses (t : OperatorTree) (rest : List TokenKind) :
    ("(" :: t.words ++ [")"]).map wordKind ++ rest =
      .leftParen :: (t.kinds ++ .rightParen :: rest) := by
  simp [readsAs_opening.wordKind_eq, readsAs_closing.wordKind_eq]

/-- A row of kinds that a term begins, and where no operator stands alone in parentheses. -/
def Opens (v : Vocabulary) (ks : List TokenKind) : Prop :=
  ∃ k rest, ks = k :: rest ∧ startsTerm v k = true ∧
    (operatorSymbol? v k = none ∨ ∃ k' rest', rest = k' :: rest' ∧ startsTerm v k' = true)

theorem Opens.append {ks : List TokenKind} (h : Opens v ks) (more : List TokenKind) :
    Opens v (ks ++ more) := by
  obtain ⟨k, rest, rfl, hk, hr⟩ := h
  refine ⟨k, rest ++ more, rfl, hk, hr.imp_right ?_⟩
  rintro ⟨k', rest', rfl, hk'⟩
  exact ⟨k', rest' ++ more, rfl, hk'⟩

theorem opens_enclose (bare : Bool) {ws : List String} (h : Opens v (ws.map wordKind)) :
    Opens v ((enclose bare ws).map wordKind) := by
  unfold enclose
  split_ifs
  · exact h
  · refine ⟨wordKind "(", _, rfl, ?_⟩
    rw [readsAs_opening.wordKind_eq]
    exact ⟨rfl, .inl rfl⟩

theorem Over.opens (h : t.Over v) : Opens v t.kinds := by
  induction t with
  | leaf name =>
    have ho := (not_operator_iff h.1).1 h.2
    refine ⟨wordKind name, [], rfl, ?_, .inl ho⟩
    rw [h.1.wordKind_eq] at ho ⊢
    simp [startsTerm, startsArgument, ho]
  | between name o left right ihl ihr =>
    simp only [kinds, words, List.map_append]
    exact (opens_enclose _ (ihl h.2.1)).append _
  | before name o operand ih =>
    obtain ⟨k, rest, hk, hs, -⟩ := opens_enclose (operand.standsBare .right o) (ih h.2)
    refine ⟨wordKind name, _, rfl, ?_, .inr ⟨k, rest, hk, hs⟩⟩
    simp [startsTerm, h.1.operatorAt]
  | after name o operand ih =>
    simp only [kinds, words, List.map_append]
    exact (opens_enclose _ (ih h.2)).append _

end OperatorTree

end Clausal
