import Clausal.Parse.Entry
import Clausal.Proofs.Reading

/-!
# Rules for reading terms

One rule for each production and each way out of it. A rule that reads an inner expression asks
for its outcome and for that of what follows, so an outcome is derived from the text as a tree of
rules, without bounds or places.
-/
namespace Clausal

namespace Parse

open Precedence

variable {α : Type} {v v' : Vocabulary} {kinds rest : List TokenKind} {o : Outcome Term}
variable {limit : Nat} {strict : Bool} {earlier : Option (Nat × Grouping)}

-- The equations of the steps are at hand before the rules, which all unfold them.
attribute [local simp] expression climb operand arguments atomic elements

/-- The bounded step has this outcome if its bound has four levels for each token, and `slack`. -/
def Reads (step : Nat → Parse α) (slack : Nat) (v : Vocabulary) (kinds : List TokenKind)
    (o : Outcome α) : Prop :=
  ∀ n, 4 * kinds.length + slack ≤ n → (step n).Does v kinds o

abbrev ReadsExpression (limit : Nat) (strict : Bool) (earlier : Option (Nat × Grouping)) :=
  Reads (fun n => expression n limit strict earlier) 2

abbrev ReadsClimb (limit : Nat) (strict : Bool) (earlier : Option (Nat × Grouping))
    (first : Term) :=
  Reads (fun n => climb n limit strict earlier first) 1

abbrev ReadsOperand (limit : Nat) := Reads (fun n => operand n limit) 1

abbrev ReadsArguments := Reads arguments 1

abbrev ReadsAtomic (limit : Nat) := Reads (fun n => atomic n limit) 0

abbrev ReadsElements := Reads elements 3

/-- The operator that a kind is after an operand, if the kind `following` comes next. -/
def operatorBehind? (v : Vocabulary) (k following : TokenKind) : Option (Symbol × Operator) :=
  match operatorAt? v .betweenOperands k, operatorAt? v .afterOperand k with
  | some between, some after => some (if startsTerm v following then between else after)
  | some between, none => some between
  | none, after => after

/-- The prefix operator that a kind is, if the kind `following` comes next. -/
def operatorBefore? (v : Vocabulary) (k following : TokenKind) : Option (Symbol × Operator) :=
  match operatorAt? v .beforeOperand k with
  | none => none
  | some found => if startsTerm v following then some found else none

theorem does_operatorAfter (k : TokenKind) :
    (operatorAfter? k).Does v kinds
      (.value (operatorBehind? v k ((kinds.drop 1).headD .endOfInput)) v kinds) := by
  refine Does.vocabulary_bind ?_
  unfold operatorBehind?
  cases operatorAt? v .betweenOperands k with
  | none => exact Does.pure _
  | some between =>
    cases operatorAt? v .afterOperand k with
    | none => exact Does.pure _
    | some after =>
      refine Does.peekAt_bind 1 fun t ht => ?_
      rw [ht]
      exact Does.pure _

theorem does_prefixAt (k : TokenKind) :
    (prefixAt? k).Does v kinds
      (.value (operatorBefore? v k ((kinds.drop 1).headD .endOfInput)) v kinds) := by
  refine Does.vocabulary_bind ?_
  unfold operatorBefore?
  cases operatorAt? v .beforeOperand k with
  | none => exact Does.pure _
  | some found =>
    refine Does.peekAt_bind 1 fun t ht => ?_
    rw [ht]
    exact Does.pure _

/-- An operator may follow an earlier one of another precedence, or one that groups the same way. -/
def Chains (earlier : Option (Nat × Grouping)) (o : Operator) : Prop :=
  ∀ p g, earlier = some (p, g) → p = o.precedence → g = o.grouping ∧ g ≠ .none

theorem does_checkChain {t : Token} {o : Operator} (h : Chains earlier o) :
    (checkChain t o earlier).Does v kinds (.value () v kinds) := by
  cases earlier with
  | none => exact Does.pure ()
  | some e =>
    obtain ⟨p, g⟩ := e
    dsimp only [checkChain]
    by_cases hp : p = o.precedence
    · obtain ⟨hg, hn⟩ := h p g rfl hp
      rw [if_neg (by simp [hp]), if_neg (by simp [← hg, hn]), if_neg (by simp [hg])]
      exact Does.pure ()
    · rw [if_pos hp]
      exact Does.pure ()

/-- The fault of an operator of kind `k` behind one of its precedence that groups as `g`. -/
def chainFault (k : TokenKind) (g : Grouping) (o : Operator) : SyntaxFault :=
  if g = .none ∨ o.grouping = .none then .nonAssociativeChain k else .mixedChain k g

theorem does_checkChain_refusal {t : Token} {o : Operator} {g : Grouping}
    (h : ¬ (g = o.grouping ∧ g ≠ .none)) :
    (checkChain t o (some (o.precedence, g))).Does v kinds
      (.refusal (chainFault t.kind g o)) := by
  dsimp only [checkChain, chainFault]
  rw [if_neg (by simp)]
  by_cases hn : g = .none ∨ o.grouping = .none
  · rw [if_pos hn, if_pos hn]
    exact Does.failAt _ _
  · rw [if_neg hn, if_neg hn, if_pos (fun hg => h ⟨hg, fun hx => hn (.inl hx)⟩)]
    exact Does.failAt _ _

theorem reads_expression {first : Term} {mid : List TokenKind}
    (hf : ReadsOperand limit v kinds (.value first v' mid)) (hl : mid.length ≤ kinds.length)
    (hc : ReadsClimb limit strict earlier first v' mid o) :
    ReadsExpression limit strict earlier v kinds o := by
  intro n hn
  obtain ⟨n, rfl⟩ : ∃ m, n = m + 1 := ⟨n - 1, by omega⟩
  dsimp only
  rw [expression]
  exact (hf n (by omega)).bind (hc n (by omega))

/-- An expression ends where no operator follows. -/
theorem reads_climb_stop {first : Term}
    (h : operatorBehind? v (kinds.headD .endOfInput) ((kinds.drop 1).headD .endOfInput) = none) :
    ReadsClimb limit strict earlier first v kinds (.value first v kinds) := by
  intro n hn
  obtain ⟨n, rfl⟩ : ∃ m, n = m + 1 := ⟨n - 1, by omega⟩
  dsimp only
  rw [climb]
  refine Does.peek_bind fun t ht => (does_operatorAfter t.kind).bind ?_
  rw [ht, h]
  exact Does.pure first

/-- An expression ends before an operator that is too loose for it. -/
theorem reads_climb_yield {first : Term} {s : Symbol} {op : Operator}
    (h : operatorBehind? v (kinds.headD .endOfInput) ((kinds.drop 1).headD .endOfInput) =
      some (s, op))
    (hl : op.precedence < limit ∨ op.precedence = limit ∧ strict) :
    ReadsClimb limit strict earlier first v kinds (.value first v kinds) := by
  intro n hn
  obtain ⟨n, rfl⟩ : ∃ m, n = m + 1 := ⟨n - 1, by omega⟩
  dsimp only
  rw [climb]
  refine Does.peek_bind fun t ht => (does_operatorAfter t.kind).bind ?_
  rw [ht, h]
  dsimp only
  rw [if_pos hl]
  exact Does.pure first

section

variable {k : TokenKind} {first : Term} {s : Symbol} {op : Operator}
variable (h : operatorBehind? v k (rest.headD .endOfInput) = some (s, op))
variable (hl : ¬ (op.precedence < limit ∨ op.precedence = limit ∧ strict))

include h hl

/-- An operator that is tight enough is taken. -/
theorem does_climb_taken {n : Nat}
    (ho : ∀ t : Token, t.kind = k → (do
      checkChain t op earlier
      let _ ← next
      if op.placement = Placement.afterOperand then
        climb n limit strict (some (op.precedence, op.grouping)) (Term.node s [first])
      else
        let second ← expression n op.precedence (op.grouping ≠ Grouping.right)
          (some (op.precedence, op.grouping))
        climb n limit strict (some (op.precedence, op.grouping))
          (Term.node s [first, second])).Does v (k :: rest) o) :
    (climb (n + 1) limit strict earlier first).Does v (k :: rest) o := by
  rw [climb]
  refine Does.peek_bind fun t ht => (does_operatorAfter t.kind).bind ?_
  obtain rfl : t.kind = k := ht
  simp only [List.drop_succ_cons, List.drop_zero, h, if_neg hl]
  exact ho t rfl

theorem reads_climb_refusal {g : Grouping} (hg : ¬ (g = op.grouping ∧ g ≠ .none)) :
    ReadsClimb limit strict (some (op.precedence, g)) first v (k :: rest)
      (.refusal (chainFault k g op)) := by
  intro n hn
  obtain ⟨n, rfl⟩ : ∃ m, n = m + 1 := ⟨n - 1, by omega⟩
  refine does_climb_taken h hl fun t ht => ?_
  subst ht
  exact (does_checkChain_refusal hg).bind_refusal

theorem reads_climb_after (hc : Chains earlier op) (hp : op.placement = .afterOperand)
    (ho : ReadsClimb limit strict (some (op.precedence, op.grouping)) (Term.node s [first])
      v rest o) :
    ReadsClimb limit strict earlier first v (k :: rest) o := by
  intro n hn
  rw [List.length_cons] at hn
  obtain ⟨n, rfl⟩ : ∃ m, n = m + 1 := ⟨n - 1, by omega⟩
  refine does_climb_taken h hl fun t _ => ?_
  refine (does_checkChain hc).bind (Does.next_bind fun _ _ => ?_)
  rw [if_pos hp]
  exact ho n (by omega)

theorem reads_climb_between {second : Term} {mid : List TokenKind} (hc : Chains earlier op)
    (hp : op.placement ≠ .afterOperand)
    (hs : ReadsExpression op.precedence (op.grouping ≠ .right)
      (some (op.precedence, op.grouping)) v rest (.value second v' mid))
    (hm : mid.length ≤ rest.length)
    (ho : ReadsClimb limit strict (some (op.precedence, op.grouping))
      (Term.node s [first, second]) v' mid o) :
    ReadsClimb limit strict earlier first v (k :: rest) o := by
  intro n hn
  rw [List.length_cons] at hn
  obtain ⟨n, rfl⟩ : ∃ m, n = m + 1 := ⟨n - 1, by omega⟩
  refine does_climb_taken h hl fun t _ => ?_
  refine (does_checkChain hc).bind (Does.next_bind fun _ _ => ?_)
  rw [if_neg hp]
  exact (hs n (by omega)).bind (ho n (by omega))

theorem reads_climb_between_refusal {fault : SyntaxFault} (hc : Chains earlier op)
    (hp : op.placement ≠ .afterOperand)
    (hs : ReadsExpression op.precedence (op.grouping ≠ .right)
      (some (op.precedence, op.grouping)) v rest (.refusal fault)) :
    ReadsClimb limit strict earlier first v (k :: rest) (.refusal fault) := by
  intro n hn
  rw [List.length_cons] at hn
  obtain ⟨n, rfl⟩ : ∃ m, n = m + 1 := ⟨n - 1, by omega⟩
  refine does_climb_taken h hl fun t _ => ?_
  refine (does_checkChain hc).bind (Does.next_bind fun _ _ => ?_)
  rw [if_neg hp]
  exact (hs n (by omega)).bind_refusal

end

/-- How an operand goes on depends on whether its first token is a prefix operator. -/
theorem reads_operand_of_first {k : TokenKind}
    {behind : Nat → Token → Option (Symbol × Operator) → Parse Term}
    (hoperand : ∀ n, operand (n + 1) limit = peek >>= fun t => prefixAt? t.kind >>= behind n t)
    (h : ∀ n t, 4 * rest.length + 4 ≤ n →
      (behind n t (operatorBefore? v k (rest.headD .endOfInput))).Does v (k :: rest) o) :
    ReadsOperand limit v (k :: rest) o := by
  intro n hn
  rw [List.length_cons] at hn
  obtain ⟨n, rfl⟩ : ∃ m, n = m + 1 := ⟨n - 1, by omega⟩
  dsimp only
  rw [hoperand]
  refine Does.peek_bind fun t ht => (does_prefixAt t.kind).bind ?_
  obtain rfl : t.kind = k := ht
  exact h n t (by omega)

theorem reads_operand_before {k : TokenKind} {s : Symbol} {op : Operator} {inner : Term}
    {mid : List TokenKind} (h : operatorBefore? v k (rest.headD .endOfInput) = some (s, op))
    (hl : limit ≤ op.precedence)
    (he : ReadsExpression op.precedence false (some (op.precedence, .right)) v rest
      (.value inner v' mid)) :
    ReadsOperand limit v (k :: rest) (.value (Term.node s [inner]) v' mid) := by
  refine reads_operand_of_first (fun _ => by rw [operand]) fun n t hn => ?_
  simp only [h, if_neg (Nat.not_lt.2 hl)]
  refine Does.next_bind fun _ _ => (he n (by omega)).bind ?_
  exact Does.pure _

/-- An atomic term with the arguments that follow it. -/
theorem reads_operand_application {k : TokenKind} {head t : Term} {args : List Term}
    {v'' : Vocabulary} {mid fin : List TokenKind}
    (h : operatorBefore? v k (rest.headD .endOfInput) = none) (hl : limit ≤ application)
    (hh : ReadsAtomic limit v (k :: rest) (.value head v' mid)) (hm : mid.length ≤ rest.length)
    (ha : ReadsArguments v' mid (.value args v'' fin)) (hn : args ≠ [])
    (ht : ∀ span, v''.apply span (head :: args) = .ok t) :
    ReadsOperand limit v (k :: rest) (.value t v'' fin) := by
  refine reads_operand_of_first (fun _ => by rw [operand]) fun n t hb => ?_
  simp only [h]
  refine (hh n (by rw [List.length_cons]; omega)).bind ?_
  rw [if_neg (Nat.not_lt.2 hl)]
  refine (ha n (by omega)).bind ?_
  obtain ⟨first, others, rfl⟩ := List.exists_cons_of_ne_nil hn
  refine Does.spanFrom_bind _ fun span => Does.vocabulary_bind ?_
  rw [ht span]
  exact Does.pure _

theorem reads_arguments_nil (h : startsArgument v (kinds.headD .endOfInput) = false) :
    ReadsArguments v kinds (.value [] v kinds) := by
  intro n hn
  obtain ⟨n, rfl⟩ : ∃ m, n = m + 1 := ⟨n - 1, by omega⟩
  rw [arguments]
  refine Does.peek_bind fun t ht => Does.vocabulary_bind ?_
  rw [ht, if_neg (by rw [h]; exact Bool.false_ne_true)]
  exact Does.pure []

theorem reads_arguments_cons {k : TokenKind} {first : Term} {others : List Term}
    {v'' : Vocabulary} {mid fin : List TokenKind} (h : startsArgument v k = true)
    (ha : ReadsAtomic binder v (k :: rest) (.value first v' mid)) (hm : mid.length ≤ rest.length)
    (ho : ReadsArguments v' mid (.value others v'' fin)) :
    ReadsArguments v (k :: rest) (.value (first :: others) v'' fin) := by
  intro n hn
  rw [List.length_cons] at hn
  obtain ⟨n, rfl⟩ : ∃ m, n = m + 1 := ⟨n - 1, by omega⟩
  rw [arguments]
  refine Does.peek_bind fun t ht => Does.vocabulary_bind ?_
  obtain rfl : t.kind = k := ht
  rw [if_pos h]
  refine (ha n (by rw [List.length_cons]; omega)).bind ((ho n (by omega)).bind ?_)
  exact Does.pure _

/-- An atomic term with no argument behind it. -/
theorem reads_operand_atomic {k : TokenKind} {head : Term} {mid : List TokenKind}
    (h : operatorBefore? v k (rest.headD .endOfInput) = none)
    (hh : ReadsAtomic limit v (k :: rest) (.value head v' mid)) (hm : mid.length ≤ rest.length)
    (ha : startsArgument v' (mid.headD .endOfInput) = false) :
    ReadsOperand limit v (k :: rest) (.value head v' mid) := by
  refine reads_operand_of_first (fun _ => by rw [operand]) fun n t hn => ?_
  simp only [h]
  refine (hh n (by rw [List.length_cons]; omega)).bind ?_
  by_cases hl : application < limit
  · rw [if_pos hl]
    exact Does.pure head
  · rw [if_neg hl]
    exact (reads_arguments_nil ha n (by omega)).bind (Does.pure head)

theorem does_bindsAt : (bindsAt limit).Does v kinds
    (.value (decide (limit ≤ binder ∧ kinds.headD .endOfInput = .backslash)) v kinds) := by
  unfold bindsAt
  by_cases hl : limit ≤ binder
  · rw [if_pos hl]
    refine Does.peek_bind fun t ht => ?_
    rw [ht]
    simp only [hl, true_and]
    exact Does.pure _
  · rw [if_neg hl]
    simp only [hl, false_and, decide_false]
    exact Does.pure false

/-- An atomic term is read off its first token. -/
theorem reads_atomic_of_first {k : TokenKind} {behind : Nat → Token → Parse Term}
    (hatomic : ∀ n, atomic (n + 1) limit = next >>= behind n)
    (h : ∀ n t, t.kind = k → 4 * rest.length + 3 ≤ n → (behind n t).Does v rest o) :
    ReadsAtomic limit v (k :: rest) o := by
  intro n hn
  rw [List.length_cons] at hn
  obtain ⟨n, rfl⟩ : ∃ m, n = m + 1 := ⟨n - 1, by omega⟩
  dsimp only
  rw [hatomic]
  exact Does.next_bind fun t ht => h n t ht (by omega)

/-- The term for a name: a constant, or a fresh variable if it is anonymous. -/
def nameTerm (v : Vocabulary) (name : String) : Term × Vocabulary :=
  if name = "_" then v.freshVariable else v.constant name

theorem reads_atomic_name {name : String} (hb : rest.headD .endOfInput ≠ .backslash)
    (ho : operatorSymbol? v (.ident name) = none) :
    ReadsAtomic limit v (.ident name :: rest)
      (.value (nameTerm v name).1 (nameTerm v name).2 rest) := by
  refine reads_atomic_of_first (fun _ => by rw [atomic]) fun _ t ht _ => ?_
  rw [ht]
  refine does_bindsAt.bind ?_
  rw [if_neg (by simpa using fun _ => by simpa using hb)]
  refine Does.vocabulary_bind ?_
  rw [if_neg (by simp [ho])]
  unfold variableOrConstant nameTerm
  by_cases hn : name = "_"
  · rw [if_pos hn, if_pos hn]
    exact Does.change _
  · rw [if_neg hn, if_neg hn]
    exact Does.change _

theorem reads_atomic_lambda {x : String} {body : Term} {mid : List TokenKind}
    (hl : limit ≤ binder) (hb : ReadsExpression lowest false none v rest (.value body v' mid)) :
    ReadsAtomic limit v (.ident x :: .backslash :: rest)
      (.value (v'.lambda x body).1 (v'.lambda x body).2 mid) := by
  refine reads_atomic_of_first (fun _ => by rw [atomic]) fun n t ht hn => ?_
  rw [List.length_cons] at hn
  rw [ht]
  refine does_bindsAt.bind ?_
  rw [if_pos (by simp [hl])]
  refine Does.next_bind fun _ _ => (hb n (by omega)).bind ?_
  exact Does.change _

theorem reads_atomic_symbolic {name : String} (hn : name ≠ "|")
    (ho : operatorSymbol? v (.symbolic name) = none) :
    ReadsAtomic limit v (.symbolic name :: rest)
      (.value (v.constant name).1 (v.constant name).2 rest) := by
  refine reads_atomic_of_first (fun _ => by rw [atomic]) fun _ t ht _ => ?_
  rw [ht]
  refine Does.vocabulary_bind ?_
  rw [if_neg (by simp [hn, ho])]
  exact Does.change _

theorem reads_atomic_macroName {name : String} :
    ReadsAtomic limit v (.macroName name :: rest)
      (.value (v.constant name).1 (v.constant name).2 rest) := by
  refine reads_atomic_of_first (fun _ => by rw [atomic]) fun _ t ht _ => ?_
  rw [ht]
  exact Does.change _

theorem reads_atomic_int {digits : String} {value : Nat}
    (h : boundedNat? (Nat.pow 2 63 - 1) digits = some value) :
    ReadsAtomic limit v (.int digits :: rest)
      (.value (.literal (.int (Int64.ofNat value))) v rest) := by
  refine reads_atomic_of_first (fun _ => by rw [atomic]) fun _ t ht _ => ?_
  rw [ht]
  dsimp only [integer]
  rw [h]
  exact Does.pure _

theorem reads_atomic_string {text : String} :
    ReadsAtomic limit v (.string text :: rest)
      (.value (.literal (v.string text).1) (v.string text).2 rest) := by
  refine reads_atomic_of_first (fun _ => by rw [atomic]) fun _ t ht _ => ?_
  rw [ht]
  exact (Does.change _).bind (Does.pure _)

theorem does_loneOperator_some {k : TokenKind} {s : Symbol} (h : operatorSymbol? v k = some s) :
    loneOperator?.Does v (k :: .rightParen :: rest) (.value (some s) v rest) := by
  refine Does.peek_bind fun t ht => Does.vocabulary_bind ?_
  obtain rfl : t.kind = k := ht
  rw [h]
  refine Does.peekAt_bind 1 fun u hu => ?_
  rw [if_pos (show u.kind = .rightParen from hu)]
  exact Does.next_bind fun _ _ => Does.next_bind fun _ _ => Does.pure _

theorem does_loneOperator_none (h : operatorSymbol? v (kinds.headD .endOfInput) = none ∨
      (kinds.drop 1).headD .endOfInput ≠ .rightParen) :
    loneOperator?.Does v kinds (.value none v kinds) := by
  refine Does.peek_bind fun t ht => Does.vocabulary_bind ?_
  rw [ht]
  cases hk : operatorSymbol? v (kinds.headD .endOfInput) with
  | none => exact Does.pure none
  | some s =>
    refine Does.peekAt_bind 1 fun u hu => ?_
    rw [if_neg (by rw [hu]; exact h.resolve_left (by rw [hk]; exact Option.some_ne_none s))]
    exact Does.pure none

/-- An operator in parentheses is a constant. -/
theorem reads_atomic_operator {k : TokenKind} {s : Symbol} (h : operatorSymbol? v k = some s) :
    ReadsAtomic limit v (.leftParen :: k :: .rightParen :: rest) (.value (.const s) v rest) := by
  refine reads_atomic_of_first (fun _ => by rw [atomic]) fun _ t ht _ => ?_
  rw [ht]
  exact (does_loneOperator_some h).bind (Does.pure _)

theorem reads_atomic_group {inner : Term}
    (h : operatorSymbol? v (kinds.headD .endOfInput) = none ∨
      (kinds.drop 1).headD .endOfInput ≠ .rightParen)
    (he : ReadsExpression lowest false none v kinds (.value inner v' (.rightParen :: rest))) :
    ReadsAtomic limit v (.leftParen :: kinds) (.value inner v' rest) := by
  refine reads_atomic_of_first (fun _ => by rw [atomic]) fun n t ht hn => ?_
  rw [ht]
  refine (does_loneOperator_none h).bind ((he n (by omega)).bind ?_)
  exact Does.expect_bind fun _ => Does.pure inner

theorem reads_atomic_nil :
    ReadsAtomic limit v (.leftBracket :: .rightBracket :: rest) (.value Term.nil v rest) := by
  refine reads_atomic_of_first (fun _ => by rw [atomic]) fun _ t ht _ => ?_
  rw [ht]
  refine Does.peek_bind fun u hu => ?_
  rw [if_pos (show u.kind = .rightBracket from hu)]
  exact Does.next_bind fun _ _ => Does.pure _

theorem reads_atomic_list {cells : Term} (h : kinds.headD .endOfInput ≠ .rightBracket)
    (he : ReadsElements v kinds (.value cells v' (.rightBracket :: rest))) :
    ReadsAtomic limit v (.leftBracket :: kinds) (.value cells v' rest) := by
  refine reads_atomic_of_first (fun _ => by rw [atomic]) fun n t ht hn => ?_
  rw [ht]
  refine Does.peek_bind fun u hu => ?_
  obtain hu : u.kind = kinds.headD .endOfInput := hu
  rw [if_neg (by rw [hu]; exact h)]
  refine (he n (by omega)).bind ?_
  exact Does.expect_bind fun _ => Does.pure cells

theorem does_eatSymbol_true {name : String} :
    (eatSymbol name).Does v (.symbolic name :: rest) (.value true v rest) := by
  refine Does.peek_bind fun t ht => ?_
  obtain ht : t.kind = .symbolic name := ht
  rw [if_pos (by simp [Token.isSymbol, ht])]
  exact Does.next_bind fun _ _ => Does.pure true

theorem does_eatSymbol_false {name : String} (h : kinds.headD .endOfInput ≠ .symbolic name) :
    (eatSymbol name).Does v kinds (.value false v kinds) := by
  refine Does.peek_bind fun t ht => ?_
  rw [if_neg (by rw [Token.isSymbol, ht]; simpa using h)]
  exact Does.pure false

section

variable {first : Term} {mid : List TokenKind}

theorem reads_elements_more {cells : Term} {v'' : Vocabulary} {fin : List TokenKind}
    (he : ReadsExpression listElement false none v kinds
      (.value first v' (.symbolic "," :: mid)))
    (hm : mid.length < kinds.length) (ho : ReadsElements v' mid (.value cells v'' fin)) :
    ReadsElements v kinds (.value (Term.cell first cells) v'' fin) := by
  intro n hn
  obtain ⟨n, rfl⟩ : ∃ m, n = m + 1 := ⟨n - 1, by omega⟩
  rw [elements]
  refine (he n (by omega)).bind (does_eatSymbol_true.bind ?_)
  rw [if_pos rfl]
  exact (ho n (by omega)).bind (Does.pure _)

theorem reads_elements_tail {tail : Term} {v'' : Vocabulary} {fin : List TokenKind}
    (he : ReadsExpression listElement false none v kinds
      (.value first v' (.symbolic "|" :: mid)))
    (hm : mid.length < kinds.length)
    (ht : ReadsExpression listElement false none v' mid (.value tail v'' fin)) :
    ReadsElements v kinds (.value (Term.cell first tail) v'' fin) := by
  intro n hn
  obtain ⟨n, rfl⟩ : ∃ m, n = m + 1 := ⟨n - 1, by omega⟩
  rw [elements]
  refine (he n (by omega)).bind ((does_eatSymbol_false (by simp)).bind ?_)
  rw [if_neg Bool.false_ne_true]
  refine does_eatSymbol_true.bind ?_
  rw [if_pos rfl]
  exact (ht n (by omega)).bind (Does.pure _)

theorem reads_elements_last
    (he : ReadsExpression listElement false none v kinds (.value first v' mid))
    (hc : mid.headD .endOfInput ≠ .symbolic ",") (hb : mid.headD .endOfInput ≠ .symbolic "|") :
    ReadsElements v kinds (.value (Term.cell first Term.nil) v' mid) := by
  intro n hn
  obtain ⟨n, rfl⟩ : ∃ m, n = m + 1 := ⟨n - 1, by omega⟩
  rw [elements]
  refine (he n (by omega)).bind ((does_eatSymbol_false hc).bind ?_)
  rw [if_neg Bool.false_ne_true]
  refine (does_eatSymbol_false hb).bind ?_
  rw [if_neg Bool.false_ne_true]
  exact Does.pure _

end

theorem does_term (h : ReadsExpression lowest false none v kinds o) : term.Does v kinds o := by
  intro s hs
  have hl : s.ahead.items.length = kinds.length := by
    simpa using congrArg List.length hs.ahead.items
  rw [run, term, expressionAt]
  -- The bound is opaque from here on, so that no step of the reader unfolds.
  generalize hb : 4 * s.ahead.items.length + 4 = n
  exact h n (by omega) s hs

theorem does_goal {t : Term} {v'' : Vocabulary}
    (h : ReadsExpression lowest false none v kinds (.value t v'' [])) :
    (goal >>= fun g => pure g.term).Does v kinds (.value t v'' []) := by
  refine Does.bind_assoc (Does.peek_bind fun first _ => ?_)
  refine Does.bind_assoc ((does_term h).bind ?_)
  refine Does.bind_assoc (Does.spanFrom_bind _ fun span => ?_)
  refine Does.bind_assoc (Does.peek_bind fun u hu => ?_)
  rw [if_neg (by rw [hu]; simp)]
  refine Does.bind_assoc (Does.expect_end_bind fun e => ?_)
  exact Does.bind (Does.pure _) (Does.pure t)

theorem does_goal_refusal {fault : SyntaxFault}
    (h : ReadsExpression lowest false none v kinds (.refusal fault)) :
    (goal >>= fun g => pure g.term).Does v kinds (.refusal fault) := by
  refine Does.bind_assoc (Does.peek_bind fun first _ => ?_)
  exact Does.bind_assoc (does_term h).bind_refusal

end Parse

theorem parseTerm_eq (v : Vocabulary) (text : String) :
    parseTerm v text =
      let (r, s) := (Parse.goal >>= fun g => pure g.term).run (.initial v [] "<term>" text)
      (r, s.vocabulary) := by
  unfold parseTerm parseGoal
  rw [Parse.run_bind]
  rcases Parse.goal.run (.initial v [] "<term>" text) with ⟨r, s⟩
  cases r with
  | ok g => rfl
  | error e => rfl

section

variable {v v' : Vocabulary} {text : String} {kinds : List TokenKind}

theorem parseTerm_of_shows {t : Term} (hs : (Scan.ofText "<term>" text).Shows kinds)
    (h : Parse.ReadsExpression Precedence.lowest false none v kinds (.value t v' [])) :
    parseTerm v text = (.ok t, v') := by
  obtain ⟨s, hr, ha⟩ := Parse.does_goal h (.initial v [] "<term>" text) ⟨rfl, hs⟩
  rw [parseTerm_eq, hr, ← ha.vocabulary]

theorem parseTerm_refusal_of_shows {fault : SyntaxFault}
    (hs : (Scan.ofText "<term>" text).Shows kinds)
    (h : Parse.ReadsExpression Precedence.lowest false none v kinds (.refusal fault)) :
    ∃ span, (parseTerm v text).1 = .error (.grammar span fault) := by
  obtain ⟨span, s, hr⟩ := Parse.does_goal_refusal h (.initial v [] "<term>" text) ⟨rfl, hs⟩
  exact ⟨span, by rw [parseTerm_eq, hr]⟩

end

end Clausal
