import Clausal.Proofs.NamedRuns

/-!
# The names of terms

The readers of terms take all names from tokens. The bound of the mutual recursion carries the induction,
one lemma for each reader.
-/
namespace Clausal.Parse

open Precedence

-- The equations of the steps are at hand before the lemmas, which all unfold them.
attribute [local simp] expression climb operand arguments atomic elements

namespace Adds

theorem operatorAfter? (k : TokenKind) : WritesPlain (operatorAfter? k) := by
  refine vocabulary.bind fun v _ => ?_
  split
  · exact (peekAt 1).bind fun _ _ => pure trivial
  · exact pure trivial
  · exact pure trivial

theorem prefixAt? (k : TokenKind) : WritesPlain (prefixAt? k) := by
  refine vocabulary.bind fun v _ => ?_
  split
  · exact pure trivial
  · exact (peekAt 1).bind fun _ _ => pure trivial

theorem checkChain (t : Token) (o : Operator) (earlier : Option (Nat × Grouping)) :
    WritesPlain (checkChain t o earlier) := by
  unfold Parse.checkChain
  split
  · exact pure trivial
  · split_ifs
    · exact pure trivial
    · exact failAt _ _
    · exact failAt _ _
    · exact pure trivial

theorem integer (span : Span) (digits : String) : WritesPlain (integer span digits) := by
  unfold Parse.integer
  split
  · exact pure trivial
  · exact fail _

theorem loneOperator? : WritesPlain loneOperator? := by
  refine peek.bind fun t _ => vocabulary.bind fun v _ => ?_
  split
  · exact pure trivial
  · refine (peekAt 1).bind fun following _ => ?_
    split_ifs
    · exact next.bind fun _ _ => next.bind fun _ _ => pure trivial
    · exact pure trivial

theorem bindsAt (limit : Nat) : WritesPlain (bindsAt limit) := by
  unfold Parse.bindsAt
  split_ifs
  · exact peek.bind fun _ _ => pure trivial
  · exact pure trivial

/-- The readers of terms write plain names only, up to this bound. -/
structure TermReaders (n : Nat) : Prop where
  expression : ∀ limit strict earlier, WritesPlain (expression n limit strict earlier)
  climb : ∀ limit strict earlier first, WritesPlain (climb n limit strict earlier first)
  operand : ∀ limit, WritesPlain (operand n limit)
  arguments : WritesPlain (arguments n)
  atomic : ∀ limit, WritesPlain (atomic n limit)
  elements : WritesPlain (elements n)

namespace TermReaders

variable {n : Nat} (h : TermReaders n)
include h

theorem expression_succ (limit : Nat) (strict : Bool) (earlier : Option (Nat × Grouping)) :
    WritesPlain (Parse.expression (n + 1) limit strict earlier) := by
  rw [Parse.expression]
  exact (h.operand limit).bind fun first _ => h.climb limit strict earlier first

theorem climb_succ (limit : Nat) (strict : Bool) (earlier : Option (Nat × Grouping)) (first : Term) :
    WritesPlain (Parse.climb (n + 1) limit strict earlier first) := by
  rw [Parse.climb]
  refine peek.bind fun t _ => (operatorAfter? t.kind).bind fun found _ => ?_
  split
  · exact pure trivial
  · split_ifs
    · exact pure trivial
    · exact (checkChain _ _ _).bind fun _ _ => next.bind fun _ _ => h.climb _ _ _ _
    · exact (checkChain _ _ _).bind fun _ _ => next.bind fun _ _ =>
        (h.expression _ _ _).bind fun _ _ => h.climb _ _ _ _

theorem operand_succ (limit : Nat) : WritesPlain (Parse.operand (n + 1) limit) := by
  rw [Parse.operand]
  refine peek.bind fun t _ => (prefixAt? t.kind).bind fun found _ => ?_
  split
  · split_ifs
    · exact failAt _ _
    · exact next.bind fun _ _ => (h.expression _ _ _).bind fun _ _ => pure trivial
  · refine (h.atomic limit).bind fun head _ => ?_
    split_ifs
    · exact pure trivial
    · refine h.arguments.bind fun args _ => ?_
      split
      · exact pure trivial
      · exact (spanFrom _).bind fun _ _ => vocabulary.bind fun _ _ => ofExcept _

theorem arguments_succ : WritesPlain (Parse.arguments (n + 1)) := by
  rw [Parse.arguments]
  refine peek.bind fun t _ => vocabulary.bind fun v _ => ?_
  split_ifs
  · exact (h.atomic _).bind fun _ _ => h.arguments.bind fun _ _ => pure trivial
  · exact pure trivial

theorem atomic_succ (limit : Nat) : WritesPlain (Parse.atomic (n + 1) limit) := by
  rw [Parse.atomic]
  refine next.bind ?_
  rintro ⟨kind, span⟩ ht
  cases kind <;> dsimp only
  case ident name =>
    refine (bindsAt limit).bind fun binds _ => ?_
    split_ifs
    · exact next.bind fun _ _ => (h.expression _ _ _).bind fun _ _ =>
        written (ht.name rfl) fun _ => rfl
    · refine vocabulary.bind fun v _ => ?_
      split_ifs
      · exact failAt _ _
      · exact variableOrConstant (ht.name rfl)
  case symbolic name =>
    refine vocabulary.bind fun v _ => ?_
    split_ifs
    · exact failAt _ _
    · exact constant (ht.name rfl)
  case macroName name => exact constant (ht.name rfl)
  case int digits => exact integer _ _
  case float text => exact pure trivial
  case string text => exact stringLiteral text
  case quotation raw => exact ofExcept _
  case leftParen =>
    refine loneOperator?.bind fun found _ => ?_
    split
    · exact pure trivial
    · exact (h.expression _ _ _).bind fun _ _ => (expect _).bind fun _ _ => pure trivial
  case leftBracket =>
    refine peek.bind fun u _ => ?_
    split_ifs
    · exact next.bind fun _ _ => pure trivial
    · exact h.elements.bind fun _ _ => (expect _).bind fun _ _ => pure trivial
  case leftBrace =>
    exact (h.expression _ _ _).bind fun _ _ => (expect _).bind fun _ _ => pure trivial
  all_goals exact failAt _ _

theorem elements_succ : WritesPlain (Parse.elements (n + 1)) := by
  rw [Parse.elements]
  refine (h.expression _ _ _).bind fun first _ => (eatSymbol _).bind fun comma _ => ?_
  split_ifs
  · exact h.elements.bind fun _ _ => pure trivial
  · refine (eatSymbol _).bind fun bar _ => ?_
    split_ifs
    · exact (h.expression _ _ _).bind fun _ _ => pure trivial
    · exact pure trivial

end TermReaders

theorem termReaders (n : Nat) : TermReaders n := by
  induction n with
  | zero =>
    exact ⟨fun _ _ _ => fail _, fun _ _ _ _ => fail _, fun _ => fail _, fail _, fun _ => fail _,
      fail _⟩
  | succ n ih =>
    exact ⟨ih.expression_succ, ih.climb_succ, ih.operand_succ, ih.arguments_succ, ih.atomic_succ,
      ih.elements_succ⟩

theorem expressionAt (limit : Nat) (strict : Bool) : WritesPlain (expressionAt limit strict) :=
  sized (p := fun n => Parse.expression (4 * n + 4) limit strict none) fun n =>
    (termReaders (4 * n + 4)).expression limit strict none

theorem term : WritesPlain term := expressionAt lowest false

theorem closedTerm : WritesPlain closedTerm := expressionAt Precedence.atomic true

end Adds

end Clausal.Parse
