import Clausal.Proofs.Comparison

/-!
# Terms are read alike

The readers of terms go together under every comparison. The bound of the mutual recursion carries the
induction, one lemma for each reader.
-/
namespace Clausal.Parse

open Precedence

-- The equations of the steps are at hand before the comparisons, which all unfold them.
attribute [local simp] expression climb operand arguments atomic elements

namespace Comparison

variable {C : Comparison} {W : World} {φ : Phase} {γ δ : Type} {χ : γ → Phase}
variable {S : World → γ → δ → Prop}

/-- The same operator under symbols of one name. -/
def operatorRel (W : World) (x y : Symbol × Operator) : Prop :=
  W.left.vocabulary.SameName W.right.vocabulary x.1 y.1 ∧ x.2 = y.2

/-- An operator at a kind of token makes the token a name. -/
theorem isSome_name?_of_operatorAt {v : Vocabulary} {p : Placement} {k : TokenKind}
    {x : Symbol × Operator} (h : operatorAt? v p k = some x) : k.name?.isSome = true := by
  cases hk : k.name? with
  | some name => rfl
  | none => simp [operatorAt?, operatorSymbol?, hk] at h

theorem operatorAfter_bind {k : TokenKind} {f : Option (Symbol × Operator) → Parse γ}
    {g : Option (Symbol × Operator) → Parse δ}
    (h : ∀ {x y}, Option.Rel (operatorRel W) x y → C.relates (.before k) χ W S (f x) (g y)) :
    C.relates (.before k) χ W S (operatorAfter? k >>= f) (operatorAfter? k >>= g) := by
  have he : C.relates (.before k) (fun _ => .before k) W
      (fun W' x y => W' = W ∧ Option.Rel (operatorRel W) x y) (operatorAfter? k)
      (operatorAfter? k) := by
    refine C.assume fun hW => vocabulary_bind ?_
    have hv := C.interchangeable hW
    have hname := fun x => isSome_name?_of_operatorAt (v := W.left.vocabulary) (k := k)
      (p := .betweenOperands) (x := x)
    have hbetween := hv.operatorAt .betweenOperands k
    have hafter := hv.operatorAt .afterOperand k
    revert hname hbetween hafter
    generalize operatorAt? W.left.vocabulary .betweenOperands k = b
    generalize operatorAt? W.right.vocabulary .betweenOperands k = b'
    generalize operatorAt? W.left.vocabulary .afterOperand k = a
    generalize operatorAt? W.right.vocabulary .afterOperand k = a'
    intro hname hbetween hafter
    cases hbetween with
    | none => exact C.pure rfl ⟨rfl, hafter⟩
    | some hb =>
      cases hafter with
      | none => exact C.pure rfl ⟨rfl, .some hb⟩
      | some ha =>
        refine peekBehind_bind (hname _ rfl) fun {t t'} ht => ?_
        rw [← ht.kind, ← hv.startsTerm_eq]
        refine C.pure rfl ⟨rfl, .some ?_⟩
        split_ifs
        · exact hb
        · exact ha
  refine C.bind he ?_
  rintro W' x y - ⟨rfl, hxy⟩
  exact h hxy

theorem prefixAt_bind {k : TokenKind} {f : Option (Symbol × Operator) → Parse γ}
    {g : Option (Symbol × Operator) → Parse δ}
    (h : ∀ {x y}, Option.Rel (operatorRel W) x y → C.relates (.before k) χ W S (f x) (g y)) :
    C.relates (.before k) χ W S (prefixAt? k >>= f) (prefixAt? k >>= g) := by
  have he : C.relates (.before k) (fun _ => .before k) W
      (fun W' x y => W' = W ∧ Option.Rel (operatorRel W) x y) (prefixAt? k) (prefixAt? k) := by
    refine C.assume fun hW => vocabulary_bind ?_
    have hv := C.interchangeable hW
    have hname := fun x => isSome_name?_of_operatorAt (v := W.left.vocabulary) (k := k)
      (p := .beforeOperand) (x := x)
    have hbefore := hv.operatorAt .beforeOperand k
    revert hname hbefore
    generalize operatorAt? W.left.vocabulary .beforeOperand k = b
    generalize operatorAt? W.right.vocabulary .beforeOperand k = b'
    intro hname hbefore
    cases hbefore with
    | none => exact C.pure rfl ⟨rfl, .none⟩
    | some hb =>
      refine peekBehind_bind (hname _ rfl) fun {t t'} ht => ?_
      rw [← ht.kind, ← hv.startsTerm_eq]
      refine C.pure rfl ⟨rfl, ?_⟩
      split_ifs
      · exact .some hb
      · exact .none
  refine C.bind he ?_
  rintro W' x y - ⟨rfl, hxy⟩
  exact h hxy

theorem checkChain_bind {t t' : Token} (ht : t.Matches C.spans t') (o : Operator)
    (earlier : Option (Nat × Grouping)) {f : Unit → Parse γ} {g : Unit → Parse δ}
    (h : C.relates φ χ W S (f ()) (g ())) :
    C.relates φ χ W S (checkChain t o earlier >>= f) (checkChain t' o earlier >>= g) := by
  have he : C.relates φ (fun _ => φ) W (fun W' _ _ => W' = W) (checkChain t o earlier)
      (checkChain t' o earlier) := by
    match earlier with
    | none => exact C.pure rfl rfl
    | some (precedence, grouping) =>
      dsimp only [checkChain]
      rw [← ht.kind]
      split_ifs
      · exact C.pure rfl rfl
      · exact failAt ht.span _
      · exact failAt ht.span _
      · exact C.pure rfl rfl
  refine C.bind he ?_
  rintro W' x y - rfl
  exact h

theorem reads_ofExcept {x y : Except TermError Term}
    (h : ExceptRel ((W.matching C.spans).Alike (α := TermError)) (C.terms W) x y) :
    C.reads φ (fun _ => φ) W C.terms (ofExcept x) (ofExcept y) := by
  match x, y, h with
  | .ok a, .ok b, h => exact reads_pure rfl h
  | .error e, .error e', h => exact C.fail fun r r' hj => congrArg ParseError.term (h r r' hj)

theorem reads_integer {a b : Span} (hab : C.spans a b) (digits : String) :
    C.reads φ (fun _ => φ) W C.terms (integer a digits) (integer b digits) := by
  unfold integer
  cases boundedNat? (Nat.pow 2 63 - 1) digits with
  | some n => exact reads_pure rfl rfl
  | none => exact failInteger hab

theorem reads_stringLiteral (text : String) :
    C.reads φ (fun _ => φ) W C.terms (stringLiteral text) (stringLiteral text) := by
  refine reads_bind (R := fun _ a b => a = b)
    (reads_change (.text text) (fun _ => rfl) (fun _ => rfl) fun _ => rfl) fun _ hab => ?_
  exact reads_pure rfl hab

theorem reads_variableOrConstant (name : String) :
    C.reads φ (fun _ => φ) W C.terms (variableOrConstant name) (variableOrConstant name) := by
  unfold variableOrConstant
  split_ifs
  · exact reads_freshVariable
  · exact reads_constant name

theorem terms_wellKnown (hW : C.admits W) {n : Nat} (hn : n < Symbol.wellKnown.length) :
    C.terms W (.const ⟨n⟩) (.const ⟨n⟩) :=
  (C.interchangeable hW).sameName_wellKnown hn

theorem terms_node {s t : Symbol} {as bs : List Term}
    (hst : W.left.vocabulary.SameName W.right.vocabulary s t) (h : C.termLists W as bs) :
    C.terms W (.node s as) (.node t bs) := ⟨hst, h⟩

theorem terms_cell (hW : C.admits W) {a b a' b' : Term} (h : C.terms W a b) (h' : C.terms W a' b') :
    C.terms W (.cell a a') (.cell b b') :=
  terms_node ((C.interchangeable hW).sameName_wellKnown (by decide)) ⟨h, h', trivial⟩

theorem loneOperator_bind {f g : Option Symbol → Parse Term}
    {S : World → Term → Term → Prop} {χ : Term → Phase}
    (h : ∀ {x y}, Option.Rel (W.left.vocabulary.SameName W.right.vocabulary) x y →
      C.relates .within χ W S (f x) (g y)) :
    C.relates .within χ W S (loneOperator? >>= f) (loneOperator? >>= g) := by
  have he : C.relates .within (fun _ => .within) W
      (fun W' x y => W' = W ∧ Option.Rel (W.left.vocabulary.SameName W.right.vocabulary) x y)
      loneOperator? loneOperator? := by
    refine peek_bind fun {t t'} ht => C.assume fun hW => vocabulary_bind ?_
    have hname : ∀ s, operatorSymbol? W.left.vocabulary t.kind = some s →
        t.kind.name?.isSome = true := by
      intro s hs
      obtain ⟨p, o, ho⟩ := Vocabulary.Interchangeable.operatorSymbol?_eq_some.1 hs
      exact isSome_name?_of_operatorAt ho
    have hsym := (C.interchangeable hW).operatorSymbol t.kind
    rw [← ht.kind]
    revert hname hsym
    generalize operatorSymbol? W.left.vocabulary t.kind = x
    generalize operatorSymbol? W.right.vocabulary t.kind = y
    intro hname hsym
    cases hsym with
    | none => exact C.reopen _ (C.pure rfl ⟨rfl, .none⟩)
    | some hst =>
      refine peekBehind_bind (hname _ rfl) fun {u u'} hu => ?_
      rw [← hu.kind]
      split_ifs
      · exact C.reopen _ (next_bind fun _ => next_bind fun _ => C.pure rfl ⟨rfl, .some hst⟩)
      · exact C.reopen _ (C.pure rfl ⟨rfl, .none⟩)
  refine C.bind he ?_
  rintro W' x y - ⟨rfl, hxy⟩
  exact h hxy

theorem bindsAt_bind (limit : Nat) {f : Bool → Parse γ} {g : Bool → Parse δ}
    (h : ∀ {b}, C.relates .within χ W S (f b) (g b)) :
    C.relates .within χ W S (bindsAt limit >>= f) (bindsAt limit >>= g) := by
  have he : C.relates .within (fun _ => .within) W (fun W' b b' => W' = W ∧ b = b')
      (bindsAt limit) (bindsAt limit) := by
    unfold bindsAt
    split_ifs
    · refine peek_bind fun {t t'} ht => C.reopen _ ?_
      rw [← ht.kind]
      exact C.pure rfl ⟨rfl, rfl⟩
    · exact C.pure rfl ⟨rfl, rfl⟩
  refine C.bind he ?_
  rintro W' b b' - ⟨rfl, rfl⟩
  exact h

/-- The readers of terms go together up to these bounds. -/
structure TermReaders (C : Comparison) (n m : Nat) : Prop where
  expression : ∀ {W} limit strict earlier,
    C.Reads W C.terms (expression n limit strict earlier) (expression m limit strict earlier)
  climb : ∀ {W} limit strict earlier {a b}, C.terms W a b →
    C.Reads W C.terms (climb n limit strict earlier a) (climb m limit strict earlier b)
  operand : ∀ {W} limit, C.Reads W C.terms (operand n limit) (operand m limit)
  arguments : ∀ {W}, C.Reads W C.termLists (arguments n) (arguments m)
  atomic : ∀ {W} limit, C.Reads W C.terms (atomic n limit) (atomic m limit)
  elements : ∀ {W}, C.Reads W C.terms (elements n) (elements m)

namespace TermReaders

variable {n m : Nat} (h : C.TermReaders n m)
include h

theorem expression_succ (limit : Nat) (strict : Bool) (earlier : Option (Nat × Grouping)) :
    C.Reads W C.terms (Parse.expression (n + 1) limit strict earlier)
      (Parse.expression (m + 1) limit strict earlier) := by
  rw [Parse.expression, Parse.expression]
  exact reads_bind (h.operand limit) fun _ hab => h.climb limit strict earlier hab

theorem climb_succ (limit : Nat) (strict : Bool) (earlier : Option (Nat × Grouping)) {a b : Term}
    (hab : C.terms W a b) :
    C.Reads W C.terms (Parse.climb (n + 1) limit strict earlier a)
      (Parse.climb (m + 1) limit strict earlier b) := by
  rw [Parse.climb, Parse.climb]
  refine peek_bind fun {t t'} ht => ?_
  rw [← ht.kind]
  refine operatorAfter_bind fun {x y} hxy => ?_
  cases hxy with
  | none => exact C.reopen _ (reads_pure rfl hab)
  | @some x y hxy =>
    obtain ⟨s, o⟩ := x
    obtain ⟨s', o'⟩ := y
    obtain ⟨hst, rfl⟩ : W.left.vocabulary.SameName W.right.vocabulary s s' ∧ o = o' := hxy
    dsimp only
    refine C.reopen _ ?_
    split_ifs
    · exact reads_pure rfl hab
    · refine checkChain_bind ht o earlier (next_bind fun _ => ?_)
      exact h.climb _ _ _ (terms_node hst ⟨hab, trivial⟩)
    · refine checkChain_bind ht o earlier (next_bind fun _ => ?_)
      refine reads_bind (h.expression _ _ _) fun hle hcd => ?_
      exact h.climb _ _ _ (terms_node (hst.mono hle.left hle.right)
        ⟨terms_mono hle hab, hcd, trivial⟩)

theorem operand_succ (limit : Nat) :
    C.Reads W C.terms (Parse.operand (n + 1) limit) (Parse.operand (m + 1) limit) := by
  rw [Parse.operand, Parse.operand]
  refine peek_bind fun {t t'} ht => ?_
  rw [← ht.kind]
  refine prefixAt_bind fun {x y} hxy => C.reopen _ ?_
  cases hxy with
  | none =>
    refine reads_bind (h.atomic limit) fun hle hab => ?_
    split_ifs
    · exact reads_pure rfl hab
    · refine reads_bind h.arguments fun {W' as bs} hle' has => ?_
      match as, bs, has with
      | [], [], _ => exact reads_pure rfl (terms_mono hle' hab)
      | a :: as, b :: bs, has =>
        refine spanFrom_bind ht.span fun hxy => C.assume fun hW => vocabulary_bind ?_
        exact reads_ofExcept ((C.interchangeable hW).apply_rel ⟨terms_mono hle' hab, has⟩ hxy)
  | @some x y hxy =>
    obtain ⟨s, o⟩ := x
    obtain ⟨s', o'⟩ := y
    obtain ⟨hst, rfl⟩ : W.left.vocabulary.SameName W.right.vocabulary s s' ∧ o = o' := hxy
    dsimp only
    split_ifs
    · exact failAt ht.span _
    · refine next_bind fun _ => reads_bind (h.expression _ _ _) fun hle hcd => ?_
      exact reads_pure rfl (terms_node (hst.mono hle.left hle.right) ⟨hcd, trivial⟩)

theorem arguments_succ :
    C.Reads W C.termLists (Parse.arguments (n + 1)) (Parse.arguments (m + 1)) := by
  rw [Parse.arguments, Parse.arguments]
  refine peek_bind fun {t t'} ht => C.reopen _ (C.assume fun hW => vocabulary_bind ?_)
  rw [← ht.kind, ← (C.interchangeable hW).startsArgument_eq]
  split_ifs
  · refine reads_bind (h.atomic _) fun _ hab => reads_bind h.arguments fun hle hs => ?_
    exact reads_pure rfl ⟨terms_mono hle hab, hs⟩
  · exact reads_pure rfl trivial

theorem elements_succ : C.Reads W C.terms (Parse.elements (n + 1)) (Parse.elements (m + 1)) := by
  rw [Parse.elements, Parse.elements]
  refine reads_bind (h.expression _ _ _) fun _ hab => eatSymbol_bind "," fun {b} => ?_
  cases b with
  | true =>
    simp only [if_true]
    refine reads_bind h.elements fun hle hcd => C.assume fun hW => ?_
    exact reads_pure rfl (terms_cell hW (terms_mono hle hab) hcd)
  | false =>
    simp only [Bool.false_eq_true, if_false]
    refine eatSymbol_bind "|" fun {b} => ?_
    cases b with
    | true =>
      simp only [if_true]
      refine reads_bind (h.expression _ _ _) fun hle hcd => C.assume fun hW => ?_
      exact reads_pure rfl (terms_cell hW (terms_mono hle hab) hcd)
    | false =>
      simp only [Bool.false_eq_true, if_false]
      refine C.assume fun hW => ?_
      exact reads_pure rfl (terms_cell hW hab (terms_wellKnown hW (by decide)))

theorem atomic_succ (limit : Nat) :
    C.Reads W C.terms (Parse.atomic (n + 1) limit) (Parse.atomic (m + 1) limit) := by
  have hfree : ∀ {W} (hW : C.admits W) (k : TokenKind),
      (operatorSymbol? W.left.vocabulary k).isSome = (operatorSymbol? W.right.vocabulary k).isSome :=
    fun hW k => Vocabulary.Interchangeable.isSome_eq_of_rel ((C.interchangeable hW).operatorSymbol k)
  rw [Parse.atomic, Parse.atomic]
  refine next_bind fun {t t'} ht => ?_
  rw [← ht.kind]
  generalize t.kind = k
  cases k with
  | ident name =>
    refine bindsAt_bind limit fun {b} => ?_
    cases b with
    | true =>
      simp only [if_true]
      refine next_bind fun _ => reads_bind (h.expression _ _ _) fun _ hab => ?_
      exact reads_lambda name hab
    | false =>
      simp only [Bool.false_eq_true, if_false]
      refine C.assume fun hW => vocabulary_bind ?_
      rw [← hfree hW]
      split_ifs
      · exact failAt ht.span _
      · exact reads_variableOrConstant name
  | symbolic name =>
    refine C.assume fun hW => vocabulary_bind ?_
    rw [← hfree hW]
    split_ifs
    · exact failAt ht.span _
    · exact reads_constant name
  | macroName name => exact reads_constant name
  | int digits => exact reads_integer ht.span digits
  | float text => exact reads_pure rfl rfl
  | string text => exact reads_stringLiteral text
  | quotation raw => exact reads_ofExcept (Term.ofQuotation_rel (fun _ _ => C.strip ht.span _ _) ht.span raw)
  | leftParen =>
    refine loneOperator_bind fun {x y} hxy => ?_
    cases hxy with
    | some hst => exact reads_pure rfl hst
    | none =>
      refine reads_bind (h.expression _ _ _) fun _ hab => expect_bind .rightParen fun _ => ?_
      exact reads_pure rfl hab
  | leftBracket =>
    refine peek_bind fun {u u'} hu => C.reopen _ ?_
    rw [← hu.kind]
    split_ifs
    · refine next_bind fun _ => C.assume fun hW => reads_pure rfl ?_
      exact terms_wellKnown hW (by decide)
    · refine reads_bind h.elements fun _ hab => expect_bind .rightBracket fun _ => ?_
      exact reads_pure rfl hab
  | leftBrace =>
    refine reads_bind (h.expression _ _ _) fun _ hab => expect_bind .rightBrace fun _ => ?_
    refine C.assume fun hW => reads_pure rfl ?_
    exact terms_node ((C.interchangeable hW).sameName_wellKnown (by decide)) ⟨hab, trivial⟩
  | rightParen | rightBracket | rightBrace | backslash | stop | endOfInput => exact failAt ht.span _

end TermReaders

theorem termReaders {n m : Nat} (hnm : C.bounds n m) : C.TermReaders n m := by
  induction n generalizing m with
  | zero =>
    constructor <;> intros <;> exact C.exhausted hnm fun hm => by rw [hm]; rfl
  | succ n ih =>
    obtain ⟨m, rfl, hlt⟩ := C.bounds_succ hnm
    have h := ih hlt
    exact ⟨h.expression_succ, h.climb_succ, h.operand_succ, h.arguments_succ, h.atomic_succ,
      h.elements_succ⟩

theorem reads_expressionAt (limit : Nat) (strict : Bool) :
    C.Reads W C.terms (expressionAt limit strict) (expressionAt limit strict) := by
  have hsize : ∀ {a b : Nat}, a ≤ b → 4 * a + 4 ≤ 4 * b + 4 := fun h => by omega
  exact C.sized hsize fun hnm => (termReaders hnm).expression limit strict none

theorem reads_term : C.Reads W C.terms term term := reads_expressionAt lowest false

theorem reads_closedTerm : C.Reads W C.terms closedTerm closedTerm :=
  reads_expressionAt Precedence.atomic true

end Comparison

end Clausal.Parse
