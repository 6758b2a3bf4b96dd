import Clausal.Proofs.LocatedRuns

/-!
# Where terms are read

The readers of terms stay in their unit, and what is quoted in a term is cut out of the text. The bound of
the mutual recursion carries the induction, one lemma for each reader.
-/
namespace Clausal.Parse

open Precedence

variable {loader : Loader} {u : Source}

-- The equations of the steps are at hand before the lemmas, which all unfold them.
attribute [local simp] expression climb operand arguments atomic elements

namespace Stays

/-- The step gives a term that is read from the unit. -/
abbrev ReadsTerm (loader : Loader) (u : Source) (p : Parse Term) : Prop :=
  Stays loader u p (·.ReadFrom u)

theorem operatorAfter? (k : TokenKind) : Stays loader u (operatorAfter? k) fun _ => True := by
  refine vocabulary.bind fun v _ => ?_
  split
  · exact (peekAt 1).bind fun _ _ => pure trivial
  · exact pure trivial
  · exact pure trivial

theorem prefixAt? (k : TokenKind) : Stays loader u (prefixAt? k) fun _ => True := by
  refine vocabulary.bind fun v _ => ?_
  split
  · exact pure trivial
  · exact (peekAt 1).bind fun _ _ => pure trivial

theorem checkChain {t : Token} (ht : t.WrittenIn u) (o : Operator)
    (earlier : Option (Nat × Grouping)) : Stays loader u (checkChain t o earlier) fun _ => True := by
  unfold Parse.checkChain
  split
  · exact pure trivial
  · split_ifs
    · exact pure trivial
    · exact Locates.failAt ht.exactIn _
    · exact Locates.failAt ht.exactIn _
    · exact pure trivial

theorem integer {span : Span} (h : span.ExactIn u) (digits : String) :
    ReadsTerm loader u (integer span digits) := by
  unfold Parse.integer
  split
  · exact pure (.literal trivial)
  · exact Locates.fail fun _ => ⟨span, rfl, h⟩

theorem stringLiteral (text : String) : ReadsTerm loader u (stringLiteral text) := by
  have hpool : Stays loader u (Parse.change (·.string text)) Literal.IsRead := change fun _ => rfl
  exact hpool.bind fun a ha => pure (.literal ha)

theorem variableOrConstant (name : String) : ReadsTerm loader u (variableOrConstant name) := by
  unfold Parse.variableOrConstant
  split_ifs
  · exact change fun _ => .const
  · exact change fun _ => .const

theorem constant (name : String) : ReadsTerm loader u (Parse.change (·.constant name)) :=
  change fun _ => .const

theorem loneOperator? : Stays loader u loneOperator? fun _ => True := by
  refine peek.bind fun t _ => vocabulary.bind fun v _ => ?_
  split
  · exact pure trivial
  · refine (peekAt 1).bind fun following _ => ?_
    split_ifs
    · exact next.bind fun _ _ => next.bind fun _ _ => pure trivial
    · exact pure trivial

theorem bindsAt (limit : Nat) : Stays loader u (bindsAt limit) fun _ => True := by
  unfold Parse.bindsAt
  split_ifs
  · exact peek.bind fun _ _ => pure trivial
  · exact pure trivial

/-- The quoted text is cut out of the token. -/
theorem quotation {t : Token} (ht : t.WrittenIn u) {raw : String} (hraw : t.kind = .quotation raw) :
    ReadsTerm loader u (Parse.ofExcept (Term.ofQuotation t.span raw)) := by
  unfold Term.ofQuotation
  cases hq : Quotation.ofRaw t.span raw.toList with
  | error fault => exact Locates.fail fun _ => ⟨t.span, rfl, ht.exactIn⟩
  | ok q => exact pure (.quoted (ht.cutFrom hraw hq))

/-- What cannot be applied is refused at the span of the application. -/
theorem application {span : Span} (hspan : span.ExactIn u) (v : Vocabulary) {head : Term}
    {args : List Term} (hall : ∀ t ∈ head :: args, t.ReadFrom u) :
    ReadsTerm loader u (Parse.ofExcept (v.apply span (head :: args))) := by
  refine ofExcept (fun t ht => .apply hall ht) fun e he _ => ?_
  have hmalformed : ∃ fault, e = .malformed span fault := by
    cases head with
    | app inner front => cases he
    | const s => cases args <;> cases he
    | quoted q => cases args <;> cases he
    | lam | literal => exact ⟨_, (Except.error.inj he).symm⟩
  obtain ⟨fault, rfl⟩ := hmalformed
  exact ⟨span, rfl, hspan⟩

/-- The readers of terms stay in their unit, up to this bound. -/
structure TermReaders (loader : Loader) (u : Source) (n : Nat) : Prop where
  expression : ∀ limit strict earlier, ReadsTerm loader u (expression n limit strict earlier)
  climb : ∀ limit strict earlier (first : Term), first.ReadFrom u →
    ReadsTerm loader u (climb n limit strict earlier first)
  operand : ∀ limit, ReadsTerm loader u (operand n limit)
  arguments : Stays loader u (arguments n) fun ts => ∀ t ∈ ts, t.ReadFrom u
  atomic : ∀ limit, ReadsTerm loader u (atomic n limit)
  elements : ReadsTerm loader u (elements n)

namespace TermReaders

variable {n : Nat} (h : TermReaders loader u n)
include h

theorem expression_succ (limit : Nat) (strict : Bool) (earlier : Option (Nat × Grouping)) :
    ReadsTerm loader u (Parse.expression (n + 1) limit strict earlier) := by
  rw [Parse.expression]
  exact (h.operand limit).bind fun first hfirst => h.climb limit strict earlier first hfirst

theorem climb_succ (limit : Nat) (strict : Bool) (earlier : Option (Nat × Grouping)) (first : Term)
    (hfirst : first.ReadFrom u) :
    ReadsTerm loader u (Parse.climb (n + 1) limit strict earlier first) := by
  rw [Parse.climb]
  refine peek.bind fun t ht => (operatorAfter? t.kind).bind fun found _ => ?_
  split
  · exact pure hfirst
  · split_ifs
    · exact pure hfirst
    · exact (checkChain ht _ _).bind fun _ _ => next.bind fun _ _ =>
        h.climb _ _ _ _ (.node_one hfirst)
    · exact (checkChain ht _ _).bind fun _ _ => next.bind fun _ _ =>
        (h.expression _ _ _).bind fun second hsecond => h.climb _ _ _ _ (.node_two hfirst hsecond)

theorem operand_succ (limit : Nat) : ReadsTerm loader u (Parse.operand (n + 1) limit) := by
  rw [Parse.operand]
  refine peek.bind fun t ht => (prefixAt? t.kind).bind fun found _ => ?_
  split
  · split_ifs
    · exact Locates.failAt ht.exactIn _
    · exact next.bind fun _ _ => (h.expression _ _ _).bind fun inner hinner =>
        pure (.node_one hinner)
  · refine (h.atomic limit).bind fun head hhead => ?_
    split_ifs
    · exact pure hhead
    · refine h.arguments.bind fun args hargs => ?_
      split
      · exact pure hhead
      · exact (spanFrom ht.exactIn).bind fun span hspan => vocabulary.bind fun v _ =>
          application hspan v (List.forall_mem_cons.2 ⟨hhead, hargs⟩)

theorem arguments_succ :
    Stays loader u (Parse.arguments (n + 1)) fun ts => ∀ t ∈ ts, t.ReadFrom u := by
  rw [Parse.arguments]
  refine peek.bind fun t _ => vocabulary.bind fun v _ => ?_
  split_ifs
  · exact (h.atomic _).bind fun first hfirst => h.arguments.bind fun others hothers =>
      pure (List.forall_mem_cons.2 ⟨hfirst, hothers⟩)
  · exact pure (by simp)

theorem atomic_succ (limit : Nat) : ReadsTerm loader u (Parse.atomic (n + 1) limit) := by
  rw [Parse.atomic]
  refine next.bind ?_
  rintro ⟨kind, span⟩ ht
  have hspan : span.ExactIn u := ht.exactIn
  cases kind <;> dsimp only
  case ident name =>
    refine (bindsAt limit).bind fun binds _ => ?_
    split_ifs
    · exact next.bind fun _ _ => (h.expression _ _ _).bind fun body hbody => change fun _ => hbody.lam
    · refine vocabulary.bind fun v _ => ?_
      split_ifs
      · exact Locates.failAt hspan _
      · exact variableOrConstant name
  case symbolic name =>
    refine vocabulary.bind fun v _ => ?_
    split_ifs
    · exact Locates.failAt hspan _
    · exact constant name
  case macroName name => exact constant name
  case int digits => exact integer hspan digits
  case float text => exact pure (.literal trivial)
  case string text => exact stringLiteral text
  case quotation raw => exact quotation ht rfl
  case leftParen =>
    refine loneOperator?.bind fun found _ => ?_
    split
    · exact pure .const
    · exact (h.expression _ _ _).bind fun inner hinner => (expect _).bind fun _ _ => pure hinner
  case leftBracket =>
    refine peek.bind fun t _ => ?_
    split_ifs
    · exact next.bind fun _ _ => pure .const
    · exact h.elements.bind fun cells hcells => (expect _).bind fun _ _ => pure hcells
  case leftBrace =>
    exact (h.expression _ _ _).bind fun inner hinner => (expect _).bind fun _ _ =>
      pure (.node_one hinner)
  all_goals exact Locates.failAt hspan _

theorem elements_succ : ReadsTerm loader u (Parse.elements (n + 1)) := by
  rw [Parse.elements]
  refine (h.expression _ _ _).bind fun first hfirst => (eatSymbol _).bind fun comma _ => ?_
  split_ifs
  · exact h.elements.bind fun rest hrest => pure (.cell hfirst hrest)
  · refine (eatSymbol _).bind fun bar _ => ?_
    split_ifs
    · exact (h.expression _ _ _).bind fun tail htail => pure (.cell hfirst htail)
    · exact pure (.cell hfirst .const)

end TermReaders

theorem termReaders (n : Nat) : TermReaders loader u n := by
  induction n with
  | zero =>
    exact ⟨fun _ _ _ => Locates.exhausted, fun _ _ _ _ _ => Locates.exhausted,
      fun _ => Locates.exhausted, Locates.exhausted, fun _ => Locates.exhausted, Locates.exhausted⟩
  | succ n ih =>
    exact ⟨ih.expression_succ, ih.climb_succ, ih.operand_succ, ih.arguments_succ, ih.atomic_succ,
      ih.elements_succ⟩

theorem expressionAt (limit : Nat) (strict : Bool) :
    ReadsTerm loader u (expressionAt limit strict) :=
  Locates.sized (p := fun n => Parse.expression (4 * n + 4) limit strict none) fun n =>
    (termReaders (4 * n + 4)).expression limit strict none

theorem term : ReadsTerm loader u term := expressionAt lowest false

theorem closedTerm : ReadsTerm loader u closedTerm := expressionAt Precedence.atomic true

end Stays

end Clausal.Parse
