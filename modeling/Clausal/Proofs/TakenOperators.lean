import Clausal.Proofs.Lookahead

/-!
# The operators that an expression takes

An expression is read under a limit on the precedence of its operators, which excludes operators of
just that precedence if it is strict. The readers here give with a term the operators that were taken
for it outside all parentheses, brackets, braces and abstractions. An operator behind an operand always
obeys the limit. A prefix operator is only compared with the number: one of just that precedence
is taken under a strict limit as well. Nothing else gets past the limit.
-/
namespace Clausal

namespace Parse

/-- Steps of reading obey the laws of monads. -/
instance : LawfulMonad Parse := by
  refine LawfulMonad.mk' Parse (fun p => ?_) (fun _ _ => rfl) (fun p f g => ?_)
  · funext s
    change (p >>= fun a => pure (id a)) s = _
    rcases h : p s with ⟨e | a, s'⟩
    · exact Pairing.bind_of_error h
    · exact Pairing.bind_of_ok h
  · funext s
    rcases h : p s with ⟨e | a, s'⟩
    · rw [Pairing.bind_of_error (Pairing.bind_of_error h), Pairing.bind_of_error h]
    · rw [Pairing.bind_of_ok h]
      rcases h' : f a s' with ⟨e | b, s''⟩
      · rw [Pairing.bind_of_error h',
          Pairing.bind_of_error ((Pairing.bind_of_ok h).trans h')]
      · rw [Pairing.bind_of_ok h', Pairing.bind_of_ok ((Pairing.bind_of_ok h).trans h')]

/-- A sequence of two steps succeeds if both do, the second from where the first one ends. -/
theorem bind_eq_ok {α β : Type} {p : Parse α} {f : α → Parse β} {s s'' : ParseState} {b : β}
    (h : (p >>= f) s = (.ok b, s'')) : ∃ a s', p s = (.ok a, s') ∧ f a s' = (.ok b, s'') := by
  rcases hp : p s with ⟨e | a, s'⟩
  · rw [Pairing.bind_of_error hp] at h
    cases h
  · rw [Pairing.bind_of_ok hp] at h
    exact ⟨a, s', rfl, h⟩

namespace Noting

mutual

/-- A term with the operators taken for it, in the order of the text. -/
def expression : Nat → (limit : Nat) → (strict : Bool) → (earlier : Option (Nat × Grouping)) →
    Parse (Term × List (Symbol × Operator))
  | 0, _, _, _ => fail (.anomaly .exhausted)
  | n + 1, limit, strict, earlier => do
    let first ← operand n limit
    let whole ← climb n limit strict earlier first.1
    pure (whole.1, first.2 ++ whole.2)
termination_by structural n => n

def climb : Nat → (limit : Nat) → (strict : Bool) → (earlier : Option (Nat × Grouping)) →
    Term → Parse (Term × List (Symbol × Operator))
  | 0, _, _, _, _ => fail (.anomaly .exhausted)
  | n + 1, limit, strict, earlier, first => do
    let t ← peek
    match ← operatorAfter? t.kind with
    | none => pure (first, [])
    | some (s, o) =>
      if o.precedence < limit ∨ o.precedence = limit ∧ strict then pure (first, [])
      else
        checkChain t o earlier
        let _ ← next
        let taken := some (o.precedence, o.grouping)
        if o.placement = .afterOperand then
          let whole ← climb n limit strict taken (Term.node s [first])
          pure (whole.1, (s, o) :: whole.2)
        else
          let second ← expression n o.precedence (o.grouping ≠ .right) taken
          let whole ← climb n limit strict taken (Term.node s [first, second.1])
          pure (whole.1, (s, o) :: (second.2 ++ whole.2))
termination_by structural n => n

/-- What is read as an atomic term or as an argument takes no operator: those inside stand in
brackets, or in the body of an abstraction. -/
def operand : Nat → (limit : Nat) → Parse (Term × List (Symbol × Operator))
  | 0, _ => fail (.anomaly .exhausted)
  | n + 1, limit => do
    let t ← peek
    match ← prefixAt? t.kind with
    | some (s, o) =>
      if o.precedence < limit then failAt t.span (.looseOperator t.kind o.precedence limit)
      else
        let _ ← next
        let inner ← expression n o.precedence false (some (o.precedence, .right))
        pure (Term.node s [inner.1], (s, o) :: inner.2)
    | none =>
      let head ← atomic n limit
      if Precedence.application < limit then pure (head, [])
      else
        match ← arguments n with
        | [] => pure (head, [])
        | args =>
          let span ← spanFrom t.span
          let t ← ofExcept ((← vocabulary).apply span (head :: args))
          pure (t, [])
termination_by structural n => n

end

-- The equations of the steps are at hand before the lemmas, which all unfold them.
attribute [local simp] expression climb operand
attribute [local simp] Parse.expression Parse.climb Parse.operand

/-- Without the notes, the readers up to this bound are those of terms. -/
structure Forgets (n : Nat) : Prop where
  expression : ∀ limit strict earlier,
    Prod.fst <$> Noting.expression n limit strict earlier = Parse.expression n limit strict earlier
  climb : ∀ limit strict earlier first,
    Prod.fst <$> Noting.climb n limit strict earlier first = Parse.climb n limit strict earlier first
  operand : ∀ limit, Prod.fst <$> Noting.operand n limit = Parse.operand n limit

namespace Forgets

variable {n : Nat} (h : Forgets n)
include h

theorem expression_succ (limit : Nat) (strict : Bool) (earlier : Option (Nat × Grouping)) :
    Prod.fst <$> Noting.expression (n + 1) limit strict earlier =
      Parse.expression (n + 1) limit strict earlier := by
  rw [Noting.expression, Parse.expression, ← h.operand]
  simp only [map_bind, bind_map_left, ← h.climb, bind_pure_comp, Functor.map_map]

theorem climb_succ (limit : Nat) (strict : Bool) (earlier : Option (Nat × Grouping)) (first : Term) :
    Prod.fst <$> Noting.climb (n + 1) limit strict earlier first =
      Parse.climb (n + 1) limit strict earlier first := by
  rw [Noting.climb, Parse.climb, map_bind]
  refine bind_congr fun t => ?_
  rw [map_bind]
  refine bind_congr fun found => ?_
  rcases found with _ | ⟨s, o⟩
  · rfl
  dsimp only
  split_ifs
  · rfl
  all_goals
    simp only [map_bind, bind_map_left, ← h.climb, ← h.expression, bind_pure_comp, Functor.map_map]

theorem operand_succ (limit : Nat) :
    Prod.fst <$> Noting.operand (n + 1) limit = Parse.operand (n + 1) limit := by
  rw [Noting.operand, Parse.operand, map_bind]
  refine bind_congr fun t => ?_
  rw [map_bind]
  refine bind_congr fun found => ?_
  rcases found with _ | ⟨s, o⟩
  · dsimp only
    rw [map_bind]
    refine bind_congr fun head => ?_
    split_ifs
    · rfl
    · rw [map_bind]
      refine bind_congr fun args => ?_
      cases args with
      | nil => rfl
      | cons first others => simp only [map_bind, map_pure, bind_pure]
  · dsimp only
    split_ifs
    · rfl
    · simp only [map_bind, bind_map_left, map_pure, ← h.expression]

end Forgets

theorem forgets (n : Nat) : Forgets n := by
  induction n with
  | zero => exact ⟨fun _ _ _ => rfl, fun _ _ _ _ => rfl, fun _ => rfl⟩
  | succ n ih => exact ⟨ih.expression_succ, ih.climb_succ, ih.operand_succ⟩

end Noting

/-- An operator may stand in an expression of this limit. -/
def Admits (limit : Nat) (strict : Bool) (o : Operator) : Prop :=
  limit < o.precedence ∨ o.precedence = limit ∧ strict = false

instance (limit : Nat) (strict : Bool) (o : Operator) : Decidable (Admits limit strict o) :=
  inferInstanceAs (Decidable (_ ∨ _))

/-- The text ahead begins with this prefix operator, in front of a term. -/
def OpensWith (s : ParseState) (o : Operator) : Prop :=
  ∃ t name, s.ahead.get 0 = .token t ∧ prefixAt? t.kind s = (.ok (some (name, o)), s)

variable {n limit : Nat} {strict : Bool} {earlier : Option (Nat × Grouping)} {s s' : ParseState}
variable {o : Operator}

theorem admits_iff_not_loose :
    Admits limit strict o ↔ ¬ (o.precedence < limit ∨ o.precedence = limit ∧ strict) := by
  cases strict <;> simp [Admits] <;> omega

/-- Under an operator that is admitted all that is as tight is admitted. -/
theorem Admits.mono {other : Operator} (h : Admits limit strict o)
    (hle : o.precedence ≤ other.precedence) : Admits limit strict other := by
  rcases h with hlt | ⟨heq, hs⟩
  · exact .inl (by omega)
  · rcases Nat.lt_or_ge limit other.precedence with hlt | hge
    · exact .inl hlt
    · exact .inr ⟨by omega, hs⟩

theorem Admits.le (h : Admits limit strict o) : limit ≤ o.precedence := by
  rcases h with hlt | ⟨heq, -⟩ <;> omega

theorem prefixAt?_eq_ok {kind : TokenKind} {found : Option (Symbol × Operator)}
    (h : prefixAt? kind s = (.ok found, s')) : s' = s := by
  obtain ⟨v, s₁, hv, h⟩ := bind_eq_ok h
  obtain ⟨-, rfl⟩ := Prod.mk.inj hv
  cases hat : operatorAt? v .beforeOperand kind with
  | none =>
    simp only [hat] at h
    exact (Prod.mk.inj h).2.symm
  | some before =>
    simp only [hat] at h
    obtain ⟨t, s₂, ht, h⟩ := bind_eq_ok h
    rw [← (Prod.mk.inj h).2, (peekAt_eq_ok ht).1]

theorem peek_eq_ok {t : Token} (h : peek s = (.ok t, s')) :
    s' = s ∧ s.ahead.get 0 = .token t := by
  obtain ⟨hs, hget⟩ := peekAt_eq_ok h
  obtain ⟨u, hu, he⟩ := hget 0 (Nat.le_refl 0)
  exact ⟨hs, he rfl ▸ hu⟩

/-- What a token is as a prefix operator is what the text ahead opens with. -/
theorem opensWith_iff {t : Token} {found : Option (Symbol × Operator)} {s₁ : ParseState}
    (ht : peek s = (.ok t, s₁)) (h : prefixAt? t.kind s₁ = (.ok found, s')) :
    OpensWith s o ↔ o ∈ found.map Prod.snd := by
  obtain ⟨rfl, hget⟩ := peek_eq_ok ht
  obtain rfl := prefixAt?_eq_ok h
  constructor
  · rintro ⟨u, name, hu, hfound⟩
    obtain rfl : t = u := Item.token.inj (hget.symm.trans hu)
    obtain rfl := Except.ok.inj (Prod.mk.inj (h.symm.trans hfound)).1
    rfl
  · intro ho
    obtain ⟨⟨name, o'⟩, rfl, rfl⟩ := Option.map_eq_some_iff.1 ho
    exact ⟨t, name, hget, h⟩

namespace Noting

attribute [local simp] expression climb operand

variable {r : Term × List (Symbol × Operator)}

/-- The operators that are taken up to this bound keep to the limit, but for a prefix operator of just
that precedence in front. -/
structure KeepsLimit (n : Nat) : Prop where
  expression : ∀ {limit strict earlier s r s'},
    expression n limit strict earlier s = (.ok r, s') → ∀ x ∈ r.2, limit ≤ x.2.precedence
  climb : ∀ {limit strict earlier first s r s'},
    climb n limit strict earlier first s = (.ok r, s') → ∀ x ∈ r.2, Admits limit strict x.2
  operand : ∀ {limit s r s'}, operand n limit s = (.ok r, s') → ∀ strict,
    (∀ x ∈ r.2, limit ≤ x.2.precedence) ∧
      ((∀ x ∈ r.2, Admits limit strict x.2) ↔
        ¬ ∃ o, OpensWith s o ∧ o.precedence = limit ∧ strict = true)

namespace KeepsLimit

variable (h : KeepsLimit n)
include h

theorem expression_succ (hrun : Noting.expression (n + 1) limit strict earlier s = (.ok r, s')) :
    (∀ x ∈ r.2, limit ≤ x.2.precedence) ∧
      ((∀ x ∈ r.2, Admits limit strict x.2) ↔
        ¬ ∃ o, OpensWith s o ∧ o.precedence = limit ∧ strict = true) := by
  rw [Noting.expression] at hrun
  obtain ⟨first, s₁, hfirst, hrun⟩ := bind_eq_ok hrun
  obtain ⟨whole, s₂, hwhole, hrun⟩ := bind_eq_ok hrun
  obtain rfl := Except.ok.inj (Prod.mk.inj hrun).1
  obtain ⟨hle, hiff⟩ := h.operand hfirst strict
  have hrest := h.climb hwhole
  refine ⟨fun x hx => ?_, ?_⟩
  · rcases List.mem_append.1 hx with hx | hx
    · exact hle x hx
    · exact (hrest x hx).le
  · rw [← hiff]
    simp only [List.mem_append]
    exact ⟨fun hall x hx => hall x (.inl hx), fun hall x hx => hx.elim (hall x) (hrest x)⟩

theorem climb_succ {first : Term}
    (hrun : Noting.climb (n + 1) limit strict earlier first s = (.ok r, s')) :
    ∀ x ∈ r.2, Admits limit strict x.2 := by
  rw [Noting.climb] at hrun
  obtain ⟨t, s₁, -, hrun⟩ := bind_eq_ok hrun
  obtain ⟨found, s₂, -, hrun⟩ := bind_eq_ok hrun
  rcases found with _ | ⟨name, o⟩
  · obtain rfl := Except.ok.inj (Prod.mk.inj hrun).1
    simp
  dsimp only at hrun
  split_ifs at hrun with hloose hafter
  · obtain rfl := Except.ok.inj (Prod.mk.inj hrun).1
    simp
  all_goals
    have ho : Admits limit strict o := admits_iff_not_loose.2 hloose
    obtain ⟨-, s₃, -, hrun⟩ := bind_eq_ok hrun
    obtain ⟨-, s₄, -, hrun⟩ := bind_eq_ok hrun
  · obtain ⟨whole, s₅, hwhole, hrun⟩ := bind_eq_ok hrun
    obtain rfl := Except.ok.inj (Prod.mk.inj hrun).1
    exact List.forall_mem_cons.2 ⟨ho, h.climb hwhole⟩
  · obtain ⟨second, s₅, hsecond, hrun⟩ := bind_eq_ok hrun
    obtain ⟨whole, s₆, hwhole, hrun⟩ := bind_eq_ok hrun
    obtain rfl := Except.ok.inj (Prod.mk.inj hrun).1
    refine List.forall_mem_cons.2 ⟨ho, List.forall_mem_append.2 ⟨fun x hx => ?_, h.climb hwhole⟩⟩
    exact ho.mono (h.expression hsecond x hx)

theorem operand_succ (hrun : Noting.operand (n + 1) limit s = (.ok r, s')) (strict : Bool) :
    (∀ x ∈ r.2, limit ≤ x.2.precedence) ∧
      ((∀ x ∈ r.2, Admits limit strict x.2) ↔
        ¬ ∃ o, OpensWith s o ∧ o.precedence = limit ∧ strict = true) := by
  rw [Noting.operand] at hrun
  obtain ⟨t, s₁, ht, hrun⟩ := bind_eq_ok hrun
  obtain ⟨found, s₂, hfound, hrun⟩ := bind_eq_ok hrun
  have hopens : ∀ o, OpensWith s o ↔ o ∈ found.map Prod.snd := fun o => opensWith_iff ht hfound
  simp only [hopens]
  rcases found with _ | ⟨name, o⟩
  · -- Without a prefix operator nothing is taken.
    have hnone : r.2 = [] := by
      obtain ⟨head, s₃, -, hrun⟩ := bind_eq_ok hrun
      split_ifs at hrun
      · rw [← Except.ok.inj (Prod.mk.inj hrun).1]
      · obtain ⟨args, s₄, -, hrun⟩ := bind_eq_ok hrun
        cases args with
        | nil => rw [← Except.ok.inj (Prod.mk.inj hrun).1]
        | cons first others =>
          obtain ⟨span, s₅, -, hrun⟩ := bind_eq_ok hrun
          obtain ⟨v, s₆, -, hrun⟩ := bind_eq_ok hrun
          obtain ⟨u, s₇, -, hrun⟩ := bind_eq_ok hrun
          rw [← Except.ok.inj (Prod.mk.inj hrun).1]
    simp [hnone]
  · dsimp only at hrun
    split_ifs at hrun with hloose
    · cases hrun
    · obtain ⟨u, s₃, -, hrun⟩ := bind_eq_ok hrun
      obtain ⟨inner, s₄, hinner, hrun⟩ := bind_eq_ok hrun
      obtain rfl := Except.ok.inj (Prod.mk.inj hrun).1
      have htight := h.expression hinner
      have hle : limit ≤ o.precedence := Nat.not_lt.1 hloose
      refine ⟨List.forall_mem_cons.2 ⟨hle, fun x hx => Nat.le_trans hle (htight x hx)⟩, ?_⟩
      have ho : Admits limit strict o ↔ ¬ (o.precedence = limit ∧ strict = true) := by
        rw [admits_iff_not_loose]
        exact not_congr (or_iff_right hloose)
      simp only [List.forall_mem_cons, Option.map_some, Option.mem_some, exists_eq_left', ← ho]
      exact ⟨fun hall => hall.1, fun ho => ⟨ho, fun x hx => ho.mono (htight x hx)⟩⟩

end KeepsLimit

theorem keepsLimit (n : Nat) : KeepsLimit n := by
  induction n with
  | zero => exact ⟨fun h => (by cases h), fun h => (by cases h), fun h => (by cases h)⟩
  | succ n ih =>
    exact ⟨fun h => (ih.expression_succ h).1, fun h => ih.climb_succ h, fun h => ih.operand_succ h⟩

/-- The notes of a run that gives a term. -/
theorem expression_of_eq_ok {t : Term}
    (h : Parse.expression n limit strict earlier s = (.ok t, s')) :
    ∃ used, Noting.expression n limit strict earlier s = (.ok (t, used), s') := by
  rw [← (forgets n).expression, ← bind_pure_comp] at h
  obtain ⟨r, s₁, hr, h⟩ := bind_eq_ok h
  obtain ⟨ht, rfl⟩ := Prod.mk.inj h
  obtain rfl := Except.ok.inj ht
  exact ⟨r.2, hr⟩

end Noting

/-- All operators taken for an expression keep to its limit, save where a strict limit is met by a prefix
operator of just that precedence at the beginning: that one is taken, with what is as tight in
its operand. -/
theorem expression_keepsLimit {t : Term} (h : expression n limit strict earlier s = (.ok t, s')) :
    ∃ used, Noting.expression n limit strict earlier s = (.ok (t, used), s') ∧
      (∀ x ∈ used, limit ≤ x.2.precedence) ∧
        ((∀ x ∈ used, Admits limit strict x.2) ↔
          ¬ ∃ o, OpensWith s o ∧ o.precedence = limit ∧ strict = true) := by
  obtain ⟨used, hused⟩ := Noting.expression_of_eq_ok h
  cases n with
  | zero => cases h
  | succ n => exact ⟨used, hused, (Noting.keepsLimit n).expression_succ hused⟩

/-- A prefix operator that is as tight as an infix operator which groups to the left. -/
def negating : Vocabulary :=
  let v := (Vocabulary.initial.defineOperator "+" .infixLeft 160).2
  (v.defineOperator "neg" .prefixOp 160).2

/-- In `a + neg b`, at the right operand of `+`. -/
def negated : ParseState := .initial negating [] "<term>" "neg b"

def negation : Term := Term.node (negating.intern "neg").1 [.const (negating.intern "b").1]

/-- The limit of the right operand of `+` does not admit `neg`, which is taken. -/
theorem expression_keepsLimit_negated :
    ∃ s' used, expression 12 160 true (some (160, .left)) negated = (.ok negation, s') ∧
      Noting.expression 12 160 true (some (160, .left)) negated = (.ok (negation, used), s') ∧
        (¬ ∀ x ∈ used, Admits 160 true x.2) ∧ ∃ o, OpensWith negated o ∧ o.precedence = 160 := by
  have hterm : (expression 12 160 true (some (160, .left)) negated).1.toOption = some negation := by
    decide +kernel
  have hused : (Noting.expression 12 160 true (some (160, .left)) negated).1.toOption.map Prod.snd =
      some [((negating.intern "neg").1, ⟨.prefixOp, 160⟩)] := by
    decide +kernel
  rcases hrun : expression 12 160 true (some (160, .left)) negated with ⟨e | t, s'⟩
  · rw [hrun] at hterm
    cases hterm
  · rw [hrun] at hterm
    obtain rfl : t = negation := Option.some.inj hterm
    obtain ⟨used, hnoting, -, hiff⟩ := expression_keepsLimit hrun
    rw [hnoting] at hused
    obtain rfl : used = [((negating.intern "neg").1, ⟨.prefixOp, 160⟩)] := Option.some.inj hused
    have hnot : ¬ ∀ x ∈ [((negating.intern "neg").1, (⟨.prefixOp, 160⟩ : Operator))],
        Admits 160 true x.2 := by
      simp [Admits]
    obtain ⟨o, hopens, ho, -⟩ := Classical.not_not.1 (mt hiff.2 hnot)
    exact ⟨s', _, rfl, hnoting, hnot, o, hopens, ho⟩

end Parse

end Clausal
