import Clausal.Proofs.TermBrackets

/-!
# What is read derives

Where a reader of terms succeeds, the tokens that it has read derive a tree, the term is that of the tree,
and the vocabulary is left as the tree leaves it. So whatever a successful reading does can be read
off the tree.
-/
namespace Clausal

/-- Up to the first fault the items are tokens of these kinds, and the input ends behind them. -/
def Scan.Offers (u : Scan) (kinds : List TokenKind) : Prop :=
  ∀ n t, (∀ i < n, ∃ t, u.get i = .token t) → u.get n = .token t →
    t.kind = (kinds.drop n).headD .endOfInput

namespace Parse

theorem SameOperators.operatorBefore {v w : Vocabulary} (h : SameOperators v w)
    (k following : TokenKind) : operatorBefore? w k following = operatorBefore? v k following := by
  simp only [operatorBefore?, h.operatorAt, h.startsTerm]

theorem SameOperators.operatorAhead {v w : Vocabulary} (h : SameOperators v w) (X : List TokenKind) :
    operatorAhead? w X = operatorAhead? v X := h.operatorBehind _ _

theorem SameOperators.prefixAhead {v w : Vocabulary} (h : SameOperators v w) (X : List TokenKind) :
    prefixAhead? w X = prefixAhead? v X := h.operatorBefore _ _

theorem SameOperators.precedence_le {v w : Vocabulary} (h : SameOperators v w) (hw : w.WellFormed)
    {p : Placement} {k : TokenKind} {x : Symbol} {o : Operator}
    (hp : operatorAt? v p k = some (x, o)) : o.precedence ≤ Precedence.application := by
  rw [← h.operatorAt] at hp
  cases hname : k.name? with
  | none => rw [operatorAt?_of_name?_eq_none hname] at hp; cases hp
  | some n =>
    have hmem := (OperatorTable.mem_of_lookup ((operatorAt?_eq_some n hname).1 hp).2).1
    exact Nat.le_succ_of_le (hw.bounded _ hmem)

theorem eq_ok_of_pure {α : Type} {a b : α} {s s' : ParseState}
    (h : (pure a : Parse α) s = (.ok b, s')) : b = a ∧ s = s' := by
  obtain ⟨hb, rfl⟩ := Prod.mk.inj h
  exact ⟨(Except.ok.inj hb).symm, rfl⟩

end Parse

namespace Grammar

open Parse Precedence

/-- The state has read tokens of the scan only, and knows where the last of them stands. `X` are the kinds
that it has not read, and the operators of its vocabulary are those of `v`. -/
structure Facing (u : Scan) (kinds : List TokenKind) (v : Vocabulary) (s : ParseState) (w : Vocabulary)
    (X : List TokenKind) : Prop where
  vocabulary : s.vocabulary = w
  wellFormed : w.WellFormed
  operators : SameOperators v w
  ahead : ∃ k ≤ kinds.length, s.ahead = u.drop k ∧ (∀ i < k, ∃ t, u.get i = .token t) ∧
    X = kinds.drop k ∧ ∀ i t, k = i + 1 → u.get i = .token t → s.last = t.span

variable {u : Scan} {kinds X Y : List TokenKind} {v w w' : Vocabulary} {s s' : ParseState} {t : Token}

theorem eq_cons_of_headD {k : TokenKind} (h : X.headD .endOfInput = k) (hk : k ≠ .endOfInput) :
    ∃ Y, X = k :: Y := by
  cases X with
  | nil => exact absurd h.symm hk
  | cons j Y => exact ⟨Y, congrArg (· :: Y) h⟩

namespace Facing

theorem withVocabulary (h : Facing u kinds v s w X) (hw : w'.WellFormed) (ho : SameOperators w w') :
    Facing u kinds v { s with vocabulary := w' } w' X :=
  ⟨rfl, hw, h.operators.trans ho, h.ahead⟩

theorem build (h : Facing u kinds v s w X) (a : SyntaxTree) :
    Facing u kinds v { s with vocabulary := (a.build w).2 } (a.build w).2 X :=
  h.withVocabulary (a.build_wellFormed h.wellFormed) (a.build_sameOperators h.wellFormed)

theorem vocabulary_eq_ok (h : Facing u kinds v s w X) {w₁ : Vocabulary}
    (hrun : Parse.vocabulary s = (.ok w₁, s')) : w = w₁ ∧ s = s' := by
  obtain ⟨hw, rfl⟩ := Prod.mk.inj hrun
  exact ⟨h.vocabulary.symm.trans (Except.ok.inj hw), rfl⟩

theorem change_eq_ok {α : Type} (h : Facing u kinds v s w X) {c : Vocabulary → α × Vocabulary} {b : α}
    (hrun : change c s = (.ok b, s')) : b = (c w).1 ∧ s' = { s with vocabulary := (c w).2 } := by
  obtain ⟨hb, rfl⟩ := Prod.mk.inj hrun
  rw [h.vocabulary] at hb ⊢
  exact ⟨(Except.ok.inj hb).symm, rfl⟩

/-- A name that binds nothing is a term, unless it is an operator. -/
theorem name_eq_ok {name : String} {span : Span} {r : Term} (h : Facing u kinds v s w X)
    (hrun : (do
      if (operatorSymbol? (← Parse.vocabulary) (.ident name)).isSome then
        failAt span (.unexpectedOperator (.ident name))
      else variableOrConstant name : Parse Term) s = (.ok r, s')) :
    Single v (.ident name) (.ofName name) ∧ SameParts r ((SyntaxTree.ofName name).build w).1 ∧
      Facing u kinds v s' ((SyntaxTree.ofName name).build w).2 X := by
  obtain ⟨w', s₁, hw, hrun⟩ := bind_eq_ok hrun
  obtain ⟨rfl, rfl⟩ := h.vocabulary_eq_ok hw
  split_ifs at hrun with hoperator
  · cases hrun
  rw [h.operators.symbol] at hoperator
  have hname : change (fun v => nameTerm v name) s = (.ok r, s') := by
    unfold variableOrConstant at hrun
    unfold nameTerm
    split_ifs at hrun ⊢ <;> exact hrun
  obtain ⟨rfl, rfl⟩ := h.change_eq_ok hname
  have hbuild := SyntaxTree.build_ofName w name
  exact ⟨.name (by simpa using hoperator), by rw [hbuild], hbuild ▸ h.build _⟩

theorem precedence_le (h : Facing u kinds v s w X) {p : Placement} {k : TokenKind} {x : Symbol}
    {o : Operator} (hp : operatorAt? v p k = some (x, o)) : o.precedence ≤ application :=
  h.operators.precedence_le h.wellFormed hp

section

variable (hu : u.Offers kinds)
include hu

theorem peekAt_eq_ok {n : Nat} (h : Facing u kinds v s w X) (hrun : peekAt n s = (.ok t, s')) :
    s = s' ∧ t.kind = (X.drop n).headD .endOfInput := by
  obtain ⟨rfl, hget⟩ := Parse.peekAt_eq_ok hrun
  obtain ⟨k, -, hk, htokens, rfl, -⟩ := h.ahead
  simp only [hk, Scan.get_drop] at hget
  refine ⟨rfl, ?_⟩
  rw [List.drop_drop]
  refine hu (k + n) t (fun i hi => ?_) ?_
  · rcases Nat.lt_or_ge i k with hlt | hge
    · exact htokens i hlt
    · obtain ⟨t', ht', -⟩ := hget (i - k) (by omega)
      rw [Nat.add_sub_cancel' hge] at ht'
      exact ⟨t', ht'⟩
  · obtain ⟨t', ht', he⟩ := hget n (Nat.le_refl n)
    exact he rfl ▸ ht'

theorem peek_eq_ok (h : Facing u kinds v s w X) (hrun : peek s = (.ok t, s')) :
    s = s' ∧ t.kind = X.headD .endOfInput :=
  h.peekAt_eq_ok hu hrun

theorem next_eq_ok (h : Facing u kinds v s w X) (hrun : next s = (.ok t, s')) :
    t.kind = X.headD .endOfInput ∧ ∀ {k Y}, X = k :: Y → Facing u kinds v s' w Y := by
  obtain ⟨hget, rfl⟩ := Parse.next_eq_ok hrun
  obtain ⟨k, hle, hk, htokens, rfl, -⟩ := h.ahead
  rw [hk, Scan.get_drop] at hget
  refine ⟨hu k t htokens hget, fun {k' Y} hY => ⟨h.vocabulary, h.wellFormed, h.operators, k + 1, ?_, ?_,
    fun i hi => ?_, ?_, ?_⟩⟩
  · have hlength := congrArg List.length hY
    rw [List.length_drop, List.length_cons] at hlength
    omega
  · rw [hk, Scan.drop_drop]
  · rcases Nat.lt_succ_iff_lt_or_eq.1 hi with hlt | rfl
    · exact htokens i hlt
    · exact ⟨t, hget⟩
  · rw [← List.tail_drop, hY, List.tail_cons]
  · rintro i t' hi ht'
    obtain rfl := Nat.succ.inj hi
    rw [Nat.add_zero] at hget
    rw [Item.token.inj (hget.symm.trans ht')]

theorem expect_eq_ok {kind : TokenKind} (hkind : kind ≠ .endOfInput) (h : Facing u kinds v s w X)
    (hrun : expect kind s = (.ok t, s')) : ∃ Y, X = kind :: Y ∧ Facing u kinds v s' w Y := by
  obtain ⟨ht, hnext⟩ := Parse.expect_eq_ok hrun
  obtain ⟨hk, hs'⟩ := h.next_eq_ok hu hnext
  obtain ⟨Y, rfl⟩ := eq_cons_of_headD (hk.symm.trans ht) hkind
  exact ⟨Y, rfl, hs' rfl⟩

theorem eatSymbol_eq_ok {name : String} {b : Bool} (h : Facing u kinds v s w X)
    (hrun : eatSymbol name s = (.ok b, s')) :
    (b = true ∧ ∃ Y, X = .symbolic name :: Y ∧ Facing u kinds v s' w Y) ∨
      (b = false ∧ s = s' ∧ X.headD .endOfInput ≠ .symbolic name) := by
  obtain ⟨t, s₁, ht, hrun⟩ := bind_eq_ok hrun
  obtain ⟨rfl, hk⟩ := h.peek_eq_ok hu ht
  split_ifs at hrun with hname
  · obtain ⟨t', s₂, hnext, hrun⟩ := bind_eq_ok hrun
    obtain ⟨rfl, rfl⟩ := eq_ok_of_pure hrun
    refine .inl ⟨rfl, ?_⟩
    have hname : t.kind = .symbolic name := by simpa [Token.isSymbol] using hname
    obtain ⟨Y, rfl⟩ := eq_cons_of_headD (hk.symm.trans hname) (by simp)
    exact ⟨Y, rfl, (h.next_eq_ok hu hnext).2 rfl⟩
  · obtain ⟨rfl, rfl⟩ := eq_ok_of_pure hrun
    exact .inr ⟨rfl, rfl, fun hx => hname (decide_eq_true (hk.trans hx))⟩

theorem operatorAfter?_eq_ok {found : Option (Symbol × Operator)} (h : Facing u kinds v s w X)
    (hrun : operatorAfter? (X.headD .endOfInput) s = (.ok found, s')) :
    s = s' ∧ found = operatorAhead? v X := by
  obtain ⟨w', s₁, hw, hrun⟩ := bind_eq_ok hrun
  obtain ⟨rfl, rfl⟩ := h.vocabulary_eq_ok hw
  rw [← h.operators.operatorAhead, operatorAhead?, operatorBehind?]
  cases hbetween : operatorAt? w .betweenOperands (X.headD .endOfInput) with
  | none =>
    simp only [hbetween] at hrun
    exact (eq_ok_of_pure hrun).symm
  | some between =>
    cases hafter : operatorAt? w .afterOperand (X.headD .endOfInput) with
    | none =>
      simp only [hbetween, hafter] at hrun
      exact (eq_ok_of_pure hrun).symm
    | some after =>
      simp only [hbetween, hafter] at hrun
      obtain ⟨following, s₂, hfollowing, hrun⟩ := bind_eq_ok hrun
      obtain ⟨rfl, hk⟩ := h.peekAt_eq_ok hu hfollowing
      rw [← hk]
      exact (eq_ok_of_pure hrun).symm

theorem prefixAt?_eq_ok {found : Option (Symbol × Operator)} (h : Facing u kinds v s w X)
    (hrun : prefixAt? (X.headD .endOfInput) s = (.ok found, s')) :
    s = s' ∧ found = prefixAhead? v X := by
  obtain ⟨w', s₁, hw, hrun⟩ := bind_eq_ok hrun
  obtain ⟨rfl, rfl⟩ := h.vocabulary_eq_ok hw
  rw [← h.operators.prefixAhead, prefixAhead?, operatorBefore?]
  cases hbefore : operatorAt? w .beforeOperand (X.headD .endOfInput) with
  | none =>
    simp only [hbefore] at hrun
    exact (eq_ok_of_pure hrun).symm
  | some before =>
    simp only [hbefore] at hrun
    obtain ⟨following, s₂, hfollowing, hrun⟩ := bind_eq_ok hrun
    obtain ⟨rfl, hk⟩ := h.peekAt_eq_ok hu hfollowing
    dsimp only
    rw [← hk]
    exact (eq_ok_of_pure hrun).symm

theorem bindsAt_eq_ok {limit : Nat} (hl : limit ≤ binder) {b : Bool} (h : Facing u kinds v s w X)
    (hrun : bindsAt limit s = (.ok b, s')) :
    s = s' ∧ b = decide (X.headD .endOfInput = .backslash) := by
  rw [bindsAt, if_pos hl] at hrun
  obtain ⟨t, s₁, ht, hrun⟩ := bind_eq_ok hrun
  obtain ⟨rfl, hk⟩ := h.peek_eq_ok hu ht
  rw [← hk]
  exact (eq_ok_of_pure hrun).symm

theorem loneOperator?_eq_ok {found : Option Symbol} (h : Facing u kinds v s w X)
    (hrun : loneOperator? s = (.ok found, s')) :
    (∃ k x Y, X = k :: .rightParen :: Y ∧ operatorSymbol? v k = some x ∧ found = some x ∧
        Facing u kinds v s' w Y) ∨
      (found = none ∧ s = s' ∧ (operatorSymbol? v (X.headD .endOfInput) = none ∨
        (X.drop 1).headD .endOfInput ≠ .rightParen)) := by
  obtain ⟨t, s₁, ht, hrun⟩ := bind_eq_ok hrun
  obtain ⟨rfl, hk⟩ := h.peek_eq_ok hu ht
  obtain ⟨w', s₂, hw, hrun⟩ := bind_eq_ok hrun
  obtain ⟨rfl, rfl⟩ := h.vocabulary_eq_ok hw
  rw [hk, h.operators.symbol] at hrun
  cases hx : operatorSymbol? v (X.headD .endOfInput) with
  | none =>
    simp only [hx] at hrun
    obtain ⟨rfl, rfl⟩ := eq_ok_of_pure hrun
    exact .inr ⟨rfl, rfl, .inl rfl⟩
  | some x =>
    simp only [hx] at hrun
    obtain ⟨following, s₃, hfollowing, hrun⟩ := bind_eq_ok hrun
    obtain ⟨rfl, hf⟩ := h.peekAt_eq_ok hu hfollowing
    split_ifs at hrun with hparen
    · obtain ⟨t₁, s₄, hfirst, hrun⟩ := bind_eq_ok hrun
      obtain ⟨t₂, s₅, hsecond, hrun⟩ := bind_eq_ok hrun
      obtain ⟨rfl, rfl⟩ := eq_ok_of_pure hrun
      match X, h, hx, hf.symm.trans hparen with
      | k :: j :: Y, h, hx, hj =>
        obtain rfl : j = .rightParen := hj
        have hs₄ := (h.next_eq_ok hu hfirst).2 rfl
        exact .inl ⟨k, x, Y, rfl, hx, rfl, (hs₄.next_eq_ok hu hsecond).2 rfl⟩
    · obtain ⟨rfl, rfl⟩ := eq_ok_of_pure hrun
      exact .inr ⟨rfl, rfl, .inr fun hx => hparen (hf.trans hx)⟩

end

end Facing

theorem chains_of_checkChain {o : Operator} {earlier : Option (Nat × Grouping)}
    (hrun : checkChain t o earlier s = (.ok (), s')) : s = s' ∧ Chains earlier o := by
  cases earlier with
  | none => exact ⟨(eq_ok_of_pure hrun).2, fun _ _ h => (by cases h)⟩
  | some e =>
    obtain ⟨p, g⟩ := e
    dsimp only [checkChain] at hrun
    split_ifs at hrun with hp hnone hg
    · refine ⟨(eq_ok_of_pure hrun).2, fun _ _ h he => ?_⟩
      obtain ⟨rfl, rfl⟩ := Prod.mk.inj (Option.some.inj h)
      exact absurd he hp
    · cases hrun
    · cases hrun
    · refine ⟨(eq_ok_of_pure hrun).2, fun _ _ h _ => ?_⟩
      obtain ⟨rfl, rfl⟩ := Prod.mk.inj (Option.some.inj h)
      exact ⟨Classical.not_not.1 hg, fun hn => hnone (.inl hn)⟩

attribute [local simp] expression climb operand arguments Parse.atomic elements

/-- The term that has been read is that of a tree which the tokens derive. -/
def HasRead (u : Scan) (kinds : List TokenKind) (v : Vocabulary) (part : Part) (w : Vocabulary)
    (X : List TokenKind) (t : Term) (s' : ParseState) : Prop :=
  ∃ a Y, Derives v part X a Y ∧ SameParts t (a.build w).1 ∧ Facing u kinds v s' (a.build w).2 Y

/-- Up to this bound the readers read what derives. A reader that goes on with a term has the tree of
that term behind it. -/
structure ReadsDerived (u : Scan) (kinds : List TokenKind) (v : Vocabulary) (n : Nat) : Prop where
  expression : ∀ {limit strict earlier s w X t s'}, limit ≤ application → Facing u kinds v s w X →
    expression n limit strict earlier s = (.ok t, s') →
      HasRead u kinds v (.expression limit strict earlier) w X t s'
  climb : ∀ {limit strict earlier first a s w X t s'}, Facing u kinds v s (a.build w).2 X →
    SameParts first (a.build w).1 → climb n limit strict earlier first s = (.ok t, s') →
      HasRead u kinds v (.climb limit strict earlier a) w X t s'
  operand : ∀ {limit s w X t s'}, limit ≤ application → Facing u kinds v s w X →
    operand n limit s = (.ok t, s') → HasRead u kinds v (.operand limit) w X t s'
  arguments : ∀ {first a s w X ts s'}, Facing u kinds v s (a.build w).2 X →
    SameParts first (a.build w).1 → arguments n s = (.ok ts, s') →
      ∃ b Y, ((ts ≠ [] → a.isApplicable = true) → Derives v (.arguments a) X b Y) ∧
        SameParts (ts.foldl Term.applied first) (b.build w).1 ∧ Facing u kinds v s' (b.build w).2 Y
  atomic : ∀ {limit s w X t s'}, limit ≤ binder → Facing u kinds v s w X →
    Parse.atomic n limit s = (.ok t, s') → HasRead u kinds v .atom w X t s'
  elements : ∀ {s w X t s'}, Facing u kinds v s w X → elements n s = (.ok t, s') →
    HasRead u kinds v .elements w X t s'

namespace ReadsDerived

variable {n limit : Nat} {strict : Bool} {earlier : Option (Nat × Grouping)} {first r : Term}
variable {ts : List Term} {a : SyntaxTree}
variable (hu : u.Offers kinds) (h : ReadsDerived u kinds v n)
include h

theorem expression_succ (hl : limit ≤ application) (hs : Facing u kinds v s w X)
    (hrun : Parse.expression (n + 1) limit strict earlier s = (.ok r, s')) :
    HasRead u kinds v (.expression limit strict earlier) w X r s' := by
  rw [Parse.expression] at hrun
  obtain ⟨first, s₁, hfirst, hrun⟩ := bind_eq_ok hrun
  obtain ⟨a, Y, ha, hsame, hs₁⟩ := h.operand hl hs hfirst
  obtain ⟨b, Z, hb, hsame', hs'⟩ := h.climb hs₁ hsame hrun
  exact ⟨b, Z, .expression ha hb, hsame', hs'⟩

include hu

theorem climb_succ (hs : Facing u kinds v s (a.build w).2 X) (hfirst : SameParts first (a.build w).1)
    (hrun : Parse.climb (n + 1) limit strict earlier first s = (.ok r, s')) :
    HasRead u kinds v (.climb limit strict earlier a) w X r s' := by
  rw [Parse.climb] at hrun
  obtain ⟨t, s₁, ht, hrun⟩ := bind_eq_ok hrun
  obtain ⟨rfl, hk⟩ := hs.peek_eq_ok hu ht
  obtain ⟨found, s₂, hfound, hrun⟩ := bind_eq_ok hrun
  rw [hk] at hfound
  obtain ⟨rfl, rfl⟩ := hs.operatorAfter?_eq_ok hu hfound
  cases hahead : operatorAhead? v X with
  | none =>
    rw [hahead] at hrun
    obtain ⟨rfl, rfl⟩ := eq_ok_of_pure hrun
    exact ⟨a, X, .stop (by simp [hahead]), hfirst, hs⟩
  | some e =>
    obtain ⟨x, o⟩ := e
    rw [hahead] at hrun
    dsimp only at hrun
    split_ifs at hrun with hloose hafter
    · obtain ⟨rfl, rfl⟩ := eq_ok_of_pure hrun
      refine ⟨a, X, .stop fun e he hadmits => ?_, hfirst, hs⟩
      obtain rfl := Option.some.inj (hahead.symm.trans he)
      exact admits_iff_not_loose.1 hadmits hloose
    all_goals
      obtain ⟨⟨⟩, s₃, hchain, hrun⟩ := bind_eq_ok hrun
      obtain ⟨rfl, hchains⟩ := chains_of_checkChain hchain
      obtain ⟨t', s₄, hnext, hrun⟩ := bind_eq_ok hrun
      obtain ⟨p, hp⟩ := operatorAt?_of_operatorBehind? hahead
      obtain ⟨k, X, rfl⟩ : ∃ k Y, X = k :: Y := by
        cases X with
        | nil => rw [List.headD_nil, operatorAt?_of_name?_eq_none rfl] at hp; cases hp
        | cons k Y => exact ⟨k, Y, rfl⟩
      have hs₄ := (hs.next_eq_ok hu hnext).2 rfl
      have hadmits := admits_iff_not_loose.2 hloose
    · obtain ⟨b, Y, hb, hsame, hs'⟩ := h.climb (a := .unary x a) hs₄ (.node (.singleton hfirst)) hrun
      exact ⟨b, Y, .after hahead hadmits hchains hafter hb, hsame, hs'⟩
    · obtain ⟨second, s₅, hsecond, hrun⟩ := bind_eq_ok hrun
      obtain ⟨b, Y, hb, hsame, hs₅⟩ := h.expression (hs.precedence_le hp) hs₄ hsecond
      obtain ⟨c, Z, hc, hsame', hs'⟩ := h.climb (a := .binary x a b) hs₅
        (.node (hfirst.cons (.singleton hsame))) hrun
      exact ⟨c, Z, .between hahead hadmits hchains hafter hb hc, hsame', hs'⟩

theorem operand_succ (hl : limit ≤ application) (hs : Facing u kinds v s w X)
    (hrun : Parse.operand (n + 1) limit s = (.ok r, s')) :
    HasRead u kinds v (.operand limit) w X r s' := by
  rw [Parse.operand] at hrun
  obtain ⟨t, s₁, ht, hrun⟩ := bind_eq_ok hrun
  obtain ⟨rfl, hk⟩ := hs.peek_eq_ok hu ht
  obtain ⟨found, s₂, hfound, hrun⟩ := bind_eq_ok hrun
  rw [hk] at hfound
  obtain ⟨rfl, rfl⟩ := hs.prefixAt?_eq_ok hu hfound
  cases hahead : prefixAhead? v X with
  | some e =>
    obtain ⟨x, o⟩ := e
    rw [hahead] at hrun
    dsimp only at hrun
    split_ifs at hrun with hloose
    · cases hrun
    obtain ⟨t', s₃, hnext, hrun⟩ := bind_eq_ok hrun
    obtain ⟨inner, s₄, hinner, hrun⟩ := bind_eq_ok hrun
    obtain ⟨rfl, rfl⟩ := eq_ok_of_pure hrun
    have hp := operatorAt?_of_operatorBefore? hahead
    cases X with
    | nil => rw [List.headD_nil, operatorAt?_of_name?_eq_none rfl] at hp; cases hp
    | cons k X =>
      have hs₃ := (hs.next_eq_ok hu hnext).2 rfl
      obtain ⟨a, Y, ha, hsame, hs'⟩ := h.expression (hs.precedence_le hp) hs₃ hinner
      exact ⟨.unary x a, Y, .before hahead (Nat.not_lt.1 hloose) ha, .node (.singleton hsame), hs'⟩
  | none =>
    rw [hahead] at hrun
    obtain ⟨head, s₃, hhead, hrun⟩ := bind_eq_ok hrun
    obtain ⟨a, Y, ha, hsame, hs₃⟩ := h.atomic (Nat.le_succ_of_le hl) hs hhead
    rw [if_neg (Nat.not_lt.2 hl)] at hrun
    obtain ⟨ts, s₄, hts, hrun⟩ := bind_eq_ok hrun
    obtain ⟨b, Z, hb, hsame', hs₄⟩ := h.arguments hs₃ hsame hts
    cases ts with
    | nil =>
      obtain ⟨rfl, rfl⟩ := eq_ok_of_pure hrun
      exact ⟨b, Z, .application hahead ha (hb fun hne => absurd rfl hne), hsame', hs₄⟩
    | cons first others =>
      obtain ⟨span, s₅, hspan, hrun⟩ := bind_eq_ok hrun
      obtain ⟨-, rfl⟩ := Prod.mk.inj hspan
      obtain ⟨w', s₆, hw, hrun⟩ := bind_eq_ok hrun
      obtain ⟨rfl, rfl⟩ := hs₄.vocabulary_eq_ok hw
      have happlicable : a.isApplicable = head.isApplicable := by
        rw [hsame.isApplicable, a.isApplicable_build]
      cases hhead : head.isApplicable with
      | false =>
        rw [Vocabulary.apply_of_not_isApplicable _ _ _ _ hhead] at hrun
        cases hrun
      | true =>
        rw [Vocabulary.apply_of_isApplicable _ _ _ _ hhead] at hrun
        obtain ⟨rfl, rfl⟩ := eq_ok_of_pure hrun
        exact ⟨b, Z, .application hahead ha (hb fun _ => happlicable.trans hhead), hsame', hs₄⟩

theorem arguments_succ (hs : Facing u kinds v s (a.build w).2 X)
    (hfirst : SameParts first (a.build w).1)
    (hrun : Parse.arguments (n + 1) s = (.ok ts, s')) :
    ∃ b Y, ((ts ≠ [] → a.isApplicable = true) → Derives v (.arguments a) X b Y) ∧
      SameParts (ts.foldl Term.applied first) (b.build w).1 ∧ Facing u kinds v s' (b.build w).2 Y := by
  rw [Parse.arguments] at hrun
  obtain ⟨t, s₁, ht, hrun⟩ := bind_eq_ok hrun
  obtain ⟨rfl, hk⟩ := hs.peek_eq_ok hu ht
  obtain ⟨w', s₂, hw, hrun⟩ := bind_eq_ok hrun
  obtain ⟨rfl, rfl⟩ := hs.vocabulary_eq_ok hw
  rw [hs.operators.startsArgument, hk] at hrun
  split_ifs at hrun with hstarts
  · obtain ⟨second, s₃, hsecond, hrun⟩ := bind_eq_ok hrun
    obtain ⟨others, s₄, hothers, hrun⟩ := bind_eq_ok hrun
    obtain ⟨rfl, rfl⟩ := eq_ok_of_pure hrun
    obtain ⟨b, Y, hb, hsame, hs₃⟩ := h.atomic (Nat.le_refl _) hs hsecond
    obtain ⟨c, Z, hc, hsame', hs₄⟩ := h.arguments (a := .apply a b) hs₃ (hfirst.applied hsame) hothers
    exact ⟨c, Z, fun ha => .argument hstarts (ha (List.cons_ne_nil _ _)) hb (hc fun _ => rfl), hsame', hs₄⟩
  · obtain ⟨rfl, rfl⟩ := eq_ok_of_pure hrun
    exact ⟨a, X, fun _ => .noArgument (Bool.eq_false_iff.2 hstarts), hfirst, hs⟩

theorem elements_succ (hs : Facing u kinds v s w X)
    (hrun : Parse.elements (n + 1) s = (.ok r, s')) : HasRead u kinds v .elements w X r s' := by
  have hl : listElement ≤ application := by decide
  rw [Parse.elements] at hrun
  obtain ⟨first, s₁, hfirst, hrun⟩ := bind_eq_ok hrun
  obtain ⟨a, Y, ha, hsame, hs₁⟩ := h.expression hl hs hfirst
  obtain ⟨comma, s₂, hcomma, hrun⟩ := bind_eq_ok hrun
  rcases hs₁.eatSymbol_eq_ok hu hcomma with ⟨rfl, Y, rfl, hs₂⟩ | ⟨rfl, rfl, hnot⟩
  · obtain ⟨rest, s₃, hrest, hrun⟩ := bind_eq_ok hrun
    obtain ⟨rfl, rfl⟩ := eq_ok_of_pure hrun
    obtain ⟨b, Z, hb, hsame', hs₃⟩ := h.elements hs₂ hrest
    exact ⟨.cell a b, Z, .more ha hb, .node (hsame.cons (.singleton hsame')), hs₃⟩
  obtain ⟨bar, s₂, hbar, hrun⟩ := bind_eq_ok hrun
  rcases hs₁.eatSymbol_eq_ok hu hbar with ⟨rfl, Y, rfl, hs₂⟩ | ⟨rfl, rfl, hnot'⟩
  · obtain ⟨tail, s₃, htail, hrun⟩ := bind_eq_ok hrun
    obtain ⟨rfl, rfl⟩ := eq_ok_of_pure hrun
    obtain ⟨b, Z, hb, hsame', hs₃⟩ := h.expression hl hs₂ htail
    exact ⟨.cell a b, Z, .tail ha hb, .node (hsame.cons (.singleton hsame')), hs₃⟩
  · obtain ⟨rfl, rfl⟩ := eq_ok_of_pure hrun
    exact ⟨.cell a .nil, Y, .last ha hnot hnot', .node (hsame.cons (.singleton rfl)), hs₁⟩

omit h hu in
theorem hasRead_single {k : TokenKind} (ha : Single v k a) (hb : ¬ Binds k X)
    (hr : SameParts r (a.build w).1) (hs : Facing u kinds v s (a.build w).2 X) :
    HasRead u kinds v .atom w (k :: X) r s :=
  ⟨a, X, .single ha hb, hr, hs⟩

theorem name_succ {name : String} (hl : limit ≤ binder) (hs : Facing u kinds v s w X)
    (hrun : (do
      if ← bindsAt limit then
        let _ ← next
        let body ← Parse.expression n lowest false none
        change (·.lambda name body)
      else if (operatorSymbol? (← vocabulary) (.ident name)).isSome then
        failAt t.span (.unexpectedOperator (.ident name))
      else variableOrConstant name : Parse Term) s = (.ok r, s')) :
    HasRead u kinds v .atom w (.ident name :: X) r s' := by
  obtain ⟨binds, s₂, hbinds, hrun⟩ := bind_eq_ok hrun
  obtain ⟨rfl, rfl⟩ := hs.bindsAt_eq_ok hu hl hbinds
  split_ifs at hrun with hback
  · obtain ⟨t', s₂, hnext, hrun⟩ := bind_eq_ok hrun
    obtain ⟨body, s₃, hbody, hrun⟩ := bind_eq_ok hrun
    obtain ⟨X, rfl⟩ := eq_cons_of_headD (of_decide_eq_true hback) (by simp)
    obtain ⟨a, Y, ha, hsame, hs₃⟩ := h.expression (by decide) ((hs.next_eq_ok hu hnext).2 rfl) hbody
    obtain ⟨rfl, rfl⟩ := hs₃.change_eq_ok hrun
    exact ⟨.lambda name a, Y, .lambda ha, hsame.lam _,
      hs₃.withVocabulary (hs₃.wellFormed.intern name) (.intern hs₃.wellFormed name)⟩
  · obtain ⟨ha, hsame, hs'⟩ := hs.name_eq_ok hrun
    refine hasRead_single ha ?_ hsame hs'
    rintro ⟨-, -, hb⟩
    exact hback (decide_eq_true hb)

omit h in
/-- Between brackets stands what the inner reader has read. -/
theorem enclosed_eq_ok {reader : Parse Term} {f : Term → Term} {part : Part} {closing : TokenKind}
    (hclosing : closing ≠ .endOfInput)
    (hreader : ∀ {t s₁}, reader s = (.ok t, s₁) → HasRead u kinds v part w X t s₁)
    (hrun : (do
      let inner ← reader
      let _ ← expect closing
      pure (f inner) : Parse Term) s = (.ok r, s')) :
    ∃ inner a Y, Derives v part X a (closing :: Y) ∧ SameParts inner (a.build w).1 ∧ r = f inner ∧
      Facing u kinds v s' (a.build w).2 Y := by
  obtain ⟨inner, s₁, hinner, hrun⟩ := bind_eq_ok hrun
  obtain ⟨t, s₂, ht, hrun⟩ := bind_eq_ok hrun
  obtain ⟨rfl, rfl⟩ := eq_ok_of_pure hrun
  obtain ⟨a, Y, ha, hsame, hs₁⟩ := hreader hinner
  obtain ⟨Y, rfl, hs₂⟩ := hs₁.expect_eq_ok hu hclosing ht
  exact ⟨inner, a, Y, ha, hsame, rfl, hs₂⟩

theorem atomic_succ (hl : limit ≤ binder) (hs : Facing u kinds v s w X)
    (hrun : Parse.atomic (n + 1) limit s = (.ok r, s')) : HasRead u kinds v .atom w X r s' := by
  have hlowest : lowest ≤ application := by decide
  rw [Parse.atomic] at hrun
  obtain ⟨t, s₁, ht, hrun⟩ := bind_eq_ok hrun
  obtain ⟨hk, hs₁⟩ := hs.next_eq_ok hu ht
  cases X with
  | nil =>
    rw [hk] at hrun
    cases hrun
  | cons k X =>
    obtain hk : t.kind = k := hk
    replace hs₁ : Facing u kinds v s₁ w X := hs₁ rfl
    rw [hk] at hrun
    cases k with
    | ident name => exact h.name_succ hu hl hs₁ hrun
    | symbolic name =>
      obtain ⟨w', s₂, hw, hrun⟩ := bind_eq_ok hrun
      obtain ⟨rfl, rfl⟩ := hs₁.vocabulary_eq_ok hw
      split_ifs at hrun with hoperator
      · cases hrun
      obtain ⟨rfl, rfl⟩ := hs₁.change_eq_ok hrun
      obtain ⟨hbar, hoperator⟩ := not_or.1 hoperator
      rw [hs₁.operators.symbol] at hoperator
      exact hasRead_single (.symbolic hbar (by simpa using hoperator)) (by simp [Binds]) rfl
        (hs₁.build (.name name))
    | macroName name =>
      obtain ⟨rfl, rfl⟩ := hs₁.change_eq_ok hrun
      exact hasRead_single .macroName (by simp [Binds]) rfl (hs₁.build (.name name))
    | int digits =>
      dsimp only [integer] at hrun
      cases hvalue : boundedNat? (Nat.pow 2 63 - 1) digits with
      | none =>
        rw [hvalue] at hrun
        cases hrun
      | some value =>
        rw [hvalue] at hrun
        obtain ⟨rfl, rfl⟩ := eq_ok_of_pure hrun
        exact hasRead_single (.int hvalue) (by simp [Binds]) rfl hs₁
    | float text =>
      obtain ⟨rfl, rfl⟩ := eq_ok_of_pure hrun
      exact hasRead_single .float (by simp [Binds]) rfl hs₁
    | string text =>
      obtain ⟨a, s₂, ha, hrun⟩ := bind_eq_ok hrun
      obtain ⟨rfl, rfl⟩ := eq_ok_of_pure hrun
      obtain ⟨rfl, rfl⟩ := hs₁.change_eq_ok ha
      exact hasRead_single .string (by simp [Binds]) rfl (hs₁.build (.string text))
    | quotation raw =>
      dsimp only [Term.ofQuotation] at hrun
      cases hq : Quotation.ofRaw t.span raw.toList with
      | error fault =>
        rw [hq] at hrun
        cases hrun
      | ok q =>
        rw [hq] at hrun
        obtain ⟨rfl, rfl⟩ := eq_ok_of_pure hrun
        exact hasRead_single (.quotation hq) (by simp [Binds]) rfl hs₁
    | leftParen =>
      obtain ⟨found, s₂, hfound, hrun⟩ := bind_eq_ok hrun
      rcases hs₁.loneOperator?_eq_ok hu hfound with ⟨k, x, Y, rfl, hx, rfl, hs₂⟩ | ⟨rfl, rfl, hnot⟩
      · obtain ⟨rfl, rfl⟩ := eq_ok_of_pure hrun
        exact ⟨.symbol x, Y, .lone hx, rfl, hs₂⟩
      · obtain ⟨inner, a, Y, ha, hsame, rfl, hs₂⟩ :=
          enclosed_eq_ok hu (f := id) (by simp) (fun ht => h.expression hlowest hs₁ ht) hrun
        exact ⟨a, Y, .group hnot ha, hsame, hs₂⟩
    | leftBracket =>
      obtain ⟨following, s₂, hfollowing, hrun⟩ := bind_eq_ok hrun
      obtain ⟨rfl, hk⟩ := hs₁.peek_eq_ok hu hfollowing
      split_ifs at hrun with hclosed
      · obtain ⟨t', s₂, hnext, hrun⟩ := bind_eq_ok hrun
        obtain ⟨rfl, rfl⟩ := eq_ok_of_pure hrun
        obtain ⟨Y, rfl⟩ := eq_cons_of_headD (hk.symm.trans hclosed) (by simp)
        exact ⟨.nil, Y, .nil, rfl, (hs₁.next_eq_ok hu hnext).2 rfl⟩
      · obtain ⟨cells, a, Y, ha, hsame, rfl, hs₂⟩ :=
          enclosed_eq_ok hu (f := id) (by simp) (fun ht => h.elements hs₁ ht) hrun
        exact ⟨a, Y, .list (fun hx => hclosed (hk.trans hx)) ha, hsame, hs₂⟩
    | leftBrace =>
      obtain ⟨inner, a, Y, ha, hsame, rfl, hs₂⟩ := enclosed_eq_ok hu (f := fun t => Term.node Symbol.spill [t])
        (by simp) (fun ht => h.expression hlowest hs₁ ht) hrun
      exact ⟨.unary Symbol.spill a, Y, .spill ha, .node (.singleton hsame), hs₂⟩
    | rightParen | rightBracket | rightBrace | backslash | stop | endOfInput => cases hrun

end ReadsDerived

theorem readsDerived (hu : u.Offers kinds) (n : Nat) : ReadsDerived u kinds v n := by
  -- Every reader calls the others with less fuel, so all six go through one induction on the fuel.
  induction n with
  | zero =>
    exact ⟨fun _ _ h => (by cases h), fun _ _ h => (by cases h), fun _ _ h => (by cases h),
      fun _ _ h => (by cases h), fun _ _ h => (by cases h), fun _ h => (by cases h)⟩
  | succ n ih =>
    exact ⟨fun hl hs h => ih.expression_succ hl hs h, fun hs hf h => ih.climb_succ hu hs hf h,
      fun hl hs h => ih.operand_succ hu hl hs h, fun hs hf h => ih.arguments_succ hu hs hf h,
      fun hl hs h => ih.atomic_succ hu hl hs h, fun hs h => ih.elements_succ hu hs h⟩

end Grammar

end Clausal
