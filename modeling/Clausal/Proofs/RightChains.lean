import Clausal.Proofs.AppliedTerms

/-!
# Chains that group to the right

Terms with one built-in infix operator between them are read by the right operands, if the operators
of the terms themselves are tighter or stand in brackets. Such a term has the tree that it has by itself,
so the tree of the chain is the fold of these trees.
-/
namespace Clausal

namespace Grammar

open Parse Precedence SyntaxTree

/-- The tokens of a term that may stand beside an operator of precedence `m` without parentheses. -/
structure TermAbove (v : Vocabulary) (m : Nat) (C : List TokenKind) : Prop where
  parses : v.Parses C
  goesOn : ∀ k ∈ C, k.isStop = false
  tight : Tight v m C

variable {v w : Vocabulary} {m : Nat} {C T X Y Z : List TokenKind} {a t : SyntaxTree} {k : TokenKind}
variable {s : Symbol} {rows : List (List TokenKind)} {as : List SyntaxTree}

theorem TermAbove.of_text {text : String} (hread : (parseTerm v text).1.toOption.isSome = true)
    (hitems : (Scan.ofText "<term>" text).items.map Item.kind? = C.map some)
    (hlast : (Scan.ofText "<term>" text).last.kind? = some .endOfInput) (hgoes : ∀ k ∈ C, k.isStop = false)
    (ht : Tight v m C) : TermAbove v m C := by
  obtain ⟨t, w, hrun⟩ := exists_eq_ok_of_isSome hread
  exact ⟨⟨text, t, w, .of_items hitems hlast, hrun⟩, hgoes, ht⟩

theorem TermAbove.alone (h : TermAbove v m C) (hv : v.WellFormed) : ∃ a, Alone v C a :=
  h.parses.derives hv h.goesOn

theorem TermAbove.balanced (h : TermAbove v m C) (hv : v.WellFormed) : Balanced C := by
  obtain ⟨a, ha⟩ := h.alone hv
  obtain ⟨D, hD, hC, -⟩ := ha.exists_balanced
  obtain rfl : C = D := by rwa [List.append_nil] at hD
  exact hC

theorem exists_alone (hv : v.WellFormed) (hrows : ∀ C ∈ rows, TermAbove v m C) :
    ∃ as, List.Forall₂ (Alone v) rows as := by
  induction rows with
  | nil => exact ⟨[], .nil⟩
  | cons C rows ih =>
    obtain ⟨a, ha⟩ := (hrows C List.mem_cons_self).alone hv
    obtain ⟨as, has⟩ := ih fun D hD => hrows D (List.mem_cons_of_mem C hD)
    exact ⟨a :: as, .cons ha has⟩

/-- A term stands in front of whatever is looser, in place of the end of its text. -/
theorem Alone.before (ha : Alone v C a) (ht : Tight v m C) {limit : Nat} {strict : Bool}
    {earlier : Option (Nat × Grouping)} (hl : limit ≤ m)
    (hearlier : ∀ p g, earlier = some (p, g) → p ≤ m) (hends : Closes v m [] Z)
    (hstop : ∀ e ∈ operatorAhead? v Z, ¬ Admits limit strict e.2) :
    Derives v (.expression limit strict earlier) (C ++ Z) a Z :=
  Derives.expression_before (Y := []) (by rwa [List.append_nil]) hends ht
    (fun o ho => .inl (Nat.lt_of_le_of_lt hl ho)) hearlier hstop

/-- An operator is no term by itself. -/
theorem operatorSymbol?_of_derives_singleton {part : Part} (h : Derives v part [k] a Y)
    (hp : part.takesTokens = true) : operatorSymbol? v k = none := by
  generalize hX : [k] = X at h
  induction h with
  | expression _ _ iho _ => exact iho rfl hX
  | before hahead _ _ _ =>
    obtain ⟨rfl, rfl⟩ := List.cons.inj hX
    rw [prefixAhead?, List.drop_one, List.tail_cons, operatorBefore?] at hahead
    split at hahead <;> cases hahead
  | application _ _ _ iha _ => exact iha rfl hX
  | single hs _ =>
    obtain ⟨rfl, -⟩ := List.cons.inj hX
    cases hs with
    | name h | symbolic _ h => exact h
    | _ => rfl
  | more _ _ ihe _ | tail _ _ ihe _ | last _ _ _ ihe => exact ihe rfl hX
  | stop | after | between | noArgument | argument => cases hp
  | lambda | lone | nil => cases (List.cons.inj hX).2
  | group | list | spill =>
    obtain ⟨rfl, -⟩ := List.cons.inj hX
    rfl

/-- Where the first token is an operator, a term does not end behind it. -/
theorem Alone.not_lone (ha : Alone v C a) (Z : List TokenKind) :
    operatorSymbol? v ((C ++ .rightParen :: Z).headD .endOfInput) = none ∨
      ((C ++ .rightParen :: Z).drop 1).headD .endOfInput ≠ .rightParen := by
  obtain ⟨D, hD, hC, hne⟩ := ha.exists_balanced
  obtain rfl : C = D := by rwa [List.append_nil] at hD
  -- A single token is a name; a longer row that is balanced has no closing bracket behind its first token.
  match C, hne rfl with
  | [k], _ => exact .inl (operatorSymbol?_of_derives_singleton ha rfl)
  | k :: j :: C, _ =>
    refine or_iff_not_imp_right.2 fun hj => ?_
    obtain rfl : j = .rightParen := Classical.not_not.1 hj
    generalize hrow : k :: .rightParen :: C = D at hC
    cases hC with
    | nil => cases hrow
    | plain _ hC =>
      obtain ⟨-, rfl⟩ := List.cons.inj hrow
      cases hC.not_closesBracket
    | group ho _ _ =>
      obtain ⟨rfl, -⟩ := List.cons.inj hrow
      cases k <;> first | rfl | cases ho

/-- A term in parentheses is an argument with the same tree. -/
theorem Alone.parenthesized (ha : Alone v C a) (ht : Tight v m C) :
    Stands v (.leftParen :: (C ++ [.rightParen])) a := by
  intro Z _
  have hends : Closes v m [] (.rightParen :: Z) := .of_name?_eq_none rfl rfl rfl (by simp)
  have hinner := ha.followedBy (List.append_nil C).symm
    (.inr ⟨hends, ht, forall_operatorAhead?_of_name?_eq_none rfl⟩)
  rw [List.cons_append, List.append_assoc]
  exact .group (ha.not_lone Z) hinner

section

variable {d : String × Fixity × Nat} {n : Nat}

/-- Terms that are joined by a built-in operator, in front of the term at the end. -/
theorem derives_chain (hb : v.HasBaseline) (hv : v.WellFormed) (hd : d ∈ baselineOperators)
    (hk : k.name? = some d.1) (hn : Symbol.wellKnown[n]? = some d.1) (hright : d.2.1 = .infixRight)
    (honly : ∀ e ∈ baselineOperators, e.2.1.placement = .beforeOperand → e.1 ≠ Symbol.canonical d.1)
    (hT : ∀ limit earlier, limit ≤ d.2.2 → (earlier = none ∨ earlier = some (d.2.2, .right)) →
      Derives v (.expression limit false earlier) T t Z)
    (hZ : (Z.headD .endOfInput).name? = none) (hrows : ∀ C ∈ rows, Tight v d.2.2 C)
    (has : List.Forall₂ (Alone v) rows as) {limit : Nat} {earlier : Option (Nat × Grouping)}
    (hl : limit ≤ d.2.2) (hearlier : earlier = none ∨ earlier = some (d.2.2, .right)) :
    Derives v (.expression limit false earlier) (rows.flatMap (· ++ [k]) ++ T)
      (as.foldr (binary ⟨n⟩) t) Z := by
  have hplacement : d.2.1.placement = .betweenOperands := by rw [hright]; rfl
  -- Behind the first operator the right operand is read at the limit of the chain, after a right link.
  induction has generalizing limit earlier with
  | nil => exact hT limit earlier hl hearlier
  | @cons C a rows as ha has ih =>
    have hahead : ∀ X : List TokenKind, operatorAhead? v (k :: X) = some (⟨n⟩, ⟨.infixRight, d.2.2⟩) :=
      fun X => hright ▸ operatorAhead?_baseline hb hv hd hk hn hplacement X
    have hinfix : Placement.betweenOperands ≠ .afterOperand := by decide
    have hrest := ih (fun B hB => hrows B (List.mem_cons_of_mem C hB)) (Nat.le_refl _) (.inr rfl)
    have hleft : ∀ p g, earlier = some (p, g) → p = d.2.2 ∧ g = .right := by
      rintro p g he
      rcases hearlier with rfl | rfl <;> cases he
      exact ⟨rfl, rfl⟩
    simp only [List.flatMap_cons, List.append_assoc, List.cons_append, List.nil_append]
    refine Derives.expression_append (Y := []) (by rwa [List.append_nil]) ?_ (hrows C List.mem_cons_self)
      (fun o ho => .inl (Nat.lt_of_le_of_lt hl ho)) (fun p g he => Nat.le_of_eq (hleft p g he).1) fun last hlast => ?_
    · exact .of_baseline hb hv hd hk hn hplacement honly rfl (Nat.le_refl _)
    · refine .between (hahead _) ?_ ?_ hinfix hrest (.stop (forall_operatorAhead?_of_name?_eq_none hZ))
      · exact (Nat.lt_or_eq_of_le hl).imp_right fun he => ⟨he.symm, rfl⟩
      · intro p g he hp
        rcases hlast with rfl | ⟨p', g', rfl, hm⟩
        · obtain ⟨-, rfl⟩ := hleft p g he
          exact ⟨rfl, by simp⟩
        · obtain ⟨rfl, rfl⟩ := Prod.mk.inj (Option.some.inj he)
          exact absurd hp (Nat.ne_of_gt hm)

end

/-- The terms of a chain are built in their order. -/
theorem foldr_binary_build (s : Symbol) (as : List SyntaxTree) (t : SyntaxTree) (v : Vocabulary) :
    (as.foldr (binary s) t).build v =
      ((buildEach as v).1.foldr (fun a b => Term.node s [a, b]) (t.build (buildEach as v).2).1,
        (t.build (buildEach as v).2).2) := by
  induction as generalizing v with
  | nil => rfl
  | cons a as ih =>
    rw [List.foldr_cons, build_binary, ih]
    rfl

end Grammar

end Clausal
