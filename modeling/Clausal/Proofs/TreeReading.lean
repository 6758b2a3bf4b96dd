import Clausal.Proofs.OperatorTrees

/-!
# Operator trees read back

Reading the text of a tree in front of anything that closes it gives the tree again: by induction on
the tree, with the operators to come and the one in front as they stand at each place.
-/
namespace Clausal

open Parse

namespace OperatorTree

variable {v w : Vocabulary} {name : String} {p : Placement} {o : Operator} {t : OperatorTree}
variable {limit : Nat} {strict : Bool} {earlier : Option (Nat × Grouping)}
variable {rest : List TokenKind} {out : Outcome Term}

/-- An operator that an expression at this level takes, behind the `earlier` one. -/
structure Admits (limit : Nat) (strict : Bool) (earlier : Option (Nat × Grouping)) (o : Operator) :
    Prop where
  tight : ¬ (o.precedence < limit ∨ o.precedence = limit ∧ strict)
  chains : Chains earlier o
  earlier_le : ∀ p g, earlier = some (p, g) → p ≤ limit

theorem admits_lowest (o : Operator) : Admits Precedence.lowest false none o :=
  ⟨by simp [Precedence.lowest], fun _ _ h => absurd h (by simp), fun _ _ h => absurd h (by simp)⟩

/-- A row that ends a tree with `own` at the top: no argument, no binder, and no operator that
would take the tree's last operand. -/
structure Closes (v : Vocabulary) (own : Option Operator) (rest : List TokenKind) : Prop where
  argument : startsArgument v (rest.headD .endOfInput) = false
  binder : rest.headD .endOfInput ≠ .backslash
  looser : ∀ o, own = some o → ∀ s next,
    operatorBehind? v (rest.headD .endOfInput) ((rest.drop 1).headD .endOfInput) = some (s, next) →
      next.precedence < o.precedence ∨ next.precedence = o.precedence ∧ o.grouping ≠ .right

/-- The operator that was taken last once a tree has been read. -/
def taken (earlier : Option (Nat × Grouping)) : OperatorTree → Option (Nat × Grouping)
  | leaf _ | before _ _ _ => earlier
  | between _ o _ _ | after _ o _ => some (o.precedence, o.grouping)

theorem Closes.mono (hw : SameOperators v w) {own : Option Operator} (h : Closes v own rest) :
    Closes w own rest :=
  ⟨by rw [hw.startsArgument]; exact h.argument, h.binder, by
    simp only [hw.operatorBehind]
    exact h.looser⟩

theorem operatorBehind?_of_between (hb : v.operators.OneBehind) {k : TokenKind} (f : TokenKind)
    {found : Symbol × Operator} (h : operatorAt? v .betweenOperands k = some found) :
    operatorBehind? v k f = some found := by
  have ha : operatorAt? v .afterOperand k = none := by
    unfold operatorAt? at h ⊢
    cases hk : operatorSymbol? v k with
    | none => rfl
    | some s =>
      rcases hb.lookup s with hs | hs
      · simp [hk, hs] at h
      · simp [hs]
  simp [operatorBehind?, h, ha]

theorem operatorBehind?_of_after (hb : v.operators.OneBehind) {k : TokenKind} (f : TokenKind)
    {found : Symbol × Operator} (h : operatorAt? v .afterOperand k = some found) :
    operatorBehind? v k f = some found := by
  have ha : operatorAt? v .betweenOperands k = none := by
    unfold operatorAt? at h ⊢
    cases hk : operatorSymbol? v k with
    | none => rfl
    | some s =>
      rcases hb.lookup s with hs | hs
      · simp [hs]
      · simp [hk, hs] at h
  simp [operatorBehind?, h, ha]

/-- Reading a tree comes down to going on behind it. -/
def ReadsBack (t : OperatorTree) : Prop :=
  ∀ {v : Vocabulary} {limit : Nat} {strict : Bool} {earlier : Option (Nat × Grouping)}
    {rest : List TokenKind} {out : Outcome Term}, v.WellFormed → v.operators.OneBehind →
    t.Over v → (∀ own, t.operator? = some own → Admits limit strict earlier own) →
    Closes v t.operator? rest →
    ReadsClimb limit strict (t.taken earlier) (t.build v).1 (t.build v).2 rest out →
    ReadsExpression limit strict earlier v (t.kinds ++ rest) out

section

variable (ih : t.ReadsBack) (hv : v.WellFormed) (hb : v.operators.OneBehind) (ht : t.Over v)

include ih hv hb ht

theorem ReadsBack.enclosed (hr : startsArgument v (rest.headD .endOfInput) = false)
    (hc : ReadsClimb limit strict earlier (t.build v).1 (t.build v).2 rest out) :
    ReadsExpression limit strict earlier v
      (.leftParen :: (t.kinds ++ .rightParen :: rest)) out := by
  obtain ⟨-, hs⟩ := t.build_grows hv
  have hinner : ReadsExpression Precedence.lowest false none v (t.kinds ++ .rightParen :: rest)
      (.value (t.build v).1 (t.build v).2 (.rightParen :: rest)) := by
    refine ih hv hb ht (fun own _ => admits_lowest own) ⟨rfl, ?_, ?_⟩ ?_
    · simp
    · intro own _ s next hn
      exact absurd hn (by simp [operatorBehind?, operatorAt?, operatorSymbol?, TokenKind.name?])
    · refine reads_climb_stop ?_
      simp [operatorBehind?, operatorAt?, operatorSymbol?, TokenKind.name?]
  have hgroup : ReadsAtomic limit v (.leftParen :: (t.kinds ++ .rightParen :: rest))
      (.value (t.build v).1 (t.build v).2 rest) := by
    refine reads_atomic_group ?_ hinner
    obtain ⟨k, ks, hk, -, ho⟩ := ht.opens
    rw [hk]
    refine ho.imp_right ?_
    rintro ⟨k', ks', rfl, hk'⟩ hx
    obtain rfl : k' = .rightParen := hx
    exact Bool.noConfusion (show false = true from hk')
  refine reads_expression (reads_operand_atomic rfl hgroup ?_ ?_) ?_ hc
  · rw [List.length_append, List.length_cons]
    omega
  · rw [hs.startsArgument]
    exact hr
  · rw [List.length_cons, List.length_append, List.length_cons]
    omega

end

theorem standsBare_some {side : Grouping} (h : t.standsBare side o = true) (own : Operator)
    (hown : t.operator? = some own) : o.precedence < own.precedence ∨
      o.precedence = own.precedence ∧ o.grouping = side ∧ own.grouping = side := by
  simpa [standsBare, hown, and_assoc] using h

theorem Admits.left (ho : Admits limit strict earlier o) {own : Operator}
    (h : o.precedence < own.precedence ∨
      o.precedence = own.precedence ∧ o.grouping = .left ∧ own.grouping = .left) :
    Admits limit strict earlier own := by
  refine ⟨?_, fun p g hg hp => ?_, ho.earlier_le⟩
  · have ht := ho.tight
    rintro (hl | ⟨hl, hs⟩)
    · exact ht (.inl (by omega))
    · rcases h with h | ⟨h, -⟩
      · exact ht (.inl (by omega))
      · exact ht (.inr ⟨by omega, hs⟩)
  · have hle := ho.earlier_le p g hg
    rcases h with h | ⟨h, hleft, hleft'⟩
    · exact absurd (.inl (by omega)) ho.tight
    · rw [hleft', ← hleft]
      exact ho.chains p g hg (by omega)

theorem Admits.right {own : Operator} (h : o.precedence < own.precedence ∨
      o.precedence = own.precedence ∧ o.grouping = .right ∧ own.grouping = .right) :
    Admits o.precedence (o.grouping ≠ .right) (some (o.precedence, o.grouping)) own := by
  refine ⟨?_, fun p g hg hp => ?_, fun p g hg => ?_⟩
  · rcases h with h | ⟨h, hright, -⟩
    · omega
    · simp [h, hright]
  · obtain ⟨rfl, rfl⟩ : o.precedence = p ∧ o.grouping = g := by simpa using hg
    rcases h with h | ⟨-, hright, hright'⟩
    · omega
    · rw [hright, hright']
      exact ⟨rfl, by decide⟩
  · obtain ⟨rfl, rfl⟩ : o.precedence = p ∧ o.grouping = g := by simpa using hg
    exact Nat.le_refl _

theorem chains_own {own : Operator} (h : o.precedence < own.precedence ∨
      o.precedence = own.precedence ∧ o.grouping = .left ∧ own.grouping = .left) :
    Chains (some (own.precedence, own.grouping)) o := by
  intro p g hg hp
  obtain ⟨rfl, rfl⟩ : own.precedence = p ∧ own.grouping = g := by simpa using hg
  rcases h with h | ⟨-, ho, hown⟩
  · omega
  · rw [ho, hown]
    exact ⟨rfl, by decide⟩

theorem chains_taken (ho : Chains earlier o)
    (hown : ∀ own, t.operator? = some own → o.precedence < own.precedence ∨
      o.precedence = own.precedence ∧ o.grouping = .left ∧ own.grouping = .left) :
    Chains (t.taken earlier) o := by
  cases t with
  | leaf _ => exact ho
  | before _ _ _ => exact ho
  | between _ own _ _ => exact chains_own (hown own rfl)
  | after _ own _ => exact chains_own (hown own rfl)

/-- In front of an operator that takes it as its left operand. -/
theorem ReadsBack.left {s : Symbol} (ih : t.ReadsBack) (hv : v.WellFormed)
    (hb : v.operators.OneBehind) (ht : t.Over v) (ho : Admits limit strict earlier o)
    (hr : Closes v none rest)
    (hn : operatorBehind? v (rest.headD .endOfInput) ((rest.drop 1).headD .endOfInput) =
      some (s, o))
    (hc : ∀ earlier, Chains earlier o →
      ReadsClimb limit strict earlier (t.build v).1 (t.build v).2 rest out) :
    ReadsExpression limit strict earlier v
      ((enclose (t.standsBare .left o) t.words).map wordKind ++ rest) out := by
  unfold enclose
  split_ifs with hbare
  · have hown := standsBare_some hbare
    refine ih hv hb ht (fun own h => ho.left (hown own h))
      ⟨hr.argument, hr.binder, fun own h u next hx => ?_⟩ (hc _ (chains_taken ho.chains hown))
    obtain ⟨-, rfl⟩ := Prod.mk.inj (Option.some.inj (hn.symm.trans hx))
    rcases hown own h with hlt | ⟨heq, -, hleft⟩
    · exact .inl hlt
    · exact .inr ⟨heq, by rw [hleft]; decide⟩
  · rw [kinds_parentheses]
    exact ih.enclosed hv hb ht hr.argument (hc _ ho.chains)

/-- Behind an operator that takes it as its right operand. -/
theorem ReadsBack.right (ih : t.ReadsBack) (hv : v.WellFormed)
    (hb : v.operators.OneBehind) (ht : t.Over v) (hr : Closes v (some o) rest) :
    ReadsExpression o.precedence (o.grouping ≠ .right) (some (o.precedence, o.grouping)) v
      ((enclose (t.standsBare .right o) t.words).map wordKind ++ rest)
      (.value (t.build v).1 (t.build v).2 rest) := by
  obtain ⟨-, hs⟩ := t.build_grows hv
  have hend : ∀ earlier, ReadsClimb o.precedence (o.grouping ≠ .right) earlier (t.build v).1
      (t.build v).2 rest (.value (t.build v).1 (t.build v).2 rest) := by
    intro earlier
    cases hn : operatorBehind? (t.build v).2 (rest.headD .endOfInput)
        ((rest.drop 1).headD .endOfInput) with
    | none => exact reads_climb_stop hn
    | some found =>
      obtain ⟨s, next⟩ := found
      refine reads_climb_yield hn ?_
      rw [hs.operatorBehind] at hn
      simpa using hr.looser o rfl s next hn
  unfold enclose
  split_ifs with hbare
  · have hown := standsBare_some hbare
    refine ih hv hb ht (fun own h => .right (hown own h))
      ⟨hr.argument, hr.binder, fun own h s next hx => .inl ?_⟩ (hend _)
    have hlt := hr.looser o rfl s next hx
    rcases hown own h with h | ⟨h, hright, -⟩
    · omega
    · have hn := hlt.resolve_right fun hx => hx.2 hright
      omega
  · rw [kinds_parentheses]
    exact ih.enclosed hv hb ht hr.argument (hend _)

theorem Declares.closes (h : Declares v name p o) (rest : List TokenKind) :
    Closes v none (wordKind name :: rest) := by
  have ho := h.operatorAt
  have hk : startsArgument v (wordKind name) = false ∧ wordKind name ≠ .backslash := by
    unfold operatorAt? at ho
    cases hs : operatorSymbol? v (wordKind name) with
    | none => simp [hs] at ho
    | some s =>
      rcases h.1 with h | h <;> rw [h.wordKind_eq] at hs ⊢ <;> simp [startsArgument, hs]
  exact ⟨hk.1, hk.2, fun _ h => absurd h (by simp)⟩

theorem reads_leaf_operand {name : String} (hv : v.WellFormed) (ht : (leaf name).Over v)
    (hr : Closes v none rest) :
    ReadsOperand limit v (wordKind name :: rest)
      (.value ((leaf name).build v).1 ((leaf name).build v).2 rest) := by
  obtain ⟨hn, hs⟩ := ht
  rw [not_operator_iff hn, hn.wordKind_eq] at hs
  rw [hn.wordKind_eq]
  refine reads_operand_atomic ?_ (reads_atomic_name hr.binder hs) (Nat.le_refl _) ?_
  · simp [operatorBefore?, operatorAt?, hs]
  · exact ((nameTerm_grows hv name).2.startsArgument _).trans hr.argument

theorem reads_leaf {name : String} (hv : v.WellFormed) (ht : (leaf name).Over v)
    (hr : Closes v none rest)
    (hc : ReadsClimb limit strict earlier ((leaf name).build v).1 ((leaf name).build v).2 rest
      out) : ReadsExpression limit strict earlier v (wordKind name :: rest) out :=
  reads_expression (reads_leaf_operand hv ht hr) (by simp) hc

theorem readsBack (t : OperatorTree) : t.ReadsBack := by
  induction t with
  | leaf name =>
    intro v limit strict earlier rest out hv _ ht _ hr hc
    exact reads_leaf hv ht hr hc
  | between name o left right ihl ihr =>
    intro v limit strict earlier rest out hv hb ht ho hr hc
    obtain ⟨hd, htl, htr⟩ := ht
    obtain ⟨hvl, hsl⟩ := left.build_grows hv
    have hbl : (left.build v).2.operators.OneBehind := hsl.operators ▸ hb
    have hfound := hd.operatorAt
    simp only [kinds, words, List.map_append, List.map_cons, List.append_assoc, List.cons_append]
    refine ihl.left hv hb htl (ho o rfl) (hd.closes _) (operatorBehind?_of_between hb _ hfound)
      fun e he => ?_
    rw [← hsl.operatorAt] at hfound
    refine reads_climb_between (operatorBehind?_of_between hbl _ hfound) (ho o rfl).tight he ?_
      (ihr.right hvl hbl (htr.mono hsl) (hr.mono hsl)) ?_ hc
    · rw [hd.placement]
      decide
    · rw [List.length_append]
      omega
  | before name o operand ih =>
    intro v limit strict earlier rest out hv hb ht ho hr hc
    obtain ⟨hd, ht⟩ := ht
    have hright := ih.right hv hb ht hr
    rw [hd.grouping_of_before] at hright
    have hfound := hd.operatorAt
    simp only [kinds, words, List.map_cons, List.cons_append]
    refine reads_expression (reads_operand_before ?_ ?_ hright) ?_ hc
    · obtain ⟨k, ks, hk, hstart, -⟩ := opens_enclose (operand.standsBare .right o) ht.opens
      have hhead : startsTerm v
          (((enclose (operand.standsBare .right o) operand.words).map wordKind ++ rest).headD
            .endOfInput) = true := by
        rw [hk]
        exact hstart
      simp only [operatorBefore?, hfound, hhead, if_true]
    · have hle := (ho o rfl).tight
      omega
    · rw [List.length_cons, List.length_append]
      omega
  | after name o operand ih =>
    intro v limit strict earlier rest out hv hb ht ho hr hc
    obtain ⟨hd, ht⟩ := ht
    obtain ⟨hvo, hso⟩ := operand.build_grows hv
    have hbo : (operand.build v).2.operators.OneBehind := hso.operators ▸ hb
    have hfound := hd.operatorAt
    simp only [kinds, words, List.map_append, List.map_cons, List.map_nil, List.append_assoc,
      List.cons_append, List.nil_append]
    refine ih.left hv hb ht (ho o rfl) (hd.closes _) (operatorBehind?_of_after hb _ hfound)
      fun e he => ?_
    rw [← hso.operatorAt] at hfound
    exact reads_climb_after (operatorBehind?_of_after hbo _ hfound) (ho o rfl).tight he
      hd.placement hc

/-- A tree that is written with parentheses only where its operators need them is read back. -/
theorem parseTerm_text {t : OperatorTree} (hv : v.Reachable) (hb : v.operators.OneBehind)
    (ht : t.Over v) : parseTerm v t.text = (.ok (t.build v).1, (t.build v).2) := by
  have hs : Spells t.text.toList t.kinds := Spells.spaced ht.word
  have hend : Closes v t.operator? [] :=
    ⟨rfl, by simp, fun o _ s next h => absurd h (by
      simp [operatorBehind?, operatorAt?, operatorSymbol?, TokenKind.name?])⟩
  have hstop : operatorBehind? (t.build v).2 .endOfInput .endOfInput = none := by
    simp [operatorBehind?, operatorAt?, operatorSymbol?, TokenKind.name?]
  have hr := t.readsBack hv.wellFormed hb ht (fun own _ => admits_lowest own) hend
    (reads_climb_stop hstop)
  rw [List.append_nil] at hr
  exact parseTerm_of_shows (hs.ofText _) hr

/-- A vocabulary with operators in all placements. -/
def arithmetic : Vocabulary :=
  let v := (Vocabulary.initial.defineOperator "-" .infixLeft 160).2
  let v := (v.defineOperator "-" .prefixOp 180).2
  let v := (v.defineOperator "^" .infixRight 180).2
  (v.defineOperator "?" .postfixOp 160).2

theorem reachable_arithmetic : arithmetic.Reachable :=
  .defineOperator _ _ _ <| .defineOperator _ _ _ <| .defineOperator _ _ _ <|
    .defineOperator _ _ _ .initial

/-- The tree of `a - (b - c) ? - - d ^ - e` with the first three operands grouped to the left. -/
def difference : OperatorTree :=
  .between "-" ⟨.infixLeft, 160⟩
    (.after "?" ⟨.postfixOp, 160⟩ (.between "-" ⟨.infixLeft, 160⟩ (.leaf "a")
      (.between "-" ⟨.infixLeft, 160⟩ (.leaf "b") (.leaf "c"))))
    (.before "-" ⟨.prefixOp, 180⟩ (.between "^" ⟨.infixRight, 180⟩ (.leaf "d")
      (.before "-" ⟨.prefixOp, 180⟩ (.leaf "e"))))

theorem parseTerm_difference :
    parseTerm arithmetic "a - ( b - c ) ? - - d ^ - e" =
      (.ok (difference.build arithmetic).1, (difference.build arithmetic).2) := by
  have ht : difference.text = "a - ( b - c ) ? - - d ^ - e" := by decide +kernel
  rw [← ht]
  exact parseTerm_text reachable_arithmetic (by decide +kernel) (by decide +kernel)

end OperatorTree

end Clausal
