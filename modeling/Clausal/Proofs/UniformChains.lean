import Clausal.Proofs.PlacedRefusals
import Clausal.Proofs.WordPlaces
import Mathlib.Data.List.Chain

/-!
# Chains at one precedence

Where all operators of a chain are equally tight, it is read as nested to the left or as nested to the
right, and refused at the first operator that does not group as the one in front of it. An operator that
groups to the right has the rest of the chain in its right operand, any other one has it behind that. So
the chain is walked link by link, on one of these two ways for each.
-/
namespace Clausal

open Parse

/-- Both group to the left, or both to the right. -/
def Link.Pairs (l next : Link) : Prop :=
  l.operator.fixity = .infixLeft ∧ next.operator.fixity = .infixLeft ∨
    l.operator.fixity = .infixRight ∧ next.operator.fixity = .infixRight

instance (l next : Link) : Decidable (l.Pairs next) := inferInstanceAs (Decidable (_ ∨ _))

instance : IsTrans Link Link.Pairs := by
  refine ⟨fun a b c hab hbc => ?_⟩
  rcases hab with ⟨ha, hb⟩ | ⟨ha, hb⟩ <;> rcases hbc with ⟨hb', hc⟩ | ⟨hb', hc⟩
  · exact .inl ⟨ha, hc⟩
  · simp [hb] at hb'
  · simp [hb] at hb'
  · exact .inr ⟨ha, hc⟩

namespace Chain

variable {v : Vocabulary} {l next prev : Link} {front back links rest : List Link} {p : Nat}

/-- Every operator takes all before it as its left operand. -/
def nestedLeft (c : Chain) : OperatorTree :=
  c.links.foldl (fun t l => .between l.name l.operator t (.leaf l.operand)) (.leaf c.first)

/-- Every operator takes all behind it as its right operand. -/
def nestRight (first : String) : List Link → OperatorTree
  | [] => .leaf first
  | l :: rest => .between l.name l.operator (.leaf first) (nestRight l.operand rest)

def nestedRight (c : Chain) : OperatorTree := nestRight c.first c.links

theorem pairs_iff_agrees (hl : l.Over v) (hn : next.Over v) : l.Pairs next ↔ l.Agrees next := by
  have hl := hl.1.placement
  have hn := hn.1.placement
  rw [Operator.placement] at hl hn
  unfold Link.Pairs Link.Agrees Operator.grouping
  cases h : l.operator.fixity <;> cases h' : next.operator.fixity <;>
    simp_all [Fixity.placement, Fixity.grouping]

/-- Operators of which any two that follow each other pair all group to one side. -/
theorem left_or_right (h : links.IsChain Link.Pairs) :
    links.length ≤ 1 ∨ (∀ l ∈ links, l.operator.fixity = .infixLeft) ∨
      ∀ l ∈ links, l.operator.fixity = .infixRight := by
  rcases links with _ | ⟨l, _ | ⟨next, rest⟩⟩
  · exact .inl (Nat.zero_le 1)
  · exact .inl (Nat.le_refl 1)
  · have hall := (List.pairwise_cons.1 (List.isChain_iff_pairwise.1 h)).1
    rcases hall next List.mem_cons_self with ⟨hl, -⟩ | ⟨hl, -⟩
    · refine .inr (.inl (List.forall_mem_cons.2 ⟨hl, fun x hx => ?_⟩))
      rcases hall x hx with ⟨-, hx⟩ | ⟨hl', -⟩
      · exact hx
      · simp [hl] at hl'
    · refine .inr (.inr (List.forall_mem_cons.2 ⟨hl, fun x hx => ?_⟩))
      rcases hall x hx with ⟨hl', -⟩ | ⟨-, hx⟩
      · simp [hl] at hl'
      · exact hx

/-- The first operator that does not pair with the one in front of it. -/
theorem exists_clash (h : ¬ links.IsChain Link.Pairs) :
    ∃ front prev next back, links = front ++ prev :: next :: back ∧
      (front ++ [prev]).IsChain Link.Pairs ∧ ¬ prev.Pairs next := by
  induction links with
  | nil => exact absurd .nil h
  | cons l rest ih =>
    cases rest with
    | nil => exact absurd (.singleton l) h
    | cons next rest =>
      by_cases hp : l.Pairs next
      · obtain ⟨front, prev, next', back, heq, hfront, hclash⟩ := ih fun hc => h (.cons_cons hp hc)
        refine ⟨l :: front, prev, next', back, by rw [heq, List.cons_append], ?_, hclash⟩
        cases front with
        | nil =>
          obtain ⟨rfl, -⟩ := List.cons.inj heq
          exact .cons_cons hp hfront
        | cons m front =>
          obtain ⟨rfl, -⟩ := List.cons.inj heq
          exact .cons_cons hp hfront
      · exact ⟨[], l, next, rest, rfl, .singleton l, hp⟩

theorem not_noticed_of_agrees (h : ∀ l ∈ links, ∀ next ∈ links, l.Agrees next) : ¬ Noticed links := by
  rintro ⟨front, l, inner, next, back, rfl, ⟨-, hclash⟩, -⟩
  exact hclash (h l (by simp) next (by simp))

theorem not_noticed_of_length_le (h : links.length ≤ 1) : ¬ Noticed links := by
  rintro ⟨front, l, inner, next, back, rfl, -⟩
  simp only [List.length_append, List.length_cons] at h
  omega

/-- Where no operator absorbs the next one, each takes all before it. -/
theorem grouped_eq_foldl (t : OperatorTree) (h : links.IsChain fun l next => l.absorbs next = false) :
    grouped t links =
      links.foldl (fun t l => .between l.name l.operator t (.leaf l.operand)) t := by
  induction links generalizing t with
  | nil => exact grouped_nil t
  | cons l rest ih =>
    have hnone : rest.takeWhile l.absorbs = [] ∧ rest.dropWhile l.absorbs = rest := by
      cases rest with
      | nil => exact ⟨rfl, rfl⟩
      | cons next rest => simp [(List.isChain_cons_cons.1 h).1]
    rw [grouped_cons, hnone.1, hnone.2, grouped_nil, ih _ h.tail]
    rfl

/-- Where every operator absorbs all behind it, each takes all behind it. -/
theorem grouped_eq_nestRight (first : String) (h : links.Pairwise fun l next => l.absorbs next = true) :
    grouped (.leaf first) links = nestRight first links := by
  induction links generalizing first with
  | nil => exact grouped_nil _
  | cons l rest ih =>
    obtain ⟨hl, hrest⟩ := List.pairwise_cons.1 h
    have htake : rest.takeWhile l.absorbs = rest := by simpa using hl
    have hdrop : rest.dropWhile l.absorbs = [] := by simpa using hl
    rw [grouped_cons, htake, hdrop, grouped_nil, ih l.operand hrest, nestRight]

theorem agrees_of_fixity {f : Fixity} (hl : l.operator.fixity = f) (hn : next.operator.fixity = f)
    (hf : f.grouping ≠ .none) : l.Agrees next := by
  unfold Link.Agrees Operator.grouping
  rw [hl, hn]
  exact ⟨rfl, hf⟩

theorem tree_eq_nestedLeft {c : Chain} (hp : ∀ l ∈ c.links, l.precedence = p)
    (h : c.links.length ≤ 1 ∨ ∀ l ∈ c.links, l.operator.fixity = .infixLeft) :
    c.tree = c.nestedLeft := by
  refine grouped_eq_foldl _ ?_
  rcases h with h | h
  · rcases hc : c.links with _ | ⟨l, _ | ⟨next, rest⟩⟩
    · exact .nil
    · exact .singleton l
    · simp [hc] at h
  · refine List.Pairwise.isChain (List.pairwise_of_forall_mem_list fun l hl next hn => ?_)
    exact Link.absorbs_eq_false_iff.2 (.inr ⟨(hp next hn).trans (hp l hl).symm, by
      rw [Operator.grouping, h l hl]; decide⟩)

theorem tree_eq_nestedRight {c : Chain} (hp : ∀ l ∈ c.links, l.precedence = p)
    (h : ∀ l ∈ c.links, l.operator.fixity = .infixRight) : c.tree = c.nestedRight := by
  refine grouped_eq_nestRight _ (List.pairwise_of_forall_mem_list fun l hl next hn => ?_)
  exact Link.absorbs_iff.2 (.inr ⟨(hp l hl).trans (hp next hn).symm, by
    rw [Operator.grouping, h l hl]; rfl⟩)

section

variable {r : Refusal} {t : OperatorTree} {limit : Nat} {strict : Bool}
variable {earlier : Option (Nat × Grouping)}

/-- A refusal further on is one of the chain from here: it is in the right operand of an operator that
groups to the right, and behind the right operand of any other one. -/
theorem refuses_cons (hv : v.WellFormed) (hl : ∀ x ∈ l :: rest, x.Over v)
    (hp : ∀ x ∈ l :: rest, x.precedence = p) (ht : ¬ (p < limit ∨ p = limit ∧ strict))
    (hc : Chains earlier l.operator)
    (h : ∀ {t : OperatorTree} {v : Vocabulary} {limit : Nat} {strict : Bool}, v.WellFormed →
      (∀ x ∈ rest, x.Over v) → ¬ (p < limit ∨ p = limit ∧ strict) →
      RefusesClimb r limit strict (some (p, l.operator.grouping)) (t.build v).1 (t.build v).2
        (kinds rest)) :
    RefusesClimb r limit strict earlier (t.build v).1 (t.build v).2 (kinds (l :: rest)) := by
  obtain ⟨hvt, hst⟩ := t.build_grows hv
  have hlo := hl l List.mem_cons_self
  have hrest : ∀ x ∈ rest, x.Over v := fun x hx => hl x (List.mem_cons_of_mem _ hx)
  have hwrest : ∀ x ∈ rest, x.Over (t.build v).2 := fun x hx => over_mono hst (hrest x hx)
  obtain rfl : l.precedence = p := hp l List.mem_cons_self
  by_cases hr : l.operator.grouping = .right
  · refine refuses_climb_operand (operatorBehind?_of_over hlo hst _) ht hc (over_placement hlo) ?_
    refine .leaf hvt (over_mono hst hlo).2.2 (closes_kinds hwrest) (h (t := .leaf l.operand) hvt hwrest ?_)
    simp [hr, Link.precedence]
  · -- The operand is one name, since the next operator is too loose for it.
    have hends : ∀ x ∈ rest.head?, x.precedence < l.precedence ∨
        x.precedence = l.precedence ∧ decide (l.operator.grouping ≠ .right) = true := fun x hx =>
      .inr ⟨hp x (List.mem_cons_of_mem _ (List.mem_of_mem_head? hx)), decide_eq_true hr⟩
    have hs := ((OperatorTree.leaf l.operand).build_grows hvt).2
    refine refuses_climb_behind (operatorBehind?_of_over hlo hst _) ht hc (over_placement hlo)
      (OperatorTree.reads_leaf hvt (over_mono hst hlo).2.2 (closes_kinds hwrest)
        (reads_end (fun x hx => over_mono hs (hwrest x hx)) hends _)) (Nat.le_succ _) ?_
    exact h (t := .between l.name l.operator t (.leaf l.operand)) hv hrest ht

/-- The chain is refused at the first operator that does not agree with the one in front of it. -/
theorem refuses_clash (hclash : ¬ prev.Agrees next) (hleft : r.left = (kinds (next :: back)).length)
    (hfault : r.fault = chainFault (wordKind next.name) prev.operator.grouping next.operator)
    (hv : v.WellFormed) (hl : ∀ x ∈ front ++ prev :: next :: back, x.Over v)
    (hp : ∀ x ∈ front ++ prev :: next :: back, x.precedence = p)
    (hfront : (front ++ [prev]).IsChain Link.Agrees) (ht : ¬ (p < limit ∨ p = limit ∧ strict))
    (hc : ∀ x ∈ (front ++ [prev]).head?, Chains earlier x.operator) :
    RefusesClimb r limit strict earlier (t.build v).1 (t.build v).2
      (kinds (front ++ prev :: next :: back)) := by
  induction front generalizing t v limit strict earlier with
  | nil =>
    refine refuses_cons hv hl hp ht (hc prev rfl) fun {t v limit strict} hv hl ht => ?_
    have hnext := hl next List.mem_cons_self
    obtain rfl : next.precedence = p := hp next (by simp)
    exact refuses_climb_clash (operatorBehind?_of_over hnext (t.build_grows hv).2 _) ht hclash
      hleft.symm hfault
  | cons l front ih =>
    refine refuses_cons hv hl hp ht (hc l rfl) fun {t v limit strict} hv hl ht => ?_
    refine ih hv hl (fun x hx => hp x (List.mem_cons_of_mem _ hx)) hfront.tail ht fun x hx => ?_
    have hagrees := List.isChain_cons.1 hfront |>.1 x hx
    intro q g hg hq
    obtain ⟨rfl, rfl⟩ : p = q ∧ l.operator.grouping = g := by simpa using hg
    exact hagrees

end

/-- Reading fails at the operator behind `prev`. -/
theorem parseTerm_clash {c : Chain} (hv : v.WellFormed) (hc : c.Over v)
    (hp : ∀ l ∈ c.links, l.precedence = p) (hlinks : c.links = front ++ prev :: next :: back)
    (hfront : (front ++ [prev]).IsChain Link.Agrees) (hclash : ¬ prev.Agrees next) :
    ∃ span, (parseTerm v c.text).1 = .error (.grammar span
        (chainFault (wordKind next.name) prev.operator.grouping next.operator)) ∧
      span.Covers "<term>" ((⟨c.first, front ++ [prev]⟩ : Chain).text ++ " ").toList
        next.name.toList := by
  obtain ⟨before, hbefore⟩ : ∃ before : Chain, before = ⟨c.first, front ++ [prev]⟩ := ⟨_, rfl⟩
  have hwords : c.words = before.words ++ next.name :: (next.operand :: back.flatMap Link.words) := by
    simp [words, hlinks, hbefore, Link.words]
  let r : Refusal := ⟨⟨"<term>", c.text⟩, (kinds (next :: back)).length,
    chainFault (wordKind next.name) prev.operator.grouping next.operator⟩
  have hshows : r.source.scan.Shows (c.words.map wordKind) := hc.spells.ofText _
  have hread : RefusesExpression r Precedence.lowest false none v (c.words.map wordKind) := by
    refine .leaf hv hc.1 (closes_kinds hc.2) ?_
    rw [hlinks]
    exact refuses_clash (t := .leaf c.first) hclash rfl rfl hv (hlinks ▸ hc.2) (hlinks ▸ hp) hfront
      (by simp [Precedence.lowest]) (fun x _ q g hg => absurd hg (by simp))
  obtain ⟨t, ht, hrun⟩ := parseTerm_refuses rfl hshows hread
  refine ⟨t.span, hrun, ?_⟩
  have hitem : r.source.scan.get before.words.length = .token t := by
    have hlen : r.source.scan.items.length = c.words.length := by
      simpa using congrArg List.length hshows.items
    rw [← ht, Refusal.item, hlen, hwords]
    congr 1
    simp [r, kinds, Link.words]
  rw [← hbefore, text, words, toList_spaced]
  exact Source.covers_word (u := r.source) (congrArg (" ".intercalate ·) hwords) (hwords ▸ hc.word)
    hitem

/-- A chain of operators of one precedence is nested to the left if there is at most one operator or all
group to the left, and to the right if all group to the right. Any other one is refused at the first
operator that does not pair with the one in front of it. -/
theorem parseTerm_uniform {c : Chain} (hv : v.Reachable) (hc : c.Over v)
    (hp : ∀ l ∈ c.links, l.precedence = p) :
    ((c.links.length ≤ 1 ∨ ∀ l ∈ c.links, l.operator.fixity = .infixLeft) →
      parseTerm v c.text = (.ok (c.nestedLeft.build v).1, (c.nestedLeft.build v).2)) ∧
    ((∀ l ∈ c.links, l.operator.fixity = .infixRight) →
      parseTerm v c.text = (.ok (c.nestedRight.build v).1, (c.nestedRight.build v).2)) ∧
    (¬ (c.links.length ≤ 1 ∨ ∀ l ∈ c.links, l.operator.fixity = .infixLeft) →
      (¬ ∀ l ∈ c.links, l.operator.fixity = .infixRight) →
      ∃ front prev next back span, c.links = front ++ prev :: next :: back ∧
        (front ++ [prev]).IsChain Link.Pairs ∧ ¬ prev.Pairs next ∧
        (parseTerm v c.text).1 = .error (.grammar span
          (chainFault (wordKind next.name) prev.operator.grouping next.operator)) ∧
        span.Covers "<term>" ((⟨c.first, front ++ [prev]⟩ : Chain).text ++ " ").toList
          next.name.toList) := by
  have hw := hv.wellFormed
  refine ⟨fun h => ?_, fun h => ?_, fun hleft hright => ?_⟩
  · rw [← tree_eq_nestedLeft hp h]
    refine parseTerm_of_not_noticed hw hc ?_
    rcases h with h | h
    · exact not_noticed_of_length_le h
    · exact not_noticed_of_agrees fun l hl next hn => agrees_of_fixity (h l hl) (h next hn) (by decide)
  · rw [← tree_eq_nestedRight hp h]
    refine parseTerm_of_not_noticed hw hc ?_
    exact not_noticed_of_agrees fun l hl next hn => agrees_of_fixity (h l hl) (h next hn) (by decide)
  · obtain ⟨front, prev, next, back, hlinks, hfront, hclash⟩ := exists_clash fun h =>
      (left_or_right h).elim (fun h => hleft (.inl h)) fun h => h.elim (fun h => hleft (.inr h)) hright
    have hover : ∀ x ∈ front ++ prev :: next :: back, x.Over v := hlinks ▸ hc.2
    have hagrees : (front ++ [prev]).IsChain Link.Agrees := by
      refine hfront.imp_of_mem_imp fun a b ha hb hab => ?_
      exact (pairs_iff_agrees (hover a (by simp at ha ⊢; tauto)) (hover b (by simp at hb ⊢; tauto))).1 hab
    have hclash' : ¬ prev.Agrees next := fun h =>
      hclash ((pairs_iff_agrees (hover prev (by simp)) (hover next (by simp))).2 h)
    obtain ⟨span, hrun, hspan⟩ := parseTerm_clash hw hc hp hlinks hagrees hclash'
    exact ⟨front, prev, next, back, span, hlinks, hfront, hclash, hrun, hspan⟩

def mixedChain : Chain :=
  ⟨"a", [⟨"+", ⟨.infixLeft, 160⟩, "b"⟩, ⟨"+", ⟨.infixLeft, 160⟩, "c"⟩,
    ⟨"++", ⟨.infixRight, 160⟩, "d"⟩, ⟨"+", ⟨.infixLeft, 160⟩, "e"⟩]⟩

/-- The fault is at `++`, the first operator that does not group as the one in front of it. -/
theorem parseTerm_mixedChain :
    mixedChain.Over appending ∧ (∀ l ∈ mixedChain.links, l.precedence = 160) ∧
      ∃ front prev next back span, mixedChain.links = front ++ prev :: next :: back ∧
        ¬ prev.Pairs next ∧ (parseTerm appending "a + b + c ++ d + e").1 = .error (.grammar span
          (chainFault (wordKind next.name) prev.operator.grouping next.operator)) := by
  have hover : mixedChain.Over appending := by decide +kernel
  have hprecedence : ∀ l ∈ mixedChain.links, l.precedence = 160 := by decide
  have htext : mixedChain.text = "a + b + c ++ d + e" := by decide +kernel
  obtain ⟨-, -, hrefused⟩ := parseTerm_uniform reachable_appending hover hprecedence
  obtain ⟨front, prev, next, back, span, hlinks, -, hclash, hrun, -⟩ :=
    hrefused (by decide) (by decide)
  exact ⟨hover, hprecedence, front, prev, next, back, span, hlinks, hclash, htext ▸ hrun⟩

end Chain

end Clausal
