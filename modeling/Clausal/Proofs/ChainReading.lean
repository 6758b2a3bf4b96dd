import Clausal.Proofs.OperatorChains
import Clausal.Proofs.TreeReading

/-!
# Reading chains of infix operators

Reading follows `Chain.grouped`, and refuses a chain just where it notices a clash. So it does what
`Chain.reference?` does, but for the chains with clashes of which none is noticed.
-/
namespace Clausal

open Parse

variable {v w : Vocabulary}

/-- The operator stands between operands only, and the operand is a name of no operator. -/
def Link.Over (v : Vocabulary) (l : Link) : Prop :=
  OperatorTree.Declares v l.name .betweenOperands l.operator ∧
    (∀ s ∈ v.lookup l.name, v.operators.lookup s .beforeOperand = none ∧
      v.operators.lookup s .afterOperand = none) ∧
    (OperatorTree.leaf l.operand).Over v

instance (v : Vocabulary) (l : Link) : Decidable (l.Over v) :=
  inferInstanceAs (Decidable (_ ∧ _))

def Chain.Over (v : Vocabulary) (c : Chain) : Prop :=
  (OperatorTree.leaf c.first).Over v ∧ ∀ l ∈ c.links, l.Over v

instance (v : Vocabulary) (c : Chain) : Decidable (c.Over v) :=
  inferInstanceAs (Decidable (_ ∧ _))

namespace Chain

abbrev kinds (links : List Link) : List TokenKind := (links.flatMap Link.words).map wordKind

theorem over_iff {l : Link} : l.Over v ↔
    OperatorTree.Declares v l.name .betweenOperands l.operator ∧
      (operatorAt? v .beforeOperand (wordKind l.name) = none ∧
        operatorAt? v .afterOperand (wordKind l.name) = none) ∧
      (OperatorTree.leaf l.operand).Over v := by
  refine and_congr_right fun hd => and_congr_left fun _ => ?_
  rw [operatorAt?_eq_none l.name hd.name?, operatorAt?_eq_none l.name hd.name?]
  exact ⟨fun h => ⟨fun s hs => (h s hs).1, fun s hs => (h s hs).2⟩,
    fun h s hs => ⟨h.1 s hs, h.2 s hs⟩⟩

theorem over_mono {l : Link} (hw : SameOperators v w) (h : l.Over v) : l.Over w := by
  rw [over_iff] at h ⊢
  rw [hw.operatorAt, hw.operatorAt]
  exact ⟨h.1.mono hw, h.2.1, h.2.2.mono hw⟩

theorem operatorBehind?_of_over {l : Link} (h : l.Over v) (hw : SameOperators v w)
    (following : TokenKind) :
    operatorBehind? w (wordKind l.name) following = some ((v.intern l.name).1, l.operator) := by
  rw [hw.operatorBehind]
  simp [operatorBehind?, h.1.operatorAt, (over_iff.1 h).2.1.2]

theorem over_placement {l : Link} (h : l.Over v) : l.operator.placement ≠ .afterOperand := by
  rw [h.1.placement]
  decide

theorem closes_kinds {links : List Link} (hl : ∀ x ∈ links, x.Over v) :
    OperatorTree.Closes v none (kinds links) := by
  cases links with
  | nil => exact ⟨rfl, by simp, fun _ h => absurd h (by simp)⟩
  | cons l rest => exact (hl l List.mem_cons_self).1.closes _

variable {limit : Nat} {strict : Bool} {earlier : Option (Nat × Grouping)} {out : Outcome Term}

/-- An expression ends before an operator that is too loose for it, or at the end of the chain. -/
theorem reads_end {links : List Link} (hl : ∀ x ∈ links, x.Over v)
    (h : ∀ x ∈ links.head?, x.precedence < limit ∨ x.precedence = limit ∧ strict) (first : Term) :
    ReadsClimb limit strict earlier first v (kinds links) (.value first v (kinds links)) := by
  cases links with
  | nil =>
    refine reads_climb_stop ?_
    simp [operatorBehind?, operatorAt?, operatorSymbol?, TokenKind.name?]
  | cons l rest =>
    exact reads_climb_yield (operatorBehind?_of_over (hl l List.mem_cons_self) (.refl v) _)
      (h l (by simp))

theorem chains_iff {l next : Link} :
    Chains (some (l.precedence, l.operator.grouping)) next.operator ↔ ¬ l.Clashes next := by
  constructor
  · rintro h ⟨hp, hn⟩
    exact hn (h _ _ rfl hp)
  · intro h p g hg hp
    obtain ⟨rfl, rfl⟩ : l.precedence = p ∧ l.operator.grouping = g := by simpa using hg
    by_contra hn
    exact h ⟨hp, hn⟩

/-- An operator with the links it absorbs and with those that end its right operand. -/
theorem exists_operand (l : Link) (rest : List Link) :
    ∃ inner outer, rest = inner ++ outer ∧ (∀ x ∈ inner, l.absorbs x = true) ∧
      ∀ x ∈ outer.head?, l.absorbs x = false := by
  exact ⟨rest.takeWhile l.absorbs, rest.dropWhile l.absorbs,
    List.takeWhile_append_dropWhile.symm, fun x hx => List.mem_takeWhile_imp hx,
    not_absorbs_of_mem_head l rest⟩

section

variable {t : OperatorTree} {l : Link} {inner outer : List Link}
variable (hin : ∀ x ∈ inner, l.absorbs x = true) (hout : ∀ x ∈ outer.head?, l.absorbs x = false)

include hin hout

omit hout in
theorem not_yields_of_absorbs : ∀ x ∈ inner, ¬ (x.precedence < l.precedence ∨
    x.precedence = l.precedence ∧ decide (l.operator.grouping ≠ .right) = true) := by
  intro x hx h
  simp only [decide_eq_true_eq] at h
  rw [← Link.absorbs_eq_false_iff, hin x hx] at h
  exact Bool.noConfusion h

theorem grouped_cons_append : grouped t (l :: (inner ++ outer)) =
    grouped (.between l.name l.operator t (grouped (.leaf l.operand) inner)) outer := by
  have ht : outer.takeWhile l.absorbs = [] ∧ outer.dropWhile l.absorbs = outer := by
    cases outer with
    | nil => exact ⟨rfl, rfl⟩
    | cons x outer => simp [hout x (by simp)]
  rw [grouped_cons, List.takeWhile_append_of_pos hin, List.dropWhile_append_of_pos hin, ht.1, ht.2,
    List.append_nil]

end

/-- The right operand of an operator ends before what is not absorbed, and before what ends the
expression around the operator. -/
theorem operand_ends {l : Link} {outer more : List Link}
    (hout : ∀ x ∈ outer.head?, l.absorbs x = false)
    (ht : ¬ (l.precedence < limit ∨ l.precedence = limit ∧ strict))
    (hm : ∀ x ∈ more.head?, x.precedence < limit ∨ x.precedence = limit ∧ strict) :
    ∀ x ∈ (outer ++ more).head?, x.precedence < l.precedence ∨
      x.precedence = l.precedence ∧ decide (l.operator.grouping ≠ .right) = true := by
  intro x hx
  simp only [decide_eq_true_eq]
  cases outer with
  | cons y outer =>
    obtain rfl : y = x := by simpa using hx
    exact Link.absorbs_eq_false_iff.1 (hout y (by simp))
  | nil =>
    refine .inl ?_
    by_contra hge
    rcases hm x hx with hlt | ⟨heq, hs⟩
    · exact ht (.inl (by omega))
    · by_cases he : l.precedence = limit
      · exact ht (.inr ⟨he, hs⟩)
      · exact ht (.inl (by omega))

/-- Reading links comes down to going on behind them. -/
def ReadsLinks (links : List Link) : Prop :=
  ∀ {t : OperatorTree} {v : Vocabulary} {limit : Nat} {strict : Bool}
    {earlier : Option (Nat × Grouping)} {more : List Link} {out : Outcome Term},
    v.WellFormed → (∀ x ∈ links ++ more, x.Over v) →
    (∀ x ∈ links, ¬ (x.precedence < limit ∨ x.precedence = limit ∧ strict)) →
    (∀ x ∈ more.head?, x.precedence < limit ∨ x.precedence = limit ∧ strict) →
    (∀ x ∈ links.head?, Chains earlier x.operator) →
    (∀ earlier, ReadsClimb limit strict earlier ((grouped t links).build v).1
      ((grouped t links).build v).2 (kinds more) out) →
    ReadsClimb limit strict earlier (t.build v).1 (t.build v).2 (kinds (links ++ more)) out

theorem kinds_cons_append (l : Link) (inner outer more : List Link) :
    kinds (l :: (inner ++ outer) ++ more) =
      wordKind l.name :: wordKind l.operand :: kinds (inner ++ (outer ++ more)) := by
  simp [kinds, Link.words]

/-- The right operand of an operator: its first name, and the links that it absorbs. -/
theorem ReadsLinks.operand {l : Link} {inner more : List Link} (h : ReadsLinks inner)
    (hv : v.WellFormed) (ho : (OperatorTree.leaf l.operand).Over v)
    (hl : ∀ x ∈ inner ++ more, x.Over v) (hin : ∀ x ∈ inner, l.absorbs x = true)
    (hh : ∀ x ∈ inner.head?, ¬ l.Clashes x)
    (hm : ∀ x ∈ more.head?, x.precedence < l.precedence ∨
      x.precedence = l.precedence ∧ decide (l.operator.grouping ≠ .right) = true) :
    ReadsExpression l.precedence (l.operator.grouping ≠ .right)
      (some (l.precedence, l.operator.grouping)) v (wordKind l.operand :: kinds (inner ++ more))
      (.value ((grouped (.leaf l.operand) inner).build v).1
        ((grouped (.leaf l.operand) inner).build v).2 (kinds more)) := by
  refine OperatorTree.reads_leaf hv ho (closes_kinds hl) ?_
  refine h hv hl (not_yields_of_absorbs hin) hm (fun x hx => chains_iff.2 (hh x hx)) fun e => ?_
  have hs := ((grouped (.leaf l.operand) inner).build_grows hv).2
  exact reads_end (fun x hx => over_mono hs (hl x (List.mem_append_right _ hx))) hm _

theorem reads_links {links : List Link} (hn : ¬ Noticed links) : ReadsLinks links := by
  induction hlen : links.length using Nat.strongRecOn generalizing links with
  | ind n ih =>
    intro t v limit strict earlier more out hv hl ht hm hh hc
    cases links with
    | nil =>
      rw [grouped_nil] at hc
      exact hc earlier
    | cons l rest =>
      obtain ⟨inner, outer, rfl, hin, hout⟩ := exists_operand l rest
      rw [List.length_cons, List.length_append] at hlen
      rw [noticed_cons_iff hin hout] at hn
      simp only [not_or, not_exists, not_and] at hn
      obtain ⟨hci, hni, hco, hno⟩ := hn
      obtain ⟨hvt, hst⟩ := t.build_grows hv
      have hlo := hl l (by simp)
      have htl := ht l List.mem_cons_self
      have hrest : ∀ x ∈ inner ++ (outer ++ more), x.Over v := fun x hx =>
        hl x (by rw [List.cons_append, List.append_assoc]; exact List.mem_cons_of_mem _ hx)
      have hoperand := ReadsLinks.operand (ih inner.length (by omega) hni rfl) hvt
        (over_mono hst hlo).2.2 (fun x hx => over_mono hst (hrest x hx)) hin hci
        (operand_ends hout htl hm)
      rw [grouped_cons_append hin hout] at hc
      rw [kinds_cons_append]
      refine reads_climb_between (operatorBehind?_of_over hlo hst _) htl (hh l rfl)
        (over_placement hlo) hoperand ?_ ?_
      · simp
        omega
      · exact ih outer.length (by omega) hno rfl (t := .between l.name l.operator t _) hv
          (fun x hx => hrest x (List.mem_append_right _ hx)) (fun x hx => ht x (by simp [hx])) hm
          (fun x hx => chains_iff.2 (hco x hx)) hc

/-- A clash that is noticed is refused. -/
theorem reads_links_refusal {t : OperatorTree} {links more : List Link} (hv : v.WellFormed)
    (hl : ∀ x ∈ links ++ more, x.Over v)
    (ht : ∀ x ∈ links, ¬ (x.precedence < limit ∨ x.precedence = limit ∧ strict))
    (hm : ∀ x ∈ more.head?, x.precedence < limit ∨ x.precedence = limit ∧ strict)
    (hn : (∃ x ∈ links.head?, ¬ Chains earlier x.operator) ∨ Noticed links) :
    ∃ fault, ReadsClimb limit strict earlier (t.build v).1 (t.build v).2 (kinds (links ++ more))
      (.refusal fault) := by
  induction hlen : links.length using Nat.strongRecOn
    generalizing t v links more limit strict earlier with
  | ind n ih =>
    cases links with
    | nil =>
      rcases hn with ⟨x, hx, -⟩ | ⟨front, l, inner, next, back, happ, -⟩
      · simp at hx
      · simp at happ
    | cons l rest =>
      obtain ⟨inner, outer, rfl, hin, hout⟩ := exists_operand l rest
      rw [List.length_cons, List.length_append] at hlen
      obtain ⟨hvt, hst⟩ := t.build_grows hv
      have hlo := hl l (by simp)
      have htl := ht l List.mem_cons_self
      have hrest : ∀ x ∈ inner ++ (outer ++ more), x.Over v := fun x hx =>
        hl x (by rw [List.cons_append, List.append_assoc]; exact List.mem_cons_of_mem _ hx)
      have hwrest := fun x hx => over_mono hst (hrest x hx)
      have hends := operand_ends hout htl hm
      rw [kinds_cons_append]
      by_cases hh : Chains earlier l.operator
      · have hnoticed : Noticed (l :: (inner ++ outer)) := by
          refine hn.resolve_left ?_
          rintro ⟨x, hx, hnot⟩
          obtain rfl : l = x := by simpa using hx
          exact hnot hh
        rw [noticed_cons_iff hin hout] at hnoticed
        by_cases hi : (∃ x ∈ inner.head?, l.Clashes x) ∨ Noticed inner
        · obtain ⟨fault, hf⟩ := ih inner.length (by omega) (t := .leaf l.operand) hvt hwrest
            (not_yields_of_absorbs hin) hends
            (hi.imp_left fun ⟨x, hx, hc⟩ => ⟨x, hx, fun h => chains_iff.1 h hc⟩) rfl
          exact ⟨fault, reads_climb_between_refusal (operatorBehind?_of_over hlo hst _) htl hh
            (over_placement hlo)
            (OperatorTree.reads_leaf hvt (over_mono hst hlo).2.2 (closes_kinds hwrest) hf)⟩
        · simp only [not_or, not_exists, not_and] at hi
          have houter : (∃ x ∈ outer.head?, l.Clashes x) ∨ Noticed outer := by
            rcases hnoticed with ⟨x, hx, hc⟩ | hn' | hn'
            · exact absurd hc (hi.1 x hx)
            · exact absurd hn' hi.2
            · exact hn'
          have hoperand := ReadsLinks.operand (reads_links hi.2) hvt (over_mono hst hlo).2.2 hwrest
            hin hi.1 hends
          obtain ⟨fault, hf⟩ := ih outer.length (by omega) (t := .between l.name l.operator t _) hv
            (fun x hx => hrest x (List.mem_append_right _ hx)) (fun x hx => ht x (by simp [hx])) hm
            (houter.imp_left fun ⟨x, hx, hc⟩ => ⟨x, hx, fun h => chains_iff.1 h hc⟩) rfl
          refine ⟨fault, reads_climb_between (operatorBehind?_of_over hlo hst _) htl hh
            (over_placement hlo) hoperand ?_ hf⟩
          simp
          omega
      · simp only [Chains, not_forall] at hh
        obtain ⟨p, g, rfl, rfl, hg⟩ := hh
        exact ⟨_, reads_climb_refusal (operatorBehind?_of_over hlo hst _) htl hg⟩

/-- The tree that reading builds if it finds no clash. -/
def tree (c : Chain) : OperatorTree := grouped (.leaf c.first) c.links

theorem Over.word {c : Chain} (h : c.Over v) : ∀ u ∈ c.words, Word u.toList (wordKind u) := by
  have hleaf : ∀ name, (OperatorTree.leaf name).Over v → Word name.toList (wordKind name) :=
    fun name hn => OperatorTree.Over.word hn name (by simp [OperatorTree.words])
  intro u hu
  rcases List.mem_cons.1 hu with rfl | hu
  · exact hleaf _ h.1
  · obtain ⟨l, hl, hu⟩ := List.mem_flatMap.1 hu
    obtain rfl | rfl : u = l.name ∨ u = l.operand := by simpa [Link.words] using hu
    · exact (h.2 l hl).1.word
    · exact hleaf _ (h.2 l hl).2.2

theorem Over.spells {c : Chain} (h : c.Over v) : Spells c.text.toList (c.words.map wordKind) :=
  Spells.spaced h.word

theorem Over.reads {c : Chain} (hv : v.WellFormed) (h : c.Over v)
    (hr : ReadsClimb Precedence.lowest false none ((OperatorTree.leaf c.first).build v).1
      ((OperatorTree.leaf c.first).build v).2 (kinds (c.links ++ [])) out) :
    ReadsExpression Precedence.lowest false none v (c.words.map wordKind) out := by
  rw [List.append_nil] at hr
  exact OperatorTree.reads_leaf hv h.1 (closes_kinds h.2) hr

theorem parseTerm_of_not_noticed {c : Chain} (hv : v.WellFormed) (hc : c.Over v)
    (hn : ¬ Noticed c.links) :
    parseTerm v c.text = (.ok (c.tree.build v).1, (c.tree.build v).2) := by
  refine parseTerm_of_shows (hc.spells.ofText _) (hc.reads hv ?_)
  refine reads_links hn hv (by simpa using hc.2) (by simp [Precedence.lowest]) (by simp)
    (fun x _ p g hg => absurd hg (by simp)) fun e => ?_
  refine reads_climb_stop ?_
  simp [operatorBehind?, operatorAt?, operatorSymbol?, TokenKind.name?]

theorem parseTerm_of_noticed {c : Chain} (hv : v.WellFormed) (hc : c.Over v)
    (hn : Noticed c.links) :
    ∃ span fault, (parseTerm v c.text).1 = .error (.grammar span fault) := by
  obtain ⟨fault, hf⟩ : ∃ fault, ReadsClimb Precedence.lowest false none
      ((OperatorTree.leaf c.first).build v).1 ((OperatorTree.leaf c.first).build v).2
      (kinds (c.links ++ [])) (.refusal fault) :=
    reads_links_refusal hv (by simpa using hc.2) (by simp [Precedence.lowest]) (by simp) (.inr hn)
  obtain ⟨span, hs⟩ := parseTerm_refusal_of_shows (hc.spells.ofText _) (hc.reads hv hf)
  exact ⟨span, fault, hs⟩

/-- A chain is read as the reference groups it. Where the reference refuses it, reading fails if it
notices a clash, and else it gives a tree that the reference does not allow. -/
theorem parseTerm_chain {c : Chain} (hv : v.Reachable) (hc : c.Over v) :
    (∀ t, reference? c.first c.links = some t →
      parseTerm v c.text = (.ok (t.build v).1, (t.build v).2)) ∧
    (reference? c.first c.links = none →
      (Noticed c.links → ∃ span fault, (parseTerm v c.text).1 = .error (.grammar span fault)) ∧
      (¬ Noticed c.links → parseTerm v c.text = (.ok (c.tree.build v).1, (c.tree.build v).2))) := by
  have hw := hv.wellFormed
  refine ⟨fun t ht => ?_, fun _ => ⟨parseTerm_of_noticed hw hc, parseTerm_of_not_noticed hw hc⟩⟩
  obtain ⟨rfl, hn⟩ := eq_grouped_of_reference? ht
  exact parseTerm_of_not_noticed hw hc hn

/-- Operators of one precedence that group to either side, and a tighter one. -/
def appending : Vocabulary :=
  let v := (Vocabulary.initial.defineOperator "++" .infixRight 160).2
  let v := (v.defineOperator "+" .infixLeft 160).2
  (v.defineOperator "*" .infixLeft 170).2

theorem reachable_appending : appending.Reachable :=
  .defineOperator _ _ _ <| .defineOperator _ _ _ <| .defineOperator _ _ _ .initial

def hiddenClash : Chain :=
  ⟨"a", [⟨"++", ⟨.infixRight, 160⟩, "b"⟩, ⟨"*", ⟨.infixLeft, 170⟩, "c"⟩,
    ⟨"+", ⟨.infixLeft, 160⟩, "d"⟩]⟩

/-- The clash of `++` and `+` is hidden by what `*` has put in between. -/
theorem parseTerm_hiddenClash :
    reference? hiddenClash.first hiddenClash.links = none ∧
      parseTerm appending "a ++ b * c + d" =
        (.ok (hiddenClash.tree.build appending).1, (hiddenClash.tree.build appending).2) := by
  have href : reference? hiddenClash.first hiddenClash.links = none := by decide +kernel
  have hnot : ¬ Noticed hiddenClash.links := by decide +kernel
  have htext : hiddenClash.text = "a ++ b * c + d" := by decide +kernel
  rw [← htext]
  exact ⟨href, ((parseTerm_chain reachable_appending (by decide +kernel)).2 href).2 hnot⟩

end Chain

end Clausal
