import Clausal.Proofs.OperatorTrees
import Mathlib.Data.List.TakeWhile

/-!
# Chains of infix operators

A chain is written `x₀ o₁ x₁ … oₙ xₙ`, without parentheses. `Chain.reference?` groups it by
splitting at its loosest operator, and refuses it where several are loosest and do not all group to
one side. `Chain.grouped` takes it from the left instead: each operator takes what it absorbs. The
two agree, but for clashes that are not noticed: an operator that groups to the right, tighter ones
behind it, and then one as tight that does not group to the right.
-/
namespace Clausal

/-- An operator and the operand behind it. -/
structure Link where
  name : String
  operator : Operator
  operand : String
  deriving DecidableEq, Repr

structure Chain where
  first : String
  links : List Link
  deriving DecidableEq, Repr

namespace Link

def precedence (l : Link) : Nat := l.operator.precedence

def words (l : Link) : List String := [l.name, l.operand]

/-- Whether an operator further on belongs to the right operand of this one. -/
def absorbs (l next : Link) : Bool :=
  l.precedence < next.precedence ||
    l.precedence = next.precedence && l.operator.grouping = .right

/-- Two operators that group to the same side. -/
def Agrees (l next : Link) : Prop :=
  l.operator.grouping = next.operator.grouping ∧ l.operator.grouping ≠ .none

/-- Two operators that may not stand on one level. -/
def Clashes (l next : Link) : Prop := l.precedence = next.precedence ∧ ¬ l.Agrees next

instance (l next : Link) : Decidable (l.Clashes next) :=
  inferInstanceAs (Decidable (_ ∧ ¬ (_ ∧ _)))

theorem absorbs_iff {l next : Link} : l.absorbs next = true ↔
    l.precedence < next.precedence ∨
      l.precedence = next.precedence ∧ l.operator.grouping = .right := by
  simp [absorbs]

theorem absorbs_eq_false_iff {l next : Link} : l.absorbs next = false ↔
    next.precedence < l.precedence ∨
      next.precedence = l.precedence ∧ l.operator.grouping ≠ .right := by
  rw [← Bool.not_eq_true, absorbs_iff]
  constructor
  · intro h
    by_cases he : next.precedence = l.precedence
    · exact .inr ⟨he, fun hr => h (.inr ⟨he.symm, hr⟩)⟩
    · exact .inl (by omega)
  · rintro (h | ⟨h, hr⟩) (hx | ⟨hx, hr'⟩)
    · omega
    · omega
    · omega
    · exact hr hr'

end Link

namespace Chain

def words (c : Chain) : List String := c.first :: c.links.flatMap Link.words

def text (c : Chain) : String := " ".intercalate c.words

/-- A list around its first element that satisfies a test. -/
def splitFirst? (p : Link → Bool) : List Link → Option (List Link × Link × List Link)
  | [] => none
  | l :: rest =>
    if p l then some ([], l, rest)
    else (splitFirst? p rest).map fun (front, m, back) => (l :: front, m, back)

/-- A list around its last element that satisfies a test. -/
def splitLast? (p : Link → Bool) (links : List Link) : Option (List Link × Link × List Link) :=
  (splitFirst? p links.reverse).map fun (back, l, front) => (front.reverse, l, back.reverse)

/-- Where a chain is split: at its only loosest operator, at the last of several that all group to
the left, or at the first of several that all group to the right. -/
def split? (links : List Link) : Option (List Link × Link × List Link) :=
  match (links.map Link.precedence).min? with
  | none => none
  | some m =>
    let loosest := links.filter fun l => l.precedence = m
    if loosest.length = 1 then splitFirst? (fun l => l.precedence = m) links
    else if loosest.all fun l => l.operator.fixity = .infixLeft then
      splitLast? (fun l => l.precedence = m) links
    else if loosest.all fun l => l.operator.fixity = .infixRight then
      splitFirst? (fun l => l.precedence = m) links
    else none

theorem splitFirst?_eq_some {p : Link → Bool} {links front back : List Link} {l : Link}
    (h : splitFirst? p links = some (front, l, back)) :
    links = front ++ l :: back ∧ p l = true ∧ ∀ x ∈ front, p x = false := by
  induction links generalizing front with
  | nil => simp [splitFirst?] at h
  | cons x rest ih =>
    rw [splitFirst?] at h
    split_ifs at h with hx
    · obtain ⟨rfl, rfl, rfl⟩ := by simpa using h
      exact ⟨rfl, hx, by simp⟩
    · obtain ⟨⟨front', l', back'⟩, hr, he⟩ := Option.map_eq_some_iff.1 h
      obtain ⟨rfl, rfl, rfl⟩ := by simpa using he
      obtain ⟨rfl, hl, hf⟩ := ih hr
      refine ⟨rfl, hl, fun y hy => ?_⟩
      rcases List.mem_cons.1 hy with rfl | hy
      · simpa using hx
      · exact hf y hy

theorem splitLast?_eq_some {p : Link → Bool} {links front back : List Link} {l : Link}
    (h : splitLast? p links = some (front, l, back)) :
    links = front ++ l :: back ∧ p l = true ∧ ∀ x ∈ back, p x = false := by
  obtain ⟨⟨back', l', front'⟩, hr, he⟩ := Option.map_eq_some_iff.1 h
  obtain ⟨rfl, rfl, rfl⟩ := by simpa using he
  obtain ⟨hl, hp, hf⟩ := splitFirst?_eq_some hr
  refine ⟨?_, hp, fun x hx => hf x (List.mem_reverse.1 hx)⟩
  simpa using congrArg List.reverse hl

theorem split?_eq_append {links front back : List Link} {l : Link}
    (h : split? links = some (front, l, back)) : links = front ++ l :: back := by
  unfold split? at h
  split at h
  · exact absurd h (by simp)
  · dsimp only at h
    split_ifs at h
    · exact (splitFirst?_eq_some h).1
    · exact (splitLast?_eq_some h).1
    · exact (splitFirst?_eq_some h).1

/-- The tree of a chain, if every split is possible. -/
def reference? (first : String) (links : List Link) : Option OperatorTree :=
  if links = [] then some (.leaf first)
  else
    match h : split? links with
    | none => none
    | some (front, l, back) =>
      have _hl : links = front ++ l :: back := split?_eq_append h
      do
        let left ← reference? first front
        let right ← reference? l.operand back
        some (.between l.name l.operator left right)
termination_by links.length
decreasing_by
  · simp only [_hl, List.length_append, List.length_cons]
    omega
  · simp only [_hl, List.length_append, List.length_cons]
    omega

/-- Each operator takes as its right operand what it absorbs. -/
def grouped (t : OperatorTree) : List Link → OperatorTree
  | [] => t
  | l :: rest =>
    grouped (.between l.name l.operator t
      (grouped (.leaf l.operand) (rest.takeWhile l.absorbs))) (rest.dropWhile l.absorbs)
termination_by links => links.length
decreasing_by
  · have hle := (List.takeWhile_sublist l.absorbs (l := rest)).length_le
    simp only [List.length_cons]
    omega
  · have hle := (List.dropWhile_sublist l.absorbs (l := rest)).length_le
    simp only [List.length_cons]
    omega

theorem grouped_nil (t : OperatorTree) : grouped t [] = t := by rw [grouped]

theorem grouped_cons (t : OperatorTree) (l : Link) (rest : List Link) :
    grouped t (l :: rest) =
      grouped (.between l.name l.operator t
        (grouped (.leaf l.operand) (rest.takeWhile l.absorbs))) (rest.dropWhile l.absorbs) := by
  rw [grouped]

/-- A clash with only tighter operators in between, and with none at all if the first of the two
groups to the right. -/
def Noticed (links : List Link) : Prop :=
  ∃ front l inner next back, links = front ++ l :: (inner ++ next :: back) ∧ l.Clashes next ∧
    (∀ x ∈ inner, l.precedence < x.precedence) ∧ (l.operator.grouping = .right → inner = [])

theorem takeWhile_dropWhile_append {p : Link → Bool} (front back : List Link) {l : Link}
    (h : p l = false) :
    (front ++ l :: back).takeWhile p = front.takeWhile p ∧
      (front ++ l :: back).dropWhile p = front.dropWhile p ++ l :: back := by
  induction front with
  | nil => simp [h]
  | cons x front ih =>
    cases hx : p x with
    | true => simpa [hx] using ih
    | false => simp [hx]

/-- What no operator in front absorbs, and what absorbs all that follows, is the top. -/
theorem grouped_append {t : OperatorTree} {front back : List Link} {l : Link}
    (hf : ∀ x ∈ front, x.absorbs l = false) (hb : ∀ x ∈ back, l.absorbs x = true) :
    grouped t (front ++ l :: back) =
      .between l.name l.operator (grouped t front) (grouped (.leaf l.operand) back) := by
  induction hn : front.length using Nat.strongRecOn generalizing t front with
  | ind n ih =>
    cases front with
    | nil =>
      have ht : back.takeWhile l.absorbs = back := List.takeWhile_eq_self_iff.2 hb
      have hd : back.dropWhile l.absorbs = [] := List.dropWhile_eq_nil_iff.2 hb
      rw [List.nil_append, grouped_cons, ht, hd, grouped_nil, grouped_nil]
    | cons x front =>
      obtain ⟨ht, hd⟩ := takeWhile_dropWhile_append front back (hf x List.mem_cons_self)
      have hsub := List.dropWhile_sublist x.absorbs (l := front)
      have hlen := hsub.length_le
      rw [List.cons_append, grouped_cons, grouped_cons, ht, hd]
      refine ih (front.dropWhile x.absorbs).length ?_ (fun y hy => ?_) rfl
      · rw [← hn, List.length_cons]
        omega
      · exact hf y (List.mem_cons_of_mem _ (hsub.subset hy))

/-- What a split does: the loosest operator at the top, and no disagreement on its level. -/
structure Splits (links front : List Link) (l : Link) (back : List Link) : Prop where
  append : links = front ++ l :: back
  not_absorbed : ∀ x ∈ front, x.absorbs l = false
  absorbed : ∀ x ∈ back, l.absorbs x = true
  loosest : ∀ x ∈ links, l.precedence ≤ x.precedence
  agrees_front : ∀ x ∈ front, x.precedence = l.precedence → x.Agrees l
  agrees_back : ∀ x ∈ back, x.precedence = l.precedence → l.Agrees x

theorem splits_of_level {links front back : List Link} {l : Link}
    (happ : links = front ++ l :: back) (hle : ∀ x ∈ links, l.precedence ≤ x.precedence)
    (hf : ∀ x ∈ front, x.precedence = l.precedence → x.operator.grouping = .left ∧ x.Agrees l)
    (hb : ∀ x ∈ back, x.precedence = l.precedence → l.operator.grouping = .right ∧ l.Agrees x) :
    Splits links front l back := by
  refine ⟨happ, fun x hx => ?_, fun x hx => ?_, hle, fun x hx h => (hf x hx h).2,
    fun x hx h => (hb x hx h).2⟩
  · have hx' := hle x (by simp [happ, hx])
    rw [Link.absorbs_eq_false_iff]
    by_cases he : x.precedence = l.precedence
    · exact .inr ⟨he.symm, by rw [(hf x hx he).1]; decide⟩
    · exact .inl (by omega)
  · have hx' := hle x (by simp [happ, hx])
    rw [Link.absorbs_iff]
    by_cases he : x.precedence = l.precedence
    · exact .inr ⟨he.symm, (hb x hx he).1⟩
    · exact .inl (by omega)

theorem splits_of_split? {links front back : List Link} {l : Link}
    (h : split? links = some (front, l, back)) : Splits links front l back := by
  unfold split? at h
  cases hm : (links.map Link.precedence).min? with
  | none => simp [hm] at h
  | some m =>
    simp only [hm] at h
    have hle : ∀ x ∈ links, m ≤ x.precedence := fun x hx =>
      (List.min?_eq_some_iff.1 hm).2 x.precedence (List.mem_map_of_mem hx)
    have hlevel : ∀ f : Fixity, ((links.filter fun l => l.precedence = m).all
        fun l => l.operator.fixity = f) = true →
          ∀ x ∈ links, x.precedence = m → x.operator.grouping = f.grouping := by
      intro f hf x hx hp
      have hx' := List.all_eq_true.1 hf x (List.mem_filter.2 ⟨hx, by simpa using hp⟩)
      rw [Operator.grouping, of_decide_eq_true hx']
    split_ifs at h with hone hleft hright
    · obtain ⟨happ, hl, hf⟩ := splitFirst?_eq_some h
      obtain rfl : l.precedence = m := by simpa using hl
      have hback : back.filter (fun x => x.precedence = l.precedence) = [] := by
        have hcount := hone
        rw [happ, List.filter_append, List.filter_cons_of_pos (by simp), List.length_append,
          List.length_cons] at hcount
        exact List.length_eq_zero_iff.1 (by omega)
      refine splits_of_level happ hle (fun x hx hp => ?_) (fun x hx hp => ?_)
      · exact absurd hp (by simpa using hf x hx)
      · exact absurd hp (by simpa using List.filter_eq_nil_iff.1 hback x hx)
    · obtain ⟨happ, hl, hb⟩ := splitLast?_eq_some h
      obtain rfl : l.precedence = m := by simpa using hl
      have hg := hlevel .infixLeft hleft
      have hgl := hg l (by simp [happ]) rfl
      refine splits_of_level happ hle (fun x hx hp => ?_) (fun x hx hp => ?_)
      · have hgx := hg x (by simp [happ, hx]) hp
        exact ⟨hgx, hgx.trans hgl.symm, by rw [hgx]; decide⟩
      · exact absurd hp (by simpa using hb x hx)
    · obtain ⟨happ, hl, hf⟩ := splitFirst?_eq_some h
      obtain rfl : l.precedence = m := by simpa using hl
      have hg := hlevel .infixRight hright
      have hgl := hg l (by simp [happ]) rfl
      refine splits_of_level happ hle (fun x hx hp => ?_) (fun x hx hp => ?_)
      · exact absurd hp (by simpa using hf x hx)
      · have hgx := hg x (by simp [happ, hx]) hp
        exact ⟨hgl, hgl.trans hgx.symm, by rw [hgl]; decide⟩

section

variable {l : Link} {inner outer : List Link}
variable (hin : ∀ x ∈ inner, l.absorbs x = true) (hout : ∀ x ∈ outer.head?, l.absorbs x = false)

include hin hout

/-- What an operator absorbs is tighter than what ends its right operand. -/
theorem lt_of_absorbs {a h : Link} (ha : a ∈ inner) (hh : h ∈ outer.head?) :
    h.precedence < a.precedence := by
  have hla := Link.absorbs_iff.1 (hin a ha)
  have hlh := Link.absorbs_eq_false_iff.1 (hout h hh)
  rcases hla with hla | ⟨hla, hr⟩
  · omega
  · rcases hlh with hlh | ⟨-, hr'⟩
    · omega
    · exact absurd hr hr'

theorem noticed_split {front mid back : List Link} {a b : Link}
    (happ : inner ++ outer = front ++ a :: (mid ++ b :: back)) (hc : a.Clashes b)
    (hm : ∀ x ∈ mid, a.precedence < x.precedence)
    (hr : a.operator.grouping = .right → mid = []) : Noticed inner ∨ Noticed outer := by
  rcases List.append_eq_append_iff.1 happ with ⟨as, rfl, ho⟩ | ⟨cs, hi, ho⟩
  · exact .inr ⟨as, a, mid, b, back, ho, hc, hm, hr⟩
  cases cs with
  | nil => exact .inr ⟨[], a, mid, b, back, ho.symm, hc, hm, hr⟩
  | cons c cs =>
    obtain ⟨rfl, hrest⟩ : a = c ∧ mid ++ b :: back = cs ++ outer := by simpa using ho
    have ha : a ∈ inner := by simp [hi]
    have hnot : ∀ x ∈ outer.head?, ¬ a.precedence ≤ x.precedence := fun x hx =>
      Nat.not_le.2 (lt_of_absorbs hin hout ha hx)
    rcases List.append_eq_append_iff.1 hrest with ⟨ds, rfl, hb⟩ | ⟨ds, rfl, hb⟩
    · cases ds with
      | nil =>
        rw [List.nil_append] at hb
        exact absurd (Nat.le_of_eq hc.1) (hnot b (by simp [← hb]))
      | cons d ds =>
        obtain ⟨rfl, -⟩ : b = d ∧ back = ds ++ outer := by simpa using hb
        exact .inl ⟨front, a, mid, b, ds, hi, hc, hm, hr⟩
    · cases ds with
      | nil => exact absurd (Nat.le_of_eq hc.1) (hnot b (by simp [hb]))
      | cons d ds =>
        exact absurd (Nat.le_of_lt (hm d (by simp))) (hnot d (by simp [hb]))

/-- A clash is noticed behind an operator, within its right operand, or behind that. -/
theorem noticed_cons_iff : Noticed (l :: (inner ++ outer)) ↔
    (∃ x ∈ inner.head?, l.Clashes x) ∨ Noticed inner ∨
      (∃ x ∈ outer.head?, l.Clashes x) ∨ Noticed outer := by
  constructor
  · rintro ⟨front, a, mid, b, back, happ, hc, hm, hr⟩
    cases front with
    | cons x front =>
      obtain ⟨rfl, hrest⟩ : l = x ∧ inner ++ outer = front ++ a :: (mid ++ b :: back) := by
        simpa using happ
      exact .inr ((noticed_split hin hout hrest hc hm hr).imp_right .inr)
    | nil =>
      obtain ⟨rfl, hrest⟩ : l = a ∧ inner ++ outer = mid ++ b :: back := by simpa using happ
      rcases List.append_eq_append_iff.1 hrest with ⟨as, rfl, ho⟩ | ⟨cs, hi, ho⟩
      · cases as with
        | nil => exact .inr (.inr (.inl ⟨b, by simp [ho], hc⟩))
        | cons h as =>
          have hlt := Link.absorbs_eq_false_iff.1 (hout h (by simp [ho]))
          have hgt := hm h (by simp)
          omega
      · cases cs with
        | nil =>
          rw [List.nil_append] at ho
          exact .inr (.inr (.inl ⟨b, by simp [← ho], hc⟩))
        | cons c cs =>
          obtain ⟨rfl, -⟩ : b = c ∧ back = cs ++ outer := by simpa using ho
          have hright : l.operator.grouping = .right := by
            rcases Link.absorbs_iff.1 (hin b (by simp [hi])) with hlt | ⟨-, hright⟩
            · exact absurd hc.1 (by omega)
            · exact hright
          obtain rfl := hr hright
          exact .inl ⟨b, by simp [hi], hc⟩
  · rintro (⟨x, hx, hc⟩ | ⟨front, a, mid, b, back, happ, hc, hm, hr⟩ | ⟨x, hx, hc⟩ |
      ⟨front, a, mid, b, back, happ, hc, hm, hr⟩)
    · obtain ⟨more, rfl⟩ := List.head?_eq_some_iff.1 hx
      exact ⟨[], l, [], x, more ++ outer, by simp, hc, by simp, fun _ => rfl⟩
    · exact ⟨l :: front, a, mid, b, back ++ outer, by simp [happ], hc, hm, hr⟩
    · obtain ⟨more, rfl⟩ := List.head?_eq_some_iff.1 hx
      have hleft : l.operator.grouping ≠ .right := by
        rcases Link.absorbs_eq_false_iff.1 (hout x hx) with hlt | ⟨-, hleft⟩
        · exact absurd hc.1 (by omega)
        · exact hleft
      refine ⟨[], l, inner, x, more, by simp, hc, fun y hy => ?_, fun hr => absurd hr hleft⟩
      rcases Link.absorbs_iff.1 (hin y hy) with hlt | ⟨-, hr⟩
      · exact hlt
      · exact absurd hr hleft
    · exact ⟨l :: (inner ++ front), a, mid, b, back, by simp [happ], hc, hm, hr⟩

end

theorem Splits.not_noticed {links front back : List Link} {l : Link}
    (h : Splits links front l back) (hf : ¬ Noticed front) (hb : ¬ Noticed back) :
    ¬ Noticed links := by
  rintro ⟨front', a, mid, b, back', happ, hc, hm, hr⟩
  rw [h.append] at happ
  have hloose : l.precedence ≤ a.precedence := h.loosest a (by simp [h.append, happ])
  rcases List.append_eq_append_iff.1 happ with ⟨as, rfl, ho⟩ | ⟨cs, rfl, ho⟩
  · cases as with
    | nil =>
      obtain ⟨rfl, hmid⟩ : l = a ∧ back = mid ++ b :: back' := by simpa using ho
      exact hc.2 (h.agrees_back b (by simp [hmid]) hc.1.symm)
    | cons x as =>
      obtain ⟨-, hmid⟩ : l = x ∧ back = as ++ a :: (mid ++ b :: back') := by simpa using ho
      exact hb ⟨as, a, mid, b, back', hmid, hc, hm, hr⟩
  · cases cs with
    | nil =>
      obtain ⟨rfl, hmid⟩ : a = l ∧ mid ++ b :: back' = back := by simpa using ho
      exact hc.2 (h.agrees_back b (by simp [← hmid]) hc.1.symm)
    | cons c cs =>
      obtain ⟨rfl, hmid⟩ : a = c ∧ mid ++ b :: back' = cs ++ l :: back := by simpa using ho
      have hfront : a.precedence = l.precedence → a.Agrees l := h.agrees_front a (by simp)
      rcases List.append_eq_append_iff.1 hmid with ⟨ds, rfl, hd⟩ | ⟨ds, rfl, hd⟩
      · cases ds with
        | nil =>
          obtain ⟨rfl, -⟩ : b = l ∧ back' = back := by simpa using hd
          exact hc.2 (hfront hc.1)
        | cons d ds =>
          obtain ⟨rfl, -⟩ : b = d ∧ back' = ds ++ l :: back := by simpa using hd
          exact hf ⟨front', a, mid, b, ds, rfl, hc, hm, hr⟩
      · cases ds with
        | nil =>
          obtain ⟨rfl, -⟩ : l = b ∧ back = back' := by simpa using hd
          exact hc.2 (hfront hc.1)
        | cons d ds =>
          obtain ⟨rfl, -⟩ : l = d ∧ back = ds ++ b :: back' := by simpa using hd
          exact absurd (hm l (by simp)) (Nat.not_lt.2 hloose)

theorem not_absorbs_of_mem_head (l : Link) (rest : List Link) :
    ∀ x ∈ (rest.dropWhile l.absorbs).head?, l.absorbs x = false := by
  intro x hx
  have h := List.head?_dropWhile_not l.absorbs rest
  rw [Option.mem_def.1 hx] at h
  exact h

theorem noticed_cons_takeWhile_iff (l : Link) (rest : List Link) : Noticed (l :: rest) ↔
    (∃ x ∈ (rest.takeWhile l.absorbs).head?, l.Clashes x) ∨ Noticed (rest.takeWhile l.absorbs) ∨
      (∃ x ∈ (rest.dropWhile l.absorbs).head?, l.Clashes x) ∨
        Noticed (rest.dropWhile l.absorbs) := by
  rw [← noticed_cons_iff (fun x hx => List.mem_takeWhile_imp hx) (not_absorbs_of_mem_head l rest),
    List.takeWhile_append_dropWhile]

instance decidableNoticed : (links : List Link) → Decidable (Noticed links)
  | [] => .isFalse fun ⟨_, _, _, _, _, happ, _⟩ => by simp at happ
  | l :: rest =>
    have := decidableNoticed (rest.takeWhile l.absorbs)
    have := decidableNoticed (rest.dropWhile l.absorbs)
    decidable_of_iff _ (noticed_cons_takeWhile_iff l rest).symm
termination_by links => links.length
decreasing_by
  · have hle := (List.takeWhile_sublist l.absorbs (l := rest)).length_le
    simp only [List.length_cons]
    omega
  · have hle := (List.dropWhile_sublist l.absorbs (l := rest)).length_le
    simp only [List.length_cons]
    omega

/-- Where the reference has a tree, reading builds it and finds no clash. -/
theorem eq_grouped_of_reference? {first : String} {links : List Link} {t : OperatorTree}
    (h : reference? first links = some t) : t = grouped (.leaf first) links ∧ ¬ Noticed links := by
  induction hn : links.length using Nat.strongRecOn generalizing first links t with
  | ind n ih =>
    rw [reference?] at h
    split_ifs at h with hnil
    · obtain rfl := Option.some.inj h
      subst hnil
      refine ⟨(grouped_nil _).symm, ?_⟩
      rintro ⟨front, l, mid, b, back, happ, -⟩
      simp at happ
    · split at h
      · exact absurd h (by simp)
      · next front l back hs =>
        obtain ⟨left, hl, right, hr, rfl⟩ : ∃ left, reference? first front = some left ∧
            ∃ right, reference? l.operand back = some right ∧
              .between l.name l.operator left right = t := by
          simpa [Option.bind_eq_some_iff] using h
        have hsplit := splits_of_split? hs
        have hlen := congrArg List.length hsplit.append
        rw [List.length_append, List.length_cons] at hlen
        obtain ⟨rfl, hnl⟩ := ih front.length (by omega) hl rfl
        obtain ⟨rfl, hnr⟩ := ih back.length (by omega) hr rfl
        refine ⟨?_, hsplit.not_noticed hnl hnr⟩
        rw [hsplit.append, grouped_append hsplit.not_absorbed hsplit.absorbed]

end Chain

end Clausal
