import Clausal.Proofs.EqualTerms

/-!
# The order of literals

Every type orders its values, with those that have no payload of the type in front. Two literals are equal
just when they are of one type whose order does not tell them apart: to share a payload is never more than a
short cut to that. So equality of terms is an equivalence.
-/
namespace Clausal

namespace Literal

section

variable {α β : Type} (cmp : α → α → Ordering) [Std.TransCmp cmp]

/-- Values are ordered by what they are mapped to. -/
theorem transCmp_on (f : β → α) : Std.TransCmp fun x y => cmp (f x) (f y) where
  eq_swap := Std.OrientedCmp.eq_swap
  isLE_trans := Std.TransCmp.isLE_trans

instance transCmp_comparePayload : Std.TransCmp (comparePayload cmp) where
  eq_swap {a b} := by
    cases a <;> cases b <;> simp only [comparePayload, Ordering.swap_eq, Ordering.swap_lt, Ordering.swap_gt]
    exact Std.OrientedCmp.eq_swap
  isLE_trans {a b c} hab hbc := by
    cases a <;> cases b <;> cases c <;> simp only [comparePayload, Ordering.isLE] at hab hbc ⊢
    all_goals first | contradiction | exact Std.TransCmp.isLE_trans hab hbc

end

instance : Std.TransCmp compareSpans :=
  inferInstanceAs (Std.TransCmp (compareLex (compareOn Span.source)
    (compareLex (compareOn Span.start) (compareOn Span.stop))))

/-- A literal without the mark that the pool holds its payload. -/
def unpooled : Literal → Literal
  | string text _ => string text false
  | a => a

end Literal

section

variable [Extensions]

namespace Literal

instance transCmp_compareAs (t : LiteralType) : Std.TransCmp (compareAs t) := by
  cases t with
  | int => exact transCmp_on (comparePayload (compareOn Int64.toInt)) int?
  | float => exact transCmp_on (comparePayload (compareOn Binary64.rank)) float?
  | string => exact transCmp_on (comparePayload compare) string?
  | span => exact transCmp_on (comparePayload compareSpans) span?
  | extension t =>
    have := Extensions.lawful t
    exact transCmp_on (comparePayload (Extensions.compare t)) (payload? t)

theorem compareAs_swap (t : LiteralType) (a b : Literal) :
    compareAs t a b = (compareAs t b a).swap :=
  Std.OrientedCmp.eq_swap

/-- A value without a payload is in front of every value of its type that has one. -/
theorem compareAs_malformed {t : LiteralType} {a : Literal} (ht : a.type = t) (ha : a ≠ .malformed t) :
    compareAs t (.malformed t) a = .lt := by
  subst ht
  cases a <;> simp_all [compareAs, type, comparePayload, int?, float?, string?, span?, payload?]

theorem compareAs_unpooled (t : LiteralType) (a b : Literal) :
    compareAs t a.unpooled b.unpooled = compareAs t a b := by
  cases t <;> cases a <;> cases b <;> rfl

/-- Equality, if these are the values that share a payload. -/
def sameSharing (shared : Literal → Literal → Bool) (a b : Literal) : Bool :=
  a.type = b.type && ((a.type.isPooled && shared a b) || compareAs a.type a b == .eq)

theorem same_eq_sameSharing (a b : Literal) : a.same b = a.sameSharing shares b := rfl

/-- Values that share a payload compare equal, so it makes no difference to look at that first. -/
theorem sameSharing_iff {shared : Literal → Literal → Bool}
    (h : ∀ a b, a.type = b.type → shared a b = true → a.unpooled = b.unpooled) (a b : Literal) :
    a.sameSharing shared b = true ↔ a.type = b.type ∧ compareAs a.type a b = .eq := by
  simp only [sameSharing, Bool.and_eq_true, Bool.or_eq_true, decide_eq_true_eq, beq_iff_eq]
  refine and_congr_right fun htype => or_iff_right_of_imp fun hshared => ?_
  rw [← compareAs_unpooled, h a b htype hshared.2]
  exact Std.ReflCmp.compare_self

theorem same_iff {a b : Literal} :
    a.same b = true ↔ a.type = b.type ∧ compareAs a.type a b = .eq := by
  rw [same_eq_sameSharing, sameSharing_iff]
  exact fun a b _ h => congrArg unpooled (eq_of_shares h)

theorem same_equivalence : Equivalence fun a b : Literal => a.same b = true where
  refl a := same_iff.2 ⟨rfl, Std.ReflCmp.compare_self⟩
  symm {a b} h := by
    obtain ⟨htype, heq⟩ := same_iff.1 h
    refine same_iff.2 ⟨htype.symm, ?_⟩
    rw [compareAs_swap, ← htype, heq]
    rfl
  trans {a b c} hab hbc := by
    obtain ⟨htype, heq⟩ := same_iff.1 hab
    obtain ⟨htype', heq'⟩ := same_iff.1 hbc
    rw [← htype] at heq'
    exact same_iff.2 ⟨htype.trans htype', Std.TransCmp.eq_trans heq heq'⟩

end Literal

namespace Term

mutual

theorem same_refl (t : Term) : t.same t = true := by
  match t with
  | const s => exact decide_eq_true rfl
  | app head args => exact Bool.and_eq_true_iff.2 ⟨same_refl head, sameList_refl args⟩
  | lam x body => exact Bool.and_eq_true_iff.2 ⟨decide_eq_true rfl, same_refl body⟩
  | literal a => exact Literal.same_equivalence.refl a
  | quoted q => exact decide_eq_true rfl

theorem sameList_refl (ts : List Term) : sameList ts ts = true := by
  match ts with
  | [] => rfl
  | t :: ts => exact Bool.and_eq_true_iff.2 ⟨same_refl t, sameList_refl ts⟩

end

mutual

theorem same_symm {a b : Term} (h : a.same b = true) : b.same a = true := by
  match a, b, h with
  | const _, const _, h => exact decide_eq_true (of_decide_eq_true h).symm
  | app _ _, app _ _, h =>
    obtain ⟨hhead, hargs⟩ := Bool.and_eq_true_iff.1 h
    exact Bool.and_eq_true_iff.2 ⟨same_symm hhead, sameList_symm hargs⟩
  | lam _ _, lam _ _, h =>
    obtain ⟨hbinder, hbody⟩ := Bool.and_eq_true_iff.1 h
    exact Bool.and_eq_true_iff.2 ⟨decide_eq_true (of_decide_eq_true hbinder).symm, same_symm hbody⟩
  | literal _, literal _, h => exact Literal.same_equivalence.symm h
  | quoted _, quoted _, h => exact decide_eq_true (of_decide_eq_true h).symm

theorem sameList_symm {as bs : List Term} (h : sameList as bs = true) : sameList bs as = true := by
  match as, bs, h with
  | [], [], _ => rfl
  | _ :: _, _ :: _, h =>
    obtain ⟨hfirst, hrest⟩ := Bool.and_eq_true_iff.1 h
    exact Bool.and_eq_true_iff.2 ⟨same_symm hfirst, sameList_symm hrest⟩

end

mutual

theorem same_trans {a b c : Term} (h : a.same b = true) (g : b.same c = true) : a.same c = true := by
  match a, b, c, h, g with
  | const _, const _, const _, h, g =>
    exact decide_eq_true ((of_decide_eq_true h).trans (of_decide_eq_true g))
  | app _ _, app _ _, app _ _, h, g =>
    obtain ⟨hhead, hargs⟩ := Bool.and_eq_true_iff.1 h
    obtain ⟨ghead, gargs⟩ := Bool.and_eq_true_iff.1 g
    exact Bool.and_eq_true_iff.2 ⟨same_trans hhead ghead, sameList_trans hargs gargs⟩
  | lam _ _, lam _ _, lam _ _, h, g =>
    obtain ⟨hbinder, hbody⟩ := Bool.and_eq_true_iff.1 h
    obtain ⟨gbinder, gbody⟩ := Bool.and_eq_true_iff.1 g
    refine Bool.and_eq_true_iff.2 ⟨decide_eq_true ?_, same_trans hbody gbody⟩
    exact (of_decide_eq_true hbinder).trans (of_decide_eq_true gbinder)
  | literal _, literal _, literal _, h, g => exact Literal.same_equivalence.trans h g
  | quoted _, quoted _, quoted _, h, g =>
    exact decide_eq_true ((of_decide_eq_true h).trans (of_decide_eq_true g))

theorem sameList_trans {as bs cs : List Term} (h : sameList as bs = true)
    (g : sameList bs cs = true) : sameList as cs = true := by
  match as, bs, cs, h, g with
  | [], [], [], _, _ => rfl
  | _ :: _, _ :: _, _ :: _, h, g =>
    obtain ⟨hfirst, hrest⟩ := Bool.and_eq_true_iff.1 h
    obtain ⟨gfirst, grest⟩ := Bool.and_eq_true_iff.1 g
    exact Bool.and_eq_true_iff.2 ⟨same_trans hfirst gfirst, sameList_trans hrest grest⟩

end

theorem same_equivalence : Equivalence fun a b : Term => a.same b = true :=
  ⟨same_refl, same_symm, same_trans⟩

end Term

/-- The comparison of a type is a total order of its values, up to those that it calls equal, with the
values without a payload in front. It is one for any order of payloads that an extension brings along. Two
literals are equal if they are of one type and compare equal, and whichever values share a payload, to look
at that first changes nothing. So equality of terms is reflexive, symmetric and transitive. -/
theorem literals_ordered :
    (∀ t : LiteralType,
      (∀ a, Literal.compareAs t a a = .eq) ∧
      (∀ a b, (Literal.compareAs t a b).isLE = true → (Literal.compareAs t b a).isLE = true →
        Literal.compareAs t a b = .eq) ∧
      (∀ a b, Literal.compareAs t a b = (Literal.compareAs t b a).swap) ∧
      (∀ a b c, (Literal.compareAs t a b).isLE = true → (Literal.compareAs t b c).isLE = true →
        (Literal.compareAs t a c).isLE = true) ∧
      (∀ a b, (Literal.compareAs t a b).isLE = true ∨ (Literal.compareAs t b a).isLE = true) ∧
      ∀ a : Literal, a.type = t → a ≠ .malformed t → Literal.compareAs t (.malformed t) a = .lt) ∧
    (∀ (α : Type) (cmp : α → α → Ordering), Std.TransCmp cmp →
      Std.TransCmp (Literal.comparePayload cmp) ∧
        ∀ a, Literal.comparePayload cmp none (some a) = .lt) ∧
    (∀ a b : Literal, a.same b = true ↔ a.type = b.type ∧ Literal.compareAs a.type a b = .eq) ∧
    (∀ shared : Literal → Literal → Bool,
      (∀ a b, a.type = b.type → shared a b = true → a.unpooled = b.unpooled) →
        ∀ a b : Literal, a.sameSharing shared b = a.same b) ∧
    Equivalence fun a b : Term => a.same b = true := by
  refine ⟨fun t => ⟨fun a => Std.ReflCmp.compare_self, fun a b => Std.OrientedCmp.isLE_antisymm,
      Literal.compareAs_swap t, fun a b c => Std.TransCmp.isLE_trans, fun a b => ?_,
      fun a => Literal.compareAs_malformed⟩,
    fun α cmp _ => ⟨inferInstance, fun _ => rfl⟩, fun a b => Literal.same_iff,
    fun shared h a b => ?_, Term.same_equivalence⟩
  · rw [Literal.compareAs_swap t b a]
    cases Literal.compareAs t a b <;> simp
  · rw [Bool.eq_iff_iff, Literal.sameSharing_iff h, Literal.same_iff]

end

/-- A zero of that sign. -/
def signedZero (negative : Bool) : Literal := .float (.ofMagnitude negative 0)

section

attribute [local instance] Extensions.byBytes

theorem literals_ordered_zeros :
    Literal.compareAs .float (signedZero true) (signedZero false) = .lt ∧
      Literal.compareAs .float (.malformed .float) (signedZero true) = .lt ∧
      (signedZero true).same (signedZero false) = false ∧
      (signedZero true).sameSharing (fun a b => decide (a = b)) (signedZero false) = false := by
  obtain ⟨horders, -, hsame, hshared, -⟩ := literals_ordered
  have hlt : Literal.compareAs .float (signedZero true) (signedZero false) = .lt := by decide
  have hnot : (signedZero true).same (signedZero false) = false := by
    rw [← Bool.not_eq_true, hsame]
    exact fun h => absurd (hlt.symm.trans h.2) (by decide)
  refine ⟨hlt, (horders .float).2.2.2.2.2 _ rfl (by simp [signedZero]), hnot, ?_⟩
  rw [hshared _ (fun a b _ h => congrArg Literal.unpooled (of_decide_eq_true h)), hnot]

end

end Clausal
