import Clausal.Proofs.TermContents

/-!
# What is built from the tokens of a term

A reader of terms takes a row of tokens and builds a tree from it, which has as many anonymous variables as
the row. Above the level of applications a term is one atomic term, and no operator is taken; where no
name binds, a name in front of a backslash is a term as well.
-/
namespace Clausal

/-- Tokens of these kinds have been read. -/
structure ParseState.Takes (s : ParseState) (C : List TokenKind) (s' : ParseState) : Prop where
  kinds : ∀ i k, C[i]? = some k → (s.ahead.get i).kind? = some k
  ahead : s'.ahead = s.ahead.drop C.length

namespace Grammar

open Parse Precedence

variable {u : Scan} {kinds C X Y : List TokenKind} {v w : Vocabulary} {s s' : ParseState}
variable {n limit : Nat} {strict : Bool} {earlier : Option (Nat × Grouping)} {t : Term}

theorem Facing.here (hv : s.vocabulary.WellFormed) (kinds : List TokenKind) :
    Facing s.ahead kinds s.vocabulary s s.vocabulary kinds :=
  ⟨rfl, hv, .refl _, 0, Nat.zero_le _, rfl, fun _ hi => absurd hi (Nat.not_lt_zero _), rfl,
    fun _ _ hk => absurd hk (Nat.succ_ne_zero _).symm⟩

theorem Facing.takes (hu : s.ahead.Offers (C ++ Y)) (h : Facing s.ahead (C ++ Y) v s' w Y) :
    s.Takes C s' := by
  obtain ⟨k, hk, hahead, htokens, hY, -⟩ := h.ahead
  obtain rfl : k = C.length := by
    have hlength := congrArg List.length hY
    rw [List.length_append] at hk
    rw [List.length_drop, List.length_append] at hlength
    omega
  refine ⟨fun i kind hi => ?_, hahead⟩
  obtain ⟨hlt, hkind⟩ := List.getElem?_eq_some_iff.1 hi
  obtain ⟨t, ht⟩ := htokens i hlt
  have hoffered := hu i t (fun j hj => htokens j (Nat.lt_trans hj hlt)) ht
  rw [List.headD_eq_head?_getD, List.head?_drop, List.getElem?_append_left hlt, hi] at hoffered
  rw [ht]
  exact congrArg some hoffered

/-- From a row of tokens a tree has been built with the anonymous variables of the row. -/
def HasBuilt (u : Scan) (kinds : List TokenKind) (v w : Vocabulary) (X : List TokenKind) (t : Term)
    (s' : ParseState) : Prop :=
  ∃ (a : SyntaxTree) (C Y : List TokenKind), X = C ++ Y ∧
    Grammar.anonymousCount v C = a.anonymousCount ∧ SameParts t (a.build w).1 ∧
    Facing u kinds v s' (a.build w).2 Y

theorem HasRead.hasBuilt {part : Part} (h : HasRead u kinds v part w X t s')
    (hpart : part.anonymousCount = 0) : HasBuilt u kinds v w X t s' := by
  obtain ⟨a, Y, ha, hsame, hs⟩ := h
  obtain ⟨C, m, rfl, hC, hm⟩ := ha.exists_hasAnonymous
  rw [hpart, Nat.zero_add] at hm
  exact ⟨a, C, Y, rfl, hC.count.trans hm, hsame, hs⟩

variable (hu : u.Offers kinds)
include hu

/-- An atomic term, also where a name is a term in front of a backslash. -/
theorem atomic_eq_ok (hs : Facing u kinds v s w X)
    (hrun : Parse.atomic n limit s = (.ok t, s')) : HasBuilt u kinds v w X t s' := by
  by_cases hb : limit ≤ binder
  · exact ((readsDerived hu n).atomic hb hs hrun).hasBuilt rfl
  cases n with
  | zero => cases hrun
  | succ n =>
    have hread : Parse.atomic (n + 1) binder s = (.ok t, s') → HasBuilt u kinds v w X t s' :=
      fun h => ((readsDerived hu (n + 1)).atomic (Nat.le_refl _) hs h).hasBuilt rfl
    rw [Parse.atomic] at hrun hread
    obtain ⟨token, s₁, htoken, hrun⟩ := bind_eq_ok hrun
    rw [Pairing.bind_of_ok htoken] at hread
    obtain ⟨hk, hs₁⟩ := hs.next_eq_ok hu htoken
    cases hkind : token.kind with
    | ident name =>
      obtain ⟨Y, rfl⟩ := eq_cons_of_headD (hk.symm.trans hkind) (by simp)
      rw [hkind] at hrun
      obtain ⟨binds, s₂, hbinds, hrun⟩ := bind_eq_ok hrun
      rw [bindsAt, if_neg hb] at hbinds
      obtain ⟨rfl, rfl⟩ := eq_ok_of_pure hbinds
      obtain ⟨ha, hsame, hs'⟩ := (hs₁ rfl).name_eq_ok hrun
      exact ⟨_, [.ident name], Y, rfl, ha.anonymousCount, hsame, hs'⟩
    | _ =>
      rw [hkind] at hrun hread
      exact hread hrun

section

variable (hl : application < limit)
include hl

theorem operand_eq_ok (hs : Facing u kinds v s w X)
    (hrun : operand (n + 1) limit s = (.ok t, s')) : HasBuilt u kinds v w X t s' := by
  rw [operand] at hrun
  obtain ⟨first, s₁, hfirst, hrun⟩ := bind_eq_ok hrun
  obtain ⟨rfl, hk⟩ := hs.peek_eq_ok hu hfirst
  obtain ⟨found, s₂, hfound, hrun⟩ := bind_eq_ok hrun
  rw [hk] at hfound
  obtain ⟨rfl, rfl⟩ := hs.prefixAt?_eq_ok hu hfound
  cases hahead : prefixAhead? v X with
  | some e =>
    -- No operator is tight enough.
    have hprecedence := hs.precedence_le (operatorAt?_of_operatorBefore? hahead)
    rw [hahead] at hrun
    dsimp only at hrun
    rw [if_pos (Nat.lt_of_le_of_lt hprecedence hl)] at hrun
    cases hrun
  | none =>
    rw [hahead] at hrun
    obtain ⟨head, s₃, hhead, hrun⟩ := bind_eq_ok hrun
    rw [if_pos hl] at hrun
    obtain ⟨rfl, rfl⟩ := eq_ok_of_pure hrun
    exact atomic_eq_ok hu hs hhead

theorem climb_eq_ok {first : Term} (hs : Facing u kinds v s w X)
    (hrun : climb (n + 1) limit strict earlier first s = (.ok t, s')) : t = first ∧ s = s' := by
  rw [climb] at hrun
  obtain ⟨following, s₁, hfollowing, hrun⟩ := bind_eq_ok hrun
  obtain ⟨rfl, hk⟩ := hs.peek_eq_ok hu hfollowing
  obtain ⟨found, s₂, hfound, hrun⟩ := bind_eq_ok hrun
  rw [hk] at hfound
  obtain ⟨rfl, rfl⟩ := hs.operatorAfter?_eq_ok hu hfound
  cases hahead : operatorAhead? v X with
  | none =>
    rw [hahead] at hrun
    exact eq_ok_of_pure hrun
  | some e =>
    obtain ⟨p, hp⟩ := operatorAt?_of_operatorBehind? hahead
    have hprecedence := hs.precedence_le hp
    rw [hahead] at hrun
    dsimp only at hrun
    rw [if_pos (.inl (Nat.lt_of_le_of_lt hprecedence hl))] at hrun
    exact eq_ok_of_pure hrun

end

/-- At whatever level, an expression is built from the tokens that it takes. -/
theorem expressionAt_hasBuilt (hs : Facing u kinds v s w X)
    (hrun : expressionAt limit strict s = (.ok t, s')) : HasBuilt u kinds v w X t s' := by
  by_cases hl : limit ≤ application
  · exact (expressionAt_eq_ok hu hl hs hrun).hasBuilt rfl
  replace hl := Nat.lt_of_not_le hl
  obtain ⟨first, s₁, hfirst, hrun⟩ := bind_eq_ok hrun
  obtain ⟨a, C, Y, hX, hcount, hsame, hs₁⟩ := operand_eq_ok hu hl hs hfirst
  obtain ⟨rfl, rfl⟩ := climb_eq_ok hu hl hs₁ hrun
  exact ⟨a, C, Y, hX, hcount, hsame, hs₁⟩

end Grammar

/-- A term that is read brings in what it contains, and as many anonymous variables as its tokens show. -/
theorem gains_of_expressionAt {s s' : ParseState} {limit : Nat} {strict : Bool} {t : Term}
    (hv : s.vocabulary.WellFormed) (hends : s.ahead.Ends)
    (hrun : Parse.expressionAt limit strict s = (.ok t, s')) :
    ∃ C, s.Takes C s' ∧ s.vocabulary.Gains t (Grammar.anonymousCount s.vocabulary C) s'.vocabulary := by
  have hoffers := Scan.offers_filterMap hends s.ahead.items
  obtain ⟨a, C, Y, hX, hcount, hsame, hs'⟩ :=
    Grammar.expressionAt_hasBuilt hoffers (Grammar.Facing.here hv _) hrun
  rw [hX] at hoffers hs'
  refine ⟨C, hs'.takes hoffers, ?_⟩
  rw [hcount, hs'.vocabulary]
  exact (a.build_gains s.vocabulary).of_sameParts hsame

end Clausal
