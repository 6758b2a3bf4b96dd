import Clausal.Proofs.PairedPrograms

/-!
# The depth of inclusions does not show

The bound on how deep inclusions nest is never what ends a reading: a text that is read was
not seen before, and only so many texts can be. So the text of a unit is read as any other text is.
-/
namespace Clausal.Parse

namespace Pairing

variable {P : Pairing} {loader : Loader}

/-- Where both runs come to a name at the same place, they ask the loader for the same. -/
theorem loads_of_spans_eq (h : P.spans = Eq) : P.Loads loader := by
  intro W a b name hab
  obtain rfl : a = b := by rwa [h] at hab
  cases loader.load a name with
  | ok source => exact rfl
  | error e => exact fun _ _ hj => e.relabel_congr fun a => hj.span (P.refl a)

theorem passes_alike : Passes P.comparison.alikeAccount loader :=
  fun _ _ _ _ _ => rfl

theorem enters_alike (body : Parse (List Decl)) : Enters P.comparison.alikeAccount loader body := by
  refine ⟨?_⟩
  intro W W' span name source ds ds' s s₁ _ _ _ _ _ hds _ _ _ r r' hj
  have he : relabel r ds = relabel r' ds' := hds r r' hj
  simp only [relabel_cons, relabel_nil, relabel_mk, he]
  rfl

/-- One vocabulary, and the same texts seen. -/
def same (spans : Span → Span → Prop) (refl : ∀ a, spans a a)
    (merge : ∀ {a b c d}, spans a b → spans c d → spans (a.merge c) (b.merge d))
    (strip : ∀ {a b}, spans a b → ∀ front back, spans (a.strip front back) (b.strip front back)) :
    Pairing where
  admits W := W.left = W.right ∧ W.left.vocabulary.Reachable
  spans := spans
  spoiled _ := False
  interchangeable hW := ⟨hW.2, hW.1 ▸ hW.2, fun _ _ => by rw [hW.1], by rw [hW.1]⟩
  admits_add a hW := ⟨by rw [World.add, hW.1], a.reachable_apply hW.2⟩
  refl := refl
  merge := merge
  strip := strip
  spoiled_mono _ h := h

theorem marks_same {spans : Span → Span → Prop} {refl merge strip} :
    (same spans refl merge strip).Marks where
  seen_iff d hW := .inr (by rw [hW.1])
  admits_mark d hW := ⟨by rw [World.mark, hW.1], hW.2⟩

/-- Twice the same run. -/
def diagonal : Pairing :=
  same Eq (fun _ => rfl) (fun h g => by rw [h, g]) (fun h _ _ => by rw [h])

theorem joins_id {W : World} (hW : diagonal.admits W) :
    (W.matching diagonal.spans).Joins .id .id where
  symbol {s t} hs := by
    have hst : W.left.vocabulary.SameName W.right.vocabulary s t := hs
    rw [← hW.1] at hst
    exact hW.2.wellFormed.eq_of_sameName hst
  span h := h

/-- A state beside itself. -/
theorem inStep_diagonal (s : ParseState) : diagonal.InStep ⟨s.moment, s.moment⟩ s s :=
  ⟨rfl, rfl, .refl (fun _ => rfl) _, rfl⟩

/-- Runs that are kept in step on the diagonal end alike. -/
theorem Keeps.ends_eq {α : Type} [Labeled α] [LawfulLabeled α] {p q : Parse α} {s : ParseState}
    (h : diagonal.Keeps ⟨s.moment, s.moment⟩ diagonal.comparison.alike p q) :
    (p s).1 = (q s).1 ∧ (p s).2.moment = (q s).2.moment := by
  rcases h.together s s (inStep_diagonal s) with hspoiled | ⟨W', -, hW', he⟩
  · exact hspoiled.elim
  have hj := joins_id hW'
  rcases hp : p s with ⟨e | a, s₁⟩ <;> rcases hq : q s with ⟨e' | b, s₁'⟩ <;> rw [hp, hq] at he
  · obtain ⟨halike, hleft, hright⟩ := he
    have hee := halike .id .id hj
    rw [e.relabel_of_span fun _ => rfl, e'.relabel_of_span fun _ => rfl] at hee
    exact ⟨congrArg Except.error hee, hleft.trans (hW'.1.trans hright.symm)⟩
  · exact he.elim
  · exact he.elim
  · obtain ⟨halike, hs⟩ := he
    have hab := halike .id .id hj
    rw [relabel_id, relabel_id] at hab
    exact ⟨congrArg Except.ok hab, hs.left.trans (hW'.1.trans hs.right.symm)⟩

end Pairing

open Pairing

variable {loader : Loader} {s : ParseState}

/-- A depth that is enough for the texts that are left is as good as any. -/
theorem unitBody_ends_eq (loader : Loader) (depth : Nat) (hs : s.vocabulary.Reachable)
    (h : loader.unseen s.seen ≤ depth) :
    (unitBody loader depth s).1 = (program loader s).1 ∧
      (unitBody loader depth s).2.moment = (program loader s).2.moment := by
  have hW : (diagonal.atMost loader (loader.unseen s.seen)).admits ⟨s.moment, s.moment⟩ :=
    ⟨⟨rfl, hs⟩, Nat.le_refl _⟩
  have hkeep := keeps_unitBody (P := diagonal) marks_same (loads_of_spans_eq rfl) passes_alike
    (fun {k depth} _ => (enters_alike _).atMost (k + 1)) h (loader.unseen_le s.seen) hW
  have hless : ∀ {W}, (diagonal.atMost loader (loader.unseen s.seen)).admits W → diagonal.admits W :=
    fun hW => hW.1
  exact (hkeep.mono (Q := diagonal) hless rfl rfl).ends_eq

namespace Pairing

/-- What lets an account be kept over a whole program. -/
structure Includes (P : Pairing) (A : P.comparison.Account) (loader : Loader) : Prop where
  marks : P.Marks
  loads : P.Loads loader
  passes : Passes A loader
  enters : Enters A loader (program loader)

variable {P : Pairing} {A : P.comparison.Account}

theorem includes_diagonal (loader : Loader) :
    diagonal.Includes diagonal.comparison.alikeAccount loader :=
  ⟨marks_same, loads_of_spans_eq rfl, passes_alike, enters_alike _⟩

/-- The text of a unit that is read at a depth that is enough is read as a whole program is. -/
theorem Includes.enters_unitBody (h : P.Includes A loader) {k depth : Nat} (hk : k ≤ depth) :
    Enters (accountAtMost A loader (k + 1)) loader (unitBody loader depth) := by
  refine ⟨fun {W W' span name source ds ds' s s₁} hW hl hd hle hW' hds hs hb hs₁ => ?_⟩
  have hv : s.vocabulary.Reachable := by
    rw [show s.vocabulary = W.left.vocabulary from congrArg Moment.vocabulary hs]
    exact (P.interchangeable hW.1).left
  have hseen : s.seen = W.left.seen := congrArg Moment.seen hs
  have hlt : loader.unseen (source.digest :: s.seen) < k + 1 :=
    hseen ▸ Nat.lt_of_lt_of_le (unseen_mark_lt hl hd) hW.2
  obtain ⟨hr, hm⟩ := unitBody_ends_eq loader depth (s := s.entering source) hv
    (Nat.le_trans (Nat.le_of_lt_succ hlt) hk)
  rw [hb] at hr hm
  have hrun : program loader (s.entering source) = (.ok ds, (program loader (s.entering source)).2) :=
    Prod.ext hr.symm rfl
  exact h.enters.units hW.1 hl hd hle hW'.1 hds hs hrun (hm.symm.trans hs₁)

theorem keeps_program (h : P.Includes A loader) {W : World} (hW : P.admits W) :
    P.Keeps W (A.decls W) (program loader) (program loader) := by
  have hall : (P.atMost loader loader.texts.length).admits W := ⟨hW, loader.unseen_le _⟩
  have hkeep := keeps_unitBody h.marks h.loads h.passes h.enters_unitBody (Nat.le_refl _)
    (Nat.le_refl _) hall
  have hless : ∀ {W}, (P.atMost loader loader.texts.length).admits W → P.admits W := fun hW => hW.1
  exact hkeep.mono hless rfl rfl

theorem includes_program (h : P.Includes A loader) :
    A.Includes (includeUnit loader (program loader)) (includeUnit loader (program loader)) :=
  includes_includeUnit h.marks h.loads h.passes h.enters fun hW _ _ =>
    keeps_program h (h.marks.admits_mark _ hW)

theorem declares_includeAll (h : P.Includes A loader) (names : List String) {W : World} :
    A.Declares .within W (includeAll loader names) (includeAll loader names) := by
  induction names generalizing W with
  | nil =>
    exact P.comparison.pure rfl (A.declares (.refl W) (.refl W) ⟨Matching.alike_nil, by simp⟩)
  | cons name rest ih =>
    have hspan : P.spans (Span.initial topLevel) (Span.initial topLevel) := P.refl _
    refine P.comparison.bind (includes_program h name hspan) fun {W₁ u u'} hle hu => ?_
    refine P.comparison.bind ih fun {W₂ ds ds'} hle' hds => P.comparison.pure rfl ?_
    exact A.append hle hle' (A.accumulated hle hu hspan) hds

end Pairing

end Clausal.Parse
