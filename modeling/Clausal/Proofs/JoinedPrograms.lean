import Clausal.Proofs.DeclarationRows

/-!
# Programs in a row

A text that is read without fault and another one behind it, with a line break between them, are read
as the one and then the other, from the vocabulary and with the texts seen that the first leaves
behind.
-/
namespace Clausal

/-- The same error or the same value, but for where things stand. -/
abbrev SameOutcomeParts {α : Type} [Labeled α] (x y : Except ParseError α) : Prop :=
  ExceptRel SameParts SameParts x y

/-- The first text has been read, and all goes on as the second text is read by itself. -/
structure GoesOn (first : List Decl) (joined second : Except ParseError (List Decl) × ParseState) :
    Prop where
  result : ∃ rest, joined.1 = rest.map (first ++ ·) ∧ SameOutcomeParts rest second.1
  vocabulary : joined.2.vocabulary = second.2.vocabulary
  seen : joined.2.seen = second.2.seen

namespace Parse

variable {loader : Loader} {s s₁ s' : ParseState} {ds : List Decl}

theorem Row.steady (h : Row loader s ds s') (hs : Steady s) : Steady s' := by
  induction h with
  | nil _ => exact hs
  | cons _ _ first _ ih => exact ih (hs.declaration first).1

namespace Pairing

variable {P : Pairing} {A : P.comparison.Account}

theorem keeps_contents (h : P.Includes A loader) {W : World} (hW : P.admits W) :
    P.Keeps W (A.decls W) (contents loader) (contents loader) :=
  have hagain : ∀ {W} {p q : Parse (List Decl)}, A.Declares .behind W p q →
      A.Declares .within W p q := fun h => h
  Comparison.Account.declares_declarations (includes_program h) hagain hW

/-- One vocabulary and the same texts seen, wherever the two texts stand. -/
def anywhere : Pairing := same Anywhere (fun _ => trivial) (fun _ _ => trivial) (fun _ _ _ => trivial)

/-- A unit that is kept by name is found wherever the name is written. -/
theorem loads_store (store : UnitStore) : P.Loads store.loader := by
  intro W a b name hab
  simp only [UnitStore.loader]
  cases store.find? name with
  | some source => exact rfl
  | none => exact fun r r' hj => congrArg (ParseError.load · name .noSuchUnit) (hj.span hab)

theorem includes_anywhere (store : UnitStore) :
    anywhere.Includes anywhere.comparison.alikeAccount store.loader :=
  ⟨marks_same, loads_store store, passes_alike, enters_alike _⟩

theorem joins_unlocated {W : World} {spans : Span → Span → Prop} (hv : W.left.vocabulary.Reachable)
    (h : W.left.vocabulary = W.right.vocabulary) :
    (W.matching spans).Joins .unlocated .unlocated where
  symbol {s t} hs := by
    have hst : W.left.vocabulary.SameName W.right.vocabulary s t := hs
    rw [← h] at hst
    exact hv.wellFormed.eq_of_sameName hst
  span _ := rfl

end Pairing

open Pairing

/-- It does not matter if the item that repeats is listed once more. -/
theorem contents_relists (loader : Loader) {x y : Scan} (h : Scan.Relists x y)
    (hlast : ∀ kind, x.last.kind? = some kind → kind = .endOfInput) (s : ParseState) :
    (contents loader { s with ahead := y }).1 = (contents loader { s with ahead := x }).1 ∧
      (contents loader { s with ahead := y }).2.moment =
        (contents loader { s with ahead := x }).2.moment := by
  rcases h with rfl | ⟨hitems, rfl⟩
  · exact ⟨rfl, rfl⟩
  obtain ⟨items, last⟩ := x
  obtain rfl : items = [] := hitems
  cases last with
  | token t =>
    have ht : (Item.token t).kind? = some .endOfInput := congrArg some (hlast t.kind rfl)
    rw [contents_of_end (s := { s with ahead := ⟨[.token t], .token t⟩ }) ht,
      contents_of_end (s := { s with ahead := ⟨[], .token t⟩ }) ht]
    exact ⟨rfl, rfl⟩
  | fault e =>
    have hpeek : ∀ items, (items = [] ∨ items = [Item.fault e]) →
        peek { s with ahead := ⟨items, .fault e⟩ } =
          (.error (.grammar e.span (.scan e.fault)), { s with ahead := ⟨[], .fault e⟩ }) := by
      rintro items (rfl | rfl) <;> rfl
    rw [contents_eq_rounds, contents_eq_rounds, rounds_of_error (hpeek _ (.inr rfl)),
      rounds_of_error (hpeek _ (.inl rfl))]
    exact ⟨rfl, rfl⟩

/-- What the second text is read from: the items that follow the first. -/
theorem contents_anywhere (store : UnitStore) (s s' : ParseState) {z w : Scan} (hz : z.Matches Anywhere w)
    (hs : s.vocabulary.Reachable) (hm : s.moment = s'.moment) :
    SameOutcomeParts (contents store.loader { s with ahead := z }).1
        (contents store.loader { s' with ahead := w }).1 ∧
      (contents store.loader { s with ahead := z }).2.moment =
        (contents store.loader { s' with ahead := w }).2.moment := by
  have hstep : anywhere.InStep ⟨s.moment, s'.moment⟩ { s with ahead := z } { s' with ahead := w } :=
    ⟨rfl, rfl, hz, trivial⟩
  have hkeep := keeps_contents (includes_anywhere store) (W := ⟨s.moment, s'.moment⟩) ⟨hm, hs⟩
  obtain ⟨W, -, hW, he⟩ := (hkeep.together _ _ hstep).resolve_left id
  have hj : (W.matching Anywhere).Joins .unlocated .unlocated :=
    joins_unlocated hW.2 (congrArg Moment.vocabulary hW.1)
  rcases hp : contents store.loader { s with ahead := z } with ⟨e | es, s₁⟩ <;>
    rcases hq : contents store.loader { s' with ahead := w } with ⟨e' | es', s₁'⟩ <;> rw [hp, hq] at he
  · exact ⟨he.1 _ _ hj, he.2.1.trans (hW.1.trans he.2.2.symm)⟩
  · exact he.elim
  · exact he.elim
  · exact ⟨he.1 _ _ hj, he.2.left.trans (hW.1.trans he.2.right.symm)⟩

/-- What is read from a text behind another one. -/
theorem program_joined (store : UnitStore) {v : Vocabulary} (hv : v.Reachable) (seen : List Digest)
    (source source' a b : String) {first : List Decl}
    (h : program store.loader (.initial v seen source a) = (.ok first, s₁)) :
    s₁.vocabulary.Reachable ∧
      GoesOn first (program store.loader (.initial v seen source (a ++ "\n" ++ b)))
        (program store.loader (.initial s₁.vocabulary s₁.seen source' b)) := by
  have hsteady := steady_initial hv seen source a
  obtain ⟨hresult, hmoment⟩ := contents_ends_eq store.loader hsteady.reachable
  rw [h] at hresult hmoment
  rcases hc : contents store.loader (.initial v seen source a) with ⟨_ | ds, s⟩
  · rw [hc] at hresult
    cases hresult
  rw [hc] at hresult hmoment
  obtain rfl := Except.ok.inj hresult
  have hrow := row_of_contents hsteady hc
  have hv₁ : s.vocabulary.Reachable := (hrow.steady hsteady).reachable
  have hv₂ : s₁.vocabulary.Reachable :=
    (show s.vocabulary = s₁.vocabulary from congrArg Moment.vocabulary hmoment) ▸ hv₁
  refine ⟨hv₂, ?_⟩
  obtain ⟨tokens, z, w, hlead, hrelist, hmatch⟩ :=
    Scan.ofText_newline source source' a b (hrow.complete hsteady)
  have hz : ∀ kind, z.last.kind? = some kind → kind = .endOfInput := by
    have hlast : z.last = (Scan.ofText source (a ++ "\n" ++ b)).last := by rw [hlead.joined]
    rw [hlast]
    exact fun _ => (Cursor.initial source (a ++ "\n" ++ b)).last_scan
  have hjoined := hrow.contents_leads hsteady hz hlead
  let t : ParseState := .initial s₁.vocabulary s₁.seen source' b
  obtain ⟨hsame, hsameMoment⟩ := contents_anywhere store s t hmatch hv₁ hmoment
  obtain ⟨hagain, hagainMoment⟩ := contents_relists store.loader hrelist
    (fun _ => (Cursor.initial source' b).last_scan) t
  obtain ⟨hleft, hleftMoment⟩ := contents_ends_eq store.loader
    (s := .initial v seen source (a ++ "\n" ++ b)) hv
  obtain ⟨hright, hrightMoment⟩ := contents_ends_eq store.loader (s := t) hv₂
  have hmoments : (program store.loader (.initial v seen source (a ++ "\n" ++ b))).2.moment =
      (program store.loader t).2.moment := by
    rw [← hleftMoment, ← hrightMoment]
    refine Eq.trans ?_ (hsameMoment.trans hagainMoment)
    exact congrArg (fun r => r.2.moment) hjoined
  refine ⟨?_, congrArg Moment.vocabulary hmoments, congrArg Moment.seen hmoments⟩
  rw [hagain] at hsame
  rw [← hleft, ← hright]
  exact ⟨_, congrArg Prod.fst hjoined, hsame⟩

end Parse

open Parse in
/-- A text is read in one pass, declaration by declaration. If the first of two texts is read
without fault, then the two with a line break between them are read as the first, and then the second
from the vocabulary and with the texts seen that the first leaves behind. So an operator that the
first declares acts on all of the second, and nothing in the second acts on the first. -/
theorem parse_inTurn (store : UnitStore) {v : Vocabulary} (hv : v.Reachable) (seen : List Digest)
    (source source' a b : String) {first : List Decl} {s : ParseState}
    (h : (program store.loader).run (.initial v seen source a) = (.ok first, s)) :
    GoesOn first ((program store.loader).run (.initial v seen source (a ++ "\n" ++ b)))
      ((program store.loader).run (.initial s.vocabulary s.seen source' b)) :=
  (program_joined store hv seen source source' a b h).2

open Parse in
/-- An operator is declared in the first text and used in the second. -/
theorem parse_declaredThenUsed :
    ∃ first s, (program UnitStore.empty.loader).run (.initial .initial [] "main" "infix is 50.") =
        (.ok first, s) ∧
      GoesOn first
        ((program UnitStore.empty.loader).run
          (.initial .initial [] "main" ("infix is 50." ++ "\n" ++ "p is q.")))
        ((program UnitStore.empty.loader).run (.initial s.vocabulary s.seen "more" "p is q.")) ∧
      ((program UnitStore.empty.loader).run
        (.initial s.vocabulary s.seen "more" "p is q.")).1.isOk = true := by
  have hok : ∀ r, (program UnitStore.empty.loader).run (.initial .initial [] "main" "infix is 50.") = r →
      r.1.isOk = true ∧ ((program UnitStore.empty.loader).run
        (.initial r.2.vocabulary r.2.seen "more" "p is q.")).1.isOk = true := by
    rintro _ rfl
    decide +kernel
  rcases hr : (program UnitStore.empty.loader).run (.initial .initial [] "main" "infix is 50.") with
    ⟨_ | first, s⟩
  · exact Bool.noConfusion (hok _ hr).1
  · exact ⟨first, s, rfl, parse_inTurn .empty .initial [] "main" "more" "infix is 50." "p is q." hr,
      (hok _ hr).2⟩

end Clausal
