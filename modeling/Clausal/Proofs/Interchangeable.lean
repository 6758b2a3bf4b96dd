import Clausal.Proofs.SharedNames

/-!
# Interchangeable vocabularies

Vocabularies that give every name the same definitions and mint the same variables are
interchangeable: symbols of one name correspond, and terms that match by name are shown, applied and
classified alike.
-/
namespace Clausal

/-- Two results of one kind, values or errors. -/
def ExceptRel {ε ε' α β : Type} (E : ε → ε' → Prop) (R : α → β → Prop) : Except ε α → Except ε' β → Prop
  | .ok a, .ok b => R a b
  | .error e, .error e' => E e e'
  | _, _ => False

namespace Vocabulary

/-- The symbols have one name. -/
def SameName (v w : Vocabulary) (s t : Symbol) : Prop :=
  ∃ name, v.symbols.name? s = some name ∧ w.symbols.name? t = some name

structure Interchangeable (v w : Vocabulary) : Prop where
  left : v.Reachable
  right : w.Reachable
  definition : ∀ name p, v.definition? name p = w.definition? name p
  variableCount : v.symbols.variableCount = w.symbols.variableCount

theorem SameName.mono {v w v' w' : Vocabulary} (hv : v.Extends v') (hw : w.Extends w')
    {s t : Symbol} (h : v.SameName w s t) : v'.SameName w' s t := by
  obtain ⟨name, hs, ht⟩ := h
  exact ⟨name, hv _ _ hs, hw _ _ ht⟩

theorem SameName.name_eq {v w : Vocabulary} {s t : Symbol} (h : v.SameName w s t) :
    v.name s = w.name t := by
  obtain ⟨n, hs, ht⟩ := h
  simp [Vocabulary.name, SymbolTable.name, hs, ht]

/-- With one vocabulary on both sides a symbol corresponds to itself only. -/
theorem WellFormed.eq_of_sameName {v : Vocabulary} (hv : v.WellFormed) {s t : Symbol}
    (h : v.SameName v s t) : s = t := by
  obtain ⟨name, hs, ht⟩ := h
  have hl := hv.symbols.lookup_of_name? hs
  exact Option.some.inj (hl.symm.trans (hv.symbols.lookup_of_name? ht))

namespace Interchangeable

variable {v w : Vocabulary} (h : v.Interchangeable w)
include h

theorem eq_iff {s s' t t' : Symbol} (hs : v.SameName w s t) (hs' : v.SameName w s' t') :
    s = s' ↔ t = t' := by
  obtain ⟨name, hvs, hwt⟩ := hs
  obtain ⟨name', hvs', hwt'⟩ := hs'
  constructor
  · rintro rfl
    obtain rfl := Option.some.inj (hvs.symm.trans hvs')
    exact h.right.wellFormed.eq_of_sameName ⟨name, hwt, hwt'⟩
  · rintro rfl
    obtain rfl := Option.some.inj (hwt.symm.trans hwt')
    exact h.left.wellFormed.eq_of_sameName ⟨name, hvs, hvs'⟩

theorem sameName_wellKnown {n : Nat} (hn : n < Symbol.wellKnown.length) : v.SameName w ⟨n⟩ ⟨n⟩ := by
  have hget := List.getElem?_eq_getElem hn
  exact ⟨_, h.left.wellFormed.symbols.name?_wellKnown hget, h.right.wellFormed.symbols.name?_wellKnown hget⟩

theorem eq_wellKnown_iff {s t : Symbol} (hs : v.SameName w s t) {n : Nat}
    (hn : n < Symbol.wellKnown.length) : s = ⟨n⟩ ↔ t = ⟨n⟩ :=
  h.eq_iff hs (h.sameName_wellKnown hn)

theorem apply (a : Addition) : (a.apply v).Interchangeable (a.apply w) where
  left := a.reachable_apply h.left
  right := a.reachable_apply h.right
  definition name p := by
    rw [a.definition?_apply h.left.wellFormed, a.definition?_apply h.right.wellFormed, h.definition]
  variableCount := by rw [a.variableCount_apply, a.variableCount_apply, h.variableCount]

theorem operatorAt (p : Placement) (k : TokenKind) :
    Option.Rel (fun x y => v.SameName w x.1 y.1 ∧ x.2 = y.2)
      (Parse.operatorAt? v p k) (Parse.operatorAt? w p k) := by
  cases hk : k.name? with
  | none =>
    simp only [Parse.operatorAt?, Parse.operatorSymbol?, hk]
    exact .none
  | some name =>
    have hd := h.definition name p
    have hiff : ∀ o, v.definition? name p = some o → ∃ s t,
        Parse.operatorAt? v p k = some (s, o) ∧ Parse.operatorAt? w p k = some (t, o) ∧
          v.SameName w s t := by
      intro o ho
      obtain ⟨s, hs, hso⟩ := Option.bind_eq_some_iff.1 ho
      obtain ⟨t, ht, hto⟩ := Option.bind_eq_some_iff.1 (hd.symm.trans ho)
      exact ⟨s, t, (Parse.operatorAt?_eq_some name hk).2 ⟨hs, hso⟩,
        (Parse.operatorAt?_eq_some name hk).2 ⟨ht, hto⟩, _, SymbolTable.name?_of_lookup hs,
        SymbolTable.name?_of_lookup ht⟩
    cases ho : v.definition? name p with
    | some o =>
      obtain ⟨s, t, hs, ht, hst⟩ := hiff o ho
      rw [hs, ht]
      exact .some ⟨hst, rfl⟩
    | none =>
      have hnone : ∀ u : Vocabulary, u.definition? name p = none → Parse.operatorAt? u p k = none := by
        intro u hu
        refine (Parse.operatorAt?_eq_none name hk).2 fun s hs => ?_
        exact Option.bind_eq_none_iff.1 hu s hs
      rw [hnone v ho, hnone w (hd.symm.trans ho)]
      exact .none

omit h in
/-- A token denotes an operator if it has a definition in some placement. -/
theorem operatorSymbol?_eq_some {k : TokenKind} {s : Symbol} :
    Parse.operatorSymbol? v k = some s ↔ ∃ p o, Parse.operatorAt? v p k = some (s, o) := by
  cases hk : k.name? with
  | none => simp [Parse.operatorAt?, Parse.operatorSymbol?, hk]
  | some name =>
    simp only [Parse.operatorAt?_eq_some name hk]
    simp only [Parse.operatorSymbol?, hk]
    cases hl : v.lookup name with
    | none => simp
    | some u =>
      have hop : v.isOperator u = true ↔ ∃ p o, v.operators.lookup u p = some o := by
        constructor
        · intro hu
          simp only [Vocabulary.isOperator, OperatorTable.isOperator, OperatorTable.first?,
            Option.isSome_map, List.find?_isSome, beq_iff_eq] at hu
          obtain ⟨e, he, rfl⟩ := hu
          have hex : ((v.operators.entries.find? fun e' =>
              e'.1 == e.1 && e'.2.placement == e.2.placement).map (·.2)).isSome = true := by
            simp only [Option.isSome_map, List.find?_isSome]
            exact ⟨e, he, by simp⟩
          exact ⟨e.2.placement, Option.isSome_iff_exists.1 hex⟩
        · rintro ⟨p, o, ho⟩
          exact OperatorTable.isOperator_of_lookup ho
      by_cases hu : v.isOperator u = true
      · simp only [if_pos hu, Option.some.injEq]
        constructor
        · rintro rfl
          obtain ⟨p, o, ho⟩ := hop.1 hu
          exact ⟨p, o, rfl, ho⟩
        · rintro ⟨p, o, rfl, -⟩
          rfl
      · simp only [if_neg hu, reduceCtorEq, Option.some.injEq, false_iff]
        rintro ⟨p, o, rfl, ho⟩
        exact hu (hop.2 ⟨p, o, ho⟩)

theorem operatorSymbol (k : TokenKind) :
    Option.Rel (v.SameName w) (Parse.operatorSymbol? v k) (Parse.operatorSymbol? w k) := by
  have hfound : ∀ {s}, Parse.operatorSymbol? v k = some s →
      ∃ t, Parse.operatorSymbol? w k = some t ∧ v.SameName w s t := by
    intro s hs
    obtain ⟨p, o, ho⟩ := operatorSymbol?_eq_some.1 hs
    have hrel := h.operatorAt p k
    rw [ho] at hrel
    generalize hw : Parse.operatorAt? w p k = x at hrel
    cases hrel with
    | @some _ y hst => exact ⟨y.1, operatorSymbol?_eq_some.2 ⟨p, y.2, hw⟩, hst.1⟩
  cases hv : Parse.operatorSymbol? v k with
  | some s =>
    obtain ⟨t, ht, hst⟩ := hfound hv
    rw [ht]
    exact .some hst
  | none =>
    have hw : Parse.operatorSymbol? w k = none := by
      refine Option.eq_none_iff_forall_ne_some.2 fun t ht => ?_
      obtain ⟨p, o, ho⟩ := operatorSymbol?_eq_some.1 ht
      have hrel := h.operatorAt p k
      rw [ho] at hrel
      generalize hv' : Parse.operatorAt? v p k = x at hrel
      cases hrel with
      | @some y _ hst =>
        have hs := operatorSymbol?_eq_some.2 ⟨p, y.2, hv'⟩
        exact Option.some_ne_none _ (hs.symm.trans hv)
    rw [hw]
    exact .none

omit h in
theorem isSome_eq_of_rel {α β : Type} {R : α → β → Prop} {x : Option α} {y : Option β}
    (h : Option.Rel R x y) : x.isSome = y.isSome := by
  cases h <;> rfl

theorem startsArgument_eq (k : TokenKind) :
    Parse.startsArgument v k = Parse.startsArgument w k := by
  have hs : ∀ k, (Parse.operatorSymbol? v k).isNone = (Parse.operatorSymbol? w k).isNone := fun k => by
    rw [← Option.not_isSome, ← Option.not_isSome, isSome_eq_of_rel (h.operatorSymbol k)]
  simp only [Parse.startsArgument, hs]

theorem startsTerm_eq (k : TokenKind) : Parse.startsTerm v k = Parse.startsTerm w k := by
  rw [Parse.startsTerm, Parse.startsTerm, h.startsArgument_eq,
    isSome_eq_of_rel (h.operatorAt .beforeOperand k)]

end Interchangeable

end Vocabulary

namespace Term

/-- Names show alike, and so do the symbols that lists are made of. -/
structure ShowsAlike (m : Matching) (names names' : SymbolTable) : Prop where
  name : ∀ {s t}, m.symbols s t → names.name s = names'.name t
  nil : ∀ {s t}, m.symbols s t → (s = Symbol.nil ↔ t = Symbol.nil)
  cons : ∀ {s t}, m.symbols s t → (s = Symbol.cons ↔ t = Symbol.cons)

mutual

theorem renderAt_eq {m : Matching} {names names' : SymbolTable} (h : ShowsAlike m names names')
    {a b : Term} (hab : a.Matches m b) (place : Place) :
    renderAt names place a = renderAt names' place b := by
  match a, b, hab with
  | const s, const t, hst =>
    simp only [renderAt, h.name hst, h.nil hst]
  | lam x a, lam y b, ⟨hx, hb⟩ =>
    simp only [renderAt, h.name hx, renderAt_eq h hb .alone]
  | literal a, literal b, he =>
    obtain rfl : a = b := he
    simp only [renderAt]
  | quoted p, quoted q, ⟨hd, _, hk⟩ =>
    simp only [renderAt, Quotation.render, hd, hk]
  | app f as, app g bs, ⟨hf, hs⟩ =>
    have hcons : f.symbol? = some Symbol.cons ↔ g.symbol? = some Symbol.cons :=
      rel_eq_some_iff hf.symbol? h.cons
    have hhead := renderAt_eq h hf .argument
    have hargs := renderArgs_eq h hs
    match as, bs, hs with
    | [], [], _ => simp only [renderAt, hcons, hhead, hargs]
    | [a], [b], _ => simp only [renderAt, hcons, hhead, hargs]
    | [a, a'], [b, b'], ⟨hb, hb', _⟩ =>
      by_cases hc : g.symbol? = some Symbol.cons
      · simp only [renderAt, hcons.2 hc, hc, decide_true, renderAt_eq h hb .alone,
          renderAt_eq h hb' .tail]
      · have hshow : ∀ (names : SymbolTable) (f x x' : Term), f.symbol? ≠ some Symbol.cons →
            renderAt names place (app f [x, x']) =
              place.enclose false (renderAt names .argument f ++ renderArgs names [x, x']) := by
          intro names f x x' hx
          conv => lhs; unfold renderAt
          rw [decide_eq_false hx]
        rw [hshow names f a a' (mt hcons.1 hc), hshow names' g b b' hc, hhead, hargs]
    | a :: a' :: a'' :: as, b :: b' :: b'' :: bs, _ => simp only [renderAt, hcons, hhead, hargs]

theorem renderArgs_eq {m : Matching} {names names' : SymbolTable} (h : ShowsAlike m names names')
    {as bs : List Term} (hs : MatchesAll m as bs) : renderArgs names as = renderArgs names' bs := by
  match as, bs, hs with
  | [], [], _ => rfl
  | a :: as, b :: bs, ⟨hab, hs⟩ =>
    simp only [renderArgs, renderAt_eq h hab .argument, renderArgs_eq h hs]

end

end Term

namespace Vocabulary

/-- Symbols of one name, at spans that correspond. -/
def matching (v w : Vocabulary) (spans : Span → Span → Prop) : Matching := ⟨v.SameName w, spans⟩

variable {v w : Vocabulary} {spans : Span → Span → Prop}

theorem matching_le {v' w' : Vocabulary} (hv : v.Extends v') (hw : w.Extends w') :
    (v.matching w spans).Le (v'.matching w' spans) :=
  ⟨fun hs => hs.mono hv hw, fun hs => hs⟩

namespace Interchangeable

variable (h : v.Interchangeable w)
include h

theorem showsAlike : Term.ShowsAlike (v.matching w spans) v.symbols w.symbols where
  name hs := hs.name_eq
  nil hs := h.eq_wellKnown_iff hs (by decide)
  cons hs := h.eq_wellKnown_iff hs (by decide)

theorem render_eq {a b : Term} (hab : a.Matches (v.matching w spans) b) :
    v.render a = w.render b :=
  Term.renderAt_eq h.showsAlike hab .alone

/-- Applications of matching terms, or the same refusal. -/
theorem apply_rel {as bs : List Term} {x y : Span} (hs : Term.MatchesAll (v.matching w spans) as bs)
    (hxy : spans x y) :
    ExceptRel ((v.matching w spans).Alike (α := TermError)) (Term.Matches (v.matching w spans))
      (v.apply x as) (w.apply y bs) := by
  have hrefuse : ∀ {a b : Term}, a.Matches (v.matching w spans) b →
      (v.matching w spans).Alike (TermError.malformed x (.cannotApply a.kindName (v.render a)))
        (TermError.malformed y (.cannotApply b.kindName (w.render b))) := by
    intro a b hab r r' hj
    simp only [relabel, TermError.relabeled, hj.span hxy, hab.kindName_eq, h.render_eq hab]
  cases as with
  | nil =>
    cases bs with
    | nil => exact fun _ _ _ => rfl
    | cons b rest' => exact hs.elim
  | cons a rest =>
    cases bs with
    | nil => exact hs.elim
    | cons b rest' =>
      obtain ⟨hab, hrest⟩ := hs
      cases a with
      | const s =>
        cases b with
        | const t =>
          cases rest <;> cases rest'
          · exact hab
          · exact hrest.elim
          · exact hrest.elim
          · exact ⟨hab, hrest⟩
        | _ => exact hab.elim
      | app f as =>
        cases b with
        | app g bs => exact ⟨hab.1, hab.2.append hrest⟩
        | _ => exact hab.elim
      | lam s body =>
        cases b with
        | lam t body' => exact hrefuse hab
        | _ => exact hab.elim
      | literal l =>
        cases b with
        | literal l' => exact hrefuse hab
        | _ => exact hab.elim
      | quoted p =>
        cases b with
        | quoted q =>
          cases rest <;> cases rest'
          · exact hab
          · exact hrest.elim
          · exact hrest.elim
          · exact ⟨hab, hrest⟩
        | _ => exact hab.elim

end Interchangeable

theorem sameName_intern (v w : Vocabulary) (name : String) :
    (v.intern name).2.SameName (w.intern name).2 (v.intern name).1 (w.intern name).1 :=
  ⟨Symbol.canonical name, SymbolTable.name?_intern _ _, SymbolTable.name?_intern _ _⟩

theorem Interchangeable.sameName_freshVariable (h : v.Interchangeable w) :
    v.freshVariable.1.Matches (v.freshVariable.2.matching w.freshVariable.2 spans) w.freshVariable.1 := by
  have hname : SymbolTable.variableName (v.symbols.variableCount + 1) =
      SymbolTable.variableName (w.symbols.variableCount + 1) := by rw [h.variableCount]
  refine ⟨Symbol.canonical (SymbolTable.variableName (v.symbols.variableCount + 1)), ?_, ?_⟩
  · exact SymbolTable.name?_intern _ _
  · rw [hname]
    exact SymbolTable.name?_intern _ _

theorem defineOperator_fst {n : String} {f : Fixity} {p : Int} (hv : v.WellFormed) :
    (v.defineOperator n f p).1 =
      if p < Precedence.lowest ∨ (Precedence.tightest : Int) < p then .error (.outOfRange n p)
      else
        match v.definition? n f.placement with
        | none => .ok (v.intern n).1
        | some old =>
          if old = ⟨f, p.toNat⟩ then .ok (v.intern n).1
          else .error (.redefinition n old ⟨f, p.toNat⟩) := by
  have hd : v.definition? n f.placement = v.operators.lookup (v.intern n).1 f.placement := by
    have hs := v.symbols.lookup_intern_self n
    rw [← hv.definition?_intern n n f.placement, definition?]
    have hs' : (v.intern n).2.lookup n = some (v.intern n).1 := hs
    rw [hs']
    rfl
  rw [hd]
  unfold defineOperator
  split_ifs with hp
  · rfl
  · have hop : (v.intern n).2.operators = v.operators := rfl
    rw [show v.intern n = ((v.intern n).1, (v.intern n).2) from rfl]
    dsimp only
    rw [hop, OperatorTable.define]
    simp only [Operator.placement]
    cases v.operators.lookup (v.intern n).1 f.placement with
    | none => rfl
    | some old =>
      dsimp only
      split_ifs <;> rfl

theorem Interchangeable.defineOperator_rel (h : v.Interchangeable w) (n : String) (f : Fixity) (p : Int) :
    ExceptRel (· = ·) (fun _ _ => True) (v.defineOperator n f p).1 (w.defineOperator n f p).1 := by
  rw [defineOperator_fst h.left.wellFormed, defineOperator_fst h.right.wellFormed, h.definition]
  split_ifs
  · exact rfl
  · cases w.definition? n f.placement with
    | none => trivial
    | some old =>
      dsimp only
      split_ifs
      · trivial
      · exact rfl

end Vocabulary

/-- The same quotation at another span. -/
theorem Quotation.ofRaw_rel {spans : Span → Span → Prop} {x y : Span}
    (hs : ∀ front back, spans (x.strip front back) (y.strip front back)) (raw : List Char) :
    ExceptRel (· = ·) (fun p q => p.data = q.data ∧ spans p.span q.span ∧ p.kind = q.kind)
      (ofRaw x raw) (ofRaw y raw) := by
  simp only [ofRaw]
  split_ifs
  · exact rfl
  · generalize after? "kind:".toList _ = tagged
    cases tagged with
    | none => exact ⟨rfl, hs _ _, rfl⟩
    | some tagged =>
      dsimp only
      generalize tagged.dropWhile _ = body
      cases body with
      | nil => exact rfl
      | cons _ body =>
        dsimp only
        split_ifs
        · exact rfl
        · exact ⟨rfl, hs _ _, rfl⟩

theorem Term.ofQuotation_rel {m : Matching} {x y : Span}
    (hs : ∀ front back, m.spans (x.strip front back) (y.strip front back)) (hxy : m.spans x y)
    (raw : String) :
    ExceptRel (m.Alike (α := TermError)) (Matches m) (ofQuotation x raw) (ofQuotation y raw) := by
  have hrel := Quotation.ofRaw_rel hs raw.toList
  unfold ofQuotation
  revert hrel
  cases Quotation.ofRaw x raw.toList <;> cases Quotation.ofRaw y raw.toList <;> intro hrel <;>
    first | exact hrel.elim | exact hrel | skip
  intro r r' hj
  obtain rfl := hrel
  simp only [relabel, TermError.relabeled, hj.span hxy]

end Clausal
