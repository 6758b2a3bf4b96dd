import Clausal.Proofs.ComparedTerms

/-!
# Declarations are read alike

All declarations but inclusions are read by steps that include no text, and give declarations that
are the same up to symbols and spans.
-/
namespace Clausal

/-- A declaration that includes no units. -/
def Decl.isPlain : Decl → Bool
  | .accumulated _ _ => false
  | _ => true

namespace Parse.Comparison

variable {C : Comparison} {W : World} {φ : Phase} {a b : Span}

/-- Declarations that include no units and are read alike. -/
structure Declares (C : Comparison) (W : World) (ds ds' : List Decl) : Prop where
  alike : C.alike W ds ds'
  isPlain : ∀ d ∈ ds, d.isPlain = true

/-- Steps that read a declaration up to its end. -/
abbrev Closes {α β : Type} (C : Comparison) (W : World) (R : World → α → β → Prop) (p : Parse α)
    (q : Parse β) : Prop :=
  C.reads .within (fun _ => .behind) W R p q

theorem declares_singleton {d d' : Decl} (h : C.alike W d d') (hp : d.isPlain = true) :
    C.Declares W [d] [d'] :=
  ⟨h.singleton, by simpa using hp⟩

theorem reads_string : C.Reads W (fun _ x y => x = y) string string := by
  refine next_bind fun {t t'} ht => ?_
  rw [← ht.kind]
  cases hk : t.kind <;> first | exact reads_pure rfl rfl | exact failExpected ht _

theorem reads_indexDepths : C.Reads W (fun _ x y => x = y) indexDepths indexDepths := by
  refine reads_repeated (A := fun _ x y => x = y) rfl fun {W' x y} _ hxy => ?_
  subst hxy
  refine next_bind fun {t t'} ht => ?_
  rw [← ht.kind]
  cases hk : t.kind with
  | rightParen => exact reads_pure rfl rfl
  | ident name =>
    dsimp only
    split_ifs
    · exact reads_pure rfl rfl
    · exact failExpected ht _
  | int digits =>
    dsimp only
    cases boundedNat? (Nat.pow 2 64 - 1) digits with
    | some n => exact reads_pure rfl rfl
    | none => exact failInteger ht.span
  | _ => exact failExpected ht _

theorem reads_oneAttribute : C.Reads W (fun _ x y => x = y) oneAttribute oneAttribute := by
  have hstring : ∀ f : String → Attribute, C.Reads W (fun _ x y => x = y)
      (string >>= fun text => Pure.pure (f text)) (string >>= fun text => Pure.pure (f text)) := fun f =>
    reads_bind reads_string fun _ hxy => reads_pure rfl (congrArg f hxy)
  refine next_bind fun {t t'} ht => ?_
  rw [← ht.kind]
  split
  · exact hstring .name
  · exact hstring .before
  · exact hstring .after
  · exact hstring .onlyIf
  · exact reads_pure rfl rfl
  · refine expect_bind .leftParen fun _ => reads_bind reads_indexDepths fun _ hxy => ?_
    exact reads_pure rfl (congrArg Attribute.index hxy)
  · exact failAt ht.span _
  · exact failExpected ht _

theorem reads_attributes : C.Reads W (fun _ x y => x = y) attributes attributes := by
  refine reads_repeated (A := fun _ x y => x = y) rfl fun {W' x y} _ hxy => ?_
  subst hxy
  refine eatSymbol_bind ":" fun {b} => ?_
  cases b with
  | true =>
    refine reads_bind reads_oneAttribute fun _ hxy => reads_pure rfl ?_
    exact congrArg (fun z => x ++ [z]) hxy
  | false => exact reads_pure rfl rfl

theorem reads_declaredName : C.Reads W C.alike declaredName declaredName := by
  refine next_bind fun {t t'} ht => ?_
  rw [← ht.kind]
  cases hk : t.kind with
  | ident name | macroName name => exact reads_intern name
  | symbolic name =>
    dsimp only
    split_ifs
    · exact failExpected ht _
    · exact reads_intern name
  | leftParen =>
    refine next_bind fun {u u'} hu => ?_
    rw [← hu.kind]
    cases hk' : u.kind with
    | ident name | symbolic name | macroName name =>
      refine reads_bind (reads_intern name) fun _ hst => expect_bind .rightParen fun _ => ?_
      exact reads_pure rfl hst
    | _ => exact failExpected hu _
  | _ => exact failExpected ht _

/-- Items with commas between them, for any relation between lists that grows at the end. -/
theorem separated_relates {α β : Type} {A : World → World → α → β → Prop}
    {L : World → List α → List β → Prop} {item : Parse α} {item' : Parse β} (hnil : L W [] [])
    (hsnoc : ∀ {W' W'' xs ys x y}, W.Le W' → W'.Le W'' → L W' xs ys → A W' W'' x y →
      L W'' (xs ++ [x]) (ys ++ [y]))
    (hitem : ∀ {W'}, W.Le W' → C.relates .within (fun _ => .within) W' (A W') item item') :
    C.relates .within (fun _ => .within) W L (separated item) (separated item') := by
  refine repeated (A := L) (B := L) hnil fun {W' xs ys} hle hl => ?_
  refine C.bind (hitem hle) fun {W'' x y} hle' hxy => eatSymbol_bind "," fun {b} => ?_
  have hnew := hsnoc hle hle' hl hxy
  cases b with
  | true => exact C.pure rfl hnew
  | false => exact C.pure rfl hnew

theorem reads_separated {α : Type} [Labeled α] {item item' : Parse α}
    (hitem : ∀ {W'}, C.Reads W' C.alike item item') :
    C.Reads W C.alike (separated item) (separated item') := by
  refine separated_relates (A := fun W' W'' x y => W'.Quiet W'' ∧ C.alike W'' x y)
    ⟨.refl W, Matching.alike_nil⟩ (fun _ hle h hxy => ?_) fun _ => hitem
  exact ⟨h.1.trans hxy.1, (alike_mono hle h.2).append hxy.2.singleton⟩

theorem reads_declaredNames : C.Reads W C.alike declaredNames declaredNames :=
  reads_separated reads_declaredName

theorem alike_typesOf {names names' : List Symbol} {type type' : Term} (hab : C.spans a b)
    (hn : C.alike W names names') (attributes : List Attribute) (ht : C.terms W type type') :
    C.alike W (typesOf a names attributes type) (typesOf b names' attributes type') := by
  intro r r' hj
  have hmap : ∀ (r : Relabeling) (s : Span) (names : List Symbol) (t : Term),
      relabel r (typesOf s names attributes t) =
        typesOf (r.span s) (relabel r names) attributes (relabel r t) := by
    intro r s names t
    simp only [typesOf, relabel, Decl.relabeled, List.map_map, Function.comp_def]
  rw [hmap, hmap, hj.span hab, hn r r' hj, ht.alike r r' hj]

theorem reads_typeDecl (hab : C.spans a b) (attributes : List Attribute) :
    C.Closes W (fun W' d d' => C.Declares W' [d] [d']) (typeDecl a attributes)
      (typeDecl b attributes) := by
  refine reads_bind reads_declaredNames fun _ hn => reads_bind reads_term fun hle ht => ?_
  refine expectClose_bind rfl (spanFrom_bind hab fun hxy => reads_pure rfl ?_)
  exact declares_singleton (alike_typesOf hxy (alike_mono hle hn) attributes ht) rfl

theorem reads_shorthand (nameSpace : String) :
    C.Reads W C.alike (shorthand nameSpace) (shorthand nameSpace) := by
  refine next_bind fun {t t'} ht => ?_
  rw [← ht.kind]
  cases hk : t.kind with
  | ident name =>
    refine reads_bind (reads_intern _) fun _ hf => reads_bind (reads_intern _) fun hle hs => ?_
    refine reads_pure rfl fun r r' hj => ?_
    have hfull := alike_mono hle hf r r' hj
    have hshort := hs r r' hj
    simp only [relabel_symbol] at hfull hshort
    simp only [relabel, hj.span ht.span, hfull, hshort]
  | _ => exact failExpected ht _

theorem reads_shorthandGroup : C.Reads W C.alike shorthandGroup shorthandGroup := by
  refine next_bind fun {t t'} ht => ?_
  rw [← ht.kind]
  cases hk : t.kind with
  | ident nameSpace =>
    refine next_bind fun {u u'} hu => ?_
    have hs : u.isSymbol "." = u'.isSymbol "." := by rw [Token.isSymbol, Token.isSymbol, hu.kind]
    rw [← hs]
    split_ifs
    · refine expect_bind .leftBrace fun _ => ?_
      refine reads_bind (reads_separated (reads_shorthand nameSpace)) fun _ hl => ?_
      exact expect_bind .rightBrace fun _ => reads_pure rfl hl
    · exact failExpected hu _
  | _ => exact failExpected ht _

theorem reads_mode : C.Reads W C.alike mode mode := by
  refine expect_bind .leftParen fun {t t'} ht => reads_bind reads_declaredName fun _ hs => ?_
  refine reads_bind (ψ := fun _ => .within) (R := fun _ x y => x = y) ?_ fun hle hxy =>
    spanFrom_bind ht.span fun hab => ?_
  · refine reads_repeated (A := fun _ x y => x = y) rfl fun {W' x y} _ hxy => ?_
    subst hxy
    refine next_bind fun {u u'} hu => ?_
    rw [← hu.kind]
    split_ifs
    · exact reads_pure rfl rfl
    · cases direction? u.kind with
      | some d => exact reads_pure rfl rfl
      | none => exact failExpected hu _
  · refine reads_pure rfl fun r r' hj => ?_
    have hname := alike_mono hle hs r r' hj
    simp only [relabel_symbol] at hname
    simp only [relabel, hj.span hab, hname, hxy]

theorem reads_predicateArg : C.Reads W C.alike predicateArg predicateArg := by
  refine next_bind fun {t t'} ht => ?_
  rw [← ht.kind]
  cases direction? t.kind with
  | none => exact failExpected ht _
  | some d =>
    refine next_bind fun {u u'} hu => ?_
    have hs : u.isSymbol ":" = u'.isSymbol ":" := by rw [Token.isSymbol, Token.isSymbol, hu.kind]
    rw [← hs]
    split_ifs
    · refine reads_bind (reads_expressionAt _ _) fun _ ht => reads_pure rfl fun r r' hj => ?_
      rw [relabel_mk, relabel_mk, ht.alike r r' hj]
      rfl
    · exact failExpected hu _

/-- Well-known symbols correspond to themselves. -/
theorem symbol_wellKnown (hW : C.admits W) {r r' : Relabeling} (hj : (W.matching C.spans).Joins r r')
    {n : Nat} (hn : n < Symbol.wellKnown.length) : r.symbol ⟨n⟩ = r'.symbol ⟨n⟩ :=
  hj.symbol ((C.interchangeable hW).sameName_wellKnown hn)

theorem alike_predicateType (hW : C.admits W) {args args' : List (Direction × Term)}
    (h : C.alike W args args') :
    C.alike W (predicateType (args.map (·.2))) (predicateType (args'.map (·.2))) := by
  intro r r' hj
  have hmap : ∀ (r : Relabeling) (types : List Term), relabel r (predicateType types) =
      (relabel r types).foldr (fun arg result => Term.node (r.symbol Symbol.arrow) [arg, result])
        (.const (r.symbol Symbol.prop)) := by
    intro r types
    induction types with
    | nil => rfl
    | cons t types ih =>
      rw [relabel_cons, List.foldr_cons, ← ih]
      rfl
  have hsnd : ∀ (r : Relabeling) (args : List (Direction × Term)),
      relabel r (args.map (·.2)) = (relabel r args).map (·.2) := by
    intro r args
    simp [relabel]
  have harrow : r.symbol Symbol.arrow = r'.symbol Symbol.arrow := symbol_wellKnown hW hj (by decide)
  have hprop : r.symbol Symbol.prop = r'.symbol Symbol.prop := symbol_wellKnown hW hj (by decide)
  rw [hmap, hmap, hsnd, hsnd, h r r' hj, harrow, hprop]

theorem reads_predicate (hab : C.spans a b) (attributes : List Attribute) :
    C.Closes W C.Declares (predicate a attributes) (predicate b attributes) := by
  refine reads_bind reads_declaredName fun {W₁ s s'} _ hs => ?_
  have htail : ∀ {W₂} {args args' : List (Direction × Term)}, W₁.Le W₂ → C.alike W₂ args args' →
      C.Closes W₂ C.Declares
        (do
          let _ ← expect .stop
          let span ← Parse.spanFrom a
          Pure.pure [.modes [⟨span, s, args.map (·.1)⟩],
            .types [⟨span, attributes, s, predicateType (args.map (·.2))⟩]])
        (do
          let _ ← expect .stop
          let span ← Parse.spanFrom b
          Pure.pure [.modes [⟨span, s', args'.map (·.1)⟩],
            .types [⟨span, attributes, s', predicateType (args'.map (·.2))⟩]]) := by
    intro W₂ args args' hle ha
    refine expectClose_bind rfl (spanFrom_bind hab fun {x y} hxy => C.assume fun hW => ?_)
    refine reads_pure rfl ⟨fun r r' hj => ?_, by simp [Decl.isPlain]⟩
    have hname := alike_mono hle hs r r' hj
    have htype := alike_predicateType hW ha r r' hj
    have hfst : ∀ (r : Relabeling) (args : List (Direction × Term)),
        args.map (·.1) = (relabel r args).map (·.1) := by
      intro r args
      simp [relabel]
    simp only [relabel_symbol] at hname
    rw [hfst r args, hfst r' args', ha r r' hj]
    simp only [relabel_cons, relabel_nil]
    simp only [relabel, Decl.relabeled, List.map_cons, List.map_nil, hj.span hxy, hname] at htype ⊢
    rw [htype]
  refine peek_bind fun {t t'} ht => C.reopen _ ?_
  rw [← ht.kind]
  dsimp only
  split_ifs
  · exact reads_bind (reads_pure rfl Matching.alike_nil) htail
  · exact reads_bind (reads_separated reads_predicateArg) htail

theorem reads_parameters (hab : C.spans a b) {as bs : List Term} (h : C.termLists W as bs) :
    C.reads φ (fun _ => φ) W C.alike (parameters a as) (parameters b bs) := by
  have hrefuse : ∀ {t t'}, C.terms W t t' →
      C.reads (α := List Symbol) φ (fun _ => φ) W C.alike
        (Parse.vocabulary >>= fun v => Parse.failAt a (.parameter (v.render t)))
        (Parse.vocabulary >>= fun v => Parse.failAt b (.parameter (v.render t'))) := by
    intro t t' ht
    refine C.assume fun hW => vocabulary_bind ?_
    rw [(C.interchangeable hW).render_eq ht]
    exact failAt hab _
  induction as generalizing bs with
  | nil =>
    cases bs with
    | nil => exact reads_pure rfl Matching.alike_nil
    | cons t bs => exact h.elim
  | cons t as ih =>
    cases bs with
    | nil => exact h.elim
    | cons t' bs =>
      obtain ⟨ht, hs⟩ := h
      match t, t', ht with
      | .const s, .const s', hst =>
        refine reads_bind (ih hs) fun hle hss => reads_pure rfl ?_
        exact (alike_mono hle (Matching.alike_symbol hst)).cons hss
      | .app _ _, .app _ _, ht => exact hrefuse ht
      | .lam _ _, .lam _ _, ht => exact hrefuse ht
      | .literal _, .literal _, ht => exact hrefuse ht
      | .quoted _, .quoted _, ht => exact hrefuse ht

theorem relabel_abstract (r : Relabeling) (names : List Symbol) (t : Term) :
    relabel r (Term.abstract names t) = Term.abstract (relabel r names) (relabel r t) := by
  induction names with
  | nil => rfl
  | cons s names ih =>
    rw [relabel_cons, Term.abstract, List.foldr_cons, Term.abstract, List.foldr_cons]
    exact congrArg (Term.lam (r.symbol s)) ih

theorem rel_filter {α β : Type} {R : α → β → Prop} {x : Option α} {y : Option β} {f : α → Bool}
    {g : β → Bool} (h : Option.Rel R x y) (hfg : ∀ {a b}, R a b → f a = g b) :
    Option.Rel R (x.filter f) (y.filter g) := by
  cases h with
  | none => exact .none
  | some hab =>
    rw [Option.filter_some, Option.filter_some, hfg hab]
    split_ifs
    · exact .some hab
    · exact .none

theorem reads_macroDecl (hab : C.spans a b) :
    C.Closes W (fun W' d d' => C.Declares W' [d] [d']) (macroDecl a) (macroDecl b) := by
  refine reads_bind reads_term fun {W₁ t t'} _ ht => expectClose_bind rfl ?_
  refine spanFrom_bind hab fun {x y} hxy => C.assume fun hW => ?_
  have hv := C.interchangeable hW
  have hform : C.reads (α := Decl) .behind (fun _ => .behind) W₁ (fun W' d d' => C.Declares W' [d] [d'])
      (Parse.failAt x .macroForm) (Parse.failAt y .macroForm) := failAt hxy _
  have hargs := ht.argsOf? fun hs => hv.eq_wellKnown_iff hs (n := 4) (by decide)
  change Option.Rel _ (t.argsOf? Symbol.neck) (t'.argsOf? Symbol.neck) at hargs
  revert hargs
  generalize t.argsOf? Symbol.neck = as
  generalize t'.argsOf? Symbol.neck = bs
  intro hargs
  match as, bs, hargs with
  | none, none, _ => exact hform
  | some [], some [], _ => exact hform
  | some [_], some [_], _ => exact hform
  | some (_ :: _ :: _ :: _), some (_ :: _ :: _ :: _), _ => exact hform
  | some [head, body], some [head', body'], .some ⟨hhead, hbody, _⟩ =>
    refine vocabulary_bind ?_
    have hname := rel_filter hhead.headSymbol? (f := fun s =>
      decide ((W₁.left.vocabulary.name s).toList.head? = some '@')) (g := fun s =>
      decide ((W₁.right.vocabulary.name s).toList.head? = some '@')) fun hs => by rw [hs.name_eq]
    revert hname
    generalize head.headSymbol?.filter _ = n
    generalize head'.headSymbol?.filter _ = n'
    intro hname
    cases hname with
    | none =>
      dsimp only
      rw [hv.render_eq hhead]
      exact failAt hxy _
    | some hst =>
      refine reads_bind (reads_parameters hxy hhead.args) fun hle hps => reads_pure rfl ?_
      refine declares_singleton (fun r r' hj => ?_) rfl
      have hs := alike_mono hle (Matching.alike_symbol hst) r r' hj
      have hb := (terms_mono hle hbody).alike r r' hj
      simp only [relabel_symbol] at hs
      simp only [relabel, Decl.relabeled] at hb ⊢
      have habs := relabel_abstract r
      have habs' := relabel_abstract r'
      have hps' := hps r r' hj
      simp only [relabel] at habs habs' hps'
      rw [habs, habs', hj.span hxy, hs, hb, hps']

theorem reads_typeAbbreviation (hab : C.spans a b) :
    C.Closes W (fun W' d d' => C.Declares W' [d] [d']) (typeAbbreviation a) (typeAbbreviation b) := by
  refine reads_bind reads_closedTerm fun {W₁ head head'} _ hhead => ?_
  refine reads_bind reads_term fun {W₂ value value'} hle hvalue => expectClose_bind rfl ?_
  refine spanFrom_bind hab fun {x y} hxy => C.assume fun hW => ?_
  have hhead := terms_mono hle hhead
  have hname := hhead.headSymbol?
  revert hname
  generalize head.headSymbol? = n
  generalize head'.headSymbol? = n'
  intro hname
  cases hname with
  | none =>
    refine vocabulary_bind ?_
    rw [(C.interchangeable hW).render_eq hhead]
    exact failAt hxy _
  | some hst =>
    refine reads_bind (reads_parameters hxy hhead.args) fun {W₃ ps ps'} hle hps => reads_pure rfl ?_
    refine declares_singleton (fun r r' hj => ?_) rfl
    have hs := alike_mono hle (Matching.alike_symbol hst) r r' hj
    have hv := (terms_mono hle hvalue).alike r r' hj
    have hps' := hps r r' hj
    have hlen : ps.length = ps'.length := by simpa [relabel] using congrArg List.length hps'
    have habs := relabel_abstract r
    have habs' := relabel_abstract r'
    simp only [relabel_symbol] at hs
    simp only [relabel, Decl.relabeled] at hv habs habs' hps' ⊢
    rw [habs, habs', hj.span hxy, hs, hv, hps', hlen]

theorem alike_sequent {eigen eigen' context context' goal goal' : Term} (he : C.terms W eigen eigen')
    (hc : C.terms W context context') (hg : C.terms W goal goal') :
    C.alike W (⟨eigen, context, goal⟩ : Sequent) ⟨eigen', context', goal'⟩ := by
  intro r r' hj
  have he' := he.alike r r' hj
  have hc' := hc.alike r r' hj
  have hg' := hg.alike r r' hj
  simp only [relabel] at he' hc' hg' ⊢
  rw [he', hc', hg']

theorem reads_sequentOf {t t' : Term} (ht : C.terms W t t') :
    C.Reads W C.alike (sequentOf t) (sequentOf t') := by
  refine C.assume fun hW => ?_
  have hv := C.interchangeable hW
  have hwhole : C.Reads W C.alike
      (do
        let eigen ← freshVariable
        let context ← freshVariable
        Pure.pure (⟨eigen, context, t⟩ : Sequent))
      (do
        let eigen ← freshVariable
        let context ← freshVariable
        Pure.pure (⟨eigen, context, t'⟩ : Sequent)) := by
    refine reads_bind reads_freshVariable fun hle he => ?_
    refine reads_bind reads_freshVariable fun hle' hc => reads_pure rfl ?_
    exact alike_sequent (terms_mono hle' he) hc (terms_mono (hle.trans hle') ht)
  have hargs := ht.argsOf? fun hs => hv.eq_wellKnown_iff hs (n := 14) (by decide)
  change Option.Rel _ (t.argsOf? Symbol.turnstile) (t'.argsOf? Symbol.turnstile) at hargs
  unfold sequentOf
  revert hargs
  generalize t.argsOf? Symbol.turnstile = as
  generalize t'.argsOf? Symbol.turnstile = bs
  intro hargs
  match as, bs, hargs with
  | none, none, _ => exact hwhole
  | some [], some [], _ => exact hwhole
  | some [_], some [_], _ => exact hwhole
  | some (_ :: _ :: _ :: _), some (_ :: _ :: _ :: _), _ => exact hwhole
  | some [front, goal], some [front', goal'], .some ⟨hfront, hgoal, _⟩ =>
    have hshort : C.Reads W C.alike
        (do
          let eigen ← freshVariable
          Pure.pure (⟨eigen, front, goal⟩ : Sequent))
        (do
          let eigen ← freshVariable
          Pure.pure (⟨eigen, front', goal'⟩ : Sequent)) := by
      exact reads_bind reads_freshVariable fun hle he =>
        reads_pure rfl (alike_sequent he (terms_mono hle hfront) (terms_mono hle hgoal))
    have hcolon := hfront.argsOf? fun hs => hv.eq_wellKnown_iff hs (n := 15) (by decide)
    change Option.Rel _ (front.argsOf? Symbol.colon) (front'.argsOf? Symbol.colon) at hcolon
    dsimp only
    revert hcolon
    generalize front.argsOf? Symbol.colon = cs
    generalize front'.argsOf? Symbol.colon = ds
    intro hcolon
    match cs, ds, hcolon with
    | none, none, _ => exact hshort
    | some [], some [], _ => exact hshort
    | some [_], some [_], _ => exact hshort
    | some (_ :: _ :: _ :: _), some (_ :: _ :: _ :: _), _ => exact hshort
    | some [eigen, context], some [eigen', context'], .some ⟨he, hc, _⟩ =>
      exact reads_pure rfl (alike_sequent he hc hgoal)

theorem reads_sequent : C.Reads W C.alike sequent sequent :=
  reads_bind reads_closedTerm fun _ ht => reads_sequentOf ht

theorem reads_sequents : C.Reads W C.alike sequents sequents := by
  refine reads_repeated (A := C.alike) Matching.alike_nil fun {W' xs ys} _ hl => ?_
  refine peek_bind fun {t t'} ht => C.reopen _ ?_
  have hs : endsSequents t = endsSequents t' := by
    simp only [endsSequents, Token.isStop, Token.isSymbol, ht.kind]
  rw [← hs]
  split_ifs
  · exact reads_pure rfl hl
  · refine reads_bind reads_sequent fun hle hxy => reads_pure rfl ?_
    exact (alike_mono hle hl).append hxy.singleton

theorem reads_map {α β γ δ : Type} {ψ : α → Phase} {χ : Phase} {R : World → α → β → Prop}
    {S : World → γ → δ → Prop} {p : Parse α} {q : Parse β} {f : α → γ} {g : β → δ}
    (h : C.reads φ ψ W R p q) (hχ : ∀ a, χ = ψ a) (hfg : ∀ {W' a b}, R W' a b → S W' (f a) (g b)) :
    C.reads φ (fun _ => χ) W S (f <$> p) (g <$> q) :=
  reads_bind (f := fun a => Pure.pure (f a)) (g := fun b => Pure.pure (g b)) h fun _ hab =>
    reads_pure (hχ _) (hfg hab)

theorem alike_some {α : Type} [Labeled α] {x y : α} (h : C.alike W x y) :
    C.alike W (some x) (some y) := fun r r' hj => congrArg some (h r r' hj)

theorem alike_none {α : Type} [Labeled α] : C.alike W (none : Option α) none := fun _ _ _ => rfl

section

variable {ms ms' rs rs' : List Sequent} {guard guard' : Option Term}

/-- The end of a rule, behind all of its parts. -/
theorem reads_ruleDecl_end (hab : C.spans a b) (attributes : List Attribute) {goal goal' : Option Sequent}
    (hms : C.alike W ms ms') (hrs : C.alike W rs rs') (hguard : C.alike W guard guard')
    (hgoal : C.alike W goal goal') :
    C.Closes W (fun W' d d' => C.Declares W' [d] [d'])
      (do
        let _ ← expect .stop
        Pure.pure (.rule ⟨ms, rs, guard, goal, attributes, ← Parse.spanFrom a⟩))
      (do
        let _ ← expect .stop
        Pure.pure (.rule ⟨ms', rs', guard', goal', attributes, ← Parse.spanFrom b⟩)) := by
  refine expectClose_bind rfl (spanFrom_bind hab fun hxy => reads_pure rfl ?_)
  refine declares_singleton (fun r r' hj => ?_) rfl
  have h₁ := hms r r' hj
  have h₂ := hrs r r' hj
  have h₃ := hguard r r' hj
  have h₄ := hgoal r r' hj
  simp only [relabel, Decl.relabeled] at h₁ h₂ h₃ h₄ ⊢
  rw [h₁, h₂, h₃, h₄, hj.span hxy]

/-- A rule from the goal that it may add. -/
theorem reads_ruleDecl_goal (hab : C.spans a b) (attributes : List Attribute) (hms : C.alike W ms ms')
    (hrs : C.alike W rs rs') (hguard : C.alike W guard guard') :
    C.Closes W (fun W' d d' => C.Declares W' [d] [d'])
      (do
        let goal ← if ← eatSymbol "<=>" then some <$> sequent else Pure.pure none
        let _ ← expect .stop
        Pure.pure (.rule ⟨ms, rs, guard, goal, attributes, ← Parse.spanFrom a⟩))
      (do
        let goal ← if ← eatSymbol "<=>" then some <$> sequent else Pure.pure none
        let _ ← expect .stop
        Pure.pure (.rule ⟨ms', rs', guard', goal, attributes, ← Parse.spanFrom b⟩)) := by
  refine eatSymbol_bind "<=>" fun {c} => ?_
  dsimp only
  split_ifs
  · refine reads_bind (reads_map reads_sequent (fun _ => rfl) alike_some) fun hle hgoal => ?_
    exact reads_ruleDecl_end hab attributes (alike_mono hle hms) (alike_mono hle hrs) (alike_mono hle hguard) hgoal
  · exact reads_bind (reads_pure rfl alike_none) fun hle hgoal =>
      reads_ruleDecl_end hab attributes (alike_mono hle hms) (alike_mono hle hrs) (alike_mono hle hguard) hgoal

/-- A rule from the guard that it may have. -/
theorem reads_ruleDecl_guard (hab : C.spans a b) (attributes : List Attribute) (hms : C.alike W ms ms')
    (hrs : C.alike W rs rs') :
    C.Closes W (fun W' d d' => C.Declares W' [d] [d'])
      (do
        let guard ← if ← eatSymbol "|" then some <$> closedTerm else Pure.pure none
        let goal ← if ← eatSymbol "<=>" then some <$> sequent else Pure.pure none
        let _ ← expect .stop
        Pure.pure (.rule ⟨ms, rs, guard, goal, attributes, ← Parse.spanFrom a⟩))
      (do
        let guard ← if ← eatSymbol "|" then some <$> closedTerm else Pure.pure none
        let goal ← if ← eatSymbol "<=>" then some <$> sequent else Pure.pure none
        let _ ← expect .stop
        Pure.pure (.rule ⟨ms', rs', guard, goal, attributes, ← Parse.spanFrom b⟩)) := by
  refine eatSymbol_bind "|" fun {c} => ?_
  dsimp only
  split_ifs
  · refine reads_bind (reads_map reads_closedTerm (fun _ => rfl)
      fun h => alike_some h.alike) fun hle hguard => ?_
    exact reads_ruleDecl_goal hab attributes (alike_mono hle hms) (alike_mono hle hrs) hguard
  · exact reads_bind (reads_pure rfl alike_none) fun hle hguard =>
      reads_ruleDecl_goal hab attributes (alike_mono hle hms) (alike_mono hle hrs) hguard

end

theorem reads_ruleDecl (hab : C.spans a b) (attributes : List Attribute) :
    C.Closes W (fun W' d d' => C.Declares W' [d] [d']) (ruleDecl a attributes)
      (ruleDecl b attributes) := by
  refine reads_bind reads_sequents fun {W₁ ms ms'} _ hms => ?_
  refine peek_bind fun {t t'} ht => C.reopen _ ?_
  rw [← ht.kind]
  dsimp only
  split_ifs
  · exact next_bind fun _ => reads_bind reads_sequents fun hle hrs =>
      reads_ruleDecl_guard hab attributes (alike_mono hle hms) hrs
  · exact reads_bind (reads_pure rfl Matching.alike_nil) fun hle hrs =>
      reads_ruleDecl_guard hab attributes (alike_mono hle hms) hrs

theorem reads_defineAll (fixity : Fixity) (precedence : Nat) {names names' : List (String × Span)}
    (h : List.Forall₂ (fun x y => x.1 = y.1 ∧ C.spans x.2 y.2) names names') :
    C.Reads W (fun _ _ _ => True) (defineAll fixity precedence names)
      (defineAll fixity precedence names') := by
  induction h generalizing W with
  | nil => exact reads_pure rfl trivial
  | @cons x y names names' hxy _ ih =>
    obtain ⟨name, span⟩ := x
    obtain ⟨name', span'⟩ := y
    obtain ⟨rfl, hspan⟩ : name = name' ∧ C.spans span span' := hxy
    refine reads_bind (R := fun _ => ExceptRel (· = ·) fun _ _ => True)
      (reads_change (.operator name fixity precedence) (fun _ => rfl) (fun _ => rfl) fun hW =>
        (C.interchangeable hW).defineOperator_rel name fixity precedence) fun {W' r r'} _ hr => ?_
    match r, r', hr with
    | .ok _, .ok _, _ => exact ih
    | .error e, .error e', he =>
      obtain rfl : e = e' := he
      exact failAt hspan _

theorem reads_operators (fixity : Fixity) :
    C.Reads W (fun _ _ _ => True) (operators fixity) (operators fixity) := by
  refine reads_repeated (A := fun _ => List.Forall₂ fun x y => x.1 = y.1 ∧ C.spans x.2 y.2) .nil
    fun {W' names names'} _ hn => next_bind fun {t t'} ht => ?_
  have hsnoc : ∀ name, List.Forall₂ (fun (x y : String × Span) => x.1 = y.1 ∧ C.spans x.2 y.2)
      (names ++ [(name, t.span)]) (names' ++ [(name, t'.span)]) := fun name =>
    List.rel_append hn (.cons ⟨rfl, ht.span⟩ .nil)
  rw [← ht.kind]
  cases hk : t.kind with
  | int digits =>
    dsimp only
    cases boundedNat? (Nat.pow 2 63 - 1) digits with
    | none => exact failInteger ht.span
    | some precedence =>
      have hempty : names.isEmpty = names'.isEmpty := by cases hn <;> rfl
      dsimp only
      rw [← hempty]
      split_ifs
      · exact failAt ht.span _
      · exact reads_bind (reads_defineAll fixity precedence hn) fun _ _ => reads_pure rfl trivial
  | ident name | symbolic name => exact reads_pure rfl (hsnoc name)
  | _ => exact failExpected ht _

theorem reads_localDecls (hab : C.spans a b) :
    C.Closes W C.Declares (localDecls a) (localDecls b) := by
  refine reads_bind reads_declaredNames fun _ hn => peek_bind fun {t t'} ht => ?_
  have hlocals : ∀ {W'} {x y : Span} {names names' : List Symbol}, C.spans x y →
      C.alike W' names names' → C.alike W' (Decl.locals x names) (Decl.locals y names') :=
    fun hxy hn r r' hj => congrArg₂ Decl.locals (hj.span hxy) (hn r r' hj)
  rw [← ht.kind]
  split_ifs with hk
  · rw [hk]
    refine close_bind rfl fun _ => spanFrom_bind hab fun hxy => reads_pure rfl ?_
    exact declares_singleton (hlocals hxy hn) rfl
  · refine C.reopen _ (reads_bind reads_term fun hle ht => expectClose_bind rfl ?_)
    refine spanFrom_bind hab fun hxy => reads_pure rfl ⟨?_, by simp [Decl.isPlain, typesOf]⟩
    have hn' := alike_mono hle hn
    exact (hlocals hxy hn').cons (alike_typesOf hxy hn' [] ht).singleton

theorem reads_namesBeforeBrace :
    C.Closes W C.alike namesBeforeBrace namesBeforeBrace := by
  refine reads_repeated (A := C.alike) Matching.alike_nil fun {W' xs ys} _ hl => ?_
  refine peek_bind fun {t t'} ht => ?_
  rw [← ht.kind]
  split_ifs with hk
  · rw [hk]
    exact close_bind rfl fun _ => reads_pure rfl hl
  · refine C.reopen _ (reads_bind reads_declaredName fun hle hs => reads_pure rfl ?_)
    exact (alike_mono hle hl).append hs.singleton

theorem reads_externalDecl (hab : C.spans a b) (attributes : List Attribute) :
    C.Closes W C.Declares (externalDecl a attributes) (externalDecl b attributes) := by
  refine next_bind fun {t t'} ht => ?_
  have htype : C.Closes W C.Declares
      (do Pure.pure [← typeDecl a (attributes ++ [.external])])
      (do Pure.pure [← typeDecl b (attributes ++ [.external])]) :=
    reads_bind (reads_typeDecl hab _) fun _ hd => reads_pure rfl hd
  rw [← ht.kind]
  dsimp only
  split
  · exact htype
  · exact htype
  · exact reads_predicate hab _
  · exact failExpected ht _

end Parse.Comparison

end Clausal
