import Clausal.Proofs.ComparedDeclarations

/-!
# Programs are read alike

Only inclusions add to the texts that have been seen. What is to be said of the declarations that two
runs give, and of the units in them, is an account; it is kept along a text if inclusions keep it.
-/
namespace Clausal.Parse.Comparison

/-- What is said of the declarations and the units that are read between two worlds. -/
structure Account (C : Comparison) where
  decls : World → World → List Decl → List Decl → Prop
  units : World → World → List (Digest × List Decl) → List (Digest × List Decl) → Prop
  declares : ∀ {W W' ds ds'}, W.Le W' → W.Quiet W' → C.Declares W' ds ds' → decls W W' ds ds'
  append : ∀ {W W' W'' ds ds' es es'}, W.Le W' → W'.Le W'' → decls W W' ds ds' →
    decls W' W'' es es' → decls W W'' (ds ++ es) (ds' ++ es')
  nil : ∀ {W}, units W W [] []
  snoc : ∀ {W W' W'' us us' u u'}, W.Le W' → W'.Le W'' → units W W' us us' →
    units W' W'' [u] [u'] → units W W'' (us ++ [u]) (us' ++ [u'])
  accumulated : ∀ {W W' us us' a b}, W.Le W' → units W W' us us' → C.spans a b →
    decls W W' [.accumulated a us] [.accumulated b us']

/-- The account that declarations are alike. -/
def alikeAccount (C : Comparison) : C.Account where
  decls _ W' ds ds' := C.alike W' ds ds'
  units _ W' us us' := C.alike W' us us'
  declares _ _ h := h.alike
  append _ hle hds hes := (alike_mono hle hds).append hes
  nil := Matching.alike_nil
  snoc _ hle hus hu := (alike_mono hle hus).append hu
  accumulated _ hus hab := by
    refine Matching.Alike.singleton fun r r' hj => ?_
    simp only [relabel, Decl.relabeled, Decl.relabeledUnits_eq_map]
    exact congrArg₂ Decl.accumulated (hj.span hab) (hus r r' hj)

namespace Account

variable {C : Comparison} (A : C.Account)

/-- Including a unit, wherever and under whatever name, keeps the account. -/
def Includes (incl incl' : Include) : Prop :=
  ∀ {W a b} name, C.spans a b → C.relates .within (fun _ => .within) W
    (fun W' u u' => A.units W W' [u] [u']) (incl a name) (incl' b name)

/-- Steps whose declarations are as the account says. -/
abbrev Declares (φ : Phase) (W : World) (p q : Parse (List Decl)) : Prop :=
  C.relates .within (fun _ => φ) W (fun W' ds ds' => A.decls W W' ds ds') p q

variable {A} {W : World} {a b : Span} {incl incl' : Include} (hincl : A.Includes incl incl')

/-- Including nothing in front changes nothing. -/
theorem decls_of_quiet {W' W'' : World} {ds ds' : List Decl} (hle : W.Le W') (hq : W.Quiet W')
    (hle' : W'.Le W'') (h : A.decls W' W'' ds ds') : A.decls W W'' ds ds' := by
  have hnil : A.decls W W' [] [] := A.declares hle hq ⟨Matching.alike_nil, by simp⟩
  exact A.append hle hle' hnil h

theorem declares_of_closes {p q : Parse (List Decl)} (h : C.Closes W C.Declares p q) :
    A.Declares .behind W p q :=
  weaken h fun hle hds => A.declares hle hds.1 hds.2

theorem declares_of_closes_one {p q : Parse Decl}
    (h : C.Closes W (fun W' d d' => C.Declares W' [d] [d']) p q) :
    A.Declares .behind W (do Pure.pure [← p]) (do Pure.pure [← q]) :=
  declares_of_closes (reads_bind h fun _ hd => reads_pure rfl hd)

include hincl

theorem relates_inclusion : C.relates .within (fun _ => .within) W
    (fun W' u u' => A.units W W' [u] [u']) (inclusion incl) (inclusion incl') := by
  refine next_bind fun {t t'} ht => ?_
  rw [← ht.kind]
  cases hk : t.kind with
  | ident name | string name => exact hincl name ht.span
  | _ => exact failExpected ht _

theorem declares_accumulateDecl (hab : C.spans a b) :
    A.Declares .behind W (do Pure.pure [← accumulateDecl incl a])
      (do Pure.pure [← accumulateDecl incl' b]) := by
  have hacc : C.relates .within (fun _ => .behind) W (fun W' d d' => A.decls W W' [d] [d'])
      (accumulateDecl incl a) (accumulateDecl incl' b) := by
    refine C.bind (separated_relates (L := fun W' us us' => W.Le W' ∧ A.units W W' us us')
      (A := fun W' W'' u u' => A.units W' W'' [u] [u']) ⟨.refl W, A.nil⟩ (fun _ hle h hu => ?_)
      fun _ => relates_inclusion hincl) fun hle hus => ?_
    · exact ⟨h.1.trans hle, A.snoc h.1 hle h.2 hu⟩
    · refine expectClose_bind rfl (spanFrom_bind hab fun hxy => C.pure rfl ?_)
      exact A.accumulated hle hus.2 hxy
  exact C.bind hacc fun _ hd => C.pure rfl hd

theorem declares_keywordDecl (hab : C.spans a b) (attributes : List Attribute) (keyword : Keyword) :
    A.Declares .behind W (keywordDecl incl a attributes keyword)
      (keywordDecl incl' b attributes keyword) := by
  cases keyword with
  | nameSpace =>
    refine declares_of_closes (reads_bind reads_declaredName fun _ hs => expectClose_bind rfl ?_)
    refine spanFrom_bind hab fun hxy => reads_pure rfl (declares_singleton ?_ rfl)
    exact fun r r' hj => congrArg₂ Decl.openNamespace (hj.span hxy) (hs r r' hj)
  | «constraint» =>
    refine declares_of_closes (reads_bind reads_namesBeforeBrace fun _ hn => ?_)
    refine spanFrom_bind hab fun hxy => reads_pure rfl (declares_singleton ?_ rfl)
    exact fun r r' hj => congrArg₂ Decl.openConstraint (hj.span hxy) (hn r r' hj)
  | shorten =>
    refine declares_of_closes (reads_bind (reads_separated reads_shorthandGroup) fun _ hg => ?_)
    refine expectClose_bind rfl (spanFrom_bind hab fun hxy => reads_pure rfl ?_)
    refine declares_singleton (fun r r' hj => congrArg₂ Decl.shorten (hj.span hxy) ?_) rfl
    have hflat := congrArg List.flatten (hg r r' hj)
    simpa only [relabel, List.map_flatten] using hflat
  | localNames => exact declares_of_closes (reads_localDecls hab)
  | type | kind => exact declares_of_closes_one (reads_typeDecl hab attributes)
  | external => exact declares_of_closes (reads_externalDecl hab attributes)
  | mode =>
    refine declares_of_closes (reads_bind (reads_separated reads_mode) fun _ hm => ?_)
    refine expectClose_bind rfl (reads_pure rfl (declares_singleton ?_ rfl))
    exact fun r r' hj => congrArg Decl.modes (hm r r' hj)
  | pred => exact declares_of_closes (reads_predicate hab attributes)
  | macroDef => exact declares_of_closes_one (reads_macroDecl hab)
  | typeAbbreviation => exact declares_of_closes_one (reads_typeAbbreviation hab)
  | rule => exact declares_of_closes_one (reads_ruleDecl hab attributes)
  | accumulate => exact declares_accumulateDecl hincl hab
  | fixity f =>
    refine declares_of_closes (reads_bind (reads_operators f) fun _ _ => expectClose_bind rfl ?_)
    refine spanFrom_bind hab fun hxy => reads_pure rfl (declares_singleton ?_ rfl)
    exact fun r r' hj => congrArg Decl.ignored (hj.span hxy)

theorem declares_attributedDecl (hab : C.spans a b) :
    A.Declares .behind W (attributedDecl incl a) (attributedDecl incl' b) := by
  refine bind_reads reads_attributes fun {W₁ x y} hle hq hxy => peek_bind fun {t t'} ht => ?_
  subst hxy
  rw [← ht.kind]
  cases hk : Keyword.of? t.kind with
  | none =>
    have hclause : C.Closes W₁ C.Declares
        (do
          let body ← term
          let _ ← expect .stop
          Pure.pure [.clause ⟨← Parse.spanFrom a, x, body⟩])
        (do
          let body ← term
          let _ ← expect .stop
          Pure.pure [.clause ⟨← Parse.spanFrom b, x, body⟩]) := by
      refine reads_bind reads_term fun _ ht => expectClose_bind rfl (spanFrom_bind hab fun hxy => ?_)
      refine reads_pure rfl (declares_singleton (fun r r' hj => ?_) rfl)
      exact congrArg₂ (fun span body => Decl.clause ⟨span, x, body⟩) (hj.span hxy) (ht.alike r r' hj)
    exact C.reopen _ (weaken (declares_of_closes hclause) (decls_of_quiet hle hq))
  | some keyword =>
    dsimp only
    split_ifs
    · exact failAt ht.span _
    · refine C.reopen _ (next_bind fun _ => ?_)
      exact weaken (declares_keywordDecl hincl hab x keyword) (decls_of_quiet hle hq)

theorem declares_declaration : A.Declares .behind W (declaration incl) (declaration incl') := by
  refine peek_bind fun {t t'} ht => ?_
  have hbrace : ∀ {kind : TokenKind} (f : Span → Decl), t.kind = kind → kind.closes = true →
      (∀ s, (f s).isPlain = true) → (∀ (r : Relabeling) s, relabel r (f s) = f (r.span s)) →
      C.relates (.before t.kind) (fun _ => .behind) W (fun W' ds ds' => A.decls W W' ds ds')
        (do
          let _ ← Parse.next
          Pure.pure [f t.span])
        (do
          let _ ← Parse.next
          Pure.pure [f t'.span]) := by
    intro kind f hk hc hp hf
    rw [hk]
    refine close_bind hc fun _ => C.pure rfl (A.declares (.refl W) (.refl W) ?_)
    refine declares_singleton (fun r r' hj => ?_) (hp _)
    rw [hf, hf, hj.span ht.span]
  rw [← ht.kind]
  split
  · next hk => exact hbrace .openBlock hk rfl (fun _ => rfl) fun _ _ => rfl
  · next hk => exact hbrace .close hk rfl (fun _ => rfl) fun _ _ => rfl
  · exact C.reopen _ (declares_attributedDecl hincl ht.span)

/-- All declarations of a text, where a new declaration may begin behind another. -/
theorem declares_declarations
    (hagain : ∀ {W} {p q : Parse (List Decl)}, A.Declares .behind W p q → A.Declares .within W p q) :
    A.Declares .within W (declarations incl) (declarations incl') := by
  have hnil : A.decls W W [] [] := A.declares (.refl W) (.refl W) ⟨Matching.alike_nil, by simp⟩
  refine weaken (repeated (A := fun W' ds ds' => W.Le W' ∧ A.decls W W' ds ds')
    (B := fun W' ds ds' => W.Le W' ∧ A.decls W W' ds ds') ⟨.refl W, hnil⟩
    fun {W' ds ds'} _ h => ?_) fun _ h => h.2
  refine peek_bind fun {t t'} ht => C.reopen _ ?_
  rw [← ht.kind]
  split_ifs
  · exact C.pure rfl h
  · refine C.bind (hagain (declares_declaration hincl)) fun hle hes => C.pure rfl ?_
    exact ⟨h.1.trans hle, A.append h.1 hle h.2 hes⟩

end Account

end Clausal.Parse.Comparison
