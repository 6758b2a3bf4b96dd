import Clausal.Proofs.IncludedUnits
import Clausal.Proofs.Interchangeable

/-!
# Nested programs up to places

Nesting does not look at spans, but a rule without a name is named by its own. So flat programs that
are the same up to spans give nested programs that are the same up to spans and to those names. It does not
matter either whether the units of a flat program include a text that the other has in place.
-/
namespace Clausal

/-- The same rule up to spans. A rule without a name goes by its span. -/
structure Rule.Alike (r r' : Rule RuleOptions) : Prop where
  matched : SameParts r.matched r'.matched
  removed : SameParts r.removed r'.removed
  guard : SameParts r.guard r'.guard
  goal : SameParts r.goal r'.goal
  onlyIf : r.attributes.onlyIf = r'.attributes.onlyIf
  name : r.attributes.id = r'.attributes.id ∨
    r.attributes.id = r.span.render ∧ r'.attributes.id = r'.span.render

/-- The same scope up to spans, with blocks that are related. -/
inductive Scope.Alike {β : Type} (R : β → β → Prop) : Scope β → Scope β → Prop
  | intro {macros macros' : List MacroDef} {types types' : List (TypeDecl TypeOption)}
      {abbreviations abbreviations' : List TypeAbbreviation} {modes modes' : List Mode}
      {body body' : List β} (hmacros : SameParts macros macros') (htypes : SameParts types types')
      (habbreviations : SameParts abbreviations abbreviations') (hmodes : SameParts modes modes')
      (hbody : List.Forall₂ R body body') :
      Scope.Alike R ⟨macros, types, abbreviations, modes, body⟩
        ⟨macros', types', abbreviations', modes', body'⟩

theorem Scope.alike_iff {β : Type} {R : β → β → Prop} {s s' : Scope β} :
    Scope.Alike R s s' ↔ SameParts s.macros s'.macros ∧ SameParts s.types s'.types ∧
      SameParts s.abbreviations s'.abbreviations ∧ SameParts s.modes s'.modes ∧
      List.Forall₂ R s.body s'.body := by
  constructor
  · rintro ⟨hm, ht, ha, ho, hb⟩
    exact ⟨hm, ht, ha, ho, hb⟩
  · rintro ⟨hm, ht, ha, ho, hb⟩
    exact .intro hm ht ha ho hb

/-- The same block up to spans and the names that rules have from them. -/
inductive Block.Alike : Block → Block → Prop
  | locals {names : List Symbol} {s s' : Scope Block} (h : Scope.Alike Block.Alike s s') :
      Block.Alike (.locals names s) (.locals names s')
  | clauses {cs cs' : List (Clause ClauseOptions)} (h : SameParts cs cs') :
      Block.Alike (.clauses cs) (.clauses cs')
  | namespaced {name : Symbol} {s s' : Scope Block} (h : Scope.Alike Block.Alike s s') :
      Block.Alike (.namespaced name s) (.namespaced name s')
  | shortened {a a' : List Shorthand} {s s' : Scope Block} (ha : SameParts a a')
      (h : Scope.Alike Block.Alike s s') : Block.Alike (.shortened a s) (.shortened a' s')
  | constraints {names : List Symbol} {rs rs' : List (Rule RuleOptions)} {s s' : Scope Block}
      (hr : List.Forall₂ Rule.Alike rs rs') (h : Scope.Alike Block.Alike s s') :
      Block.Alike (.constraints names rs s) (.constraints names rs' s')

/-- The same nested program up to spans and the names that rules have from them. -/
abbrev NestedProgram.Alike (p p' : NestedProgram) : Prop := Scope.Alike Block.Alike p p'

/-- Both fail, or both succeed with related values. -/
abbrev BothOrNeither {ε ε' α β : Type} (R : α → β → Prop) (x : Except ε α) (y : Except ε' β) : Prop :=
  ExceptRel (fun _ _ => True) R x y

theorem BothOrNeither.bind {ε ε' α β γ δ : Type} {R : α → β → Prop} {S : γ → δ → Prop} {x : Except ε α}
    {y : Except ε' β} {f : α → Except ε γ} {g : β → Except ε' δ} (h : BothOrNeither R x y)
    (hf : ∀ {a b}, R a b → BothOrNeither S (f a) (g b)) : BothOrNeither S (x >>= f) (y >>= g) := by
  cases x <;> cases y
  · trivial
  · exact h.elim
  · exact h.elim
  · exact hf h

structure Draft.Alike (d d' : Draft) : Prop where
  scope : Scope.Alike Block.Alike d.scope d'.scope
  clauses : SameParts d.clauses d'.clauses
  rules : List.Forall₂ Rule.Alike d.rules d'.rules
  locals : d.locals = d'.locals

namespace Draft

variable {d d' : Draft}

theorem Alike.empty : Draft.Alike .empty .empty :=
  ⟨⟨rfl, rfl, rfl, rfl, .nil⟩, rfl, .nil, rfl⟩

theorem Alike.addBlock (h : d.Alike d') {b b' : Block} (hb : b.Alike b') :
    (d.addBlock b).Alike (d'.addBlock b') := by
  obtain ⟨hm, ht, ha, ho, hbody⟩ := Scope.alike_iff.1 h.scope
  have hscope : Scope.Alike Block.Alike (d.addBlock b).scope (d'.addBlock b').scope :=
    Scope.alike_iff.2 ⟨hm, ht, ha, ho, List.rel_append hbody (.cons hb .nil)⟩
  exact ⟨hscope, h.clauses, h.rules, h.locals⟩

theorem Alike.flush (h : d.Alike d') : d.flush.Alike d'.flush := by
  obtain ⟨scope, clauses, rules, locals⟩ := d
  obtain ⟨scope', clauses', rules', locals'⟩ := d'
  have hc : SameParts clauses clauses' := h.clauses
  cases clauses with
  | nil =>
    cases clauses' with
    | nil => exact h
    | cons c' cs' => cases hc
  | cons c cs =>
    cases clauses' with
    | nil => cases hc
    | cons c' cs' =>
      have hblock := h.addBlock (.clauses hc)
      exact ⟨hblock.scope, rfl, hblock.rules, hblock.locals⟩

end Draft

inductive Opening.Alike : Opening → Opening → Prop
  | braces : Opening.Alike .braces .braces
  | namespaced (name : Symbol) : Opening.Alike (.namespaced name) (.namespaced name)
  | constraint (names : List Symbol) : Opening.Alike (.constraint names) (.constraint names)
  | shorten {a a' : List Shorthand} (h : SameParts a a') : Opening.Alike (.shorten a) (.shorten a')

namespace Opening.Alike

variable {o o' : Opening} (h : o.Alike o')

include h

theorem isShorten_eq : o.isShorten = o'.isShorten := by
  cases h <;> rfl

theorem isConstraint_eq : o.isConstraint = o'.isConstraint := by
  cases h <;> rfl

theorem braces_iff : o = .braces ↔ o' = .braces := by
  cases h <;> simp

end Opening.Alike

structure Frame.Alike (f f' : Frame) : Prop where
  opening : f.opening.Alike f'.opening
  draft : f.draft.Alike f'.draft

theorem Frame.Alike.toBlock {f f' : Frame} (h : f.Alike f') : f.toBlock.Alike f'.toBlock := by
  obtain ⟨opening, span, draft⟩ := f
  obtain ⟨opening', span', draft'⟩ := f'
  obtain ⟨hopening, hdraft⟩ := h
  obtain ⟨hscope, -, hrules, hlocals⟩ := hdraft.flush
  cases hopening with
  | braces =>
    simp only [Frame.toBlock, hlocals]
    exact .locals hscope
  | namespaced name => exact .namespaced hscope
  | constraint names => exact .constraints hrules hscope
  | shorten ha => exact .shortened ha hscope

/-- The same blocks are open. The text with the digest `h` has been entered by the first at most. -/
structure Nesting.Alike (h : Digest) (entered : Prop) (n n' : Nesting) : Prop where
  outermost : n.outermost.Alike n'.outermost
  frames : List.Forall₂ Frame.Alike n.frames n'.frames
  seen : ∀ d, d ≠ h → (d ∈ n.seen ↔ d ∈ n'.seen)
  left : h ∈ n.seen → entered
  right : h ∉ n'.seen

namespace Nesting

variable {h : Digest} {entered : Prop} {n n' : Nesting}

theorem Alike.onTop (hn : n.Alike h entered n') {f g : Draft → Draft}
    (hf : ∀ {d d'}, Draft.Alike d d' → (f d).Alike (g d')) :
    (n.onTop f).Alike h entered (n'.onTop g) := by
  obtain ⟨outermost, frames, seen⟩ := n
  obtain ⟨outermost', frames', seen'⟩ := n'
  obtain ⟨ho, hframes, hseen, hleft, hright⟩ := hn
  change List.Forall₂ Frame.Alike frames frames' at hframes
  cases hframes with
  | nil => exact ⟨hf ho, .nil, hseen, hleft, hright⟩
  | cons hframe hrest => exact ⟨ho, .cons ⟨hframe.opening, hf hframe.draft⟩ hrest, hseen, hleft, hright⟩

theorem Alike.openBlock (hn : n.Alike h entered n') {o o' : Opening} (ho : o.Alike o') (a b : Span) :
    (n.openBlock o a).Alike h entered (n'.openBlock o' b) := by
  obtain ⟨houter, hframes, hseen, hleft, hright⟩ := hn.onTop Draft.Alike.flush
  exact ⟨houter, .cons ⟨ho, .empty⟩ hframes, hseen, hleft, hright⟩

theorem Alike.closeTop (hn : n.Alike h entered n') : n.closeTop.Alike h entered n'.closeTop := by
  obtain ⟨outermost, frames, seen⟩ := n
  obtain ⟨outermost', frames', seen'⟩ := n'
  have hframes : List.Forall₂ Frame.Alike frames frames' := hn.frames
  cases hframes with
  | nil => exact hn
  | @cons frame frame' rest rest' hframe hrest =>
    have hbelow : Nesting.Alike h entered ⟨outermost, rest, seen⟩ ⟨outermost', rest', seen'⟩ :=
      ⟨hn.outermost, hrest, hn.seen, hn.left, hn.right⟩
    exact hbelow.onTop fun hd => hd.addBlock hframe.toBlock

theorem foldl_closeTop_alike (fs gs : List Frame) (hlen : fs.length = gs.length)
    (hn : n.Alike h entered n') :
    (fs.foldl (fun n _ => n.closeTop) n).Alike h entered (gs.foldl (fun n _ => n.closeTop) n') := by
  induction fs generalizing gs n n' with
  | nil =>
    cases gs with
    | nil => exact hn
    | cons g gs => cases hlen
  | cons f fs ih =>
    cases gs with
    | nil => cases hlen
    | cons g gs =>
      have hlen' : fs.length = gs.length := by simpa using hlen
      exact ih gs hlen' hn.closeTop

theorem Alike.closeShortens (hn : n.Alike h entered n') :
    n.closeShortens.Alike h entered n'.closeShortens := by
  refine foldl_closeTop_alike _ _ ?_ hn
  have hframes := hn.frames
  generalize n.frames = frames, n'.frames = frames' at hframes
  induction hframes with
  | nil => rfl
  | cons hframe _ ih =>
    simp only [List.takeWhile_cons, hframe.opening.isShorten_eq]
    split_ifs
    · simp only [List.length_cons, ih]
    · rfl

theorem Alike.closeBlock (hn : n.Alike h entered n') (a b : Span) :
    BothOrNeither (Alike h entered) (n.closeBlock a) (n'.closeBlock b) := by
  have hclosed := hn.closeShortens
  have hempty : n.closeShortens.frames.isEmpty = n'.closeShortens.frames.isEmpty := by
    have hframes := hclosed.frames
    generalize n.closeShortens.frames = frames, n'.closeShortens.frames = frames' at hframes
    cases hframes <;> rfl
  unfold Nesting.closeBlock
  dsimp only
  rw [hempty]
  split_ifs
  · trivial
  · exact hclosed.closeTop

theorem onScope_alike {fs gs : List Frame} (hframes : List.Forall₂ Frame.Alike fs gs)
    {allowed : Opening → Bool} {f g : Draft → Draft}
    (ha : ∀ {o o'}, Opening.Alike o o' → allowed o = allowed o')
    (hf : ∀ {d d'}, Draft.Alike d d' → (f d).Alike (g d')) :
    (onScope allowed f fs = none ∧ onScope allowed g gs = none) ∨
      ∃ fs' gs', onScope allowed f fs = some fs' ∧ onScope allowed g gs = some gs' ∧
        List.Forall₂ Frame.Alike fs' gs' := by
  induction hframes with
  | nil => exact .inl ⟨rfl, rfl⟩
  | @cons frame frame' rest rest' hframe hrest ih =>
    obtain ⟨hopening, hdraft⟩ := hframe
    simp only [onScope, hopening.isShorten_eq, ha hopening]
    split_ifs
    · rcases ih with ⟨hl, hr⟩ | ⟨fs', gs', hl, hr, hout⟩
      · exact .inl ⟨by rw [hl]; rfl, by rw [hr]; rfl⟩
      · exact .inr ⟨_, _, by rw [hl]; rfl, by rw [hr]; rfl, .cons ⟨hopening, hdraft⟩ hout⟩
    · exact .inr ⟨_, _, rfl, rfl, .cons ⟨hopening, hf hdraft⟩ hrest⟩
    · exact .inl ⟨rfl, rfl⟩

theorem located_alike {α : Type} {R : α → α → Prop} {x y : Except NestingFault α} (a b : Span)
    (h : BothOrNeither R x y) : BothOrNeither R (located a x) (located b y) := by
  cases x <;> cases y <;> exact h

theorem bothOrNeither_self {ε α : Type} (x : Except ε α) : BothOrNeither Eq x x := by
  cases x
  · trivial
  · rfl

theorem Alike.addClause (hn : n.Alike h entered n') {c c' : Clause (List Attribute)}
    (hc : SameParts c c') : BothOrNeither (Alike h entered) (n.addClause c) (n'.addClause c') := by
  obtain ⟨a, attributes, body⟩ := c
  obtain ⟨b, attributes', body'⟩ := c'
  obtain ⟨-, rfl, hbody⟩ := Clause.mk.inj hc
  refine (located_alike a b (bothOrNeither_self _)).bind fun {options _} ho => ?_
  subst ho
  refine hn.onTop fun {d d'} hd => ⟨hd.scope, hd.clauses.append (.singleton ?_), hd.rules, hd.locals⟩
  exact congrArg (Clause.mk _ options) hbody

theorem Alike.addLocals (hn : n.Alike h entered n') (a b : Span) (names : List Symbol) :
    BothOrNeither (Alike h entered) (n.addLocals a names) (n'.addLocals b names) := by
  have hallowed : ∀ {o o'}, Opening.Alike o o' → decide (o = .braces) = decide (o' = .braces) :=
    fun ho => decide_eq_decide.2 ho.braces_iff
  have hscope := onScope_alike hn.frames hallowed (f := fun d => { d with locals := d.locals ++ names })
    (g := fun d => { d with locals := d.locals ++ names }) fun hd =>
      ⟨hd.scope, hd.clauses, hd.rules, by rw [hd.locals]⟩
  unfold Nesting.addLocals
  rcases hscope with ⟨hl, hr⟩ | ⟨fs, gs, hl, hr, hframes⟩
  · rw [hl, hr]
    trivial
  · rw [hl, hr]
    exact ⟨hn.outermost, hframes, hn.seen, hn.left, hn.right⟩

theorem ruleOptions_alike (a b : Span) (attributes : List Attribute) :
    BothOrNeither (fun o o' => o.onlyIf = o'.onlyIf ∧
        (o.id = o'.id ∨ o.id = a.render ∧ o'.id = b.render))
      (RuleOptions.ofAttributes a attributes) (RuleOptions.ofAttributes b attributes) := by
  refine (bothOrNeither_self _).bind fun {o _} ho => ?_
  subst ho
  refine ⟨rfl, ?_⟩
  cases o.id with
  | none => exact .inr ⟨rfl, rfl⟩
  | some name => exact .inl rfl

theorem Alike.addRule (hn : n.Alike h entered n') {r r' : Rule (List Attribute)} (hr : SameParts r r') :
    BothOrNeither (Alike h entered) (n.addRule r) (n'.addRule r') := by
  obtain ⟨matched, removed, guard, goal, attributes, a⟩ := r
  obtain ⟨matched', removed', guard', goal', attributes', b⟩ := r'
  obtain ⟨hmatched, hremoved, hguard, hgoal, rfl, -⟩ := Rule.mk.inj hr
  refine (located_alike a b (ruleOptions_alike a b attributes)).bind fun {o o'} ho => ?_
  obtain ⟨honly, hname⟩ := ho
  have hrule : Rule.Alike ⟨matched, removed, guard, goal, o, a⟩ ⟨matched', removed', guard', goal', o', b⟩ :=
    ⟨hmatched, hremoved, hguard, hgoal, honly, hname⟩
  have hscope := onScope_alike hn.frames Opening.Alike.isConstraint_eq
    (f := fun d => { d with rules := d.rules ++ [⟨matched, removed, guard, goal, o, a⟩] })
    (g := fun d => { d with rules := d.rules ++ [⟨matched', removed', guard', goal', o', b⟩] }) fun hd =>
      ⟨hd.scope, hd.clauses, List.rel_append hd.rules (.cons hrule .nil), hd.locals⟩
  dsimp only
  rcases hscope with ⟨hl, hr⟩ | ⟨fs, gs, hl, hr, hframes⟩
  · rw [hl, hr]
    trivial
  · rw [hl, hr]
    exact ⟨hn.outermost, hframes, hn.seen, hn.left, hn.right⟩

theorem Alike.addType (hn : n.Alike h entered n') {t t' : TypeDecl (List Attribute)}
    (ht : SameParts t t') : BothOrNeither (Alike h entered) (n.addType t) (n'.addType t') := by
  obtain ⟨a, attributes, name, type⟩ := t
  obtain ⟨b, attributes', name', type'⟩ := t'
  obtain ⟨-, rfl, hname, htype⟩ := TypeDecl.mk.inj ht
  refine (located_alike a b (bothOrNeither_self _)).bind fun {option _} ho => ?_
  subst ho
  refine hn.onTop fun {d d'} hd => ⟨?_, hd.clauses, hd.rules, hd.locals⟩
  obtain ⟨hm, hts, ha, ho, hb⟩ := Scope.alike_iff.1 hd.scope
  have htyped : SameParts (TypeDecl.mk a option name type) ⟨b, option, name', type'⟩ :=
    congrArg₂ (TypeDecl.mk _ option) hname htype
  exact Scope.alike_iff.2 ⟨hm, hts.append htyped.singleton, ha, ho, hb⟩

theorem Alike.addTypes (hn : n.Alike h entered n') {ts ts' : List (TypeDecl (List Attribute))}
    (ht : SameParts ts ts') :
    BothOrNeither (Alike h entered) (ts.foldlM Nesting.addType n) (ts'.foldlM Nesting.addType n') := by
  have hall := ht.forall₂
  clear ht
  induction hall generalizing n n' with
  | nil => exact hn
  | cons hfirst _ ih =>
    rw [List.foldlM_cons, List.foldlM_cons]
    exact (hn.addType hfirst).bind ih

theorem Alike.onScopeOf (hn : n.Alike h entered n') {f g : Scope Block → Scope Block}
    (hf : ∀ {s s'}, Scope.Alike Block.Alike s s' → Scope.Alike Block.Alike (f s) (g s')) :
    (n.onTop fun d => { d with scope := f d.scope }).Alike h entered
      (n'.onTop fun d => { d with scope := g d.scope }) :=
  hn.onTop fun hd => ⟨hf hd.scope, hd.clauses, hd.rules, hd.locals⟩

theorem Alike.addModes (hn : n.Alike h entered n') {ms ms' : List Mode} (hm : SameParts ms ms') :
    (n.addModes ms).Alike h entered (n'.addModes ms') := by
  refine hn.onScopeOf (f := fun s => { s with modes := s.modes ++ ms })
    (g := fun s => { s with modes := s.modes ++ ms' }) fun hs => ?_
  obtain ⟨hmacros, ht, ha, ho, hb⟩ := Scope.alike_iff.1 hs
  exact Scope.alike_iff.2 ⟨hmacros, ht, ha, ho.append hm, hb⟩

theorem Alike.addMacro (hn : n.Alike h entered n') {m m' : MacroDef} (hm : SameParts m m') :
    (n.addMacro m).Alike h entered (n'.addMacro m') := by
  refine hn.onScopeOf (f := fun s => { s with macros := s.macros ++ [m] })
    (g := fun s => { s with macros := s.macros ++ [m'] }) fun hs => ?_
  obtain ⟨hmacros, ht, ha, ho, hb⟩ := Scope.alike_iff.1 hs
  exact Scope.alike_iff.2 ⟨hmacros.append hm.singleton, ht, ha, ho, hb⟩

theorem Alike.addAbbreviation (hn : n.Alike h entered n') {a a' : TypeAbbreviation} (hab : SameParts a a') :
    (n.addAbbreviation a).Alike h entered (n'.addAbbreviation a') := by
  refine hn.onScopeOf (f := fun s => { s with abbreviations := s.abbreviations ++ [a] })
    (g := fun s => { s with abbreviations := s.abbreviations ++ [a'] }) fun hs => ?_
  obtain ⟨hmacros, ht, ha, ho, hb⟩ := Scope.alike_iff.1 hs
  exact Scope.alike_iff.2 ⟨hmacros, ht, ha.append hab.singleton, ho, hb⟩

/-- Both go into a text that neither has been in. -/
theorem Alike.enter (hn : n.Alike h entered n') {d : Digest} (hd : d ≠ h) :
    Nesting.Alike h entered { n with seen := d :: n.seen } { n' with seen := d :: n'.seen } where
  outermost := hn.outermost
  frames := hn.frames
  seen e he := by rw [List.mem_cons, List.mem_cons, hn.seen e he]
  left hmem := hn.left ((List.mem_cons.1 hmem).resolve_left (Ne.symm hd))
  right hmem := hn.right ((List.mem_cons.1 hmem).resolve_left (Ne.symm hd))

mutual

theorem add_alike {n n' : Nesting} (hn : n.Alike h entered n') (d d' : Decl) (hd : SameParts d d')
    (hh : h ∉ d'.entries.map (·.1)) : BothOrNeither (Alike h entered) (n.add d) (n'.add d') := by
  match d with
  | .openBlock a =>
    cases d' with
    | openBlock b => exact hn.openBlock .braces a b
    | _ => cases hd
  | .openNamespace a name =>
    cases d' with
    | openNamespace b name' =>
      obtain rfl : name = name' := (Decl.openNamespace.inj hd).2
      exact hn.openBlock (.namespaced name) a b
    | _ => cases hd
  | .openConstraint a names =>
    cases d' with
    | openConstraint b names' =>
      obtain rfl := (show SameParts names names' from (Decl.openConstraint.inj hd).2).symbols_eq
      exact hn.openBlock (.constraint names) a b
    | _ => cases hd
  | .shorten a shorthands =>
    cases d' with
    | shorten b shorthands' => exact hn.openBlock (.shorten (Decl.shorten.inj hd).2) a b
    | _ => cases hd
  | .close a =>
    cases d' with
    | close b => exact hn.closeBlock a b
    | _ => cases hd
  | .accumulated a units =>
    cases d' with
    | accumulated b units' => exact addUnits_alike hn units units' (Decl.accumulated.inj hd).2 hh
    | _ => cases hd
  | .clause c =>
    cases d' with
    | clause c' => exact hn.addClause (Decl.clause.inj hd)
    | _ => cases hd
  | .locals a names =>
    cases d' with
    | locals b names' =>
      obtain rfl := (show SameParts names names' from (Decl.locals.inj hd).2).symbols_eq
      exact hn.addLocals a b names
    | _ => cases hd
  | .modes ms =>
    cases d' with
    | modes ms' => exact hn.addModes (Decl.modes.inj hd)
    | _ => cases hd
  | .rule r =>
    cases d' with
    | rule r' => exact hn.addRule (Decl.rule.inj hd)
    | _ => cases hd
  | .macroDef m =>
    cases d' with
    | macroDef m' => exact hn.addMacro (Decl.macroDef.inj hd)
    | _ => cases hd
  | .types ts =>
    cases d' with
    | types ts' => exact hn.addTypes (Decl.types.inj hd)
    | _ => cases hd
  | .typeAbbreviation a =>
    cases d' with
    | typeAbbreviation a' => exact hn.addAbbreviation (Decl.typeAbbreviation.inj hd)
    | _ => cases hd
  | .ignored a =>
    cases d' with
    | ignored b => exact hn
    | _ => cases hd

theorem addUnits_alike {n n' : Nesting} (hn : n.Alike h entered n')
    (units units' : List (Digest × List Decl))
    (hd : Decl.relabeledUnits .unlocated units = Decl.relabeledUnits .unlocated units')
    (hh : h ∉ (unitEntries units').map (·.1)) :
    BothOrNeither (Alike h entered) (n.addUnits units) (n'.addUnits units') := by
  match units with
  | [] =>
    cases units' with
    | nil => exact hn
    | cons u us => cases hd
  | (digest, decls) :: rest =>
    cases units' with
    | nil => cases hd
    | cons u' rest' =>
      obtain ⟨digest', decls'⟩ := u'
      obtain ⟨hfirst, hrest⟩ := List.cons.inj hd
      obtain ⟨rfl, hdecls⟩ := Prod.mk.inj hfirst
      simp only [unitEntries, List.map_cons, List.map_append, List.mem_cons, List.mem_append,
        not_or] at hh
      obtain ⟨hdigest, hinside, hothers⟩ := hh
      simp only [addUnits, hn.seen digest (Ne.symm hdigest)]
      split_ifs
      · exact addUnits_alike hn rest rest' hrest hothers
      · exact (addAll_alike (hn.enter (Ne.symm hdigest)) decls decls' hdecls hinside).bind fun hm =>
          addUnits_alike hm rest rest' hrest hothers

theorem addAll_alike {n n' : Nesting} (hn : n.Alike h entered n') (ds ds' : List Decl)
    (hd : Decl.relabeledAll .unlocated ds = Decl.relabeledAll .unlocated ds')
    (hh : h ∉ (entriesOf ds').map (·.1)) :
    BothOrNeither (Alike h entered) (n.addAll ds) (n'.addAll ds') := by
  match ds with
  | [] =>
    cases ds' with
    | nil => exact hn
    | cons d ds' => cases hd
  | d :: rest =>
    cases ds' with
    | nil => cases hd
    | cons d' rest' =>
      obtain ⟨hfirst, hrest⟩ := List.cons.inj hd
      simp only [entriesOf, List.map_append, List.mem_append, not_or] at hh
      simp only [addAll]
      exact (add_alike hn d d' hfirst hh.1).bind fun hm => addAll_alike hm rest rest' hrest hh.2

end

theorem Alike.finish (hn : n.Alike h entered n') :
    BothOrNeither NestedProgram.Alike n.finish n'.finish := by
  have hclosed := hn.closeShortens
  have hframes := hclosed.frames
  unfold Nesting.finish
  dsimp only
  generalize n.closeShortens = m, n'.closeShortens = m' at hclosed hframes
  obtain ⟨outermost, frames, seen⟩ := m
  obtain ⟨outermost', frames', seen'⟩ := m'
  change List.Forall₂ Frame.Alike frames frames' at hframes
  cases hframes with
  | nil => exact hclosed.outermost.flush.scope
  | cons _ _ => trivial

theorem addAll_append (n : Nesting) (ds es : List Decl) :
    n.addAll (ds ++ es) = n.addAll ds >>= fun n => n.addAll es := by
  induction ds generalizing n with
  | nil => rfl
  | cons d ds ih =>
    rw [List.cons_append, addAll, addAll]
    cases n.add d with
    | error e => rfl
    | ok m => exact ih m

/-- A unit that is included for the first time is nested as if its text stood in its place. -/
theorem addAll_accumulated {n : Nesting} {digest : Digest} (hd : digest ∉ n.seen) (span : Span)
    (ds : List Decl) :
    n.addAll [.accumulated span [(digest, ds)]] = Nesting.addAll { n with seen := digest :: n.seen } ds := by
  simp only [addAll, add, addUnits, if_neg hd]
  cases Nesting.addAll { n with seen := digest :: n.seen } ds <;> rfl

end Nesting

theorem Decl.of_sameParts_accumulated {d : Decl} {span : Span} {digest : Digest} {unit : List Decl}
    (h : SameParts d (.accumulated span [(digest, unit)])) :
    ∃ span' unit', d = .accumulated span' [(digest, unit')] ∧ SameParts unit' unit := by
  cases d with
  | accumulated span' units =>
    have hunits := (Decl.accumulated.inj h).2
    rw [Decl.relabeledUnits_eq_map, Decl.relabeledUnits_eq_map] at hunits
    obtain ⟨⟨digest', unit'⟩, rest, rfl, hfirst, hrest⟩ := SameParts.of_cons hunits
    obtain ⟨rfl, hunit⟩ := Prod.mk.inj hfirst
    obtain rfl := List.map_eq_nil_iff.1 hrest
    exact ⟨span', unit', rfl, hunit⟩
  | _ => cases h

/-- Behind some declarations, a unit may be included or its text may stand in its place. -/
theorem nest_alike {digest : Digest} {span : Span} {front unit back rest rest' : List Decl}
    (hrest : SameParts rest (.accumulated span [(digest, unit)] :: back))
    (hrest' : SameParts rest' (unit ++ back)) (hd : digest ∉ (entriesOf (front ++ rest')).map (·.1)) :
    BothOrNeither NestedProgram.Alike (nest (front ++ rest)) (nest (front ++ rest')) := by
  obtain ⟨d, back₁, rfl, hd₁, hback₁⟩ := hrest.of_cons
  obtain ⟨span₁, unit₁, rfl, hunit₁⟩ := Decl.of_sameParts_accumulated hd₁
  obtain ⟨unit₂, back₂, rfl, hunit₂, hback₂⟩ := hrest'.of_append
  simp only [entriesOf_append, List.map_append, List.mem_append, not_or] at hd
  obtain ⟨hfront, hunit, hback⟩ := hd
  have hstart : Nesting.initial.Alike digest False .initial :=
    ⟨.empty, .nil, fun _ _ => Iff.rfl, by simp [Nesting.initial], by simp [Nesting.initial]⟩
  have hall : ∀ {ds ds' : List Decl}, SameParts ds ds' →
      Decl.relabeledAll .unlocated ds = Decl.relabeledAll .unlocated ds' := by
    intro ds ds' hs
    rwa [Decl.relabeledAll_eq_map, Decl.relabeledAll_eq_map]
  have hsplit : front ++ (Decl.accumulated span₁ [(digest, unit₁)] :: back₁) =
      front ++ ([.accumulated span₁ [(digest, unit₁)]] ++ back₁) := rfl
  simp only [nest, hsplit, Nesting.addAll_append, bind_assoc]
  refine (Nesting.addAll_alike hstart front front rfl hfront).bind fun {n n'} hn => ?_
  rw [Nesting.addAll_accumulated fun hmem => hn.left hmem]
  have hentered : Nesting.Alike digest True { n with seen := digest :: n.seen } n' := by
    refine ⟨hn.outermost, hn.frames, fun d hne => ?_, fun _ => trivial, hn.right⟩
    rw [List.mem_cons, or_iff_right hne, hn.seen d hne]
  have hunits := hall (hunit₁.trans hunit₂.symm)
  have hbacks := hall (hback₁.trans hback₂.symm)
  refine (Nesting.addAll_alike hentered unit₁ unit₂ hunits hunit).bind fun hm => ?_
  exact (Nesting.addAll_alike hm back₁ back₂ hbacks hback).bind fun hl => hl.finish

end Clausal
