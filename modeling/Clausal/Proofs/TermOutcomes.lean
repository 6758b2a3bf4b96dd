import Clausal.Proofs.Outcomes

/-!
# How the readers of terms end

Each reader of a term has read an item when it succeeds, but for `climb` and `arguments`, which may find that
nothing follows. With `m` items ahead, each has a bound of about `4 * m` that is enough: to nest
deeper without reading, a reader goes from `elements` over `expression`, `operand` and
`arguments` to `atomic`, which reads.
-/
namespace Clausal.Parse

open Precedence

-- The equations of the steps are at hand before the lemmas, which all unfold them.
attribute [local simp] expression climb operand arguments atomic elements

theorem operatorSymbol?_spec {v : Vocabulary} {k : TokenKind} {s : Symbol}
    (h : operatorSymbol? v k = some s) : v.Knows s ∧ k.width = 1 := by
  unfold operatorSymbol? at h
  cases hname : k.name? with
  | none => rw [hname] at h; cases h
  | some name =>
    rw [hname] at h
    dsimp only at h
    cases hl : v.lookup name with
    | none => rw [hl] at h; cases h
    | some u =>
      rw [hl] at h
      dsimp only at h
      split_ifs at h
      obtain rfl := Option.some.inj h
      exact ⟨Vocabulary.knows_of_lookup hl, TokenKind.width_of_name? hname⟩

/-- What a kind of token is as an operator, if it is one. -/
def FoundIn (v : Vocabulary) (k : TokenKind) (found : Option (Symbol × Operator)) : Prop :=
  ∀ s o, found = some (s, o) → v.Knows s ∧ k.width = 1

theorem foundIn_operatorAt? (v : Vocabulary) (p : Placement) (k : TokenKind) :
    FoundIn v k (operatorAt? v p k) := by
  intro s o h
  unfold operatorAt? at h
  cases hs : operatorSymbol? v k with
  | none => rw [hs] at h; cases h
  | some u =>
    rw [hs] at h
    obtain ⟨o', -, ho'⟩ := Option.map_eq_some_iff.1 h
    obtain ⟨rfl, rfl⟩ := Prod.mk.inj ho'
    exact operatorSymbol?_spec hs

/-- What cannot be applied is a term of the vocabulary, which the error shows. -/
theorem explained_apply {loader : Loader} {v : Vocabulary} {span : Span} {head : Term}
    {args : List Term} {e : TermError} (hhead : head.FlatIn v) (hne : args ≠ [])
    (h : v.apply span (head :: args) = .error e) : (ParseError.term e).Explained loader v := by
  cases args with
  | nil => exact absurd rfl hne
  | cons first rest =>
    cases head with
    | const | app | quoted => cases h
    | lam | literal =>
      obtain rfl := Except.error.inj h
      exact .shows hhead rfl rfl

theorem shownTerm?_of_ofRaw {span : Span} {raw : List Char} {fault : TermFault}
    (h : Quotation.ofRaw span raw = .error fault) : fault.shownTerm? = none := by
  unfold Quotation.ofRaw at h
  dsimp only at h
  split_ifs at h
  · obtain rfl := Except.error.inj h
    rfl
  · split at h
    · cases h
    · split at h
      · obtain rfl := Except.error.inj h
        rfl
      · split_ifs at h
        obtain rfl := Except.error.inj h
        rfl

namespace Delivers

variable {loader : Loader} {s : ParseState}

/-- A term of the vocabulary, for which an item has been read. -/
structure ReadsTerm (s : ParseState) (t : Term) (s' : ParseState) : Prop where
  left : s'.left < s.left
  flat : t.FlatIn s'.vocabulary

theorem operatorAfter? (k : TokenKind) :
    Looks loader (FoundIn s.vocabulary k) (operatorAfter? k) s := by
  refine Looks.bind vocabulary fun v hv => ?_
  subst hv
  split
  · next between after hbetween hafter =>
    refine Looks.bind (peekAt 1) fun following _ => pure ⟨rfl, ?_⟩
    rintro s o ho
    split_ifs at ho
    · exact foundIn_operatorAt? _ _ k s o (hbetween.trans ho)
    · exact foundIn_operatorAt? _ _ k s o (hafter.trans ho)
  · next between hbetween _ => exact pure ⟨rfl, hbetween ▸ foundIn_operatorAt? _ _ k⟩
  · exact pure ⟨rfl, foundIn_operatorAt? _ _ k⟩

theorem prefixAt? (k : TokenKind) : Looks loader (FoundIn s.vocabulary k) (prefixAt? k) s := by
  refine Looks.bind vocabulary fun v hv => ?_
  subst hv
  split
  · exact pure ⟨rfl, fun _ _ h => nomatch h⟩
  · next found hfound =>
    refine Looks.bind (peekAt 1) fun following _ => pure ⟨rfl, ?_⟩
    rintro s o ho
    split_ifs at ho
    exact foundIn_operatorAt? _ _ k s o (hfound.trans ho)

theorem checkChain (t : Token) (o : Operator) (earlier : Option (Nat × Grouping)) :
    Looks loader (fun _ => True) (checkChain t o earlier) s := by
  unfold Parse.checkChain
  split
  · exact pure ⟨rfl, trivial⟩
  · split_ifs
    · exact pure ⟨rfl, trivial⟩
    · exact failAt rfl rfl
    · exact failAt rfl rfl
    · exact pure ⟨rfl, trivial⟩

theorem integer (span : Span) (digits : String) :
    Looks loader (fun t => t.FlatIn s.vocabulary) (integer span digits) s := by
  unfold Parse.integer
  split
  · exact pure ⟨rfl, .literal _⟩
  · exact fail (.plain rfl rfl)

theorem ofQuotation (span : Span) (raw : String) :
    Looks loader (fun t => t.FlatIn s.vocabulary) (ofExcept (Term.ofQuotation span raw)) s := by
  unfold Term.ofQuotation
  cases h : Quotation.ofRaw span raw.toList with
  | ok q => exact pure ⟨rfl, .quoted q⟩
  | error fault => exact fail (.plain (shownTerm?_of_ofRaw h) rfl)

theorem apply {span : Span} {head : Term} {args : List Term} (hne : args ≠ [])
    (h : Term.AllFlatIn s.vocabulary (head :: args)) :
    Looks loader (fun t => t.FlatIn s.vocabulary) (ofExcept (s.vocabulary.apply span (head :: args)))
      s := by
  cases hr : s.vocabulary.apply span (head :: args) with
  | ok t => exact pure ⟨rfl, .apply hne hr h⟩
  | error e => exact fail (explained_apply (h head List.mem_cons_self) hne hr)

theorem loneOperator? :
    Delivers loader (fun found s' => ∀ o, found = some o → s'.vocabulary.Knows o) loneOperator? s := by
  refine Looks.bind peek fun t _ => Looks.bind vocabulary fun v hv => ?_
  subst hv
  split
  · exact pure fun _ h => nomatch h
  · next o ho =>
    refine Looks.bind (peekAt 1) fun following _ => ?_
    split_ifs
    · refine next.bind fun _ s₁ _ h₁ => next.bind fun _ s₂ _ h₂ => pure ?_
      intro u hu
      obtain rfl := Option.some.inj hu
      rw [h₂.vocabulary, h₁.vocabulary]
      exact (operatorSymbol?_spec ho).1
    · exact pure fun _ h => nomatch h

theorem bindsAt (limit : Nat) : Looks loader (fun _ => True) (bindsAt limit) s := by
  unfold Parse.bindsAt
  split_ifs
  · exact Looks.bind peek fun _ _ => pure ⟨rfl, trivial⟩
  · exact pure ⟨rfl, trivial⟩

structure TermReaders (loader : Loader) (n : Nat) : Prop where
  expression : ∀ {s} limit strict earlier, 4 * s.left + 3 ≤ n →
    Delivers loader (ReadsTerm s) (expression n limit strict earlier) s
  climb : ∀ {s first} limit strict earlier, 4 * s.left + 1 ≤ n →
    Delivers loader (fun t s' => first.FlatIn s.vocabulary → t.FlatIn s'.vocabulary)
      (climb n limit strict earlier first) s
  operand : ∀ {s} limit, 4 * s.left + 2 ≤ n → Delivers loader (ReadsTerm s) (operand n limit) s
  arguments : ∀ {s}, 4 * s.left + 2 ≤ n →
    Delivers loader (fun ts s' => Term.AllFlatIn s'.vocabulary ts) (arguments n) s
  atomic : ∀ {s} limit, 4 * s.left + 1 ≤ n → Delivers loader (ReadsTerm s) (atomic n limit) s
  elements : ∀ {s}, 4 * s.left + 4 ≤ n → Delivers loader (ReadsTerm s) (elements n) s

namespace TermReaders

variable {n : Nat} (h : TermReaders loader n)
include h

theorem expression_succ (limit : Nat) (strict : Bool) (earlier : Option (Nat × Grouping))
    (hn : 4 * s.left + 3 ≤ n + 1) :
    Delivers loader (ReadsTerm s) (Parse.expression (n + 1) limit strict earlier) s := by
  rw [Parse.expression]
  refine (h.operand limit (by omega)).bind fun first s₁ _ hfirst => ?_
  have hleft := hfirst.left
  refine (h.climb limit strict earlier (by omega)).mono fun t s₂ h₂ ht => ?_
  exact ⟨Nat.lt_of_le_of_lt h₂.left hleft, ht hfirst.flat⟩

theorem climb_succ {first : Term} (limit : Nat) (strict : Bool) (earlier : Option (Nat × Grouping))
    (hn : 4 * s.left + 1 ≤ n + 1) :
    Delivers loader (fun t s' => first.FlatIn s.vocabulary → t.FlatIn s'.vocabulary)
      (Parse.climb (n + 1) limit strict earlier first) s := by
  rw [Parse.climb]
  refine Looks.bind peek fun t ht => Looks.bind (operatorAfter? t.kind) fun found hfound => ?_
  split
  · exact pure id
  · next u o =>
    obtain ⟨hu, hwidth⟩ := hfound u o rfl
    split_ifs with hloose hafter
    · exact pure id
    all_goals
      refine Looks.bind (checkChain t o earlier) fun _ _ => next.bind fun _ s₁ h₁ ht' => ?_
      -- The token that is read is the operator, so an item less is ahead.
      have hleft := ht'.left_lt ht hwidth
    · refine (h.climb _ _ _ (by omega)).mono fun _ _ _ hrest hfirst => hrest ?_
      exact .node_one (h₁.names.knows hu) (hfirst.mono h₁.names)
    · refine (h.expression _ _ _ (by omega)).bind fun second s₂ h₂ hsecond => ?_
      have hleft' := hsecond.left
      have hnames := h₁.names.trans h₂.names
      refine (h.climb _ _ _ (by omega)).mono fun _ _ _ hrest hfirst => hrest ?_
      exact .node_two (hnames.knows hu) (hfirst.mono hnames) hsecond.flat

theorem operand_succ (limit : Nat) (hn : 4 * s.left + 2 ≤ n + 1) :
    Delivers loader (ReadsTerm s) (Parse.operand (n + 1) limit) s := by
  rw [Parse.operand]
  refine Looks.bind peek fun t ht => Looks.bind (prefixAt? t.kind) fun found hfound => ?_
  split
  · next u o =>
    obtain ⟨hu, hwidth⟩ := hfound u o rfl
    split_ifs
    · exact failAt rfl rfl
    · refine next.bind fun _ s₁ h₁ ht' => ?_
      have hleft := ht'.left_lt ht hwidth
      refine (h.expression _ _ _ (by omega)).bind fun inner s₂ h₂ hinner => pure ⟨?_, ?_⟩
      · exact Nat.lt_trans hinner.left (by omega)
      · exact .node_one ((h₁.names.trans h₂.names).knows hu) hinner.flat
  · refine (h.atomic limit (by omega)).bind fun head s₁ h₁ hhead => ?_
    have hleft := hhead.left
    split_ifs
    · exact pure hhead
    · refine (h.arguments (by omega)).bind fun args s₂ h₂ hargs => ?_
      have hhead' := hhead.flat.mono h₂.names
      have hleft' := Nat.lt_of_le_of_lt h₂.left hleft
      split
      · exact pure ⟨hleft', hhead'⟩
      · next hne =>
        refine Looks.bind (spanFrom t.span) fun span _ => Looks.bind vocabulary fun v hv => ?_
        subst hv
        refine (apply hne (Term.AllFlatIn.cons_iff.2 ⟨hhead', hargs⟩)).mono fun u s₃ _ hu => ?_
        obtain ⟨rfl, hu⟩ := hu
        exact ⟨hleft', hu⟩

theorem arguments_succ (hn : 4 * s.left + 2 ≤ n + 1) :
    Delivers loader (fun ts s' => Term.AllFlatIn s'.vocabulary ts) (Parse.arguments (n + 1)) s := by
  rw [Parse.arguments]
  refine Looks.bind peek fun t _ => Looks.bind vocabulary fun v _ => ?_
  split_ifs
  · refine (h.atomic binder (by omega)).bind fun first s₁ h₁ hfirst => ?_
    have hleft := hfirst.left
    refine (h.arguments (by omega)).bind fun others s₂ h₂ hothers => pure ?_
    exact Term.AllFlatIn.cons_iff.2 ⟨hfirst.flat.mono h₂.names, hothers⟩
  · exact pure .nil

theorem atomic_succ (limit : Nat) (hn : 4 * s.left + 1 ≤ n + 1) :
    Delivers loader (ReadsTerm s) (Parse.atomic (n + 1) limit) s := by
  rw [Parse.atomic]
  refine next.bind ?_
  rintro ⟨kind, span⟩ s₁ h₁ ⟨-, hleft, -⟩
  -- What is behind the token that was read may take as long as that is.
  have hinner : ∀ {s'}, s₁.Before s' → kind.width = 1 → 4 * s'.left + 4 ≤ n := by
    intro s' h' hwidth
    have := h'.left
    simp only [hwidth] at hleft
    omega
  have hread : ∀ {s' t}, s'.left ≤ s₁.left → kind.width = 1 → t.FlatIn s'.vocabulary →
      ReadsTerm s t s' := by
    intro s' t hle hwidth ht
    simp only [hwidth] at hleft
    exact ⟨by omega, ht⟩
  cases kind <;> dsimp only
  case ident name =>
    refine Looks.bind (bindsAt limit) fun binds _ => ?_
    split_ifs
    · refine next.bind fun _ s₂ h₂ _ => ?_
      refine (h.expression _ _ _ (Nat.le_of_succ_le (hinner h₂ rfl))).bind fun body s₃ h₃ hbody => ?_
      refine (lambda name hbody.flat).mono fun t s₄ _ ht => hread ?_ rfl ht.2
      exact ht.1 ▸ (h₂.trans h₃).left
    · refine Looks.bind vocabulary fun v _ => ?_
      split_ifs
      · exact failAt rfl rfl
      · exact (variableOrConstant name).mono fun t s₂ _ ht => hread (Nat.le_of_eq ht.1) rfl ht.2
  case symbolic name =>
    refine Looks.bind vocabulary fun v _ => ?_
    split_ifs
    · exact failAt rfl rfl
    · exact (constant name).mono fun t s₂ _ ht => hread (Nat.le_of_eq ht.1) rfl ht.2
  case macroName name =>
    exact (constant name).mono fun t s₂ _ ht => hread (Nat.le_of_eq ht.1) rfl ht.2
  case int digits => exact (integer span digits).mono fun t s₂ h₂ ht => hread h₂.left rfl (ht.1 ▸ ht.2)
  case float text => exact pure (hread (Nat.le_refl _) rfl (.literal _))
  case string text =>
    exact (stringLiteral text).mono fun t s₂ _ ht => hread (Nat.le_of_eq ht.1) rfl ht.2
  case quotation raw =>
    exact (ofQuotation span raw).mono fun t s₂ h₂ ht => hread h₂.left rfl (ht.1 ▸ ht.2)
  case leftParen =>
    refine loneOperator?.bind fun found s₂ h₂ hfound => ?_
    split
    · next o => exact pure (hread h₂.left rfl (.const (hfound o rfl)))
    · refine (h.expression _ _ _ (Nat.le_of_succ_le (hinner h₂ rfl))).bind fun inner s₃ h₃ ht => ?_
      refine (expect _).bind fun _ s₄ h₄ _ => pure (hread ?_ rfl (ht.flat.mono h₄.names))
      exact (h₂.trans (h₃.trans h₄)).left
  case leftBracket =>
    refine Looks.bind peek fun u _ => ?_
    split_ifs
    · exact next.bind fun _ s₂ h₂ _ => pure (hread h₂.left rfl (.wellKnown rfl))
    · refine (h.elements (hinner (.refl h₁.ends) rfl)).bind fun cells s₂ h₂ hcells => ?_
      refine (expect _).bind fun _ s₃ h₃ _ => pure (hread ?_ rfl (hcells.flat.mono h₃.names))
      exact (h₂.trans h₃).left
  case leftBrace =>
    refine (h.expression _ _ _ (Nat.le_of_succ_le (hinner (.refl h₁.ends) rfl))).bind
      fun inner s₂ h₂ ht => (expect _).bind fun _ s₃ h₃ _ => pure (hread ?_ rfl ?_)
    · exact (h₂.trans h₃).left
    · exact .node_one (.inl rfl) (ht.flat.mono h₃.names)
  all_goals exact failAt rfl rfl

theorem elements_succ (hn : 4 * s.left + 4 ≤ n + 1) :
    Delivers loader (ReadsTerm s) (Parse.elements (n + 1)) s := by
  rw [Parse.elements]
  refine (h.expression _ _ _ (by omega)).bind fun first s₁ _ hfirst => ?_
  have hleft := hfirst.left
  refine (eatSymbol ",").bind fun comma s₂ h₂ _ => ?_
  have hleft₂ := h₂.left
  split_ifs
  · refine (h.elements (by omega)).bind fun rest s₃ h₃ hrest => pure ⟨?_, ?_⟩
    · exact Nat.lt_trans hrest.left (by omega)
    · exact .cell (hfirst.flat.mono (h₂.trans h₃).names) hrest.flat
  · refine (eatSymbol "|").bind fun bar s₃ h₃ _ => ?_
    have hleft₃ := h₃.left
    split_ifs
    · refine (h.expression _ _ _ (by omega)).bind fun tail s₄ h₄ htail => pure ⟨?_, ?_⟩
      · exact Nat.lt_trans htail.left (by omega)
      · exact .cell (hfirst.flat.mono (h₂.trans (h₃.trans h₄)).names) htail.flat
    · refine pure ⟨by omega, .cell (hfirst.flat.mono (h₂.trans h₃).names) (.wellKnown rfl)⟩

end TermReaders

theorem termReaders (loader : Loader) (n : Nat) : TermReaders loader n := by
  induction n with
  | zero =>
    constructor <;> intros <;> omega
  | succ n ih =>
    exact ⟨ih.expression_succ, ih.climb_succ, ih.operand_succ, ih.arguments_succ, ih.atomic_succ,
      ih.elements_succ⟩

theorem expressionAt (limit : Nat) (strict : Bool) :
    Delivers loader (ReadsTerm s) (expressionAt limit strict) s := by
  have hread := (termReaders loader (4 * s.left + 4)).expression (s := s) limit strict none (by omega)
  intro hs
  rw [Parse.expressionAt]
  exact hread hs

theorem term : Delivers loader (ReadsTerm s) term s := expressionAt lowest false

theorem closedTerm : Delivers loader (ReadsTerm s) closedTerm s := expressionAt Precedence.atomic true

end Delivers

end Clausal.Parse
