import Clausal.Proofs.GrammarSoundness

/-!
# What derives is read

Wherever the tokens ahead derive a tree, the readers succeed: they read just these tokens, give the term of
the tree but for places, and leave the vocabulary as the tree does. Quotations have the places of their
tokens, so what a step gives is described by a property and not by a value.
-/
namespace Clausal

namespace Parse

variable {α β : Type} {v w u : Vocabulary} {X Y Z : List TokenKind}

/-- Wherever the vocabulary and the kinds ahead are these, the step succeeds with such a value and leaves
that vocabulary and those kinds. -/
def Produces (p : Parse α) (v : Vocabulary) (X : List TokenKind) (Q : α → Prop) (w : Vocabulary)
    (Y : List TokenKind) : Prop :=
  ∀ s : ParseState, s.At v X → ∃ a s', p s = (.ok a, s') ∧ Q a ∧ s'.At w Y

namespace Produces

variable {p : Parse α} {f : α → Parse β} {Q : α → Prop} {R : β → Prop} {a : α}

protected theorem pure (h : Q a) : (pure a : Parse α).Produces v X Q v X :=
  fun s hs => ⟨a, s, rfl, h, hs⟩

protected theorem bind (hp : p.Produces v X Q w Y) (hf : ∀ a, Q a → (f a).Produces w Y R u Z) :
    (p >>= f).Produces v X R u Z := by
  intro s hs
  obtain ⟨a, s₁, hrun, ha, hs₁⟩ := hp s hs
  obtain ⟨b, s₂, hrun', hb, hs₂⟩ := hf a ha s₁ hs₁
  exact ⟨b, s₂, (Pairing.bind_of_ok hrun).trans hrun', hb, hs₂⟩

/-- A step whose value is known. -/
theorem of_does_bind (hp : p.Does v X (.value a w Y)) (hf : (f a).Produces w Y R u Z) :
    (p >>= f).Produces v X R u Z := by
  intro s hs
  obtain ⟨s₁, hrun, hs₁⟩ := hp s hs
  obtain ⟨b, s₂, hrun', hb, hs₂⟩ := hf s₁ hs₁
  exact ⟨b, s₂, (Pairing.bind_of_ok hrun).trans hrun', hb, hs₂⟩

theorem vocabulary_bind {f : Vocabulary → Parse β} (h : (f v).Produces v X R w Y) :
    (vocabulary >>= f).Produces v X R w Y := by
  intro s hs
  obtain rfl := hs.vocabulary
  exact h s hs

theorem spanFrom_bind {f : Span → Parse β} {start : Span} (h : ∀ span, (f span).Produces v X R w Y) :
    (spanFrom start >>= f).Produces v X R w Y :=
  fun s hs => h (start.merge s.last) s hs

theorem change {c : Vocabulary → α × Vocabulary} (h : Q (c v).1) :
    (change c).Produces v X Q (c v).2 X := by
  intro s hs
  obtain rfl := hs.vocabulary
  exact ⟨_, _, rfl, h, rfl, hs.ahead⟩

theorem peek_bind {f : Token → Parse β}
    (h : ∀ t : Token, t.kind = X.headD .endOfInput → (f t).Produces v X R w Y) :
    (peek >>= f).Produces v X R w Y := by
  intro s hs
  obtain ⟨t, ht, hk⟩ := hs.ahead.peek 0
  have hrun : peek s = (.ok t, s) := by simp [peek, peekAt, ht]
  rw [Pairing.bind_of_ok hrun]
  exact h t hk s hs

theorem next_bind {f : Token → Parse β}
    (h : ∀ t : Token, t.kind = X.headD .endOfInput → (f t).Produces v X.tail R w Y) :
    (next >>= f).Produces v X R w Y := by
  intro s hs
  obtain ⟨t, ht, hk⟩ := hs.ahead.peek 0
  have hpeek : peek s = (.ok t, s) := by simp [peek, peekAt, ht]
  have hrun : next s = (.ok t, { s with ahead := s.ahead.advance, last := t.span }) := by
    rw [next_eq_bind, Pairing.bind_of_ok hpeek]
    rfl
  rw [Pairing.bind_of_ok hrun]
  exact h t hk _ ⟨hs.vocabulary, hs.ahead.advance⟩

theorem next_cons_bind {f : Token → Parse β} {k : TokenKind}
    (h : ∀ t : Token, t.kind = k → (f t).Produces v X R w Y) : (next >>= f).Produces v (k :: X) R w Y :=
  next_bind h

theorem expect_bind {f : Token → Parse β} {kind : TokenKind} (h : ∀ t : Token, (f t).Produces v X R w Y) :
    (expect kind >>= f).Produces v (kind :: X) R w Y := by
  refine Produces.bind (Q := fun _ => True) (w := v) (Y := X) ?_ fun t _ => h t
  refine next_cons_bind fun t ht => ?_
  rw [if_pos ht]
  exact .pure trivial

/-- The end of the input may be read over and over. -/
theorem expect_end_bind {f : Token → Parse β} (hX : X.headD .endOfInput = .endOfInput)
    (h : ∀ t : Token, (f t).Produces v X.tail R w Y) : (expect .endOfInput >>= f).Produces v X R w Y := by
  refine Produces.bind (Q := fun _ => True) (w := v) (Y := X.tail) ?_ fun t _ => h t
  refine next_bind fun t ht => ?_
  rw [if_pos (ht.trans hX)]
  exact .pure trivial

end Produces

end Parse

namespace Grammar

open Parse Precedence

attribute [local simp] expression climb operand arguments Parse.atomic elements

/-- With this bound the reader of the part reads the tree from `X` up to `Y`. -/
def Part.Reads (n : Nat) (w : Vocabulary) (X : List TokenKind) (a : SyntaxTree) (Y : List TokenKind) :
    Part → Prop
  | expression limit strict earlier => limit ≤ application →
    (Parse.expression n limit strict earlier).Produces w X (SameParts · (a.build w).1) (a.build w).2 Y
  | climb limit strict earlier head => ∀ first, SameParts first (head.build w).1 →
    (Parse.climb n limit strict earlier first).Produces (head.build w).2 X
      (SameParts · (a.build w).1) (a.build w).2 Y
  | operand limit => limit ≤ application →
    (Parse.operand n limit).Produces w X (SameParts · (a.build w).1) (a.build w).2 Y
  | arguments head => ∀ first, SameParts first (head.build w).1 →
    (Parse.arguments n).Produces (head.build w).2 X
      (fun ts => SameParts (ts.foldl Term.applied first) (a.build w).1 ∧
        (ts ≠ [] → head.isApplicable = true)) (a.build w).2 Y
  | atom => ∀ limit ≤ binder,
    (Parse.atomic n limit).Produces w X (SameParts · (a.build w).1) (a.build w).2 Y
  | elements => (Parse.elements n).Produces w X (SameParts · (a.build w).1) (a.build w).2 Y

/-- The levels of nesting that a reader needs besides four for each token. -/
def Part.slack : Part → Nat
  | elements => 3
  | expression .. => 2
  | climb .. | operand _ | arguments _ => 1
  | atom => 0

variable {v w : Vocabulary} {part : Part} {X Y Z : List TokenKind} {a b c : SyntaxTree} {n : Nat}

theorem Derives.length_le (h : Derives v part X a Y) : Y.length ≤ X.length := by
  obtain ⟨C, rfl, -, -⟩ := h.exists_balanced
  simp

theorem Derives.length_lt (h : Derives v part X a Y) (hp : part.takesTokens = true) :
    Y.length < X.length := by
  obtain ⟨C, rfl, -, hne⟩ := h.exists_balanced
  have := List.length_pos_iff.2 (hne hp)
  simp only [List.length_append]
  omega

theorem Single.reads {k : TokenKind} (h : Single v k a) (hv : SameOperators v w) (hb : ¬ Binds k X) :
    Part.atom.Reads (n + 1) w (k :: X) a X := by
  intro limit hl
  rw [Parse.atomic]
  refine Produces.next_cons_bind fun t ht => ?_
  rw [ht]
  cases h with
  | @name m hname =>
    have hnot : X.headD .endOfInput ≠ .backslash := fun hx => hb ⟨m, rfl, hx⟩
    refine Produces.of_does_bind does_bindsAt ?_
    rw [if_neg (by simpa using fun _ => by simpa using hnot)]
    refine Produces.vocabulary_bind ?_
    rw [if_neg (by simp [hv.symbol, hname]), SyntaxTree.build_ofName]
    have hstep : variableOrConstant m = change fun v => nameTerm v m := by
      unfold variableOrConstant nameTerm
      split_ifs <;> rfl
    exact hstep ▸ Produces.change rfl
  | symbolic hbar hname =>
    refine Produces.vocabulary_bind ?_
    rw [if_neg (by simp [hbar, hv.symbol, hname])]
    exact Produces.change rfl
  | macroName => exact Produces.change rfl
  | int hvalue =>
    dsimp only [integer]
    rw [hvalue]
    exact .pure rfl
  | float => exact .pure rfl
  | @string text =>
    have hchange := Produces.change (X := X) (v := w) (c := (·.string text)) (Q := (· = (w.string text).1)) rfl
    refine hchange.bind fun b hb => ?_
    subst hb
    exact .pure rfl
  | @quotation raw span q hq =>
    -- The quotation stands elsewhere, with the same text.
    have hrel := @Quotation.ofRaw_rel (fun _ _ => True) span t.span (fun _ _ => trivial) raw.toList
    rw [hq] at hrel
    dsimp only [Term.ofQuotation]
    cases hq' : Quotation.ofRaw t.span raw.toList with
    | error fault =>
      rw [hq'] at hrel
      exact hrel.elim
    | ok q' =>
      rw [hq'] at hrel
      obtain ⟨hdata, -, hkind⟩ := hrel
      refine .pure (congrArg Term.quoted (?_ : Quotation.mk _ _ _ = Quotation.mk _ _ _))
      rw [hdata, hkind]
      rfl

namespace Part.Reads

variable {limit : Nat} {strict : Bool} {earlier : Option (Nat × Grouping)} {k : TokenKind} {s : Symbol}
variable {o : Operator}

theorem expression (ho : (Part.operand limit).Reads n w X a Y)
    (hc : (Part.climb limit strict earlier a).Reads n w Y b Z) :
    (Part.expression limit strict earlier).Reads (n + 1) w X b Z := by
  intro hl
  rw [Parse.expression]
  exact (ho hl).bind hc

theorem noArgument (hv : SameOperators v (a.build w).2)
    (h : startsArgument v (X.headD .endOfInput) = false) :
    (Part.arguments a).Reads (n + 1) w X a X := by
  intro first hfirst
  rw [Parse.arguments]
  refine Produces.peek_bind fun t ht => Produces.vocabulary_bind ?_
  rw [ht, hv.startsArgument, if_neg (Bool.eq_false_iff.1 h)]
  exact .pure ⟨hfirst, fun hne => absurd rfl hne⟩

theorem argument (hv : SameOperators v (a.build w).2)
    (h : startsArgument v (X.headD .endOfInput) = true) (ha : a.isApplicable = true)
    (hb : Part.atom.Reads n (a.build w).2 X b Y)
    (hs : (Part.arguments (.apply a b)).Reads n w Y c Z) :
    (Part.arguments a).Reads (n + 1) w X c Z := by
  intro first hfirst
  rw [Parse.arguments]
  refine Produces.peek_bind fun t ht => Produces.vocabulary_bind ?_
  rw [ht, hv.startsArgument, if_pos h]
  refine (hb binder (Nat.le_refl _)).bind fun t ht => ?_
  refine (hs _ (hfirst.applied ht)).bind fun ts hts => ?_
  exact .pure ⟨hts.1, fun _ => ha⟩

theorem application (hv : SameOperators v w) (h : prefixAhead? v X = none)
    (ha : Part.atom.Reads n w X a Y) (hs : (Part.arguments a).Reads n w Y b Z) :
    (Part.operand limit).Reads (n + 1) w X b Z := by
  intro hl
  rw [Parse.operand]
  refine Produces.peek_bind fun t ht => Produces.of_does_bind (does_prefixAt _) ?_
  rw [ht, show operatorBefore? _ _ _ = prefixAhead? w X from rfl, hv.prefixAhead, h]
  refine (ha limit (Nat.le_succ_of_le hl)).bind fun head hhead => ?_
  rw [if_neg (Nat.not_lt.2 hl)]
  refine (hs head hhead).bind fun ts hts => ?_
  cases ts with
  | nil => exact .pure hts.1
  | cons first others =>
    have happlicable : head.isApplicable = true := by
      rw [hhead.isApplicable, a.isApplicable_build]
      exact hts.2 (List.cons_ne_nil _ _)
    refine Produces.spanFrom_bind fun span => Produces.vocabulary_bind ?_
    rw [Vocabulary.apply_of_isApplicable _ _ _ _ happlicable]
    exact .pure hts.1

theorem before (hv : SameOperators v w) (hw : w.WellFormed) (h : prefixAhead? v (k :: X) = some (s, o))
    (hl : limit ≤ o.precedence)
    (he : (Part.expression o.precedence false (some (o.precedence, .right))).Reads n w X a Y) :
    (Part.operand limit).Reads (n + 1) w (k :: X) (.unary s a) Y := by
  intro _
  rw [Parse.operand]
  refine Produces.peek_bind fun t ht => Produces.of_does_bind (does_prefixAt _) ?_
  rw [ht, show operatorBefore? _ _ _ = prefixAhead? w (k :: X) from rfl, hv.prefixAhead, h]
  dsimp only
  rw [if_neg (Nat.not_lt.2 hl)]
  refine Produces.next_cons_bind fun _ _ => ?_
  refine (he (hv.precedence_le hw (operatorAt?_of_operatorBefore? h))).bind fun t ht => ?_
  exact .pure (.node (.singleton ht))

theorem stop (hv : SameOperators v (a.build w).2)
    (h : ∀ e ∈ operatorAhead? v X, ¬ Admits limit strict e.2) :
    (Part.climb limit strict earlier a).Reads (n + 1) w X a X := by
  intro first hfirst
  rw [Parse.climb]
  refine Produces.peek_bind fun t ht => Produces.of_does_bind (does_operatorAfter _) ?_
  rw [ht, show operatorBehind? _ _ _ = operatorAhead? (a.build w).2 X from rfl, hv.operatorAhead]
  cases hahead : operatorAhead? v X with
  | none => exact .pure hfirst
  | some e =>
    dsimp only
    rw [if_pos (not_imp_comm.1 admits_iff_not_loose.2 (h e hahead))]
    exact .pure hfirst

section

variable (hv : SameOperators v (a.build w).2) (h : operatorAhead? v (k :: X) = some (s, o))
variable (hl : Admits limit strict o) (hc : Chains earlier o)
include hv h hl hc

theorem after (hp : o.placement = .afterOperand)
    (hd : (Part.climb limit strict (some (o.precedence, o.grouping)) (.unary s a)).Reads n w X b Y) :
    (Part.climb limit strict earlier a).Reads (n + 1) w (k :: X) b Y := by
  intro first hfirst
  rw [Parse.climb]
  refine Produces.peek_bind fun t ht => Produces.of_does_bind (does_operatorAfter _) ?_
  rw [ht, show operatorBehind? _ _ _ = operatorAhead? (a.build w).2 (k :: X) from rfl, hv.operatorAhead, h]
  dsimp only
  rw [if_neg (admits_iff_not_loose.1 hl)]
  refine Produces.of_does_bind (does_checkChain hc) (Produces.next_cons_bind fun _ _ => ?_)
  rw [if_pos hp]
  exact hd _ (.node (.singleton hfirst))

theorem between (hw : (a.build w).2.WellFormed) (hp : o.placement ≠ .afterOperand)
    (he : (Part.expression o.precedence (o.grouping ≠ .right)
      (some (o.precedence, o.grouping))).Reads n (a.build w).2 X b Y)
    (hd : (Part.climb limit strict (some (o.precedence, o.grouping)) (.binary s a b)).Reads n w Y c Z) :
    (Part.climb limit strict earlier a).Reads (n + 1) w (k :: X) c Z := by
  intro first hfirst
  rw [Parse.climb]
  refine Produces.peek_bind fun t ht => Produces.of_does_bind (does_operatorAfter _) ?_
  rw [ht, show operatorBehind? _ _ _ = operatorAhead? (a.build w).2 (k :: X) from rfl, hv.operatorAhead, h]
  dsimp only
  rw [if_neg (admits_iff_not_loose.1 hl)]
  refine Produces.of_does_bind (does_checkChain hc) (Produces.next_cons_bind fun _ _ => ?_)
  rw [if_neg hp]
  obtain ⟨p, hat⟩ := operatorAt?_of_operatorBehind? h
  refine (he (hv.precedence_le hw hat)).bind fun t ht => ?_
  exact hd _ (.node (hfirst.cons (.singleton ht)))

end

theorem lambda {x : String} (he : (Part.expression lowest false none).Reads n w X a Y) :
    Part.atom.Reads (n + 1) w (.ident x :: .backslash :: X) (.lambda x a) Y := by
  intro limit hl
  rw [Parse.atomic]
  refine Produces.next_cons_bind fun t ht => ?_
  rw [ht]
  refine Produces.of_does_bind does_bindsAt ?_
  rw [if_pos (by simp [hl])]
  refine Produces.next_cons_bind fun _ _ => (he (by decide)).bind fun body hbody => ?_
  exact Produces.change (c := (·.lambda x body)) (hbody.lam _)

theorem lone (hv : SameOperators v w) (h : operatorSymbol? v k = some s) :
    Part.atom.Reads (n + 1) w (.leftParen :: k :: .rightParen :: X) (.symbol s) X := by
  intro limit hl
  rw [Parse.atomic]
  refine Produces.next_cons_bind fun t ht => ?_
  rw [ht]
  refine Produces.of_does_bind (does_loneOperator_some ((hv.symbol k).trans h)) ?_
  exact .pure rfl

theorem group (hv : SameOperators v w)
    (h : operatorSymbol? v (X.headD .endOfInput) = none ∨ (X.drop 1).headD .endOfInput ≠ .rightParen)
    (he : (Part.expression lowest false none).Reads n w X a (.rightParen :: Y)) :
    Part.atom.Reads (n + 1) w (.leftParen :: X) a Y := by
  intro limit hl
  rw [Parse.atomic]
  refine Produces.next_cons_bind fun t ht => ?_
  rw [ht]
  refine Produces.of_does_bind (does_loneOperator_none (by rwa [hv.symbol])) ?_
  exact (he (by decide)).bind fun t ht => Produces.expect_bind fun _ => .pure ht

theorem nil : Part.atom.Reads (n + 1) w (.leftBracket :: .rightBracket :: X) .nil X := by
  intro limit hl
  rw [Parse.atomic]
  refine Produces.next_cons_bind fun t ht => ?_
  rw [ht]
  refine Produces.peek_bind fun t ht => ?_
  rw [if_pos (show t.kind = .rightBracket from ht)]
  exact Produces.next_cons_bind fun _ _ => .pure rfl

theorem list (h : X.headD .endOfInput ≠ .rightBracket)
    (he : Part.elements.Reads n w X a (.rightBracket :: Y)) :
    Part.atom.Reads (n + 1) w (.leftBracket :: X) a Y := by
  intro limit hl
  rw [Parse.atomic]
  refine Produces.next_cons_bind fun t ht => ?_
  rw [ht]
  refine Produces.peek_bind fun t ht => ?_
  rw [if_neg (fun hk => h (ht.symm.trans hk))]
  exact he.bind fun t ht => Produces.expect_bind fun _ => .pure ht

theorem spill (he : (Part.expression lowest false none).Reads n w X a (.rightBrace :: Y)) :
    Part.atom.Reads (n + 1) w (.leftBrace :: X) (.unary Symbol.spill a) Y := by
  intro limit hl
  rw [Parse.atomic]
  refine Produces.next_cons_bind fun t ht => ?_
  rw [ht]
  exact (he (by decide)).bind fun t ht => Produces.expect_bind fun _ => .pure (.node (.singleton ht))

theorem more (he : (Part.expression listElement false none).Reads n w X a (.symbolic "," :: Y))
    (hs : Part.elements.Reads n (a.build w).2 Y b Z) :
    Part.elements.Reads (n + 1) w X (.cell a b) Z := by
  unfold Part.Reads at hs ⊢
  rw [Parse.elements]
  refine (he (by decide)).bind fun t ht => Produces.of_does_bind does_eatSymbol_true ?_
  rw [if_pos rfl]
  exact hs.bind fun u hu => .pure (.node (ht.cons (.singleton hu)))

theorem tail (he : (Part.expression listElement false none).Reads n w X a (.symbolic "|" :: Y))
    (ht : (Part.expression listElement false none).Reads n (a.build w).2 Y b Z) :
    Part.elements.Reads (n + 1) w X (.cell a b) Z := by
  unfold Part.Reads
  rw [Parse.elements]
  refine (he (by decide)).bind fun t hfirst => Produces.of_does_bind (does_eatSymbol_false (by simp)) ?_
  rw [if_neg Bool.false_ne_true]
  refine Produces.of_does_bind does_eatSymbol_true ?_
  rw [if_pos rfl]
  exact (ht (by decide)).bind fun u hu => .pure (.node (hfirst.cons (.singleton hu)))

theorem last (he : (Part.expression listElement false none).Reads n w X a Y)
    (hc : Y.headD .endOfInput ≠ .symbolic ",") (hb : Y.headD .endOfInput ≠ .symbolic "|") :
    Part.elements.Reads (n + 1) w X (.cell a .nil) Y := by
  unfold Part.Reads
  rw [Parse.elements]
  refine (he (by decide)).bind fun t ht => Produces.of_does_bind (does_eatSymbol_false hc) ?_
  rw [if_neg Bool.false_ne_true]
  refine Produces.of_does_bind (does_eatSymbol_false hb) ?_
  rw [if_neg Bool.false_ne_true]
  exact .pure (.node (ht.cons (.singleton rfl)))

end Part.Reads

/-- What the tokens derive is read from them. -/
theorem Derives.reads (h : Derives v part X a Y) (hw : w.WellFormed) (hv : SameOperators v w)
    (hn : 4 * X.length + part.slack ≤ n) : part.Reads n w X a Y := by
  have hb : ∀ {w : Vocabulary} (a : SyntaxTree), w.WellFormed → SameOperators v w →
      (a.build w).2.WellFormed ∧ SameOperators v (a.build w).2 := fun a hw hv =>
    ⟨a.build_wellFormed hw, hv.trans (a.build_sameOperators hw)⟩
  -- The fuel pays for four calls a token; the slack of a part is what it spends before its first token.
  induction h generalizing n w with
    (obtain ⟨n, rfl⟩ : ∃ m, n = m + 1 := ⟨n - 1, by
      simp only [Part.slack, List.length_cons] at hn
      omega⟩
     simp only [Part.slack, List.length_cons] at *)
  | expression ho hc iho ihc =>
    have := ho.length_le
    exact .expression (iho hw hv (by omega)) (ihc hw hv (by omega))
  | stop h => exact .stop (hb _ hw hv).2 h
  | after h hl hc hp hd ih => exact .after (hb _ hw hv).2 h hl hc hp (ih hw hv (by omega))
  | @between _ _ _ _ _ _ a _ _ _ _ _ h hl hc hp he hd ihe ihd =>
    obtain ⟨hw', hv'⟩ := hb a hw hv
    have := he.length_le
    exact .between hv' h hl hc hw' hp (ihe hw' hv' (by omega)) (ihd hw hv (by omega))
  | before h hl he ih => exact .before hv hw h hl (ih hw hv (by omega))
  | application h ha hs iha ihs =>
    have := ha.length_lt rfl
    exact .application hv h (iha hw hv (by omega)) (ihs hw hv (by omega))
  | noArgument h => exact .noArgument (hb _ hw hv).2 h
  | @argument _ _ _ a _ _ h ha hd hs ihd ihs =>
    obtain ⟨hw', hv'⟩ := hb a hw hv
    have := hd.length_lt rfl
    exact .argument hv' h ha (ihd hw' hv' (by omega)) (ihs hw hv (by omega))
  | single h hb => exact h.reads hv hb
  | lambda he ih => exact .lambda (ih hw hv (by omega))
  | lone h => exact .lone hv h
  | group h he ih => exact .group hv h (ih hw hv (by omega))
  | nil => exact .nil
  | list h he ih => exact .list h (ih hw hv (by omega))
  | spill he ih => exact .spill (ih hw hv (by omega))
  | @more _ _ _ a _ he hs ihe ihs =>
    obtain ⟨hw', hv'⟩ := hb a hw hv
    have := he.length_lt rfl
    simp only [List.length_cons] at this
    exact .more (ihe hw hv (by omega)) (ihs hw' hv' (by omega))
  | @tail _ _ _ a _ he ht ihe iht =>
    obtain ⟨hw', hv'⟩ := hb a hw hv
    have := he.length_lt rfl
    simp only [List.length_cons] at this
    exact .tail (ihe hw hv (by omega)) (iht hw' hv' (by omega))
  | last he hc hb ih => exact .last (ih hw hv (by omega)) hc hb

end Grammar

end Clausal
