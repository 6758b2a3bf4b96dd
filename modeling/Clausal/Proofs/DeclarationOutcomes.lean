import Clausal.Proofs.TermOutcomes

/-!
# How the readers of declarations end

A declaration reads its keyword or a term at least, and so does every round of a repetition in it. All
terms of what it gives are in flat form over the vocabulary that it leaves behind.
-/
namespace Clausal.Parse

variable {loader : Loader} {α : Type} {s : ParseState}

namespace Delivers

theorem string : Delivers loader (fun _ _ => True) string s := by
  refine next.bind fun t s₁ _ _ => ?_
  split
  · exact pure trivial
  · exact failExpected _ _

theorem indexDepths : Delivers loader (fun _ _ => True) indexDepths s := by
  refine repeated (I := fun _ _ => True) trivial fun depths s' _ _ => next.bind ?_
  rintro ⟨kind, span⟩ s₁ - ⟨-, hleft, -⟩
  cases kind <;> dsimp only
  case rightParen => exact pure (.done trivial)
  case ident name =>
    split_ifs
    · exact pure (.again hleft trivial)
    · exact failExpected _ _
  case int digits =>
    split
    · exact pure (.again hleft trivial)
    · exact fail (.plain rfl rfl)
  all_goals exact failExpected _ _

theorem oneAttribute : Delivers loader (fun _ _ => True) oneAttribute s := by
  refine next.bind fun t s₁ _ _ => ?_
  split
  · exact string.bind fun _ _ _ _ => pure trivial
  · exact string.bind fun _ _ _ _ => pure trivial
  · exact string.bind fun _ _ _ _ => pure trivial
  · exact string.bind fun _ _ _ _ => pure trivial
  · exact pure trivial
  · exact (expect _).bind fun _ _ _ _ => indexDepths.bind fun _ _ _ _ => pure trivial
  · exact failAt rfl rfl
  · exact failExpected _ _

theorem attributes : Delivers loader (fun _ _ => True) attributes s := by
  refine repeated (I := fun _ _ => True) trivial fun found s' _ _ => ?_
  refine (eatSymbol ":").bind fun colon s₁ _ hcolon => ?_
  split_ifs with h
  · exact oneAttribute.bind fun _ s₂ h₂ _ =>
      pure (.again (Nat.lt_of_le_of_lt h₂.left (hcolon h)) trivial)
  · exact pure (.done trivial)

/-- Items with commas between them, of which each takes an item of the text. -/
theorem separated {P : α → ParseState → Prop} {item : Parse α}
    (hmono : ∀ {a s s'}, ParseState.Before s s' → P a s → P a s')
    (hitem : ∀ s', s.Before s' → Delivers loader (fun a s'' => s''.left < s'.left ∧ P a s'') item s') :
    Delivers loader (fun as s' => ∀ a ∈ as, P a s') (separated item) s := by
  refine repeated (I := fun as s' => ∀ a ∈ as, P a s') (by simp) fun found s₁ h₁ hfound => ?_
  refine (hitem s₁ h₁).bind fun a s₂ h₂ ha => (eatSymbol ",").bind fun comma s₃ h₃ _ => ?_
  have hall : ∀ b ∈ found ++ [a], P b s₃ := by
    intro b hb
    rcases List.mem_append.1 hb with hb | hb
    · exact hmono (h₂.trans h₃) (hfound b hb)
    · exact List.mem_singleton.1 hb ▸ hmono h₃ ha.2
  split_ifs
  · exact pure (.again (Nat.lt_of_le_of_lt h₃.left ha.1) hall)
  · exact pure (.done hall)

/-- The same where nothing is to be said of the items. -/
theorem separated_any {item : Parse α}
    (hitem : ∀ s', s.Before s' → Delivers loader (fun _ s'' => s''.left < s'.left) item s') :
    Delivers loader (fun _ _ => True) (Parse.separated item) s :=
  (separated (P := fun _ _ => True) (fun _ _ => trivial) fun s' hs' =>
    (hitem s' hs').mono fun _ _ _ h => ⟨h, trivial⟩).mono fun _ _ _ _ => trivial

theorem declaredName : Delivers loader (fun _ s' => s'.left < s.left) declaredName s := by
  refine next.bind ?_
  rintro ⟨kind, span⟩ s₁ - ⟨-, hleft, -⟩
  cases kind <;> dsimp only
  case ident name | macroName name =>
    exact (intern name).mono fun _ _ h _ => Nat.lt_of_le_of_lt h.left hleft
  case symbolic name =>
    split_ifs
    · exact failExpected _ _
    · exact (intern name).mono fun _ _ h _ => Nat.lt_of_le_of_lt h.left hleft
  case leftParen =>
    refine next.bind ?_
    rintro ⟨kind, span⟩ s₂ h₂ -
    cases kind <;> dsimp only
    case ident name | symbolic name | macroName name =>
      exact (intern name).bind fun _ s₃ h₃ _ => (expect _).bind fun _ s₄ h₄ _ =>
        pure (Nat.lt_of_le_of_lt (h₂.trans (h₃.trans h₄)).left hleft)
    all_goals exact failExpected _ _
  all_goals exact failExpected _ _

theorem declaredNames : Delivers loader (fun _ _ => True) declaredNames s :=
  separated_any fun _ _ => declaredName

theorem namesBeforeBrace : Delivers loader (fun _ _ => True) namesBeforeBrace s := by
  refine repeated (I := fun _ _ => True) trivial fun names s' _ _ => Looks.bind peek fun t _ => ?_
  split_ifs
  · exact next.bind fun _ _ _ _ => pure (.done trivial)
  · exact declaredName.bind fun _ _ _ h => pure (.again h trivial)

theorem shorthand (nameSpace : String) :
    Delivers loader (fun _ s' => s'.left < s.left) (shorthand nameSpace) s := by
  refine next.bind ?_
  rintro ⟨kind, span⟩ s₁ - ⟨-, hleft, -⟩
  cases kind <;> dsimp only
  case ident name =>
    exact (intern _).bind fun _ s₂ h₂ _ => (intern _).bind fun _ s₃ h₃ _ =>
      pure (Nat.lt_of_le_of_lt (h₂.trans h₃).left hleft)
  all_goals exact failExpected _ _

theorem shorthandGroup : Delivers loader (fun _ s' => s'.left < s.left) shorthandGroup s := by
  refine next.bind ?_
  rintro ⟨kind, span⟩ s₁ - ⟨-, hleft, -⟩
  cases kind <;> dsimp only
  case ident nameSpace =>
    refine next.bind fun point s₂ h₂ _ => ?_
    split_ifs
    · exact (expect _).bind fun _ s₃ h₃ _ => (separated_any fun _ _ => shorthand nameSpace).bind
        fun _ s₄ h₄ _ => (expect _).bind fun _ s₅ h₅ _ =>
          pure (Nat.lt_of_le_of_lt (h₂.trans (h₃.trans (h₄.trans h₅))).left hleft)
    · exact failExpected _ _
  all_goals exact failExpected _ _

/-- A refused operator is no anomaly. -/
theorem anomaly?_of_defineOperator {v : Vocabulary} {name : String} {fixity : Fixity} {precedence : Int}
    {e : TermError} (h : (v.defineOperator name fixity precedence).1 = .error e) :
    e.anomaly? = none := by
  unfold Vocabulary.defineOperator at h
  split_ifs at h
  · obtain rfl := Except.error.inj h
    rfl
  · dsimp only at h
    cases hd : (v.intern name).2.operators.define (v.intern name).1 ⟨fixity, precedence.toNat⟩ with
    | ok operators => rw [hd] at h; cases h
    | error old =>
      rw [hd] at h
      obtain rfl := Except.error.inj h
      rfl

theorem defineAll (fixity : Fixity) (precedence : Nat) (names : List (String × Span)) :
    Delivers loader (fun _ _ => True) (defineAll fixity precedence names) s := by
  induction names generalizing s with
  | nil => exact pure trivial
  | cons n rest ih =>
    obtain ⟨name, span⟩ := n
    have hdefine : Delivers loader (fun (r : Except TermError Symbol) _ => ∀ e, r = .error e →
        e.anomaly? = none) (Parse.change (·.defineOperator name fixity precedence)) s :=
      change (.operator name fixity precedence) rfl fun _ h => anomaly?_of_defineOperator h
    refine hdefine.bind fun r s₁ _ hr => ?_
    cases r with
    | ok _ => exact ih
    | error e => exact failAt rfl (hr e rfl)

theorem operators (fixity : Fixity) : Delivers loader (fun _ _ => True) (operators fixity) s := by
  refine repeated (I := fun _ _ => True) trivial fun names s' _ _ => next.bind ?_
  rintro ⟨kind, span⟩ s₁ - ⟨-, hleft, -⟩
  cases kind <;> dsimp only
  case int digits =>
    split
    · exact fail (.plain rfl rfl)
    · split_ifs
      · exact failAt rfl rfl
      · exact (defineAll fixity _ names).bind fun _ _ _ _ => pure (.done trivial)
  case ident name | symbolic name => exact pure (.again hleft trivial)
  all_goals exact failExpected _ _

theorem terms_typesOf {v : Vocabulary} {type : Term} (h : type.FlatIn v) (span : Span)
    (names : List Symbol) (attributes : List Attribute) :
    Term.AllFlatIn v (typesOf span names attributes type).terms := by
  intro t ht
  obtain ⟨d, hd, rfl⟩ := List.mem_map.1 ht
  obtain ⟨name, -, rfl⟩ := List.mem_map.1 hd
  exact h

theorem typeDecl (start : Span) (attributes : List Attribute) :
    Delivers loader (fun d s' => Term.AllFlatIn s'.vocabulary d.terms) (typeDecl start attributes) s :=
  declaredNames.bind fun _ _ _ _ => term.bind fun _ _ _ ht => (expect _).bind fun _ _ h _ =>
    Looks.bind (spanFrom _) fun _ _ => pure (terms_typesOf (ht.flat.mono h.names) _ _ _)

theorem mode : Delivers loader (fun _ s' => s'.left < s.left) mode s := by
  refine (expect _).bind fun first s₁ _ h₁ => declaredName.bind fun name s₂ h₂ _ => ?_
  refine bind (Q := fun _ _ => True) (repeated (I := fun _ _ => True) trivial fun args s' _ _ =>
    next.bind ?_) fun args s₃ h₃ _ => Looks.bind (spanFrom _) fun _ _ => pure ?_
  · rintro ⟨kind, span⟩ s₃ - ⟨-, hleft, -⟩
    split_ifs
    · exact pure (.done trivial)
    · split
      · next d hd =>
        have hwidth : kind.width = 1 := by
          cases kind <;> first | rfl | cases hd
        exact pure (.again (by simp only [hwidth] at hleft; omega) trivial)
      · exact failExpected _ _
  · exact Nat.lt_of_le_of_lt (h₂.trans h₃).left h₁

theorem predicateArg :
    Delivers loader (fun a s' => s'.left < s.left ∧ a.2.FlatIn s'.vocabulary) predicateArg s := by
  refine next.bind fun t s₁ h₁ _ => ?_
  split
  · exact failExpected _ _
  · refine next.bind fun colon s₂ h₂ _ => ?_
    split_ifs
    · exact (expressionAt _ _).bind fun type s₃ h₃ ht =>
        pure ⟨Nat.lt_of_lt_of_le ht.left (h₁.trans h₂).left, ht.flat⟩
    · exact failExpected _ _

theorem predicate (start : Span) (attributes : List Attribute) :
    Delivers loader (fun ds s' => Term.AllFlatIn s'.vocabulary (termsOf ds))
      (predicate start attributes) s := by
  refine declaredName.bind fun name s₁ _ _ => Looks.bind peek fun t _ => ?_
  have hend : ∀ (args : List (Direction × Term)) s, (∀ a ∈ args, a.2.FlatIn s.vocabulary) →
      Delivers loader (fun ds s' => Term.AllFlatIn s'.vocabulary (termsOf ds)) (do
        let _ ← Parse.expect .stop
        let span ← Parse.spanFrom start
        Pure.pure [Decl.modes [⟨span, name, args.map (·.1)⟩],
          Decl.types [⟨span, attributes, name, predicateType (args.map (·.2))⟩]]) s := by
    intro args s hargs
    refine (expect _).bind fun _ s' h _ => Looks.bind (spanFrom _) fun span _ => pure ?_
    have htypes : Term.AllFlatIn s'.vocabulary (args.map (·.2)) := by
      intro t ht
      obtain ⟨a, ha, rfl⟩ := List.mem_map.1 ht
      exact (hargs a ha).mono h.names
    simpa [termsOf, Decl.terms] using Term.FlatIn.predicateType htypes
  split_ifs
  · exact hend [] s₁ (by simp)
  · have hargs : Delivers loader (fun args s' => ∀ a ∈ args, a.2.FlatIn s'.vocabulary)
        (Parse.separated Parse.predicateArg) s₁ :=
      separated (P := fun (a : Direction × Term) s => a.2.FlatIn s.vocabulary)
        (fun h ht => ht.mono h.names) fun _ _ => predicateArg
    exact hargs.bind fun args s₂ _ h => hend args s₂ h

theorem parameters (span : Span) {args : List Term} (h : Term.AllFlatIn s.vocabulary args) :
    Looks loader (fun params => ∀ x ∈ params, s.vocabulary.Knows x) (parameters span args) s := by
  induction args with
  | nil => exact pure ⟨rfl, by simp⟩
  | cons arg rest ih =>
    rw [Term.AllFlatIn.cons_iff] at h
    cases arg with
    | const x =>
      refine Looks.bind (ih h.2) fun params hparams => pure ⟨rfl, ?_⟩
      exact List.forall_mem_cons.2 ⟨h.1.of_symbol? rfl, hparams⟩
    | _ =>
      refine Looks.bind vocabulary fun v hv => ?_
      subst hv
      exact failAt_shown h.1 rfl rfl

theorem macroDecl (start : Span) :
    Delivers loader (fun d s' => Term.AllFlatIn s'.vocabulary d.terms) (macroDecl start) s := by
  refine term.bind fun t s₁ _ ht => (expect _).bind fun _ s₂ h₂ _ =>
    Looks.bind (spanFrom _) fun span _ => ?_
  split
  · next head body hargs =>
    have hall : Term.AllFlatIn s₂.vocabulary [head, body] := (ht.flat.mono h₂.names).of_argsOf? hargs
    simp only [Term.AllFlatIn.cons_iff] at hall
    obtain ⟨hhead, hbody, -⟩ := hall
    refine Looks.bind vocabulary fun v hv => ?_
    subst hv
    split
    · refine Looks.bind (parameters span fun u hu => hhead.of_mem_args hu) fun params hp => pure ?_
      exact Term.AllFlatIn.cons_iff.2 ⟨.abstract hp hbody, .nil⟩
    · exact failAt_shown hhead rfl rfl
  · exact failAt rfl rfl

theorem typeAbbreviation (start : Span) :
    Delivers loader (fun d s' => Term.AllFlatIn s'.vocabulary d.terms) (typeAbbreviation start) s := by
  refine closedTerm.bind fun head s₁ _ hhead => term.bind fun value s₂ h₂ hvalue =>
    (expect _).bind fun _ s₃ h₃ _ => Looks.bind (spanFrom _) fun span _ => ?_
  have hhead' := hhead.flat.mono (h₂.trans h₃).names
  split
  · refine Looks.bind (parameters span fun u hu => hhead'.of_mem_args hu) fun params hp => pure ?_
    exact Term.AllFlatIn.cons_iff.2 ⟨.abstract hp (hvalue.flat.mono h₃.names), .nil⟩
  · refine Looks.bind vocabulary fun v hv => ?_
    subst hv
    exact failAt_shown hhead' rfl rfl

theorem sequentOf {t : Term} (h : t.FlatIn s.vocabulary) :
    Delivers loader (fun q s' => Term.AllFlatIn s'.vocabulary q.terms) (sequentOf t) s := by
  unfold Parse.sequentOf
  split
  · next front conclusion hargs =>
    have hall : Term.AllFlatIn s.vocabulary [front, conclusion] := h.of_argsOf? hargs
    simp only [Term.AllFlatIn.cons_iff] at hall
    obtain ⟨hfront, hconclusion, -⟩ := hall
    split
    · next eigen context hargs' =>
      have hall : Term.AllFlatIn s.vocabulary [eigen, context] := hfront.of_argsOf? hargs'
      simp only [Term.AllFlatIn.cons_iff] at hall
      exact pure (by simp [Sequent.terms, hall.1, hall.2.1, hconclusion])
    · refine freshVariable.bind fun eigen s₁ h₁ heigen => pure ?_
      simp [Sequent.terms, heigen.2, hfront.mono h₁.names, hconclusion.mono h₁.names]
  · refine freshVariable.bind fun eigen s₁ h₁ heigen => freshVariable.bind fun context s₂ h₂ hcontext =>
      pure ?_
    simp [Sequent.terms, heigen.2.mono h₂.names, hcontext.2, h.mono (h₁.trans h₂).names]

theorem sequent : Delivers loader (fun q s' => s'.left < s.left ∧ Term.AllFlatIn s'.vocabulary q.terms)
    sequent s :=
  closedTerm.bind fun _ _ _ ht => (sequentOf ht.flat).mono fun _ _ h hq =>
    ⟨Nat.lt_of_le_of_lt h.left ht.left, hq⟩

theorem sequents : Delivers loader (fun qs s' => Term.AllFlatIn s'.vocabulary
    (qs.flatMap Sequent.terms)) sequents s := by
  refine repeated (I := fun qs s' => Term.AllFlatIn s'.vocabulary (qs.flatMap Sequent.terms))
    (by simp) fun found s₁ _ hfound => Looks.bind peek fun t _ => ?_
  split_ifs
  · exact pure (.done hfound)
  · exact sequent.bind fun q s₂ h₂ hq =>
      pure (.again hq.1 (by simpa using ⟨hfound.mono h₂.names, hq.2⟩))

/-- The last part of a rule, behind its guard. -/
theorem ruleDecl_goal (start : Span) (attributes : List Attribute) {matched removed : List Sequent}
    {guard : Option Term} (hmatched : Term.AllFlatIn s.vocabulary (matched.flatMap Sequent.terms))
    (hremoved : Term.AllFlatIn s.vocabulary (removed.flatMap Sequent.terms))
    (hguard : Term.AllFlatIn s.vocabulary guard.toList) :
    Delivers loader (fun d s' => Term.AllFlatIn s'.vocabulary d.terms) (do
      let goal ← if ← Parse.eatSymbol "<=>" then some <$> Parse.sequent else Pure.pure none
      let _ ← Parse.expect .stop
      Pure.pure (Decl.rule ⟨matched, removed, guard, goal, attributes, ← Parse.spanFrom start⟩)) s := by
  have hend : ∀ (goal : Option Sequent) s', s.Before s' →
      Term.AllFlatIn s'.vocabulary (goal.toList.flatMap Sequent.terms) →
      Delivers loader (fun d s' => Term.AllFlatIn s'.vocabulary d.terms) (do
        let _ ← Parse.expect .stop
        Pure.pure (Decl.rule ⟨matched, removed, guard, goal, attributes, ← Parse.spanFrom start⟩))
        s' := by
    intro goal s' hs' hgoal
    refine (expect _).bind fun _ s'' hs'' _ => Looks.bind (spanFrom _) fun _ _ => pure ?_
    have hnames := (hs'.trans hs'').names
    simp only [Decl.terms, Rule.terms, Term.AllFlatIn.append_iff]
    exact ⟨⟨⟨hmatched.mono hnames, hremoved.mono hnames⟩, hguard.mono hnames⟩, hgoal.mono hs''.names⟩
  refine (eatSymbol _).bind fun arrow s₁ h₁ _ => ?_
  dsimp only
  split_ifs
  · refine (sequent.map (S := fun goal s' => Term.AllFlatIn s'.vocabulary
      (goal.toList.flatMap Sequent.terms)) fun q s' _ hq => by simpa using hq.2).bind ?_
    exact fun goal s₂ h₂ hgoal => hend goal s₂ (h₁.trans h₂) hgoal
  · exact hend none s₁ h₁ (by simp)

/-- The end of a rule, behind the sequents that it removes. -/
theorem ruleDecl_guard (start : Span) (attributes : List Attribute) {matched removed : List Sequent}
    (hmatched : Term.AllFlatIn s.vocabulary (matched.flatMap Sequent.terms))
    (hremoved : Term.AllFlatIn s.vocabulary (removed.flatMap Sequent.terms)) :
    Delivers loader (fun d s' => Term.AllFlatIn s'.vocabulary d.terms) (do
      let guard ← if ← Parse.eatSymbol "|" then some <$> Parse.closedTerm else Pure.pure none
      let goal ← if ← Parse.eatSymbol "<=>" then some <$> Parse.sequent else Pure.pure none
      let _ ← Parse.expect .stop
      Pure.pure (Decl.rule ⟨matched, removed, guard, goal, attributes, ← Parse.spanFrom start⟩)) s := by
  refine (eatSymbol _).bind fun bar s₁ h₁ _ => ?_
  dsimp only
  split_ifs
  · refine (closedTerm.map (S := fun guard s' => Term.AllFlatIn s'.vocabulary guard.toList)
      fun t s' _ ht => by simpa using ht.flat).bind fun guard s₂ h₂ hguard => ?_
    have hnames := (h₁.trans h₂).names
    exact ruleDecl_goal start attributes (hmatched.mono hnames) (hremoved.mono hnames) hguard
  · exact ruleDecl_goal start attributes (hmatched.mono h₁.names) (hremoved.mono h₁.names) (by simp)

theorem ruleDecl (start : Span) (attributes : List Attribute) :
    Delivers loader (fun d s' => Term.AllFlatIn s'.vocabulary d.terms) (ruleDecl start attributes) s := by
  refine sequents.bind fun matched s₁ _ hmatched => Looks.bind peek fun t _ => ?_
  dsimp only
  split_ifs
  · refine next.bind fun _ s₂ h₂ _ => sequents.bind fun removed s₃ h₃ hremoved => ?_
    exact ruleDecl_guard start attributes (hmatched.mono (h₂.trans h₃).names) hremoved
  · exact ruleDecl_guard start attributes hmatched (by simp)

theorem localDecls (start : Span) :
    Delivers loader (fun ds s' => Term.AllFlatIn s'.vocabulary (termsOf ds)) (localDecls start) s := by
  refine declaredNames.bind fun names s₁ _ _ => Looks.bind peek fun t _ => ?_
  split_ifs
  · exact next.bind fun _ _ _ _ => Looks.bind (spanFrom _) fun _ _ =>
      pure (by simp [termsOf, Decl.terms])
  · refine term.bind fun type s₂ _ ht => (expect _).bind fun _ s₃ h₃ _ =>
      Looks.bind (spanFrom _) fun span _ => pure ?_
    simpa [termsOf, Decl.terms] using terms_typesOf (ht.flat.mono h₃.names) span names []

/-- A reader of one declaration reads a list of one. -/
theorem one {p : Parse Decl} (hp : Delivers loader (fun d s' => Term.AllFlatIn s'.vocabulary d.terms) p s) :
    Delivers loader (fun ds s' => Term.AllFlatIn s'.vocabulary (termsOf ds))
      (do Pure.pure [← p]) s :=
  hp.bind fun _ _ _ hd => pure (by simpa [termsOf] using hd)

theorem externalDecl (start : Span) (attributes : List Attribute) :
    Delivers loader (fun ds s' => Term.AllFlatIn s'.vocabulary (termsOf ds))
      (externalDecl start attributes) s := by
  refine next.bind fun t s₁ _ _ => ?_
  dsimp only
  split
  · exact one (typeDecl start _)
  · exact one (typeDecl start _)
  · exact predicate start _
  · exact failExpected _ _

theorem width_of_keyword {kind : TokenKind} {keyword : Keyword} (h : Keyword.of? kind = some keyword) :
    kind.width = 1 := by
  cases kind <;> first | rfl | cases h

/-- From any state in which these texts have been seen, whatever is included delivers. -/
def Includes (loader : Loader) (seen : List Digest) (incl : Include) : Prop :=
  ∀ span name (s : ParseState), (∀ d ∈ seen, d ∈ s.seen) →
    Delivers loader (fun unit s' => Term.AllFlatIn s'.vocabulary (termsOf unit.2)) (incl span name) s

section

variable {incl : Include} {seen : List Digest} (hincl : Includes loader seen incl)
include hincl

theorem inclusion (hs : ∀ d ∈ seen, d ∈ s.seen) :
    Delivers loader (fun unit s' => s'.left < s.left ∧
      Term.AllFlatIn s'.vocabulary (termsOf unit.2)) (inclusion incl) s := by
  refine next.bind ?_
  rintro ⟨kind, span⟩ s₁ h₁ ⟨-, hleft, -⟩
  have hseen : ∀ d ∈ seen, d ∈ s₁.seen := fun d hd => h₁.seen d (hs d hd)
  cases kind <;> dsimp only
  case ident name | string name =>
    exact (hincl span name s₁ hseen).mono fun _ _ h ht => ⟨Nat.lt_of_le_of_lt h.left hleft, ht⟩
  all_goals exact failExpected _ _

theorem accumulateDecl (start : Span) (hs : ∀ d ∈ seen, d ∈ s.seen) :
    Delivers loader (fun d s' => Term.AllFlatIn s'.vocabulary d.terms)
      (accumulateDecl incl start) s := by
  have hunits : Delivers loader (fun units s' => ∀ unit ∈ units,
      Term.AllFlatIn s'.vocabulary (termsOf unit.2)) (Parse.separated (Parse.inclusion incl)) s :=
    separated (P := fun (unit : Digest × List Decl) s => Term.AllFlatIn s.vocabulary (termsOf unit.2))
      (fun h ht => ht.mono h.names) fun s' hs' => inclusion hincl fun d hd => hs'.seen d (hs d hd)
  refine hunits.bind fun units s₁ _ h => (expect _).bind fun _ s₂ h₂ _ =>
    Looks.bind (spanFrom _) fun span _ => pure ?_
  rw [Decl.terms]
  clear hunits
  induction units with
  | nil => exact .nil
  | cons unit rest ih =>
    rw [List.forall_mem_cons] at h
    rw [termsOfUnits, Term.AllFlatIn.append_iff]
    exact ⟨h.1.mono h₂.names, ih h.2⟩

theorem keywordDecl (start : Span) (attributes : List Attribute) (keyword : Keyword)
    (hs : ∀ d ∈ seen, d ∈ s.seen) :
    Delivers loader (fun ds s' => Term.AllFlatIn s'.vocabulary (termsOf ds))
      (keywordDecl incl start attributes keyword) s := by
  cases keyword
  case nameSpace =>
    exact declaredName.bind fun _ _ _ _ => (expect _).bind fun _ _ _ _ =>
      Looks.bind (spanFrom _) fun _ _ => pure (by simp [termsOf, Decl.terms])
  case constraint =>
    exact namesBeforeBrace.bind fun _ _ _ _ => Looks.bind (spanFrom _) fun _ _ =>
      pure (by simp [termsOf, Decl.terms])
  case shorten =>
    exact (separated_any fun _ _ => shorthandGroup).bind fun _ _ _ _ => (expect _).bind fun _ _ _ _ =>
      Looks.bind (spanFrom _) fun _ _ => pure (by simp [termsOf, Decl.terms])
  case localNames => exact localDecls start
  case type | kind => exact one (typeDecl start attributes)
  case external => exact externalDecl start attributes
  case mode =>
    exact (separated_any fun _ _ => mode).bind fun _ _ _ _ => (expect _).bind fun _ _ _ _ =>
      pure (by simp [termsOf, Decl.terms])
  case pred => exact predicate start attributes
  case macroDef => exact one (macroDecl start)
  case typeAbbreviation => exact one (typeAbbreviation start)
  case rule => exact one (ruleDecl start attributes)
  case accumulate => exact one (accumulateDecl hincl start hs)
  case fixity f =>
    exact (operators f).bind fun _ _ _ _ => (expect _).bind fun _ _ _ _ =>
      Looks.bind (spanFrom _) fun _ _ => pure (by simp [termsOf, Decl.terms])

theorem attributedDecl (start : Span) (hs : ∀ d ∈ seen, d ∈ s.seen) :
    Delivers loader (fun ds s' => s'.left < s.left ∧ Term.AllFlatIn s'.vocabulary (termsOf ds))
      (attributedDecl incl start) s := by
  refine attributes.bind fun found s₁ h₁ _ => Looks.bind peek fun t ht => ?_
  split
  · refine term.bind fun body s₂ _ hbody => (expect _).bind fun _ s₃ h₃ _ =>
      Looks.bind (spanFrom _) fun span _ => pure ⟨?_, ?_⟩
    · exact Nat.lt_of_le_of_lt h₃.left (Nat.lt_of_lt_of_le hbody.left h₁.left)
    · simpa [termsOf, Decl.terms] using hbody.flat.mono h₃.names
  · next keyword hkeyword =>
    split_ifs
    · exact failAt rfl rfl
    · refine next.bind fun _ s₂ h₂ ht' => ?_
      have hleft := ht'.left_lt ht (width_of_keyword hkeyword)
      have hseen : ∀ d ∈ seen, d ∈ s₂.seen := fun d hd => (h₁.trans h₂).seen d (hs d hd)
      refine (keywordDecl hincl start found keyword hseen).mono fun ds s₃ h₃ hds => ⟨?_, hds⟩
      exact Nat.lt_of_le_of_lt h₃.left (Nat.lt_of_lt_of_le hleft h₁.left)

theorem declaration (hs : ∀ d ∈ seen, d ∈ s.seen) :
    Delivers loader (fun ds s' => s'.left < s.left ∧ Term.AllFlatIn s'.vocabulary (termsOf ds))
      (declaration incl) s := by
  refine Looks.bind peek fun t ht => ?_
  split
  case h_3 => exact attributedDecl hincl t.span hs
  all_goals
    next hkind =>
    exact next.bind fun _ s₁ _ ht' =>
      pure ⟨ht'.left_lt ht (hkind ▸ rfl), by simp [termsOf, Decl.terms]⟩

theorem declarations (hs : ∀ d ∈ seen, d ∈ s.seen) :
    Delivers loader (fun ds s' => Term.AllFlatIn s'.vocabulary (termsOf ds)) (declarations incl) s := by
  refine repeated (I := fun ds s' => Term.AllFlatIn s'.vocabulary (termsOf ds)) (by simp [termsOf])
    fun found s₁ h₁ hfound => Looks.bind peek fun t _ => ?_
  split_ifs
  · exact pure (.done hfound)
  · refine (declaration hincl fun d hd => h₁.seen d (hs d hd)).bind fun ds s₂ h₂ hds =>
      pure (.again hds.1 ?_)
    rw [termsOf_append, Term.AllFlatIn.append_iff]
    exact ⟨hfound.mono h₂.names, hds.2⟩

end

end Delivers

end Clausal.Parse
