import Clausal.Proofs.CheckedTerms
import Clausal.Proofs.DeclarationOutcomes

/-!
# Readers of declarations that check what they rely on

What the readers of declarations show in their errors are terms that have just been read, and what they take
the first character of is the name of a symbol that has just been read. The readers here check that these
have names, and read terms with the checks that these need.
-/
namespace Clausal.Parse

namespace Checked

section

-- The step that is run when a check fails.
variable (halt : (α : Type) → Parse α)

def typeDecl (start : Span) (attributes : List Attribute) : Parse Decl := do
  let names ← declaredNames
  let type ← term halt
  let _ ← expect .stop
  pure (typesOf (← spanFrom start) names attributes type)

def predicateArg : Parse (Direction × Term) := do
  let t ← next
  match direction? t.kind with
  | none => failExpected .mode t
  | some d =>
    let colon ← next
    if colon.isSymbol ":" then
      let type ← expressionAt halt Precedence.predicateArgument true
      pure (d, type)
    else failExpected .colonAfterMode colon

def predicate (start : Span) (attributes : List Attribute) : Parse (List Decl) := do
  let name ← declaredName
  let args ← if (← peek).kind = .stop then pure [] else separated (predicateArg halt)
  let _ ← expect .stop
  let span ← spanFrom start
  pure [.modes [⟨span, name, args.map (·.1)⟩],
    .types [⟨span, attributes, name, predicateType (args.map (·.2))⟩]]

/-- The names that stand as parameters. What does not is shown. -/
def parameters (span : Span) : List Term → Parse (List Symbol)
  | [] => pure []
  | .const s :: rest => do pure (s :: (← parameters span rest))
  | other :: _ => do
    shows halt other
    failAt span (.parameter ((← vocabulary).render other))

/-- The head of a macro that has no name, or not the name of a macro. -/
def misnamed (span : Span) (head : Term) : Parse Decl := do
  shows halt head
  failAt span (.macroName ((← vocabulary).render head))

def macroDecl (start : Span) : Parse Decl := do
  let t ← term halt
  let _ ← expect .stop
  let span ← spanFrom start
  match t.argsOf? Symbol.neck with
  | some [head, body] =>
    match head.headSymbol? with
    | none => misnamed halt span head
    | some name =>
      match (← vocabulary).symbols.name? name with
      | none => halt Decl
      | some shown =>
        if shown.toList.head? = some '@' then
          let params ← parameters halt span head.args
          pure (.macroDef ⟨span, name, Term.abstract params body⟩)
        else misnamed halt span head
  | _ => failAt span .macroForm

def typeAbbreviation (start : Span) : Parse Decl := do
  let head ← closedTerm halt
  let value ← term halt
  let _ ← expect .stop
  let span ← spanFrom start
  match head.headSymbol? with
  | some name =>
    let params ← parameters halt span head.args
    pure (.typeAbbreviation ⟨span, name, Term.abstract params value, params.length⟩)
  | none =>
    shows halt head
    failAt span (.abbreviationHead ((← vocabulary).render head))

def sequent : Parse Sequent := do sequentOf (← closedTerm halt)

def sequents : Parse (List Sequent) :=
  repeated (fun found => do
    if endsSequents (← peek) then pure (.done found)
    else pure (.again (found ++ [← sequent halt]))) []

def ruleDecl (start : Span) (attributes : List Attribute) : Parse Decl := do
  let matched ← sequents halt
  let removed ←
    if (← peek).kind = .backslash then do
      let _ ← next
      sequents halt
    else pure []
  let guard ← if ← eatSymbol "|" then some <$> closedTerm halt else pure none
  let goal ← if ← eatSymbol "<=>" then some <$> sequent halt else pure none
  let _ ← expect .stop
  pure (.rule ⟨matched, removed, guard, goal, attributes, ← spanFrom start⟩)

def localDecls (start : Span) : Parse (List Decl) := do
  let names ← declaredNames
  if (← peek).kind = .stop then
    let _ ← next
    pure [.locals (← spanFrom start) names]
  else
    let type ← term halt
    let _ ← expect .stop
    let span ← spanFrom start
    pure [.locals span names, typesOf span names [] type]

def externalDecl (start : Span) (attributes : List Attribute) : Parse (List Decl) := do
  let t ← next
  let attributes := attributes ++ [.external]
  match Keyword.of? t.kind with
  | some .type | some .kind => do pure [← typeDecl halt start attributes]
  | some .pred => predicate halt start attributes
  | _ => failExpected .declarationAfterExternal t

/-- A declaration after its keyword. Those that hold no terms are read without checks. -/
def keywordDecl (incl : Include) (start : Span) (attributes : List Attribute) :
    Keyword → Parse (List Decl)
  | .localNames => localDecls halt start
  | .type | .kind => do pure [← typeDecl halt start attributes]
  | .external => externalDecl halt start attributes
  | .pred => predicate halt start attributes
  | .macroDef => do pure [← macroDecl halt start]
  | .typeAbbreviation => do pure [← typeAbbreviation halt start]
  | .rule => do pure [← ruleDecl halt start attributes]
  | other => Parse.keywordDecl incl start attributes other

def attributedDecl (incl : Include) (start : Span) : Parse (List Decl) := do
  let attributes ← attributes
  let t ← peek
  match Keyword.of? t.kind with
  | none =>
    let body ← term halt
    let _ ← expect .stop
    pure [.clause ⟨← spanFrom start, attributes, body⟩]
  | some keyword =>
    if !attributes.isEmpty && !keyword.takesAttributes then
      failAt t.span (.attributesNotAllowed keyword.text)
    else
      let _ ← next
      keywordDecl halt incl start attributes keyword

def declaration (incl : Include) : Parse (List Decl) := do
  let t ← peek
  match t.kind with
  | .leftBrace =>
    let _ ← next
    pure [.openBlock t.span]
  | .rightBrace =>
    let _ ← next
    pure [.close t.span]
  | _ => attributedDecl halt incl t.span

def declarations (incl : Include) : Parse (List Decl) :=
  repeated (fun found => do
    if (← peek).kind = .endOfInput then pure (.done found)
    else pure (.again (found ++ (← declaration halt incl)))) []

end

end Checked

section

variable {loader : Loader} {s : ParseState} {α β : Type} {body body' : α → Parse (Round α β)}
variable {item item' : Parse α}

theorem Settled.rounds (loader : Loader) {base : ParseState}
    (hbody : ∀ a s, Settled s → base.Before s → body' a s = body a s)
    (hQ : ∀ a s, base.Before s → Delivers loader (fun _ _ => True) (body a) s) (n : Nat) (a : α)
    (hs : Settled s) (hbase : base.Before s) : rounds body' n a s = rounds body n a s := by
  induction n generalizing a s with
  | zero => rfl
  | succ n ih =>
    refine hs.bind_with loader (hbody a s hs hbase) (hQ a s hbase) ?_
    intro round s' hs' hbefore _
    cases round with
    | again a => exact ih a hs' (hbase.trans hbefore)
    | done b => rfl

theorem Settled.repeated (loader : Loader) (a : α) (hs : Settled s)
    (hbody : ∀ a s', Settled s' → s.Before s' → body' a s' = body a s')
    (hQ : ∀ a s', s.Before s' → Delivers loader (fun _ _ => True) (body a) s') :
    repeated body' a s = repeated body a s :=
  Settled.rounds loader hbody hQ _ a hs (.refl hs.ends)

theorem Settled.separated (loader : Loader) (hs : Settled s)
    (hitem : ∀ s', Settled s' → s.Before s' → item' s' = item s')
    (hQ : ∀ s', s.Before s' → Delivers loader (fun _ _ => True) item s') :
    separated item' s = separated item s := by
  refine hs.repeated loader [] (fun found s₁ hs₁ h₁ => ?_) fun found s₁ h₁ => ?_
  · exact hs₁.bind_with loader (hitem s₁ hs₁ h₁) (hQ s₁ h₁)
      fun _ _ _ _ _ => rfl
  · refine (hQ s₁ h₁).bind fun _ _ _ _ => (Delivers.eatSymbol ",").bind fun _ _ _ _ => ?_
    split_ifs <;> exact Delivers.pure trivial

end

namespace Checked

variable {halt : (α : Type) → Parse α} {s : ParseState}

section

variable (hs : Settled s)
include hs

theorem typeDecl_eq (start : Span) (attributes : List Attribute) :
    typeDecl halt start attributes s = Parse.typeDecl start attributes s :=
  hs.bind rfl Delivers.declaredNames fun _ _ hs₁ _ _ =>
    hs₁.bind (term_eq hs₁) Delivers.term fun _ _ _ _ _ => rfl

theorem predicateArg_eq : predicateArg halt s = Parse.predicateArg s := by
  refine hs.bind rfl Delivers.next fun t s₁ hs₁ _ _ => ?_
  cases direction? t.kind with
  | none => rfl
  | some d =>
    refine hs₁.bind rfl Delivers.next fun colon s₂ hs₂ _ _ => ?_
    split_ifs
    · exact hs₂.bind (expressionAt_eq hs₂ _ _) (Delivers.expressionAt _ _) fun _ _ _ _ _ => rfl
    · rfl

theorem predicate_eq (start : Span) (attributes : List Attribute) :
    predicate halt start attributes s = Parse.predicate start attributes s := by
  refine hs.bind rfl Delivers.declaredName fun name s₁ hs₁ _ _ =>
    hs₁.look Delivers.peek fun t _ => ?_
  dsimp only
  split_ifs
  · rfl
  · have hitem : ∀ s', Delivers .disabled (fun _ _ => True) Parse.predicateArg s' :=
      fun _ => Delivers.predicateArg.mono fun _ _ _ _ => trivial
    exact hs₁.bind (hs₁.separated .disabled (fun _ hs' _ => predicateArg_eq hs') fun s' _ => hitem s')
      (Delivers.separated_any fun _ _ => Delivers.predicateArg.mono fun _ _ _ h => h.1)
      fun _ _ _ _ _ => rfl

theorem parameters_eq (span : Span) {ts : List Term} (h : Term.AllFlatIn s.vocabulary ts) :
    parameters halt span ts s = Parse.parameters span ts s := by
  induction ts with
  | nil => rfl
  | cons t ts ih =>
    rw [Term.AllFlatIn.cons_iff] at h
    cases t with
    | const u =>
      exact hs.bind (ih h.2) (Delivers.parameters span h.2) fun _ _ _ _ _ => rfl
    | _ => exact shows_bind hs h.1 _

theorem misnamed_eq (span : Span) {head : Term} (h : head.FlatIn s.vocabulary) :
    misnamed halt span head s = failAt span (.macroName (s.vocabulary.render head)) s :=
  shows_bind hs h _

theorem macroDecl_eq (start : Span) : macroDecl halt start s = Parse.macroDecl start s := by
  refine hs.bind (term_eq hs) Delivers.term fun t s₁ hs₁ _ ht =>
    hs₁.bind rfl (Delivers.expect _) fun _ s₂ hs₂ h₂ _ =>
      hs₂.look (Delivers.spanFrom start) fun span _ => ?_
  cases hargs : t.argsOf? Symbol.neck with
  | none => rfl
  | some args =>
    rcases args with _ | ⟨head, _ | ⟨body, _ | _⟩⟩
    · rfl
    · rfl
    · have hall : Term.AllFlatIn s₂.vocabulary [head, body] := (ht.flat.mono h₂.names).of_argsOf? hargs
      have hhead : head.FlatIn s₂.vocabulary := hall head (by simp)
      have hlook : Parse.vocabulary s₂ = (.ok s₂.vocabulary, s₂) := rfl
      dsimp only
      cases hname : head.headSymbol? with
      | none =>
        rw [Pairing.bind_of_ok hlook]
        exact misnamed_eq hs₂ span hhead
      | some name =>
        obtain ⟨shown, hshown⟩ := (Vocabulary.Extends.refl _).exists_name? hs₂.reachable (hhead.of_headSymbol? hname)
        have hnameOf : s₂.vocabulary.name name = shown := by
          rw [Vocabulary.name, SymbolTable.name, hshown]
          rfl
        dsimp only
        rw [Pairing.bind_of_ok hlook, Pairing.bind_of_ok hlook, hshown, Option.filter_some, hnameOf]
        by_cases hat : shown.toList.head? = some '@'
        · have hparams : Term.AllFlatIn s₂.vocabulary head.args := fun u hu => hhead.of_mem_args hu
          rw [if_pos (decide_eq_true hat)]
          dsimp only
          rw [if_pos hat]
          exact hs₂.bind (parameters_eq hs₂ span hparams) (Delivers.parameters span hparams)
            fun _ _ _ _ _ => rfl
        · rw [if_neg (by simpa using hat)]
          dsimp only
          rw [if_neg hat]
          exact misnamed_eq hs₂ span hhead
    · rfl

theorem typeAbbreviation_eq (start : Span) :
    typeAbbreviation halt start s = Parse.typeAbbreviation start s := by
  refine hs.bind (closedTerm_eq hs) Delivers.closedTerm fun head s₁ hs₁ _ hhead =>
    hs₁.bind (term_eq hs₁) Delivers.term fun value s₂ hs₂ h₂ _ =>
      hs₂.bind rfl (Delivers.expect _) fun _ s₃ hs₃ h₃ _ =>
        hs₃.look (Delivers.spanFrom start) fun span _ => ?_
  have hhead' := hhead.flat.mono (h₂.trans h₃).names
  cases head.headSymbol? with
  | none => exact shows_bind hs₃ hhead' _
  | some name =>
    have hargs : Term.AllFlatIn s₃.vocabulary head.args := fun u hu => hhead'.of_mem_args hu
    exact hs₃.bind (parameters_eq hs₃ span hargs) (Delivers.parameters span hargs)
      fun _ _ _ _ _ => rfl

theorem sequent_eq : sequent halt s = Parse.sequent s :=
  hs.bind (closedTerm_eq hs) Delivers.closedTerm fun _ _ _ _ _ => rfl

theorem sequents_eq : sequents halt s = Parse.sequents s := by
  refine hs.repeated .disabled [] (fun found s₁ hs₁ _ => hs₁.look Delivers.peek fun t _ => ?_)
    fun found s₁ _ => Looks.bind Delivers.peek fun t _ => ?_
  · split_ifs
    · rfl
    · exact hs₁.bind (sequent_eq hs₁) Delivers.sequent fun _ _ _ _ _ => rfl
  · split_ifs
    · exact Delivers.pure trivial
    · exact Delivers.sequent.bind fun _ _ _ _ => Delivers.pure trivial

/-- The end of a rule, behind the sequents that it removes. -/
theorem ruleDecl_guard_eq (start : Span) (attributes : List Attribute)
    (matched removed : List Sequent) :
    (do
      let guard ← if ← Parse.eatSymbol "|" then some <$> closedTerm halt else pure none
      let goal ← if ← Parse.eatSymbol "<=>" then some <$> sequent halt else pure none
      let _ ← Parse.expect .stop
      pure (Decl.rule ⟨matched, removed, guard, goal, attributes, ← Parse.spanFrom start⟩)) s =
    (do
      let guard ← if ← Parse.eatSymbol "|" then some <$> Parse.closedTerm else pure none
      let goal ← if ← Parse.eatSymbol "<=>" then some <$> Parse.sequent else pure none
      let _ ← Parse.expect .stop
      pure (Decl.rule ⟨matched, removed, guard, goal, attributes, ← Parse.spanFrom start⟩)) s := by
  have hgoal : ∀ (guard : Option Term) {s'}, Settled s' →
      (do
        let goal ← if ← Parse.eatSymbol "<=>" then some <$> sequent halt else pure none
        let _ ← Parse.expect .stop
        pure (Decl.rule ⟨matched, removed, guard, goal, attributes, ← Parse.spanFrom start⟩)) s' =
      (do
        let goal ← if ← Parse.eatSymbol "<=>" then some <$> Parse.sequent else pure none
        let _ ← Parse.expect .stop
        pure (Decl.rule ⟨matched, removed, guard, goal, attributes, ← Parse.spanFrom start⟩)) s' := by
    intro guard s' hs'
    refine hs'.bind rfl (Delivers.eatSymbol "<=>") fun arrow s₁ hs₁ _ _ => ?_
    dsimp only
    split_ifs
    · exact hs₁.bind (hs₁.bind (sequent_eq hs₁) Delivers.sequent fun _ _ _ _ _ => rfl)
        (Delivers.sequent.map (S := fun _ _ => True) fun _ _ _ _ => trivial) fun _ _ _ _ _ => rfl
    · rfl
  refine hs.bind rfl (Delivers.eatSymbol "|") fun bar s₁ hs₁ _ _ => ?_
  dsimp only
  split_ifs
  · exact hs₁.bind (hs₁.bind (closedTerm_eq hs₁) Delivers.closedTerm fun _ _ _ _ _ => rfl)
      (Delivers.closedTerm.map (S := fun _ _ => True) fun _ _ _ _ => trivial)
      fun guard _ hs₂ _ _ => hgoal guard hs₂
  · exact hgoal none hs₁

theorem ruleDecl_eq (start : Span) (attributes : List Attribute) :
    ruleDecl halt start attributes s = Parse.ruleDecl start attributes s := by
  refine hs.bind (sequents_eq hs) Delivers.sequents fun matched s₁ hs₁ _ _ =>
    hs₁.look Delivers.peek fun t _ => ?_
  dsimp only
  split_ifs
  · exact hs₁.bind rfl Delivers.next fun _ s₂ hs₂ _ _ =>
      hs₂.bind (sequents_eq hs₂) Delivers.sequents fun removed _ hs₃ _ _ =>
        ruleDecl_guard_eq hs₃ start attributes matched removed
  · exact ruleDecl_guard_eq hs₁ start attributes matched []

theorem localDecls_eq (start : Span) : localDecls halt start s = Parse.localDecls start s := by
  refine hs.bind rfl Delivers.declaredNames fun names s₁ hs₁ _ _ =>
    hs₁.look Delivers.peek fun t _ => ?_
  split_ifs
  · rfl
  · exact hs₁.bind (term_eq hs₁) Delivers.term fun _ _ _ _ _ => rfl

/-- A reader of one declaration reads a list of one. -/
theorem one_eq {p p' : Parse Decl} (hp : p' s = p s)
    (hQ : Delivers .disabled (fun d s' => Term.AllFlatIn s'.vocabulary d.terms) p s) :
    (do pure [← p']) s = (do pure [← p] : Parse (List Decl)) s :=
  hs.bind hp hQ fun _ _ _ _ _ => rfl

theorem externalDecl_eq (start : Span) (attributes : List Attribute) :
    externalDecl halt start attributes s = Parse.externalDecl start attributes s := by
  refine hs.bind rfl Delivers.next fun t s₁ hs₁ _ _ => ?_
  rcases Keyword.of? t.kind with _ | keyword
  · rfl
  cases keyword
  case type | kind => exact one_eq hs₁ (typeDecl_eq hs₁ _ _) (Delivers.typeDecl _ _)
  case pred => exact predicate_eq hs₁ _ _
  all_goals rfl

end

section

-- What is included is the same in both.
variable (loader : Loader) {seen : List Digest} {incl incl' : Include}
variable (hincludes : Delivers.Includes loader seen incl)
variable (hincl : ∀ span name s, Settled s → (∀ d ∈ seen, d ∈ s.seen) →
  incl' span name s = incl span name s)
include hincludes hincl

theorem accumulateDecl_eq (start : Span) (hs : Settled s) (hseen : ∀ d ∈ seen, d ∈ s.seen) :
    Parse.accumulateDecl incl' start s = Parse.accumulateDecl incl start s := by
  have hinclusion : ∀ s', Settled s' → s.Before s' →
      Parse.inclusion incl' s' = Parse.inclusion incl s' := by
    intro s' hs' hbefore
    refine hs'.bind rfl Delivers.next ?_
    rintro ⟨kind, span⟩ s₁ hs₁ h₁ -
    have hseen₁ : ∀ d ∈ seen, d ∈ s₁.seen := fun d hd => (hbefore.trans h₁).seen d (hseen d hd)
    cases kind
    case ident name | string name => exact hincl span name s₁ hs₁ hseen₁
    all_goals rfl
  have hdelivers : ∀ s', s.Before s' →
      Delivers loader (fun _ s'' => s''.left < s'.left) (Parse.inclusion incl) s' := fun s' hbefore =>
    (Delivers.inclusion hincludes fun d hd => hbefore.seen d (hseen d hd)).mono fun _ _ _ h => h.1
  have hunits : Parse.separated (Parse.inclusion incl') s = Parse.separated (Parse.inclusion incl) s :=
    hs.separated loader hinclusion fun s' hbefore =>
      (hdelivers s' hbefore).mono fun _ _ _ _ => trivial
  exact hs.bind_with loader hunits (Delivers.separated_any hdelivers)
    fun _ _ _ _ _ => rfl

theorem keywordDecl_eq (start : Span) (attributes : List Attribute) (keyword : Keyword)
    (hs : Settled s) (hseen : ∀ d ∈ seen, d ∈ s.seen) :
    keywordDecl halt incl' start attributes keyword s =
      Parse.keywordDecl incl start attributes keyword s := by
  cases keyword
  case localNames => exact localDecls_eq hs start
  case type | kind => exact one_eq hs (typeDecl_eq hs start attributes) (Delivers.typeDecl _ _)
  case external => exact externalDecl_eq hs start attributes
  case pred => exact predicate_eq hs start attributes
  case macroDef => exact one_eq hs (macroDecl_eq hs start) (Delivers.macroDecl _)
  case typeAbbreviation =>
    exact one_eq hs (typeAbbreviation_eq hs start) (Delivers.typeAbbreviation _)
  case rule => exact one_eq hs (ruleDecl_eq hs start attributes) (Delivers.ruleDecl _ _)
  case accumulate =>
    exact hs.bind_with loader
      (accumulateDecl_eq loader hincludes hincl start hs hseen)
      (Delivers.accumulateDecl hincludes start hseen) fun _ _ _ _ _ => rfl
  all_goals rfl

theorem attributedDecl_eq (start : Span) (hs : Settled s) (hseen : ∀ d ∈ seen, d ∈ s.seen) :
    attributedDecl halt incl' start s = Parse.attributedDecl incl start s := by
  refine hs.bind rfl Delivers.attributes fun found s₁ hs₁ h₁ _ => hs₁.look Delivers.peek fun t _ => ?_
  cases Keyword.of? t.kind with
  | none => exact hs₁.bind (term_eq hs₁) Delivers.term fun _ _ _ _ _ => rfl
  | some keyword =>
    dsimp only
    split_ifs
    · rfl
    · exact hs₁.bind rfl Delivers.next fun _ s₂ hs₂ h₂ _ =>
        keywordDecl_eq loader hincludes hincl start found keyword hs₂ fun d hd =>
          (h₁.trans h₂).seen d (hseen d hd)

theorem declaration_eq (hs : Settled s) (hseen : ∀ d ∈ seen, d ∈ s.seen) :
    declaration halt incl' s = Parse.declaration incl s := by
  refine hs.look Delivers.peek ?_
  rintro ⟨kind, span⟩ -
  cases kind
  case leftBrace | rightBrace => rfl
  all_goals exact attributedDecl_eq loader hincludes hincl span hs hseen

theorem declarations_eq (hs : Settled s) (hseen : ∀ d ∈ seen, d ∈ s.seen) :
    declarations halt incl' s = Parse.declarations incl s := by
  have hdelivers : ∀ s', s.Before s' → Delivers loader (fun _ _ => True) (Parse.declaration incl) s' :=
    fun s' hbefore => (Delivers.declaration hincludes fun d hd =>
      hbefore.seen d (hseen d hd)).mono fun _ _ _ _ => trivial
  refine hs.repeated loader [] (fun found s₁ hs₁ h₁ => hs₁.look Delivers.peek fun t _ => ?_)
    fun found s₁ h₁ => Looks.bind Delivers.peek fun t _ => ?_
  · split_ifs
    · rfl
    · exact hs₁.bind_with loader
        (declaration_eq loader hincludes hincl hs₁ fun d hd => h₁.seen d (hseen d hd))
        (hdelivers s₁ h₁) fun _ _ _ _ _ => rfl
  · split_ifs
    · exact Delivers.pure trivial
    · exact (hdelivers s₁ h₁).bind fun _ _ _ _ => Delivers.pure trivial

end

end Checked

end Clausal.Parse
