import Clausal.Proofs.NamedTerms

/-!
# The names of declarations

Declarations take their names from tokens too. A shorthand puts two identifiers together or takes the
end of one, and neither brings in a hyphen. An included text is read like the text around it.
-/
namespace Clausal

open SymbolTable (Plain)

namespace Parse

theorem hyphen_notMem_qualified {nameSpace name : String} (hs : '-' ∉ nameSpace.toList)
    (hn : '-' ∉ name.toList) : '-' ∉ (nameSpace ++ "." ++ name).toList := by
  simp [hs, hn]

theorem hyphen_notMem_lastSegment {name : String} (hn : '-' ∉ name.toList) :
    '-' ∉ (lastSegment name).toList := by
  intro h
  rw [lastSegment, String.toList_ofList, List.mem_reverse] at h
  exact hn (List.mem_reverse.1 ((List.takeWhile_sublist _).mem h))

namespace Adds

variable {α : Type}

theorem map {β : Type} {p : Parse α} (hp : WritesPlain p) (f : α → β) :
    WritesPlain (f <$> p) :=
  hp.bind fun _ _ => pure trivial

/-- A part that is left out. -/
theorem nothing {a : α} : WritesPlain (Pure.pure a) := pure trivial

theorem string : WritesPlain string := by
  refine next.bind fun t _ => ?_
  split
  · exact pure trivial
  · exact failExpected _ _

theorem indexDepths : WritesPlain indexDepths := by
  refine repeated (A := fun _ => True) trivial fun depths _ => next.bind fun t _ => ?_
  split
  · exact pure trivial
  · split_ifs
    · exact pure trivial
    · exact failExpected _ _
  · split
    · exact pure trivial
    · exact fail _
  · exact failExpected _ _

theorem oneAttribute : WritesPlain oneAttribute := by
  refine next.bind fun t _ => ?_
  split
  · exact string.bind fun _ _ => pure trivial
  · exact string.bind fun _ _ => pure trivial
  · exact string.bind fun _ _ => pure trivial
  · exact string.bind fun _ _ => pure trivial
  · exact pure trivial
  · exact (expect _).bind fun _ _ => indexDepths.bind fun _ _ => pure trivial
  · exact failAt _ _
  · exact failExpected _ _

theorem attributes : WritesPlain attributes := by
  refine repeated (A := fun _ => True) trivial fun found _ => (eatSymbol _).bind fun colon _ => ?_
  split_ifs
  · exact oneAttribute.bind fun _ _ => pure trivial
  · exact pure trivial

theorem separated {item : Parse α} (hitem : WritesPlain item) :
    WritesPlain (separated item) := by
  refine repeated (A := fun _ => True) trivial fun found _ => hitem.bind fun a _ =>
    (eatSymbol _).bind fun comma _ => ?_
  split_ifs
  · exact pure trivial
  · exact pure trivial

theorem declaredName : WritesPlain declaredName := by
  refine next.bind ?_
  rintro ⟨kind, span⟩ ht
  cases kind <;> dsimp only
  case ident | macroName => exact intern (ht.name rfl)
  case symbolic name =>
    split_ifs
    · exact failExpected _ _
    · exact intern (ht.name rfl)
  case leftParen =>
    refine next.bind ?_
    rintro ⟨kind, span⟩ ht
    cases kind <;> dsimp only
    case ident | symbolic | macroName =>
      exact (intern (ht.name rfl)).bind fun _ _ => (expect _).bind fun _ _ => pure trivial
    all_goals exact failExpected _ _
  all_goals exact failExpected _ _

theorem declaredNames : WritesPlain declaredNames := separated declaredName

theorem shorthand {nameSpace : String} (hs : '-' ∉ nameSpace.toList) :
    WritesPlain (shorthand nameSpace) := by
  refine next.bind ?_
  rintro ⟨kind, span⟩ ht
  cases kind <;> dsimp only
  case ident name =>
    exact (intern (.inl (hyphen_notMem_qualified hs ht))).bind fun _ _ =>
      (intern (.inl (hyphen_notMem_lastSegment ht))).bind fun _ _ => pure trivial
  all_goals exact failExpected _ _

theorem shorthandGroup : WritesPlain shorthandGroup := by
  refine next.bind ?_
  rintro ⟨kind, span⟩ ht
  cases kind <;> dsimp only
  case ident nameSpace =>
    refine next.bind fun point _ => ?_
    split_ifs
    · exact (expect _).bind fun _ _ => (separated (shorthand ht)).bind fun _ _ =>
        (expect _).bind fun _ _ => pure trivial
    · exact failExpected _ _
  all_goals exact failExpected _ _

theorem namesBeforeBrace : WritesPlain namesBeforeBrace := by
  refine repeated (A := fun _ => True) trivial fun names _ => peek.bind fun t _ => ?_
  split_ifs
  · exact next.bind fun _ _ => pure trivial
  · exact declaredName.bind fun _ _ => pure trivial

/-- An operator is a name of its declaration. -/
theorem defineAll (fixity : Fixity) (precedence : Nat) {names : List (String × Span)}
    (hnames : ∀ n ∈ names, Plain n.1) : WritesPlain (defineAll fixity precedence names) := by
  induction names with
  | nil => exact pure trivial
  | cons n rest ih =>
    obtain ⟨name, span⟩ := n
    rw [List.forall_mem_cons] at hnames
    refine (defineOperator hnames.1 fixity precedence).bind fun r _ => ?_
    cases r with
    | ok s => exact ih hnames.2
    | error e => exact failAt _ _

theorem operators (fixity : Fixity) : WritesPlain (operators fixity) := by
  refine repeated (A := fun names => ∀ n ∈ names, Plain n.1) (by simp) fun names hnames =>
    next.bind ?_
  rintro ⟨kind, span⟩ ht
  have hmore : ∀ name, kind.word? = some name → ∀ n ∈ names ++ [(name, span)], Plain n.1 := by
    intro name hname n hn
    rcases List.mem_append.1 hn with hn | hn
    · exact hnames n hn
    · obtain rfl := List.mem_singleton.1 hn
      exact ht.name hname
  cases kind <;> dsimp only
  case int digits =>
    split
    · exact fail _
    · split_ifs
      · exact failAt _ _
      · exact (defineAll fixity _ hnames).bind fun _ _ => pure trivial
  case ident name | symbolic name => exact pure (hmore name rfl)
  all_goals exact failExpected _ _

theorem typeDecl (start : Span) (attributes : List Attribute) :
    WritesPlain (typeDecl start attributes) :=
  declaredNames.bind fun _ _ => term.bind fun _ _ => (expect _).bind fun _ _ =>
    (spanFrom _).bind fun _ _ => pure trivial

theorem mode : WritesPlain mode := by
  refine (expect _).bind fun first _ => declaredName.bind fun name _ => ?_
  refine Adds.bind (Q := fun _ => True) (repeated (A := fun _ => True) trivial fun args _ =>
    next.bind fun t _ => ?_) fun args _ => (spanFrom _).bind fun _ _ => pure trivial
  split_ifs
  · exact pure trivial
  · split
    · exact pure trivial
    · exact failExpected _ _

theorem predicateArg : WritesPlain predicateArg := by
  refine next.bind fun t _ => ?_
  split
  · exact failExpected _ _
  · refine next.bind fun colon _ => ?_
    split_ifs
    · exact (expressionAt _ _).bind fun _ _ => pure trivial
    · exact failExpected _ _

theorem predicate (start : Span) (attributes : List Attribute) :
    WritesPlain (predicate start attributes) := by
  refine declaredName.bind fun name _ => peek.bind fun t _ => ?_
  have hend : ∀ args : List (Direction × Term), WritesPlain (do
      let _ ← Parse.expect .stop
      let span ← Parse.spanFrom start
      Pure.pure [Decl.modes [⟨span, name, args.map (·.1)⟩],
        Decl.types [⟨span, attributes, name, predicateType (args.map (·.2))⟩]]) :=
    fun args => (expect _).bind fun _ _ => (spanFrom _).bind fun _ _ => pure trivial
  split_ifs
  · exact nothing.bind fun args _ => hend args
  · exact (separated predicateArg).bind fun args _ => hend args

theorem parameters (span : Span) (args : List Term) : WritesPlain (parameters span args) := by
  induction args with
  | nil => exact pure trivial
  | cons arg rest ih =>
    cases arg with
    | const s => exact ih.bind fun _ _ => pure trivial
    | _ => exact vocabulary.bind fun _ _ => failAt _ _

theorem macroDecl (start : Span) : WritesPlain (macroDecl start) := by
  refine term.bind fun t _ => (expect _).bind fun _ _ => (spanFrom _).bind fun span _ => ?_
  split
  · refine vocabulary.bind fun v _ => ?_
    split
    · exact (parameters _ _).bind fun _ _ => pure trivial
    · exact failAt _ _
  · exact failAt _ _

theorem typeAbbreviation (start : Span) : WritesPlain (typeAbbreviation start) := by
  refine closedTerm.bind fun head _ => term.bind fun value _ => (expect _).bind fun _ _ =>
    (spanFrom _).bind fun span _ => ?_
  split
  · exact (parameters _ _).bind fun _ _ => pure trivial
  · exact vocabulary.bind fun _ _ => failAt _ _

theorem sequentOf (t : Term) : WritesPlain (sequentOf t) := by
  unfold Parse.sequentOf
  split
  · split
    · exact pure trivial
    · exact freshVariable.bind fun _ _ => pure trivial
  · exact freshVariable.bind fun _ _ => freshVariable.bind fun _ _ => pure trivial

theorem sequent : WritesPlain sequent := closedTerm.bind fun t _ => sequentOf t

theorem sequents : WritesPlain sequents := by
  refine repeated (A := fun _ => True) trivial fun found _ => peek.bind fun t _ => ?_
  split_ifs
  · exact pure trivial
  · exact sequent.bind fun _ _ => pure trivial

theorem ruleDecl (start : Span) (attributes : List Attribute) :
    WritesPlain (ruleDecl start attributes) := by
  have hgoal : ∀ (matched removed : List Sequent) (guard : Option Term), WritesPlain (do
      let goal ← if ← Parse.eatSymbol "<=>" then some <$> Parse.sequent else Pure.pure none
      let _ ← Parse.expect .stop
      Pure.pure (Decl.rule ⟨matched, removed, guard, goal, attributes, ← Parse.spanFrom start⟩)) := by
    intro matched removed guard
    have hend : ∀ goal : Option Sequent, WritesPlain (do
        let _ ← Parse.expect .stop
        Pure.pure (Decl.rule ⟨matched, removed, guard, goal, attributes, ← Parse.spanFrom start⟩)) :=
      fun goal => (expect _).bind fun _ _ => (spanFrom _).bind fun _ _ => pure trivial
    refine (eatSymbol _).bind fun arrow _ => ?_
    dsimp only
    split_ifs
    · exact (sequent.map some).bind fun goal _ => hend goal
    · exact nothing.bind fun goal _ => hend goal
  have hguard : ∀ matched removed : List Sequent, WritesPlain (do
      let guard ← if ← Parse.eatSymbol "|" then some <$> Parse.closedTerm else Pure.pure none
      let goal ← if ← Parse.eatSymbol "<=>" then some <$> Parse.sequent else Pure.pure none
      let _ ← Parse.expect .stop
      Pure.pure (Decl.rule ⟨matched, removed, guard, goal, attributes, ← Parse.spanFrom start⟩)) := by
    intro matched removed
    refine (eatSymbol _).bind fun bar _ => ?_
    dsimp only
    split_ifs
    · exact (closedTerm.map some).bind fun guard _ => hgoal matched removed guard
    · exact nothing.bind fun guard _ => hgoal matched removed guard
  refine sequents.bind fun matched _ => peek.bind fun t _ => ?_
  dsimp only
  split_ifs
  · exact next.bind fun _ _ => sequents.bind fun removed _ => hguard matched removed
  · exact nothing.bind fun removed _ => hguard matched removed

/-- Whatever is included writes plain names only. -/
def Includes (incl : Include) : Prop := ∀ span name, WritesPlain (incl span name)

variable {incl : Include} (hincl : Includes incl)
include hincl

theorem inclusion : WritesPlain (inclusion incl) := by
  refine next.bind fun t _ => ?_
  split
  · exact hincl _ _
  · exact hincl _ _
  · exact failExpected _ _

theorem accumulateDecl (start : Span) : WritesPlain (accumulateDecl incl start) :=
  (separated (inclusion hincl)).bind fun _ _ => (expect _).bind fun _ _ =>
    (spanFrom _).bind fun _ _ => pure trivial

omit hincl in
theorem localDecls (start : Span) : WritesPlain (localDecls start) := by
  refine declaredNames.bind fun names _ => peek.bind fun t _ => ?_
  split_ifs
  · exact next.bind fun _ _ => (spanFrom _).bind fun _ _ => pure trivial
  · exact term.bind fun _ _ => (expect _).bind fun _ _ => (spanFrom _).bind fun _ _ => pure trivial

omit hincl in
theorem externalDecl (start : Span) (attributes : List Attribute) :
    WritesPlain (externalDecl start attributes) := by
  refine next.bind fun t _ => ?_
  dsimp only
  split
  · exact (typeDecl start _).bind fun _ _ => pure trivial
  · exact (typeDecl start _).bind fun _ _ => pure trivial
  · exact predicate start _
  · exact failExpected _ _

theorem keywordDecl (start : Span) (attributes : List Attribute) (keyword : Keyword) :
    WritesPlain (keywordDecl incl start attributes keyword) := by
  cases keyword
  case nameSpace =>
    exact declaredName.bind fun _ _ => (expect _).bind fun _ _ => (spanFrom _).bind fun _ _ =>
      pure trivial
  case constraint =>
    exact namesBeforeBrace.bind fun _ _ => (spanFrom _).bind fun _ _ => pure trivial
  case shorten =>
    exact (separated shorthandGroup).bind fun _ _ => (expect _).bind fun _ _ =>
      (spanFrom _).bind fun _ _ => pure trivial
  case localNames => exact localDecls start
  case type | kind => exact (typeDecl start attributes).bind fun _ _ => pure trivial
  case external => exact externalDecl start attributes
  case mode => exact (separated mode).bind fun _ _ => (expect _).bind fun _ _ => pure trivial
  case pred => exact predicate start attributes
  case macroDef => exact (macroDecl start).bind fun _ _ => pure trivial
  case typeAbbreviation => exact (typeAbbreviation start).bind fun _ _ => pure trivial
  case rule => exact (ruleDecl start attributes).bind fun _ _ => pure trivial
  case accumulate => exact (accumulateDecl hincl start).bind fun _ _ => pure trivial
  case fixity f =>
    exact (operators f).bind fun _ _ => (expect _).bind fun _ _ => (spanFrom _).bind fun _ _ =>
      pure trivial

theorem attributedDecl (start : Span) : WritesPlain (attributedDecl incl start) := by
  refine attributes.bind fun found _ => peek.bind fun t _ => ?_
  split
  · exact term.bind fun _ _ => (expect _).bind fun _ _ => (spanFrom _).bind fun _ _ => pure trivial
  · split_ifs
    · exact failAt _ _
    · exact next.bind fun _ _ => keywordDecl hincl start found _

theorem declaration : WritesPlain (declaration incl) := by
  refine peek.bind fun t _ => ?_
  split
  · exact next.bind fun _ _ => pure trivial
  · exact next.bind fun _ _ => pure trivial
  · exact attributedDecl hincl _

theorem declarations : WritesPlain (declarations incl) := by
  refine repeated (A := fun _ => True) trivial fun found _ => peek.bind fun t _ => ?_
  split_ifs
  · exact pure trivial
  · exact (declaration hincl).bind fun _ _ => pure trivial

omit hincl

theorem includes_includeUnit (loader : Loader) {body : Parse (List Decl)}
    (hbody : WritesPlain body) : Includes (includeUnit loader body) := by
  intro span name
  unfold includeUnit
  split
  · exact fail _
  · refine state.bind fun s _ => ?_
    split_ifs
    · exact pure trivial
    · exact (markSeen _).bind fun _ _ => (within _ _ hbody).bind fun _ _ => pure trivial

theorem unitBody (loader : Loader) (depth : Nat) : WritesPlain (unitBody loader depth) := by
  induction depth with
  | zero => exact declarations (includes_includeUnit loader (fail _))
  | succ depth ih => exact declarations (includes_includeUnit loader ih)

theorem program (loader : Loader) : WritesPlain (program loader) := unitBody loader _

theorem includeAll (loader : Loader) (names : List String) :
    WritesPlain (includeAll loader names) := by
  induction names with
  | nil => exact pure trivial
  | cons name rest ih =>
    exact (includes_includeUnit loader (program loader) _ _).bind fun _ _ => ih.bind fun _ _ =>
      pure trivial

theorem goal : WritesPlain goal := by
  have hend : ∀ (span : Span) (t : Term), WritesPlain (do
      let _ ← Parse.expect .endOfInput
      Pure.pure (⟨span, t⟩ : Goal)) :=
    fun _ _ => (expect _).bind fun _ _ => pure trivial
  refine peek.bind fun first _ => term.bind fun t _ => (spanFrom _).bind fun span _ =>
    peek.bind fun stop _ => ?_
  dsimp only
  split_ifs
  · exact next.bind fun _ _ => hend span t
  · exact hend span t

end Adds

end Parse

end Clausal
