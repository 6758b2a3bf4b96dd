import Clausal.Proofs.LocatedTerms

/-!
# Where declarations are read

A declaration gets its span from the unit that it stands in, and so do its parts. Only an inclusion
brings in spans of other units, those that it reads.
-/
namespace Clausal

/-- The spans of a declaration are parts of the unit, and its terms are read from it. -/
structure Decl.ReadFrom (d : Decl) (u : Source) : Prop where
  marks : ∀ m ∈ d.marks, m.RealIn u
  terms : ∀ t ∈ d.terms, t.ReadFrom u

namespace Decl.ReadFrom

variable {d : Decl} {u : Source} {span : Span}

/-- A declaration with one span of its own beside those of its terms. -/
theorem of_terms (hspan : span.ExactIn u)
    (hmarks : ∀ m ∈ d.marks, m = .plain span ∨ ∃ t ∈ d.terms, m ∈ t.marks)
    (hterms : ∀ t ∈ d.terms, t.ReadFrom u) : d.ReadFrom u := by
  refine ⟨fun m hm => ?_, hterms⟩
  rcases hmarks m hm with rfl | ⟨t, ht, hm⟩
  · exact hspan.realIn
  · exact (hterms t ht).marked m hm

theorem of_term {t : Term} (hspan : span.ExactIn u) (ht : t.ReadFrom u)
    (hmarks : d.marks = .plain span :: t.marks) (hterms : d.terms = [t]) : d.ReadFrom u := by
  refine of_terms hspan ?_ (by simpa [hterms] using ht)
  simp [hmarks, hterms]

theorem plain (hspan : span.ExactIn u) (hmarks : d.marks = [.plain span]) (hterms : d.terms = []) :
    d.ReadFrom u :=
  of_terms hspan (by simp [hmarks]) (by simp [hterms])

end Decl.ReadFrom

namespace Parse

variable {loader : Loader} {u : Source} {α : Type}

namespace Stays

/-- The step gives a declaration that is read from the unit. -/
abbrev ReadsDecl (loader : Loader) (u : Source) (p : Parse Decl) : Prop :=
  Stays loader u p (·.ReadFrom u)

abbrev ReadsDecls (loader : Loader) (u : Source) (p : Parse (List Decl)) : Prop :=
  Stays loader u p fun ds => ∀ d ∈ ds, d.ReadFrom u

theorem single {d : Decl} (h : d.ReadFrom u) :
    ReadsDecls loader u (Pure.pure [d]) :=
  pure (List.forall_mem_singleton.2 h)

theorem ReadsDecl.single {p : Parse Decl} (h : ReadsDecl loader u p) :
    ReadsDecls loader u (do Pure.pure [← p]) :=
  h.bind fun _ hd => Stays.single hd

theorem string : Stays loader u string fun _ => True := by
  refine next.bind fun t ht => ?_
  split
  · exact pure trivial
  · exact Locates.failExpected _ ht

theorem indexDepths : Stays loader u indexDepths fun _ => True := by
  refine repeated (A := fun _ => True) trivial fun depths _ => next.bind fun t ht => ?_
  split
  · exact pure trivial
  · split_ifs
    · exact pure trivial
    · exact Locates.failExpected _ ht
  · split
    · exact pure trivial
    · exact Locates.fail fun _ => ⟨t.span, rfl, ht.exactIn⟩
  · exact Locates.failExpected _ ht

theorem oneAttribute : Stays loader u oneAttribute fun _ => True := by
  refine next.bind fun t ht => ?_
  split
  · exact string.bind fun _ _ => pure trivial
  · exact string.bind fun _ _ => pure trivial
  · exact string.bind fun _ _ => pure trivial
  · exact string.bind fun _ _ => pure trivial
  · exact pure trivial
  · exact (expect _).bind fun _ _ => indexDepths.bind fun _ _ => pure trivial
  · exact Locates.failAt ht.exactIn _
  · exact Locates.failExpected _ ht

theorem attributes : Stays loader u attributes fun _ => True := by
  refine repeated (A := fun _ => True) trivial fun found _ => (eatSymbol _).bind fun colon _ => ?_
  split_ifs
  · exact oneAttribute.bind fun _ _ => pure trivial
  · exact pure trivial

theorem separated {item : Parse α} {Q : α → Prop} (hitem : Stays loader u item Q) :
    Stays loader u (separated item) fun found => ∀ a ∈ found, Q a := by
  refine repeated (A := fun found => ∀ a ∈ found, Q a) (by simp) fun found hfound =>
    hitem.bind fun a ha => (eatSymbol _).bind fun comma _ => ?_
  have hmore : ∀ b ∈ found ++ [a], Q b := List.forall_mem_append.2 ⟨hfound, by simpa using ha⟩
  split_ifs
  · exact pure hmore
  · exact pure hmore

theorem intern (name : String) : Stays loader u (Parse.change (·.intern name)) fun _ => True :=
  change fun _ => trivial

theorem declaredName : Stays loader u declaredName fun _ => True := by
  refine next.bind ?_
  rintro ⟨kind, span⟩ ht
  cases kind <;> dsimp only
  case ident | macroName => exact intern _
  case symbolic name =>
    split_ifs
    · exact Locates.failExpected _ ht
    · exact intern name
  case leftParen =>
    refine next.bind ?_
    rintro ⟨kind, span⟩ ht
    cases kind <;> dsimp only
    case ident | symbolic | macroName =>
      exact (intern _).bind fun _ _ => (expect _).bind fun _ _ => pure trivial
    all_goals exact Locates.failExpected _ ht
  all_goals exact Locates.failExpected _ ht

theorem declaredNames : Stays loader u declaredNames fun _ => True :=
  (separated declaredName).mono fun _ _ => trivial

theorem shorthand (nameSpace : String) : Stays loader u (shorthand nameSpace) (·.span.ExactIn u) := by
  refine next.bind ?_
  rintro ⟨kind, span⟩ ht
  cases kind <;> dsimp only
  case ident name =>
    exact (intern _).bind fun _ _ => (intern _).bind fun _ _ => pure ht.exactIn
  all_goals exact Locates.failExpected _ ht

theorem shorthandGroup :
    Stays loader u shorthandGroup fun found => ∀ s ∈ found, s.span.ExactIn u := by
  refine next.bind ?_
  rintro ⟨kind, span⟩ ht
  cases kind <;> dsimp only
  case ident nameSpace =>
    refine next.bind fun point hpoint => ?_
    split_ifs
    · exact (expect _).bind fun _ _ => (separated (shorthand _)).bind fun found hfound =>
        (expect _).bind fun _ _ => pure hfound
    · exact Locates.failExpected _ hpoint
  all_goals exact Locates.failExpected _ ht

theorem namesBeforeBrace : Stays loader u namesBeforeBrace fun _ => True := by
  refine repeated (A := fun _ => True) trivial fun names _ => peek.bind fun t _ => ?_
  split_ifs
  · exact next.bind fun _ _ => pure trivial
  · exact declaredName.bind fun _ _ => pure trivial

/-- An operator that is refused is refused at its name. -/
theorem defineAll (fixity : Fixity) (precedence : Nat) {names : List (String × Span)}
    (hnames : ∀ n ∈ names, n.2.ExactIn u) :
    Stays loader u (defineAll fixity precedence names) fun _ => True := by
  induction names with
  | nil => exact pure trivial
  | cons n rest ih =>
    obtain ⟨name, span⟩ := n
    rw [List.forall_mem_cons] at hnames
    refine Stays.bind (Q := fun _ => True) (change fun _ => trivial) fun r _ => ?_
    cases r with
    | ok s => exact ih hnames.2
    | error e => exact Locates.failAt hnames.1 _

theorem operators (fixity : Fixity) : Stays loader u (operators fixity) fun _ => True := by
  refine repeated (A := fun names => ∀ n ∈ names, n.2.ExactIn u) (by simp) fun names hnames =>
    next.bind ?_
  rintro ⟨kind, span⟩ ht
  have hspan : span.ExactIn u := ht.exactIn
  have hmore : ∀ name : String, ∀ n ∈ names ++ [(name, span)], n.2.ExactIn u :=
    fun name => List.forall_mem_append.2 ⟨hnames, by simpa using hspan⟩
  cases kind <;> dsimp only
  case int digits =>
    split
    · exact Locates.fail fun _ => ⟨span, rfl, hspan⟩
    · split_ifs
      · exact Locates.failAt hspan _
      · exact (defineAll fixity _ hnames).bind fun _ _ => pure trivial
  case ident name | symbolic name => exact pure (hmore name)
  all_goals exact Locates.failExpected _ ht

theorem readFrom_typesOf {span : Span} (hspan : span.ExactIn u) (names : List Symbol)
    (attributes : List Attribute) {type : Term} (htype : type.ReadFrom u) :
    (typesOf span names attributes type).ReadFrom u := by
  constructor
  · simp only [typesOf, Decl.marks, List.flatMap_map, List.mem_flatMap, List.mem_cons]
    rintro m ⟨-, -, rfl | hm⟩
    · exact hspan.realIn
    · exact htype.marked m hm
  · simp only [typesOf, Decl.terms, List.map_map, List.mem_map]
    rintro t ⟨-, -, rfl⟩
    exact htype

theorem typeDecl {start : Span} (hstart : start.ExactIn u) (attributes : List Attribute) :
    ReadsDecl loader u (typeDecl start attributes) :=
  declaredNames.bind fun names _ => term.bind fun _ htype => (expect _).bind fun _ _ =>
    (spanFrom hstart).bind fun _ hspan => pure (readFrom_typesOf hspan names attributes htype)

theorem mode : Stays loader u mode (·.span.ExactIn u) := by
  refine (expect _).bind fun first hfirst => declaredName.bind fun name _ => ?_
  refine Stays.bind (Q := fun _ => True) (repeated (A := fun _ => True) trivial fun args _ =>
    next.bind fun t ht => ?_) fun args _ => (spanFrom hfirst.exactIn).bind fun _ hspan => pure hspan
  split_ifs
  · exact pure trivial
  · split
    · exact pure trivial
    · exact Locates.failExpected _ ht

theorem predicateArg : Stays loader u predicateArg fun a => a.2.ReadFrom u := by
  refine next.bind fun t ht => ?_
  split
  · exact Locates.failExpected _ ht
  · refine next.bind fun colon hcolon => ?_
    split_ifs
    · exact (expressionAt _ _).bind fun type htype => pure htype
    · exact Locates.failExpected _ hcolon

theorem predicate {start : Span} (hstart : start.ExactIn u) (attributes : List Attribute) :
    ReadsDecls loader u (predicate start attributes) := by
  refine declaredName.bind fun name _ => peek.bind fun t _ => ?_
  have hend : ∀ args : List (Direction × Term), (∀ a ∈ args, a.2.ReadFrom u) →
      ReadsDecls loader u (do
        let _ ← Parse.expect .stop
        let span ← Parse.spanFrom start
        Pure.pure [Decl.modes [⟨span, name, args.map (·.1)⟩],
          Decl.types [⟨span, attributes, name, predicateType (args.map (·.2))⟩]]) := by
    refine fun args hargs => (expect _).bind fun _ _ => (spanFrom hstart).bind fun span hspan => ?_
    have htype : (predicateType (args.map (·.2))).ReadFrom u :=
      .predicateType (List.forall_mem_map.2 hargs)
    refine pure (List.forall_mem_cons.2 ⟨.plain hspan rfl rfl, List.forall_mem_singleton.2 ?_⟩)
    exact .of_term hspan htype (by simp [Decl.marks]) rfl
  split_ifs
  · exact Stays.bind (Q := fun args : List (Direction × Term) => args = []) (pure rfl)
      fun args hargs => hend args (by simp [hargs])
  · exact (separated predicateArg).bind fun args hargs => hend args hargs

theorem parameters {span : Span} (hspan : span.ExactIn u) (args : List Term) :
    Stays loader u (parameters span args) fun _ => True := by
  induction args with
  | nil => exact pure trivial
  | cons arg rest ih =>
    cases arg with
    | const s => exact ih.bind fun _ _ => pure trivial
    | _ => exact vocabulary.bind fun _ _ => Locates.failAt hspan _

theorem macroDecl {start : Span} (hstart : start.ExactIn u) :
    ReadsDecl loader u (macroDecl start) := by
  refine term.bind fun t ht => (expect _).bind fun _ _ => (spanFrom hstart).bind fun span hspan => ?_
  split
  · next head body hargs =>
    refine vocabulary.bind fun v _ => ?_
    split
    · refine (parameters hspan _).bind fun params _ => pure (.of_term hspan ?_ rfl rfl)
      exact .abstract (ht.of_argsOf? hargs body (by simp))
    · exact Locates.failAt hspan _
  · exact Locates.failAt hspan _

theorem typeAbbreviation {start : Span} (hstart : start.ExactIn u) :
    ReadsDecl loader u (typeAbbreviation start) := by
  refine closedTerm.bind fun head _ => term.bind fun value hvalue => (expect _).bind fun _ _ =>
    (spanFrom hstart).bind fun span hspan => ?_
  split
  · exact (parameters hspan _).bind fun params _ => pure (.of_term hspan (.abstract hvalue) rfl rfl)
  · exact vocabulary.bind fun _ _ => Locates.failAt hspan _

/-- All parts of a sequent are read from the unit. -/
abbrev ReadsSequent (loader : Loader) (u : Source) (p : Parse Sequent) : Prop :=
  Stays loader u p fun s => ∀ t ∈ s.terms, t.ReadFrom u

theorem freshVariable : ReadsTerm loader u freshVariable := change fun _ => .const

theorem readFrom_sequent {eigen context conclusion : Term} (heigen : eigen.ReadFrom u)
    (hcontext : context.ReadFrom u) (hconclusion : conclusion.ReadFrom u) :
    ∀ t ∈ (⟨eigen, context, conclusion⟩ : Sequent).terms, t.ReadFrom u := by
  simpa [Sequent.terms] using ⟨heigen, hcontext, hconclusion⟩

theorem sequentOf {t : Term} (ht : t.ReadFrom u) : ReadsSequent loader u (sequentOf t) := by
  unfold Parse.sequentOf
  split
  · next front conclusion hturnstile =>
    have hparts := ht.of_argsOf? hturnstile
    have hfront := hparts front (by simp)
    have hconclusion := hparts conclusion (by simp)
    split
    · next eigen context hcolon =>
      have hparts := hfront.of_argsOf? hcolon
      exact pure (readFrom_sequent (hparts eigen (by simp)) (hparts context (by simp)) hconclusion)
    · exact freshVariable.bind fun eigen heigen => pure (readFrom_sequent heigen hfront hconclusion)
  · exact freshVariable.bind fun eigen heigen => freshVariable.bind fun context hcontext =>
      pure (readFrom_sequent heigen hcontext ht)

theorem sequent : ReadsSequent loader u sequent := closedTerm.bind fun _ ht => sequentOf ht

theorem sequents : Stays loader u sequents fun found =>
    ∀ s ∈ found, ∀ t ∈ s.terms, t.ReadFrom u := by
  refine repeated (A := fun found => ∀ s ∈ found, ∀ t ∈ s.terms, t.ReadFrom u) (by simp)
    fun found hfound => peek.bind fun t _ => ?_
  split_ifs
  · exact pure hfound
  · exact sequent.bind fun s hs => pure (List.forall_mem_append.2 ⟨hfound, by simpa using hs⟩)

section

variable {start : Span} (hstart : start.ExactIn u) (attributes : List Attribute)
  {matched removed : List Sequent} (hmatched : ∀ s ∈ matched, ∀ t ∈ s.terms, t.ReadFrom u)
  (hremoved : ∀ s ∈ removed, ∀ t ∈ s.terms, t.ReadFrom u)

include hstart

section

include hmatched hremoved

/-- The end of a rule, behind all of its parts. -/
theorem ruleDecl_end {guard : Option Term} {goal : Option Sequent} (hguard : ∀ t ∈ guard, t.ReadFrom u)
    (hgoal : ∀ s ∈ goal, ∀ t ∈ s.terms, t.ReadFrom u) : ReadsDecl loader u (do
      let _ ← Parse.expect .stop
      Pure.pure (Decl.rule ⟨matched, removed, guard, goal, attributes, ← Parse.spanFrom start⟩)) := by
  refine (expect _).bind fun _ _ => (spanFrom hstart).bind fun span hspan => pure ?_
  refine .of_terms hspan (fun m hm => ?_) fun t ht => ?_
  · exact (List.mem_cons.1 hm).imp_right mem_marksOfTerms.1
  simp only [Decl.terms, Rule.terms, List.mem_append, List.mem_flatMap, Option.mem_toList] at ht
  rcases ht with ((⟨s, hs, ht⟩ | ⟨s, hs, ht⟩) | ht) | ⟨s, hs, ht⟩
  · exact hmatched s hs t ht
  · exact hremoved s hs t ht
  · exact hguard t ht
  · exact hgoal s hs t ht

/-- A rule from the goal that it may add. -/
theorem ruleDecl_goal {guard : Option Term} (hguard : ∀ t ∈ guard, t.ReadFrom u) : ReadsDecl loader u (do
      let goal ← if ← Parse.eatSymbol "<=>" then some <$> Parse.sequent else Pure.pure none
      let _ ← Parse.expect .stop
      Pure.pure (Decl.rule ⟨matched, removed, guard, goal, attributes, ← Parse.spanFrom start⟩)) := by
  refine (eatSymbol _).bind fun arrow _ => ?_
  dsimp only
  split_ifs
  · exact (sequent.map (S := fun o : Option Sequent => ∀ s ∈ o, ∀ t ∈ s.terms,
      t.ReadFrom u) fun s hs => by simpa using hs).bind fun goal hgoal =>
        ruleDecl_end hstart attributes hmatched hremoved hguard hgoal
  · exact Stays.bind (Q := fun o : Option Sequent => o = none) (pure rfl) fun goal hgoal =>
      ruleDecl_end hstart attributes hmatched hremoved hguard (by simp [hgoal])

/-- A rule from the guard that it may have. -/
theorem ruleDecl_guard : ReadsDecl loader u (do
      let guard ← if ← Parse.eatSymbol "|" then some <$> Parse.closedTerm else Pure.pure none
      let goal ← if ← Parse.eatSymbol "<=>" then some <$> Parse.sequent else Pure.pure none
      let _ ← Parse.expect .stop
      Pure.pure (Decl.rule ⟨matched, removed, guard, goal, attributes, ← Parse.spanFrom start⟩)) := by
  refine (eatSymbol _).bind fun bar _ => ?_
  dsimp only
  split_ifs
  · exact (closedTerm.map (S := fun o : Option Term => ∀ t ∈ o, t.ReadFrom u)
      fun t ht => by simpa using ht).bind fun guard hguard =>
        ruleDecl_goal hstart attributes hmatched hremoved hguard
  · exact Stays.bind (Q := fun o : Option Term => o = none) (pure rfl) fun guard hguard =>
      ruleDecl_goal hstart attributes hmatched hremoved (by simp [hguard])

end

theorem ruleDecl : ReadsDecl loader u (ruleDecl start attributes) := by
  refine sequents.bind fun matched hmatched => peek.bind fun t _ => ?_
  dsimp only
  split_ifs
  · exact next.bind fun _ _ => sequents.bind fun removed hremoved =>
      ruleDecl_guard hstart attributes hmatched hremoved
  · exact Stays.bind (Q := fun removed : List Sequent => removed = []) (pure rfl) fun removed hremoved =>
      ruleDecl_guard hstart attributes hmatched (by simp [hremoved])

end

theorem localDecls {start : Span} (hstart : start.ExactIn u) :
    ReadsDecls loader u (localDecls start) := by
  refine declaredNames.bind fun names _ => peek.bind fun t _ => ?_
  split_ifs
  · exact next.bind fun _ _ => (spanFrom hstart).bind fun span hspan => single (.plain hspan rfl rfl)
  · refine term.bind fun type htype => (expect _).bind fun _ _ => (spanFrom hstart).bind
      fun span hspan => pure (List.forall_mem_cons.2 ⟨.plain hspan rfl rfl, ?_⟩)
    exact List.forall_mem_singleton.2 (readFrom_typesOf hspan names [] htype)

theorem externalDecl {start : Span} (hstart : start.ExactIn u) (attributes : List Attribute) :
    ReadsDecls loader u (externalDecl start attributes) := by
  refine next.bind fun t ht => ?_
  dsimp only
  split
  · exact (typeDecl hstart _).single
  · exact (typeDecl hstart _).single
  · exact predicate hstart _
  · exact Locates.failExpected _ ht

theorem clauseDecl {start : Span} (hstart : start.ExactIn u) (attributes : List Attribute) :
    ReadsDecls loader u (do
      let body ← Parse.term
      let _ ← Parse.expect .stop
      Pure.pure [Decl.clause ⟨← Parse.spanFrom start, attributes, body⟩]) :=
  term.bind fun _ hbody => (expect _).bind fun _ _ => (spanFrom hstart).bind fun _ hspan =>
    single (.of_term hspan hbody rfl rfl)

/-- No declaration but an inclusion reads another unit. -/
theorem keywordDecl {incl : Include} {start : Span} (hstart : start.ExactIn u)
    (attributes : List Attribute) {keyword : Keyword} (h : keyword ≠ .accumulate) :
    ReadsDecls loader u (keywordDecl incl start attributes keyword) := by
  cases keyword
  case accumulate => exact absurd rfl h
  case nameSpace =>
    exact declaredName.bind fun _ _ => (expect _).bind fun _ _ => (spanFrom hstart).bind
      fun span hspan => single (.plain hspan rfl rfl)
  case constraint =>
    exact namesBeforeBrace.bind fun _ _ => (spanFrom hstart).bind fun span hspan =>
      single (.plain hspan rfl rfl)
  case shorten =>
    refine (separated shorthandGroup).bind fun groups hgroups => (expect _).bind fun _ _ =>
      (spanFrom hstart).bind fun span hspan => single ⟨?_, by simp [Decl.terms]⟩
    refine List.forall_mem_cons.2 ⟨hspan.realIn, List.forall_mem_map.2 fun s hs => ?_⟩
    obtain ⟨group, hgroup, hs⟩ := List.mem_flatten.1 hs
    exact (hgroups group hgroup s hs).realIn
  case localNames => exact localDecls hstart
  case type | kind => exact (typeDecl hstart attributes).single
  case external => exact externalDecl hstart attributes
  case mode =>
    refine (separated mode).bind fun modes hmodes => (expect _).bind fun _ _ =>
      single ⟨List.forall_mem_map.2 fun m hm => (hmodes m hm).realIn, by simp [Decl.terms]⟩
  case pred => exact predicate hstart attributes
  case macroDef => exact (macroDecl hstart).single
  case typeAbbreviation => exact (typeAbbreviation hstart).single
  case rule => exact (ruleDecl hstart attributes).single
  case fixity f =>
    exact (operators f).bind fun _ _ => (expect _).bind fun _ _ => (spanFrom hstart).bind
      fun span hspan => single (.plain hspan rfl rfl)

end Stays

/-- The span is a part of the text of a unit that has been read. -/
def Real (u : Source) (units : List Source) (m : Mark) : Prop := ∃ x ∈ u :: units, m.RealIn x

namespace Real

variable {units more : List Source} {m : Mark}

theorem of_realIn (h : m.RealIn u) : Real u units m := ⟨u, List.mem_cons_self, h⟩

theorem append_right (h : Real u units m) : Real u (units ++ more) m := by
  obtain ⟨x, hx, hm⟩ := h
  exact ⟨x, List.mem_append_left more hx, hm⟩

theorem append_left (h : Real u more m) : Real u (units ++ more) m := by
  obtain ⟨x, hx, hm⟩ := h
  exact ⟨x, List.mem_cons.2 ((List.mem_cons.1 hx).imp_right (List.mem_append_right _)), hm⟩

end Real

namespace Locates

open Stays (ReadsDecl)

/-- The step gives declarations whose spans are parts of units that have been read. -/
abbrev ReadsDecls (loader : Loader) (u : Source) (p : Parse (List Decl)) : Prop :=
  Locates loader u p fun units => Marked (Real u units)

theorem ReadsDecls.of_stays {p : Parse (List Decl)} (h : Stays.ReadsDecls loader u p) :
    ReadsDecls loader u p :=
  Locates.mono h fun _ _ hd m hm => by
    obtain ⟨d, hmem, hm⟩ := mem_marksOf.1 hm
    exact .of_realIn ((hd.2 d hmem).marks m hm)

/-- The inclusion of a unit whose name is written in the text gives declarations of units that are read for
it. -/
def Includes (loader : Loader) (u : Source) (incl : Include) : Prop :=
  ∀ {t : Token} {name : String}, t.WrittenIn u → (t.kind = .ident name ∨ t.kind = .string name) →
    Locates loader u (incl t.span name) fun units r => Marked (Real u units) r.2

variable {incl : Include} (hincl : Includes loader u incl)
include hincl

theorem inclusion :
    Locates loader u (inclusion incl) fun units r => Marked (Real u units) r.2 := by
  refine Stays.next.bind fun t ht => ?_
  split
  · next name hname => exact hincl ht (.inl hname)
  · next name hname => exact hincl ht (.inr hname)
  · exact failExpected _ ht

theorem inclusions : Locates loader u (separated (Parse.inclusion incl)) fun units found =>
    ∀ r ∈ found, Marked (Real u units) r.2 := by
  refine repeated (I := fun units found => ∀ r ∈ found, Marked (Real u units) r.2) (by simp)
    fun units found hfound => (inclusion hincl).bind fun more r hr => ?_
  refine Stays.bind (Stays.eatSymbol _) fun comma _ => ?_
  have hall : ∀ last, ∀ r' ∈ found ++ [r], Marked (Real u (units ++ (more ++ last))) r'.2 := by
    intro last
    refine List.forall_mem_append.2 ⟨fun r' hr' => ?_, ?_⟩
    · exact (hfound r' hr').mono fun _ hm => hm.append_right
    · simp only [List.forall_mem_singleton]
      exact hr.mono fun _ hm => .append_left (.append_right hm)
  split_ifs
  · exact pure (hall [])
  · exact pure (hall [])

theorem accumulateDecl {start : Span} (hstart : start.ExactIn u) :
    Locates loader u (accumulateDecl incl start) fun units d => ∀ m ∈ d.marks, Real u units m := by
  refine (inclusions hincl).bind fun units found hfound => Stays.bind (Stays.expect _) fun _ _ =>
    Stays.bind (Stays.spanFrom hstart) fun span hspan => pure ?_
  rw [List.append_nil]
  refine List.forall_mem_cons.2 ⟨.of_realIn hspan.realIn, fun m hm => ?_⟩
  obtain ⟨r, hr, hm⟩ := mem_marksOfUnits.1 hm
  exact hfound r hr m hm

theorem keywordDecl {start : Span} (hstart : start.ExactIn u) (attributes : List Attribute)
    (keyword : Keyword) : ReadsDecls loader u (keywordDecl incl start attributes keyword) := by
  by_cases hkeyword : keyword = .accumulate
  · subst hkeyword
    exact (accumulateDecl hincl hstart).bind fun units d hd => pure (by simpa using Marked.singleton hd)
  · exact .of_stays (Stays.keywordDecl hstart attributes hkeyword)

theorem attributedDecl {start : Span} (hstart : start.ExactIn u) :
    ReadsDecls loader u (attributedDecl incl start) := by
  refine Stays.attributes.bind fun found _ => Stays.peek.bind fun t ht => ?_
  split
  · exact ReadsDecls.of_stays (Stays.clauseDecl hstart found)
  · split_ifs
    · exact failAt ht.exactIn _
    · exact Stays.next.bind fun _ _ => keywordDecl hincl hstart found _

theorem declaration : ReadsDecls loader u (declaration incl) := by
  refine Stays.peek.bind fun t ht => ?_
  split
  · exact ReadsDecls.of_stays (Stays.next.bind fun _ _ =>
      Stays.single (.plain ht.exactIn rfl rfl))
  · exact ReadsDecls.of_stays (Stays.next.bind fun _ _ =>
      Stays.single (.plain ht.exactIn rfl rfl))
  · exact attributedDecl hincl ht.exactIn

theorem declarations : ReadsDecls loader u (declarations incl) := by
  refine repeated (I := fun units => Marked (Real u units)) .nil fun units found hfound =>
    Stays.peek.bind fun t _ => ?_
  split_ifs
  · exact pure (by simpa [Adds.RoundResult] using hfound)
  · refine (declaration hincl).bind fun more ds hds => pure ?_
    rw [List.append_nil]
    exact (hfound.mono fun _ hm => hm.append_right).append (hds.mono fun _ hm => hm.append_left)

end Locates

end Parse

end Clausal
