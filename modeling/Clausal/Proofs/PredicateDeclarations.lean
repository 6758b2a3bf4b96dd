import Clausal.Proofs.DeclarationTokens
import Clausal.Proofs.RightChains

/-!
# Predicates, modes and types

A predicate is declared with a direction and a type for each argument. The types end at commas, and are
put together to one type without the operator `->`. A mode and a type can be declared apart instead, with
the types of the arguments in parentheses and arrows behind them. Either way every type is the term that
it is by itself, so both declare the same.
-/
namespace Clausal

/-- The token of a direction. -/
def Direction.token : Direction → TokenKind
  | .input => .ident "i"
  | .output => .ident "o"

namespace Grammar

/-- The tokens of a term in parentheses. -/
def parenthesized (C : List TokenKind) : List TokenKind := .leftParen :: (C ++ [.rightParen])

/-- An argument of a predicate, with the tokens of its type. -/
def argumentTokens (a : Direction × List TokenKind) : List TokenKind := a.1.token :: .symbolic ":" :: a.2

/-- The declaration of a predicate. -/
def predicateTokens (attributes name : List TokenKind) (args : List (Direction × List TokenKind)) :
    List TokenKind :=
  attributes ++ .ident "pred" :: (name ++ ([.symbolic ","].intercalate (args.map argumentTokens) ++ [.stop]))

/-- The declaration of one mode. -/
def modeTokens (name : List TokenKind) (directions : List Direction) : List TokenKind :=
  .ident "mode" :: .leftParen :: (name ++ (directions.map Direction.token ++ [.rightParen, .stop]))

/-- The types of arguments in parentheses, with an arrow behind each. -/
def arrowTokens (types : List (List TokenKind)) : List TokenKind :=
  (types.map parenthesized).flatMap (· ++ [.symbolic "->"])

/-- The declaration of the type of a predicate. -/
def typeTokens (attributes name : List TokenKind) (types : List (List TokenKind)) : List TokenKind :=
  attributes ++ .ident "type" :: (name ++ (arrowTokens types ++ [.ident "prop", .stop]))

open Parse Precedence SyntaxTree

variable {v w : Vocabulary} {N X Y Z : List TokenKind} {rows types : List (List TokenKind)}
variable {args : List (Direction × List TokenKind)} {as : List SyntaxTree} {attributes : List Attribute}
variable {name : String} {directions : List Direction}

theorem direction?_token (d : Direction) : direction? d.token = some d := by
  cases d <;> rfl

theorem mode_produces (hN : NameTokens N name) :
    mode.Produces v (.leftParen :: (N ++ (directions.map Direction.token ++ .rightParen :: X)))
      (fun m => m.name = (v.intern name).1 ∧ m.args = directions) (v.intern name).2 X := by
  have hrows : List.Forall₂ (fun row d => row = [Direction.token d])
      (directions.map fun d => [d.token]) directions :=
    List.forall₂_map_left_iff.2 (List.forall₂_same.2 fun _ _ => rfl)
  have hflatten : directions.map Direction.token = (directions.map fun d => [d.token]).flatten :=
    List.map_eq_flatMap
  refine Produces.expect_bind fun first => (declaredName_produces hN).bind fun s hs => ?_
  rw [hflatten]
  refine (Produces.repeated_rows (Z := X) hrows ?_ ?_ fun found => ?_).bind fun ds hds => ?_
  · rintro _ d rfl
    exact List.cons_ne_nil _ _
  · rintro found _ d X rfl
    refine Produces.next_cons_bind fun t ht => ?_
    rw [if_neg (by rw [ht]; cases d <;> simp [Direction.token]), ht, direction?_token]
    exact .pure rfl
  · refine Produces.next_cons_bind fun t ht => ?_
    rw [if_pos ht]
    exact .pure rfl
  · exact Produces.spanFrom_bind fun span => .pure ⟨hs, hds⟩

/-- An argument ends at a comma or at the end of the declaration. -/
def EndsArgument (Z : List TokenKind) : Prop :=
  Z.headD .endOfInput = .symbolic "," ∨ Z.headD .endOfInput = .stop

section

variable (hb : v.HasBaseline) (hv : v.WellFormed)
include hb hv

theorem predicateArg_produces {C : List TokenKind} {a : SyntaxTree} (ha : Alone v C a)
    (ht : Tight v predicateArgument C) (hw : w.WellFormed) (ho : SameOperators v w) (d : Direction)
    (hZ : EndsArgument Z) :
    predicateArg.Produces w (argumentTokens (d, C) ++ Z)
      (fun r => r.1 = d ∧ SameParts r.2 (a.build w).1) (a.build w).2 Z := by
  have htype : Derives v (.expression predicateArgument true none) (C ++ Z) a Z := by
    rcases hZ with hZ | hZ
    · obtain ⟨X, rfl⟩ := eq_cons_of_headD hZ (by simp)
      refine ha.before ht (Nat.le_refl _) (fun _ _ h => (by cases h)) (.comma hb hv rfl (Nat.le_refl _)) fun e he => ?_
      obtain rfl := Option.some.inj ((operatorAhead?_comma hb hv X).symm.trans he)
      decide
    · obtain ⟨X, rfl⟩ := eq_cons_of_headD hZ (by simp)
      exact ha.before ht (Nat.le_refl _) (fun _ _ h => (by cases h)) (.of_name?_eq_none rfl rfl rfl (by simp))
        (forall_operatorAhead?_of_name?_eq_none rfl)
  refine Produces.next_cons_bind fun t hk => ?_
  rw [hk, direction?_token]
  refine Produces.next_cons_bind fun colon hcolon => ?_
  rw [if_pos (by simp [Token.isSymbol, hcolon])]
  exact (htype.expressionAt_produces (by decide) hw ho).bind fun u hu => .pure ⟨rfl, hu⟩

theorem producesEach_predicateArg (has : List.Forall₂ (Alone v) (args.map (·.2)) as)
    (ht : ∀ a ∈ args, Tight v predicateArgument a.2) (hw : w.WellFormed) (ho : SameOperators v w) :
    ProducesEach predicateArg EndsArgument w (args.map argumentTokens)
      (fun rs => rs.map (·.1) = args.map (·.1) ∧ SameParts (rs.map (·.2)) (buildEach as w).1)
      (buildEach as w).2 := by
  induction args generalizing as w with
  | nil =>
    cases has
    exact .nil ⟨rfl, rfl⟩
  | cons arg args ih =>
    cases has with
    | @cons _ a _ as ha has =>
      refine .cons (fun Z hZ => predicateArg_produces hb hv ha (ht arg List.mem_cons_self) hw ho arg.1 hZ)
        (ih has (fun b hb => ht b (List.mem_cons_of_mem arg hb)) (a.build_wellFormed hw)
          (ho.trans (a.build_sameOperators hw))) fun r rs hr hrs => ?_
      exact ⟨by rw [List.map_cons, List.map_cons, hr.1, hrs.1], hr.2.cons hrs.2⟩

end

theorem endOfInput_not_mem_arguments (h : ∀ a ∈ args, .endOfInput ∉ a.2) :
    .endOfInput ∉ [.symbolic ","].intercalate (args.map argumentTokens) := by
  have hrow : ∀ a ∈ args, .endOfInput ∉ argumentTokens a := by
    rintro ⟨d, C⟩ ha
    have hC := h _ ha
    cases d <;> simpa [argumentTokens, Direction.token] using hC
  induction args with
  | nil => exact List.not_mem_nil
  | cons a args ih =>
    have hfirst := hrow a List.mem_cons_self
    have hrest := ih (fun b hb => h b (List.mem_cons_of_mem a hb)) fun b hb => hrow b (List.mem_cons_of_mem a hb)
    cases args with
    | nil => rwa [List.map_singleton, List.intercalate_singleton]
    | cons b args =>
      rw [List.map_cons, List.map_cons, List.intercalate_cons_cons]
      simpa using ⟨hfirst, hrest⟩

section

variable {A : List TokenKind} (hA : .endOfInput ∉ A) (hN : .endOfInput ∉ N)
include hN

theorem endOfInput_not_mem_modeTokens : .endOfInput ∉ modeTokens N directions := by
  have hdirections : ∀ d : Direction, d.token ≠ .endOfInput := fun d => by cases d <;> simp [Direction.token]
  simp [modeTokens, hN, hdirections]

include hA

theorem endOfInput_not_mem_predicateTokens (h : ∀ a ∈ args, .endOfInput ∉ a.2) :
    .endOfInput ∉ predicateTokens A N args := by
  simp [predicateTokens, hA, hN, endOfInput_not_mem_arguments h]

theorem endOfInput_not_mem_typeTokens (h : ∀ C ∈ types, .endOfInput ∉ C) :
    .endOfInput ∉ typeTokens A N types := by
  simpa [typeTokens, arrowTokens, parenthesized, hA, hN] using h

end

/-- All of it stands in brackets. -/
theorem tight_parenthesized {C : List TokenKind} (hC : Balanced C) (m : Nat) : Tight v m (parenthesized C) := by
  have houtside : outside 0 (parenthesized C) = [] := by
    have hinner := hC.outside_append 1 [.rightParen]
    rw [if_neg Nat.one_ne_zero, List.nil_append] at hinner
    exact hinner
  constructor <;> simp [houtside]

theorem forall₂_parenthesized (hv : v.WellFormed) (has : List.Forall₂ (Alone v) types as)
    (htypes : ∀ C ∈ types, TermAbove v predicateArgument C) :
    List.Forall₂ (Alone v) (types.map parenthesized) as := by
  induction has with
  | nil => exact .nil
  | @cons C a types as ha _ ih =>
    have hC := htypes C List.mem_cons_self
    exact .cons ((ha.parenthesized hC.tight).alone (.brackets rfl (hC.balanced hv)))
      (ih fun D hD => htypes D (List.mem_cons_of_mem C hD))

/-- The tree of a predicate's type. -/
def typeTree (as : List SyntaxTree) : SyntaxTree := as.foldr (binary Symbol.arrow) (.ofName "prop")

theorem build_prop (hw : w.WellFormed) : (SyntaxTree.ofName "prop").build w = (.const Symbol.prop, w) := by
  have hlookup : w.lookup "prop" = some Symbol.prop := hw.symbols.lookup_of_name? (hw.symbols.name?_wellKnown rfl)
  rw [SyntaxTree.build_ofName, nameTerm, if_neg (by decide), Vocabulary.constant, Vocabulary.intern_of_lookup hlookup]

theorem build_typeTree (as : List SyntaxTree) (hw : w.WellFormed) :
    (typeTree as).build w = (predicateType (buildEach as w).1, (buildEach as w).2) := by
  rw [typeTree, foldr_binary_build, build_prop (buildEach_wellFormed as hw)]
  rfl

theorem sameParts_predicateType {ts us : List Term} (h : SameParts ts us) :
    SameParts (predicateType ts) (predicateType us) := by
  induction us generalizing ts with
  | nil =>
    cases ts with
    | nil => rfl
    | cons => cases h
  | cons u us ih =>
    obtain ⟨t, ts, rfl, ht, hts⟩ := SameParts.of_cons h
    exact .node (ht.cons (.singleton (ih hts)))

theorem derives_prop (hb : v.HasBaseline) (limit : Nat) (earlier : Option (Nat × Grouping)) :
    Derives v (.expression limit false earlier) (.ident "prop" :: .stop :: X) (.ofName "prop") (.stop :: X) := by
  have hsymbol := operatorSymbol?_eq_none (k := .ident "prop") "prop" hb rfl (by decide)
  have hstarts : startsArgument v (.ident "prop") = true := by
    rw [startsArgument, hsymbol]
    rfl
  exact .expression (.application (prefixAhead?_of_startsArgument hstarts)
    (.single (.name hsymbol) (by simp [Binds])) (.noArgument rfl)) (.stop (forall_operatorAhead?_of_name?_eq_none rfl))

theorem derives_type (hb : v.HasBaseline) (hv : v.WellFormed) (has : List.Forall₂ (Alone v) types as)
    (htypes : ∀ C ∈ types, TermAbove v predicateArgument C) :
    Derives v (.expression lowest false none) (arrowTokens types ++ .ident "prop" :: .stop :: X) (typeTree as)
      (.stop :: X) := by
  refine derives_chain (d := ("->", .infixRight, 120)) (n := 6) hb hv (by decide) rfl rfl rfl (by decide)
    (fun limit earlier _ _ => derives_prop hb limit earlier) rfl ?_ (forall₂_parenthesized hv has htypes)
    (Nat.zero_le _) (.inl rfl)
  intro C hC
  obtain ⟨D, hD, rfl⟩ := List.mem_map.1 hC
  exact tight_parenthesized ((htypes D hD).balanced hv) 120

/-- What a predicate declares. -/
def declared (span : Span) (attributes : List Attribute) (s : Symbol) (directions : List Direction)
    (types : List Term) : List Decl :=
  [.modes [⟨span, s, directions⟩], .types [⟨span, attributes, s, predicateType types⟩]]

/-- Without arguments the stop comes at once. -/
theorem headD_arguments : ([.symbolic ","].intercalate (args.map argumentTokens) ++ .stop :: X).headD .endOfInput =
    .stop ↔ args = [] := by
  cases args with
  | nil => exact ⟨fun _ => rfl, fun _ => rfl⟩
  | cons a args =>
    obtain ⟨d, C⟩ := a
    cases args <;> cases d <;> simp [List.intercalate, argumentTokens, Direction.token]

theorem sameParts_declared {span span' : Span} {s : Symbol} {ts us : List Term} (h : SameParts ts us) :
    SameParts (declared span attributes s directions ts) (declared span' attributes s directions us) := by
  have htype : SameParts (TypeDecl.mk span attributes s (predicateType ts))
      ⟨span', attributes, s, predicateType us⟩ :=
    congrArg (TypeDecl.mk _ attributes s) (sameParts_predicateType h)
  exact SameParts.cons rfl (.singleton (congrArg Decl.types (SameParts.singleton htype)))

section

variable (hb : v.HasBaseline) (hv : v.WellFormed)
include hb hv

theorem predicate_produces (hN : NameTokens N name) (has : List.Forall₂ (Alone v) (args.map (·.2)) as)
    (hargs : ∀ a ∈ args, TermAbove v predicateArgument a.2) (start span : Span) :
    (predicate start attributes).Produces v (N ++ ([.symbolic ","].intercalate (args.map argumentTokens) ++ .stop :: X))
      (SameParts · (declared span attributes (v.intern name).1 (args.map (·.1)) (buildEach as (v.intern name).2).1))
      (buildEach as (v.intern name).2).2 X := by
  refine (declaredName_produces hN).bind fun s hs => ?_
  subst hs
  have hw := hv.intern name
  have hrest : ∀ rs : List (Direction × Term), rs.map (·.1) = args.map (·.1) →
      SameParts (rs.map (·.2)) (buildEach as (v.intern name).2).1 →
      (expect .stop >>= fun _ => spanFrom start >>= fun span =>
        pure (declared span attributes (v.intern name).1 (rs.map (·.1)) (rs.map (·.2)))).Produces
        (buildEach as (v.intern name).2).2 (.stop :: X)
        (SameParts · (declared span attributes (v.intern name).1 (args.map (·.1)) (buildEach as (v.intern name).2).1))
        (buildEach as (v.intern name).2).2 X := by
    intro rs hdirections htypes
    refine Produces.expect_bind fun _ => Produces.spanFrom_bind fun span' => .pure ?_
    rw [hdirections]
    exact sameParts_declared htypes
  refine Produces.peek_bind fun t ht => ?_
  -- Only a predicate without arguments ends here.
  by_cases hnil : args = []
  · rw [headD_arguments.2 hnil] at ht
    subst hnil
    cases has
    dsimp only
    rw [if_pos ht]
    exact hrest [] rfl rfl
  · dsimp only
    rw [if_neg fun hstop => hnil (headD_arguments.1 (ht.symm.trans hstop))]
    have heach := producesEach_predicateArg hb hv has (fun a ha => (hargs a ha).tight) hw (.intern hv name)
    refine (heach.separated (by simpa using hnil) (fun _ => .inl rfl) (.inr rfl) (by simp)).bind fun rs hrs => ?_
    exact hrest rs hrs.1 hrs.2

theorem typeDecl_produces (hN : NameTokens N name) (has : List.Forall₂ (Alone v) types as)
    (htypes : ∀ C ∈ types, TermAbove v predicateArgument C) (ho : SameOperators v w) (hw : w.WellFormed)
    {s : Symbol} (hs : w.lookup name = some s) (start span : Span) :
    (typeDecl start attributes).Produces w (N ++ (arrowTokens types ++ .ident "prop" :: .stop :: X))
      (SameParts · (.types [⟨span, attributes, s, predicateType (buildEach as w).1⟩])) (buildEach as w).2 X := by
  have hintern := Vocabulary.intern_of_lookup hs
  have hnames : declaredNames.Produces w (N ++ (arrowTokens types ++ .ident "prop" :: .stop :: X)) (· = [s]) w
      (arrowTokens types ++ .ident "prop" :: .stop :: X) := by
    have hone := (declaredName_produces (v := w) (X := arrowTokens types ++ .ident "prop" :: .stop :: X) hN)
      |>.separated_one (by cases types <;> simp [arrowTokens, parenthesized])
    rw [hintern] at hone
    exact hone.mono fun names ⟨s', hs', he⟩ => by rw [hs', he]
  have hbuild := build_typeTree as hw
  have hterm := (derives_type (X := X) hb hv has htypes).expressionAt_produces (by decide) hw ho
  rw [hbuild] at hterm
  refine hnames.bind fun names hnames => hterm.bind fun t ht => Produces.expect_bind fun _ => ?_
  refine Produces.spanFrom_bind fun span' => .pure ?_
  subst hnames
  have htype : SameParts (TypeDecl.mk span' attributes s t)
      ⟨span, attributes, s, predicateType (buildEach as w).1⟩ :=
    congrArg (TypeDecl.mk _ attributes s) ht
  exact congrArg Decl.types (SameParts.singleton htype)

end

section

variable (hb : v.HasBaseline) (hv : v.WellFormed) {incl : Include}

theorem modeTokens_produces (hN : NameTokens N name) (directions : List Direction) (span : Span) :
    (declaration incl).Produces v (modeTokens N directions ++ X)
      (SameParts · [.modes [⟨span, (v.intern name).1, directions⟩]]) (v.intern name).2 X := by
  simp only [modeTokens, List.append_assoc, List.cons_append, List.nil_append]
  refine declaration_produces (.nil : List.Forall₂ AttributeTokens [] [])
    (by decide : Keyword.of? (.ident "mode") = some .mode) (.inl rfl) fun start => ?_
  refine ((mode_produces hN).separated_one (by simp)).bind ?_
  rintro _ ⟨⟨span', s, directions⟩, rfl, rfl, rfl⟩
  exact Produces.expect_bind fun _ => .pure rfl

include hb hv

theorem predicateTokens_produces (hrows : List.Forall₂ AttributeTokens rows attributes) (hN : NameTokens N name)
    (has : List.Forall₂ (Alone v) (args.map (·.2)) as) (hargs : ∀ a ∈ args, TermAbove v predicateArgument a.2)
    (span : Span) :
    (declaration incl).Produces v (predicateTokens rows.flatten N args ++ X)
      (SameParts · (declared span attributes (v.intern name).1 (args.map (·.1)) (buildEach as (v.intern name).2).1))
      (buildEach as (v.intern name).2).2 X := by
  simp only [predicateTokens, List.append_assoc, List.cons_append, List.nil_append]
  exact declaration_produces hrows (by decide : Keyword.of? (.ident "pred") = some .pred) (.inr rfl)
    fun start => predicate_produces hb hv hN has hargs start span

theorem typeTokens_produces (hrows : List.Forall₂ AttributeTokens rows attributes) (hN : NameTokens N name)
    (has : List.Forall₂ (Alone v) types as) (htypes : ∀ C ∈ types, TermAbove v predicateArgument C)
    (ho : SameOperators v w) (hw : w.WellFormed) {s : Symbol} (hs : w.lookup name = some s) (span : Span) :
    (declaration incl).Produces w (typeTokens rows.flatten N types ++ X)
      (SameParts · [.types [⟨span, attributes, s, predicateType (buildEach as w).1⟩]]) (buildEach as w).2 X := by
  simp only [typeTokens, List.append_assoc, List.cons_append, List.nil_append]
  refine declaration_produces hrows (by decide : Keyword.of? (.ident "type") = some .type) (.inr rfl) fun start => ?_
  exact (typeDecl_produces hb hv hN has htypes ho hw hs start span).bind fun d hd => .pure (.singleton hd)

end

end Grammar

open Grammar Parse Precedence SyntaxTree

/-- A predicate declares what its mode and its type declare apart, each type the term that it is read as by
itself after the name and the types before it. -/
theorem declares_predicate {v : Vocabulary} (hv : v.Reachable) (hb : v.HasBaseline)
    {rows : List (List TokenKind)} {attributes : List Attribute} {N : List TokenKind} {name : String}
    {args : List (Direction × List TokenKind)} (hattributes : List.Forall₂ AttributeTokens rows attributes)
    (hname : NameTokens N name) (hargs : ∀ a ∈ args, TermAbove v predicateArgument a.2) :
    ∃ types w, (v.intern name).2.ReadsEach (args.map (·.2)) types w ∧ ∀ span,
      v.Declares (predicateTokens rows.flatten N args)
        (declared span attributes (v.intern name).1 (args.map (·.1)) types) w ∧
      v.Declares (modeTokens N (args.map (·.1)) ++ typeTokens rows.flatten N (args.map (·.2)))
        (declared span attributes (v.intern name).1 (args.map (·.1)) types) w := by
  have hw := hv.wellFormed
  have htypes : ∀ C ∈ args.map (·.2), TermAbove v predicateArgument C := by
    intro C hC
    obtain ⟨a, ha, rfl⟩ := List.mem_map.1 hC
    exact hargs a ha
  have hend : ∀ C ∈ args.map (·.2), .endOfInput ∉ C := fun C hC hm => by cases (htypes C hC).goesOn _ hm
  have hA := endOfInput_not_mem_flatten hattributes fun _ _ h => h.endOfInput_not_mem
  have hN := hname.endOfInput_not_mem
  obtain ⟨as, has⟩ := exists_alone hw htypes
  refine ⟨_, _, readsEach_of_alone has (hw.intern name) (.intern hw name), fun span => ⟨?_, ?_⟩⟩
  · have hdeclares := (DeclaresEach.cons (fun incl Z =>
      predicateTokens_produces hb hw hattributes hname has hargs span) .nil).declares ?_
    · rwa [List.flatten_singleton] at hdeclares
    · intro row hrow
      obtain rfl := List.mem_singleton.1 hrow
      refine ⟨by simp [predicateTokens], endOfInput_not_mem_predicateTokens hA hN fun a ha => ?_⟩
      exact hend _ (List.mem_map_of_mem ha)
  · have hlookup : (v.intern name).2.lookup name = some (v.intern name).1 := v.symbols.lookup_intern_self name
    have hdeclares := (DeclaresEach.cons (fun incl Z => modeTokens_produces hname (args.map (·.1)) span)
      (.cons (fun incl Z => typeTokens_produces hb hw hattributes hname has htypes (.intern hw name) (hw.intern name)
        hlookup span) .nil)).declares ?_
    · rwa [List.flatten_cons, List.flatten_singleton] at hdeclares
    · intro row hrow
      rcases List.mem_pair.1 hrow with rfl | rfl
      · exact ⟨by simp [modeTokens], endOfInput_not_mem_modeTokens hN⟩
      · exact ⟨by simp [typeTokens], endOfInput_not_mem_typeTokens hA hN hend⟩

/-- A predicate whose types have an application, an arrow and anonymous variables. -/
theorem declares_predicate_arrow :
    let v := Vocabulary.initial.defineBaseline.2
    ∃ ds ds' w, parseText v .disabled "main" ":external pred p i : list _ , o : _ -> prop ." = (.ok ds, w) ∧
      parseText v .disabled "main" "mode ( p i o ) . :external type p ( list _ ) -> ( _ -> prop ) -> prop ." =
        (.ok ds', w) ∧ SameParts ds ds' := by
  intro v
  have hv : v.Reachable := Vocabulary.Reachable.initial.defineOperators baselineOperators
  have hscanned : ((Scan.ofText "main" ":external pred p i : list _ , o : _ -> prop .").items.map Item.kind? =
        (predicateTokens [.symbolic ":", .ident "external"] [.ident "p"]
          [(.input, [.ident "list", .ident "_"]),
            (.output, [.ident "_", .symbolic "->", .ident "prop"])]).map some ∧
      (Scan.ofText "main" "mode ( p i o ) . :external type p ( list _ ) -> ( _ -> prop ) -> prop .").items.map
          Item.kind? =
        (modeTokens [.ident "p"] [.input, .output] ++ typeTokens [.symbolic ":", .ident "external"] [.ident "p"]
          [[.ident "list", .ident "_"], [.ident "_", .symbolic "->", .ident "prop"]]).map some) ∧
      ∀ text ∈ [":external pred p i : list _ , o : _ -> prop .",
          "mode ( p i o ) . :external type p ( list _ ) -> ( _ -> prop ) -> prop ."],
        (Scan.ofText "main" text).last.kind? = some .endOfInput := by
    decide +kernel
  have htypes : (∀ d ∈ [("list _", [.ident "list", .ident "_"]),
        ("_ -> prop", [.ident "_", .symbolic "->", TokenKind.ident "prop"])],
      (parseTerm v d.1).1.toOption.isSome = true ∧ (Scan.ofText "<term>" d.1).items.map Item.kind? = d.2.map some ∧
        (Scan.ofText "<term>" d.1).last.kind? = some .endOfInput ∧ (∀ k ∈ d.2, k.isStop = false) ∧
        Tight v predicateArgument d.2) ∧ v.definitions = baselineOperators := by
    decide +kernel
  have hargs : ∀ a ∈ [(Direction.input, [.ident "list", .ident "_"]),
      (Direction.output, [.ident "_", .symbolic "->", TokenKind.ident "prop"])],
      TermAbove v predicateArgument a.2 := by
    obtain ⟨hread, hitems, hlast, hgoes, htight⟩ := htypes.1 ("list _", [.ident "list", .ident "_"]) (by simp)
    obtain ⟨hread', hitems', hlast', hgoes', htight'⟩ :=
      htypes.1 ("_ -> prop", [.ident "_", .symbolic "->", .ident "prop"]) (by simp)
    simpa using ⟨TermAbove.of_text hread hitems hlast hgoes htight, .of_text hread' hitems' hlast' hgoes' htight'⟩
  obtain ⟨⟨hk, hk'⟩, hlast⟩ := hscanned
  obtain ⟨types, w, -, hdeclares⟩ := declares_predicate hv (.of_eq htypes.2) (.cons .external .nil) .bare hargs
  obtain ⟨hpredicate, happart⟩ := hdeclares (Span.initial "main")
  obtain ⟨ds, hrun, hsame⟩ := hpredicate .disabled "main" _ (.of_items hk (hlast _ (by simp)))
  obtain ⟨ds', hrun', hsame'⟩ := happart .disabled "main" _ (.of_items hk' (hlast _ (by simp)))
  exact ⟨ds, ds', w, hrun, hrun', Eq.trans hsame hsame'.symm⟩

end Clausal
