import Clausal.Proofs.BuiltInOperators
import Clausal.Proofs.SpelledTexts

/-!
# Texts of terms in their places

The text of a term depends on where the term stands: alone, as an argument, or behind the first
element of a list. For each place there is a statement of how its text is read, whatever closes it.
-/
namespace Clausal

namespace Term

/-- One identifier, neither anonymous nor an operator. -/
def IsIdentifier (name : String) : Prop :=
  ReadsAs name (.ident name) ∧ name ≠ "_" ∧ ∀ d ∈ baselineOperators, d.1 ≠ name

instance (name : String) : Decidable (IsIdentifier name) :=
  inferInstanceAs (Decidable (_ ∧ _ ∧ _))

/-- The names that constants may have. -/
inductive NamesConstant (name : String) : Prop
  | identifier (h : IsIdentifier name)
  | macroName (h : ReadsAs name (.macroName name))
  | nil (h : name = "[]")
  | cut (h : name = "!")
  | symbolic (h : ReadsAs name (.symbolic name)) (fixity : Fixity) (precedence : Nat)
      (hd : (name, fixity, precedence) ∈ baselineOperators)

def IsLambda (t : Term) : Prop := ∃ x body, t = .lam x body

def IsCell (t : Term) : Prop := ∃ first rest, t = cell first rest

/-- The terms whose text is read back. A lambda is an element of a list only if no other element
follows it, for its body goes on as far as it can. -/
inductive Readable (names : SymbolTable) : Term → Prop
  | const {s : Symbol} {name : String} (hs : names.name? s = some name)
      (hn : NamesConstant name) : Readable names (.const s)
  | int {n : Int64} (h : 0 ≤ n.toInt) : Readable names (.literal (.int n))
  | string (text : String) (pooled : Bool) : Readable names (.literal (.string text pooled))
  | application {s : Symbol} {name : String} {args : List Term} (hs : names.name? s = some name)
      (hn : NamesConstant name) (hc : s ≠ Symbol.cons) (hne : args ≠ [])
      (ha : ∀ t ∈ args, Readable names t) : Readable names (.app (.const s) args)
  | cell {first rest : Term} (hf : Readable names first) (hr : Readable names rest)
      (hl : IsLambda first → ¬ IsCell rest) : Readable names (cell first rest)
  | lam {x : Symbol} {name : String} {body : Term} (hs : names.name? x = some name)
      (hn : IsIdentifier name) (hb : Readable names body) : Readable names (.lam x body)

section

variable (names : SymbolTable) (place : Place)

theorem renderAt_application_of {s : Symbol} {args : List Term}
    (hc : s = Symbol.cons → args.length ≠ 2) :
    renderAt names place (.app (.const s) args) = place.enclose (decide (s = Symbol.cons))
      (renderAt names .argument (.const s) ++ renderArgs names args) := by
  have hd : decide ((const s).symbol? = some Symbol.cons) = decide (s = Symbol.cons) := by
    simp [symbol?]
  conv => lhs; unfold renderAt
  rw [hd]
  generalize hclosed : decide (s = Symbol.cons) = closed
  rcases closed, args with ⟨_ | _, _ | ⟨first, _ | ⟨rest, _ | _⟩⟩⟩
  case true.cons.cons.nil => exact absurd rfl (hc (of_decide_eq_true hclosed))
  all_goals rfl

theorem renderAt_application {s : Symbol} (hc : s ≠ Symbol.cons) (args : List Term) :
    renderAt names place (.app (.const s) args) =
      place.enclose false (renderAt names .argument (.const s) ++ renderArgs names args) := by
  rw [renderAt_application_of names place fun h => absurd h hc, decide_eq_false hc]

theorem renderAt_cell (first rest : Term) :
    renderAt names place (cell first rest) =
      place.encloseList (renderAt names .alone first) (renderAt names .tail rest) := by
  rw [cell, node, renderAt]
  decide

end

theorem same_int [Extensions] (n : Int64) : (literal (.int n)).same (.literal (.int n)) = true := by
  simp [same, Literal.same, Literal.type, Literal.compareAs, Literal.comparePayload, Literal.int?]

/-- Strings are equal whether the pool holds them or not. -/
theorem same_string [Extensions] (text : String) (pooled pooled' : Bool) :
    (literal (.string text pooled)).same (.literal (.string text pooled')) = true := by
  simp [same, Literal.same, Literal.type, Literal.compareAs, Literal.comparePayload,
    Literal.string?]

end Term

namespace Parse

open Precedence Term

variable {names : SymbolTable} {v : Vocabulary}

/-- The vocabularies that share the table and have the built-in operators. -/
structure Speaks (names : SymbolTable) (v : Vocabulary) : Prop where
  symbols : v.symbols = names
  wellFormed : v.WellFormed
  baseline : v.HasBaseline

theorem Speaks.withStrings (h : Speaks names v) (strings : Array String) :
    Speaks names { v with strings } :=
  ⟨h.symbols, ⟨h.wellFormed.symbols, h.wellFormed.named, h.wellFormed.bounded⟩, h.baseline⟩

theorem Speaks.lookup (h : Speaks names v) {s : Symbol} {name : String}
    (hs : names.name? s = some name) : v.lookup name = some s :=
  h.wellFormed.symbols.lookup_of_name? (h.symbols ▸ hs)

theorem Speaks.constant (h : Speaks names v) {s : Symbol} {name : String}
    (hs : names.name? s = some name) : v.constant name = (.const s, v) := by
  simp only [Vocabulary.constant, Vocabulary.intern, SymbolTable.intern_of_lookup (h.lookup hs)]

theorem Speaks.lambda (h : Speaks names v) {x : Symbol} {name : String}
    (hs : names.name? x = some name) (body : Term) : v.lambda name body = (.lam x body, v) := by
  simp only [Vocabulary.lambda, Vocabulary.intern, SymbolTable.intern_of_lookup (h.lookup hs)]

/-- An expression at the level ends in front of these tokens, and so do its arguments. -/
structure Ends (names : SymbolTable) (limit : Nat) (rest : List TokenKind) : Prop where
  argument : ∀ v, Speaks names v → startsArgument v (rest.headD .endOfInput) = false
  binder : rest.headD .endOfInput ≠ .backslash
  climb : ∀ v, Speaks names v → ∀ first, ReadsClimb limit false none first v rest
    (.value first v rest)

theorem ends_of_not_operator {limit : Nat} {rest : List TokenKind}
    (ha : ∀ v, startsArgument v (rest.headD .endOfInput) = false)
    (hb : rest.headD .endOfInput ≠ .backslash)
    (ho : ∀ v, Speaks names v → operatorSymbol? v (rest.headD .endOfInput) = none) :
    Ends names limit rest := by
  refine ⟨fun v _ => ha v, hb, fun v hv first => reads_climb_stop ?_⟩
  simp only [operatorBehind?, operatorAt?, ho v hv]

theorem ends_nil (limit : Nat) : Ends names limit [] :=
  ends_of_not_operator (fun _ => rfl) (by simp) fun _ _ => rfl

theorem ends_rightParen (limit : Nat) (rest : List TokenKind) :
    Ends names limit (.rightParen :: rest) :=
  ends_of_not_operator (fun _ => rfl) (by simp) fun _ _ => rfl

theorem ends_rightBracket (limit : Nat) (rest : List TokenKind) :
    Ends names limit (.rightBracket :: rest) :=
  ends_of_not_operator (fun _ => rfl) (by simp) fun _ _ => rfl

theorem ends_bar (limit : Nat) (rest : List TokenKind) :
    Ends names limit (.symbolic "|" :: rest) :=
  ends_of_not_operator (fun _ => rfl) (by simp) fun v hv =>
    operatorSymbol?_eq_none "|" hv.baseline rfl (by decide)

theorem ends_comma (rest : List TokenKind) :
    Ends names listElement (.symbolic "," :: rest) := by
  refine ⟨fun v hv => ?_, by simp, fun v hv first => ?_⟩
  · obtain ⟨s, o, hs, -⟩ := operatorBehind?_comma hv.baseline hv.wellFormed .endOfInput
    rw [← Bool.not_eq_true]
    intro ha
    rw [List.headD_cons] at ha
    simp [operatorBehind?, operatorAt?_of_startsArgument ha] at hs
  · obtain ⟨s, o, hs, hl⟩ := operatorBehind?_comma hv.baseline hv.wellFormed
      (rest.headD .endOfInput)
    exact reads_climb_yield (by simpa using hs) (.inl hl)

variable [Extensions]

/-- The step reads a term like `t` and leaves the rest, with perhaps more strings pooled. -/
def Finds (reads : Vocabulary → List TokenKind → Outcome Term → Prop) (v : Vocabulary)
    (kinds : List TokenKind) (t : Term) (rest : List TokenKind) : Prop :=
  ∃ u strings, u.same t = true ∧ reads v kinds (.value u { v with strings } rest)

/-- How the text of a term that stands alone is read. -/
structure ReadsAlone (names : SymbolTable) (t : Term) (k : TokenKind) (ks : List TokenKind) :
    Prop where
  spelled : SpelledAs (renderAt names .alone t) (k :: ks)
  starts : ∀ v, Speaks names v → startsArgument v k = true
  reads : ∀ v, Speaks names v → ∀ limit rest, limit ≤ listElement → Ends names limit rest →
    (IsLambda t → Ends names lowest rest) →
      Finds (ReadsExpression limit false none) v (k :: (ks ++ rest)) t rest

/-- How the text of a term that is an argument is read. -/
structure ReadsArgument (names : SymbolTable) (t : Term) (k : TokenKind) (ks : List TokenKind) :
    Prop where
  spelled : SpelledAs (renderAt names .argument t) (k :: ks)
  starts : ∀ v, Speaks names v → startsArgument v k = true
  reads : ∀ v, Speaks names v → ∀ limit rest, rest.headD .endOfInput ≠ .backslash →
    Finds (ReadsAtomic limit) v (k :: (ks ++ rest)) t rest

/-- How the text of a term behind the first element of a list is read, once that is read. -/
structure ReadsTail (names : SymbolTable) (t : Term) (ks : List TokenKind) : Prop where
  spelled : SpelledAs (renderAt names .tail t) ks
  setsOff : SetsOff (renderAt names .tail t)
  ends : ∀ rest, Ends names listElement (ks ++ .rightBracket :: rest)
  endsLowest : ¬ IsCell t → ∀ rest, Ends names lowest (ks ++ .rightBracket :: rest)
  reads : ∀ v, Speaks names v → ∀ w front first rest,
    ReadsExpression listElement false none w front
      (.value first v (ks ++ .rightBracket :: rest)) →
    (ks ++ .rightBracket :: rest).length < front.length →
      ∃ u strings, u.same t = true ∧ ReadsElements w front
        (.value (cell first u) { v with strings } (.rightBracket :: rest))

structure ReadsBack (names : SymbolTable) (t : Term) : Prop where
  alone : ∃ k ks, ReadsAlone names t k ks
  argument : ∃ k ks, ReadsArgument names t k ks
  tail : ∃ ks, ReadsTail names t ks

variable {t : Term} {k : TokenKind} {ks : List TokenKind}

/-- A text that is the same alone and as an argument. -/
theorem ReadsArgument.alone (h : ReadsArgument names t k ks)
    (hr : renderAt names .alone t = renderAt names .argument t) : ReadsAlone names t k ks := by
  refine ⟨hr ▸ h.spelled, h.starts, fun v hv limit rest hl he _ => ?_⟩
  obtain ⟨u, strings, hu, ha⟩ := h.reads v hv limit rest he.binder
  have hv' := hv.withStrings strings
  refine ⟨u, strings, hu, reads_expression (reads_operand_atomic ?_ ha ?_ ?_) ?_ (he.climb _ hv' u)⟩
  · exact operatorBefore?_of_startsArgument (h.starts v hv) _
  · simp
  · exact he.argument _ hv'
  · simp [Nat.le_add_right_of_le]

theorem ReadsAlone.argument (h : ReadsAlone names t k ks)
    (hr : renderAt names .argument t = "(" ++ renderAt names .alone t ++ ")") :
    ReadsArgument names t .leftParen (k :: (ks ++ [.rightParen])) := by
  refine ⟨?_, fun _ _ => rfl, fun v hv limit rest _ => ?_⟩
  · rw [hr]
    exact h.spelled.parenthesized
  · obtain ⟨u, strings, hu, he⟩ := h.reads v hv lowest (.rightParen :: rest) (Nat.zero_le _)
      (ends_rightParen _ _) fun _ => ends_rightParen _ _
    refine ⟨u, strings, hu, reads_atomic_group (.inl ?_) ?_⟩
    · exact operatorSymbol?_of_startsArgument (h.starts v hv)
    · simpa using he

/-- A tail that is no list. -/
theorem ReadsAlone.tail (h : ReadsAlone names t k ks)
    (hr : renderAt names .tail t = " | " ++ renderAt names .alone t) :
    ReadsTail names t (.symbolic "|" :: k :: ks) := by
  have hbar : (" | " : String) = " " ++ ("|" ++ " ") := by decide
  refine ⟨?_, ?_, fun _ => ends_bar _ _, fun _ _ => ends_bar _ _, ?_⟩
  · rw [hr, hbar, String.append_assoc, String.append_assoc]
    exact (h.spelled.space.behind "|" rfl (by decide) rfl).space
  · rw [hr]
    exact setsOff_of_head (c := ' ') (by simp; rfl) (by decide)
  · intro v hv w front first rest hf hl
    obtain ⟨u, strings, hu, he⟩ := h.reads v hv listElement (.rightBracket :: rest) (Nat.le_refl _)
      (ends_rightBracket _ _) fun _ => ends_rightBracket _ _
    refine ⟨u, strings, hu, reads_elements_tail hf ?_ ?_⟩
    · simp at hl ⊢
      omega
    · simpa using he

theorem same_cell {first rest first' rest' : Term} (hf : first.same first' = true)
    (hr : rest.same rest' = true) : (cell first rest).same (cell first' rest') = true := by
  simp [cell, node, Term.same, Term.sameList, hf, hr]

theorem readsTail_nil : ReadsTail names Term.nil [] := by
  have hr : renderAt names .tail Term.nil = "" := by rw [Term.nil, renderAt]; rfl
  refine ⟨?_, ?_, fun _ => ends_rightBracket _ _, fun _ _ => ends_rightBracket _ _, ?_⟩
  · rw [hr]
    exact SpelledAs.empty
  · rw [hr]
    exact fun _ h => h
  · intro v _ w front first rest hf _
    exact ⟨Term.nil, v.strings, rfl, reads_elements_last hf (by simp) (by simp)⟩

section

variable {first rest : Term} {rs : List TokenKind}
variable (hf : ReadsAlone names first k ks) (hr : ReadsTail names rest rs)

include hf hr

theorem ReadsAlone.spelled_tail :
    SpelledAs (renderAt names .alone first ++ renderAt names .tail rest) (k :: (ks ++ rs)) :=
  hf.spelled.append hr.spelled hr.setsOff

/-- The elements of a list from one of them on. -/
theorem ReadsAlone.elements (hl : IsLambda first → ¬ IsCell rest) (hv : Speaks names v)
    (more : List TokenKind) :
    Finds ReadsElements v (k :: (ks ++ (rs ++ .rightBracket :: more))) (cell first rest)
      (.rightBracket :: more) := by
  obtain ⟨u, strings, hu, he⟩ := hf.reads v hv listElement (rs ++ .rightBracket :: more)
    (Nat.le_refl _) (hr.ends more) fun h => hr.endsLowest (hl h) more
  obtain ⟨u', strings', hu', hs⟩ := hr.reads _ (hv.withStrings strings) v _ u more he
    (by simp only [List.length_cons, List.length_append]; omega)
  exact ⟨cell u u', strings', same_cell hu hu', hs⟩

theorem ReadsAlone.cell_argument (hl : IsLambda first → ¬ IsCell rest) :
    ReadsArgument names (cell first rest) .leftBracket (k :: (ks ++ rs ++ [.rightBracket])) := by
  refine ⟨?_, fun _ _ => rfl, fun v hv limit more _ => ?_⟩
  · rw [renderAt_cell]
    have hc : SpelledAs "]" [.rightBracket] := .ofWord _ (.single (by decide) rfl)
    have hs := (hf.spelled_tail hr).append hc (setsOff_of_head rfl (by decide))
    have hb := hs.behind "[" rfl (by decide) rfl
    simpa [Place.encloseList, String.append_assoc] using hb
  · obtain ⟨u, strings, hu, he⟩ := hf.elements hr hl hv more
    refine ⟨u, strings, hu, ?_⟩
    have hk : k ≠ .rightBracket := by
      rintro rfl
      exact Bool.noConfusion (hf.starts v hv)
    simpa using reads_atomic_list (by exact hk) he

theorem ReadsAlone.cell_tail (hl : IsLambda first → ¬ IsCell rest) :
    ReadsTail names (cell first rest) (.symbolic "," :: k :: (ks ++ rs)) := by
  have hcomma : (", " : String) = "," ++ " " := by decide
  refine ⟨?_, ?_, fun _ => ends_comma _, fun h => absurd ⟨first, rest, rfl⟩ h, ?_⟩
  · rw [renderAt_cell, Place.encloseList, hcomma, String.append_assoc, String.append_assoc]
    exact (hf.spelled_tail hr).space.behind "," rfl (by decide) rfl
  · rw [renderAt_cell]
    exact setsOff_of_head (c := ',') (by simp [Place.encloseList]; rfl) (by decide)
  · intro v hv w front first' more hs hlt
    obtain ⟨u, strings, hu, he⟩ := hf.elements hr hl hv more
    refine ⟨u, strings, hu, reads_elements_more ?_ ?_ he⟩
    · simpa using hs
    · simp at hlt ⊢
      omega

end

/-- How the texts of arguments are read. -/
structure ReadsArgs (names : SymbolTable) (args : List Term) (ks : List TokenKind) : Prop where
  spelled : SpelledAs (renderArgs names args) ks
  setsOff : SetsOff (renderArgs names args)
  binder : ∀ v, Speaks names v → ∀ rest : List TokenKind, rest.headD .endOfInput ≠ .backslash →
    (ks ++ rest).headD .endOfInput ≠ .backslash
  reads : ∀ v, Speaks names v → ∀ limit rest, Ends names limit rest →
    ∃ us strings, Term.sameList us args = true ∧
      ReadsArguments v (ks ++ rest) (.value us { v with strings } rest)

theorem readsArgs_nil : ReadsArgs names [] [] := by
  refine ⟨SpelledAs.empty, fun _ h => h, fun _ _ _ h => h, fun v hv limit rest he => ?_⟩
  exact ⟨[], v.strings, rfl, reads_arguments_nil (he.argument v hv)⟩

theorem ReadsArgument.args {args : List Term} {rs : List TokenKind}
    (h : ReadsArgument names t k ks) (ha : ReadsArgs names args rs) :
    ReadsArgs names (t :: args) (k :: (ks ++ rs)) := by
  refine ⟨?_, ?_, fun v hv rest _ => ?_, fun v hv limit rest he => ?_⟩
  · rw [renderArgs]
    exact h.spelled.space.append ha.spelled ha.setsOff
  · rw [renderArgs]
    exact setsOff_of_head (c := ' ') (by simp; rfl) (by decide)
  · rintro rfl
    exact Bool.noConfusion (h.starts v hv)
  · obtain ⟨u, strings, hu, hf⟩ := h.reads v hv Precedence.binder (rs ++ rest)
      (ha.binder v hv rest he.binder)
    obtain ⟨us, strings', hus, hs⟩ := ha.reads _ (hv.withStrings strings) limit rest he
    refine ⟨u :: us, strings', by simp [Term.sameList, hu, hus], ?_⟩
    have hc := reads_arguments_cons (h.starts v hv) hf (by simp only [List.length_append]; omega) hs
    simpa using hc

theorem readsArgs_of_forall {args : List Term}
    (h : ∀ t ∈ args, ReadsBack names t) : ∃ ks, ReadsArgs names args ks := by
  induction args with
  | nil => exact ⟨[], readsArgs_nil⟩
  | cons t args ih =>
    obtain ⟨k, ks, ht⟩ := (h t List.mem_cons_self).argument
    obtain ⟨rs, hs⟩ := ih fun t' ht' => h t' (List.mem_cons_of_mem _ ht')
    exact ⟨_, ht.args hs⟩

theorem eq_const_of_same {u : Term} {s : Symbol} (h : u.same (.const s) = true) :
    u = .const s := by
  cases u <;> simp_all [Term.same]

/-- An application is read from the texts of its head and its arguments. -/
theorem ReadsArgument.application {s : Symbol} {args : List Term} {rs : List TokenKind}
    (h : ReadsArgument names (.const s) k ks) (ha : ReadsArgs names args rs)
    (hc : s ≠ Symbol.cons) (hne : args ≠ []) :
    ReadsAlone names (.app (.const s) args) k (ks ++ rs) := by
  refine ⟨?_, h.starts, fun v hv limit rest hl he _ => ?_⟩
  · rw [renderAt_application names .alone hc]
    exact h.spelled.append ha.spelled ha.setsOff
  · obtain ⟨u, strings, hu, hf⟩ := h.reads v hv limit (rs ++ rest) (ha.binder v hv rest he.binder)
    obtain rfl := eq_const_of_same hu
    have hv' := hv.withStrings strings
    obtain ⟨us, strings', hus, hs⟩ := ha.reads _ hv' limit rest he
    have husne : us ≠ [] := by
      rintro rfl
      obtain ⟨a, args, rfl⟩ := List.exists_cons_of_ne_nil hne
      exact Bool.noConfusion hus
    refine ⟨.app (.const s) us, strings', by simp [Term.same, hus], ?_⟩
    rw [List.append_assoc]
    refine reads_expression (reads_operand_application ?_ ?_ hf ?_ hs husne fun span => ?_) ?_
      (he.climb _ (hv'.withStrings strings') _)
    · exact operatorBefore?_of_startsArgument (h.starts v hv) _
    · exact Nat.le_trans hl (by decide)
    · simp only [List.length_append]
      omega
    · obtain ⟨a, us, rfl⟩ := List.exists_cons_of_ne_nil husne
      rfl
    · simp only [List.length_cons, List.length_append]
      omega

end Parse

end Clausal
