import Clausal.Proofs.AccumulatedTexts
import Clausal.Proofs.FirstDefinitions
import Mathlib.Data.List.TakeWhile

/-!
# Fixity declarations

A fixity declaration defines its operators one after the other, as soon as its precedence is read, and its
point is read after that. Where it fails, the operators in front of the refused one stay defined, and all
of them if it is the point that is missing. Nothing else becomes of the vocabulary.
-/
namespace Clausal

/-- The precedence that an item gives. -/
def Item.precedence? : Item → Option Nat
  | .token ⟨.int digits, _⟩ => Parse.boundedNat? (Nat.pow 2 63 - 1) digits
  | _ => none

/-- The names in front of all other items, with their spans. -/
def Item.leadingNames : List Item → List (String × Span)
  | .token t :: rest =>
    match t.kind.name? with
    | some name => (name, t.span) :: leadingNames rest
    | none => []
  | _ => []

/-- The declarations of one fixity and precedence, with the spans of their names. -/
def OperatorDeclaration.series (f : Fixity) (p : Nat) (names : List (String × Span)) :
    List (OperatorDeclaration × Span) :=
  names.map fun name => (⟨name.1, f, p⟩, name.2)

namespace Scan

def leadingNames (x : Scan) : List (String × Span) := Item.leadingNames x.items

/-- The item behind the names. -/
def behindNames (x : Scan) : Item := x.get x.leadingNames.length

/-- The operators that a fixity declaration asks for, with their spans: none unless a precedence follows
the names. -/
def announced (f : Fixity) (x : Scan) : List (OperatorDeclaration × Span) :=
  match x.behindNames.precedence? with
  | some p => OperatorDeclaration.series f p x.leadingNames
  | none => []

variable {x : Scan} {t : Token} {name : String} {f : Fixity}

theorem leadingNames_of_items (h : x.items = .token t :: (x.drop 1).items)
    (hname : t.kind.name? = some name) :
    x.leadingNames = (name, t.span) :: (x.drop 1).leadingNames := by
  rw [leadingNames, leadingNames, h, Item.leadingNames, hname]

theorem leadingNames_of_not_name (h : ∀ t, x.get 0 = .token t → t.kind.name? = none) :
    x.leadingNames = [] := by
  obtain ⟨items, last⟩ := x
  cases items with
  | nil => rfl
  | cons i rest =>
    cases i with
    | fault e => rfl
    | token t =>
      rw [leadingNames, Item.leadingNames, h t rfl]

theorem behindNames_of_name (h : x.get 0 = .token t) (hname : t.kind.name? = some name) :
    (x.drop 1).behindNames = x.behindNames := by
  rcases items_of_token h with hitems | ⟨hdrop, -⟩
  · rw [behindNames, behindNames, leadingNames_of_items hitems hname, get_drop, List.length_cons,
      Nat.add_comm]
  · rw [hdrop]

theorem length_leadingNames_le (x : Scan) : x.leadingNames.length ≤ x.items.length := by
  rw [leadingNames]
  induction x.items with
  | nil => exact Nat.le_refl 0
  | cons i rest ih =>
    cases i with
    | fault e => exact Nat.zero_le _
    | token t =>
      rw [Item.leadingNames]
      cases t.kind.name? with
      | none => exact Nat.zero_le _
      | some name => exact Nat.succ_le_succ ih

theorem behindNames_of_not_name (h : ∀ t, x.get 0 = .token t → t.kind.name? = none) :
    x.behindNames = x.get 0 := by
  rw [behindNames, leadingNames_of_not_name h]
  rfl

end Scan

namespace OperatorDeclaration

variable {v w : Vocabulary} {d e : OperatorDeclaration} {fault : TermError}

/-- Why a declaration is refused, if it is. -/
def refusal? (v : Vocabulary) (d : OperatorDeclaration) : Option TermError :=
  match d.operator? with
  | none => some (.outOfRange d.name d.precedence)
  | some o =>
    (v.definition? d.name o.placement).bind fun old =>
      if old = o then none else some (.redefinition d.name old o)

/-- The declarations in front of the first that is refused. -/
def accepted (v : Vocabulary) (ds : List (OperatorDeclaration × Span)) : List OperatorDeclaration :=
  (ds.takeWhile fun d => (d.1.refusal? v).isNone).map (·.1)

/-- The refusal of the first declaration that is refused. -/
def firstRefusal? (v : Vocabulary) (ds : List (OperatorDeclaration × Span)) : Option ParseError :=
  ds.findSome? fun d => (d.1.refusal? v).map fun e => .grammar d.2 (.operator e)

theorem apply_of_refusal? (h : d.refusal? v = some fault) : d.apply v = (.error fault, v) := by
  unfold refusal? at h
  cases hd : d.operator? with
  | none =>
    rw [hd] at h
    obtain rfl := Option.some.inj h
    exact apply_of_none hd
  | some o =>
    rw [hd] at h
    obtain ⟨old, hold, hne⟩ := Option.bind_eq_some_iff.1 h
    split_ifs at hne with ho
    obtain rfl := Option.some.inj hne
    exact apply_of_other hd hold ho

theorem exists_apply_of_fits (hv : v.WellFormed) (h : d.refusal? v = none) :
    ∃ s, (d.apply v).1 = .ok s := by
  cases hrun : (d.apply v).1 with
  | ok s => exact ⟨s, rfl⟩
  | error fault =>
    unfold refusal? at h
    rcases (apply_eq_error_iff hv).1 ⟨fault, hrun⟩ with hd | ⟨o, old, hd, hold, hne⟩
    · simp [hd] at h
    · simp [hd, hold, hne] at h

theorem accepted_cons (d : OperatorDeclaration × Span) (ds : List (OperatorDeclaration × Span)) :
    accepted v (d :: ds) = if (d.1.refusal? v).isNone then d.1 :: accepted v ds else [] := by
  rw [accepted, List.takeWhile_cons, apply_ite (List.map Prod.fst)]
  rfl

theorem firstRefusal?_cons (d : OperatorDeclaration × Span) (ds : List (OperatorDeclaration × Span)) :
    firstRefusal? v (d :: ds) =
      ((d.1.refusal? v).map fun e => .grammar d.2 (.operator e)).or (firstRefusal? v ds) := by
  rw [firstRefusal?, List.findSome?_cons]
  cases d.1.refusal? v <;> rfl

theorem refusal?_of_mem_accepted {ds : List (OperatorDeclaration × Span)} (h : d ∈ accepted v ds) :
    d.refusal? v = none := by
  obtain ⟨e, he, rfl⟩ := List.mem_map.1 h
  have hfits := List.mem_takeWhile_imp he
  exact Option.isNone_iff_eq_none.1 hfits

theorem accepted_congr {ds : List (OperatorDeclaration × Span)}
    (h : ∀ d ∈ ds, d.1.refusal? w = d.1.refusal? v) : accepted w ds = accepted v ds := by
  induction ds with
  | nil => rfl
  | cons d rest ih =>
    obtain ⟨hd, hrest⟩ := List.forall_mem_cons.1 h
    rw [accepted_cons, accepted_cons, hd, ih hrest]

theorem firstRefusal?_congr {ds : List (OperatorDeclaration × Span)}
    (h : ∀ d ∈ ds, d.1.refusal? w = d.1.refusal? v) : firstRefusal? w ds = firstRefusal? v ds := by
  induction ds with
  | nil => rfl
  | cons d rest ih =>
    obtain ⟨hd, hrest⟩ := List.forall_mem_cons.1 h
    rw [firstRefusal?_cons, firstRefusal?_cons, hd, ih hrest]

/-- Declarations that differ in the name only are not in the way of each other. -/
theorem refusal?_apply (hv : v.WellFormed) (hf : e.fixity = d.fixity) (hp : e.precedence = d.precedence) :
    e.refusal? (d.apply v).2 = e.refusal? v := by
  have hsame : e.operator? = d.operator? := by rw [operator?, operator?, hf, hp]
  unfold refusal?
  rw [hsame]
  cases hd : d.operator? with
  | none => rfl
  | some o =>
    dsimp only
    rw [definition?_apply hv]
    cases hold : v.definition? e.name o.placement with
    | some old => rfl
    | none =>
      unfold for?
      split_ifs with hname
      · simp [hd, Option.filter_some]
      · rfl

/-- A declaration that fits and is no definition yet would be one afterwards. -/
theorem exists_of_refusal? (h : d.refusal? v = none) : ∃ o, d.operator? = some o ∧
    ∀ old, v.definition? d.name o.placement = some old → old = o := by
  unfold refusal? at h
  cases hd : d.operator? with
  | none => simp [hd] at h
  | some o =>
    rw [hd] at h
    refine ⟨o, rfl, fun old hold => ?_⟩
    by_contra hne
    simp [hold, hne] at h

end OperatorDeclaration

namespace Vocabulary

open OperatorDeclaration

variable {v w : Vocabulary} {ds : List OperatorDeclaration}

theorem Reachable.extends_declareAll (hv : v.Reachable) (ds : List OperatorDeclaration) :
    v.Extends (v.declareAll ds) := by
  induction ds generalizing v with
  | nil => exact .refl v
  | cons d rest ih =>
    have hnext : (d.apply v).2.Reachable := hv.defineOperator d.name d.fixity d.precedence
    exact ((Addition.operator d.name d.fixity d.precedence).extends_apply v).trans (ih hnext)

/-- With the same operators and more names there are no further definitions. -/
theorem WellFormed.definition?_of_operators_eq (hv : v.WellFormed) (hext : v.Extends w)
    (ho : w.operators = v.operators) {name : String} {p : Placement} {o : Operator}
    (h : w.definition? name p = some o) : v.definition? name p = some o := by
  obtain ⟨s, hs, hlookup⟩ := Option.bind_eq_some_iff.1 h
  rw [ho, hv.lookup_eq] at hlookup
  obtain ⟨old, hold, hdefinition⟩ := Option.bind_eq_some_iff.1 hlookup
  have hnamed : w.symbols.name? s = some (Symbol.canonical name) := SymbolTable.name?_of_lookup hs
  obtain rfl : old = Symbol.canonical name := Option.some.inj ((hext s old hold).symm.trans hnamed)
  have hcanonical : v.lookup (Symbol.canonical name) = v.lookup name := v.symbols.lookup_canonical name
  rwa [definition?, hcanonical] at hdefinition

/-- Declarations that fit leave the operators as they are if and only if they are all there already. -/
theorem Reachable.operators_declareAll_eq_iff (hv : v.Reachable)
    (hds : ∀ d ∈ ds, d.refusal? v = none) : (v.declareAll ds).operators = v.operators ↔
      ∀ d ∈ ds, ∃ o, d.operator? = some o ∧ v.definition? d.name o.placement = some o := by
  constructor
  · intro ho d hd
    obtain ⟨o, hop, hsame⟩ := exists_of_refusal? (hds d hd)
    refine ⟨o, hop, ?_⟩
    have hfirst : (first? ds d.name o.placement).isSome :=
      List.findSome?_isSome_iff.2 ⟨d, hd, by simp [for?, hop]⟩
    have hafter : ((v.declareAll ds).definition? d.name o.placement).isSome := by
      rw [hv.definition?_declareAll, firstOf, Option.isSome_or, hfirst, Bool.or_true]
    obtain ⟨old, hold⟩ := Option.isSome_iff_exists.1 hafter
    have hbefore := hv.wellFormed.definition?_of_operators_eq (hv.extends_declareAll ds) ho hold
    rwa [hsame old hbefore] at hbefore
  · intro h
    have hsame : v.declareAll ds = v := by
      clear hds
      induction ds with
      | nil => rfl
      | cons d rest ih =>
        obtain ⟨⟨o, hop, hold⟩, hrest⟩ := List.forall_mem_cons.1 h
        obtain ⟨s, hs⟩ := apply_of_same hop hold
        have hstep : v.declareAll (d :: rest) = (d.apply v).2.declareAll rest := rfl
        rw [hstep, hs]
        exact ih hrest
    rw [hsame]

end Vocabulary

namespace Parse

open OperatorDeclaration

/-- One round of reading the names of a fixity declaration, or its precedence. -/
def operatorRound (f : Fixity) (names : List (String × Span)) :
    Parse (Round (List (String × Span)) Unit) :=
  next >>= fun t =>
    match t.kind with
    | .int digits =>
      match boundedNat? (Nat.pow 2 63 - 1) digits with
      | none => fail (.integer t.span)
      | some precedence =>
        if names.isEmpty then failAt t.span (.noOperators f)
        else defineAll f precedence names >>= fun _ => pure (.done ())
    | .ident name | .symbolic name => pure (.again (names ++ [(name, t.span)]))
    | _ => failExpected .operatorOrPrecedence t

theorem operators_eq_rounds (f : Fixity) (s : ParseState) :
    operators f s = rounds (operatorRound f) (s.ahead.items.length + 1) [] s := rfl

section

variable {s : ParseState} {t : Token} {f : Fixity} {names : List (String × Span)}

/-- A reader has failed and has changed no name and no operator. -/
def Declines {α : Type} (p : Parse α) (s : ParseState) : Prop :=
  ∃ e s', p s = (.error e, s') ∧ s'.vocabulary = s.vocabulary

theorem declines_next {e : ScanError} (h : s.ahead.get 0 = .fault e) : Declines next s := by
  obtain ⟨vocabulary, seen, ⟨items, last⟩, span⟩ := s
  cases items with
  | nil =>
    obtain rfl : last = .fault e := h
    exact ⟨_, _, rfl, rfl⟩
  | cons i rest =>
    obtain rfl : i = .fault e := h
    exact ⟨_, _, rfl, rfl⟩

theorem Declines.bind {α β : Type} {p : Parse α} (h : Declines p s) (q : α → Parse β) :
    Declines (p >>= q) s := by
  obtain ⟨e, s', hp, hv⟩ := h
  exact ⟨e, s', Pairing.bind_of_error hp, hv⟩

theorem operatorRound_of_name {name : String} (h : s.ahead.get 0 = .token t)
    (hname : t.kind.name? = some name) :
    operatorRound f names s = (.ok (.again (names ++ [(name, t.span)])), s.read t) := by
  rw [operatorRound, Pairing.bind_of_ok (next_of_token h)]
  obtain ⟨kind, span⟩ := t
  cases kind <;> cases hname <;> rfl

/-- What is neither a name nor a precedence is refused. -/
theorem declines_operatorRound (hname : ∀ t, s.ahead.get 0 = .token t → t.kind.name? = none)
    (hprecedence : (s.ahead.get 0).precedence? = none) : Declines (operatorRound f names) s := by
  cases hget : s.ahead.get 0 with
  | fault e => exact (declines_next hget).bind _
  | token t =>
    rw [hget] at hprecedence
    have hnone := hname t hget
    obtain ⟨kind, span⟩ := t
    have hnext := next_of_token hget
    cases kind
    case int digits =>
      have hbounded : boundedNat? (Nat.pow 2 63 - 1) digits = none := hprecedence
      refine ⟨.integer span, s.read ⟨.int digits, span⟩, ?_, rfl⟩
      rw [operatorRound, Pairing.bind_of_ok hnext]
      dsimp only
      rw [hbounded]
      rfl
    case ident | symbolic => cases hnone
    all_goals exact ⟨_, _, Pairing.bind_of_ok hnext, rfl⟩

theorem declines_rounds (n : Nat) (h : s.ahead.behindNames.precedence? = none) :
    Declines (rounds (operatorRound f) n names) s := by
  induction n generalizing s names with
  | zero => exact ⟨_, s, rfl, rfl⟩
  | succ n ih =>
    by_cases hname : ∀ t, s.ahead.get 0 = .token t → t.kind.name? = none
    · rw [Scan.behindNames_of_not_name hname] at h
      exact (declines_operatorRound hname h).bind _
    · push Not at hname
      obtain ⟨t, hget, hname⟩ := hname
      obtain ⟨name, hname⟩ := Option.ne_none_iff_exists'.1 hname
      have hnext : (s.read t).ahead.behindNames.precedence? = none := by
        rw [ParseState.read, Scan.behindNames_of_name hget hname, h]
      obtain ⟨e, s', hrun, hv⟩ := @ih _ (names ++ [(name, t.span)]) hnext
      exact ⟨e, s', (Pairing.bind_of_ok (operatorRound_of_name hget hname)).trans hrun, hv⟩

theorem exists_int_of_precedence? {i : Item} {p : Nat} (h : i.precedence? = some p) :
    ∃ digits span, i = .token ⟨.int digits, span⟩ ∧ boundedNat? (Nat.pow 2 63 - 1) digits = some p := by
  unfold Item.precedence? at h
  split at h
  · exact ⟨_, _, rfl, h⟩
  · cases h

/-- A precedence ends the names, which are then defined. -/
theorem rounds_here {n : Nat} {digits : String} {span : Span} {p : Nat}
    (hget : s.ahead.get 0 = .token ⟨.int digits, span⟩)
    (hbounded : boundedNat? (Nat.pow 2 63 - 1) digits = some p) (hne : names ≠ []) :
    rounds (operatorRound f) (n + 1) names s = defineAll f p names (s.read ⟨.int digits, span⟩) := by
  have hround : operatorRound f names s =
      (defineAll f p names >>= fun _ => pure (.done ())) (s.read ⟨.int digits, span⟩) := by
    rw [operatorRound, Pairing.bind_of_ok (next_of_token hget)]
    dsimp only
    rw [hbounded]
    dsimp only
    rw [if_neg (by simpa using hne)]
    rfl
  rcases hdefine : defineAll f p names (s.read ⟨.int digits, span⟩) with ⟨e | u, s'⟩
  · rw [Pairing.bind_of_error hdefine] at hround
    exact Pairing.bind_of_error hround
  · rw [Pairing.bind_of_ok hdefine] at hround
    exact Pairing.bind_of_ok hround

/-- With a precedence behind them the names are defined, in a state that has read it. -/
theorem rounds_of_precedence {n p : Nat} (h : s.ahead.behindNames.precedence? = some p)
    (hn : s.ahead.leadingNames.length < n) (hne : names ++ s.ahead.leadingNames ≠ []) :
    ∃ last, rounds (operatorRound f) n names s = defineAll f p (names ++ s.ahead.leadingNames)
      { s with ahead := s.ahead.drop (s.ahead.leadingNames.length + 1), last } := by
  induction n generalizing s names with
  | zero => exact absurd hn (Nat.not_lt_zero _)
  | succ n ih =>
    by_cases hname : ∀ t, s.ahead.get 0 = .token t → t.kind.name? = none
    · rw [Scan.behindNames_of_not_name hname] at h
      rw [Scan.leadingNames_of_not_name hname, List.append_nil] at hne ⊢
      obtain ⟨digits, span, hget, hbounded⟩ := exists_int_of_precedence? h
      exact ⟨span, rounds_here hget hbounded hne⟩
    · push Not at hname
      obtain ⟨t, hget, hname⟩ := hname
      obtain ⟨name, hname⟩ := Option.ne_none_iff_exists'.1 hname
      have hbehind := Scan.behindNames_of_name hget hname
      rcases Scan.items_of_token hget with hitems | ⟨hdrop, hitems⟩
      · have hleading := Scan.leadingNames_of_items hitems hname
        have hround : operatorRound f names s = (.ok (.again (names ++ [(name, t.span)])), s.read t) :=
          operatorRound_of_name hget hname
        rw [hleading, List.length_cons] at hn ⊢
        rw [hleading] at hne
        rw [List.append_cons] at hne ⊢
        obtain ⟨last, hrest⟩ := @ih (s.read t) (names ++ [(name, t.span)])
          (by rw [ParseState.read, hbehind, h]) (Nat.lt_of_succ_lt_succ hn) hne
        refine ⟨last, (Pairing.bind_of_ok hround).trans (hrest.trans ?_)⟩
        simp only [ParseState.read, Scan.drop_drop, Nat.add_comm]
      · -- The last item is a name, so that no precedence follows.
        have hleading : s.ahead.leadingNames = [] := by rw [Scan.leadingNames, hitems]; rfl
        rw [Scan.behindNames, hleading, List.length_nil, hget] at h
        obtain ⟨digits, span, htoken, -⟩ := exists_int_of_precedence? h
        obtain rfl := Item.token.inj htoken
        cases hname

/-- Names are defined one after the other, up to the first that is refused. -/
theorem defineAll_eq (hv : s.vocabulary.Reachable) (p : Nat) (names : List (String × Span)) :
    defineAll f p names s =
      ((firstRefusal? s.vocabulary (series f p names)).elim (.ok ()) .error,
        { s with vocabulary := s.vocabulary.declareAll (accepted s.vocabulary (series f p names)) }) := by
  induction names generalizing s with
  | nil => rfl
  | cons name rest ih =>
    obtain ⟨name, span⟩ := name
    let d : OperatorDeclaration := ⟨name, f, p⟩
    obtain ⟨next, hrun, hok, herror⟩ : ∃ next,
        defineAll f p ((name, span) :: rest) = (change d.apply >>= next) ∧
          (∀ u, next (.ok u) = defineAll f p rest) ∧
          ∀ e, next (.error e) = failAt span (.operator e) :=
      ⟨_, rfl, fun _ => rfl, fun _ => rfl⟩
    have hchange : change d.apply s =
        (.ok (d.apply s.vocabulary).1, { s with vocabulary := (d.apply s.vocabulary).2 }) := rfl
    have hseries : series f p ((name, span) :: rest) = (d, span) :: series f p rest := rfl
    rw [hrun, Pairing.bind_of_ok hchange, hseries, accepted_cons, firstRefusal?_cons]
    dsimp only
    cases hd : d.refusal? s.vocabulary with
    | some fault =>
      rw [apply_of_refusal? hd]
      dsimp only
      rw [herror]
      rfl
    | none =>
      obtain ⟨u, hu⟩ := exists_apply_of_fits hv.wellFormed hd
      have hnext : ((d.apply s.vocabulary).2).Reachable := hv.defineOperator name f p
      have hothers : ∀ e ∈ series f p rest,
          e.1.refusal? (d.apply s.vocabulary).2 = e.1.refusal? s.vocabulary := by
        intro e he
        obtain ⟨_, -, rfl⟩ := List.mem_map.1 he
        exact refusal?_apply hv.wellFormed rfl rfl
      rw [hu, hok, ← accepted_congr hothers, ← firstRefusal?_congr hothers]
      exact ih (s := { s with vocabulary := (d.apply s.vocabulary).2 }) hnext

/-- Without names and a precedence nothing is defined. -/
theorem declines_operators (h : s.ahead.announced f = []) : Declines (operators f) s := by
  rw [Declines, operators_eq_rounds]
  unfold Scan.announced at h
  cases hp : s.ahead.behindNames.precedence? with
  | none => exact declines_rounds _ hp
  | some p =>
    rw [hp] at h
    have hnames : s.ahead.leadingNames = [] := List.map_eq_nil_iff.1 h
    rw [Scan.behindNames, hnames] at hp
    obtain ⟨digits, span, hget, hbounded⟩ := exists_int_of_precedence? hp
    have hround : operatorRound f [] s = (.error (.grammar span (.noOperators f)),
        s.read ⟨.int digits, span⟩) := by
      rw [operatorRound, Pairing.bind_of_ok (next_of_token hget)]
      dsimp only
      rw [hbounded]
      rfl
    exact ⟨_, _, Pairing.bind_of_error hround, rfl⟩

/-- What has been announced is defined up to the first that is refused. -/
theorem operators_eq (hv : s.vocabulary.Reachable) (h : s.ahead.announced f ≠ []) :
    ∃ last, operators f s =
      ((firstRefusal? s.vocabulary (s.ahead.announced f)).elim (.ok ()) .error,
        { s with
          vocabulary := s.vocabulary.declareAll (accepted s.vocabulary (s.ahead.announced f))
          ahead := s.ahead.drop (s.ahead.leadingNames.length + 1)
          last }) := by
  unfold Scan.announced at h ⊢
  cases hp : s.ahead.behindNames.precedence? with
  | none => simp [hp] at h
  | some p =>
    rw [hp] at h
    have hnames : s.ahead.leadingNames ≠ [] := fun hnil => h (by simp [hnil, series])
    have hlength : s.ahead.leadingNames.length < s.ahead.items.length + 1 :=
      Nat.lt_succ_of_le (Scan.length_leadingNames_le _)
    obtain ⟨last, hrounds⟩ := @rounds_of_precedence s f [] _ p hp hlength hnames
    refine ⟨last, ?_⟩
    rw [operators_eq_rounds, hrounds]
    exact defineAll_eq (s := { s with ahead := _, last }) hv p _

end

/-- What is left of a vocabulary `v` when a fixity declaration has failed with `e`, of which `x` stands behind
its keyword. -/
structure LeavesOf (f : Fixity) (x : Scan) (v : Vocabulary) (e : ParseError) (w : Vocabulary) : Prop where
  vocabulary : w = v.declareAll (accepted v (x.announced f))
  definition : ∀ name p, w.definition? name p = v.firstOf (accepted v (x.announced f)) name p
  unchanged_iff : w.operators = v.operators ↔ ∀ d ∈ accepted v (x.announced f),
    ∃ o, d.operator? = some o ∧ v.definition? d.name o.placement = some o
  refused : ∀ refusal, firstRefusal? v (x.announced f) = some refusal → e = refusal
  unended : firstRefusal? v (x.announced f) = none →
    x.announced f = [] ∨ (x.get (x.leadingNames.length + 1)).kind? ≠ some .stop

theorem keyword_of_fixity (f : Fixity) : Keyword.of? (.ident f.keyword) = some (.fixity f) := by
  cases f <;> decide

/-- What stands behind the operators. -/
def point (start : Span) : Parse (List Decl) :=
  expect .stop >>= fun _ => spanFrom start >>= fun span => pure [.ignored span]

theorem declaration_fixity {incl : Include} {s : ParseState} {t : Token} {f : Fixity}
    (hget : s.ahead.get 0 = .token t) (ht : t.kind = .ident f.keyword) :
    declaration incl s = (operators f >>= fun _ => point t.span) (s.read t) := by
  have hkeyword : Keyword.of? t.kind = some (.fixity f) := by rw [ht, keyword_of_fixity]
  exact declaration_keyword incl hget hkeyword

theorem point_fails {start : Span} {s s' : ParseState} {e : ParseError}
    (h : point start s = (.error e, s')) :
    s'.vocabulary = s.vocabulary ∧ (s.ahead.get 0).kind? ≠ some .stop := by
  cases hget : s.ahead.get 0 with
  | fault fault =>
    have hexpect : Declines (expect .stop) s := (declines_next hget).bind _
    obtain ⟨e', s₁, hrun, hv⟩ := hexpect
    rw [point, Pairing.bind_of_error hrun] at h
    obtain ⟨-, rfl⟩ := Prod.mk.inj h
    exact ⟨hv, fun hk => (by cases hk)⟩
  | token t =>
    by_cases hk : t.kind = .stop
    · rw [point, Pairing.bind_of_ok (expect_of_token hget hk)] at h
      cases h
    · have hexpect : expect .stop s = (.error (.grammar t.span (.expected (.kind .stop) t.kind)), s.read t) := by
        rw [expect, Pairing.bind_of_ok (next_of_token hget), if_neg hk]
        rfl
      rw [point, Pairing.bind_of_error hexpect] at h
      obtain ⟨-, rfl⟩ := Prod.mk.inj h
      exact ⟨rfl, fun hstop => hk (Option.some.inj hstop)⟩

/-- What the vocabulary says follows from what has been declared. -/
theorem LeavesOf.of_declared {f : Fixity} {x : Scan} {v w : Vocabulary} {e : ParseError}
    (hv : v.Reachable) (hw : w = v.declareAll (accepted v (x.announced f)))
    (hrefused : ∀ refusal, firstRefusal? v (x.announced f) = some refusal → e = refusal)
    (hunended : firstRefusal? v (x.announced f) = none →
      x.announced f = [] ∨ (x.get (x.leadingNames.length + 1)).kind? ≠ some .stop) :
    LeavesOf f x v e w where
  vocabulary := hw
  definition name p := by
    rw [hw]
    exact hv.definition?_declareAll _ name p
  unchanged_iff := by
    rw [hw]
    exact hv.operators_declareAll_eq_iff fun d => refusal?_of_mem_accepted
  refused := hrefused
  unended := hunended

theorem operators_point_fails {s s' : ParseState} {f : Fixity} {start : Span} {e : ParseError}
    (hv : s.vocabulary.Reachable) (h : (operators f >>= fun _ => point start) s = (.error e, s')) :
    LeavesOf f s.ahead s.vocabulary e s'.vocabulary := by
  by_cases hannounced : s.ahead.announced f = []
  · obtain ⟨e', s₁, hrun, hsame⟩ := declines_operators hannounced
    rw [Pairing.bind_of_error hrun] at h
    obtain ⟨-, rfl⟩ := Prod.mk.inj h
    refine .of_declared hv ?_ ?_ fun _ => .inl hannounced
    · rw [hannounced]
      exact hsame
    · rw [hannounced]
      exact fun _ hr => (by cases hr)
  · obtain ⟨last, hrun⟩ := operators_eq hv hannounced
    cases hr : firstRefusal? s.vocabulary (s.ahead.announced f) with
    | some refusal =>
      rw [hr] at hrun
      rw [Pairing.bind_of_error hrun] at h
      obtain ⟨he, rfl⟩ := Prod.mk.inj h
      refine .of_declared hv rfl (fun _ hsame => ?_) fun hnone => absurd (hr.symm.trans hnone) (by simp)
      rw [hr] at hsame
      rw [← Option.some.inj hsame]
      exact (Except.error.inj he).symm
    | none =>
      rw [hr] at hrun
      rw [Pairing.bind_of_ok hrun] at h
      obtain ⟨hsame, hstop⟩ := point_fails h
      rw [Scan.get_drop] at hstop
      exact .of_declared hv hsame (fun _ hsome => absurd (hr.symm.trans hsome) (by simp)) fun _ => .inr hstop

/-- A fixity declaration that fails leaves the operators that it has announced in front of the first refused one
in the vocabulary, or all of them if none is refused, and nothing else. -/
theorem declaration_fixity_fails {incl : Include} {s s' : ParseState} {t : Token} {f : Fixity}
    {e : ParseError} (hv : s.vocabulary.Reachable) (hget : s.ahead.get 0 = .token t)
    (ht : t.kind = .ident f.keyword) (h : declaration incl s = (.error e, s')) :
    LeavesOf f (s.ahead.drop 1) s.vocabulary e s'.vocabulary := by
  rw [declaration_fixity hget ht] at h
  exact operators_point_fails (s := s.read t) hv h

/-- In front of a declaration of two operators, of which the second is another one already. -/
def halfClashing : ParseState :=
  .initial (Vocabulary.initial.defineOperator "b" .infixRight 160).2 [] "t.lp" "infixl a b 160."

theorem declaration_halfClashing_fails : ∃ e,
    (declaration (includeUnit .disabled (program .disabled)) halfClashing).1 = .error e ∧
      LeavesOf .infixLeft (halfClashing.ahead.drop 1) halfClashing.vocabulary e
        (declaration (includeUnit .disabled (program .disabled)) halfClashing).2.vocabulary := by
  have hfails : (declaration (includeUnit .disabled (program .disabled)) halfClashing).1.isOk = false := by
    decide +kernel
  have hkind : (halfClashing.ahead.get 0).kind? = some (.ident Fixity.infixLeft.keyword) := by
    decide +kernel
  obtain ⟨t, hget, ht⟩ := exists_token_of_kind? hkind
  have hreachable : halfClashing.vocabulary.Reachable :=
    Vocabulary.Reachable.initial.defineOperator "b" .infixRight 160
  rcases hrun : declaration (includeUnit .disabled (program .disabled)) halfClashing with ⟨e | ds, s'⟩
  · exact ⟨e, rfl, declaration_fixity_fails hreachable hget ht hrun⟩
  · rw [hrun] at hfails
    cases hfails

/-- The operator in front of the refused one is declared. -/
theorem declaration_halfClashing_declares :
    (halfClashing.ahead.get 0).kind? = some (.ident Fixity.infixLeft.keyword) ∧
      (declaration (includeUnit .disabled (program .disabled)) halfClashing).1.isOk = false ∧
      (declaration (includeUnit .disabled (program .disabled)) halfClashing).2.vocabulary.operators ≠
        halfClashing.vocabulary.operators := by
  decide +kernel

end Parse

end Clausal
