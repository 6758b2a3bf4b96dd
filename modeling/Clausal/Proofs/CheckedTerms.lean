import Clausal.Proofs.QuotationSlices
import Clausal.Proofs.ShownTerms
import Clausal.Proofs.TermOutcomes

/-!
# Readers that check what they rely on

The readers of terms rely on facts that no check of theirs establishes: an operator after an operand is no
prefix operator, an application has a head, a list has an element, a quotation can be cut where its
braces are, and the symbols of a term have names. The readers here check these facts, and go on with an
arbitrary step `halt` if one does not hold. With a vocabulary of a session they do the same as the readers that
do not check, whatever `halt` is: it is never run.
-/
namespace Clausal.Parse

open Precedence

namespace Checked

section

-- The step that is run when a check fails.
variable (halt : (α : Type) → Parse α)

/-- Shows a term, for which all its symbols need names. -/
def shows (t : Term) : Parse Unit := do
  match (← vocabulary).render? t with
  | some _ => pure ()
  | none => halt Unit

/-- The first of some terms. -/
def only : List Term → Parse Term
  | [] => halt Term
  | t :: _ => pure t

/-- Applies the first term to the others. The error shows the head. -/
def application (span : Span) : List Term → Parse Term
  | [] => halt Term
  | head :: args => do
    match (← vocabulary).apply span (head :: args) with
    | .ok t => pure t
    | .error e => do
      shows halt head
      fail (.term e)

def sequence (terms : List Term) : Parse Term :=
  match Vocabulary.sequence terms with
  | .ok t => pure t
  | .error _ => halt Term

def quotation (span : Span) (raw : String) : Parse Term :=
  match Quotation.cut? span raw with
  | some (.ok q) => pure (.quoted q)
  | some (.error fault) => fail (.term (.malformed span fault))
  | none => halt Term

mutual

def expression : Nat → (limit : Nat) → (strict : Bool) → (earlier : Option (Nat × Grouping)) →
    Parse Term
  | 0, _, _, _ => fail (.anomaly .exhausted)
  | n + 1, limit, strict, earlier => do
    let first ← operand n limit
    climb n limit strict earlier first
termination_by structural n => n

/-- Goes on with the operators after an operand. What they make of it is shown. -/
def climb : Nat → (limit : Nat) → (strict : Bool) → (earlier : Option (Nat × Grouping)) →
    Term → Parse Term
  | 0, _, _, _, _ => fail (.anomaly .exhausted)
  | n + 1, limit, strict, earlier, first => do
    let t ← peek
    match ← operatorAfter? t.kind with
    | none => pure first
    | some (s, o) =>
      if o.precedence < limit ∨ o.precedence = limit ∧ strict then pure first
      else
        checkChain t o earlier
        let _ ← next
        let taken := some (o.precedence, o.grouping)
        match o.fixity with
        | .postfixOp =>
          shows halt (Term.node s [first])
          climb n limit strict taken (Term.node s [first])
        | .infixRight =>
          let second ← expression n o.precedence false taken
          shows halt (Term.node s [first, second])
          climb n limit strict taken (Term.node s [first, second])
        | .infixLeft | .infixOnly =>
          let second ← expression n o.precedence true taken
          shows halt (Term.node s [first, second])
          climb n limit strict taken (Term.node s [first, second])
        | .prefixOp => halt Term
termination_by structural n => n

def operand : Nat → (limit : Nat) → Parse Term
  | 0, _ => fail (.anomaly .exhausted)
  | n + 1, limit => do
    let t ← peek
    match ← prefixAt? t.kind with
    | some (s, o) =>
      if o.precedence < limit then failAt t.span (.looseOperator t.kind o.precedence limit)
      else
        let _ ← next
        let inner ← expression n o.precedence false (some (o.precedence, .right))
        pure (Term.node s [inner])
    | none =>
      let head ← atomic n limit
      if Precedence.application < limit then pure head
      else
        let terms := head :: (← arguments n)
        if terms.length = 1 then only halt terms
        else
          let span ← spanFrom t.span
          application halt span terms
termination_by structural n => n

def arguments : Nat → Parse (List Term)
  | 0 => fail (.anomaly .exhausted)
  | n + 1 => do
    let t ← peek
    if startsArgument (← vocabulary) t.kind then
      let first ← atomic n binder
      let others ← arguments n
      pure (first :: others)
    else pure []
termination_by structural n => n

def atomic : Nat → (limit : Nat) → Parse Term
  | 0, _ => fail (.anomaly .exhausted)
  | n + 1, limit => do
    let t ← next
    match t.kind with
    | .ident name =>
      if ← bindsAt limit then
        let _ ← next
        let body ← expression n lowest false none
        change (·.lambda name body)
      else if (operatorSymbol? (← vocabulary) t.kind).isSome then
        failAt t.span (.unexpectedOperator t.kind)
      else variableOrConstant name
    | .symbolic name =>
      if name = "|" ∨ (operatorSymbol? (← vocabulary) t.kind).isSome then
        failAt t.span (.unexpected t.kind)
      else change (·.constant name)
    | .macroName name => change (·.constant name)
    | .int digits => integer t.span digits
    | .float text => pure (float text)
    | .string text => stringLiteral text
    | .quotation raw => quotation halt t.span raw
    | .leftParen =>
      match ← loneOperator? with
      | some s => pure (.const s)
      | none =>
        let inner ← expression n lowest false none
        let _ ← expect .rightParen
        pure inner
    | .leftBracket =>
      if (← peek).kind = .rightBracket then
        let _ ← next
        pure Term.nil
      else
        let terms ← elements n
        let _ ← expect .rightBracket
        sequence halt terms
    | .leftBrace =>
      let inner ← expression n lowest false none
      let _ ← expect .rightBrace
      pure (Term.node Symbol.spill [inner])
    | other => failAt t.span (.unexpected other)
termination_by structural n => n

/-- The elements of a list, and its tail as the last one. -/
def elements : Nat → Parse (List Term)
  | 0 => fail (.anomaly .exhausted)
  | n + 1 => do
    let first ← expression n listElement false none
    if ← eatSymbol "," then
      let rest ← elements n
      pure (first :: rest)
    else if ← eatSymbol "|" then
      let tail ← expression n listElement false none
      pure [first, tail]
    else pure [first, Term.nil]
termination_by structural n => n

end

def expressionAt (limit : Nat) (strict : Bool) : Parse Term := fun s =>
  expression halt (4 * s.ahead.items.length + 4) limit strict none s

def term : Parse Term := expressionAt halt lowest false

def closedTerm : Parse Term := expressionAt halt Precedence.atomic true

end

end Checked

/-- A state that a reading can be in. -/
structure Settled (s : ParseState) : Prop where
  ends : s.ahead.Ends
  reachable : s.vocabulary.Reachable

theorem settled_initial {v : Vocabulary} (hv : v.Reachable) (seen : List Digest)
    (source text : String) : Settled (.initial v seen source text) :=
  ⟨Scan.ends_ofText source text, hv⟩

variable {v : Vocabulary} {s : ParseState} {α β : Type}

theorem Settled.before {s' : ParseState} (h : Settled s) (h' : s.Before s') : Settled s' :=
  ⟨h'.ends, h'.reachable h.reachable⟩

/-- What holds of the results of two steps, failures alike, holds behind steps that do the same. -/
theorem Settled.bind_of {γ : Type} (loader : Loader) {p p' : Parse α} {f' : α → Parse β}
    {f : α → Parse γ} {Q : α → ParseState → Prop}
    {R : Except ParseError β × ParseState → Except ParseError γ × ParseState → Prop}
    (herror : ∀ e s, R (.error e, s) (.error e, s)) (hs : Settled s) (hp : p' s = p s)
    (hQ : Delivers loader Q p s)
    (hf : ∀ a s', Settled s' → s.Before s' → Q a s' → R (f' a s') (f a s')) :
    R ((p' >>= f') s) ((p >>= f) s) := by
  have hout := hQ hs.ends
  rcases hrun : p s with ⟨e | a, s'⟩ <;> rw [hrun] at hp hout
  · rw [Pairing.bind_of_error hrun, Pairing.bind_of_error hp]
    exact herror e s'
  · cases hout with
    | ok hbefore ha =>
      rw [Pairing.bind_of_ok hrun, Pairing.bind_of_ok hp]
      exact hf a s' (hs.before hbefore) hbefore ha

/-- Steps that do the same, one behind the other, where a loader reports errors. -/
theorem Settled.bind_with (loader : Loader) {p p' : Parse α} {f f' : α → Parse β}
    {Q : α → ParseState → Prop} (hs : Settled s) (hp : p' s = p s) (hQ : Delivers loader Q p s)
    (hf : ∀ a s', Settled s' → s.Before s' → Q a s' → f' a s' = f a s') :
    (p' >>= f') s = (p >>= f) s :=
  bind_of loader (R := Eq) (fun _ _ => rfl) hs hp hQ hf

theorem Settled.bind {p p' : Parse α} {f f' : α → Parse β} {Q : α → ParseState → Prop}
    (hs : Settled s) (hp : p' s = p s) (hQ : Delivers .disabled Q p s)
    (hf : ∀ a s', Settled s' → s.Before s' → Q a s' → f' a s' = f a s') :
    (p' >>= f') s = (p >>= f) s :=
  bind_with .disabled hs hp hQ hf

/-- A step that leaves the state as it is, in front of steps that do the same. -/
theorem Settled.look {p : Parse α} {f f' : α → Parse β} {Q : α → Prop} (hs : Settled s)
    (hQ : Looks .disabled Q p s) (hf : ∀ a, Q a → f' a s = f a s) : (p >>= f') s = (p >>= f) s := by
  refine hs.bind rfl hQ ?_
  rintro a s' - - ⟨rfl, ha⟩
  exact hf a ha

theorem Delivers.and {loader : Loader} {p : Parse α} {Q R : α → ParseState → Prop}
    (hQ : Delivers loader Q p s) (hR : Delivers loader R p s) :
    Delivers loader (fun a s' => Q a s' ∧ R a s') p s := by
  intro hs
  have hout := hQ hs
  have hout' := hR hs
  rcases hrun : p s with ⟨e | a, s'⟩ <;> rw [hrun] at hout hout'
  · cases hout with
    | error hnames hv he => exact .error hnames hv he
  · cases hout with
    | ok hbefore ha =>
      cases hout' with
      | ok _ ha' => exact .ok hbefore ⟨ha, ha'⟩

theorem placement_of_operatorAt? {p : Placement} {k : TokenKind} {u : Symbol} {o : Operator}
    (h : operatorAt? v p k = some (u, o)) : o.placement = p := by
  unfold operatorAt? at h
  cases hs : operatorSymbol? v k with
  | none => rw [hs] at h; cases h
  | some w =>
    rw [hs] at h
    obtain ⟨o', ho, heq⟩ := Option.map_eq_some_iff.1 h
    obtain ⟨-, rfl⟩ := Prod.mk.inj heq
    exact OperatorTable.placement_of_lookup ho

/-- An operator after an operand is no prefix operator. -/
theorem Delivers.operatorAfter?_placement {loader : Loader} (k : TokenKind) :
    Looks loader (fun found => ∀ u o, found = some (u, o) → o.placement ≠ .beforeOperand)
      (Parse.operatorAfter? k) s := by
  refine Looks.bind vocabulary fun w _ => ?_
  split
  · next between after hbetween hafter =>
    refine Looks.bind (peekAt 1) fun following _ => pure ⟨rfl, ?_⟩
    rintro u o ho
    split_ifs at ho
    · simp [placement_of_operatorAt? (hbetween.trans ho)]
    · simp [placement_of_operatorAt? (hafter.trans ho)]
  · next between hbetween _ =>
    refine pure ⟨rfl, ?_⟩
    rintro u o ho
    simp [placement_of_operatorAt? (hbetween.trans ho)]
  · next after _ hafter =>
    refine pure ⟨rfl, ?_⟩
    rintro u o ho
    simp [placement_of_operatorAt? ho]

namespace Checked

variable {halt : (α : Type) → Parse α} {n : Nat}

theorem shows_eq (hs : Settled s) {t : Term} (ht : t.FlatIn s.vocabulary) :
    shows halt t s = (.ok (), s) := by
  have hlook : Parse.vocabulary s = (.ok s.vocabulary, s) := rfl
  unfold shows
  rw [Pairing.bind_of_ok hlook, (Vocabulary.Extends.refl _).render?_eq hs.reachable ht]
  rfl

theorem shows_bind (hs : Settled s) {t : Term} (ht : t.FlatIn s.vocabulary)
    (f : Unit → Parse β) : (shows halt t >>= f) s = f () s :=
  Pairing.bind_of_ok (shows_eq hs ht)

theorem quotation_eq (span : Span) (raw : String) :
    quotation halt span raw = ofExcept (Term.ofQuotation span raw) := by
  unfold quotation Term.ofQuotation
  rw [Quotation.cut?_eq]
  cases Quotation.ofRaw span raw.toList <;> rfl

theorem application_eq (hs : Settled s) {span : Span} {head : Term}
    {args : List Term} (hhead : head.FlatIn s.vocabulary) :
    application halt span (head :: args) s =
      (do ofExcept ((← vocabulary).apply span (head :: args))) s := by
  unfold application
  refine hs.look Delivers.vocabulary fun w hw => ?_
  cases w.apply span (head :: args) with
  | ok t => rfl
  | error e => exact shows_bind hs hhead _

/-- A list of terms that is put together is the list of the reader that puts it together at once. -/
inductive Gathers : Except ParseError (List Term) × ParseState → Except ParseError Term × ParseState →
    Prop
  | ok {ts : List Term} {t : Term} (s : ParseState) (h : Vocabulary.sequence ts = .ok t) :
      Gathers (.ok ts, s) (.ok t, s)
  | error (e : ParseError) (s : ParseState) : Gathers (.error e, s) (.error e, s)

theorem sequence_cons {first t : Term} {ts : List Term} (h : Vocabulary.sequence ts = .ok t) :
    Vocabulary.sequence (first :: ts) = .ok (Term.cell first t) := by
  cases ts with
  | nil => cases h
  | cons second rest =>
    unfold Vocabulary.sequence at h ⊢
    rw [List.getLast?_cons_cons]
    cases hlast : (second :: rest).getLast? with
    | none =>
      rw [hlast] at h
      cases h
    | some tail =>
      rw [hlast] at h
      obtain rfl := Except.ok.inj h
      rfl

namespace Gathers

variable {p : Parse (List Term)} {q : Parse Term}

theorem cons (h : Gathers (p s) (q s)) (first : Term) :
    Gathers ((do pure (first :: (← p))) s) ((do pure (Term.cell first (← q))) s) := by
  rcases hp : p s with ⟨r, s'⟩
  rcases hq : q s with ⟨r', s''⟩
  rw [hp, hq] at h
  cases h with
  | ok _ hts =>
    rw [Pairing.bind_of_ok hp, Pairing.bind_of_ok hq]
    exact .ok _ (sequence_cons hts)
  | error =>
    rw [Pairing.bind_of_error hp, Pairing.bind_of_error hq]
    exact .error _ _

/-- A list is put together when its closing bracket has been read. -/
theorem closed (h : Gathers (p s) (q s)) (kind : TokenKind) :
    (do
      let ts ← p
      let _ ← expect kind
      sequence halt ts) s =
    (do
      let t ← q
      let _ ← expect kind
      pure t) s := by
  rcases hp : p s with ⟨r, s'⟩
  rcases hq : q s with ⟨r', s''⟩
  rw [hp, hq] at h
  cases h with
  | @ok ts t _ hts =>
    have hsequence : sequence halt ts = pure t := by rw [sequence, hts]
    rw [Pairing.bind_of_ok hp, Pairing.bind_of_ok hq, hsequence]
  | error => rw [Pairing.bind_of_error hp, Pairing.bind_of_error hq]

end Gathers

/-- The readers that check do the same as the others, up to a bound. -/
structure TermReaders (halt : (α : Type) → Parse α) (n : Nat) : Prop where
  expression : ∀ {s} limit strict earlier, Settled s → 4 * s.left + 3 ≤ n →
    expression halt n limit strict earlier s = Parse.expression n limit strict earlier s
  climb : ∀ {s first} limit strict earlier, Settled s → first.FlatIn s.vocabulary →
    4 * s.left + 1 ≤ n →
    climb halt n limit strict earlier first s = Parse.climb n limit strict earlier first s
  operand : ∀ {s} limit, Settled s → 4 * s.left + 2 ≤ n →
    operand halt n limit s = Parse.operand n limit s
  arguments : ∀ {s}, Settled s → 4 * s.left + 2 ≤ n →
    arguments halt n s = Parse.arguments n s
  atomic : ∀ {s} limit, Settled s → 4 * s.left + 1 ≤ n →
    atomic halt n limit s = Parse.atomic n limit s
  elements : ∀ {s}, Settled s → 4 * s.left + 4 ≤ n →
    Gathers (elements halt n s) (Parse.elements n s)

namespace TermReaders

variable (h : TermReaders halt n) (hs : Settled s)
include h hs

theorem expression_succ (limit : Nat) (strict : Bool) (earlier : Option (Nat × Grouping))
    (hn : 4 * s.left + 3 ≤ n + 1) :
    Checked.expression halt (n + 1) limit strict earlier s =
      Parse.expression (n + 1) limit strict earlier s := by
  rw [Checked.expression, Parse.expression]
  refine hs.bind (h.operand limit hs (by omega))
    ((Delivers.termReaders .disabled n).operand limit (by omega)) fun first s₁ hs₁ _ hfirst => ?_
  have hleft := hfirst.left
  exact h.climb limit strict earlier hs₁ hfirst.flat (by omega)

/-- An operator with an operand on both sides. -/
theorem between {first : Term} {u : Symbol} {precedence limit : Nat} {strict strict' : Bool}
    {taken : Option (Nat × Grouping)} (hu : s.vocabulary.Knows u) (hfirst : first.FlatIn s.vocabulary)
    (hn : 4 * s.left + 3 ≤ n) :
    (do
      let second ← Checked.expression halt n precedence strict' taken
      shows halt (Term.node u [first, second])
      Checked.climb halt n limit strict taken (Term.node u [first, second])) s =
    (do
      let second ← Parse.expression n precedence strict' taken
      Parse.climb n limit strict taken (Term.node u [first, second])) s := by
  refine hs.bind (h.expression _ _ _ hs hn)
    ((Delivers.termReaders .disabled n).expression _ _ _ hn) fun second s₁ hs₁ hbefore hsecond => ?_
  have hnode : (Term.node u [first, second]).FlatIn s₁.vocabulary :=
    .node_two (hbefore.names.knows hu) (hfirst.mono hbefore.names) hsecond.flat
  have hleft := hsecond.left
  rw [shows_bind hs₁ hnode]
  exact h.climb _ _ _ hs₁ hnode (by omega)

theorem climb_succ {first : Term} (limit : Nat) (strict : Bool) (earlier : Option (Nat × Grouping))
    (hfirst : first.FlatIn s.vocabulary) (hn : 4 * s.left + 1 ≤ n + 1) :
    Checked.climb halt (n + 1) limit strict earlier first s =
      Parse.climb (n + 1) limit strict earlier first s := by
  rw [Checked.climb, Parse.climb]
  refine hs.look Delivers.peek fun t ht => ?_
  refine hs.bind rfl ((Delivers.operatorAfter? t.kind).and (Delivers.operatorAfter?_placement t.kind)) ?_
  rintro found _ - - ⟨⟨rfl, hfound⟩, -, hplacement⟩
  rcases found with _ | ⟨u, o⟩
  · rfl
  obtain ⟨hu, hwidth⟩ := hfound u o rfl
  have hprefix := hplacement u o rfl
  dsimp only
  by_cases hloose : o.precedence < limit ∨ o.precedence = limit ∧ strict
  · rw [if_pos hloose, if_pos hloose]
  rw [if_neg hloose, if_neg hloose]
  refine hs.look (Delivers.checkChain t o earlier) fun _ _ => ?_
  refine hs.bind rfl Delivers.next fun _ s₁ hs₁ hbefore ht' => ?_
  have hleft := ht'.left_lt ht hwidth
  have hu₁ := hbefore.names.knows hu
  have hfirst₁ := hfirst.mono hbefore.names
  obtain ⟨fixity, precedence⟩ := o
  cases fixity with
  | prefixOp => exact absurd rfl hprefix
  | postfixOp =>
    have hnode : (Term.node u [first]).FlatIn s₁.vocabulary := .node_one hu₁ hfirst₁
    exact (shows_bind hs₁ hnode _).trans (h.climb _ _ _ hs₁ hnode (by omega))
  | infixLeft | infixRight | infixOnly => exact h.between hs₁ hu₁ hfirst₁ (by omega)

theorem operand_succ (limit : Nat) (hn : 4 * s.left + 2 ≤ n + 1) :
    Checked.operand halt (n + 1) limit s = Parse.operand (n + 1) limit s := by
  rw [Checked.operand, Parse.operand]
  refine hs.look Delivers.peek fun t ht => hs.look (Delivers.prefixAt? t.kind) fun found hfound => ?_
  rcases found with _ | ⟨u, o⟩
  · refine hs.bind (h.atomic limit hs (by omega))
      ((Delivers.termReaders .disabled n).atomic limit (by omega)) fun head s₁ hs₁ _ hhead => ?_
    have hleft := hhead.left
    by_cases hlimit : Precedence.application < limit
    · rw [if_pos hlimit, if_pos hlimit]
    rw [if_neg hlimit, if_neg hlimit]
    refine hs₁.bind (h.arguments hs₁ (by omega))
      ((Delivers.termReaders .disabled n).arguments (by omega)) fun args s₂ hs₂ hbefore _ => ?_
    cases args with
    | nil => rfl
    | cons first rest =>
      exact hs₂.look (Delivers.spanFrom t.span) fun span _ =>
        application_eq hs₂ (hhead.flat.mono hbefore.names)
  · obtain ⟨-, hwidth⟩ := hfound u o rfl
    dsimp only
    split_ifs
    · rfl
    · refine hs.bind rfl Delivers.next fun _ s₁ hs₁ _ ht' => ?_
      have hleft := ht'.left_lt ht hwidth
      refine hs₁.bind (h.expression _ _ _ hs₁ (by omega))
        ((Delivers.termReaders .disabled n).expression _ _ _ (by omega)) fun _ _ _ _ _ => rfl

theorem arguments_succ (hn : 4 * s.left + 2 ≤ n + 1) :
    Checked.arguments halt (n + 1) s = Parse.arguments (n + 1) s := by
  rw [Checked.arguments, Parse.arguments]
  refine hs.look Delivers.peek fun t _ => hs.look Delivers.vocabulary fun w _ => ?_
  split_ifs
  · refine hs.bind (h.atomic binder hs (by omega))
      ((Delivers.termReaders .disabled n).atomic binder (by omega)) fun first s₁ hs₁ _ hfirst => ?_
    have hleft := hfirst.left
    exact hs₁.bind (h.arguments hs₁ (by omega))
      ((Delivers.termReaders .disabled n).arguments (by omega)) fun _ _ _ _ _ => rfl
  · rfl

theorem atomic_succ (limit : Nat) (hn : 4 * s.left + 1 ≤ n + 1) :
    Checked.atomic halt (n + 1) limit s = Parse.atomic (n + 1) limit s := by
  rw [Checked.atomic, Parse.atomic]
  refine hs.bind rfl Delivers.next ?_
  rintro ⟨kind, span⟩ s₁ hs₁ hbefore ⟨-, hleft, -⟩
  have hinner : ∀ {s'}, s₁.Before s' → kind.width = 1 → 4 * s'.left + 4 ≤ n := by
    intro s' h' hwidth
    have := h'.left
    simp only [hwidth] at hleft
    omega
  cases kind <;> dsimp only
  case ident name =>
    refine hs₁.look (Delivers.bindsAt limit) fun binds _ => ?_
    split_ifs
    · refine hs₁.bind rfl Delivers.next fun _ s₂ hs₂ h₂ _ => ?_
      have hn₂ := Nat.le_of_succ_le (hinner h₂ rfl)
      exact hs₂.bind (h.expression _ _ _ hs₂ hn₂)
        ((Delivers.termReaders .disabled n).expression _ _ _ hn₂) fun _ _ _ _ _ => rfl
    · rfl
  case quotation raw => rw [quotation_eq]
  case leftParen =>
    refine hs₁.bind rfl Delivers.loneOperator? fun found s₂ hs₂ h₂ _ => ?_
    cases found with
    | some u => rfl
    | none =>
      have hn₂ := Nat.le_of_succ_le (hinner h₂ rfl)
      exact hs₂.bind (h.expression _ _ _ hs₂ hn₂)
        ((Delivers.termReaders .disabled n).expression _ _ _ hn₂) fun _ _ _ _ _ => rfl
  case leftBracket =>
    refine hs₁.look Delivers.peek fun u _ => ?_
    split_ifs
    · rfl
    · exact (h.elements hs₁ (hinner (.refl hs₁.ends) rfl)).closed .rightBracket
  case leftBrace =>
    have hn₁ := Nat.le_of_succ_le (hinner (.refl hs₁.ends) rfl)
    exact hs₁.bind (h.expression _ _ _ hs₁ hn₁)
      ((Delivers.termReaders .disabled n).expression _ _ _ hn₁) fun _ _ _ _ _ => rfl

theorem elements_succ (hn : 4 * s.left + 4 ≤ n + 1) :
    Gathers (Checked.elements halt (n + 1) s) (Parse.elements (n + 1) s) := by
  rw [Checked.elements, Parse.elements]
  refine hs.bind_of .disabled .error (h.expression _ _ _ hs (by omega))
    ((Delivers.termReaders .disabled n).expression _ _ _ (by omega)) fun first s₁ hs₁ _ hfirst => ?_
  have hleft := hfirst.left
  refine hs₁.bind_of .disabled .error rfl (Delivers.eatSymbol ",") fun comma s₂ hs₂ h₂ _ => ?_
  have hleft₂ := h₂.left
  split_ifs
  · exact (h.elements hs₂ (by omega)).cons first
  · refine hs₂.bind_of .disabled .error rfl (Delivers.eatSymbol "|") fun bar s₃ hs₃ h₃ _ => ?_
    have hleft₃ := h₃.left
    split_ifs
    · refine hs₃.bind_of .disabled .error (h.expression _ _ _ hs₃ (by omega))
        ((Delivers.termReaders .disabled n).expression _ _ _ (by omega)) fun tail s₄ _ _ _ => ?_
      exact .ok s₄ rfl
    · exact .ok s₃ rfl

end TermReaders

theorem termReaders (halt : (α : Type) → Parse α) (n : Nat) : TermReaders halt n := by
  induction n with
  | zero => constructor <;> intros <;> omega
  | succ n ih =>
    exact
      { expression limit strict earlier hs := ih.expression_succ hs limit strict earlier
        climb limit strict earlier hs := ih.climb_succ hs limit strict earlier
        operand limit hs := ih.operand_succ hs limit
        arguments hs := ih.arguments_succ hs
        atomic limit hs := ih.atomic_succ hs limit
        elements hs := ih.elements_succ hs }

section

variable (hs : Settled s)
include hs

theorem expressionAt_eq (limit : Nat) (strict : Bool) :
    expressionAt halt limit strict s = Parse.expressionAt limit strict s :=
  (termReaders halt (4 * s.left + 4)).expression limit strict none hs (by omega)

theorem term_eq : term halt s = Parse.term s := expressionAt_eq hs lowest false

theorem closedTerm_eq : closedTerm halt s = Parse.closedTerm s :=
  expressionAt_eq hs Precedence.atomic true

end

end Checked

end Clausal.Parse
