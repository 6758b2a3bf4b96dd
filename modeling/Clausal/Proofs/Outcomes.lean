import Clausal.Proofs.FlatTerms
import Clausal.Proofs.JoinedScans
import Clausal.Proofs.Lookahead
import Clausal.Proofs.NamedRuns

/-!
# How a step of reading can end

A step that reads items ahead either succeeds, and then says what it has read, or fails for a reason that
lies in the text: it applies what cannot be applied, or finds what the grammar does not want. It
never fails by an anomaly, and no bound on its work stops it, as long as the items come to an
end. `Delivers` says so of one step from one state. The steps that readers are made of have a rule
each, and `repeated` is never stopped because each round but the last reads an item.
-/
namespace Clausal

/-- The text of a term that a fault shows. -/
def SyntaxFault.shownTerm? : SyntaxFault → Option String
  | macroName shown | abbreviationHead shown | parameter shown => some shown
  | _ => none

def TermFault.shownTerm? : TermFault → Option String
  | cannotApply _ shown => some shown
  | _ => none

def TermError.anomaly? : TermError → Option Anomaly
  | anomaly a => some a
  | _ => none

namespace ParseError

/-- The text of a term that an error shows. -/
def shownTerm? : ParseError → Option String
  | grammar _ fault => fault.shownTerm?
  | term (.malformed _ fault) => fault.shownTerm?
  | _ => none

/-- The anomaly that an error reports, also as the reason why an operator is refused. -/
def anomaly? : ParseError → Option Anomaly
  | term error | grammar _ (.operator error) => error.anomaly?
  | _ => none

/-- An error that is no anomaly and shows nothing but terms of the vocabulary, or one that the loader
has reported. -/
inductive Explained (loader : Loader) (v : Vocabulary) : ParseError → Prop
  | plain {e : ParseError} (hshown : e.shownTerm? = none) (ha : e.anomaly? = none) :
      Explained loader v e
  | shows {e : ParseError} {t : Term} (ht : t.FlatIn v) (hshown : e.shownTerm? = some (v.render t))
      (ha : e.anomaly? = none) : Explained loader v e
  | reported {e : ParseError} {span : Span} {name : String} (h : loader.load span name = .error e) :
      Explained loader v e

end ParseError

/-- Once its items are read, a scan repeats the end of the input or a fault. -/
def Scan.Ends (x : Scan) : Prop := ∀ kind, x.last.kind? = some kind → kind = .endOfInput

theorem Scan.ends_ofText (source text : String) : (Scan.ofText source text).Ends :=
  fun _ h => (Cursor.initial source text).last_scan h

namespace ParseState

/-- The number of items that are not read yet. -/
def left (s : ParseState) : Nat := s.ahead.items.length

/-- The second state can come after the first. -/
structure Before (s s' : ParseState) : Prop where
  ends : s'.ahead.Ends
  left : s'.left ≤ s.left
  names : s.vocabulary.Extends s'.vocabulary
  reachable : s.vocabulary.Reachable → s'.vocabulary.Reachable
  seen : ∀ d ∈ s.seen, d ∈ s'.seen

theorem Before.refl {s : ParseState} (h : s.ahead.Ends) : s.Before s :=
  ⟨h, Nat.le_refl _, .refl _, id, fun _ hd => hd⟩

theorem Before.trans {s s' s'' : ParseState} (h : s.Before s') (g : s'.Before s'') : s.Before s'' :=
  ⟨g.ends, Nat.le_trans g.left h.left, h.names.trans g.names, fun hv => g.reachable (h.reachable hv),
    fun d hd => g.seen d (h.seen d hd)⟩

end ParseState

/-- The number of items that a token of this kind takes; the end of the input may repeat. -/
def TokenKind.width : TokenKind → Nat
  | endOfInput => 0
  | _ => 1

theorem TokenKind.width_of_name? {kind : TokenKind} {name : String} (h : kind.name? = some name) :
    kind.width = 1 := by
  cases kind <;> first | rfl | cases h

namespace Parse

/-- What a run from `s` comes to: a result as it should be, or an error that is explained. The names
stay in both cases. -/
inductive Ending (loader : Loader) {α : Type} (Q : α → ParseState → Prop) (s : ParseState) :
    Except ParseError α × ParseState → Prop
  | ok {a : α} {s' : ParseState} (before : s.Before s') (h : Q a s') : Ending loader Q s (.ok a, s')
  | error {e : ParseError} {s' : ParseState} (names : s.vocabulary.Extends s'.vocabulary)
      (reachable : s.vocabulary.Reachable → s'.vocabulary.Reachable)
      (h : e.Explained loader s'.vocabulary) : Ending loader Q s (.error e, s')

/-- Run from this state, the step gives a result as it should be or fails with an explained error. -/
def Delivers (loader : Loader) {α : Type} (Q : α → ParseState → Prop) (p : Parse α)
    (s : ParseState) : Prop :=
  s.ahead.Ends → Ending loader Q s (p s)

/-- A step that leaves the state as it is. -/
abbrev Looks (loader : Loader) {α : Type} (Q : α → Prop) (p : Parse α) (s : ParseState) : Prop :=
  Delivers loader (fun a s' => s' = s ∧ Q a) p s

namespace Delivers

variable {loader : Loader} {α β : Type} {p : Parse α} {f : α → Parse β} {s : ParseState}
variable {Q R : α → ParseState → Prop} {S : β → ParseState → Prop}

theorem pure {a : α} (h : Q a s) : Delivers loader Q (Pure.pure a) s :=
  fun hs => .ok (.refl hs) h

theorem fail {e : ParseError} (h : e.Explained loader s.vocabulary) :
    Delivers loader Q (Parse.fail e) s :=
  fun _ => .error (.refl _) id h

theorem mono (h : Delivers loader Q p s) (hQ : ∀ a s', s.Before s' → Q a s' → R a s') :
    Delivers loader R p s := by
  intro hs
  have hout := h hs
  rcases hrun : p s with ⟨e | a, s'⟩ <;> rw [hrun] at hout
  · cases hout with
    | error hnames hv he => exact .error hnames hv he
  · cases hout with
    | ok hbefore ha => exact .ok hbefore (hQ a s' hbefore ha)

theorem bind (hp : Delivers loader Q p s)
    (hf : ∀ a s', s.Before s' → Q a s' → Delivers loader S (f a) s') :
    Delivers loader S (p >>= f) s := by
  intro hs
  have hout := hp hs
  rcases hrun : p s with ⟨e | a, s'⟩ <;> rw [hrun] at hout
  · rw [Pairing.bind_of_error hrun]
    cases hout with
    | error hnames hv he => exact .error hnames hv he
  · rw [Pairing.bind_of_ok hrun]
    cases hout with
    | ok hbefore ha =>
      have hrest := hf a s' hbefore ha hbefore.ends
      rcases hrun' : f a s' with ⟨e | b, s''⟩ <;> rw [hrun'] at hrest
      · cases hrest with
        | error hnames hv he =>
          exact .error (hbefore.names.trans hnames) (fun h => hv (hbefore.reachable h)) he
      · cases hrest with
        | ok hbefore' hb => exact .ok (hbefore.trans hbefore') hb

theorem map {g : α → β} (hp : Delivers loader Q p s)
    (hg : ∀ a s', s.Before s' → Q a s' → S (g a) s') : Delivers loader S (g <$> p) s :=
  hp.bind fun a s' h ha => pure (hg a s' h ha)

end Delivers

theorem Looks.bind {loader : Loader} {α β : Type} {p : Parse α} {f : α → Parse β} {s : ParseState}
    {Q : α → Prop} {S : β → ParseState → Prop} (hp : Looks loader Q p s)
    (hf : ∀ a, Q a → Delivers loader S (f a) s) : Delivers loader S (p >>= f) s := by
  refine Delivers.bind hp ?_
  rintro a s' - ⟨rfl, ha⟩
  exact hf a ha

namespace Delivers

variable {loader : Loader} {α β : Type} {s : ParseState} {Q : α → ParseState → Prop}

theorem failAt {span : Span} {fault : SyntaxFault} (hshown : fault.shownTerm? = none)
    (ha : (ParseError.grammar span fault).anomaly? = none) :
    Delivers loader Q (failAt span fault) s :=
  fail (.plain hshown ha)

theorem failExpected (what : Expected) (t : Token) : Delivers loader Q (failExpected what t) s :=
  failAt rfl rfl

/-- A fault that shows a term of the vocabulary. -/
theorem failAt_shown {span : Span} {fault : SyntaxFault} {t : Term} (ht : t.FlatIn s.vocabulary)
    (hshown : fault.shownTerm? = some (s.vocabulary.render t))
    (ha : (ParseError.grammar span fault).anomaly? = none) :
    Delivers loader Q (Parse.failAt span fault) s :=
  fail (.shows ht hshown ha)

theorem vocabulary : Looks loader (· = s.vocabulary) vocabulary s :=
  fun hs => .ok (.refl hs) ⟨rfl, rfl⟩

theorem spanFrom (start : Span) : Looks loader (fun _ => True) (spanFrom start) s :=
  fun hs => .ok (.refl hs) ⟨rfl, trivial⟩

theorem peekAt (n : Nat) : Looks loader (fun t => s.ahead.get n = .token t) (peekAt n) s := by
  intro hs
  rcases hrun : Parse.peekAt n s with ⟨e | t, s'⟩
  · have he := Adds.run_peekAt n s
    rw [run, hrun] at he
    obtain ⟨herror, rfl⟩ := Prod.mk.inj he
    cases hfound : (s.ahead.peek n).1 with
    | ok t => rw [hfound] at herror; cases herror
    | error fault =>
      rw [hfound] at herror
      obtain rfl := Except.error.inj herror
      exact .error (.refl _) id (.plain rfl rfl)
  · obtain ⟨rfl, hget⟩ := peekAt_eq_ok hrun
    obtain ⟨u, hu, hlast⟩ := hget n (Nat.le_refl n)
    obtain rfl := hlast rfl
    exact .ok (.refl hs) ⟨rfl, hu⟩

theorem peek : Looks loader (fun t => s.ahead.get 0 = .token t) peek s := peekAt 0

/-- The next token has been read. -/
structure Reads (s : ParseState) (t : Token) (s' : ParseState) : Prop where
  get : s.ahead.get 0 = .token t
  left : s'.left + t.kind.width ≤ s.left
  vocabulary : s'.vocabulary = s.vocabulary

/-- A token that has been looked at and is not the end of the input takes an item. -/
theorem Reads.left_lt {t t' : Token} {s' : ParseState} (h : Reads s t' s')
    (ht : s.ahead.get 0 = .token t) (hwidth : t.kind.width = 1) : s'.left < s.left := by
  obtain rfl : t = t' := Item.token.inj (ht.symm.trans h.get)
  have hleft := h.left
  omega

theorem left_drop_one {t : Token} (hs : s.ahead.Ends) (ht : s.ahead.get 0 = .token t) :
    (s.ahead.drop 1).items.length + t.kind.width ≤ s.left := by
  have hwidth : t.kind.width ≤ 1 := by
    cases t.kind <;> simp [TokenKind.width]
  cases hitems : s.ahead.items with
  | nil =>
    have hend : t.kind = .endOfInput := by
      refine hs t.kind ?_
      rw [Scan.get, hitems, List.getD_nil] at ht
      rw [ht]
      rfl
    simp [Scan.drop, ParseState.left, hitems, hend, TokenKind.width]
  | cons i rest => simpa [Scan.drop, ParseState.left, hitems] using hwidth

theorem next : Delivers loader (Reads s) next s := by
  intro hs
  rcases hrun : Parse.next s with ⟨e | t, s'⟩
  · rw [next_eq_bind] at hrun
    have hpeek : Ending loader (fun t s' => s' = s ∧ s.ahead.get 0 = .token t) s (Parse.peek s) :=
      peek hs
    rcases hp : Parse.peek s with ⟨e' | t, s''⟩ <;> rw [hp] at hpeek
    · rw [Pairing.bind_of_error hp] at hrun
      cases hrun
      cases hpeek with
      | error hnames hv he => exact .error hnames hv he
    · rw [Pairing.bind_of_ok hp] at hrun
      cases hrun
  · obtain ⟨hget, rfl⟩ := next_eq_ok hrun
    have hleft := left_drop_one hs hget
    exact .ok ⟨hs, Nat.le_trans (Nat.le_add_right _ _) hleft, .refl _, id, fun _ hd => hd⟩
      ⟨hget, hleft, rfl⟩

theorem expect (kind : TokenKind) :
    Delivers loader (fun _ s' => s'.left + kind.width ≤ s.left) (expect kind) s := by
  refine next.bind fun t s' _ ht => ?_
  split_ifs with hkind
  · exact pure (hkind ▸ ht.left)
  · exact failExpected _ _

theorem eatSymbol (name : String) :
    Delivers loader (fun eaten s' => eaten = true → s'.left < s.left) (eatSymbol name) s := by
  refine Looks.bind peek fun t ht => ?_
  split_ifs with hname
  · have hkind : t.kind = .symbolic name := of_decide_eq_true hname
    exact next.bind fun u s' _ hu => pure fun _ => hu.left_lt ht (hkind ▸ rfl)
  · exact pure fun h => by cases h

theorem change {c : Vocabulary → α × Vocabulary} (a : Addition)
    (hc : (c s.vocabulary).2 = a.apply s.vocabulary)
    (hQ : Q (c s.vocabulary).1 { s with vocabulary := (c s.vocabulary).2 }) :
    Delivers loader Q (change c) s :=
  fun hs => .ok ⟨hs, Nat.le_refl _, hc ▸ a.extends_apply _, fun h => hc ▸ a.reachable_apply h,
    fun _ hd => hd⟩ hQ

theorem intern (name : String) : Delivers loader (fun _ _ => True) (Parse.change (·.intern name)) s :=
  change (.name name) rfl trivial

theorem constant (name : String) :
    Delivers loader (fun t s' => s'.left = s.left ∧ t.FlatIn s'.vocabulary)
      (Parse.change (·.constant name)) s :=
  change (.name name) rfl ⟨rfl, .const (Vocabulary.knows_intern _ name)⟩

theorem freshVariable :
    Delivers loader (fun t s' => s'.left = s.left ∧ t.FlatIn s'.vocabulary) freshVariable s :=
  change .variable rfl ⟨rfl, .const (.inr ⟨_, SymbolTable.name?_intern _ _⟩)⟩

theorem lambda {body : Term} (name : String) (h : body.FlatIn s.vocabulary) :
    Delivers loader (fun t s' => s'.left = s.left ∧ t.FlatIn s'.vocabulary)
      (Parse.change (·.lambda name body)) s :=
  change (.name name) rfl
    ⟨rfl, .lam (Vocabulary.knows_intern _ name) (h.mono (s.vocabulary.extends_intern name))⟩

theorem stringLiteral (text : String) :
    Delivers loader (fun t s' => s'.left = s.left ∧ t.FlatIn s'.vocabulary) (stringLiteral text) s := by
  refine bind (Q := fun _ s' => s'.left = s.left) (change (.text text) rfl rfl) fun a s' _ h => ?_
  exact pure ⟨h, .literal a⟩

theorem variableOrConstant (name : String) :
    Delivers loader (fun t s' => s'.left = s.left ∧ t.FlatIn s'.vocabulary)
      (variableOrConstant name) s := by
  unfold Parse.variableOrConstant
  split_ifs
  · exact freshVariable
  · exact constant name

/-- What a round from `s` has to give: it goes on only if it has read an item. -/
inductive RoundOutcome (I : α → ParseState → Prop) (S : β → ParseState → Prop) (s : ParseState) :
    Round α β → ParseState → Prop
  | again {a : α} {s' : ParseState} (hleft : s'.left < s.left) (h : I a s') :
      RoundOutcome I S s (.again a) s'
  | done {b : β} {s' : ParseState} (h : S b s') : RoundOutcome I S s (.done b) s'

variable {I : α → ParseState → Prop} {S : β → ParseState → Prop} {body : α → Parse (Round α β)}

theorem rounds {base : ParseState} (hbody : ∀ a s, base.Before s → I a s →
      Delivers loader (RoundOutcome I S s) (body a) s) (n : Nat) {a : α} (hn : s.left < n)
    (hbase : base.Before s) (ha : I a s) : Delivers loader S (rounds body n a) s := by
  induction n generalizing a s with
  | zero => omega
  | succ n ih =>
    refine (hbody a s hbase ha).bind fun round s' hs' hround => ?_
    cases hround with
    | again hleft h => exact ih (by omega) (hbase.trans hs') h
    | done h => exact pure h

/-- A repetition takes as many rounds as it needs. -/
theorem repeated {a : α} (ha : I a s) (hbody : ∀ a s', s.Before s' → I a s' →
      Delivers loader (RoundOutcome I S s') (body a) s') :
    Delivers loader S (repeated body a) s := by
  intro hs
  exact rounds hbody (s.left + 1) (Nat.lt_succ_self _) (.refl hs) ha hs

end Delivers

end Parse

end Clausal
