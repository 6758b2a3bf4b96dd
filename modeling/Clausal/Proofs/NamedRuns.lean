import Clausal.Parse.Entry
import Clausal.Proofs.MintedNames
import Clausal.Proofs.SharedNames
import Clausal.Proofs.Words

/-!
# The names of a run

A reader writes names of the text into the table and mints anonymous variables. `Runs` says which, one
after the other, as the reader is put together from its steps. Nothing but a `_` that is read as a term
and a part that a sequent lacks makes it mint. No token shows a minted name, so a reader
that takes its names from tokens writes plain names only; `Adds` is this for one reader.
-/
namespace Clausal

open SymbolTable (Plain)

namespace Lexeme

theorem hyphen_notMem_name (w : List Char) : '-' ∉ name w := by
  have hname : isNameChar '-' = false := by decide
  induction w with
  | nil => simp [name]
  | cons c w ih =>
    rw [name]
    split_ifs with hc hpoint
    · rw [List.mem_cons, not_or]
      refine ⟨?_, ih⟩
      rintro rfl
      exact absurd (hname.symm.trans hc) Bool.false_ne_true
    · rw [List.mem_cons, not_or]
      refine ⟨?_, ih⟩
      rintro rfl
      simp at hpoint
    · exact List.not_mem_nil

theorem underscore_notMem_symbols (w : List Char) : '_' ∉ symbols w := by
  have hsymbol : isSymbolChar '_' = false := by decide
  induction w with
  | nil => simp [symbols]
  | cons c w ih =>
    rw [symbols]
    split_ifs with hc hpoint hcomment
    · exact List.not_mem_nil
    · exact List.not_mem_nil
    · exact List.not_mem_nil
    · rw [List.mem_cons, not_or]
      refine ⟨?_, ih⟩
      rintro rfl
      exact hc (by rw [hsymbol]; rfl)

end Lexeme

/-- A name has no hyphen, and a run of symbol characters no underscore. -/
def TokenKind.Plain : TokenKind → Prop
  | ident name | macroName name => '-' ∉ name.toList
  | symbolic name => '_' ∉ name.toList
  | _ => True

theorem TokenKind.Plain.name {kind : TokenKind} (h : kind.Plain) {name : String}
    (hn : kind.word? = some name) : SymbolTable.Plain name := by
  cases kind <;> simp only [word?, Option.some.injEq, reduceCtorEq] at hn
  case ident | macroName => exact .inl (hn ▸ h)
  case symbolic => exact .inr (hn ▸ h)

/-- If the item is a token, the token is plain. -/
def Item.Plain (i : Item) : Prop := ∀ kind, i.kind? = some kind → kind.Plain

theorem Cursor.plain_next (k : Cursor) : k.next.1.Plain := by
  intro kind hkind
  obtain ⟨n, -, hn⟩ := next_of_kind? hkind
  rw [hn] at hkind
  cases hword : kind.word? with
  | none => cases kind <;> trivial
  | some name =>
    obtain ⟨c, rest, -, hcases, -⟩ := item_of_word? hkind hword
    rcases hcases with ⟨rfl, -, hname⟩ | ⟨rfl, -, -, hname⟩ | ⟨rfl, hsingle, hname⟩ |
      ⟨rfl, hsymbol, -, -, hname⟩
    · change '-' ∉ name.toList
      rw [← hname]
      exact Lexeme.hyphen_notMem_name _
    · change '-' ∉ name.toList
      rw [← hname, List.mem_cons, not_or]
      exact ⟨by decide, Lexeme.hyphen_notMem_name _⟩
    · change '_' ∉ name.toList
      rw [← hname, List.mem_singleton]
      rintro rfl
      simp [single?] at hsingle
    · change '_' ∉ name.toList
      rw [← hname, List.mem_cons, not_or]
      refine ⟨?_, Lexeme.underscore_notMem_symbols _⟩
      rintro rfl
      exact absurd hsymbol (by decide)

namespace Scan

def Plain (s : Scan) : Prop := (∀ i ∈ s.items, i.Plain) ∧ s.last.Plain

theorem plain_fromCursor (fuel : Nat) (k : Cursor) : (fromCursor fuel k).Plain := by
  induction fuel generalizing k with
  | zero => exact ⟨by simp [fromCursor], k.plain_next⟩
  | succ fuel ih =>
    rw [fromCursor]
    dsimp only
    split_ifs
    · obtain ⟨hitems, hlast⟩ := ih k.next.2
      exact ⟨List.forall_mem_cons.2 ⟨k.plain_next, hitems⟩, hlast⟩
    · exact ⟨by simp, k.plain_next⟩

theorem plain_ofText (source text : String) : (ofText source text).Plain := plain_fromCursor _ _

theorem Plain.get {s : Scan} (h : s.Plain) (n : Nat) : (s.get n).Plain := by
  rw [Scan.get, List.getD_eq_getElem?_getD]
  cases hn : s.items[n]? with
  | none => exact h.2
  | some i => exact h.1 i (List.mem_of_getElem? hn)

/-- Looking ahead keeps or drops items, and finds one of them. -/
theorem peekItem_spec (last : Item) (n : Nat) (items : List Item) :
    (∀ i ∈ (peekItem last n items).2, i ∈ items) ∧
      ∀ t, (peekItem last n items).1 = .ok t → .token t ∈ items ∨ .token t = last := by
  fun_induction peekItem last n items with
  | case1 n t hlast =>
    exact ⟨by simp, fun u hu => .inr (by rw [← Except.ok.inj hu, hlast])⟩
  | case2 n e => exact ⟨by simp, fun u hu => by cases hu⟩
  | case3 n e rest => exact ⟨fun i hi => List.mem_cons_of_mem _ hi, fun u hu => by cases hu⟩
  | case4 t rest =>
    exact ⟨fun i hi => hi, fun u hu => .inl (by rw [Except.ok.inj hu]; exact List.mem_cons_self)⟩
  | case5 n t rest found rest' heq ih =>
    rw [heq] at ih
    refine ⟨fun i hi => ?_, fun u hu => ?_⟩
    · rcases List.mem_cons.1 hi with rfl | hi
      · exact List.mem_cons_self
      · exact List.mem_cons_of_mem _ (ih.1 i hi)
    · exact (ih.2 u hu).imp_left (List.mem_cons_of_mem _)

theorem Plain.peek {s : Scan} (h : s.Plain) (n : Nat) :
    (s.peek n).2.Plain ∧ ∀ t, (s.peek n).1 = .ok t → t.kind.Plain := by
  obtain ⟨hsub, hfound⟩ := peekItem_spec s.last n s.items
  refine ⟨⟨fun i hi => h.1 i (hsub i hi), h.2⟩, fun t ht => ?_⟩
  rcases hfound t ht with hmem | hlast
  · exact h.1 _ hmem t.kind rfl
  · exact h.2 t.kind (hlast ▸ rfl)

theorem Plain.advance {s : Scan} (h : s.Plain) : s.advance.Plain :=
  ⟨fun i hi => h.1 i (List.mem_of_mem_tail hi), h.2⟩

end Scan

theorem Vocabulary.symbols_defineOperator (v : Vocabulary) {name : String} {fixity : Fixity}
    {precedence : Int}
    (hp : ¬ (precedence < Precedence.lowest ∨ (Precedence.tightest : Int) < precedence)) :
    (v.defineOperator name fixity precedence).2.symbols = (v.symbols.intern name).2 := by
  obtain ⟨operators, hv, -⟩ := Addition.defineOperator_snd (v := v) (n := name) (f := fixity) hp
  rw [hv]
  rfl

namespace Parse

/-- The step gives a new anonymous variable of the table. -/
def Receives (p : Parse Term) : Prop :=
  ∀ s : ParseState, p.run s = (.ok (.const s.vocabulary.symbols.freshVariable.1),
    { s with vocabulary := { s.vocabulary with symbols := s.vocabulary.symbols.freshVariable.2 } })

theorem receives_underscore : Receives (variableOrConstant "_") := fun _ => rfl

theorem receives_freshVariable : Receives freshVariable := fun _ => rfl

/-- The run of a step from a state, with the names that it writes and mints on its way. -/
inductive Runs : {α : Type} → Parse α → ParseState → List Naming → Prop
  /-- A step that never changes the names. -/
  | quiet {α : Type} {p : Parse α} {s : ParseState}
      (h : ∀ s : ParseState, (p.run s).2.vocabulary.symbols = s.vocabulary.symbols) : Runs p s []
  /-- A step that always writes this name, also where the table holds it. -/
  | written {α : Type} {c : Vocabulary → α × Vocabulary} {name : String} {s : ParseState}
      (h : ∀ v, (c v).2.symbols = (v.symbols.intern name).2) : Runs (change c) s [.written name]
  /-- The text shows `_` as a term. -/
  | underscore {s : ParseState} : Runs (variableOrConstant "_") s [.anonymous s.vocabulary.symbols]
  /-- A sequent lacks a part. -/
  | missing {s : ParseState} : Runs freshVariable s [.anonymous s.vocabulary.symbols]
  | bind {α β : Type} {p : Parse α} {f : α → Parse β} {s s' : ParseState} {a : α}
      {E F : List Naming} (hp : Runs p s E) (h : p.run s = (.ok a, s')) (hf : Runs (f a) s' F) :
      Runs (p >>= f) s (E ++ F)
  /-- Behind an error nothing runs. -/
  | stop {α β : Type} {p : Parse α} {f : α → Parse β} {s s' : ParseState} {e : ParseError}
      {E : List Naming} (hp : Runs p s E) (h : p.run s = (.error e, s')) : Runs (p >>= f) s E
  /-- A step that takes its bound from the number of items ahead. -/
  | sized {α : Type} {p : Nat → Parse α} {s : ParseState} {E : List Naming}
      (h : Runs (p s.ahead.items.length) s E) : Runs (fun s => p s.ahead.items.length s) s E
  | within {α : Type} {p : Parse α} {source text : String} {s : ParseState} {E : List Naming}
      (h : Runs p (.initial s.vocabulary s.seen source text) E) : Runs (within source text p) s E

/-- A run does to the table what its names say. -/
theorem Runs.leads {α : Type} {p : Parse α} {s : ParseState} {E : List Naming} (h : Runs p s E) :
    Naming.Leads s.vocabulary.symbols E (p.run s).2.vocabulary.symbols := by
  induction h with
  | @quiet _ _ s h =>
    rw [h s]
    exact .nil _
  | @written _ _ _ s h => exact .written _ (h s.vocabulary ▸ .nil _)
  | @underscore s =>
    rw [receives_underscore s]
    exact .anonymous (.nil _)
  | @missing s =>
    rw [receives_freshVariable s]
    exact .anonymous (.nil _)
  | bind hp h hf ihp ihf =>
    rw [h] at ihp
    rw [run_bind, h]
    exact ihp.append ihf
  | stop hp h ihp =>
    rw [h] at ihp
    rw [run_bind, h]
    exact ihp
  | sized _ ih => exact ih
  | within _ ih => exact ih

/-- From a state with plain tokens ahead, the step writes plain names only, and its result is as it
should be. -/
def Adds {α : Type} (p : Parse α) (Q : α → Prop) : Prop :=
  ∀ s : ParseState, s.ahead.Plain → ∃ E, Runs p s E ∧ Naming.AllPlain E ∧
    (p.run s).2.ahead.Plain ∧ ∀ a, (p.run s).1 = .ok a → Q a

/-- The same, whatever the result is. -/
abbrev WritesPlain {α : Type} (p : Parse α) : Prop := Adds p fun _ => True

namespace Adds

variable {α β : Type} {p : Parse α} {f : α → Parse β} {Q : α → Prop} {R : β → Prop}

theorem mono {Q' : α → Prop} (h : Adds p Q) (hQ : ∀ a, Q a → Q' a) : Adds p Q' := by
  intro s hs
  obtain ⟨E, hE, hplain, hahead, ha⟩ := h s hs
  exact ⟨E, hE, hplain, hahead, fun a hrun => hQ a (ha a hrun)⟩

/-- A step that does not touch the names. -/
theorem of_quiet (hnames : ∀ s : ParseState, (p.run s).2.vocabulary.symbols = s.vocabulary.symbols)
    (hahead : ∀ s : ParseState, s.ahead.Plain → (p.run s).2.ahead.Plain)
    (hQ : ∀ (s : ParseState) (a : α), s.ahead.Plain → (p.run s).1 = .ok a → Q a) : Adds p Q :=
  fun s hs => ⟨[], .quiet hnames, Naming.allPlain_nil, hahead s hs, fun a ha => hQ s a hs ha⟩

theorem pure {a : α} (h : Q a) : Adds (Pure.pure a) Q :=
  of_quiet (fun _ => rfl) (fun _ hs => hs) fun _ _ _ hb => Except.ok.inj hb ▸ h

theorem fail (e : ParseError) : Adds (Parse.fail e) Q :=
  of_quiet (fun _ => rfl) (fun _ hs => hs) fun _ _ _ hb => nomatch hb

theorem bind (hp : Adds p Q) (hf : ∀ a, Q a → Adds (f a) R) : Adds (p >>= f) R := by
  intro s hs
  obtain ⟨E, hE, hplain, hahead, hQ⟩ := hp s hs
  rcases hrun : p.run s with ⟨e | a, s'⟩
  · have hbind : (p >>= f).run s = (.error e, s') := by rw [run_bind, hrun]
    rw [hrun] at hahead
    rw [hbind]
    exact ⟨E, .stop hE hrun, hplain, hahead, fun _ hb => nomatch hb⟩
  · have hbind : (p >>= f).run s = (f a).run s' := by rw [run_bind, hrun]
    rw [hrun] at hahead hQ
    obtain ⟨F, hF, hplain', hahead', hR⟩ := hf a (hQ a rfl) s' hahead
    rw [hbind]
    exact ⟨E ++ F, .bind hE hrun hF, Naming.allPlain_append hplain hplain', hahead', hR⟩

theorem sized {p : Nat → Parse α} (h : ∀ n, Adds (p n) Q) :
    Adds (fun s => p s.ahead.items.length s) Q := by
  intro s hs
  obtain ⟨E, hE, hplain, hahead, hQ⟩ := h s.ahead.items.length s hs
  exact ⟨E, .sized hE, hplain, hahead, hQ⟩

/-- Another text has plain tokens as well, so it does not matter what is ahead. -/
theorem within (source text : String) (h : Adds p Q) : Adds (within source text p) Q := by
  intro s hs
  obtain ⟨E, hE, hplain, -, hQ⟩ :=
    h (.initial s.vocabulary s.seen source text) (Scan.plain_ofText source text)
  exact ⟨E, .within hE, hplain, hs, hQ⟩

theorem vocabulary : WritesPlain vocabulary :=
  of_quiet (fun _ => rfl) (fun _ hs => hs) fun _ _ _ _ => trivial

theorem state : WritesPlain state :=
  of_quiet (fun _ => rfl) (fun _ hs => hs) fun _ _ _ _ => trivial

theorem spanFrom (start : Span) : WritesPlain (spanFrom start) :=
  of_quiet (fun _ => rfl) (fun _ hs => hs) fun _ _ _ _ => trivial

theorem markSeen (digest : Digest) : WritesPlain (markSeen digest) :=
  of_quiet (fun _ => rfl) (fun _ hs => hs) fun _ _ _ _ => trivial

theorem run_peekAt (n : Nat) (s : ParseState) :
    (peekAt n).run s = ((s.ahead.peek n).1.mapError fun e => .grammar e.span (.scan e.fault),
      { s with ahead := (s.ahead.peek n).2 }) := by
  change peekAt n s = _
  unfold peekAt
  rcases s.ahead.peek n with ⟨e | t, ahead⟩ <;> rfl

theorem peekAt (n : Nat) : Adds (peekAt n) fun t => t.kind.Plain := by
  refine of_quiet (fun s => ?_) (fun s hs => ?_) fun s t hs ht => ?_
  · rw [run_peekAt]
  · rw [run_peekAt]
    exact (hs.peek n).1
  · rw [run_peekAt] at ht
    refine (hs.peek n).2 t ?_
    cases hfound : (s.ahead.peek n).1 with
    | error e => rw [hfound] at ht; cases ht
    | ok u =>
      rw [hfound] at ht
      exact congrArg Except.ok (Except.ok.inj ht)

theorem peek : Adds peek fun t => t.kind.Plain := peekAt 0

theorem next : Adds next fun t => t.kind.Plain := by
  refine peek.bind fun t ht => ?_
  exact of_quiet (fun _ => rfl) (fun _ hs => hs.advance) fun _ _ _ hb => Except.ok.inj hb ▸ ht

theorem failAt (span : Span) (fault : SyntaxFault) : Adds (failAt span fault) Q := fail _

theorem failExpected (what : Expected) (t : Token) : Adds (failExpected what t) Q := fail _

theorem ofExcept (r : Except TermError α) : WritesPlain (ofExcept r) := by
  cases r with
  | ok a => exact pure trivial
  | error e => exact fail _

theorem expect (kind : TokenKind) : WritesPlain (expect kind) := by
  refine next.bind fun t _ => ?_
  split_ifs
  · exact pure trivial
  · exact failExpected _ _

theorem eatSymbol (name : String) : WritesPlain (eatSymbol name) := by
  refine peek.bind fun t _ => ?_
  split_ifs
  · exact next.bind fun _ _ => pure trivial
  · exact pure trivial

theorem written {c : Vocabulary → α × Vocabulary} {name : String} (hn : Plain name)
    (h : ∀ v, (c v).2.symbols = (v.symbols.intern name).2) : WritesPlain (change c) := by
  exact fun _ hs => ⟨_, .written h, Naming.allPlain_written hn, hs, fun _ _ => trivial⟩

theorem intern {name : String} (hn : Plain name) :
    WritesPlain (change (·.intern name)) :=
  written hn fun _ => rfl

theorem constant {name : String} (hn : Plain name) :
    WritesPlain (change (·.constant name)) :=
  written hn fun _ => rfl

theorem freshVariable : WritesPlain freshVariable :=
  fun _ hs => ⟨_, .missing, Naming.allPlain_anonymous _, hs, fun _ _ => trivial⟩

/-- The name `_` is not written. -/
theorem variableOrConstant {name : String} (hn : Plain name) :
    WritesPlain (variableOrConstant name) := by
  by_cases hname : name = "_"
  · subst hname
    exact fun _ hs => ⟨_, .underscore, Naming.allPlain_anonymous _, hs, fun _ _ => trivial⟩
  · rw [Parse.variableOrConstant, if_neg hname]
    exact constant hn

theorem defineOperator {name : String} (hn : Plain name) (fixity : Fixity) (precedence : Int) :
    WritesPlain (change (·.defineOperator name fixity precedence)) := by
  by_cases hp : precedence < Precedence.lowest ∨ (Precedence.tightest : Int) < precedence
  · refine of_quiet (fun s => ?_) (fun _ hs => hs) fun _ _ _ _ => trivial
    change (s.vocabulary.defineOperator name fixity precedence).2.symbols = _
    rw [Vocabulary.defineOperator, if_pos hp]
  · exact written hn fun v => v.symbols_defineOperator hp

theorem stringLiteral (text : String) : WritesPlain (stringLiteral text) := by
  have hpool : WritesPlain (change (·.string text)) := by
    refine of_quiet (fun s => ?_) (fun _ hs => hs) fun _ _ _ _ => trivial
    obtain ⟨strings, hstrings⟩ := s.vocabulary.string_snd text
    change (s.vocabulary.string text).2.symbols = _
    rw [hstrings]
  exact hpool.bind fun _ _ => pure trivial

/-- What a round has to give. -/
def RoundResult (A : α → Prop) (B : β → Prop) : Round α β → Prop
  | .again a => A a
  | .done b => B b

theorem rounds {A : α → Prop} {B : β → Prop} {body : α → Parse (Round α β)}
    (hbody : ∀ a, A a → Adds (body a) (RoundResult A B)) (n : Nat) {a : α} (ha : A a) :
    Adds (rounds body n a) B := by
  induction n generalizing a with
  | zero => exact fail _
  | succ n ih =>
    refine (hbody a ha).bind fun round hround => ?_
    cases round with
    | again a => exact ih hround
    | done b => exact pure hround

theorem repeated {A : α → Prop} {B : β → Prop} {body : α → Parse (Round α β)} {a : α} (ha : A a)
    (hbody : ∀ a, A a → Adds (body a) (RoundResult A B)) : Adds (repeated body a) B :=
  sized (p := fun n => Parse.rounds body (n + 1) a) fun n => rounds hbody (n + 1) ha

end Adds

end Parse

end Clausal
