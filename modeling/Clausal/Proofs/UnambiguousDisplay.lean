import Clausal.Proofs.DisplayedTerms
import Clausal.Proofs.Phrases

/-!
# What a displayed term tells

A term is shown as a phrase, so two terms show alike just when they have one phrase. An argument is one
piece of its phrase, unless it applies `::` to other than two arguments: then it is shown without
parentheses, and its pieces run into those around it. Where no argument does, a term can be told from its
text.
-/
namespace Clausal

open Term (isPlainName renderName Place)

namespace Leaf

def ofName (name : String) : Leaf :=
  if h : IsWord name then
    if hp : isPlainName name = true then .plain name ⟨h, hp⟩
    else .operator name ⟨h, by simpa using hp⟩
  else .nil

def ofInt : Int → Leaf
  | .ofNat n => .nat n
  | .negSucc n => .negative (n + 1)

/-- The leaf of an integer or of a string. -/
def ofLiteral : Literal → Leaf
  | .int n => ofInt n.toInt
  | a => .string (a.string?.getD "")

end Leaf

namespace Phrase

/-- The pieces of a phrase that stands as an argument. It needs parentheses unless it is one piece, but
has none where it begins with `::`. -/
def asArgument : Phrase → List Piece
  | row first [] => [first]
  | row (.leaf a) others =>
    if a = .ofName "::" then .leaf a :: others else [.group (row (.leaf a) others)]
  | p => [.group p]

/-- A phrase behind the first element of a list. -/
def asTail : Phrase → Remainder
  | row (.leaf .nil) [] => .closed
  | row (.list first rest) [] => .next first rest
  | p => .bar p

def followedBy : Phrase → List Piece → Phrase
  | row first others, more => row first (others ++ more)
  | p, _ => p

end Phrase

namespace Term

section

variable (names : SymbolTable)

mutual

/-- What is shown of a term that has no quotations and no literals but integers and strings. -/
def phrase : Term → Phrase
  | .const s => .row (.leaf (.ofName (names.name s))) []
  | .app head args =>
    match args, decide (head.symbol? = some Symbol.cons) with
    | [first, rest], true => .row (.list (phrase first) (phrase rest).asTail) []
    | args, _ => (phrase head).followedBy (argumentPieces args)
  | .lam x body => .lambda (.ofName (names.name x)) (phrase body)
  | .literal a => .row (.leaf (.ofLiteral a)) []
  | .quoted q => .row (.leaf (.string q.data)) []

def argumentPieces : List Term → List Piece
  | [] => []
  | t :: ts => (phrase t).asArgument ++ argumentPieces ts

end

/-- The symbol has a name that is a word, or `[]`. -/
def HasLexeme (s : Symbol) : Prop :=
  ∃ name, names.name? s = some name ∧ (IsWord name ∨ name = "[]")

/-- Terms of names, applications of names, lambdas, integers and strings. An application of `::` to two
arguments is a cell of a list. -/
inductive Displayable : Term → Prop
  | const {s : Symbol} (hs : HasLexeme names s) : Displayable (.const s)
  | application {s : Symbol} {args : List Term} (hs : HasLexeme names s)
      (hc : s = Symbol.cons → args.length ≠ 2) (hne : args ≠ []) (ha : ∀ t ∈ args, Displayable t) :
      Displayable (.app (.const s) args)
  | cell {first rest : Term} (hf : Displayable first) (hr : Displayable rest) :
      Displayable (cell first rest)
  | lam {x : Symbol} {body : Term} (hx : HasLexeme names x) (hb : Displayable body) :
      Displayable (.lam x body)
  | int (n : Int64) : Displayable (.literal (.int n))
  | string (text : String) (pooled : Bool) : Displayable (.literal (.string text pooled))

end

/-- An application of `::` that is no cell. -/
def IsBareCons (t : Term) : Prop := ∃ args, t = .app (.const Symbol.cons) args ∧ args.length ≠ 2

/-- No argument of an application is a bare one of `::`. -/
inductive SetApart : Term → Prop
  | const (s : Symbol) : SetApart (.const s)
  | application {s : Symbol} {args : List Term} (hc : s = Symbol.cons → args.length ≠ 2)
      (hb : ∀ t ∈ args, ¬ t.IsBareCons) (ha : ∀ t ∈ args, SetApart t) :
      SetApart (.app (.const s) args)
  | cell {first rest : Term} (hf : SetApart first) (hr : SetApart rest) : SetApart (cell first rest)
  | lam {x : Symbol} {body : Term} (hb : SetApart body) : SetApart (.lam x body)
  | literal (a : Literal) : SetApart (.literal a)

section

variable (names : SymbolTable)

theorem phrase_application {s : Symbol} {args : List Term} (hc : s = Symbol.cons → args.length ≠ 2) :
    phrase names (.app (.const s) args) =
      .row (.leaf (.ofName (names.name s))) (argumentPieces names args) := by
  have hrow : (phrase names (.const s)).followedBy (argumentPieces names args) =
      .row (.leaf (.ofName (names.name s))) (argumentPieces names args) := by
    rw [phrase]
    rfl
  rw [← hrow]
  conv => lhs; unfold phrase
  generalize hd : decide ((const s).symbol? = some Symbol.cons) = closed
  rcases closed, args with ⟨_ | _, _ | ⟨first, _ | ⟨rest, _ | _⟩⟩⟩
  case true.cons.cons.nil =>
    have hs : s = Symbol.cons := by simpa [symbol?] using hd
    exact absurd rfl (hc hs)
  all_goals rfl

theorem phrase_cell (first rest : Term) : phrase names (cell first rest) =
    .row (.list (phrase names first) (phrase names rest).asTail) [] := by
  rw [cell, node, phrase]
  decide

end

end Term

theorem not_isWord_nil : ¬ IsWord "[]" := by decide +kernel

theorem Leaf.text_ofName {name : String} (h : IsWord name ∨ name = "[]") :
    (Leaf.ofName name).text = renderName name := by
  unfold Leaf.ofName renderName
  split_ifs with hw hp
  · rfl
  · rfl
  · obtain rfl := h.resolve_left hw
    rfl
  · obtain rfl := h.resolve_left hw
    next hp => exact absurd (by decide) hp

theorem Leaf.ofName_injective {name other : String} (hn : IsWord name ∨ name = "[]")
    (ho : IsWord other ∨ other = "[]") (h : Leaf.ofName name = Leaf.ofName other) : name = other := by
  unfold Leaf.ofName at h
  split_ifs at h with hw hp hw' hp' hw' hp' hw'
  all_goals first
    | exact (Leaf.plain.inj h)
    | exact (Leaf.operator.inj h)
    | exact (hn.resolve_left hw).trans (ho.resolve_left hw').symm

theorem Leaf.ofName_ne_ofInt (name : String) (i : Int) : Leaf.ofName name ≠ .ofInt i := by
  unfold Leaf.ofName
  split_ifs <;> cases i <;> simp [Leaf.ofInt]

theorem Leaf.ofName_ne_string (name text : String) : Leaf.ofName name ≠ .string text := by
  unfold Leaf.ofName
  split_ifs <;> simp

theorem Leaf.ofInt_ne_string (i : Int) (text : String) : Leaf.ofInt i ≠ .string text := by
  cases i <;> simp [Leaf.ofInt]

theorem Leaf.ofInt_injective {i j : Int} (h : Leaf.ofInt i = .ofInt j) : i = j := by
  cases i <;> cases j <;> simp_all [Leaf.ofInt]

theorem Leaf.text_ofInt (i : Int) : (Leaf.ofInt i).text = toString i := by
  cases i <;> rfl

theorem rowText_append (ws ws' : List Piece) : rowText (ws ++ ws') = rowText ws ++ rowText ws' := by
  induction ws with
  | nil => rw [List.nil_append, rowText, String.empty_append]
  | cons w ws ih => simp only [List.cons_append, rowText, ih, String.append_assoc]

theorem Remainder.text_bar (p : Phrase) : (bar p).text = " | " ++ p.text ++ "]" := by
  have hbar : (" | " : String) = " " ++ ("|" ++ " ") := by decide
  rw [Remainder.text, hbar]
  simp only [String.append_assoc]

theorem Phrase.asTail_of_leaf {a : Leaf} (ha : a ≠ .nil) (others : List Piece) :
    asTail (row (.leaf a) others) = .bar (row (.leaf a) others) := by
  unfold asTail
  split
  · next heq => simp_all
  · next heq => simp at heq
  · rfl

theorem Phrase.asTail_of_ne_nil {others : List Piece} (h : others ≠ []) (first : Piece) :
    asTail (row first others) = .bar (row first others) := by
  unfold asTail
  split
  · next heq => exact absurd (Phrase.row.inj heq).2 h
  · next heq => exact absurd (Phrase.row.inj heq).2 h
  · rfl

theorem Phrase.asArgument_of_ne_nil {others : List Piece} (h : others ≠ []) (a : Leaf) :
    asArgument (row (.leaf a) others) =
      if a = .ofName "::" then .leaf a :: others else [.group (row (.leaf a) others)] := by
  cases others with
  | nil => exact absurd rfl h
  | cons w ws =>
    rw [asArgument]
    exact h

theorem Phrase.asArgument_lambda (x : Leaf) (body : Phrase) :
    asArgument (lambda x body) = [.group (lambda x body)] := by
  rw [asArgument] <;> simp

theorem Phrase.asTail_lambda (x : Leaf) (body : Phrase) :
    asTail (lambda x body) = .bar (lambda x body) := by
  rw [asTail] <;> simp

theorem rowText_group (p : Phrase) : rowText [.group p] = " " ++ ("(" ++ p.text ++ ")") := by
  rw [rowText, rowText, Piece.text, String.append_empty]

namespace Term

variable {names : SymbolTable} {s : Symbol} {t u : Term}

/-- The text of a term in each place is that of its phrase there. -/
structure RendersPhrase (names : SymbolTable) (t : Term) : Prop where
  alone : renderAt names .alone t = (phrase names t).text
  argument : " " ++ renderAt names .argument t = rowText (phrase names t).asArgument
  tail : renderAt names .tail t ++ "]" = (phrase names t).asTail.text

theorem RendersPhrase.leaf {a : Leaf} (hp : phrase names t = .row (.leaf a) [])
    (hr : ∀ place, renderAt names place t = place.enclose true a.text) (ha : a ≠ .nil) :
    RendersPhrase names t := by
  have htext : (Phrase.row (.leaf a) []).text = a.text := by
    rw [Phrase.text, Piece.text, rowText, String.append_empty]
  refine ⟨?_, ?_, ?_⟩
  · rw [hr, hp, htext]
    rfl
  · rw [hr, hp, Phrase.asArgument, rowText, rowText, Piece.text, String.append_empty]
    rfl
  · rw [hr, hp, Phrase.asTail_of_leaf ha, Remainder.text_bar, htext]
    rfl

theorem HasLexeme.renderName_eq (h : HasLexeme names s) :
    (Leaf.ofName (names.name s)).text = renderName (names.name s) := by
  obtain ⟨name, hname, hw⟩ := h
  rw [SymbolTable.name, hname, Option.getD_some]
  exact Leaf.text_ofName hw

theorem rowText_argumentPieces {args : List Term} (h : ∀ t ∈ args, RendersPhrase names t) :
    rowText (argumentPieces names args) = renderArgs names args := by
  induction args with
  | nil => rw [argumentPieces, rowText, renderArgs]
  | cons t ts ih =>
    rw [argumentPieces, rowText_append, ← (h t List.mem_cons_self).argument,
      ih fun u hu => h u (List.mem_cons_of_mem _ hu), renderArgs]

theorem argumentPieces_ne_nil {args : List Term} (h : args ≠ []) : argumentPieces names args ≠ [] := by
  cases args with
  | nil => exact absurd rfl h
  | cons t ts =>
    rw [argumentPieces]
    intro hnil
    have ht := (List.append_eq_nil_iff.1 hnil).1
    revert ht
    unfold Phrase.asArgument
    split
    · simp
    · split_ifs <;> simp
    · simp

theorem name?_cons (hn : names.WellFormed) : names.name? Symbol.cons = some "::" :=
  hn.name?_wellKnown rfl

theorem name?_nil (hn : names.WellFormed) : names.name? Symbol.nil = some "[]" :=
  hn.name?_wellKnown rfl

/-- Two symbols with one leaf are one symbol. -/
theorem HasLexeme.eq_of_leaf {s' : Symbol} (hn : names.WellFormed) (h : HasLexeme names s)
    (h' : HasLexeme names s')
    (he : Leaf.ofName (names.name s) = Leaf.ofName (names.name s')) : s = s' := by
  obtain ⟨name, hname, hw⟩ := h
  obtain ⟨name', hname', hw'⟩ := h'
  rw [SymbolTable.name, SymbolTable.name, hname, hname', Option.getD_some, Option.getD_some] at he
  obtain rfl := Leaf.ofName_injective hw hw' he
  exact Option.some.inj ((hn.lookup_of_name? hname).symm.trans (hn.lookup_of_name? hname'))

theorem hasLexeme_cons (hn : names.WellFormed) : HasLexeme names Symbol.cons :=
  ⟨"::", name?_cons hn, .inl (by decide +kernel)⟩

theorem RendersPhrase.const (hn : names.WellFormed) (h : HasLexeme names s) :
    RendersPhrase names (.const s) := by
  have hphrase : phrase names (.const s) = .row (.leaf (.ofName (names.name s))) [] := by rw [phrase]
  have htext := h.renderName_eq
  by_cases hs : s = Symbol.nil
  · subst hs
    have hname : names.name Symbol.nil = "[]" := by
      rw [SymbolTable.name, name?_nil hn, Option.getD_some]
    have hleaf : Leaf.ofName "[]" = .nil := by
      rw [Leaf.ofName, dif_neg not_isWord_nil]
    rw [hname, hleaf] at hphrase
    refine ⟨?_, ?_, ?_⟩
    · rw [renderAt, if_neg (by simp), hphrase, hname]
      rfl
    · rw [renderAt, if_neg (by simp), hphrase, hname]
      rfl
    · rw [renderAt, if_pos ⟨rfl, rfl⟩, hphrase]
      rfl
  · refine .leaf hphrase (fun place => ?_) fun hnil => hs ?_
    · rw [renderAt, if_neg fun h => hs h.2, htext]
    · refine h.eq_of_leaf hn ⟨"[]", name?_nil hn, .inr rfl⟩ ?_
      rw [hnil, SymbolTable.name, name?_nil hn, Option.getD_some, Leaf.ofName,
        dif_neg not_isWord_nil]

theorem HasLexeme.isCons_iff (hn : names.WellFormed) (h : HasLexeme names s) :
    Leaf.ofName (names.name s) = .ofName "::" ↔ s = Symbol.cons := by
  have hcons : names.name Symbol.cons = "::" := by
    rw [SymbolTable.name, name?_cons hn, Option.getD_some]
  constructor
  · intro he
    exact h.eq_of_leaf hn (hasLexeme_cons hn) (by rw [he, hcons])
  · rintro rfl
    rw [hcons]

theorem RendersPhrase.application (hn : names.WellFormed) {args : List Term}
    (hs : HasLexeme names s) (hc : s = Symbol.cons → args.length ≠ 2) (hne : args ≠ [])
    (ha : ∀ t ∈ args, RendersPhrase names t) : RendersPhrase names (.app (.const s) args) := by
  have hpieces : argumentPieces names args ≠ [] := argumentPieces_ne_nil hne
  have hphrase := phrase_application names hc
  have hhead : renderAt names .argument (.const s) = (Leaf.ofName (names.name s)).text := by
    rw [renderAt, if_neg (by simp), hs.renderName_eq]
    rfl
  have htext : renderAt names .argument (.const s) ++ renderArgs names args =
      (phrase names (.app (.const s) args)).text := by
    rw [hphrase, Phrase.text, Piece.text, rowText_argumentPieces ha, hhead]
  refine ⟨?_, ?_, ?_⟩
  · rw [renderAt_application_of names .alone hc, htext]
    rfl
  · rw [renderAt_application_of names .argument hc, htext, hphrase,
      Phrase.asArgument_of_ne_nil hpieces]
    by_cases h : s = Symbol.cons
    · rw [if_pos ((hs.isCons_iff hn).2 h), decide_eq_true h, rowText, Phrase.text, String.append_assoc]
      rfl
    · rw [if_neg (mt (hs.isCons_iff hn).1 h), decide_eq_false h, rowText_group]
      rfl
  · rw [renderAt_application_of names .tail hc, htext, hphrase,
      Phrase.asTail_of_ne_nil hpieces, Remainder.text_bar]
    rfl

theorem RendersPhrase.cell {first rest : Term} (hf : RendersPhrase names first)
    (hr : RendersPhrase names rest) : RendersPhrase names (cell first rest) := by
  have hlist : renderAt names .alone first ++ renderAt names .tail rest ++ "]" =
      (phrase names first).text ++ (phrase names rest).asTail.text := by
    rw [hf.alone, String.append_assoc, hr.tail]
  have hcomma : (", " : String) = "," ++ " " := by decide
  refine ⟨?_, ?_, ?_⟩
  · rw [renderAt_cell, phrase_cell, Phrase.text, Piece.text, rowText, String.append_empty, ← hlist]
    simp only [Place.encloseList, String.append_assoc]
  · rw [renderAt_cell, phrase_cell, Phrase.asArgument, rowText, rowText, Piece.text,
      String.append_empty, ← hlist]
    simp only [Place.encloseList, String.append_assoc]
  · rw [renderAt_cell, phrase_cell, Phrase.asTail, Remainder.text, ← hr.tail, ← hf.alone]
    simp only [Place.encloseList, hcomma, String.append_assoc]

theorem RendersPhrase.lam {x : Symbol} {body : Term} (hx : HasLexeme names x)
    (hb : RendersPhrase names body) : RendersPhrase names (.lam x body) := by
  have hback : ("\\ " : String) = "\\" ++ " " := by decide
  have htext : renderName (names.name x) ++ "\\ " ++ renderAt names .alone body =
      (phrase names (.lam x body)).text := by
    rw [phrase, Phrase.text, hx.renderName_eq, hb.alone, hback]
    simp only [String.append_assoc]
  refine ⟨?_, ?_, ?_⟩
  · rw [renderAt, htext]
    rfl
  · rw [renderAt, htext, phrase, Phrase.asArgument_lambda, rowText_group]
    rfl
  · rw [renderAt, htext, phrase, Phrase.asTail_lambda, Remainder.text_bar]
    rfl

theorem Displayable.rendersPhrase (hn : names.WellFormed) (h : Displayable names t) :
    RendersPhrase names t := by
  induction h with
  | const hs => exact .const hn hs
  | application hs hc hne _ ih => exact .application hn hs hc hne ih
  | cell _ _ ihf ihr => exact .cell ihf ihr
  | lam hx _ ih => exact .lam hx ih
  | int n =>
    refine .leaf (a := .ofInt n.toInt) (by rw [phrase, Leaf.ofLiteral]) (fun place => ?_) ?_
    · rw [renderAt, Literal.render, Leaf.text_ofInt]
    · cases n.toInt <;> simp [Leaf.ofInt]
  | string text pooled =>
    refine .leaf (a := .string text) (by rw [phrase]; rfl) (fun place => ?_) (by simp)
    rw [renderAt]
    rfl

/-- Terms show alike just when they have one phrase. -/
theorem Displayable.renderAt_eq_iff (hn : names.WellFormed) (ht : Displayable names t)
    (hu : Displayable names u) :
    renderAt names .alone t = renderAt names .alone u ↔ phrase names t = phrase names u := by
  rw [(ht.rendersPhrase hn).alone, (hu.rendersPhrase hn).alone]
  exact ⟨Phrase.text_injective, congrArg Phrase.text⟩

end Term

namespace Phrase

/-- The one piece that a phrase is as an argument. -/
def asPiece : Phrase → Piece
  | row first [] => first
  | p => .group p

theorem asPiece_of_ne_nil {others : List Piece} (h : others ≠ []) (first : Piece) :
    asPiece (row first others) = .group (row first others) := by
  cases others with
  | nil => exact absurd rfl h
  | cons w ws => rfl

theorem asPiece_inj {p q : Phrase} (hp : ∀ r, p ≠ row (.group r) []) (hq : ∀ r, q ≠ row (.group r) [])
    (h : p.asPiece = q.asPiece) : p = q := by
  unfold asPiece at h
  split at h
  · split at h
    · rw [h]
    · exact absurd (by rw [h]) (hp _)
  · split at h
    · exact absurd (by rw [h]) (hq _)
    · exact Piece.group.inj h

theorem asTail_inj {p q : Phrase} (h : p.asTail = q.asTail) : p = q := by
  unfold asTail at h
  split at h
  · split at h
    · rfl
    · cases h
    · cases h
  · split at h
    · cases h
    · obtain ⟨rfl, rfl⟩ := Remainder.next.inj h
      rfl
    · cases h
  · split at h
    · cases h
    · cases h
    · exact Remainder.bar.inj h

end Phrase

namespace Term

theorem SetApart.of_application {args : List Term} (h : SetApart (.app (.const s) args))
    (hc : s = Symbol.cons → args.length ≠ 2) :
    (∀ t ∈ args, ¬ t.IsBareCons) ∧ ∀ t ∈ args, SetApart t := by
  generalize ht : Term.app (.const s) args = t at h
  cases h with
  | const _ => cases ht
  | application _ hb ha =>
    obtain ⟨-, rfl⟩ := Term.app.inj ht
    exact ⟨hb, ha⟩
  | cell _ _ =>
    obtain ⟨hhead, rfl⟩ := Term.app.inj ht
    exact absurd rfl (hc (Term.const.inj hhead))
  | lam _ => cases ht
  | literal _ => cases ht

theorem SetApart.of_cell {first rest : Term} (h : SetApart (Term.cell first rest)) :
    SetApart first ∧ SetApart rest := by
  generalize ht : Term.cell first rest = t at h
  cases h with
  | const _ => cases ht
  | application hc _ _ =>
    obtain ⟨hhead, rfl⟩ := Term.app.inj ht
    exact absurd rfl (hc (Term.const.inj hhead).symm)
  | cell hf hr =>
    obtain ⟨rfl, rfl⟩ : first = _ ∧ rest = _ := by simpa [Term.cell, node] using ht
    exact ⟨hf, hr⟩
  | lam _ => cases ht
  | literal _ => cases ht

theorem SetApart.of_lam {x : Symbol} {body : Term} (h : SetApart (.lam x body)) : SetApart body := by
  cases h with
  | lam hb => exact hb

theorem Displayable.phrase_ne_group (h : Displayable names t) (p : Phrase) :
    phrase names t ≠ .row (.group p) [] := by
  cases h with
  | const hs => simp [phrase]
  | application hs hc hne ha => simp [phrase_application names hc]
  | cell hf hr => simp [phrase_cell]
  | lam hx hb => simp [phrase]
  | int n => simp [phrase]
  | string text pooled => simp [phrase]

/-- An argument is one piece, unless it is a bare application of `::`. -/
theorem Displayable.asArgument_eq (hn : names.WellFormed) (h : Displayable names t)
    (hb : ¬ t.IsBareCons) : (phrase names t).asArgument = [(phrase names t).asPiece] := by
  cases h with
  | const hs => simp [phrase, Phrase.asArgument, Phrase.asPiece]
  | @application s args hs hc hne ha =>
    have hpieces : argumentPieces names args ≠ [] := argumentPieces_ne_nil hne
    have hs' : s ≠ Symbol.cons := by
      rintro rfl
      exact hb ⟨args, rfl, hc rfl⟩
    rw [phrase_application names hc, Phrase.asArgument_of_ne_nil hpieces,
      if_neg (mt (hs.isCons_iff hn).1 hs'), Phrase.asPiece_of_ne_nil hpieces]
  | cell hf hr => simp [phrase_cell, Phrase.asArgument, Phrase.asPiece]
  | lam hx hb => simp [phrase, Phrase.asArgument_lambda, Phrase.asPiece]
  | int n => simp [phrase, Phrase.asArgument, Phrase.asPiece]
  | string text pooled => simp [phrase, Phrase.asArgument, Phrase.asPiece]

/-- The arguments are told by their pieces if each of them is told by its phrase. -/
theorem sameList_of_argumentPieces [Extensions] (hn : names.WellFormed) {ts us : List Term}
    (ht : ∀ t ∈ ts, Displayable names t) (hu : ∀ u ∈ us, Displayable names u)
    (hbt : ∀ t ∈ ts, ¬ t.IsBareCons) (hbu : ∀ u ∈ us, ¬ u.IsBareCons)
    (ih : ∀ t ∈ ts, ∀ u ∈ us, phrase names t = phrase names u → t.same u = true)
    (h : argumentPieces names ts = argumentPieces names us) : sameList ts us = true := by
  induction ts generalizing us with
  | nil =>
    cases us with
    | nil => rfl
    | cons u us => exact absurd h.symm (argumentPieces_ne_nil (List.cons_ne_nil u us))
  | cons t ts ihs =>
    cases us with
    | nil => exact absurd h (argumentPieces_ne_nil (List.cons_ne_nil t ts))
    | cons u us =>
      rw [List.forall_mem_cons] at ht hu hbt hbu
      rw [argumentPieces, argumentPieces, ht.1.asArgument_eq hn hbt.1, hu.1.asArgument_eq hn hbu.1] at h
      obtain ⟨hfirst, hrest⟩ := List.cons.inj h
      have hphrase := Phrase.asPiece_inj ht.1.phrase_ne_group hu.1.phrase_ne_group hfirst
      have hsame := ih t List.mem_cons_self u List.mem_cons_self hphrase
      have hothers := ihs ht.2 hu.2 hbt.2 hbu.2 (fun t' ht' u' hu' =>
        ih t' (List.mem_cons_of_mem _ ht') u' (List.mem_cons_of_mem _ hu')) hrest
      rw [sameList, hsame, hothers]
      rfl

section

variable (names : SymbolTable)

theorem phrase_const (s : Symbol) :
    phrase names (.const s) = .row (.leaf (.ofName (names.name s))) [] := by rw [phrase]

theorem phrase_lam (x : Symbol) (body : Term) :
    phrase names (.lam x body) = .lambda (.ofName (names.name x)) (phrase names body) := by rw [phrase]

theorem phrase_int (n : Int64) :
    phrase names (.literal (.int n)) = .row (.leaf (.ofInt n.toInt)) [] := by
  rw [phrase, Leaf.ofLiteral]

theorem phrase_string (text : String) (pooled : Bool) :
    phrase names (.literal (.string text pooled)) = .row (.leaf (.string text)) [] := by
  rw [phrase]
  rfl

end

/-- An application shows at least one argument. -/
theorem phrase_application_ne {args : List Term} (hc : s = Symbol.cons → args.length ≠ 2)
    (hne : args ≠ []) (a : Piece) : phrase names (.app (.const s) args) ≠ .row a [] := by
  rw [phrase_application names hc]
  exact fun h => argumentPieces_ne_nil hne (Phrase.row.inj h).2

theorem Displayable.of_name {name : String} (hu : Displayable names u)
    (h : .row (.leaf (.ofName name)) [] = phrase names u) :
    ∃ s, HasLexeme names s ∧ Leaf.ofName name = .ofName (names.name s) ∧ u = .const s := by
  cases hu with
  | @const s hs =>
    refine ⟨s, hs, ?_, rfl⟩
    simpa [phrase_const] using h
  | application _ hc hne _ => exact absurd h.symm (phrase_application_ne hc hne _)
  | cell _ _ => simp [phrase_cell] at h
  | lam _ _ => simp [phrase_lam] at h
  | int n => simp [phrase_int, Leaf.ofName_ne_ofInt] at h
  | string text pooled => simp [phrase_string, Leaf.ofName_ne_string] at h

theorem Displayable.of_row {a : Leaf} {ws : List Piece} (hu : Displayable names u) (hws : ws ≠ [])
    (h : .row (.leaf a) ws = phrase names u) :
    ∃ s args, HasLexeme names s ∧ (s = Symbol.cons → args.length ≠ 2) ∧
      (∀ t ∈ args, Displayable names t) ∧ a = .ofName (names.name s) ∧
      ws = argumentPieces names args ∧ u = .app (.const s) args := by
  cases hu with
  | @application s args hs hc _ ha =>
    rw [phrase_application names hc] at h
    obtain ⟨hhead, hargs⟩ := Phrase.row.inj h
    exact ⟨s, args, hs, hc, ha, Piece.leaf.inj hhead, hargs, rfl⟩
  | const _ => exact absurd (Phrase.row.inj (h.trans (phrase_const _ _))).2 hws
  | cell _ _ => simp [phrase_cell] at h
  | lam _ _ => simp [phrase_lam] at h
  | int n => exact absurd (Phrase.row.inj (h.trans (phrase_int _ _))).2 hws
  | string text pooled => exact absurd (Phrase.row.inj (h.trans (phrase_string _ _ _))).2 hws

theorem Displayable.of_list {p : Phrase} {r : Remainder} (hu : Displayable names u)
    (h : .row (.list p r) [] = phrase names u) :
    ∃ first rest, Displayable names first ∧ Displayable names rest ∧ p = phrase names first ∧
      r = (phrase names rest).asTail ∧ u = Term.cell first rest := by
  cases hu with
  | @cell first rest hf hr =>
    simp only [phrase_cell, Phrase.row.injEq, Piece.list.injEq, and_true] at h
    exact ⟨first, rest, hf, hr, h.1, h.2, rfl⟩
  | const _ => simp [phrase_const] at h
  | application _ hc hne _ => exact absurd h.symm (phrase_application_ne hc hne _)
  | lam _ _ => simp [phrase_lam] at h
  | int n => simp [phrase_int] at h
  | string text pooled => simp [phrase_string] at h

theorem Displayable.of_lambda {a : Leaf} {p : Phrase} (hu : Displayable names u)
    (h : .lambda a p = phrase names u) :
    ∃ x body, HasLexeme names x ∧ Displayable names body ∧ a = .ofName (names.name x) ∧
      p = phrase names body ∧ u = .lam x body := by
  cases hu with
  | @lam x body hx hb =>
    simp only [phrase_lam, Phrase.lambda.injEq] at h
    exact ⟨x, body, hx, hb, h.1, h.2, rfl⟩
  | const _ => simp [phrase_const] at h
  | application _ hc _ _ => simp [phrase_application names hc] at h
  | cell _ _ => simp [phrase_cell] at h
  | int n => simp [phrase_int] at h
  | string text pooled => simp [phrase_string] at h

theorem Displayable.of_int {n : Int64} (hu : Displayable names u)
    (h : .row (.leaf (.ofInt n.toInt)) [] = phrase names u) : u = .literal (.int n) := by
  cases hu with
  | int m =>
    simp only [phrase_int, Phrase.row.injEq, Piece.leaf.injEq, and_true] at h
    rw [Int64.toInt_inj.1 (Leaf.ofInt_injective h)]
  | const _ => exact absurd h.symm (by simp [phrase_const, Leaf.ofName_ne_ofInt])
  | application _ hc hne _ => exact absurd h.symm (phrase_application_ne hc hne _)
  | cell _ _ => simp [phrase_cell] at h
  | lam _ _ => simp [phrase_lam] at h
  | string text pooled => simp [phrase_string, Leaf.ofInt_ne_string] at h

theorem Displayable.of_string {text : String} (hu : Displayable names u)
    (h : .row (.leaf (.string text)) [] = phrase names u) :
    ∃ pooled, u = .literal (.string text pooled) := by
  cases hu with
  | string other pooled =>
    simp only [phrase_string, Phrase.row.injEq, Piece.leaf.injEq, Leaf.string.injEq, and_true] at h
    exact ⟨pooled, by rw [h]⟩
  | const _ => exact absurd h.symm (by simp [phrase_const, Leaf.ofName_ne_string])
  | application _ hc hne _ => exact absurd h.symm (phrase_application_ne hc hne _)
  | cell _ _ => simp [phrase_cell] at h
  | lam _ _ => simp [phrase_lam] at h
  | int m => exact absurd h.symm (by simp [phrase_int, Leaf.ofInt_ne_string])

/-- A term whose arguments are set apart is told by its phrase. -/
theorem Displayable.same_of_phrase [Extensions] (hn : names.WellFormed) (ht : Displayable names t)
    (hu : Displayable names u) (hst : t.SetApart) (hsu : u.SetApart)
    (h : phrase names t = phrase names u) : t.same u = true := by
  induction ht generalizing u with
  | const hs =>
    rw [phrase_const] at h
    obtain ⟨s, hs', hname, rfl⟩ := hu.of_name h
    obtain rfl := hs.eq_of_leaf hn hs' hname
    simp [same]
  | @application s args hs hc hne ha ih =>
    rw [phrase_application names hc] at h
    obtain ⟨s', args', hs', hc', ha', hname, hargs, rfl⟩ := hu.of_row (argumentPieces_ne_nil hne) h
    obtain rfl := hs.eq_of_leaf hn hs' hname
    obtain ⟨hbare, hst⟩ := hst.of_application hc
    obtain ⟨hbare', hsu⟩ := hsu.of_application hc'
    have hsame := sameList_of_argumentPieces hn ha ha' hbare hbare'
      (fun t ht u hu => ih t ht (ha' u hu) (hst t ht) (hsu u hu)) hargs
    simp [same, hsame]
  | cell hf hr ihf ihr =>
    rw [phrase_cell] at h
    obtain ⟨first, rest, hf', hr', hfirst, hrest, rfl⟩ := hu.of_list h
    obtain ⟨hst, hst'⟩ := hst.of_cell
    obtain ⟨hsu, hsu'⟩ := hsu.of_cell
    exact Parse.same_cell (ihf hf' hst hsu hfirst) (ihr hr' hst' hsu' (Phrase.asTail_inj hrest))
  | lam hx hb ih =>
    rw [phrase_lam] at h
    obtain ⟨x, body, hx', hb', hname, hbody, rfl⟩ := hu.of_lambda h
    obtain rfl := hx.eq_of_leaf hn hx' hname
    simp [same, ih hb' hst.of_lam hsu.of_lam hbody]
  | int n =>
    rw [phrase_int] at h
    obtain rfl := hu.of_int h
    exact same_int n
  | string text pooled =>
    rw [phrase_string] at h
    obtain ⟨pooled', rfl⟩ := hu.of_string h
    exact same_string text pooled pooled'

theorem renderArgs_append (ts us : List Term) :
    renderArgs names (ts ++ us) = renderArgs names ts ++ renderArgs names us := by
  induction ts with
  | nil => rw [List.nil_append, renderArgs, String.empty_append]
  | cons t ts ih => simp only [List.cons_append, renderArgs, ih, String.append_assoc]

/-- A bare application of `::` shows as if its parts were arguments themselves. -/
theorem renderArgs_bareCons {args : List Term} (h : args.length ≠ 2) (front back : List Term) :
    renderArgs names (front ++ .app (.const Symbol.cons) args :: back) =
      renderArgs names (front ++ (.const Symbol.cons :: args ++ back)) := by
  have hbare : renderAt names .argument (.app (.const Symbol.cons) args) =
      renderAt names .argument (.const Symbol.cons) ++ renderArgs names args := by
    rw [renderAt_application_of names .argument fun _ => h]
    rfl
  simp only [renderArgs_append, renderArgs, List.cons_append, hbare, String.append_assoc]

end Term

/-- Terms show alike just when they have one phrase. If no argument is a bare application of `::`, the
text of a term tells it. -/
theorem Vocabulary.Reachable.render_eq_iff [Extensions] {v : Vocabulary} {t u : Term}
    (hv : v.Reachable) (ht : t.Displayable v.symbols) (hu : u.Displayable v.symbols) :
    (v.render t = v.render u ↔ t.phrase v.symbols = u.phrase v.symbols) ∧
      (t.SetApart → u.SetApart → v.render t = v.render u → t.same u = true) := by
  have hn := hv.wellFormed.symbols
  have hphrase : v.render t = v.render u ↔ t.phrase v.symbols = u.phrase v.symbols :=
    ht.renderAt_eq_iff hn hu
  exact ⟨hphrase, fun hst hsu h => ht.same_of_phrase hn hu hst hsu (hphrase.1 h)⟩

namespace Term

/-- The term `pi ((::) i) o`. -/
def bareArgument : Term := node ⟨8⟩ [node Symbol.cons [const ⟨22⟩], const ⟨23⟩]

/-- The term `pi (::) i o`. -/
def spreadArguments : Term := node ⟨8⟩ [const Symbol.cons, const ⟨22⟩, const ⟨23⟩]

section

attribute [local instance] Extensions.byBytes

/-- The argument `(::) i` runs into the one behind it. -/
theorem render_bareArgument :
    Vocabulary.initial.render bareArgument = "pi (::) i o" ∧
      bareArgument.phrase SymbolTable.initial = spreadArguments.phrase SymbolTable.initial ∧
      bareArgument.same spreadArguments = false ∧ spreadArguments.SetApart ∧
      ¬ bareArgument.SetApart := by
  have hname : ∀ {n : Nat} {name : String}, Symbol.wellKnown[n]? = some name → IsWord name →
      HasLexeme Vocabulary.initial.symbols ⟨n⟩ :=
    fun hn hw => ⟨_, SymbolTable.wellFormed_initial.name?_wellKnown hn, .inl hw⟩
  have hpi : HasLexeme Vocabulary.initial.symbols ⟨8⟩ := hname rfl (by decide +kernel)
  have hcons : HasLexeme Vocabulary.initial.symbols Symbol.cons := hname rfl (by decide +kernel)
  have hi : HasLexeme Vocabulary.initial.symbols ⟨22⟩ := hname rfl (by decide +kernel)
  have ho : HasLexeme Vocabulary.initial.symbols ⟨23⟩ := hname rfl (by decide +kernel)
  have hbare : bareArgument.Displayable Vocabulary.initial.symbols := by
    refine .application hpi (by decide) (by simp) ?_
    simp only [List.forall_mem_cons, List.not_mem_nil, false_imp_iff, implies_true, and_true]
    refine ⟨.application hcons (by decide) (by simp) ?_, .const ho⟩
    simpa using .const hi
  have hspread : spreadArguments.Displayable Vocabulary.initial.symbols := by
    refine .application hpi (by decide) (by simp) ?_
    simp only [List.forall_mem_cons, List.not_mem_nil, false_imp_iff, implies_true, and_true]
    exact ⟨.const hcons, .const hi, .const ho⟩
  have htext : Vocabulary.initial.render bareArgument = "pi (::) i o" := by decide +kernel
  have hother : Vocabulary.initial.render spreadArguments = "pi (::) i o" := by decide +kernel
  have hset : spreadArguments.SetApart := by
    refine .application (by decide) (by simp [IsBareCons]) ?_
    simp only [List.forall_mem_cons, List.not_mem_nil, false_imp_iff, implies_true, and_true]
    exact ⟨.const _, .const _, .const _⟩
  have hdiffer : bareArgument.same spreadArguments = false := by decide
  have hiff := Vocabulary.Reachable.initial.render_eq_iff hbare hspread
  have halike := htext.trans hother.symm
  refine ⟨htext, hiff.1.1 halike, hdiffer, hset, fun h => ?_⟩
  exact Bool.noConfusion (hdiffer.symm.trans (hiff.2 h hset halike))

end

end Term

end Clausal
