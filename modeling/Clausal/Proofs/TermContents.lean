import Clausal.Proofs.TermData
import Clausal.Proofs.TermTexts
import Clausal.Proofs.VocabularyGrowth

/-!
# What a term brings in

Reading a term changes a vocabulary by what the term contains and by nothing else: looking ahead, looking
for operators and reading lists leave no trace. What enters is read off the tree of the term.
-/
namespace Clausal

namespace Term

variable {x t u head : Term} {args : List Term} {s : Symbol} {text : String} {r : Relabeling}

/-- A constant or a binder in the term has the symbol. -/
def Mentions (t : Term) (s : Symbol) : Prop := (const s).Within t ∨ ∃ body, (lam s body).Within t

/-- A string literal in the term has the text. -/
def Quotes (t : Term) (text : String) : Prop := ∃ pooled, (literal (.string text pooled)).Within t

/-- What is no application is in an application if it is in a part of it. -/
theorem within_app_iff (hx : ∀ head args, x ≠ app head args) :
    x.Within (app head args) ↔ x.Within head ∨ ∃ t ∈ args, x.Within t := by
  constructor
  · intro h
    cases h with
    | refl => exact absurd rfl (hx head args)
    | head h => exact .inl h
    | arg ht h => exact .inr ⟨_, ht, h⟩
  · rintro (h | ⟨t, ht, h⟩)
    · exact .head h
    · exact .arg ht h

theorem within_applied_iff (hx : ∀ head args, x ≠ app head args) :
    x.Within (t.applied u) ↔ x.Within t ∨ x.Within u := by
  cases t with
  | app head args =>
    simp only [applied, within_app_iff hx, List.mem_append, List.mem_singleton, or_and_right, exists_or,
      exists_eq_left, or_assoc]
  | _ => simp only [applied, within_app_iff hx, List.mem_singleton, exists_eq_left]

theorem mentions_applied : (t.applied u).Mentions s ↔ t.Mentions s ∨ u.Mentions s := by
  have hlam : ∀ body head args, lam s body ≠ app head args := fun _ _ _ h => (by cases h)
  simp only [Mentions, within_applied_iff (hlam _), exists_or,
    within_applied_iff (x := const s) fun _ _ h => (by cases h)]
  exact or_or_or_comm

theorem quotes_applied : (t.applied u).Quotes text ↔ t.Quotes text ∨ u.Quotes text := by
  have hliteral : ∀ a head args, literal a ≠ app head args := fun _ _ _ h => (by cases h)
  simp only [Quotes, within_applied_iff (hliteral _), exists_or]

theorem mentions_const {s' : Symbol} : (const s').Mentions s ↔ s' = s := by
  constructor
  · rintro (h | ⟨_, h⟩) <;> cases h
    rfl
  · rintro rfl
    exact .inl .refl

theorem mentions_lam {binder : Symbol} : (lam binder t).Mentions s ↔ binder = s ∨ t.Mentions s := by
  constructor
  · rintro (h | ⟨_, h⟩)
    · cases h with
      | body h => exact .inr (.inl h)
    · cases h with
      | refl => exact .inl rfl
      | body h => exact .inr (.inr ⟨_, h⟩)
  · rintro (rfl | h | ⟨body, h⟩)
    · exact .inr ⟨t, .refl⟩
    · exact .inl h.body
    · exact .inr ⟨body, h.body⟩

theorem quotes_lam {binder : Symbol} : (lam binder t).Quotes text ↔ t.Quotes text := by
  constructor
  · rintro ⟨pooled, h⟩
    cases h with
    | body h => exact ⟨pooled, h⟩
  · rintro ⟨pooled, h⟩
    exact ⟨pooled, h.body⟩

theorem Within.relabeled (h : x.Within t) (r : Relabeling) : (x.relabeled r).Within (t.relabeled r) := by
  induction h with
  | refl => exact .refl
  | head _ ih => exact .head ih
  | arg ht _ ih =>
    refine .arg ?_ ih
    rw [relabeledAll_eq_map]
    exact List.mem_map_of_mem ht
  | body _ ih => exact .body ih

theorem exists_within_of_relabeled (h : x.Within (t.relabeled r)) :
    ∃ y : Term, y.Within t ∧ y.relabeled r = x := by
  generalize hu : t.relabeled r = u at h
  induction h generalizing t with
  | refl => exact ⟨t, .refl, hu⟩
  | head _ ih =>
    cases t with
    | app head args =>
      obtain ⟨y, hy, rfl⟩ := ih (Term.app.inj hu).1
      exact ⟨y, .head hy, rfl⟩
    | _ => cases hu
  | arg ht _ ih =>
    cases t with
    | app head args =>
      obtain ⟨-, rfl⟩ := Term.app.inj hu
      rw [relabeledAll_eq_map] at ht
      obtain ⟨t, htmem, rfl⟩ := List.mem_map.1 ht
      obtain ⟨y, hy, rfl⟩ := ih rfl
      exact ⟨y, .arg htmem hy, rfl⟩
    | _ => cases hu
  | body _ ih =>
    cases t with
    | lam binder body =>
      obtain ⟨y, hy, rfl⟩ := ih (Term.lam.inj hu).2
      exact ⟨y, .body hy, rfl⟩
    | _ => cases hu

theorem mentions_unlocated : (t.relabeled .unlocated).Mentions s ↔ t.Mentions s := by
  constructor
  · rintro (h | ⟨body, h⟩) <;> obtain ⟨y, hy, he⟩ := exists_within_of_relabeled h
    · cases y <;> cases he
      exact .inl hy
    · cases y <;> cases he
      exact .inr ⟨_, hy⟩
  · rintro (h | ⟨body, h⟩)
    · exact .inl (h.relabeled .unlocated)
    · exact .inr ⟨_, h.relabeled .unlocated⟩

theorem quotes_unlocated : (t.relabeled .unlocated).Quotes text ↔ t.Quotes text := by
  constructor
  · rintro ⟨pooled, h⟩
    obtain ⟨y, hy, he⟩ := exists_within_of_relabeled h
    cases y <;> cases he
    exact ⟨pooled, hy⟩
  · rintro ⟨pooled, h⟩
    exact ⟨pooled, h.relabeled .unlocated⟩

end Term

namespace SameParts

variable {t u : Term} {s : Symbol} {text : String}

theorem mentions_iff (h : SameParts t u) : t.Mentions s ↔ u.Mentions s := by
  have he : t.relabeled .unlocated = u.relabeled .unlocated := h
  rw [← Term.mentions_unlocated, he, Term.mentions_unlocated]

theorem quotes_iff (h : SameParts t u) : t.Quotes text ↔ u.Quotes text := by
  have he : t.relabeled .unlocated = u.relabeled .unlocated := h
  rw [← Term.quotes_unlocated, he, Term.quotes_unlocated]

end SameParts

namespace Vocabulary

/-- The second vocabulary is the first with what the term contains, in which there are so many anonymous
variables. -/
structure Gains (v : Vocabulary) (t : Term) (anonymous : Nat) (w : Vocabulary) : Prop where
  operators : w.operators = v.operators
  bootstrapped : w.bootstrapped = v.bootstrapped
  growsInto : v.GrowsInto w
  names : ∀ name, name ∈ w.symbols.names ↔
    name ∈ v.symbols.names ∨ ∃ s, t.Mentions s ∧ w.symbols.name? s = some name
  strings : ∀ text, text ∈ w.strings ↔ text ∈ v.strings ∨ t.Quotes text
  variableCount : w.symbols.variableCount = v.symbols.variableCount + anonymous
  constantCount : w.symbols.constantCount = v.symbols.constantCount

variable {u v w : Vocabulary} {t : Term}

theorem mem_names_of_name? {s : Symbol} {name : String} (h : v.symbols.name? s = some name) :
    name ∈ v.symbols.names := Array.mem_of_getElem? h

theorem GrowsInto.mem_names (h : v.GrowsInto w) {name : String} (hn : name ∈ v.symbols.names) :
    name ∈ w.symbols.names :=
  Array.mem_def.2 (h.symbols.names.subset (Array.mem_def.1 hn))

theorem mem_names_intern {name other : String} (h : other ∈ (v.intern name).2.symbols.names) :
    other ∈ v.symbols.names ∨ (v.intern name).2.symbols.name? (v.intern name).1 = some other := by
  cases hl : v.symbols.lookup name with
  | some s =>
    rw [intern, SymbolTable.intern_of_lookup hl] at h
    exact .inl h
  | none =>
    have hname : (v.intern name).2.symbols.name? (v.intern name).1 = some (Symbol.canonical name) :=
      SymbolTable.name?_intern v.symbols name
    rw [hname]
    rw [intern, SymbolTable.intern_of_lookup_eq_none hl] at h
    exact (Array.mem_push.1 h).imp_right fun he => congrArg some he.symm

theorem mem_strings_string {text other : String} :
    other ∈ (v.string text).2.strings ↔ other ∈ v.strings ∨ text = other := by
  unfold Vocabulary.string
  split_ifs with hmem
  · exact ⟨.inl, fun h => h.elim id fun he => he ▸ Array.contains_iff_mem.1 hmem⟩
  · exact Array.mem_push.trans (or_congr_right eq_comm)

namespace Gains

/-- Nothing enters for a term whose symbols were there. -/
theorem refl (v : Vocabulary) (h : ∀ text, ¬ t.Quotes text) : v.Gains t 0 v where
  operators := rfl
  bootstrapped := rfl
  growsInto := .refl v
  names _ := ⟨.inl, fun h => h.elim id fun ⟨_, _, hs⟩ => mem_names_of_name? hs⟩
  strings text := ⟨.inl, fun ht => ht.resolve_right (h text)⟩
  variableCount := rfl
  constantCount := rfl

theorem string (v : Vocabulary) (text : String) :
    v.Gains (.literal (v.string text).1) 0 (v.string text).2 := by
  have hquotes : ∀ other, (Term.literal (v.string text).1).Quotes other ↔ text = other := by
    intro other
    constructor
    · rintro ⟨pooled, h⟩
      cases h
      rfl
    · rintro rfl
      exact ⟨true, .refl⟩
  obtain ⟨strings, hs⟩ := v.string_snd text
  refine ⟨by rw [hs], by rw [hs], .string v text, fun name => ?_, fun other => ?_, by rw [hs]; rfl, by rw [hs]⟩
  · have hsame : (v.string text).2.symbols = v.symbols := by rw [hs]
    rw [hsame]
    exact ⟨.inl, fun h => h.elim id fun ⟨_, _, hn⟩ => mem_names_of_name? hn⟩
  · rw [hquotes, mem_strings_string]

theorem intern (v : Vocabulary) (name : String) :
    v.Gains (.const (v.intern name).1) 0 (v.intern name).2 := by
  have hgrows : v.GrowsInto (v.intern name).2 := .intern v name
  refine ⟨rfl, rfl, hgrows, fun other => ⟨fun h => ?_, fun h => ?_⟩, fun text => ⟨.inl, ?_⟩, ?_, ?_⟩
  · exact (mem_names_intern h).imp_right fun hs => ⟨_, Term.mentions_const.2 rfl, hs⟩
  · exact h.elim hgrows.mem_names fun ⟨_, _, hs⟩ => mem_names_of_name? hs
  · rintro (h | ⟨pooled, h⟩)
    · exact h
    · cases h
  all_goals
    cases hl : v.symbols.lookup name with
    | some s => simp only [Vocabulary.intern, SymbolTable.intern_of_lookup hl, Nat.add_zero]
    | none => simp only [Vocabulary.intern, SymbolTable.intern_of_lookup_eq_none hl, Nat.add_zero]

theorem freshVariable (v : Vocabulary) : v.Gains v.freshVariable.1 1 v.freshVariable.2 := by
  have hname := intern { v with symbols.variableCount := v.symbols.variableCount + 1 }
    (SymbolTable.variableName (v.symbols.variableCount + 1))
  exact { hname with
    growsInto := ⟨.freshVariable _, List.prefix_rfl, List.prefix_rfl, id⟩
    variableCount := hname.variableCount }

/-- What two terms bring in one after the other, a term brings in that contains just what they contain. -/
theorem trans {t u r : Term} {m n : Nat} {x : Vocabulary} (ht : v.Gains t m w) (hu : w.Gains u n x)
    (hmentions : ∀ s, r.Mentions s ↔ t.Mentions s ∨ u.Mentions s)
    (hquotes : ∀ text, r.Quotes text ↔ t.Quotes text ∨ u.Quotes text) : v.Gains r (m + n) x where
  operators := hu.operators.trans ht.operators
  bootstrapped := hu.bootstrapped.trans ht.bootstrapped
  growsInto := ht.growsInto.trans hu.growsInto
  names name := by
    constructor
    · intro h
      rcases (hu.names name).1 h with h | ⟨s, hs, hname⟩
      · rcases (ht.names name).1 h with h | ⟨s, hs, hname⟩
        · exact .inl h
        · exact .inr ⟨s, (hmentions s).2 (.inl hs), hu.growsInto.symbols.name? hname⟩
      · exact .inr ⟨s, (hmentions s).2 (.inr hs), hname⟩
    · rintro (h | ⟨s, -, hname⟩)
      · exact (ht.growsInto.trans hu.growsInto).mem_names h
      · exact mem_names_of_name? hname
  strings text := by rw [hu.strings, ht.strings, hquotes, or_assoc]
  variableCount := by rw [hu.variableCount, ht.variableCount, Nat.add_assoc]
  constantCount := hu.constantCount.trans ht.constantCount

theorem applied {t u : Term} {m n : Nat} {x : Vocabulary} (ht : v.Gains t m w) (hu : w.Gains u n x) :
    v.Gains (t.applied u) (m + n) x :=
  ht.trans hu (fun _ => Term.mentions_applied) fun _ => Term.quotes_applied

theorem lambda {n : Nat} (ht : v.Gains t n w) (name : String) :
    v.Gains (w.lambda name t).1 n (w.lambda name t).2 := by
  refine ht.trans (intern w name) (fun s => ?_) fun text => ?_
  · rw [Term.mentions_const]
    exact Term.mentions_lam.trans or_comm
  · refine Term.quotes_lam.trans ⟨.inl, fun h => h.elim id ?_⟩
    rintro ⟨pooled, h⟩
    cases h

theorem of_sameParts {n : Nat} (h : v.Gains t n w) {u : Term} (hu : SameParts u t) : v.Gains u n w :=
  { h with
    names := fun name => by simp only [h.names, hu.mentions_iff]
    strings := fun text => by rw [h.strings, hu.quotes_iff] }

end Gains

end Vocabulary

namespace SyntaxTree

/-- How many anonymous variables the tree has. -/
def anonymousCount : SyntaxTree → Nat
  | anonymous => 1
  | lambda _ body => body.anonymousCount
  | apply f a => f.anonymousCount + a.anonymousCount
  | symbol _ | name _ | literal .. | string _ | quotation _ => 0

/-- Building a tree brings in what its term contains. -/
theorem build_gains (a : SyntaxTree) (v : Vocabulary) :
    v.Gains (a.build v).1 a.anonymousCount (a.build v).2 := by
  induction a generalizing v with
  | symbol s | quotation q =>
    refine .refl v fun text ⟨pooled, h⟩ => ?_
    cases h
  | anonymous => exact .freshVariable v
  | name n => exact .intern v n
  | literal a ha =>
    refine .refl v fun text ⟨pooled, h⟩ => ?_
    cases h
    cases ha
  | string text => exact .string v text
  | lambda x body ih => exact (ih v).lambda x
  | apply f a ihf iha => exact (ihf v).applied (iha _)

end SyntaxTree

namespace Grammar

open Parse

/-- How many tokens are anonymous variables, and no operators or binders. -/
def anonymousCount (v : Vocabulary) : List TokenKind → Nat
  | [] => 0
  | k :: rest => anonymousCount v rest +
    if k = .ident "_" ∧ operatorSymbol? v k = none ∧ rest.headD .endOfInput ≠ .backslash then 1 else 0

/-- The anonymous variables of the tree that the part goes on with. -/
def Part.anonymousCount : Part → Nat
  | climb _ _ _ a | arguments a => a.anonymousCount
  | expression .. | operand _ | atom | elements => 0

variable {v : Vocabulary} {part : Part} {X Y : List TokenKind} {a : SyntaxTree}

theorem anonymousCount_cons_of_ne {k : TokenKind} (hk : k ≠ .ident "_") :
    Grammar.anonymousCount v (k :: X) = Grammar.anonymousCount v X := by
  rw [Grammar.anonymousCount, if_neg fun h => hk h.1, Nat.add_zero]

theorem anonymousCount_cons_of_operator {k : TokenKind} (hk : operatorSymbol? v k ≠ none) :
    Grammar.anonymousCount v (k :: X) = Grammar.anonymousCount v X := by
  rw [Grammar.anonymousCount, if_neg fun h => hk h.2.1, Nat.add_zero]

theorem operatorSymbol?_ne_none {k : TokenKind} {p : Placement} {e : Symbol × Operator}
    (hk : operatorAt? v p k = some e) : operatorSymbol? v k ≠ none := by
  intro hnone
  rw [operatorAt?, hnone] at hk
  cases hk

/-- A row that is followed by no backslash counts by itself. -/
theorem anonymousCount_append {C D : List TokenKind} (hD : D.headD .endOfInput ≠ .backslash) :
    Grammar.anonymousCount v (C ++ D) = Grammar.anonymousCount v C + Grammar.anonymousCount v D := by
  induction C with
  | nil => exact (Nat.zero_add _).symm
  | cons k C ih =>
    have hnext : (C ++ D).headD .endOfInput ≠ .backslash ↔ C.headD .endOfInput ≠ .backslash := by
      cases C with
      | nil => simpa using hD
      | cons _ _ => exact Iff.rfl
    simp only [List.cons_append, Grammar.anonymousCount, ih, hnext]
    omega

theorem Single.anonymousCount {k : TokenKind} (h : Single v k a) :
    Grammar.anonymousCount v [k] = a.anonymousCount := by
  cases h with
  | @name n hn =>
    rw [Grammar.anonymousCount, SyntaxTree.ofName]
    by_cases hname : n = "_"
    · rw [if_pos hname, if_pos ⟨by rw [hname], hn, by simp⟩]
      rfl
    · rw [if_neg hname, if_neg fun h => hname (TokenKind.ident.inj h.1)]
      rfl
  | _ =>
    rw [anonymousCount_cons_of_ne (by simp)]
    rfl

/-- The tokens begin with no backslash, and there are so many anonymous variables among them. -/
structure HasAnonymous (v : Vocabulary) (C : List TokenKind) (n : Nat) : Prop where
  head : C.headD .endOfInput ≠ .backslash
  count : Grammar.anonymousCount v C = n

namespace HasAnonymous

variable {C D : List TokenKind} {k : TokenKind} {m n : Nat}

theorem nil : HasAnonymous v [] 0 := ⟨by simp, rfl⟩

theorem append (h : HasAnonymous v C m) (g : HasAnonymous v D n) : HasAnonymous v (C ++ D) (m + n) := by
  refine ⟨?_, by rw [anonymousCount_append g.head, h.count, g.count]⟩
  cases C with
  | nil => exact g.head
  | cons _ _ => exact h.head

/-- A token that is no anonymous variable. -/
theorem cons (h : HasAnonymous v C n) (hk : k ≠ .ident "_" ∨ operatorSymbol? v k ≠ none) (hb : k ≠ .backslash) :
    HasAnonymous v (k :: C) n := by
  refine ⟨hb, ?_⟩
  rcases hk with hk | hk
  · rw [anonymousCount_cons_of_ne hk, h.count]
  · rw [anonymousCount_cons_of_operator hk, h.count]

theorem operator {p : Placement} {e : Symbol × Operator} (h : HasAnonymous v C n) (hk : operatorAt? v p k = some e) :
    HasAnonymous v (k :: C) n := by
  refine h.cons (.inr (operatorSymbol?_ne_none hk)) ?_
  rintro rfl
  rw [operatorAt?_of_name?_eq_none rfl] at hk
  cases hk

theorem brackets {o c : TokenKind} (h : HasAnonymous v C n) (ho : o.partner? = some c) :
    HasAnonymous v (o :: (C ++ [c])) n := by
  obtain ⟨hc, -, -⟩ := TokenKind.closesBracket_of_partner? ho
  have hclosing : HasAnonymous v [c] 0 := nil.cons (.inl fun he => by simp [he, TokenKind.closesBracket] at hc)
    fun he => by simp [he, TokenKind.closesBracket] at hc
  refine (h.append hclosing).cons (.inl ?_) ?_ <;> rintro rfl <;> cases ho

end HasAnonymous

/-- The anonymous variables of the tree are those of the tokens, and those that were there before. -/
theorem Derives.exists_hasAnonymous (h : Derives v part X a Y) :
    ∃ C n, X = C ++ Y ∧ HasAnonymous v C n ∧ part.anonymousCount + n = a.anonymousCount := by
  have hbrackets : ∀ {o c : TokenKind} {C Y : List TokenKind} {n : Nat}, o.partner? = some c →
      HasAnonymous v C n → ∃ D k, o :: (C ++ c :: Y) = D ++ Y ∧ HasAnonymous v D k ∧ k = n :=
    fun {o c C Y n} ho hC => ⟨o :: (C ++ [c]), n, by simp, hC.brackets ho, rfl⟩
  induction h with simp only [Part.anonymousCount, SyntaxTree.unary, SyntaxTree.binary, SyntaxTree.cell,
      SyntaxTree.nil, SyntaxTree.anonymousCount, Nat.zero_add, Nat.add_zero] at *
  | expression _ _ iho ihc =>
    obtain ⟨C, _, rfl, hC, rfl⟩ := iho
    obtain ⟨D, n, rfl, hD, hn⟩ := ihc
    exact ⟨C ++ D, _, by simp, hC.append hD, hn⟩
  | stop | noArgument => exact ⟨[], 0, rfl, .nil, rfl⟩
  | @after _ _ _ _ _ _ _ k _ _ h _ _ _ _ ih =>
    obtain ⟨C, n, rfl, hC, hn⟩ := ih
    obtain ⟨p, hk⟩ := operatorAt?_of_operatorBehind? h
    exact ⟨k :: C, n, rfl, hC.operator hk, hn⟩
  | @between _ _ _ _ _ _ _ _ _ k _ _ h _ _ _ _ _ ihe ihd =>
    obtain ⟨C, _, rfl, hC, rfl⟩ := ihe
    obtain ⟨D, n, rfl, hD, hn⟩ := ihd
    obtain ⟨p, hk⟩ := operatorAt?_of_operatorBehind? h
    exact ⟨k :: (C ++ D), _, by simp, (hC.append hD).operator hk, by omega⟩
  | @before _ _ _ _ k _ _ h _ _ ih =>
    obtain ⟨C, n, rfl, hC, hn⟩ := ih
    exact ⟨k :: C, n, rfl, hC.operator (operatorAt?_of_operatorBefore? h), hn⟩
  | application _ _ _ iha ihs =>
    obtain ⟨C, _, rfl, hC, rfl⟩ := iha
    obtain ⟨D, n, rfl, hD, hn⟩ := ihs
    exact ⟨C ++ D, _, by simp, hC.append hD, hn⟩
  | argument _ _ _ _ ihb ihs =>
    obtain ⟨C, _, rfl, hC, rfl⟩ := ihb
    obtain ⟨D, n, rfl, hD, hn⟩ := ihs
    exact ⟨C ++ D, _, by simp, hC.append hD, by omega⟩
  | @single _ _ k h _ => exact ⟨[k], _, rfl, ⟨by cases h <;> simp, rfl⟩, h.anonymousCount⟩
  | @lambda _ _ _ x _ ih =>
    obtain ⟨C, n, rfl, hC, hn⟩ := ih
    refine ⟨.ident x :: .backslash :: C, n, rfl, ⟨by simp, ?_⟩, hn⟩
    rw [Grammar.anonymousCount, if_neg fun h => h.2.2 rfl, anonymousCount_cons_of_ne (by simp), hC.count,
      Nat.add_zero]
  | @lone _ k s h =>
    have hk : k ≠ .backslash := by
      rintro rfl
      cases h
    have hinner : HasAnonymous v [k] 0 := HasAnonymous.nil.cons (.inr (h ▸ Option.some_ne_none _)) hk
    exact hbrackets rfl hinner
  | group _ _ ih | list _ _ ih | spill _ ih =>
    obtain ⟨C, _, rfl, hC, rfl⟩ := ih
    exact hbrackets rfl hC
  | nil => exact hbrackets (C := []) rfl .nil
  | more _ _ ihe ihs | tail _ _ ihe ihs =>
    obtain ⟨C, _, rfl, hC, rfl⟩ := ihe
    obtain ⟨D, _, rfl, hD, rfl⟩ := ihs
    exact ⟨_, _, (List.append_assoc C (.symbolic _ :: D) _).symm,
      hC.append (hD.cons (.inl (by simp)) (by simp)), rfl⟩
  | last _ _ _ ih => exact ih

end Grammar

/-- What a goal that is read brings in is what its term contains. -/
theorem gains_of_parseGoal {v w : Vocabulary} (hv : v.Reachable) {source text : String} {g : Goal}
    (h : parseGoal v source text = (.ok g, w)) :
    ∃ kinds, (Scan.ofText source text).ConsistsOf kinds ∧
      v.Gains g.term (Grammar.anonymousCount v kinds) w := by
  obtain ⟨kinds, a, Y, hkinds, ha, hY, hsame, rfl⟩ := derives_of_parseGoal hv.wellFormed h
  have hcount : Grammar.anonymousCount v kinds = a.anonymousCount := by
    obtain ⟨C, n, rfl, hC, hn⟩ := ha.exists_hasAnonymous
    rw [Grammar.Part.anonymousCount, Nat.zero_add] at hn
    rcases hY with rfl | rfl
    · rw [List.append_nil, hC.count, hn]
    · rw [Grammar.anonymousCount_append (by simp), hC.count, hn]
      rfl
  exact ⟨kinds, hkinds, hcount ▸ (a.build_gains v).of_sameParts hsame⟩

/-- Reading a goal or a term leaves the operators and the mark of the bootstrap as they are. The names that
enter are those of the constants and binders in the term, the strings that enter are those in the term,
and there are as many further variables as anonymous variables in the text. -/
theorem parse_gains {v : Vocabulary} (hv : v.Reachable) :
    (∀ source text g w, parseGoal v source text = (.ok g, w) →
      ∃ kinds, (Scan.ofText source text).ConsistsOf kinds ∧
        v.Gains g.term (Grammar.anonymousCount v kinds) w) ∧
    ∀ text t w, parseTerm v text = (.ok t, w) →
      ∃ kinds, (Scan.ofText "<term>" text).ConsistsOf kinds ∧
        v.Gains t (Grammar.anonymousCount v kinds) w := by
  refine ⟨fun source text g w h => gains_of_parseGoal hv h, fun text t w h => ?_⟩
  obtain ⟨g, hg, rfl⟩ := parseGoal_of_parseTerm h
  exact gains_of_parseGoal hv hg

/-- The binder, the constant and the variable enter, and the string. -/
theorem parse_gains_lambda : ∃ t w kinds, parseTerm .initial "x\\ f _ \"s\"" = (.ok t, w) ∧
    (Scan.ofText "<term>" "x\\ f _ \"s\"").ConsistsOf kinds ∧
      Vocabulary.initial.Gains t (Grammar.anonymousCount .initial kinds) w ∧
      ((w.symbols.names.toList.drop 24, w.strings, w.symbols.variableCount) =
        (["f", "_-1", "x"], #["s"], 1)) := by
  have hread : (parseTerm .initial "x\\ f _ \"s\"").1.toOption.isSome = true ∧
      (((parseTerm .initial "x\\ f _ \"s\"").2.symbols.names.toList.drop 24,
        (parseTerm .initial "x\\ f _ \"s\"").2.strings,
        (parseTerm .initial "x\\ f _ \"s\"").2.symbols.variableCount) =
          (["f", "_-1", "x"], #["s"], 1)) := by
    decide +kernel
  rcases hrun : parseTerm .initial "x\\ f _ \"s\"" with ⟨e | t, w⟩ <;> rw [hrun] at hread
  · cases hread.1
  · obtain ⟨kinds, hkinds, hgains⟩ := (parse_gains .initial).2 _ t w hrun
    exact ⟨t, w, kinds, rfl, hkinds, hgains, hread.2⟩

end Clausal
