import Clausal.Proofs.CheckedSessions
import Clausal.Proofs.VocabularyIndependence

/-!
# Vocabularies only grow

Reading adds to a vocabulary and takes nothing away, whether or not it succeeds: what every addition keeps
holds of whatever a reading leaves behind. So symbols, definitions and pooled strings outlive every
reading, and terms that were built before are shown as before.
-/
namespace Clausal

/-- A property of vocabularies that every addition keeps. -/
structure Vocabulary.Lasting (K : Vocabulary → Prop) : Prop where
  add : ∀ {v : Vocabulary} (a : Addition), v.Reachable → K v → K (a.apply v)

variable {K : Vocabulary → Prop} {v : Vocabulary}

namespace Parse.Pairing

/-- Twice the same run, in vocabularies that have a lasting property. -/
def keeping (hK : Vocabulary.Lasting K) : Pairing :=
  { diagonal with
    admits := fun W => diagonal.admits W ∧ K W.left.vocabulary
    interchangeable := fun hW => diagonal.interchangeable hW.1
    admits_add := fun a hW => ⟨diagonal.admits_add a hW.1, hK.add a hW.1.2 hW.2⟩ }

variable {hK : Vocabulary.Lasting K} {loader : Loader}

theorem includes_keeping (hK : Vocabulary.Lasting K) (loader : Loader) :
    (keeping hK).Includes (keeping hK).comparison.alikeAccount loader where
  marks :=
    { seen_iff := fun d hW => marks_same.seen_iff d hW.1
      admits_mark := fun d hW => ⟨marks_same.admits_mark d hW.1, hW.2⟩ }
  loads := loads_of_spans_eq rfl
  passes := passes_alike
  enters := enters_alike _

theorem Keeps.holds {α : Type} {R : World → α → α → Prop} {p q : Parse α} {s : ParseState}
    (h : (keeping hK).Keeps ⟨s.moment, s.moment⟩ R p q) : K (p s).2.vocabulary := by
  obtain ⟨W, -, hW, hm, -⟩ := h.alone s rfl
  have hv : (p s).2.vocabulary = W.left.vocabulary := congrArg Moment.vocabulary hm
  exact hv ▸ hW.2

end Parse.Pairing

namespace Vocabulary.Lasting

open Parse.Pairing

variable (hK : Lasting K) (hv : v.Reachable) (h : K v)
include hK hv h

theorem parseText (loader : Loader) (source text : String) :
    K (Clausal.parseText v loader source text).2 :=
  (keeps_program (includes_keeping hK loader) ⟨⟨rfl, hv⟩, h⟩).holds (s := .initial v [] source text)

theorem parseUnits (loader : Loader) (names : List String) : K (Clausal.parseUnits v loader names).2 :=
  (declares_includeAll (includes_keeping hK loader) names ⟨⟨rfl, hv⟩, h⟩).holds
    (s := .initial v [] topLevel "")

theorem parseGoal (source text : String) : K (Clausal.parseGoal v source text).2 := by
  have hgoal : (keeping hK).comparison.Reads ⟨⟨v, []⟩, ⟨v, []⟩⟩ (keeping hK).comparison.alike
      Parse.goal Parse.goal := Parse.Comparison.reads_goal
  exact (hgoal ⟨⟨rfl, hv⟩, h⟩).holds (s := .initial v [] source text)

theorem defineOperators (operators : List (String × Fixity × Nat)) :
    K (v.defineOperators operators).2 := by
  induction operators generalizing v with
  | nil => exact h
  | cons o rest ih =>
    obtain ⟨name, fixity, precedence⟩ := o
    have hfirst := hK.add (.operator name fixity precedence) hv h
    have hfirst' := hv.defineOperator name fixity precedence
    rw [Addition.apply] at hfirst
    rw [Vocabulary.defineOperators]
    rcases hrun : v.defineOperator name fixity precedence with ⟨_ | _, w⟩ <;>
      rw [hrun] at hfirst hfirst'
    · exact hfirst
    · exact ih hfirst' hfirst

theorem parseTexts (texts : List String) : K (Baseline.parseTexts v texts).2 := by
  induction texts generalizing v with
  | nil => exact h
  | cons text rest ih =>
    have hfirst := hK.parseText hv h .disabled Baseline.sourceName text
    have hfirst' := (Parse.sound_parseText .disabled v Baseline.sourceName text).reachable hv
    rw [Baseline.parseTexts]
    rcases hrun : Clausal.parseText v .disabled Baseline.sourceName text with ⟨_ | _, w⟩ <;>
      rw [hrun] at hfirst hfirst'
    · exact hfirst
    · exact ih hfirst' hfirst

omit h in
/-- Loading the baseline sets the flag first, and from then on only adds. -/
theorem load (hbegun : K v.beginBootstrap.2) (config : Baseline.Config) :
    K (Baseline.load v config).vocabulary := by
  have hbegun' : v.beginBootstrap.2.Reachable := .bootstrap hv
  rw [Baseline.load]
  generalize v.beginBootstrap = begun at hbegun hbegun'
  obtain ⟨_ | _, u⟩ := begun
  · exact hbegun
  have hdefined := hK.defineOperators hbegun' hbegun baselineOperators
  have hdefined' := hbegun'.defineOperators baselineOperators
  dsimp only [Vocabulary.defineBaseline]
  rcases hdefine : u.defineOperators baselineOperators with ⟨_ | _, w⟩ <;>
    rw [hdefine] at hdefined hdefined'
  · exact hdefined
  have htexts := hK.parseTexts hdefined' hdefined (Baseline.texts config.variant)
  dsimp only
  rcases hparse : Baseline.parseTexts w (Baseline.texts config.variant) with ⟨_ | _, _⟩ <;>
    rw [hparse] at htexts <;> exact htexts

/-- What every addition keeps, and the flag and a minted constant do not break, is kept by every call. -/
theorem apply (hbegun : K v.beginBootstrap.2) (hconstant : K v.freshConstant.2) (call : Call) :
    K (call.apply v) := by
  cases call with
  | program loader source text => exact hK.parseText hv h loader source text
  | units loader names => exact hK.parseUnits hv h loader names
  | goal source text => exact hK.parseGoal hv h source text
  | term text => exact hK.parseGoal hv h "<term>" text
  | baseline config => exact hK.load hv hbegun config
  | constant => exact hconstant

end Vocabulary.Lasting

namespace SymbolTable

/-- The second table is the first with more in it. -/
structure GrowsInto (t u : SymbolTable) : Prop where
  names : t.names.toList <+: u.names.toList
  variableCount : t.variableCount ≤ u.variableCount
  constantCount : t.constantCount ≤ u.constantCount

namespace GrowsInto

variable {t u w : SymbolTable}

theorem refl (t : SymbolTable) : t.GrowsInto t :=
  ⟨List.prefix_rfl, Nat.le_refl _, Nat.le_refl _⟩

theorem trans (h : t.GrowsInto u) (g : u.GrowsInto w) : t.GrowsInto w where
  names := h.names.trans g.names
  variableCount := Nat.le_trans h.variableCount g.variableCount
  constantCount := Nat.le_trans h.constantCount g.constantCount

theorem intern (t : SymbolTable) (name : String) : t.GrowsInto (t.intern name).2 := by
  cases h : t.lookup name with
  | some s => rw [intern_of_lookup h]; exact refl t
  | none =>
    rw [intern_of_lookup_eq_none h]
    exact ⟨by simp, Nat.le_refl _, Nat.le_refl _⟩

theorem freshVariable (t : SymbolTable) : t.GrowsInto t.freshVariable.2 := by
  have hcounted : t.GrowsInto { t with variableCount := t.variableCount + 1 } :=
    ⟨List.prefix_rfl, Nat.le_succ _, Nat.le_refl _⟩
  exact hcounted.trans (intern _ _)

theorem freshConstant (t : SymbolTable) : t.GrowsInto t.freshConstant.2 := by
  have hcounted : t.GrowsInto { t with constantCount := t.constantCount + 1 } :=
    ⟨List.prefix_rfl, Nat.le_refl _, Nat.le_succ _⟩
  exact hcounted.trans (intern _ _)

theorem name? (h : t.GrowsInto u) {s : Symbol} {name : String} (hs : t.name? s = some name) :
    u.name? s = some name := by
  obtain ⟨more, hmore⟩ := h.names
  rw [SymbolTable.name?, ← Array.getElem?_toList] at hs ⊢
  obtain ⟨hlt, -⟩ := List.getElem?_eq_some_iff.1 hs
  rw [← hmore, List.getElem?_append_left hlt, hs]

theorem lookup (h : t.GrowsInto u) {name : String} {s : Symbol} (hs : t.lookup name = some s) :
    u.lookup name = some s := by
  obtain ⟨more, hmore⟩ := h.names
  obtain ⟨i, hi, rfl⟩ := Option.map_eq_some_iff.1 hs
  have hnames : u.names = t.names ++ more.toArray := by
    rw [← Array.toList_inj, Array.toList_append, hmore]
  rw [SymbolTable.lookup, hnames, Array.findIdx?_append, hi]
  rfl

end GrowsInto

end SymbolTable

namespace OperatorTable

variable {t t' : OperatorTable} {s : Symbol} {o : Operator}

theorem entries_define (h : t.define s o = .ok t') : t.entries <+: t'.entries := by
  unfold define at h
  split at h
  · obtain rfl := Except.ok.inj h
    exact List.prefix_append _ _
  · split_ifs at h
    obtain rfl := Except.ok.inj h
    exact List.prefix_rfl

/-- What is found first is found first in a longer list. -/
theorem find?_of_isPrefix {α : Type} {p : α → Bool} {xs ys : List α} {x : α} (h : xs <+: ys)
    (hx : xs.find? p = some x) : ys.find? p = some x := by
  obtain ⟨more, rfl⟩ := h
  rw [List.find?_append, hx]
  rfl

theorem lookup_of_isPrefix (h : t.entries <+: t'.entries) {p : Placement}
    (ho : t.lookup s p = some o) : t'.lookup s p = some o := by
  obtain ⟨e, he, rfl⟩ := Option.map_eq_some_iff.1 ho
  rw [lookup, find?_of_isPrefix h he]
  rfl

theorem first?_of_isPrefix (h : t.entries <+: t'.entries) (ho : t.first? s = some o) :
    t'.first? s = some o := by
  obtain ⟨e, he, rfl⟩ := Option.map_eq_some_iff.1 ho
  rw [first?, find?_of_isPrefix h he]
  rfl

end OperatorTable

namespace Vocabulary

/-- The second vocabulary is the first with more in it, each part grown at its end. -/
structure GrowsInto (v w : Vocabulary) : Prop where
  symbols : v.symbols.GrowsInto w.symbols
  operators : v.operators.entries <+: w.operators.entries
  strings : v.strings.toList <+: w.strings.toList
  bootstrapped : v.bootstrapped = true → w.bootstrapped = true

namespace GrowsInto

variable {u w : Vocabulary}

theorem refl (v : Vocabulary) : v.GrowsInto v :=
  ⟨.refl _, List.prefix_rfl, List.prefix_rfl, id⟩

theorem trans (h : u.GrowsInto v) (g : v.GrowsInto w) : u.GrowsInto w where
  symbols := h.symbols.trans g.symbols
  operators := h.operators.trans g.operators
  strings := h.strings.trans g.strings
  bootstrapped hb := g.bootstrapped (h.bootstrapped hb)

theorem begun (v : Vocabulary) : v.GrowsInto v.beginBootstrap.2 :=
  ⟨.refl _, List.prefix_rfl, List.prefix_rfl, fun _ => rfl⟩

theorem freshConstant (v : Vocabulary) : v.GrowsInto v.freshConstant.2 :=
  ⟨.freshConstant _, List.prefix_rfl, List.prefix_rfl, id⟩

theorem intern (v : Vocabulary) (name : String) : v.GrowsInto (v.intern name).2 :=
  ⟨.intern _ name, List.prefix_rfl, List.prefix_rfl, id⟩

theorem string (v : Vocabulary) (text : String) : v.GrowsInto (v.string text).2 := by
  unfold Vocabulary.string
  split_ifs
  · exact refl v
  · exact ⟨.refl _, List.prefix_rfl, by simp, id⟩

theorem defineOperator (v : Vocabulary) (name : String) (fixity : Fixity) (precedence : Int) :
    v.GrowsInto (v.defineOperator name fixity precedence).2 := by
  unfold Vocabulary.defineOperator
  split_ifs
  · exact refl v
  · have hname := intern v name
    dsimp only
    cases hd : (v.intern name).2.operators.define (v.intern name).1 ⟨fixity, precedence.toNat⟩ with
    | error old => exact hname
    | ok operators => exact { hname with operators := OperatorTable.entries_define hd }

theorem apply (v : Vocabulary) (a : Addition) : v.GrowsInto (a.apply v) := by
  cases a with
  | name n => exact intern v n
  | «variable» => exact ⟨.freshVariable _, List.prefix_rfl, List.prefix_rfl, id⟩
  | text t => exact string v t
  | operator n f p => exact defineOperator v n f p

theorem lasting (u : Vocabulary) : Lasting u.GrowsInto :=
  ⟨fun a _ h => h.trans (apply _ a)⟩

/-- Every call lets a vocabulary grow, also when it fails. -/
theorem call (hv : v.Reachable) (call : Call) : v.GrowsInto (call.apply v) :=
  (lasting v).apply hv (refl v) (begun v) (freshConstant v) call

/-- So does any number of calls. -/
theorem calls (hv : v.Reachable) (calls : List Call) :
    v.GrowsInto (calls.foldl Call.apply v) := by
  induction calls generalizing v with
  | nil => exact refl v
  | cons first rest ih => exact (call hv first).trans (ih ((Call.keeps v first).reachable hv))

end GrowsInto

end Vocabulary

namespace Term

mutual

/-- A term, in flat form or not, whose symbols all have the property. -/
def Over (symbols : Symbol → Prop) : Term → Prop
  | const s => symbols s
  | app head args => Over symbols head ∧ AllOver symbols args
  | lam x body => symbols x ∧ Over symbols body
  | literal _ | quoted _ => True

def AllOver (symbols : Symbol → Prop) : List Term → Prop
  | [] => True
  | t :: ts => Over symbols t ∧ AllOver symbols ts

end

variable {symbols : Symbol → Prop}

mutual

/-- A term matches itself, symbol by symbol. -/
theorem Over.matches {t : Term} (h : t.Over symbols) :
    t.Matches ⟨fun s u => s = u ∧ symbols s, Eq⟩ t := by
  match t, h with
  | const s, hs => exact ⟨rfl, hs⟩
  | app _ _, ⟨hhead, hargs⟩ => exact ⟨hhead.matches, hargs.matches⟩
  | lam _ _, ⟨hx, hbody⟩ => exact ⟨⟨rfl, hx⟩, hbody.matches⟩
  | literal _, _ => exact rfl
  | quoted _, _ => exact ⟨rfl, rfl, rfl⟩

theorem AllOver.matches {ts : List Term} (h : AllOver symbols ts) :
    MatchesAll ⟨fun s u => s = u ∧ symbols s, Eq⟩ ts ts := by
  match ts, h with
  | [], _ => trivial
  | _ :: _, ⟨ht, hts⟩ => exact ⟨ht.matches, hts.matches⟩

end

end Term

namespace Vocabulary

/-- What those who hold symbols, operators, strings and terms of the first vocabulary can still rely on in
the second. -/
structure Preserves (v w : Vocabulary) : Prop where
  /-- A symbol keeps its name. -/
  name : ∀ s name, v.symbols.name? s = some name → w.symbols.name? s = some name
  /-- A name keeps its symbol. -/
  symbol : ∀ name s, v.lookup name = some s → w.lookup name = some s
  operator : ∀ s p o, v.operators.lookup s p = some o → w.operators.lookup s p = some o
  earliest : ∀ s o, v.operators.first? s = some o → w.operators.first? s = some o
  string : ∀ text ∈ v.strings, text ∈ w.strings
  bootstrapped : v.bootstrapped = true → w.bootstrapped = true
  variableCount : v.symbols.variableCount ≤ w.symbols.variableCount
  constantCount : v.symbols.constantCount ≤ w.symbols.constantCount
  /-- A term over the symbols of the first is shown as before. -/
  shown : ∀ t : Term, (t.Over fun s => s.index < v.symbols.size) → w.render t = v.render t

theorem GrowsInto.render_eq {v w : Vocabulary} (h : v.GrowsInto w) {t : Term}
    (ht : t.Over fun s => s.index < v.symbols.size) : w.render t = v.render t := by
  refine (Term.renderAt_eq (m := ⟨fun s u => s = u ∧ s.index < v.symbols.size, Eq⟩) ⟨?_, ?_, ?_⟩
    ht.matches .alone).symm
  · rintro s _ ⟨rfl, hs⟩
    have hname := Array.getElem?_eq_getElem hs
    have hname' := h.symbols.name? (s := s) hname
    simp only [SymbolTable.name, SymbolTable.name?] at hname hname' ⊢
    rw [hname, hname']
  · rintro s _ ⟨rfl, -⟩
    exact Iff.rfl
  · rintro s _ ⟨rfl, -⟩
    exact Iff.rfl

theorem GrowsInto.preserves {v w : Vocabulary} (h : v.GrowsInto w) : v.Preserves w where
  name _ _ hs := h.symbols.name? hs
  symbol _ _ hs := h.symbols.lookup hs
  operator _ _ _ ho := OperatorTable.lookup_of_isPrefix h.operators ho
  earliest _ _ ho := OperatorTable.first?_of_isPrefix h.operators ho
  string _ ht := Array.mem_toList_iff.1 (h.strings.subset (Array.mem_toList_iff.2 ht))
  bootstrapped := h.bootstrapped
  variableCount := h.symbols.variableCount
  constantCount := h.symbols.constantCount
  shown _ ht := h.render_eq ht

/-- Whatever a call reads, and whether or not it succeeds, nothing of the vocabulary is lost. -/
theorem preserves_apply {v : Vocabulary} (hv : v.Reachable) (call : Call) :
    v.Preserves (call.apply v) :=
  (GrowsInto.call hv call).preserves

/-- A term that breaks off behind a fresh variable. -/
theorem preserves_brokenTerm :
    let v := (Vocabulary.initial.string "s").2
    (parseTerm v "f _ (").1.toOption.isNone = true ∧
      ((Call.term "f _ (").apply v).symbols.variableCount = 1 ∧
        v.Preserves ((Call.term "f _ (").apply v) := by
  have hfails : (parseTerm (Vocabulary.initial.string "s").2 "f _ (").1.toOption.isNone = true ∧
      ((Call.term "f _ (").apply (Vocabulary.initial.string "s").2).symbols.variableCount = 1 := by
    decide +kernel
  exact ⟨hfails.1, hfails.2, preserves_apply (.string "s" .initial) _⟩

end Vocabulary

end Clausal
