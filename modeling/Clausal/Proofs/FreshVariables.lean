import Clausal.Baseline
import Clausal.Proofs.NamedDeclarations

/-!
# Anonymous variables are fresh

A session reads texts, units, goals and terms with one vocabulary and may mint constants in between.
Whatever it reads, and whether or not the reading fails, each `_` and each part that a sequent lacks
receives a name that the table has not held before. No two of them share it, and no text can show it.
-/
namespace Clausal

open SymbolTable (Plain variableName constantName)

/-- A use of a vocabulary. -/
inductive Call where
  | program (loader : Loader) (source text : String)
  | units (loader : Loader) (names : List String)
  | goal (source text : String)
  | term (text : String)
  | baseline (config : Baseline.Config)
  /-- Minting a constant. -/
  | constant

/-- The vocabulary that a call leaves behind, also when it fails. -/
def Call.apply (v : Vocabulary) : Call → Vocabulary
  | program loader source text => (parseText v loader source text).2
  | units loader names => (parseUnits v loader names).2
  | goal source text => (parseGoal v source text).2
  | term text => (parseTerm v text).2
  | baseline config => (Baseline.load v config).vocabulary
  | constant => v.freshConstant.2

def session (calls : List Call) : Vocabulary := calls.foldl Call.apply .initial

/-- From one vocabulary to another, with the names that are written and minted on the way. -/
inductive Becomes : Vocabulary → List Naming → Vocabulary → Prop
  | refl (v : Vocabulary) : Becomes v [] v
  | begun (v : Vocabulary) : Becomes v [] v.beginBootstrap.2
  | declared {v : Vocabulary} {name : String} {fixity : Fixity} {precedence : Int}
      (h : ¬ (precedence < Precedence.lowest ∨ (Precedence.tightest : Int) < precedence)) :
      Becomes v [.written name] (v.defineOperator name fixity precedence).2
  | constant {v : Vocabulary} : Becomes v [.constant v.symbols] v.freshConstant.2
  | reads {α : Type} {p : Parse α} {s : ParseState} {E : List Naming} (h : Parse.Runs p s E) :
      Becomes s.vocabulary E (p.run s).2.vocabulary
  | trans {u v w : Vocabulary} {E F : List Naming} (h : Becomes u E v) (g : Becomes v F w) :
      Becomes u (E ++ F) w

theorem Becomes.leads {v w : Vocabulary} {E : List Naming} (h : Becomes v E w) :
    Naming.Leads v.symbols E w.symbols := by
  induction h with
  | refl | begun => exact .nil _
  | @declared v name fixity precedence h => exact .written name (v.symbols_defineOperator h ▸ .nil _)
  | constant => exact .constant (.nil _)
  | reads h => exact h.leads
  | trans _ _ ihh ihg => exact ihh.append ihg

/-- A vocabulary becomes another, and only plain names are written. -/
def Grows (v w : Vocabulary) : Prop := ∃ E, Becomes v E w ∧ Naming.AllPlain E

namespace Grows

variable {u v w : Vocabulary}

theorem refl (v : Vocabulary) : Grows v v := ⟨[], .refl v, Naming.allPlain_nil⟩

theorem trans (h : Grows u v) (g : Grows v w) : Grows u w := by
  obtain ⟨E, hE, hEplain⟩ := h
  obtain ⟨F, hF, hFplain⟩ := g
  exact ⟨E ++ F, hE.trans hF, Naming.allPlain_append hEplain hFplain⟩

/-- Reading a text. -/
theorem reads {α : Type} {p : Parse α} (hp : Parse.WritesPlain p) (v : Vocabulary)
    (seen : List Digest) (source text : String) :
    Grows v (p.run (.initial v seen source text)).2.vocabulary := by
  obtain ⟨E, hruns, hplain, -, -⟩ := hp (.initial v seen source text) (Scan.plain_ofText source text)
  exact ⟨E, .reads hruns, hplain⟩

theorem parseText (v : Vocabulary) (loader : Loader) (source text : String) :
    Grows v (parseText v loader source text).2 :=
  reads (.program loader) v [] source text

theorem parseGoal (v : Vocabulary) (source text : String) : Grows v (parseGoal v source text).2 :=
  reads .goal v [] source text

/-- Declaring operators with plain names at precedences that are in range. -/
theorem defineOperators {operators : List (String × Fixity × Nat)}
    (h : ∀ o ∈ operators, Plain o.1 ∧ ¬ ((o.2.2 : Int) < Precedence.lowest ∨
      (Precedence.tightest : Int) < o.2.2)) (v : Vocabulary) :
    Grows v (v.defineOperators operators).2 := by
  induction operators generalizing v with
  | nil => exact refl v
  | cons o rest ih =>
    obtain ⟨name, fixity, precedence⟩ := o
    obtain ⟨⟨hname, hrange⟩, hrest⟩ := List.forall_mem_cons.1 h
    have hfirst : Grows v (v.defineOperator name fixity precedence).2 :=
      ⟨_, .declared hrange, Naming.allPlain_written hname⟩
    rw [Vocabulary.defineOperators]
    rcases hrun : v.defineOperator name fixity precedence with ⟨_ | _, w⟩ <;> rw [hrun] at hfirst
    · exact hfirst
    · exact hfirst.trans (ih hrest w)

theorem parseTexts (texts : List String) (v : Vocabulary) :
    Grows v (Baseline.parseTexts v texts).2 := by
  induction texts generalizing v with
  | nil => exact refl v
  | cons text rest ih =>
    have hfirst := parseText v .disabled Baseline.sourceName text
    rw [Baseline.parseTexts]
    rcases hrun : Clausal.parseText v .disabled Baseline.sourceName text with ⟨_ | _, w⟩ <;>
      rw [hrun] at hfirst
    · exact hfirst
    · exact hfirst.trans (ih w)

theorem load (v : Vocabulary) (config : Baseline.Config) :
    Grows v (Baseline.load v config).vocabulary := by
  have hdeclared : ∀ o ∈ baselineOperators, ('-' ∉ o.1.toList ∨ '_' ∉ o.1.toList) ∧
      ¬ ((o.2.2 : Int) < Precedence.lowest ∨ (Precedence.tightest : Int) < o.2.2) := by
    decide
  have hbegun : Grows v v.beginBootstrap.2 := ⟨[], .begun v, Naming.allPlain_nil⟩
  rw [Baseline.load]
  rcases hbegin : v.beginBootstrap with ⟨_ | _, u⟩ <;> rw [hbegin] at hbegun
  · exact hbegun
  dsimp only
  have hoperators : Grows v u.defineBaseline.2 := hbegun.trans (defineOperators hdeclared u)
  rcases hdefine : u.defineBaseline with ⟨_ | _, w⟩ <;> rw [hdefine] at hoperators
  · exact hoperators
  dsimp only
  have htexts := hoperators.trans (parseTexts (Baseline.texts config.variant) w)
  rcases hparse : Baseline.parseTexts w (Baseline.texts config.variant) with ⟨_ | _, _⟩ <;>
    rw [hparse] at htexts <;> exact htexts

theorem apply (v : Vocabulary) (call : Call) : Grows v (call.apply v) := by
  cases call with
  | program loader source text => exact parseText v loader source text
  | units loader names => exact reads (.includeAll loader names) v [] topLevel ""
  | goal source text => exact parseGoal v source text
  | term text => exact parseGoal v "<term>" text
  | baseline config => exact load v config
  | constant => exact ⟨_, .constant, Naming.allPlain_constant _⟩

theorem foldl_apply (calls : List Call) (v : Vocabulary) : Grows v (calls.foldl Call.apply v) := by
  induction calls generalizing v with
  | nil => exact refl v
  | cons call rest ih => exact (apply v call).trans (ih _)

end Grows

/-- There is a text with a token of this kind. -/
def TokenKind.Shown (kind : TokenKind) : Prop :=
  ∃ source text n, ((Scan.ofText source text).get n).kind? = some kind

theorem TokenKind.Shown.plain {kind : TokenKind} (h : kind.Shown) : kind.Plain := by
  obtain ⟨source, text, n, hk⟩ := h
  exact (Scan.plain_ofText source text).get n kind hk

/-- The anonymous variables among what has led to a table are fresh. -/
structure Fresh (E : List Naming) (w : SymbolTable) : Prop where
  /-- There are as many as the table has counted. -/
  count : (E.filterMap Naming.anonymous?).length = w.variableCount
  /-- The name that one receives is new to the table, and remains its name. -/
  new : ∀ t, .anonymous t ∈ E → ∃ name, t.lookup name = none ∧ name ∉ t.names ∧
    w.name? t.freshVariable.1 = some name
  distinct : (E.filterMap Naming.anonymous?).Pairwise fun t u =>
    w.name? t.freshVariable.1 ≠ w.name? u.freshVariable.1
  /-- None is a name that has been written, before or after. -/
  ne_written : ∀ t name, .anonymous t ∈ E → .written name ∈ E →
    w.lookup name ≠ some t.freshVariable.1
  /-- None is a name that any text shows. -/
  ne_shown : ∀ t (kind : TokenKind) name, .anonymous t ∈ E → kind.Shown → kind.word? = some name →
    w.lookup name ≠ some t.freshVariable.1
  /-- None is a name that a shorthand makes of what any texts show. -/
  ne_shorthand : ∀ t nameSpace name, .anonymous t ∈ E → TokenKind.Shown (.ident nameSpace) →
    TokenKind.Shown (.ident name) → w.lookup (nameSpace ++ "." ++ name) ≠ some t.freshVariable.1 ∧
      w.lookup (Parse.lastSegment name) ≠ some t.freshVariable.1
  ne_constant : ∀ t u, .anonymous t ∈ E → .constant u ∈ E →
    w.name? u.freshConstant.1 ≠ w.name? t.freshVariable.1

/-- A plain name is not that of an anonymous variable. -/
theorem lookup_ne_of_plain {w : SymbolTable} {s : Symbol} {name : String} {n : Nat}
    (hn : Plain name) (hs : w.name? s = some (variableName n)) : w.lookup name ≠ some s := by
  intro h
  have hname := SymbolTable.name?_of_lookup h
  rw [hs] at hname
  have hplain := SymbolTable.plain_canonical hn
  rw [← Option.some.inj hname] at hplain
  exact SymbolTable.not_plain_variableName n hplain

theorem Naming.Leads.fresh {w : SymbolTable} {E : List Naming} (h : Leads .initial E w)
    (hE : AllPlain E) : Fresh E w := by
  have hspec := fun t (ht : .anonymous t ∈ E) =>
    h.anonymous_spec hE SymbolTable.orderly_initial ht
  refine ⟨?_, fun t ht => ?_, ?_, fun t name ht hn => ?_, fun t kind name ht hk hn => ?_,
    fun t nameSpace name ht hs hn => ?_, fun t u ht hu => ?_⟩
  · rw [h.variableCount_eq]
    exact (Nat.zero_add _).symm
  · obtain ⟨horderly, hname⟩ := hspec t ht
    exact ⟨_, horderly.lookup_variableName, horderly.variableName_notMem, hname⟩
  · refine h.anonymous_increasing.1.imp_of_mem fun {t u} ht hu hlt heq => ?_
    rw [(hspec t (mem_filterMap_anonymous.1 ht)).2, (hspec u (mem_filterMap_anonymous.1 hu)).2] at heq
    have := SymbolTable.variableName_injective (Option.some.inj heq)
    omega
  · exact lookup_ne_of_plain (hE name hn) (hspec t ht).2
  · exact lookup_ne_of_plain (hk.plain.name hn) (hspec t ht).2
  · have hqualified := Parse.hyphen_notMem_qualified hs.plain hn.plain
    have hlast := Parse.hyphen_notMem_lastSegment hn.plain
    exact ⟨lookup_ne_of_plain (.inl hqualified) (hspec t ht).2,
      lookup_ne_of_plain (.inl hlast) (hspec t ht).2⟩
  · rw [h.constant_spec hu, (hspec t ht).2]
    intro heq
    exact SymbolTable.variableName_ne_constantName _ _ (Option.some.inj heq).symm

end Clausal
