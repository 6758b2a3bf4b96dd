import Clausal.Proofs.MintedNames
import Clausal.Proofs.VocabularyGrowth
import Mathlib.Data.List.Induction
import Mathlib.Data.List.Perm.Subperm

/-!
# Names and their symbols

A table of names is asked for the symbols of names and for fresh ones. Whatever it has been asked, it
answers alike for two names just when they have one canonical form, keeps to every answer it has given,
and never mints a symbol twice.
-/
namespace Clausal

open SymbolTable (variableName constantName)

/-- What a table can be asked for. -/
inductive NameRequest where
  | intern (name : String)
  | lookup (name : String)
  | freshVariable
  | freshConstant
  deriving DecidableEq, Repr

namespace NameRequest

/-- The symbol that is given, if any, and the table that is left. -/
def answer (t : SymbolTable) : NameRequest → Option Symbol × SymbolTable
  | intern name => (some (t.intern name).1, (t.intern name).2)
  | lookup name => (t.lookup name, t)
  | freshVariable => (some t.freshVariable.1, t.freshVariable.2)
  | freshConstant => (some t.freshConstant.1, t.freshConstant.2)

/-- Whether the request is for a name that has not been given before. -/
def isFresh : NameRequest → Bool
  | freshVariable | freshConstant => true
  | intern _ | lookup _ => false

end NameRequest

/-- A table with the requests so far and what has been answered. -/
structure NameLog where
  history : List (NameRequest × Option Symbol)
  table : SymbolTable

namespace NameLog

def initial : NameLog := ⟨[], .initial⟩

def ask (l : NameLog) (r : NameRequest) : NameLog :=
  ⟨l.history ++ [(r, (r.answer l.table).1)], (r.answer l.table).2⟩

/-- The log of these requests to a new table. -/
def run (requests : List NameRequest) : NameLog := requests.foldl ask initial

theorem run_append (requests more : List NameRequest) :
    run (requests ++ more) = more.foldl ask (run requests) := List.foldl_append

theorem run_concat (requests : List NameRequest) (r : NameRequest) :
    run (requests ++ [r]) = (run requests).ask r := run_append requests [r]

end NameLog

namespace SymbolTable

variable {t u : SymbolTable}

theorem WellFormed.counted (h : t.WellFormed) (m n : Nat) :
    ({ t with variableCount := m, constantCount := n } : SymbolTable).WellFormed :=
  ⟨h.distinct, h.canonical, h.wellKnown⟩

theorem WellFormed.answer (h : t.WellFormed) (r : NameRequest) : (r.answer t).2.WellFormed := by
  cases r with
  | intern name => exact h.intern name
  | lookup name => exact h
  | freshVariable => exact (h.counted (t.variableCount + 1) t.constantCount).intern _
  | freshConstant => exact (h.counted t.variableCount (t.constantCount + 1)).intern _

theorem growsInto_answer (t : SymbolTable) (r : NameRequest) : t.GrowsInto (r.answer t).2 := by
  cases r with
  | intern name => exact .intern t name
  | lookup name => exact .refl t
  | freshVariable => exact .freshVariable t
  | freshConstant => exact .freshConstant t

theorem canonical_eq_of_lookup {a b : String} {s : Symbol} (ha : t.lookup a = some s)
    (hb : t.lookup b = some s) : Symbol.canonical a = Symbol.canonical b :=
  Option.some.inj ((name?_of_lookup ha).symm.trans (name?_of_lookup hb))

/-- A name that enters the table has the next symbol. -/
theorem lt_size_intern {name : String} {i : Nat} (h : i < (t.intern name).2.size) :
    i < t.size ∨ (t.intern name).1 = ⟨i⟩ := by
  cases hl : t.lookup name with
  | some s => exact .inl (by simpa [intern_of_lookup hl] using h)
  | none =>
    simp only [intern_of_lookup_eq_none hl, size, Array.size_push, Symbol.mk.injEq] at h ⊢
    omega

theorem lt_size_answer {r : NameRequest} {i : Nat} (h : i < (r.answer t).2.size) :
    i < t.size ∨ (r.answer t).1 = some ⟨i⟩ := by
  cases r with
  | intern name => exact (lt_size_intern h).imp_right (congrArg some)
  | lookup name => exact .inl h
  | freshVariable => exact (lt_size_intern h).imp_right (congrArg some)
  | freshConstant => exact (lt_size_intern h).imp_right (congrArg some)

/-- The name is among those that have been minted so far. -/
def Counted (t : SymbolTable) (name : String) : Prop :=
  (∃ n < t.variableCount, name = variableName (n + 1)) ∨
    ∃ n < t.constantCount, name = constantName (n + 1)

theorem Counted.mono {name : String} (h : t.Counted name) (hg : t.GrowsInto u) : u.Counted name :=
  h.imp (fun ⟨n, hn, hname⟩ => ⟨n, Nat.lt_of_lt_of_le hn hg.variableCount, hname⟩)
    fun ⟨n, hn, hname⟩ => ⟨n, Nat.lt_of_lt_of_le hn hg.constantCount, hname⟩

theorem Counted.not_plain {name : String} (h : t.Counted name) : ¬ Plain name := by
  obtain ⟨n, -, rfl⟩ | ⟨n, -, rfl⟩ := h
  · exact not_plain_variableName _
  · exact not_plain_constantName _

theorem constantName_injective {m n : Nat} (h : constantName m = constantName n) : m = n := by
  refine variableName_injective (String.toList_inj.1 ?_)
  have hs := congrArg String.toList h
  simpa [constantName, variableName] using hs

theorem counted_variableName_iff {n : Nat} :
    t.Counted (variableName (n + 1)) ↔ n < t.variableCount := by
  constructor
  · rintro (⟨m, hm, heq⟩ | ⟨m, hm, heq⟩)
    · have := variableName_injective heq
      omega
    · exact absurd heq (variableName_ne_constantName _ _)
  · exact fun h => .inl ⟨n, h, rfl⟩

theorem counted_constantName_iff {n : Nat} :
    t.Counted (constantName (n + 1)) ↔ n < t.constantCount := by
  constructor
  · rintro (⟨m, hm, heq⟩ | ⟨m, hm, heq⟩)
    · exact absurd heq.symm (variableName_ne_constantName _ _)
    · have := constantName_injective heq
      omega
  · exact fun h => .inr ⟨n, h, rfl⟩

theorem constantCount_intern (t : SymbolTable) (name : String) :
    (t.intern name).2.constantCount = t.constantCount := by
  cases h : t.lookup name with
  | some s => rw [intern_of_lookup h]
  | none => rw [intern_of_lookup_eq_none h]

theorem constantCount_freshVariable (t : SymbolTable) :
    t.freshVariable.2.constantCount = t.constantCount :=
  constantCount_intern _ _

theorem constantCount_freshConstant (t : SymbolTable) :
    t.freshConstant.2.constantCount = t.constantCount + 1 :=
  constantCount_intern _ _

/-- A name that is counted after a request was counted before it, or is that of the answer. -/
theorem counted_answer {r : NameRequest} {name : String} (h : (r.answer t).2.Counted name) :
    t.Counted name ∨ (r.answer t).2.lookup name = (r.answer t).1 := by
  cases r with
  | intern other =>
    refine .inl ?_
    simpa [Counted, NameRequest.answer, Addition.variableCount_intern, constantCount_intern] using h
  | lookup other => exact .inl h
  | freshVariable =>
    simp only [Counted, NameRequest.answer, variableCount_freshVariable,
      constantCount_freshVariable] at h
    obtain ⟨n, hn, rfl⟩ | hconstant := h
    · obtain hlt | rfl := Nat.lt_succ_iff_lt_or_eq.1 hn
      · exact .inl (counted_variableName_iff.2 hlt)
      · exact .inr (lookup_intern_self _ _)
    · exact .inl (.inr hconstant)
  | freshConstant =>
    simp only [Counted, NameRequest.answer, variableCount_freshConstant,
      constantCount_freshConstant] at h
    obtain hvariable | ⟨n, hn, rfl⟩ := h
    · exact .inl (.inl hvariable)
    · obtain hlt | rfl := Nat.lt_succ_iff_lt_or_eq.1 hn
      · exact .inl (counted_constantName_iff.2 hlt)
      · exact .inr (lookup_intern_self _ _)

/-- A name is minted that has not been counted. -/
theorem exists_minted {r : NameRequest} (hr : r.isFresh = true) :
    ∃ name, ¬ t.Counted name ∧ (r.answer t).2.Counted name ∧
      (r.answer t).2.lookup name = (r.answer t).1 := by
  cases r with
  | intern name | lookup name => cases hr
  | freshVariable =>
    refine ⟨_, fun h => Nat.lt_irrefl _ (counted_variableName_iff.1 h), ?_, lookup_intern_self _ _⟩
    rw [counted_variableName_iff]
    exact Nat.lt_of_lt_of_eq (Nat.lt_succ_self _) t.variableCount_freshVariable.symm
  | freshConstant =>
    refine ⟨_, fun h => Nat.lt_irrefl _ (counted_constantName_iff.1 h), ?_, lookup_intern_self _ _⟩
    rw [counted_constantName_iff]
    exact Nat.lt_of_lt_of_eq (Nat.lt_succ_self _) t.constantCount_freshConstant.symm

/-- The symbol is one that the request may have been answered with. -/
def Gives (t : SymbolTable) (s : Symbol) : NameRequest → Prop
  | .intern name | .lookup name => t.lookup name = some s
  | .freshVariable | .freshConstant => ∃ name, t.Counted name ∧ t.lookup name = some s

theorem Gives.mono {s : Symbol} {r : NameRequest} (h : t.Gives s r) (hg : t.GrowsInto u) :
    u.Gives s r := by
  cases r with
  | intern name | lookup name => exact hg.lookup h
  | freshVariable | freshConstant =>
    obtain ⟨name, hname, hs⟩ := h
    exact ⟨name, hname.mono hg, hg.lookup hs⟩

theorem Gives.index_lt {s : Symbol} {r : NameRequest} (h : t.Gives s r) : s.index < t.size := by
  cases r with
  | intern name | lookup name => exact index_lt_of_lookup h
  | freshVariable | freshConstant =>
    obtain ⟨name, -, hs⟩ := h
    exact index_lt_of_lookup hs

theorem Gives.exists_counted {s : Symbol} {r : NameRequest} (h : t.Gives s r) (hr : r.isFresh = true) :
    ∃ name, t.Counted name ∧ t.lookup name = some s := by
  cases r with
  | intern name | lookup name => cases hr
  | freshVariable | freshConstant => exact h

theorem gives_answer {r : NameRequest} {s : Symbol} (h : (r.answer t).1 = some s) :
    (r.answer t).2.Gives s r := by
  cases hr : r.isFresh with
  | true =>
    obtain ⟨name, -, hname, hlookup⟩ := exists_minted (t := t) hr
    cases r with
    | intern name | lookup name => cases hr
    | freshVariable | freshConstant => exact ⟨name, hname, hlookup.trans h⟩
  | false =>
    cases r with
    | intern name => exact (lookup_intern_self t name).trans h
    | lookup name => exact h
    | freshVariable | freshConstant => cases hr

/-- A symbol that is minted is not one that has been minted before. -/
theorem minted_ne {r r' : NameRequest} {s s' : Symbol} (h : t.Gives s r) (hr : r.isFresh = true)
    (hr' : r'.isFresh = true) (hs' : (r'.answer t).1 = some s') : s ≠ s' := by
  rintro rfl
  obtain ⟨old, hold, hlookup⟩ := h.exists_counted hr
  obtain ⟨new, hnot, hnew, hlookup'⟩ := exists_minted (t := t) hr'
  have heq := canonical_eq_of_lookup ((t.growsInto_answer r').lookup hlookup) (hlookup'.trans hs')
  rw [canonical_of_not_plain hold.not_plain, canonical_of_not_plain hnew.not_plain] at heq
  exact hnot (heq ▸ hold)

end SymbolTable

namespace NameLog

open SymbolTable

/-- The table is well formed and stands by the answers in the log. -/
structure Sound (l : NameLog) : Prop where
  wellFormed : l.table.WellFormed
  answered : ∀ r s, (r, some s) ∈ l.history → l.table.Gives s r
  /-- Only a look-up can go without an answer. -/
  unanswered : ∀ r, (r, none) ∈ l.history → ∃ name, r = .lookup name
  /-- Every symbol is that of a well-known name or has been given in answer. -/
  given : ∀ i < l.table.size, i < Symbol.wellKnown.length ∨ ∃ r, (r, some ⟨i⟩) ∈ l.history
  minted : ∀ name, l.table.Counted name → ∃ s, l.table.lookup name = some s
  fresh : (l.history.filter fun e => e.1.isFresh).Pairwise fun e e' => e.2 ≠ e'.2

theorem sound_initial : Sound initial where
  wellFormed := wellFormed_initial
  answered r s h := by cases h
  unanswered r h := by cases h
  given i hi := .inl hi
  minted name h := by
    obtain ⟨n, hn, -⟩ | ⟨n, hn, -⟩ := h
    · exact absurd hn (Nat.not_lt_zero n)
    · exact absurd hn (Nat.not_lt_zero n)
  fresh := .nil

theorem mem_history_ask {l : NameLog} {r r' : NameRequest} {o : Option Symbol} :
    (r', o) ∈ (l.ask r).history ↔ (r', o) ∈ l.history ∨ r' = r ∧ o = (r.answer l.table).1 := by
  simp [ask]

/-- One request keeps a log sound. -/
theorem Sound.ask {l : NameLog} (h : l.Sound) (r : NameRequest) : (l.ask r).Sound where
  wellFormed := h.wellFormed.answer r
  answered r' s hmem := by
    obtain hold | ⟨rfl, hs⟩ := mem_history_ask.1 hmem
    · exact (h.answered r' s hold).mono (l.table.growsInto_answer r)
    · exact gives_answer hs.symm
  unanswered r' hmem := by
    obtain hold | ⟨rfl, hs⟩ := mem_history_ask.1 hmem
    · exact h.unanswered r' hold
    · cases r' with
      | lookup name => exact ⟨name, rfl⟩
      | intern name | freshVariable | freshConstant => cases hs
  given i hi := by
    obtain hold | hs := lt_size_answer hi
    · exact (h.given i hold).imp_right fun ⟨r', hr'⟩ => ⟨r', mem_history_ask.2 (.inl hr')⟩
    · exact .inr ⟨r, mem_history_ask.2 (.inr ⟨rfl, hs.symm⟩)⟩
  minted name hname := by
    obtain hold | hs := counted_answer hname
    · exact (h.minted name hold).imp fun _ => (l.table.growsInto_answer r).lookup
    · cases ho : (r.answer l.table).1 with
      | some s => exact ⟨s, hs.trans ho⟩
      | none =>
        -- A look-up counts nothing.
        cases r with
        | lookup other => exact h.minted name hname
        | intern other | freshVariable | freshConstant => cases ho
  fresh := by
    simp only [NameLog.ask, List.filter_append]
    refine List.pairwise_append.2
      ⟨h.fresh, (List.pairwise_singleton _ _).sublist List.filter_sublist, ?_⟩
    rintro ⟨r', o⟩ hold ⟨_, _⟩ hnew
    obtain ⟨hmem, hr'⟩ := List.mem_filter.1 hold
    obtain ⟨hlast, hr⟩ := List.mem_filter.1 hnew
    obtain ⟨rfl, rfl⟩ := Prod.mk.inj (List.mem_singleton.1 hlast)
    cases o with
    | none =>
      obtain ⟨name, rfl⟩ := h.unanswered r' hmem
      cases hr'
    | some s => exact fun heq => minted_ne (h.answered r' s hmem) hr' hr heq.symm rfl

theorem sound_run (requests : List NameRequest) : (run requests).Sound := by
  induction requests using List.reverseRecOn with
  | nil => exact sound_initial
  | append_singleton requests r ih => exact run_concat requests r ▸ ih.ask r

variable {l : NameLog} {s u : Symbol} {a b : String}

theorem Sound.lookup_of_intern (h : l.Sound) (ha : (.intern a, some s) ∈ l.history) :
    l.table.lookup a = some s :=
  h.answered _ _ ha

/-- Two names have one symbol just when they are two spellings of one name. -/
theorem Sound.eq_iff_canonical_eq (h : l.Sound) (ha : (.intern a, some s) ∈ l.history)
    (hb : (.intern b, some u) ∈ l.history) : s = u ↔ Symbol.canonical a = Symbol.canonical b := by
  have hs := h.lookup_of_intern ha
  have hu := h.lookup_of_intern hb
  constructor
  · rintro rfl
    exact canonical_eq_of_lookup hs hu
  · intro heq
    rw [← lookup_canonical, heq, lookup_canonical, hu] at hs
    exact (Option.some.inj hs).symm

/-- The symbols of the table are those of the well-known names and those that have been given. -/
theorem Sound.index_lt_iff (h : l.Sound) :
    s.index < l.table.size ↔
      s.index < Symbol.wellKnown.length ∨ ∃ r, (r, some s) ∈ l.history := by
  constructor
  · exact h.given s.index
  · rintro (hlt | ⟨r, hr⟩)
    · exact Nat.lt_of_lt_of_le hlt h.wellFormed.wellKnown.length_le
    · exact (h.answered r s hr).index_lt

theorem Sound.index_lt_iff_lookup (h : l.Sound) :
    s.index < l.table.size ↔ ∃ name, l.table.lookup name = some s := by
  constructor
  · intro hlt
    exact ⟨_, h.wellFormed.lookup_of_name? (Array.getElem?_eq_getElem hlt)⟩
  · rintro ⟨name, hs⟩
    exact index_lt_of_lookup hs

/-- The names that have been minted, and the well-known ones. -/
def reservedNames (t : SymbolTable) : List String :=
  Symbol.wellKnown ++ ((List.range t.variableCount).map (fun n => variableName (n + 1)) ++
    (List.range t.constantCount).map fun n => constantName (n + 1))

theorem nodup_reservedNames (t : SymbolTable) : (reservedNames t).Nodup := by
  have hvariables : ((List.range t.variableCount).map fun n => variableName (n + 1)).Nodup :=
    List.nodup_range.map fun m n h => Nat.succ.inj (variableName_injective h)
  have hconstants : ((List.range t.constantCount).map fun n => constantName (n + 1)).Nodup :=
    List.nodup_range.map fun m n h => Nat.succ.inj (constantName_injective h)
  refine List.nodup_append.2 ⟨by decide, List.nodup_append.2 ⟨hvariables, hconstants, ?_⟩, ?_⟩
  · rintro a ha b hb rfl
    obtain ⟨m, -, rfl⟩ := List.mem_map.1 ha
    obtain ⟨n, -, hn⟩ := List.mem_map.1 hb
    exact variableName_ne_constantName _ _ hn.symm
  · rintro a ha b hb rfl
    have hplain := plain_of_mem_wellKnown ha
    obtain hb | hb := List.mem_append.1 hb
    · obtain ⟨n, -, rfl⟩ := List.mem_map.1 hb
      exact not_plain_variableName _ hplain
    · obtain ⟨n, -, rfl⟩ := List.mem_map.1 hb
      exact not_plain_constantName _ hplain

theorem Sound.mem_names_of_counted (h : l.Sound) {name : String} (hname : l.table.Counted name) :
    name ∈ l.table.names.toList := by
  obtain ⟨s, hs⟩ := h.minted name hname
  have hheld := name?_of_lookup hs
  rw [canonical_of_not_plain hname.not_plain] at hheld
  exact Array.mem_toList_iff.2 (Array.mem_of_getElem? hheld)

/-- Every fresh name takes a place in the table, so a table with room for its names has room for the counts. -/
theorem Sound.counts_le (h : l.Sound) :
    Symbol.wellKnown.length + (l.table.variableCount + l.table.constantCount) ≤ l.table.size := by
  have hsubset : reservedNames l.table ⊆ l.table.names.toList := by
    intro name hname
    obtain hmem | hmem := List.mem_append.1 hname
    · exact h.wellFormed.wellKnown.subset hmem
    · refine h.mem_names_of_counted ((List.mem_append.1 hmem).imp ?_ ?_) <;>
      · intro hmem
        obtain ⟨n, hn, rfl⟩ := List.mem_map.1 hmem
        exact ⟨n, List.mem_range.1 hn, rfl⟩
  have hle := ((nodup_reservedNames l.table).subperm hsubset).length_le
  simpa [reservedNames, size] using hle

theorem growsInto_run (requests more : List NameRequest) :
    (run requests).table.GrowsInto (run (requests ++ more)).table := by
  rw [run_append]
  generalize run requests = l
  induction more generalizing l with
  | nil => exact .refl _
  | cons r more ih => exact (l.table.growsInto_answer r).trans (ih (l.ask r))

end NameLog

open NameLog in
/-- At any point of a run of requests to a new table: two names that have been interned have one symbol
just when they are spellings of one name; such a symbol is given again without a change to the table, and
its name is the current spelling, for the rest of the run. A look-up finds what interning would give and
changes nothing, and no other request goes unanswered. The well-known names keep their places. The symbols
are the first positions, each of a well-known name or given in answer to some request, each of some name,
and no request for a fresh name is given a symbol that one was given before. As many names are in the table
as have been minted, and more. -/
theorem interning_stable (requests : List NameRequest) :
    (∀ a b s u, (.intern a, some s) ∈ (run requests).history →
      (.intern b, some u) ∈ (run requests).history →
        (s = u ↔ Symbol.canonical a = Symbol.canonical b)) ∧
    (∀ a s, (.intern a, some s) ∈ (run requests).history →
      (run requests).table.intern a = (s, (run requests).table) ∧
        ∀ more, (run (requests ++ more)).table.name s = Symbol.canonical a) ∧
    (∀ a s, (run requests).table.lookup a = some s ↔
      (run requests).table.intern a = (s, (run requests).table)) ∧
    (∀ a, (run (requests ++ [.lookup a])).table = (run requests).table) ∧
    (∀ r, (r, none) ∈ (run requests).history → ∃ a, r = .lookup a) ∧
    (∀ i name, Symbol.wellKnown[i]? = some name →
      (run requests).table.name ⟨i⟩ = name ∧ (run requests).table.lookup name = some ⟨i⟩) ∧
    (∀ s, s.index < (run requests).table.size ↔
      s.index < Symbol.wellKnown.length ∨ ∃ r, (r, some s) ∈ (run requests).history) ∧
    (∀ s, s.index < (run requests).table.size ↔ ∃ a, (run requests).table.lookup a = some s) ∧
    (((run requests).history.filter fun e => e.1.isFresh).Pairwise fun e e' => e.2 ≠ e'.2) ∧
    Symbol.wellKnown.length +
        ((run requests).table.variableCount + (run requests).table.constantCount) ≤
      (run requests).table.size := by
  have h := sound_run requests
  refine ⟨fun a b s u => h.eq_iff_canonical_eq, fun a s ha => ⟨?_, fun more => ?_⟩, fun a s => ⟨?_, ?_⟩,
    fun a => ?_, h.unanswered, fun i name hi => ?_, fun s => h.index_lt_iff,
    fun s => h.index_lt_iff_lookup, h.fresh, h.counts_le⟩
  · exact SymbolTable.intern_of_lookup (h.lookup_of_intern ha)
  · have hlookup := (growsInto_run requests more).lookup (h.lookup_of_intern ha)
    rw [SymbolTable.name, SymbolTable.name?_of_lookup hlookup, Option.getD_some]
  · exact SymbolTable.intern_of_lookup
  · intro hs
    have hlookup := SymbolTable.lookup_intern_self (run requests).table a
    rwa [hs] at hlookup
  · rw [run_concat]
    rfl
  · have hname := h.wellFormed.name?_wellKnown hi
    exact ⟨by rw [SymbolTable.name, hname, Option.getD_some], h.wellFormed.lookup_of_name? hname⟩

open NameLog in
/-- A name that is spelled like the first fresh variable is given that symbol, and the second one is new. -/
theorem interning_stable_spelled :
    (run [.intern "_-1", .freshVariable, .intern "nil", .freshVariable]).history =
        [(.intern "_-1", some ⟨24⟩), (.freshVariable, some ⟨24⟩), (.intern "nil", some Symbol.nil),
          (.freshVariable, some ⟨25⟩)] ∧
      (run ([.intern "_-1", .freshVariable, .intern "nil", .freshVariable] ++
        [.intern "cons", .freshConstant])).table.name ⟨24⟩ = "_-1" := by
  have hhistory : (run [.intern "_-1", .freshVariable, .intern "nil", .freshVariable]).history =
      [(.intern "_-1", some ⟨24⟩), (.freshVariable, some ⟨24⟩), (.intern "nil", some Symbol.nil),
        (.freshVariable, some ⟨25⟩)] := by
    decide +kernel
  obtain ⟨-, hkept, -⟩ :=
    interning_stable [.intern "_-1", .freshVariable, .intern "nil", .freshVariable]
  exact ⟨hhistory, (hkept "_-1" ⟨24⟩ (hhistory ▸ List.mem_cons_self)).2 _⟩

end Clausal
