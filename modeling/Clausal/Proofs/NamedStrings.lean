import Clausal.NamedString
import Clausal.Proofs.IncludedOnce
import Clausal.Proofs.ParsedTerms
import Clausal.Proofs.SharedNames

/-!
# Strings that programs name

A search for a named string goes into the units of a program where they stand. It gives what the first
declaration that names the string gives when the program is written out with each text where it is
first included. What is included again adds nothing that a search could find.
-/
namespace Clausal

/-- A fact `name "text"`, or a macro `@name` without parameters that stands for `"text"`. -/
inductive Decl.NamesString (v : Vocabulary) (name text : String) : Decl → Prop
  | fact {c : Clause (List Attribute)} {s : Symbol} {a : Literal} (body : c.body = .node s [.literal a])
      (named : v.symbols.name? s = some (Symbol.canonical name)) (string : a.string? = some text) :
      NamesString v name text (.clause c)
  | macroDef {m : MacroDef} {a : Literal} (body : m.body = .literal a)
      (named : v.symbols.name? m.name = some ("@" ++ name)) (string : a.string? = some text) :
      NamesString v name text (.macroDef m)

/-- No older spelling begins as the name of a macro does. -/
theorem Symbol.canonical_macroName (name : String) : canonical ("@" ++ name) = "@" ++ name := by
  have hne : ∀ other : String, other.toList.head? ≠ some '@' → "@" ++ name ≠ other := by
    rintro _ hother rfl
    exact hother (by simp)
  rw [canonical, if_neg (hne "nil" (by decide)), if_neg (hne "cons" (by decide)),
    if_neg (hne "&" (by decide))]

theorem Term.eq_node_of_args {t a : Term} {s : Symbol} (ha : t.args = [a]) (hs : t.headSymbol? = some s) :
    t = .node s [a] := by
  cases t with
  | app head args =>
    obtain rfl : args = [a] := ha
    cases head with
    | const u => rw [Option.some.inj hs]; rfl
    | _ => cases hs
  | _ => cases ha

namespace Decl

variable {v : Vocabulary} {name text : String}

/-- A declaration that includes no units is searched by its names. -/
theorem string?_eq_some_iff (hv : v.WellFormed) {d : Decl} (hd : d.isPlain = true) :
    d.string? (v.lookup name) (v.lookup ("@" ++ name)) = some text ↔ d.NamesString v name text := by
  constructor
  · intro h
    cases d with
    | clause c =>
      simp only [string?] at h
      split at h
      · next a ha =>
        split_ifs at h with hc
        obtain ⟨s, hs⟩ := Option.isSome_iff_exists.1 hc.1
        exact .fact (Term.eq_node_of_args ha (hc.2.trans hs)) (hv.lookup_eq_some_iff.1 hs) h
      · cases h
    | macroDef m =>
      simp only [string?] at h
      split at h
      · next a ha =>
        split_ifs at h with hc
        have hname := hv.lookup_eq_some_iff.1 hc.symm
        rw [Symbol.canonical_macroName] at hname
        exact .macroDef ha hname h
      · cases h
    | accumulated => cases hd
    | _ => cases h
  · rintro (⟨hbody, hname, htext⟩ | ⟨hbody, hname, htext⟩)
    · have hs := hv.lookup_eq_some_iff.2 hname
      simp [string?, hbody, Term.node, Term.args, Term.headSymbol?, Term.symbol?, hs, htext]
    · have hs : v.lookup ("@" ++ name) = some _ :=
        hv.lookup_eq_some_iff.2 (hname.trans (congrArg some (Symbol.canonical_macroName name).symm))
      simp [string?, hbody, hs, htext]

theorem string?_eq_none_iff (hv : v.WellFormed) {d : Decl} (hd : d.isPlain = true) :
    d.string? (v.lookup name) (v.lookup ("@" ++ name)) = none ↔ ∀ text, ¬ d.NamesString v name text := by
  simp only [Option.eq_none_iff_forall_ne_some, ne_eq, string?_eq_some_iff hv hd]

end Decl

mutual

theorem isPlain_of_mem_spliced {d e : Decl} (h : e ∈ d.spliced) : e.isPlain = true := by
  cases d with
  | accumulated span units => exact isPlain_of_mem_splicedUnits h
  | _ => obtain rfl := List.mem_singleton.1 h; rfl

theorem isPlain_of_mem_splicedUnits {units : List (Digest × List Decl)} {e : Decl}
    (h : e ∈ splicedUnits units) : e.isPlain = true := by
  match units with
  | [] => cases h
  | (_, decls) :: rest =>
    exact (List.mem_append.1 h).elim isPlain_of_mem_splicedAll isPlain_of_mem_splicedUnits

/-- What is written out includes no units. -/
theorem isPlain_of_mem_splicedAll {decls : List Decl} {e : Decl} (h : e ∈ splicedAll decls) :
    e.isPlain = true := by
  match decls with
  | [] => cases h
  | d :: rest => exact (List.mem_append.1 h).elim isPlain_of_mem_spliced isPlain_of_mem_splicedAll

end

section

variable (fact definition : Option Symbol)

mutual

theorem string?_eq_findSome? (d : Decl) :
    d.string? fact definition = d.spliced.findSome? (Decl.string? fact definition) := by
  cases d with
  | accumulated span units =>
    rw [Decl.string?, Decl.spliced]
    exact stringInUnits?_eq_findSome? units
  | _ => simp [Decl.spliced]

theorem stringInUnits?_eq_findSome? (units : List (Digest × List Decl)) :
    stringInUnits? fact definition units =
      (splicedUnits units).findSome? (Decl.string? fact definition) := by
  match units with
  | [] => rfl
  | (_, decls) :: rest =>
    rw [stringInUnits?, splicedUnits, List.findSome?_append, stringIn?_eq_findSome? decls,
      stringInUnits?_eq_findSome? rest]

/-- A search through units is a search of what they are when written out. -/
theorem stringIn?_eq_findSome? (decls : List Decl) :
    stringIn? fact definition decls = (splicedAll decls).findSome? (Decl.string? fact definition) := by
  match decls with
  | [] => rfl
  | d :: rest =>
    rw [stringIn?, splicedAll, List.findSome?_append, string?_eq_findSome? d, stringIn?_eq_findSome? rest]

end

end

section

variable {v : Vocabulary} {program : List Decl} {name text : String}

theorem namedString?_eq_some_iff (hv : v.WellFormed) : namedString? v program name = some text ↔
    ∃ front d back, splicedAll program = front ++ d :: back ∧ d.NamesString v name text ∧
      ∀ e ∈ front, ∀ other, ¬ e.NamesString v name other := by
  rw [namedString?, stringIn?_eq_findSome?, List.findSome?_eq_some_iff]
  refine exists₃_congr fun front d back => and_congr_right fun hsplit => ?_
  have hplain : ∀ e ∈ front ++ d :: back, e.isPlain = true :=
    fun e he => isPlain_of_mem_splicedAll (hsplit ▸ he)
  refine and_congr (Decl.string?_eq_some_iff hv (hplain d (by simp))) (forall₂_congr fun e he => ?_)
  exact Decl.string?_eq_none_iff hv (hplain e (by simp [he]))

theorem namedString?_eq_none_iff (hv : v.WellFormed) : namedString? v program name = none ↔
    ∀ d ∈ splicedAll program, ∀ text, ¬ d.NamesString v name text := by
  rw [namedString?, stringIn?_eq_findSome?, List.findSome?_eq_none_iff]
  exact forall₂_congr fun d hd => Decl.string?_eq_none_iff hv (isPlain_of_mem_splicedAll hd)

theorem splicedAll_append (ds es : List Decl) : splicedAll (ds ++ es) = splicedAll ds ++ splicedAll es := by
  induction ds with
  | nil => rfl
  | cons d ds ih => simp [splicedAll, ih]

/-- An empty unit at the end holds nothing that a search could find. -/
theorem namedString?_append_empty (span : Span) (digest : Digest) :
    namedString? v (program ++ [.accumulated span [(digest, [])]]) name = namedString? v program name := by
  simp only [namedString?, stringIn?_eq_findSome?, splicedAll_append]
  simp [splicedAll, Decl.spliced, splicedUnits]

end

namespace Parse

variable {loader : Loader} {s s₁ s₂ : ParseState}

theorem includeAll_append {names more : List String} {ds es : List Decl}
    (h : includeAll loader names s = (.ok ds, s₁)) (hmore : includeAll loader more s₁ = (.ok es, s₂)) :
    includeAll loader (names ++ more) s = (.ok (ds ++ es), s₂) := by
  induction names generalizing s ds with
  | nil =>
    obtain ⟨hds, rfl⟩ := Prod.mk.inj h
    obtain rfl := Except.ok.inj hds
    exact hmore
  | cons name rest ih =>
    obtain ⟨unit, s', others, hu, hrest, rfl⟩ := includeAll_cons_eq_ok_iff.1 h
    exact includeAll_cons_eq_ok_iff.2 ⟨unit, s', others ++ es, hu, ih hrest, rfl⟩

/-- A unit whose text has been seen adds an empty entry and changes nothing else. -/
theorem includeAll_of_seen {name : String} {source : Source}
    (hl : loader.load (Span.initial topLevel) name = .ok source) (hs : source.digest ∈ s.seen) :
    includeAll loader [name] s =
      (.ok [.accumulated (Span.initial topLevel) [(source.digest, [])]], s) :=
  includeAll_cons_eq_ok_iff.2 ⟨_, s, [], includeUnit_of_seen hl hs, rfl, rfl⟩

theorem parseUnits_eq_ok_iff {v v' : Vocabulary} {names : List String} {program : List Decl} :
    parseUnits v loader names = (.ok program, v') ↔
      ∃ s, includeAll loader names (.initial v [] topLevel "") = (.ok program, s) ∧ s.vocabulary = v' := by
  constructor
  · intro h
    have hresult : (includeAll loader names (.initial v [] topLevel "")).1 = .ok program := congrArg Prod.fst h
    exact ⟨_, Prod.ext hresult rfl, congrArg Prod.snd h⟩
  · rintro ⟨s, hrun, rfl⟩
    have hresult : (parseUnits v loader names).1 = .ok program := congrArg Prod.fst hrun
    exact Prod.ext hresult (congrArg (fun r => r.2.vocabulary) hrun)

/-- The text of each unit that is listed has an entry. -/
theorem mem_entries_of_includeAll {names : List String} {program : List Decl} {name : String}
    (h : (includeAll loader names s).1 = .ok program) (hn : name ∈ names) :
    ∃ source, loader.load (Span.initial topLevel) name = .ok source ∧
      source.digest ∈ (entriesOf program).map (·.1) := by
  have hnamed := forall₂_includeAll h
  clear h
  induction hnamed with
  | nil => cases hn
  | @cons first d rest ds hd _ ih =>
    obtain ⟨source, decls, hl, rfl⟩ := hd
    rcases List.mem_cons.1 hn with rfl | hn
    · exact ⟨source, hl, by simp [entriesOf, Decl.entries, unitEntries]⟩
    · obtain ⟨other, ho, hmem⟩ := ih hn
      refine ⟨other, ho, ?_⟩
      rw [entriesOf, List.map_append]
      exact List.mem_append_right _ hmem

end Parse

/-- A program that is searched for named strings in the order in which it is read, each text where it is
first included. -/
structure SearchedInOrder (loader : Loader) (v : Vocabulary) (names : List String) (program : List Decl)
    (v' : Vocabulary) : Prop where
  /-- The first entry of a text holds what reading the text gives, and later ones are empty. -/
  entries : InOrder (Parse.Included loader v) [] (entriesOf program)
  /-- The first declaration of either kind counts, whatever else has its name. -/
  some_iff : ∀ name text, namedString? v' program name = some text ↔
    ∃ front d back, expand program = front ++ d :: back ∧ d.NamesString v' name text ∧
      ∀ e ∈ front, ∀ other, ¬ e.NamesString v' name other
  none_iff : ∀ name, namedString? v' program name = none ↔
    ∀ d ∈ expand program, ∀ text, ¬ d.NamesString v' name text
  listed : ∀ unit ∈ names, ∃ source, loader.load (Span.initial topLevel) unit = .ok source ∧
    source.digest ∈ (entriesOf program).map (·.1)
  /-- What has been included, by a list or by another unit, can be listed again without effect. -/
  again : ∀ unit source, loader.load (Span.initial topLevel) unit = .ok source →
    source.digest ∈ (entriesOf program).map (·.1) →
      ∃ more, parseUnits v loader (names ++ [unit]) = (.ok more, v') ∧
        ∀ name, namedString? v' more name = namedString? v' program name

theorem parseUnits_searchedInOrder {v v' : Vocabulary} (hv : v.Reachable) {loader : Loader}
    {names : List String} {program : List Decl} (h : parseUnits v loader names = (.ok program, v')) :
    SearchedInOrder loader v names program v' := by
  obtain ⟨s, hrun, rfl⟩ := Parse.parseUnits_eq_ok_iff.1 h
  have hwell : s.vocabulary.WellFormed := by
    have hbehind := (hv.readsFlat.behindUnits loader names).wellFormed
    rwa [h] at hbehind
  have hvisits := Parse.Visits.includeAll hv hrun
  have hexpand : expand program = splicedAll program :=
    expand_eq_spliced (hvisits.order.mono fun _ _ _ ⟨_, _, _, _, _, hagain, _⟩ => hagain)
  constructor
  case entries => exact hvisits.order
  case some_iff =>
    intro name text
    rw [hexpand]
    exact namedString?_eq_some_iff hwell
  case none_iff =>
    intro name
    rw [hexpand]
    exact namedString?_eq_none_iff hwell
  case listed => exact fun unit hu => Parse.mem_entries_of_includeAll (congrArg Prod.fst hrun) hu
  case again =>
    intro unit source hl hd
    have hseen : source.digest ∈ s.seen := (hvisits.seen _).2 (.inr hd)
    have hmore := Parse.includeAll_append hrun (Parse.includeAll_of_seen hl hseen)
    exact ⟨_, Parse.parseUnits_eq_ok_iff.2 ⟨s, hmore, rfl⟩, fun name => namedString?_append_empty _ _⟩

/-- Two units that include each other. The string that counts stands in the second one, behind a fact about
a number, a fact about two strings and a macro with a parameter. -/
def namingUnits : UnitStore :=
  ⟨[("a", "infix :- 1. v 3. v \"0\" \"0\". accumulate b. v \"1\"."),
    ("b", "accumulate a. macro @v X :- \"0\". macro @v :- \"2\".")]⟩

theorem parseUnits_namingUnits :
    ∃ program v', parseUnits .initial namingUnits.loader ["a"] = (.ok program, v') ∧
      namedString? v' program "v" = some "2" ∧
      SearchedInOrder namingUnits.loader .initial ["a"] program v' ∧
      ∃ more, parseUnits .initial namingUnits.loader ["a", "a"] = (.ok more, v') ∧
        namedString? v' more "v" = some "2" := by
  have hfound : (parseUnits .initial namingUnits.loader ["a"]).1.toOption.bind (fun program =>
      namedString? (parseUnits .initial namingUnits.loader ["a"]).2 program "v") = some "2" := by
    decide +kernel
  rcases hp : parseUnits .initial namingUnits.loader ["a"] with ⟨_ | program, v'⟩
  · rw [hp] at hfound
    cases hfound
  · rw [hp] at hfound
    have hsearched := parseUnits_searchedInOrder .initial hp
    obtain ⟨source, hl, hd⟩ := hsearched.listed "a" (by simp)
    obtain ⟨more, hmore, hsame⟩ := hsearched.again "a" source hl hd
    exact ⟨program, v', rfl, hfound, hsearched, more, hmore, (hsame "v").trans hfound⟩

end Clausal
