import Clausal.Proofs.InclusionDepth
import Clausal.Proofs.IncludedUnits

/-!
# Every text is included once

Two passes leave out what has been included: reading, before it reads the text of a unit, and nesting,
before it goes into the unit. Both go by the order of the program, so they leave out the same
units, and what is nested holds each text where it is first included.
-/
namespace Clausal

namespace Parse

/-- What reading a text gives, from a vocabulary that has grown from `v`, with these texts seen. -/
def Gives (loader : Loader) (v : Vocabulary) (source : Source) (seen : List Digest) (decls : List Decl) :
    Prop :=
  ∃ w seen' s, w.Reachable ∧ v.Extends w ∧ (∀ d, d ∈ seen' ↔ d ∈ seen) ∧
    program loader (.initial w seen' source.name source.text) = (.ok decls, s)

/-- An entry for a text that the loader delivers: empty if the text has been seen, else what
reading the text gives. -/
def Included (loader : Loader) (v : Vocabulary) (seen : List Digest) (digest : Digest)
    (decls : List Decl) : Prop :=
  ∃ span name source, loader.load span name = .ok source ∧ source.digest = digest ∧
    (digest ∈ seen → decls = []) ∧ (digest ∉ seen → Gives loader v source (digest :: seen) decls)

variable {loader : Loader} {v w : Vocabulary}

theorem respects_included : InOrder.Respects (Included loader v) := by
  rintro seen seen' digest decls hs ⟨span, name, source, hl, hd, hagain, hfirst⟩
  refine ⟨span, name, source, hl, hd, fun h => hagain ((hs _).2 h), fun h => ?_⟩
  obtain ⟨u, used, s, hu, hv, hused, hrun⟩ := hfirst fun h' => h ((hs _).1 h')
  exact ⟨u, used, s, hu, hv, fun d => by simp [hused, hs], hrun⟩

theorem Included.of_extends (h : v.Extends w) {seen : List Digest} {digest : Digest} {decls : List Decl}
    (hi : Included loader w seen digest decls) : Included loader v seen digest decls := by
  obtain ⟨span, name, source, hl, hd, hagain, hfirst⟩ := hi
  refine ⟨span, name, source, hl, hd, hagain, fun hn => ?_⟩
  obtain ⟨u, used, s, hu, hw, hrest⟩ := hfirst hn
  exact ⟨u, used, s, hu, h.trans hw, hrest⟩

/-- The entries of what is read between two moments. -/
structure Visits (loader : Loader) (m m' : Moment) (entries : List (Digest × List Decl)) : Prop where
  order : InOrder (Included loader m.vocabulary) m.seen entries
  seen : ∀ d, d ∈ m'.seen ↔ d ∈ m.seen ∨ d ∈ entries.map (·.1)

namespace Visits

variable {m m' m'' : Moment} {es fs : List (Digest × List Decl)}

theorem of_seen_eq (h : m'.seen = m.seen) : Visits loader m m' [] :=
  ⟨trivial, by simp [h]⟩

theorem append (hle : m.vocabulary.Extends m'.vocabulary) (h : Visits loader m m' es)
    (g : Visits loader m' m'' fs) : Visits loader m m'' (es ++ fs) where
  order := h.order.append respects_included h.seen (g.order.mono fun _ _ _ hi => hi.of_extends hle)
  seen d := by simp only [g.seen, h.seen, List.map_append, List.mem_append, or_assoc]

end Visits

theorem entriesOf_of_isPlain {ds : List Decl} (h : ∀ d ∈ ds, d.isPlain = true) : entriesOf ds = [] := by
  induction ds with
  | nil => rfl
  | cons d ds ih =>
    have hd : d.entries = [] := by
      have hp := h d List.mem_cons_self
      cases d <;> first | rfl | cases hp
    rw [entriesOf, hd, ih fun d hd => h d (List.mem_cons_of_mem _ hd), List.append_nil]

namespace Pairing

/-- The account of the entries of one run. -/
def visits (loader : Loader) : diagonal.comparison.Account where
  decls W W' ds _ := Visits loader W.left W'.left (entriesOf ds)
  units W W' us _ := Visits loader W.left W'.left (unitEntries us)
  declares _ hq h := by
    rw [entriesOf_of_isPlain h.isPlain]
    exact .of_seen_eq hq.left
  append hle _ hds hes := by
    rw [entriesOf_append]
    exact hds.append hle.left hes
  nil := .of_seen_eq rfl
  snoc hle _ hus hu := by
    rw [unitEntries_append]
    exact hus.append hle.left hu
  accumulated _ hus _ := by simpa only [entriesOf, Decl.entries, List.append_nil] using hus

theorem includes_visits (loader : Loader) : diagonal.Includes (visits loader) loader where
  marks := marks_same
  loads := loads_of_spans_eq rfl
  passes {W span name source} hl hd := by
    refine ⟨⟨⟨span, name, source, hl, rfl, fun _ => rfl, fun h => absurd hd h⟩, trivial⟩, fun d => ?_⟩
    simp only [unitEntries, entriesOf, List.nil_append, List.map_cons, List.map_nil,
      List.mem_singleton, iff_self_or]
    rintro rfl
    exact hd
  enters := by
    refine ⟨?_⟩
    intro W W' span name source ds ds' s s₁ hW hl hd hle hW' hds hs hrun _
    have hv : s.vocabulary = W.left.vocabulary := congrArg Moment.vocabulary hs
    have hseen : s.seen = W.left.seen := congrArg Moment.seen hs
    have hentry : Included loader W.left.vocabulary W.left.seen source.digest ds := by
      refine ⟨span, name, source, hl, rfl, fun h => absurd h hd, fun _ => ?_⟩
      refine ⟨s.vocabulary, source.digest :: s.seen, s₁, ?_, hv ▸ .refl _, by simp [hseen], hrun⟩
      exact hv ▸ hW.2
    have hrest : Visits loader (W.mark source.digest).left W'.left (entriesOf ds) := hds
    refine ⟨⟨hentry, ?_⟩, fun d => ?_⟩
    · rw [unitEntries, List.append_nil]
      exact hrest.order
    · rw [hrest.seen]
      simp [World.mark, unitEntries, or_assoc, or_left_comm]

end Pairing

/-- The entries of units that are included one after the other. -/
theorem Visits.includeAll {names : List String} {program : List Decl} {s s₁ : ParseState}
    (hv : s.vocabulary.Reachable) (h : Clausal.includeAll loader names s = (.ok program, s₁)) :
    Visits loader s.moment s₁.moment (entriesOf program) := by
  obtain ⟨W', -, -, hm, hr⟩ := (Pairing.declares_includeAll (Pairing.includes_visits loader) names
    (W := ⟨s.moment, s.moment⟩) ⟨rfl, hv⟩).alone s rfl
  rw [h] at hm hr
  obtain ⟨_, hvisits⟩ := hr program rfl
  rw [hm]
  exact hvisits

/-- A unit that is included goes by the digest of the text that its name leads to. -/
theorem digest_of_includeUnit {body : Parse (List Decl)} {span : Span} {name : String}
    {unit : Digest × List Decl} {s s₁ : ParseState}
    (h : includeUnit loader body span name s = (.ok unit, s₁)) :
    ∃ source, loader.load span name = .ok source ∧ unit.1 = source.digest := by
  cases hl : loader.load span name with
  | error e =>
    rw [includeUnit_of_error hl] at h
    cases h
  | ok source =>
    refine ⟨source, rfl, ?_⟩
    have hr := congrArg Prod.fst h
    by_cases hd : source.digest ∈ s.seen
    · rw [includeUnit_of_seen hl hd] at hr
      rw [← Except.ok.inj hr]
    · rw [includeUnit_of_unseen hl hd] at hr
      cases hb : (body (s.entering source)).1 with
      | error e =>
        rw [hb] at hr
        cases hr
      | ok decls =>
        rw [hb] at hr
        rw [← Except.ok.inj hr]

theorem includeAll_cons_eq_ok_iff {name : String} {rest : List String} {program : List Decl}
    {s s₂ : ParseState} : includeAll loader (name :: rest) s = (.ok program, s₂) ↔
      ∃ unit s₁ others,
        includeUnit loader (Parse.program loader) (Span.initial topLevel) name s = (.ok unit, s₁) ∧
          includeAll loader rest s₁ = (.ok others, s₂) ∧
            program = .accumulated (Span.initial topLevel) [unit] :: others := by
  constructor
  · intro h
    rcases hu : includeUnit loader (Parse.program loader) (Span.initial topLevel) name s with ⟨_ | unit, s₁⟩
    · rw [includeAll, Pairing.bind_of_error hu] at h
      cases h
    · rw [includeAll, Pairing.bind_of_ok hu] at h
      rcases hrest : includeAll loader rest s₁ with ⟨_ | others, s₂'⟩
      · rw [Pairing.bind_of_error hrest] at h
        cases h
      · rw [Pairing.bind_of_ok hrest] at h
        obtain ⟨hp, rfl⟩ := Prod.mk.inj h
        exact ⟨unit, s₁, others, rfl, hrest, (Except.ok.inj hp).symm⟩
  · rintro ⟨unit, s₁, others, hu, hrest, rfl⟩
    rw [includeAll, Pairing.bind_of_ok hu, Pairing.bind_of_ok hrest]
    rfl

/-- Every name gives one declaration, which holds the unit of that name. -/
theorem forall₂_includeAll {names : List String} {program : List Decl} {s : ParseState}
    (h : (includeAll loader names s).1 = .ok program) :
    List.Forall₂ (fun name d => ∃ source decls, loader.load (Span.initial topLevel) name = .ok source ∧
      d = .accumulated (Span.initial topLevel) [(source.digest, decls)]) names program := by
  induction names generalizing s program with
  | nil =>
    obtain rfl := Except.ok.inj h
    exact .nil
  | cons name rest ih =>
    obtain ⟨unit, s₁, others, hu, hrest, rfl⟩ := includeAll_cons_eq_ok_iff.1 (Prod.ext h rfl)
    obtain ⟨source, hl, hd⟩ := digest_of_includeUnit hu
    refine .cons ⟨source, unit.2, hl, ?_⟩ (ih (congrArg Prod.fst hrest))
    rw [← hd]

end Parse

end Clausal
