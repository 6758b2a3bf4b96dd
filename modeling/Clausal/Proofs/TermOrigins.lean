import Clausal.Proofs.CheckedSessions
import Clausal.Proofs.LocatedDeclarations

/-!
# Where terms come from

Every term that a call gives is read from one text: the text of the call, or a unit that its loader has
delivered. Errors do not matter here, so the loader may be any. Readers that stay in their unit are
known to read from it, and what an inclusion gives is read from the included unit or from one further on.
-/
namespace Clausal

theorem mem_termsOf {ds : List Decl} {t : Term} : t ∈ termsOf ds ↔ ∃ d ∈ ds, t ∈ d.terms := by
  induction ds with
  | nil => simp [termsOf]
  | cons d ds ih => simp [termsOf, ih]

theorem mem_termsOfUnits {units : List (Digest × List Decl)} {t : Term} :
    t ∈ termsOfUnits units ↔ ∃ unit ∈ units, t ∈ termsOf unit.2 := by
  induction units with
  | nil => simp [termsOfUnits]
  | cons unit units ih => simp [termsOfUnits, ih]

/-- The loader delivers this unit under some name. -/
def Loader.Offers (loader : Loader) (x : Source) : Prop := ∃ span name, loader.load span name = .ok x

namespace Parse

variable {loader : Loader} {u : Source} {α β : Type}

/-- Whatever the step gives in that unit is so, and it goes on in the unit. -/
def Yields (u : Source) (p : Parse α) (Q : α → Prop) : Prop :=
  ∀ s a s', s.In u → p s = (.ok a, s') → Q a ∧ s'.In u

namespace Yields

variable {p : Parse α} {f : α → Parse β} {Q Q' : α → Prop} {R : β → Prop}

theorem of_stays (h : Stays .disabled u p Q) : Yields u p Q := by
  intro s a s' hs hrun
  obtain ⟨units, hr⟩ := h s hs
  rw [hrun] at hr
  obtain ⟨⟨-, hQ⟩, ⟨k, hk⟩, hlast⟩ := hr.ok a rfl
  obtain ⟨j, hj⟩ := hs.ahead
  exact ⟨hQ, ⟨j + k, by rw [← Scan.drop_drop, ← hj]; exact hk⟩, hlast⟩

theorem pure {a : α} (h : Q a) : Yields u (Pure.pure a) Q := by
  intro s b s' hs hrun
  obtain ⟨hb, rfl⟩ := Prod.mk.inj hrun
  exact ⟨Except.ok.inj hb ▸ h, hs⟩

theorem fail {e : ParseError} : Yields u (Parse.fail e) Q :=
  fun _ _ _ _ hrun => (by cases (Prod.mk.inj hrun).1)

theorem of_initial {v : Vocabulary} {a : α} (h : Yields u p Q)
    (hrun : (p (.initial v [] u.name u.text)).1 = .ok a) : Q a := by
  rcases hp : p (.initial v [] u.name u.text) with ⟨r, s⟩
  rw [hp] at hrun
  obtain rfl : r = .ok a := hrun
  exact (h _ a s (ParseState.in_initial v [] u) hp).1

theorem mono (h : Yields u p Q) (hQ : ∀ a, Q a → Q' a) : Yields u p Q' :=
  fun s a s' hs hrun => (h s a s' hs hrun).imp_left (hQ a)

theorem bind (hp : Yields u p Q) (hf : ∀ a, Q a → Yields u (f a) R) : Yields u (p >>= f) R := by
  intro s b s' hs hrun
  rcases hps : p s with ⟨e | a, inner⟩
  · rw [Pairing.bind_of_error hps] at hrun
    cases (Prod.mk.inj hrun).1
  · rw [Pairing.bind_of_ok hps] at hrun
    obtain ⟨ha, hinner⟩ := hp s a inner hs hps
    exact hf a ha inner b s' hinner hrun

theorem repeated {A : α → Prop} {B : β → Prop} {body : α → Parse (Round α β)} {a : α} (ha : A a)
    (hbody : ∀ a, A a → Yields u (body a) (Adds.RoundResult A B)) : Yields u (repeated body a) B := by
  have hrounds : ∀ n a, A a → Yields u (rounds body n a) B := by
    intro n
    induction n with
    | zero => exact fun _ _ => fail
    | succ n ih =>
      intro a ha
      refine (hbody a ha).bind fun round hround => ?_
      cases round with
      | again a => exact ih a hround
      | done b => exact pure hround
  exact fun s => hrounds _ a ha s

/-- The term is read from one of these texts. -/
abbrev From (E : Source → Prop) (t : Term) : Prop := ∃ x, E x ∧ t.ReadFrom x

variable {E : Source → Prop}

/-- The step gives declarations whose terms are read from these texts. -/
abbrev ReadsDecls (E : Source → Prop) (u : Source) (p : Parse (List Decl)) : Prop :=
  Yields u p fun ds => ∀ t ∈ termsOf ds, From E t

theorem ReadsDecls.of_stays {p : Parse (List Decl)} (hu : E u) (h : Stays.ReadsDecls .disabled u p) :
    ReadsDecls E u p :=
  (Yields.of_stays h).mono fun _ hds t ht => by
    obtain ⟨d, hd, ht⟩ := mem_termsOf.1 ht
    exact ⟨u, hu, (hds d hd).terms t ht⟩

/-- What is included in the unit is read from these texts. -/
def Includes (E : Source → Prop) (u : Source) (incl : Include) : Prop :=
  ∀ span name, Yields u (incl span name) fun r => ∀ t ∈ termsOf r.2, From E t

section

variable {incl : Include} (hincl : Includes E u incl)
include hincl

theorem inclusion : Yields u (inclusion incl) fun r => ∀ t ∈ termsOf r.2, From E t := by
  refine (of_stays Stays.next).bind fun t _ => ?_
  split
  · exact hincl _ _
  · exact hincl _ _
  · exact fail

theorem accumulateDecl {start : Span} (hstart : start.ExactIn u) :
    Yields u (accumulateDecl incl start) fun d => ∀ t ∈ d.terms, From E t := by
  have hunits : Yields u (separated (Parse.inclusion incl)) fun found =>
      ∀ r ∈ found, ∀ t ∈ termsOf r.2, From E t := by
    refine repeated (A := fun found => ∀ r ∈ found, ∀ t ∈ termsOf r.2, From E t) (by simp)
      fun found hfound => (inclusion hincl).bind fun r hr =>
        (of_stays (Stays.eatSymbol _)).bind fun comma _ => ?_
    have hmore : ∀ r' ∈ found ++ [r], ∀ t ∈ termsOf r'.2, From E t :=
      List.forall_mem_append.2 ⟨hfound, List.forall_mem_singleton.2 hr⟩
    split_ifs
    · exact pure hmore
    · exact pure hmore
  refine hunits.bind fun found hfound => (of_stays (Stays.expect _)).bind
    fun _ _ => (of_stays (Stays.spanFrom hstart)).bind fun span _ =>
      pure fun t ht => ?_
  obtain ⟨r, hr, ht⟩ := mem_termsOfUnits.1 ht
  exact hfound r hr t ht

theorem keywordDecl (hu : E u) {start : Span} (hstart : start.ExactIn u) (attributes : List Attribute)
    (keyword : Keyword) : ReadsDecls E u (keywordDecl incl start attributes keyword) := by
  by_cases hkeyword : keyword = .accumulate
  · subst hkeyword
    exact (accumulateDecl hincl hstart).bind fun d hd => pure (by simpa [termsOf] using hd)
  · exact .of_stays hu (Stays.keywordDecl hstart attributes hkeyword)

theorem attributedDecl (hu : E u) {start : Span} (hstart : start.ExactIn u) :
    ReadsDecls E u (attributedDecl incl start) := by
  refine (of_stays Stays.attributes).bind fun found _ => (of_stays Stays.peek).bind fun t _ => ?_
  split
  · exact ReadsDecls.of_stays hu (Stays.clauseDecl hstart found)
  · split_ifs
    · exact fail
    · exact (of_stays Stays.next).bind fun _ _ => keywordDecl hincl hu hstart found _

theorem declaration (hu : E u) : ReadsDecls E u (declaration incl) := by
  have hbrace : ∀ d : Decl, d.terms = [] → ReadsDecls E u (do let _ ← Parse.next; Pure.pure [d]) :=
    fun d hd => (of_stays Stays.next).bind fun _ _ => pure (by simp [termsOf, hd])
  refine (of_stays Stays.peek).bind fun t ht => ?_
  split
  · exact hbrace _ rfl
  · exact hbrace _ rfl
  · exact attributedDecl hincl hu ht.exactIn

theorem declarations (hu : E u) : ReadsDecls E u (declarations incl) := by
  refine repeated (A := fun found => ∀ t ∈ termsOf found, From E t) (by simp [termsOf])
    fun found hfound => (of_stays Stays.peek).bind fun t _ => ?_
  split_ifs
  · exact pure hfound
  · refine (declaration hincl hu).bind fun ds hds => pure ?_
    rw [Adds.RoundResult, termsOf_append]
    exact List.forall_mem_append.2 ⟨hfound, hds⟩

end

/-- What is included is read as a unit of its own, if it is read at all. -/
theorem includes_includeUnit {body : Parse (List Decl)} (hloader : ∀ x, loader.Offers x → E x)
    (hbody : ∀ x, E x → ReadsDecls E x body) (u : Source) : Includes E u (includeUnit loader body) := by
  intro span name s r s' hs hrun
  cases hload : loader.load span name with
  | error e =>
    rw [includeUnit_of_error hload] at hrun
    cases (Prod.mk.inj hrun).1
  | ok x =>
    by_cases hseen : x.digest ∈ s.seen
    · rw [includeUnit_of_seen hload hseen] at hrun
      obtain ⟨hr, rfl⟩ := Prod.mk.inj hrun
      rw [← Except.ok.inj hr]
      exact ⟨by simp [termsOf], hs⟩
    · rw [includeUnit_of_unseen hload hseen] at hrun
      obtain ⟨hr, rfl⟩ := Prod.mk.inj hrun
      rcases hb : body (s.entering x) with ⟨e | ds, inner⟩ <;> rw [hb] at hr
      · cases hr
      · rw [← Except.ok.inj hr]
        exact ⟨(hbody x (hloader x ⟨span, name, hload⟩) _ ds inner (ParseState.in_initial _ _ x) hb).1,
          ⟨hs.ahead, hs.last⟩⟩

/-- However deep inclusions nest, all terms are read from the text or from what the loader delivers. -/
theorem unitBody (hloader : ∀ x, loader.Offers x → E x) (depth : Nat) (hu : E u) :
    ReadsDecls E u (unitBody loader depth) := by
  induction depth generalizing u with
  | zero => exact declarations (includes_includeUnit hloader (fun _ _ => fail) u) hu
  | succ depth ih => exact declarations (includes_includeUnit hloader (fun _ hx => ih hx) u) hu

theorem program (hloader : ∀ x, loader.Offers x → E x) (hu : E u) : ReadsDecls E u (program loader) :=
  unitBody hloader _ hu

theorem includeAll (hloader : ∀ x, loader.Offers x → E x) (names : List String) (u : Source) :
    ReadsDecls E u (includeAll loader names) := by
  induction names with
  | nil => exact pure (by simp [termsOf])
  | cons name rest ih =>
    refine (includes_includeUnit hloader (fun _ hx => program hloader hx) u _ name).bind fun r hr =>
      ih.bind fun ds hds => pure ?_
    rw [termsOf, Decl.terms, termsOfUnits, termsOfUnits, List.append_nil]
    exact List.forall_mem_append.2 ⟨hr, hds⟩

theorem goal : Yields u goal (·.term.ReadFrom u) :=
  (of_stays Stays.peek).bind fun first hfirst => (of_stays Stays.term).bind fun t ht =>
    (of_stays (Stays.spanFrom hfirst.exactIn)).bind fun span _ => (of_stays Stays.peek).bind
      fun next _ => by
        split_ifs
        · exact (of_stays Stays.next).bind fun _ _ => (of_stays (Stays.expect _)).bind fun _ _ => pure ht
        · exact (of_stays (Stays.expect _)).bind fun _ _ => pure ht

end Yields

end Parse

namespace Call

/-- The texts that a call can take terms from. -/
def Offers : Call → Source → Prop
  | program loader source text, x => x = ⟨source, text⟩ ∨ loader.Offers x
  | units loader _, x => loader.Offers x
  | goal source text, x => x = ⟨source, text⟩
  | term text, x => x = ⟨"<term>", text⟩
  | baseline config, x => ∃ text ∈ Baseline.texts config.variant, x = ⟨Baseline.sourceName, text⟩
  | constant, _ => False

/-- The call gives this term, alone or in a program. -/
def GivesTerm (v : Vocabulary) (call : Call) (t : Term) : Prop :=
  call.term? v = some t ∨ ∃ p, call.program? v = some p ∧ t ∈ termsOf p

open Parse (Yields)

variable {v : Vocabulary} {loader : Loader} {source text : String}

theorem readFrom_parseText {ds : List Decl} (h : (parseText v loader source text).1 = .ok ds) :
    ∀ t ∈ termsOf ds, ∃ x, (x = ⟨source, text⟩ ∨ loader.Offers x) ∧ t.ReadFrom x :=
  have hprogram : Yields.ReadsDecls (fun x => x = ⟨source, text⟩ ∨ loader.Offers x) ⟨source, text⟩
      (Parse.program loader) := Yields.program (fun _ hx => .inr hx) (.inl rfl)
  hprogram.of_initial h

theorem readFrom_parseUnits {names : List String} {ds : List Decl}
    (h : (parseUnits v loader names).1 = .ok ds) :
    ∀ t ∈ termsOf ds, ∃ x, loader.Offers x ∧ t.ReadFrom x :=
  have hunits : Yields.ReadsDecls loader.Offers ⟨topLevel, ""⟩ (includeAll loader names) :=
    Yields.includeAll (fun _ hx => hx) names _
  hunits.of_initial h

theorem readFrom_parseGoal {g : Goal} (h : (parseGoal v source text).1 = .ok g) :
    g.term.ReadFrom ⟨source, text⟩ :=
  Yields.goal.of_initial h

theorem readFrom_parseTexts {texts : List String} {ds : List Decl}
    (h : (Baseline.parseTexts v texts).1 = .ok ds) :
    ∀ t ∈ termsOf ds, ∃ text ∈ texts, t.ReadFrom ⟨Baseline.sourceName, text⟩ := by
  induction texts generalizing v ds with
  | nil =>
    obtain rfl := Except.ok.inj h
    simp [termsOf]
  | cons text rest ih =>
    rw [Baseline.parseTexts] at h
    rcases hrun : parseText v .disabled Baseline.sourceName text with ⟨e | first, w⟩ <;> rw [hrun] at h
    · cases h
    · dsimp only at h
      rcases hothers : (Baseline.parseTexts w rest).1 with e | others <;> rw [hothers] at h
      · cases h
      · obtain rfl := Except.ok.inj h
        rw [termsOf_append]
        refine List.forall_mem_append.2 ⟨fun t ht => ?_, fun t ht => ?_⟩
        · obtain ⟨x, rfl | ⟨span, name, hx⟩, ht⟩ := readFrom_parseText (congrArg Prod.fst hrun) t ht
          · exact ⟨text, List.mem_cons_self, ht⟩
          · cases hx
        · obtain ⟨other, hother, ht⟩ := ih hothers t ht
          exact ⟨other, List.mem_cons_of_mem _ hother, ht⟩

theorem readFrom_load {config : Baseline.Config} {ds : List Decl}
    (h : (Baseline.load v config).result = .ok ds) :
    ∀ t ∈ termsOf ds, ∃ text ∈ Baseline.texts config.variant, t.ReadFrom ⟨Baseline.sourceName, text⟩ := by
  rw [Baseline.load] at h
  split at h
  · obtain rfl := Except.ok.inj h
    simp [termsOf]
  · split at h
    · cases h
    · split at h
      · cases h
      · next hparse =>
        obtain rfl := Except.ok.inj h
        exact readFrom_parseTexts (congrArg Prod.fst hparse)

/-- Every term that a call gives is read from one of its texts. -/
theorem readFrom {call : Call} {t : Term} (h : call.GivesTerm v t) : ∃ x, call.Offers x ∧ t.ReadFrom x := by
  rcases h with h | ⟨p, h, ht⟩
  · cases call with
    | goal source text =>
      obtain ⟨g, hg, rfl⟩ := Option.map_eq_some_iff.1 h
      exact ⟨_, rfl, readFrom_parseGoal (eq_ok_of_toOption hg)⟩
    | term text =>
      have hresult : (parseTerm v text).1 = (parseGoal v "<term>" text).1.map (·.term) := rfl
      have hterm := eq_ok_of_toOption h
      rw [hresult] at hterm
      rcases hg : (parseGoal v "<term>" text).1 with e | g <;> rw [hg] at hterm
      · cases hterm
      · obtain rfl := Except.ok.inj hterm
        exact ⟨_, rfl, readFrom_parseGoal hg⟩
    | program | units | baseline | constant => cases h
  · cases call with
    | program loader source text => exact readFrom_parseText (eq_ok_of_toOption h) t ht
    | units loader names => exact readFrom_parseUnits (eq_ok_of_toOption h) t ht
    | baseline config =>
      obtain ⟨text, htext, ht⟩ := readFrom_load (eq_ok_of_toOption h) t ht
      exact ⟨_, ⟨text, htext, rfl⟩, ht⟩
    | goal | term | constant => cases h

end Call

end Clausal
