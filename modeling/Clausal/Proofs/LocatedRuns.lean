import Clausal.Proofs.Marks
import Clausal.Proofs.Outcomes

/-!
# Where a run reads

A reader of a unit takes its spans from the items of that unit, and from the units that it includes on its
way. `Locates` says so of one step: which units it has read, that an error stands in one of them, and
what is known of a result. The texts that a run has marked as seen are those of these units, one after
the other. `Stays` is the same of a step that includes nothing. Both have a rule for each way to put steps
together.
-/
namespace Clausal

/-- The units that reading `first` has included, in their order: each goes by a name that is
written in one before it. -/
inductive ReadsUnits (loader : Loader) (first : Source) : List Source → Prop
  | nil : ReadsUnits loader first []
  | snoc {units : List Source} {u next : Source} {t : Token} {name : String}
      (h : ReadsUnits loader first units) (hu : u ∈ first :: units) (ht : t.WrittenIn u)
      (hname : t.kind = .ident name ∨ t.kind = .string name)
      (hload : loader.load t.span name = .ok next) : ReadsUnits loader first (units ++ [next])

/-- What is included in a unit that has been read comes after it. -/
theorem ReadsUnits.append {loader : Loader} {first u : Source} {units more : List Source}
    (h : ReadsUnits loader first units) (hu : u ∈ first :: units) (hm : ReadsUnits loader u more) :
    ReadsUnits loader first (units ++ more) := by
  induction hm with
  | nil => simpa using h
  | @snoc more u' next t name _ hu' ht hname hload ih =>
    rw [← List.append_assoc]
    refine .snoc ih ?_ ht hname hload
    rcases List.mem_cons.1 hu' with rfl | hmem
    · exact List.mem_cons.2 ((List.mem_cons.1 hu).imp_right (List.mem_append_left _))
    · exact List.mem_cons_of_mem _ (List.mem_append_right _ hmem)

/-- The state reads that unit. -/
structure ParseState.In (s : ParseState) (u : Source) : Prop where
  ahead : ∃ k, s.ahead = u.scan.drop k
  last : s.last.ExactIn u

theorem ParseState.in_initial (v : Vocabulary) (seen : List Digest) (u : Source) :
    (ParseState.initial v seen u.name u.text).In u :=
  ⟨⟨0, rfl⟩, Span.exactIn_initial u⟩

theorem ParseState.In.get {s : ParseState} {u : Source} (h : s.In u) {n : Nat} {t : Token}
    (ht : s.ahead.get n = .token t) : t.WrittenIn u := by
  obtain ⟨k, hk⟩ := h.ahead
  rw [hk, Scan.get_drop] at ht
  exact ⟨k + n, ht⟩

/-- A fault that is found ahead stands in the scan. -/
theorem Scan.peekItem_error {last : Item} {n : Nat} {items : List Item} {e : ScanError}
    (h : (peekItem last n items).1 = .error e) : .fault e ∈ items ∨ .fault e = last := by
  fun_induction peekItem last n items with
  | case1 n t => cases h
  | case2 n e' hlast =>
    rw [hlast, Except.error.inj h]
    exact .inr rfl
  | case3 n e' rest => exact .inl (by rw [Except.error.inj h]; exact List.mem_cons_self)
  | case4 t rest => cases h
  | case5 n t rest found rest' heq ih =>
    rw [heq] at ih
    exact (ih h).imp_left (List.mem_cons_of_mem _)

theorem ParseState.In.fault {s : ParseState} {u : Source} (h : s.In u) {n : Nat} {e : ScanError}
    (he : (s.ahead.peek n).1 = .error e) : e.span.ExactIn u := by
  obtain ⟨k, hk⟩ := h.ahead
  have hget : ∃ i, u.scan.get i = .fault e := by
    rw [hk] at he
    rcases Scan.peekItem_error he with hmem | hlast
    · obtain ⟨i, hi⟩ := List.getElem?_of_mem (List.mem_of_mem_drop hmem)
      exact ⟨i, by rw [Scan.get, List.getD_eq_getElem?_getD, hi, Option.getD_some]⟩
    · refine ⟨u.scan.items.length, ?_⟩
      rw [Scan.get, List.getD_eq_getElem?_getD, List.getElem?_eq_none (Nat.le_refl _),
        Option.getD_none]
      exact hlast.symm
  obtain ⟨i, hi⟩ := hget
  exact Source.exactIn_of_fault hi

namespace Parse

variable {loader : Loader} {u : Source} {α β : Type}

/-- What a run from `s` in a unit comes to if it has included these units. -/
structure Located (loader : Loader) (u : Source) (Q : List Source → α → Prop) (s : ParseState)
    (r : Except ParseError α × ParseState) (units : List Source) : Prop where
  reads : ReadsUnits loader u units
  seen : r.2.seen = (units.map Source.digest).reverse ++ s.seen
  error : ∀ e, r.1 = .error e → e.anomaly? = none →
    ∃ span, e.span? = some span ∧ ∃ x ∈ u :: units, span.ExactIn x
  ok : ∀ a, r.1 = .ok a → Q units a ∧ (∃ k, r.2.ahead = s.ahead.drop k) ∧ r.2.last.ExactIn u

/-- Wherever it begins in that unit, the step has included some units, and what it gives is as it should
be for them. -/
def Locates (loader : Loader) (u : Source) (p : Parse α) (Q : List Source → α → Prop) : Prop :=
  ∀ s : ParseState, s.In u → ∃ units, Located loader u Q s (p s) units

/-- The step includes no unit. -/
abbrev Stays (loader : Loader) (u : Source) (p : Parse α) (Q : α → Prop) : Prop :=
  Locates loader u p fun units a => units = [] ∧ Q a

namespace Locates

variable {p : Parse α} {f : α → Parse β} {Q Q' : List Source → α → Prop}
variable {R : List Source → β → Prop}

theorem pure {a : α} (h : Q [] a) : Locates loader u (Pure.pure a) Q := by
  refine fun s hs => ⟨[], .nil, rfl, fun _ h => (by cases h), fun b hb => ?_⟩
  rw [← Except.ok.inj hb]
  exact ⟨h, ⟨0, rfl⟩, hs.last⟩

theorem fail {e : ParseError}
    (h : e.anomaly? = none → ∃ span, e.span? = some span ∧ span.ExactIn u) :
    Locates loader u (Parse.fail e) Q := by
  refine fun s _ => ⟨[], .nil, rfl, fun e' he ha => ?_, fun _ hb => (by cases hb)⟩
  obtain rfl := Except.error.inj he
  obtain ⟨span, hspan, hexact⟩ := h ha
  exact ⟨span, hspan, u, List.mem_cons_self, hexact⟩

/-- A bound that is used up is no fault of a text. -/
theorem exhausted : Locates loader u (Parse.fail (.anomaly .exhausted)) Q :=
  fail fun h => (by cases h)

theorem failAt {span : Span} (h : span.ExactIn u) (fault : SyntaxFault) :
    Locates loader u (failAt span fault) Q :=
  fail fun _ => ⟨span, rfl, h⟩

theorem failExpected (what : Expected) {t : Token} (h : t.WrittenIn u) :
    Locates loader u (failExpected what t) Q :=
  failAt h.exactIn _

theorem mono (h : Locates loader u p Q) (hQ : ∀ units a, Q units a → Q' units a) :
    Locates loader u p Q' := by
  intro s hs
  obtain ⟨units, hr⟩ := h s hs
  exact ⟨units, hr.reads, hr.seen, hr.error, fun a ha => ⟨hQ units a (hr.ok a ha).1, (hr.ok a ha).2⟩⟩

theorem bind (hp : Locates loader u p Q)
    (hf : ∀ units a, Q units a → Locates loader u (f a) fun more b => R (units ++ more) b) :
    Locates loader u (p >>= f) R := by
  intro s hs
  obtain ⟨units, hr⟩ := hp s hs
  rcases hps : p s with ⟨e | a, s'⟩ <;> rw [hps] at hr
  · rw [Pairing.bind_of_error hps]
    refine ⟨units, hr.reads, hr.seen, fun e' he => ?_, fun _ hb => (by cases hb)⟩
    obtain rfl := Except.error.inj he
    exact hr.error e rfl
  · rw [Pairing.bind_of_ok hps]
    obtain ⟨hQ, ⟨k, hk⟩, hlast⟩ := hr.ok a rfl
    have hs' : s'.In u := by
      obtain ⟨j, hj⟩ := hs.ahead
      exact ⟨⟨j + k, by rw [← Scan.drop_drop, ← hj]; exact hk⟩, hlast⟩
    obtain ⟨more, hr'⟩ := hf units a hQ s' hs'
    refine ⟨units ++ more, hr.reads.append List.mem_cons_self hr'.reads, ?_, fun e he ha => ?_,
      fun b hb => ?_⟩
    · rw [hr'.seen, hr.seen, List.map_append, List.reverse_append, List.append_assoc]
    · obtain ⟨span, hspan, x, hx, hexact⟩ := hr'.error e he ha
      refine ⟨span, hspan, x, ?_, hexact⟩
      exact List.mem_cons.2 ((List.mem_cons.1 hx).imp_right (List.mem_append_right _))
    · obtain ⟨hR, ⟨j, hj⟩, hlast'⟩ := hr'.ok b hb
      have hk : s'.ahead = s.ahead.drop k := hk
      exact ⟨hR, ⟨k + j, by rw [hj, hk, Scan.drop_drop]⟩, hlast'⟩

theorem map {g : α → β} (hp : Locates loader u p Q) (hg : ∀ units a, Q units a → R units (g a)) :
    Locates loader u (g <$> p) R :=
  hp.bind fun units a ha => pure (by simpa using hg units a ha)

/-- A step that takes its bound from the number of items ahead. -/
theorem sized {p : Nat → Parse α} (h : ∀ n, Locates loader u (p n) Q) :
    Locates loader u (fun s => p s.ahead.items.length s) Q :=
  fun s hs => h s.ahead.items.length s hs

theorem rounds {I : List Source → α → Prop} {B : List Source → β → Prop}
    {body : α → Parse (Round α β)} (hbody : ∀ units a, I units a → Locates loader u (body a)
      fun more => Adds.RoundResult (I (units ++ more)) (B (units ++ more))) (n : Nat)
    {units : List Source} {a : α} (ha : I units a) :
    Locates loader u (rounds body n a) fun more => B (units ++ more) := by
  induction n generalizing units a with
  | zero => exact exhausted
  | succ n ih =>
    refine (hbody units a ha).bind fun more round hround => ?_
    simp only [← List.append_assoc]
    cases round with
    | again a => exact ih hround
    | done b => exact pure (by simpa [Adds.RoundResult] using hround)

theorem repeated {I : List Source → α → Prop} {B : List Source → β → Prop}
    {body : α → Parse (Round α β)} {a : α} (ha : I [] a) (hbody : ∀ units a, I units a →
      Locates loader u (body a) fun more => Adds.RoundResult (I (units ++ more)) (B (units ++ more))) :
    Locates loader u (repeated body a) B :=
  sized (p := fun n => Parse.rounds body (n + 1) a) fun n => rounds hbody (n + 1) ha

end Locates

namespace Stays

variable {p : Parse α} {f : α → Parse β} {Q Q' : α → Prop} {R : List Source → β → Prop}
variable {S : β → Prop}

theorem pure {a : α} (h : Q a) : Stays loader u (Pure.pure a) Q := Locates.pure ⟨rfl, h⟩

theorem bind (hp : Stays loader u p Q) (hf : ∀ a, Q a → Locates loader u (f a) R) :
    Locates loader u (p >>= f) R := by
  refine Locates.bind hp ?_
  rintro _ a ⟨rfl, ha⟩
  exact hf a ha

theorem mono (h : Stays loader u p Q) (hQ : ∀ a, Q a → Q' a) : Stays loader u p Q' :=
  Locates.mono h fun _ a ha => ⟨ha.1, hQ a ha.2⟩

theorem map {g : α → β} (hp : Stays loader u p Q) (hg : ∀ a, Q a → S (g a)) :
    Stays loader u (g <$> p) S :=
  Locates.map hp fun _ a ha => ⟨ha.1, hg a ha.2⟩

theorem repeated {A : α → Prop} {B : β → Prop} {body : α → Parse (Round α β)} {a : α} (ha : A a)
    (hbody : ∀ a, A a → Stays loader u (body a) (Adds.RoundResult A B)) :
    Stays loader u (repeated body a) B := by
  refine Locates.repeated (I := fun units a => units = [] ∧ A a) ⟨rfl, ha⟩ ?_
  rintro _ a ⟨rfl, ha⟩
  refine Locates.mono (hbody a ha) ?_
  rintro _ round ⟨rfl, hround⟩
  cases round with
  | again a => exact ⟨rfl, hround⟩
  | done b => exact ⟨rfl, hround⟩

/-- A step that only looks. -/
theorem of_still (h : ∀ s, s.In u → ∃ a, p s = (.ok a, s) ∧ Q a) : Stays loader u p Q := by
  intro s hs
  obtain ⟨a, hrun, ha⟩ := h s hs
  rw [hrun]
  refine ⟨[], .nil, rfl, fun _ h => (by cases h), fun b hb => ?_⟩
  rw [← Except.ok.inj hb]
  exact ⟨⟨rfl, ha⟩, ⟨0, rfl⟩, hs.last⟩

theorem vocabulary : Stays loader u vocabulary fun _ => True :=
  of_still fun s _ => ⟨s.vocabulary, rfl, trivial⟩

theorem spanFrom {start : Span} (h : start.ExactIn u) :
    Stays loader u (spanFrom start) (·.ExactIn u) :=
  of_still fun s hs => ⟨start.merge s.last, rfl, h.merge hs.last⟩

theorem change {c : Vocabulary → α × Vocabulary} (h : ∀ v, Q (c v).1) :
    Stays loader u (change c) Q := by
  refine fun s hs => ⟨[], .nil, rfl, fun _ h => (by cases h), fun b hb => ?_⟩
  rw [← Except.ok.inj hb]
  exact ⟨⟨rfl, h s.vocabulary⟩, ⟨0, rfl⟩, hs.last⟩

theorem peekAt (n : Nat) : Stays loader u (peekAt n) (·.WrittenIn u) := by
  intro s hs
  rcases hrun : Parse.peekAt n s with ⟨e | t, s'⟩
  · have hpeek := Adds.run_peekAt n s
    rw [run, hrun] at hpeek
    obtain ⟨he, rfl⟩ := Prod.mk.inj hpeek
    refine ⟨[], .nil, rfl, fun e' he' _ => ?_, fun _ hb => (by cases hb)⟩
    obtain rfl := Except.error.inj he'
    cases hfound : (s.ahead.peek n).1 with
    | ok t => rw [hfound] at he; cases he
    | error fault =>
      rw [hfound] at he
      obtain rfl := Except.error.inj he
      exact ⟨fault.span, rfl, u, List.mem_cons_self, hs.fault hfound⟩
  · obtain ⟨rfl, hget⟩ := peekAt_eq_ok hrun
    obtain ⟨t', ht', heq⟩ := hget n (Nat.le_refl n)
    obtain rfl := heq rfl
    refine ⟨[], .nil, rfl, fun _ h => (by cases h), fun b hb => ?_⟩
    rw [← Except.ok.inj hb]
    exact ⟨⟨rfl, hs.get ht'⟩, ⟨0, rfl⟩, hs.last⟩

theorem peek : Stays loader u peek (·.WrittenIn u) := peekAt 0

theorem next : Stays loader u next (·.WrittenIn u) := by
  refine peek.bind fun t ht s _ => ⟨[], .nil, rfl, fun _ h => (by cases h), fun b hb => ?_⟩
  rw [← Except.ok.inj hb]
  exact ⟨⟨rfl, ht⟩, ⟨1, Scan.drop_one.symm⟩, ht.exactIn⟩

theorem ofExcept {r : Except TermError α} (hok : ∀ a, r = .ok a → Q a)
    (herror : ∀ e, r = .error e → e.anomaly? = none →
      ∃ span, e.span? = some span ∧ span.ExactIn u) : Stays loader u (ofExcept r) Q := by
  cases r with
  | ok a => exact pure (hok a rfl)
  | error e => exact Locates.fail (herror e rfl)

theorem expect (kind : TokenKind) : Stays loader u (expect kind) (·.WrittenIn u) := by
  refine next.bind fun t ht => ?_
  split_ifs
  · exact pure ht
  · exact Locates.failExpected _ ht

theorem eatSymbol (name : String) : Stays loader u (eatSymbol name) fun _ => True := by
  refine peek.bind fun t _ => ?_
  split_ifs
  · exact next.bind fun _ _ => pure trivial
  · exact pure trivial

end Stays

end Parse

end Clausal
