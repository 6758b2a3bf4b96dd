import Clausal.Proofs.BlockNesting

/-!
# The nested form of a flat program

Each declaration of a program leads from the bodies that are open before it to those that are open
after it, and so does a list of them, with the units in it read in their places.
-/
namespace Clausal

namespace Nesting

theorem ok_of_bind {α β ε : Type} {x : Except ε α} {f : α → Except ε β} {b : β}
    (h : (x >>= f) = .ok b) : ∃ a, x = .ok a ∧ f a = .ok b := by
  cases x with
  | ok a => exact ⟨a, rfl, h⟩
  | error e => cases h

theorem located_eq_ok {α : Type} {span : Span} {r : Except NestingFault α} {a : α}
    (h : located span r = .ok a) : r = .ok a := by
  cases r with
  | ok b => exact congrArg Except.ok (Except.ok.inj h)
  | error fault => cases h

/-- What one type declaration adds, in the order of the declarations. -/
theorem foldlM_addType {ts : List (TypeDecl (List Attribute))} {n m : Nesting}
    (h : ts.foldlM addType n = .ok m) :
    ∃ typed, ts.mapM TypeDecl.typed = .ok typed ∧
      m = n.onTop fun d => { d with scope.types := d.scope.types ++ typed } := by
  induction ts generalizing n with
  | nil =>
    obtain rfl := Except.ok.inj h
    refine ⟨[], rfl, ?_⟩
    rw [← onTop_id n, onTop_onTop]
    congr 1
    funext d
    simp
  | cons t ts ih =>
    rw [List.foldlM_cons] at h
    obtain ⟨n', ht, hts⟩ := ok_of_bind h
    obtain ⟨option, ho, hn⟩ := ok_of_bind ht
    obtain rfl := Except.ok.inj hn
    obtain ⟨typed, htyped, rfl⟩ := ih hts
    have hone : t.typed = .ok ⟨t.span, option, t.name, t.type⟩ := by
      rw [TypeDecl.typed, located_eq_ok ho]
      rfl
    refine ⟨⟨t.span, option, t.name, t.type⟩ :: typed, ?_, ?_⟩
    · rw [List.mapM_cons, hone, htyped]
      rfl
    · rw [onTop_onTop]
      congr 1
      funext d
      simp

end Nesting

namespace Surroundings

open Nesting

variable (s : Surroundings) (seen : List Digest)

theorem leadsTo_clause {c : Clause (List Attribute)} {n : Nesting}
    (h : (s.state seen).addClause c = .ok n) : s.LeadsTo ([.clause c], seen) n := by
  obtain ⟨options, ho, hn⟩ := ok_of_bind h
  obtain rfl := Except.ok.inj hn
  have htyped : c.typed = .ok ⟨c.span, options, c.body⟩ := by
    rw [Clause.typed, located_eq_ok ho]
    rfl
  exact s.leadsTo_onTop seen (e := .clause c _ htyped) (fun _ => rfl) rfl rfl

theorem leadsTo_types {ts : List (TypeDecl (List Attribute))} {n : Nesting}
    (h : ts.foldlM addType (s.state seen) = .ok n) : s.LeadsTo ([.types ts], seen) n := by
  obtain ⟨typed, htyped, rfl⟩ := foldlM_addType h
  exact s.leadsTo_onTop seen (e := .types ts typed htyped) (fun _ => rfl) rfl rfl

theorem leadsTo_locals {span : Span} {names : List Symbol} {n : Nesting}
    (h : (s.state seen).addLocals span names = .ok n) :
    s.LeadsTo ([.locals span names], seen) n := by
  unfold addLocals at h
  split at h
  · next frames hframes =>
    obtain rfl := Except.ok.inj h
    refine s.leadsTo_onScope seen (e := .locals span names) (fun _ => rfl) (fun d => ?_)
      (fun o ho => ?_) hframes
    · simp [Entry.localList, Entry.ruleList]
    · exact ⟨fun hb => absurd (of_decide_eq_true ho) hb, fun _ => rfl⟩
  · cases h

theorem leadsTo_rule {r : Rule (List Attribute)} {n : Nesting}
    (h : (s.state seen).addRule r = .ok n) : s.LeadsTo ([.rule r], seen) n := by
  obtain ⟨options, ho, hn⟩ := ok_of_bind h
  have htyped : r.typed = .ok ⟨r.matched, r.removed, r.guard, r.goal, options, r.span⟩ := by
    rw [Rule.typed, located_eq_ok ho]
    rfl
  dsimp only at hn
  split at hn
  · next frames hframes =>
    obtain rfl := Except.ok.inj hn
    refine s.leadsTo_onScope seen (e := .rule r _ htyped) (fun _ => rfl) (fun d => ?_)
      (fun o ho => ?_) hframes
    · simp [Entry.localList, Entry.ruleList]
    · exact ⟨fun _ => rfl, fun hb => absurd (hb.symm.trans ho) Bool.false_ne_true⟩
  · cases hn

mutual

/-- A declaration leads on by its expansion. -/
theorem leadsTo_add (s : Surroundings) (seen : List Digest) (d : Decl) {n : Nesting}
    (h : (s.state seen).add d = .ok n) : s.LeadsTo (expandDecl seen d) n := by
  match d with
  | .openBlock span =>
    obtain rfl := Except.ok.inj h
    exact s.leadsTo_openBlock seen .braces rfl span
  | .openNamespace span name =>
    obtain rfl := Except.ok.inj h
    exact s.leadsTo_openBlock seen (.namespaced name) rfl span
  | .openConstraint span names =>
    obtain rfl := Except.ok.inj h
    exact s.leadsTo_openBlock seen (.constraint names) rfl span
  | .shorten span shorthands =>
    obtain rfl := Except.ok.inj h
    exact s.leadsTo_shorten seen span shorthands
  | .close span => exact s.leadsTo_close seen h
  | .accumulated _ units => exact leadsTo_addUnits s seen units h
  | .clause c => exact s.leadsTo_clause seen h
  | .locals span names => exact s.leadsTo_locals seen h
  | .modes modes =>
    obtain rfl := Except.ok.inj h
    exact s.leadsTo_onTop seen (e := .modes modes) (fun _ => rfl) rfl rfl
  | .rule r => exact s.leadsTo_rule seen h
  | .macroDef m =>
    obtain rfl := Except.ok.inj h
    exact s.leadsTo_onTop seen (e := .macroDef m) (fun _ => rfl) rfl rfl
  | .types ts => exact s.leadsTo_types seen h
  | .typeAbbreviation a =>
    obtain rfl := Except.ok.inj h
    exact s.leadsTo_onTop seen (e := .typeAbbreviation a) (fun _ => rfl) rfl rfl
  | .ignored span =>
    obtain rfl := Except.ok.inj h
    have hid := s.leadsTo_onTop seen (e := .ignored span) (f := id) (fun _ => rfl) rfl rfl
    rwa [onTop_id] at hid

theorem leadsTo_addUnits (s : Surroundings) (seen : List Digest) (units : List (Digest × List Decl))
    {n : Nesting} (h : (s.state seen).addUnits units = .ok n) :
    s.LeadsTo (expandUnits seen units) n := by
  match units with
  | [] =>
    obtain rfl := Except.ok.inj h
    exact s.leadsTo_nil seen
  | (digest, decls) :: rest =>
    rw [addUnits, s.state_seen] at h
    rw [expandUnits]
    split at h
    · next hmem =>
      rw [if_pos hmem]
      exact leadsTo_addUnits s seen rest h
    · next hmem =>
      rw [if_neg hmem]
      obtain ⟨n', hfront, hback⟩ := ok_of_bind h
      rw [s.state_with_seen] at hfront
      refine (leadsTo_addAll s _ decls hfront).trans fun s' hs' => ?_
      exact leadsTo_addUnits s' _ rest (hs' ▸ hback)

theorem leadsTo_addAll (s : Surroundings) (seen : List Digest) (decls : List Decl) {n : Nesting}
    (h : (s.state seen).addAll decls = .ok n) : s.LeadsTo (expandAll seen decls) n := by
  match decls with
  | [] =>
    obtain rfl := Except.ok.inj h
    exact s.leadsTo_nil seen
  | d :: rest =>
    obtain ⟨n', hfront, hback⟩ := ok_of_bind h
    refine (leadsTo_add s seen d hfront).trans fun s' hs' => ?_
    exact leadsTo_addAll s' _ rest (hs' ▸ hback)

end

/-- Only where no block is open does a program end. -/
theorem of_finish {result : NestedProgram} (h : (s.state seen).finish = .ok result) :
    s.inner = [] ∧ result = s.outermost.scope := by
  obtain ⟨b, inner⟩ := s
  cases inner with
  | nil =>
    simp only [finish, state, closeShortens_state_nil, Except.ok.injEq] at h
    refine ⟨rfl, ?_⟩
    have hb : b.base = Body.withLocals (b.top .empty) (b.bracketed Entry.localList)
        (b.bracketed Entry.ruleList) := rfl
    rw [hb, Body.finishTop_withLocals, Body.flush_withLocals] at h
    exact h.symm.trans b.scope_finishTop_empty
  | cons o rest =>
    simp [finish, state, closeShortens_state_cons, push] at h

end Surroundings

/-- A program that has a nested form is the flat form of a body with that scope. -/
theorem body_of_nest {program : List Decl} {result : NestedProgram}
    (h : nest program = .ok result) : ∃ b : Body, b.flat = expand program ∧ b.scope = result := by
  obtain ⟨n, hadd, hfinish⟩ := Nesting.ok_of_bind h
  let start : Surroundings := ⟨.done, []⟩
  obtain ⟨s, rfl, hflat, -⟩ := start.leadsTo_addAll [] program hadd
  obtain ⟨hinner, rfl⟩ := s.of_finish _ hfinish
  have hs : s.flat = s.outermost.flat := by rw [Surroundings.flat, hinner, List.foldr_nil]
  refine ⟨s.outermost, ?_, rfl⟩
  rw [← hs, hflat]
  rfl

/-- A program that has a nested form is the flat form of one body, and its nested form is the scope
of that body: each declaration stands in the innermost block around it, local names and rules in the
innermost one that is no `shorten` scope, all in the order of the text, and runs of clauses are
neither empty nor divided. -/
theorem nest_eq_scope {program : List Decl} {result : NestedProgram}
    (h : nest program = .ok result) :
    ∃ b : Body, (∀ b' : Body, b'.flat = expand program ↔ b' = b) ∧ b.Placed ∧
      b.bracketed Entry.localList = [] ∧ b.bracketed Entry.ruleList = [] ∧
      result = b.scope ∧ Block.TidyBody result.body := by
  obtain ⟨n, hadd, hfinish⟩ := Nesting.ok_of_bind h
  let start : Surroundings := ⟨.done, []⟩
  have hstart : start.Placed := ⟨trivial, rfl, rfl, by simp [start]⟩
  obtain ⟨s, rfl, hflat, hplaced⟩ := start.leadsTo_addAll [] program hadd
  obtain ⟨hinner, rfl⟩ := s.of_finish _ hfinish
  have hp := hplaced hstart
  have hs : s.flat = s.outermost.flat := by rw [Surroundings.flat, hinner, List.foldr_nil]
  have hb : s.outermost.flat = expand program := by
    rw [← hs, hflat]
    rfl
  refine ⟨s.outermost, fun b' => ⟨fun h' => Body.flat_injective (h'.trans hb.symm), ?_⟩,
    hp.outermost, hp.locals, hp.rules, rfl, s.outermost.tidy_blocks []⟩
  rintro rfl
  exact hb

def sampleSpan : Span := .initial "main"

/-- The fact of a symbol, as written and as nested. -/
def sampleFact (n : Nat) : Decl := .clause ⟨sampleSpan, [], .const ⟨n⟩⟩
def sampleTyped (n : Nat) : Clause ClauseOptions := ⟨sampleSpan, .empty, .const ⟨n⟩⟩

/-- One unit in two places, first between braces. It ends in a `shorten`. -/
def twoPlaces : List Decl :=
  let unit : Digest × List Decl := (⟨Digest.start⟩, [sampleFact 27, .shorten sampleSpan []])
  [sampleFact 24, sampleFact 25, .openBlock sampleSpan, sampleFact 26,
    .accumulated sampleSpan [unit], sampleFact 28, .locals sampleSpan [⟨30⟩], .close sampleSpan,
    .accumulated sampleSpan [unit], sampleFact 29]

def twoPlacesNested : NestedProgram :=
  ⟨[], [], [], [],
    [.clauses [sampleTyped 24, sampleTyped 25],
      .locals [⟨30⟩] ⟨[], [], [], [],
        [.clauses [sampleTyped 26, sampleTyped 27],
          .shortened [] ⟨[], [], [], [], [.clauses [sampleTyped 28]]⟩]⟩,
      .clauses [sampleTyped 29]]⟩

theorem nest_twoPlaces :
    nest twoPlaces = .ok twoPlacesNested ∧
      ∃ b : Body, (∀ b' : Body, b'.flat = expand twoPlaces ↔ b' = b) ∧ b.Placed ∧
        b.bracketed Entry.localList = [] ∧ b.bracketed Entry.ruleList = [] ∧
        twoPlacesNested = b.scope ∧ Block.TidyBody twoPlacesNested.body := by
  have h : nest twoPlaces = .ok twoPlacesNested := by rfl
  exact ⟨h, nest_eq_scope h⟩

end Clausal
