import Clausal.Proofs.WellNested

/-!
# How far a `shorten` reaches

A `shorten` has no closing of its own, and a unit leaves no mark where it ends. So the scope goes on to the
closing of the block around it, or to the end of the program, and takes in what stands there behind the
unit that the `shorten` belongs to.
-/
namespace Clausal

/-- A unit that is read in a place of a program: what the expansion has before it, of it and behind it. -/
structure ReadUnit where
  before : List Decl
  own : List Decl
  after : List Decl

namespace ReadUnit

/-- The same unit with more around it. -/
def within (front back : List Decl) (u : ReadUnit) : ReadUnit :=
  ⟨front ++ u.before, u.own, u.after ++ back⟩

def whole (u : ReadUnit) : List Decl := u.before ++ u.own ++ u.after

theorem whole_within (front back : List Decl) (u : ReadUnit) :
    (u.within front back).whole = front ++ u.whole ++ back := by
  simp [within, whole]

end ReadUnit

mutual

/-- The units that are read in a declaration, those inside others too. A unit that has been seen is not read. -/
def unitsOfDecl (seen : List Digest) : Decl → List ReadUnit
  | .accumulated _ units => unitsOfUnits seen units
  | _ => []

def unitsOfUnits (seen : List Digest) : List (Digest × List Decl) → List ReadUnit
  | [] => []
  | (digest, decls) :: rest =>
    if digest ∈ seen then unitsOfUnits seen rest
    else
      let own := expandAll (digest :: seen) decls
      let back := (expandUnits own.2 rest).1
      ⟨[], own.1, back⟩ :: (unitsOfAll (digest :: seen) decls).map (·.within [] back) ++
        (unitsOfUnits own.2 rest).map (·.within own.1 [])

def unitsOfAll (seen : List Digest) : List Decl → List ReadUnit
  | [] => []
  | d :: rest =>
    let front := expandDecl seen d
    (unitsOfDecl seen d).map (·.within [] (expandAll front.2 rest).1) ++
      (unitsOfAll front.2 rest).map (·.within front.1 [])

end

/-- The units that are read in a program. -/
def readUnits (program : List Decl) : List ReadUnit := unitsOfAll [] program

mutual

theorem whole_of_mem_unitsOfDecl {seen : List Digest} {d : Decl} {u : ReadUnit}
    (h : u ∈ unitsOfDecl seen d) : u.whole = (expandDecl seen d).1 := by
  match d with
  | .accumulated _ units => exact whole_of_mem_unitsOfUnits h
  | .openBlock _ | .openNamespace _ _ | .openConstraint _ _ | .shorten _ _ | .close _ | .clause _
  | .locals _ _ | .modes _ | .rule _ | .macroDef _ | .types _ | .typeAbbreviation _ | .ignored _ =>
    simp [unitsOfDecl] at h

theorem whole_of_mem_unitsOfUnits {seen : List Digest} {units : List (Digest × List Decl)} {u : ReadUnit}
    (h : u ∈ unitsOfUnits seen units) : u.whole = (expandUnits seen units).1 := by
  match units with
  | [] => simp [unitsOfUnits] at h
  | (digest, decls) :: rest =>
    rw [unitsOfUnits] at h
    rw [expandUnits]
    by_cases hseen : digest ∈ seen
    · rw [if_pos hseen] at h ⊢
      exact whole_of_mem_unitsOfUnits h
    · rw [if_neg hseen] at h ⊢
      dsimp only at h ⊢
      rcases List.mem_append.1 h with h | h
      · rcases List.mem_cons.1 h with rfl | h
        · simp [ReadUnit.whole]
        · obtain ⟨u', hu', rfl⟩ := List.mem_map.1 h
          rw [ReadUnit.whole_within, whole_of_mem_unitsOfAll hu', List.nil_append]
      · obtain ⟨u', hu', rfl⟩ := List.mem_map.1 h
        rw [ReadUnit.whole_within, whole_of_mem_unitsOfUnits hu', List.append_nil]

theorem whole_of_mem_unitsOfAll {seen : List Digest} {decls : List Decl} {u : ReadUnit}
    (h : u ∈ unitsOfAll seen decls) : u.whole = (expandAll seen decls).1 := by
  match decls with
  | [] => simp [unitsOfAll] at h
  | d :: rest =>
    rw [unitsOfAll] at h
    rw [expandAll]
    dsimp only at h ⊢
    rcases List.mem_append.1 h with h | h
    · obtain ⟨u', hu', rfl⟩ := List.mem_map.1 h
      rw [ReadUnit.whole_within, whole_of_mem_unitsOfDecl hu', List.nil_append]
    · obtain ⟨u', hu', rfl⟩ := List.mem_map.1 h
      rw [ReadUnit.whole_within, whole_of_mem_unitsOfAll hu', List.append_nil]

end

/-- A unit that is read stands in the expansion of the program. -/
theorem expand_eq_of_mem_readUnits {program : List Decl} {u : ReadUnit} (h : u ∈ readUnits program) :
    expand program = u.before ++ u.own ++ u.after :=
  (whole_of_mem_unitsOfAll h).symm

/-- Without closings, brackets are only added. -/
theorem foldl_bracketsAfter_of_no_close {ds : List Decl} (h : ∀ d ∈ ds, ∀ span, d ≠ .close span)
    (around : List Bracket) : ∃ opened, ds.foldl Decl.bracketsAfter around = opened ++ around := by
  induction ds generalizing around with
  | nil => exact ⟨[], rfl⟩
  | cons d rest ih =>
    obtain ⟨hd, hrest⟩ := List.forall_mem_cons.1 h
    have hone : ∃ opened, d.bracketsAfter around = opened ++ around := by
      cases d with
      | openBlock span => exact ⟨[_], rfl⟩
      | openNamespace span name => exact ⟨[_], rfl⟩
      | openConstraint span names => exact ⟨[_], rfl⟩
      | close span => exact absurd rfl (hd span)
      | _ => exact ⟨[], rfl⟩
    obtain ⟨first, hfirst⟩ := hone
    obtain ⟨more, hmore⟩ := ih hrest (first ++ around)
    exact ⟨more ++ first, by rw [List.foldl_cons, hfirst, hmore, List.append_assoc]⟩

theorem Entry.bracketsAfter_decl (e : Entry) (around : List Bracket) :
    e.decl.bracketsAfter around = around := by
  cases e <;> rfl

theorem Opening.bracketsAfter_decl {opening : Opening} (h : opening.isShorten = false) (span : Span)
    (around : List Bracket) : (opening.decl span).bracketsAfter around = ⟨opening, span⟩ :: around := by
  cases opening with
  | shorten s => cases h
  | _ => rfl

namespace Body

/-- A body closes all brackets that it opens. -/
theorem foldl_bracketsAfter_flat (b : Body) (around : List Bracket) :
    b.flat.foldl Decl.bracketsAfter around = around := by
  induction b generalizing around with
  | done => rfl
  | entry e rest ih => rw [flat, List.foldl_cons, e.bracketsAfter_decl, ih]
  | block opening bracket span closing inner rest ihi ihr =>
    rw [flat, List.foldl_cons, Opening.bracketsAfter_decl bracket, List.foldl_append, ihi,
      List.foldl_cons, Decl.bracketsAfter, List.tail_cons, ihr]
  | shorten span shorthands rest ih => exact ih around

/-- Up to any place in a body, what is open in front of the body stays open, and a closing at that place
is for a bracket of the body. -/
theorem brackets_of_flat_eq {b : Body} {front back : List Decl} (h : b.flat = front ++ back) :
    ∃ opened, (∀ around, front.foldl Decl.bracketsAfter around = opened ++ around) ∧
      (∀ span more, back = .close span :: more → opened ≠ []) := by
  induction b generalizing front back with
  | done =>
    obtain ⟨rfl, rfl⟩ := List.append_eq_nil_iff.1 h.symm
    exact ⟨[], fun _ => rfl, fun _ _ hb => (by cases hb)⟩
  | entry e rest ih =>
    cases front with
    | nil =>
      obtain rfl : _ = back := h
      exact ⟨[], fun _ => rfl, fun span more hb => absurd ⟨span, (List.cons.inj hb).1⟩
        (not_ends_entry e more)⟩
    | cons d front =>
      obtain ⟨rfl, hrest⟩ := List.cons.inj h
      obtain ⟨opened, hfold, hclose⟩ := ih hrest
      refine ⟨opened, fun around => ?_, hclose⟩
      rw [List.foldl_cons, e.bracketsAfter_decl, hfold]
  | block opening bracket span closing inner rest ihi ihr =>
    cases front with
    | nil =>
      obtain rfl : _ = back := h
      exact ⟨[], fun _ => rfl, fun span' more hb => absurd ⟨span', (List.cons.inj hb).1⟩
        (not_ends_opening opening span more)⟩
    | cons d front =>
      obtain ⟨rfl, hrest⟩ := List.cons.inj h
      have hopening := Opening.bracketsAfter_decl bracket span
      rcases List.append_eq_append_iff.1 hrest with ⟨more, rfl, hmore⟩ | ⟨more, hinner, rfl⟩
      · cases more with
        | nil =>
          -- The place is at the closing of the block.
          obtain rfl : _ = back := hmore
          refine ⟨[⟨opening, span⟩], fun around => ?_, fun _ _ _ => List.cons_ne_nil _ _⟩
          rw [List.foldl_cons, hopening, List.append_nil, foldl_bracketsAfter_flat]
          rfl
        | cons c more =>
          obtain ⟨rfl, hback⟩ := List.cons.inj hmore
          obtain ⟨opened, hfold, hclose⟩ := ihr hback
          refine ⟨opened, fun around => ?_, hclose⟩
          rw [List.foldl_cons, hopening, List.foldl_append, foldl_bracketsAfter_flat, List.foldl_cons,
            Decl.bracketsAfter, List.tail_cons, hfold]
      · obtain ⟨opened, hfold, -⟩ := ihi hinner
        refine ⟨opened ++ [⟨opening, span⟩], fun around => ?_, fun _ _ _ => by simp⟩
        rw [List.foldl_cons, hopening, hfold, List.append_assoc]
        rfl
  | shorten span shorthands rest ih =>
    cases front with
    | nil =>
      obtain rfl : _ = back := h
      exact ⟨[], fun _ => rfl, fun span' more hb => absurd ⟨span', (List.cons.inj hb).1⟩
        (not_ends_opening (.shorten shorthands) span more)⟩
    | cons d front =>
      obtain ⟨rfl, hrest⟩ := List.cons.inj h
      obtain ⟨opened, hfold, hclose⟩ := ih hrest
      exact ⟨opened, hfold, hclose⟩

theorem openBrackets_flat (b : Body) : openBrackets b.flat = [] := b.foldl_bracketsAfter_flat []

/-- A closing in a body has a bracket of the body to close. -/
theorem openBrackets_ne_nil_of_close {b : Body} {front more : List Decl} {span : Span}
    (h : b.flat = front ++ .close span :: more) : openBrackets front ≠ [] := by
  obtain ⟨opened, hfold, hclose⟩ := brackets_of_flat_eq h
  rw [openBrackets, hfold, List.append_nil]
  exact hclose span more rfl

/-- Behind the declarations `front` of the body stands a `shorten`, with a scope that is the body `rest`. -/
inductive ShortenAt : Body → List Decl → Span → List Shorthand → Body → Prop
  | here {span : Span} {shorthands : List Shorthand} {rest : Body} :
      ShortenAt (shorten span shorthands rest) [] span shorthands rest
  | entry {e : Entry} {b rest : Body} {front : List Decl} {span : Span} {shorthands : List Shorthand}
      (h : ShortenAt b front span shorthands rest) :
      ShortenAt (entry e b) (e.decl :: front) span shorthands rest
  | inside {opening : Opening} {bracket : opening.isShorten = false} {opened closed span : Span}
      {inner b rest : Body} {front : List Decl} {shorthands : List Shorthand}
      (h : ShortenAt inner front span shorthands rest) :
      ShortenAt (block opening bracket opened closed inner b) (opening.decl opened :: front) span
        shorthands rest
  | behind {opening : Opening} {bracket : opening.isShorten = false} {opened closed span : Span}
      {inner b rest : Body} {front : List Decl} {shorthands : List Shorthand}
      (h : ShortenAt b front span shorthands rest) :
      ShortenAt (block opening bracket opened closed inner b)
        (opening.decl opened :: (inner.flat ++ .close closed :: front)) span shorthands rest
  | within {opened span : Span} {around shorthands : List Shorthand} {b rest : Body} {front : List Decl}
      (h : ShortenAt b front span shorthands rest) :
      ShortenAt (shorten opened around b) (.shorten opened around :: front) span shorthands rest

theorem Ends.append_close {k : List Decl} (h : Ends k) (span : Span) (more : List Decl) :
    Ends (k ++ .close span :: more) := by
  cases k with
  | nil => exact ends_close span more
  | cons d k => exact h

/-- The scope of a `shorten` goes on to the closing of the block around it, or to the end. -/
theorem exists_shortenAt {b : Body} {front back : List Decl} {span : Span} {shorthands : List Shorthand}
    (h : b.flat = front ++ .shorten span shorthands :: back) :
    ∃ rest k, b.ShortenAt front span shorthands rest ∧ back = rest.flat ++ k ∧ Ends k := by
  induction b generalizing front back with
  | done => simp [flat] at h
  | entry e rest ih =>
    cases front with
    | nil => exact absurd (List.cons.inj h).1 (e.decl_ne_opening (.shorten shorthands) span)
    | cons d front =>
      obtain ⟨rfl, hrest⟩ := List.cons.inj h
      obtain ⟨scope, k, hat, hback, hk⟩ := ih hrest
      exact ⟨scope, k, hat.entry, hback, hk⟩
  | block opening bracket opened closed inner rest ihi ihr =>
    cases front with
    | nil =>
      obtain ⟨rfl, -⟩ := Opening.decl_injective (p := .shorten shorthands) (List.cons.inj h).1
      cases bracket
    | cons d front =>
      obtain ⟨rfl, hrest⟩ := List.cons.inj h
      rcases List.append_eq_append_iff.1 hrest with ⟨more, rfl, hmore⟩ | ⟨more, hinner, hmore⟩
      · cases more with
        | nil => cases hmore
        | cons c more =>
          obtain ⟨rfl, hback⟩ := List.cons.inj hmore
          obtain ⟨scope, k, hat, hback, hk⟩ := ihr hback
          exact ⟨scope, k, hat.behind, hback, hk⟩
      · cases more with
        | nil => cases hmore
        | cons c more =>
          obtain ⟨rfl, rfl⟩ := List.cons.inj hmore
          -- What the block has left is the end of the scope, up to the closing of the block.
          obtain ⟨scope, k, hat, rfl, hk⟩ := ihi hinner
          exact ⟨scope, k ++ .close closed :: rest.flat, hat.inside, by simp, hk.append_close closed _⟩
  | shorten opened around rest ih =>
    cases front with
    | nil =>
      obtain ⟨hd, rfl⟩ := List.cons.inj h
      obtain ⟨rfl, rfl⟩ := Decl.shorten.inj hd
      exact ⟨rest, [], .here, by simp, trivial⟩
    | cons d front =>
      obtain ⟨rfl, hrest⟩ := List.cons.inj h
      obtain ⟨scope, k, hat, hback, hk⟩ := ih hrest
      exact ⟨scope, k, hat.within, hback, hk⟩

end Body

namespace Block

/-- The scope of a block; a run of clauses has none. -/
def scope? : Block → Option (Scope Block)
  | clauses _ => none
  | locals _ s | namespaced _ s | shortened _ s | constraints _ _ s => some s

/-- The block is one of those, or is inside one of them. -/
inductive OccursIn (b : Block) : List Block → Prop
  | here {blocks : List Block} (h : b ∈ blocks) : OccursIn b blocks
  | inside {blocks : List Block} {c : Block} {s : Scope Block} (hc : c ∈ blocks) (hs : c.scope? = some s)
      (h : OccursIn b s.body) : OccursIn b blocks

theorem OccursIn.mono {b : Block} {blocks more : List Block} (hsub : blocks ⊆ more)
    (h : b.OccursIn blocks) : b.OccursIn more := by
  cases h with
  | here h => exact .here (hsub h)
  | inside hc hs h => exact .inside (hsub hc) hs h

end Block

theorem Opening.scope?_block (opening : Opening) (locals : List Symbol) (rules : List (Rule RuleOptions))
    (scope : Scope Block) : (opening.block locals rules scope).scope? = some scope := by
  cases opening <;> rfl

/-- The scope of a `shorten` makes a block of its own. -/
theorem Body.ShortenAt.occursIn {b rest : Body} {front : List Decl} {span : Span}
    {shorthands : List Shorthand} (h : b.ShortenAt front span shorthands rest)
    (pending : List (Clause ClauseOptions)) :
    (Block.shortened shorthands rest.scope).OccursIn (b.blocks pending) := by
  induction h generalizing pending with
  | here => exact .here (List.mem_append_right _ (List.mem_singleton.2 rfl))
  | entry _ ih => exact ih _
  | inside _ ih =>
    exact .inside (List.mem_append_right _ List.mem_cons_self) (Opening.scope?_block _ _ _ _) (ih [])
  | behind _ ih =>
    exact (ih []).mono fun c hc => List.mem_append_right _ (List.mem_cons_of_mem _ hc)
  | within _ ih =>
    exact .inside (List.mem_append_right _ (List.mem_singleton.2 rfl)) rfl (ih [])

/-- Nothing of the declaration is put into the innermost scope: it declares nothing, or what it declares goes
to the block around the `shorten` scopes. -/
def Decl.bypasses : Decl → Bool
  | ignored _ | locals _ _ | rule _ => true
  | modes ms => ms.isEmpty
  | types ts => ts.isEmpty
  | _ => false

theorem Entry.bypasses_iff (e : Entry) :
    e.decl.bypasses = true ↔ e.clauseList = [] ∧ e.macroList = [] ∧ e.typeList = [] ∧
      e.abbreviationList = [] ∧ e.modeList = [] := by
  cases e with
  | types ts typed h =>
    have hempty : ts = [] ↔ typed = [] := by
      cases ts with
      | nil =>
        obtain rfl := Except.ok.inj h
        simp
      | cons t ts =>
        rw [List.mapM_cons] at h
        obtain ⟨_, -, h⟩ := Nesting.ok_of_bind h
        obtain ⟨_, -, h⟩ := Nesting.ok_of_bind h
        obtain rfl := Except.ok.inj h
        simp
    simp [decl, Decl.bypasses, clauseList, macroList, typeList, abbreviationList, modeList, hempty]
  | _ => simp [decl, Decl.bypasses, clauseList, macroList, typeList, abbreviationList, modeList]

/-- Declarations that bypass the scope neither open nor close anything. -/
theorem Decl.bracketsAfter_of_bypasses {d : Decl} (h : d.bypasses = true) (around : List Bracket) :
    d.bracketsAfter around = around := by
  cases d with
  | openBlock | openNamespace | openConstraint | close => cases h
  | _ => rfl

theorem foldl_bracketsAfter_of_bypasses {ds : List Decl} (h : ∀ d ∈ ds, d.bypasses = true)
    (around : List Bracket) : ds.foldl Decl.bracketsAfter around = around := by
  induction ds with
  | nil => rfl
  | cons d rest ih =>
    obtain ⟨hd, hrest⟩ := List.forall_mem_cons.1 h
    rw [List.foldl_cons, Decl.bracketsAfter_of_bypasses hd, ih hrest]

/-- A closing among these declarations is for a bracket that was open in front of them. -/
def ClosesAround (ds : List Decl) : Prop :=
  ∃ front span back, ds = front ++ .close span :: back ∧ openBrackets front = []

/-- The first of these declarations that does not bypass the scope is no closing. -/
def FollowedUp (ds : List Decl) : Prop :=
  ∃ front d back, ds = front ++ d :: back ∧ (∀ e ∈ front, e.bypasses = true) ∧ d.bypasses = false ∧
    ∀ span, d ≠ .close span

/-- Behind `tail`, which the unit still has behind the `shorten`, something else is put into the scope. -/
def Spills (tail : List Decl) (scope : Body) : Prop :=
  ∃ later, scope.flat = tail ++ later ∧ ∃ d ∈ later, d.bypasses = false

section

variable {tail after k : List Decl} {scope : Body}

/-- A unit that closes the block around its `shorten` has the whole scope. -/
theorem ClosesAround.not_spills (h : tail ++ after = scope.flat ++ k) (hclose : ClosesAround tail) :
    ¬ Spills tail scope := by
  rintro ⟨later, hlater, -⟩
  obtain ⟨front, span, back, rfl, hfront⟩ := hclose
  rw [List.append_assoc, List.cons_append] at hlater
  exact Body.openBrackets_ne_nil_of_close hlater hfront

/-- Otherwise the scope has all that the unit has behind the `shorten`. -/
theorem exists_flat_eq_append (h : tail ++ after = scope.flat ++ k) (hk : Body.Ends k)
    (hopen : ¬ ClosesAround tail) : ∃ later, scope.flat = tail ++ later ∧ after = later ++ k := by
  rcases List.append_eq_append_iff.1 h with ⟨later, hflat, hafter⟩ | ⟨more, htail, hafter⟩
  · exact ⟨later, hflat, hafter⟩
  · cases more with
    | nil => exact ⟨[], by simpa using htail.symm, by simpa using hafter.symm⟩
    | cons d more =>
      obtain ⟨span, rfl⟩ : ∃ span, d = .close span := by
        rw [hafter] at hk
        exact hk
      exact absurd ⟨scope.flat, span, more, htail, scope.openBrackets_flat⟩ hopen

/-- A block that the unit leaves open is closed behind it, inside the scope. -/
theorem exists_close_of_openBrackets {later : List Decl} (h : scope.flat = tail ++ later)
    (hopen : openBrackets tail ≠ []) : ∃ span, .close span ∈ later := by
  refine Classical.byContradiction fun hnone => ?_
  have hno : ∀ d ∈ later, ∀ span, d ≠ .close span := fun d hd span he => hnone ⟨span, he ▸ hd⟩
  obtain ⟨opened, hfold⟩ := foldl_bracketsAfter_of_no_close hno (openBrackets tail)
  have hempty := scope.openBrackets_flat
  rw [h, openBrackets, List.foldl_append] at hempty
  have hnil := List.append_eq_nil_iff.1 (hfold.symm.trans hempty)
  exact hopen hnil.2

theorem exists_first_not_bypassing {ds : List Decl} (h : ∃ d ∈ ds, d.bypasses = false) :
    ∃ front d back, ds = front ++ d :: back ∧ (∀ e ∈ front, e.bypasses = true) ∧
      d.bypasses = false := by
  induction ds with
  | nil =>
    obtain ⟨d, hd, -⟩ := h
    cases hd
  | cons d rest ih =>
    cases hd : d.bypasses with
    | false => exact ⟨[], d, rest, rfl, by simp, hd⟩
    | true =>
      have hrest : ∃ e ∈ rest, e.bypasses = false := by
        obtain ⟨e, he, hb⟩ := h
        rcases List.mem_cons.1 he with rfl | he
        · rw [hd] at hb
          cases hb
        · exact ⟨e, he, hb⟩
      obtain ⟨front, e, back, rfl, hfront, he⟩ := ih hrest
      exact ⟨d :: front, e, back, rfl, List.forall_mem_cons.2 ⟨hd, hfront⟩, he⟩

theorem spills_iff_followedUp {later : List Decl} (h : scope.flat = tail ++ later) (hk : Body.Ends k)
    (hafter : after = later ++ k) (hopen : openBrackets tail = []) :
    (∃ d ∈ later, d.bypasses = false) ↔ FollowedUp after := by
  constructor
  · intro hspills
    obtain ⟨front, d, back, rfl, hfront, hd⟩ := exists_first_not_bypassing hspills
    refine ⟨front, d, back ++ k, by rw [hafter]; simp, hfront, hd, ?_⟩
    rintro span rfl
    rw [← List.append_assoc] at h
    refine Body.openBrackets_ne_nil_of_close h ?_
    rw [openBrackets, List.foldl_append, foldl_bracketsAfter_of_bypasses hfront]
    exact hopen
  · rintro ⟨front, d, back, hsplit, hfront, hd, hclose⟩
    rw [hafter] at hsplit
    rcases List.append_eq_append_iff.1 hsplit with ⟨more, rfl, hmore⟩ | ⟨more, rfl, hmore⟩
    · -- The scope would end in front of `d`, where there is no closing.
      rw [hmore] at hk
      cases more with
      | nil =>
        obtain ⟨span, rfl⟩ := hk
        exact absurd rfl (hclose span)
      | cons e more =>
        obtain ⟨span, rfl⟩ := hk
        have hb := hfront (.close span) (by simp)
        cases hb
    · cases more with
      | nil =>
        obtain rfl : _ = k := hmore
        obtain ⟨span, rfl⟩ := hk
        exact absurd rfl (hclose span)
      | cons e more =>
        obtain ⟨rfl, -⟩ := List.cons.inj hmore
        exact ⟨d, by simp, hd⟩

/-- When the scope of a `shorten` takes in something from behind its unit. -/
theorem spills_iff (h : tail ++ after = scope.flat ++ k) (hk : Body.Ends k) :
    Spills tail scope ↔ ¬ ClosesAround tail ∧ (openBrackets tail ≠ [] ∨ FollowedUp after) := by
  by_cases hclose : ClosesAround tail
  · exact iff_of_false (hclose.not_spills h) fun hn => hn.1 hclose
  obtain ⟨later, hflat, hafter⟩ := exists_flat_eq_append h hk hclose
  have hspills : Spills tail scope ↔ ∃ d ∈ later, d.bypasses = false := by
    constructor
    · rintro ⟨later', hflat', hd⟩
      obtain rfl := List.append_cancel_left (hflat.symm.trans hflat')
      exact hd
    · exact fun hd => ⟨later, hflat, hd⟩
  rw [hspills]
  by_cases hopen : openBrackets tail = []
  · rw [spills_iff_followedUp hflat hk hafter hopen]
    simp [hclose, hopen]
  · obtain ⟨span, hspan⟩ := exists_close_of_openBrackets hflat hopen
    exact iff_of_true ⟨_, hspan, rfl⟩ ⟨hclose, .inl hopen⟩

end

/-- Each `shorten` of a unit that is read makes a block, whose scope goes on to the closing of the block
around it or to the end of the program. Something from behind the unit is put into it if and only if the unit
does not close the block around itself, and either leaves a block of its own open or is followed by something
else than a closing. -/
theorem nest_shorten {program : List Decl} {result : NestedProgram} (h : nest program = .ok result)
    {u : ReadUnit} (hu : u ∈ readUnits program) {mid tail : List Decl} {span : Span}
    {shorthands : List Shorthand} (hown : u.own = mid ++ .shorten span shorthands :: tail) :
    ∃ b scope : Body, ∃ k : List Decl, b.flat = expand program ∧ b.scope = result ∧
      b.ShortenAt (u.before ++ mid) span shorthands scope ∧
      (Block.shortened shorthands scope.scope).OccursIn result.body ∧
      tail ++ u.after = scope.flat ++ k ∧ Body.Ends k ∧
      (Spills tail scope ↔ ¬ ClosesAround tail ∧ (openBrackets tail ≠ [] ∨ FollowedUp u.after)) := by
  obtain ⟨b, hb, rfl⟩ := body_of_nest h
  have hflat : b.flat = (u.before ++ mid) ++ .shorten span shorthands :: (tail ++ u.after) := by
    rw [hb, expand_eq_of_mem_readUnits hu, hown]
    simp
  obtain ⟨scope, k, hat, hback, hk⟩ := Body.exists_shortenAt hflat
  exact ⟨b, scope, k, hb, rfl, hat, hat.occursIn [], hback, hk, spills_iff hback hk⟩

/-- A unit that consists of a `shorten`, and a fact behind it. -/
def spilling : List Decl :=
  [.accumulated sampleSpan [(⟨Digest.start⟩, [.shorten sampleSpan [⟨sampleSpan, ⟨24⟩, ⟨25⟩⟩]])],
    sampleFact 26]

/-- The fact is put into the scope of the `shorten`. -/
theorem nest_spilling :
    nest spilling = .ok ⟨[], [], [], [],
        [.shortened [⟨sampleSpan, ⟨24⟩, ⟨25⟩⟩] ⟨[], [], [], [], [.clauses [sampleTyped 26]]⟩]⟩ ∧
      ∃ b scope : Body, b.flat = expand spilling ∧
        b.ShortenAt [] sampleSpan [⟨sampleSpan, ⟨24⟩, ⟨25⟩⟩] scope ∧ Spills [] scope := by
  have hnest : nest spilling = .ok ⟨[], [], [], [],
      [.shortened [⟨sampleSpan, ⟨24⟩, ⟨25⟩⟩] ⟨[], [], [], [], [.clauses [sampleTyped 26]]⟩]⟩ := by rfl
  let u : ReadUnit := ⟨[], [.shorten sampleSpan [⟨sampleSpan, ⟨24⟩, ⟨25⟩⟩]], [sampleFact 26]⟩
  have hu : u ∈ readUnits spilling := List.mem_cons_self
  have hown : u.own = [] ++ .shorten sampleSpan [⟨sampleSpan, ⟨24⟩, ⟨25⟩⟩] :: [] := rfl
  obtain ⟨b, scope, k, hflat, -, hat, -, -, -, hspills⟩ := nest_shorten hnest hu hown
  refine ⟨hnest, b, scope, hflat, hat, hspills.2 ⟨?_, .inr ⟨[], sampleFact 26, [], rfl, ?_, rfl, ?_⟩⟩⟩
  · rintro ⟨front, _, _, hsplit, -⟩
    simp at hsplit
  · simp
  · intro span he
    cases he

end Clausal
