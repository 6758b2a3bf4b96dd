import Clausal.Proofs.WellNested

/-!
# Nested programs written flat

A nested program is written out block by block: what a scope declares itself, then the blocks in it.
If its runs of clauses are tidy and nothing stands behind a `shorten` scope in its body, nesting the
flat program gives the nested one back.
-/
namespace Clausal

def Clause.untyped (c : Clause ClauseOptions) : Clause (List Attribute) :=
  ⟨c.span, c.attributes.attributes, c.body⟩

def Rule.untyped (r : Rule RuleOptions) : Rule (List Attribute) :=
  ⟨r.matched, r.removed, r.guard, r.goal, r.attributes.attributes, r.span⟩

def TypeDecl.untyped (t : TypeDecl TypeOption) : TypeDecl (List Attribute) :=
  ⟨t.span, t.attributes.attributes, t.name, t.type⟩

theorem Clause.typed_untyped (c : Clause ClauseOptions) : c.untyped.typed = .ok c := by
  rw [Clause.typed, Clause.untyped, ClauseOptions.ofAttributes_attributes]
  rfl

theorem Rule.typed_untyped (r : Rule RuleOptions) : r.untyped.typed = .ok r := by
  rw [Rule.typed, Rule.untyped, RuleOptions.ofAttributes_attributes]
  rfl

theorem TypeDecl.typed_untyped (t : TypeDecl TypeOption) : t.untyped.typed = .ok t := by
  rw [TypeDecl.typed, TypeDecl.untyped, TypeOption.ofAttributes_attributes]
  rfl

theorem TypeDecl.mapM_untyped (ts : List (TypeDecl TypeOption)) :
    (ts.map TypeDecl.untyped).mapM TypeDecl.typed = .ok ts := by
  induction ts with
  | nil => rfl
  | cons t ts ih =>
    rw [List.map_cons, List.mapM_cons, t.typed_untyped, ih]
    rfl

/-- Where the parts of a block stand that have no place in the nested program. -/
structure BlockSpans where
  opened : Span
  locals : Span
  closed : Span

/-- Such spans for every block, which is known by the positions on the way to it. -/
abbrev Sites := List Nat → BlockSpans

def Sites.child (sites : Sites) (i : Nat) : Sites := fun path => sites (i :: path)

/-- What a scope declares itself. -/
def Scope.ownEntries {β : Type} (s : Scope β) : List Entry :=
  s.macros.map .macroDef ++
    [.types (s.types.map TypeDecl.untyped) s.types (TypeDecl.mapM_untyped s.types)] ++
    s.abbreviations.map .typeAbbreviation ++ [.modes s.modes]

def Scope.ownDecls {β : Type} (s : Scope β) : List Decl := s.ownEntries.map Entry.decl

namespace Block

mutual

/-- The declarations of a block. A `shorten` scope has no closing. -/
def flat (sites : Sites) : Block → List Decl
  | .clauses cs => cs.map fun c => .clause c.untyped
  | .locals names s@⟨_, _, _, _, body⟩ =>
    .openBlock (sites []).opened :: (.locals (sites []).locals names :: s.ownDecls ++
      flatBody sites 0 body ++ [.close (sites []).closed])
  | .namespaced name s@⟨_, _, _, _, body⟩ =>
    .openNamespace (sites []).opened name ::
      (s.ownDecls ++ flatBody sites 0 body ++ [.close (sites []).closed])
  | .shortened shorthands s@⟨_, _, _, _, body⟩ =>
    .shorten (sites []).opened shorthands :: (s.ownDecls ++ flatBody sites 0 body)
  | .constraints names rules s@⟨_, _, _, _, body⟩ =>
    .openConstraint (sites []).opened names ::
      (rules.map (fun r => .rule r.untyped) ++ s.ownDecls ++ flatBody sites 0 body ++
        [.close (sites []).closed])

/-- The declarations of the blocks from position `i` on. -/
def flatBody (sites : Sites) (i : Nat) : List Block → List Decl
  | [] => []
  | b :: rest => b.flat (sites.child i) ++ flatBody sites (i + 1) rest

end

def isShortened : Block → Bool
  | shortened _ _ => true
  | _ => false

mutual

/-- Every `shorten` scope inside the block is the last block of its body. -/
def ShortensLast : Block → Prop
  | .clauses _ => True
  | .locals _ ⟨_, _, _, _, body⟩ | .namespaced _ ⟨_, _, _, _, body⟩
  | .shortened _ ⟨_, _, _, _, body⟩ | .constraints _ _ ⟨_, _, _, _, body⟩ => ShortensLastBody body

def ShortensLastBody : List Block → Prop
  | [] => True
  | b :: rest => b.ShortensLast ∧ (b.isShortened = true → rest = []) ∧ ShortensLastBody rest

end

end Block

namespace Scope

/-- The declarations of a program. -/
def flat (sites : Sites) (s : Scope Block) : List Decl := s.ownDecls ++ Block.flatBody sites 0 s.body

/-- The form that nesting gives a program: runs of clauses are neither empty nor divided, and a
`shorten` scope takes in all that is left of the body. -/
structure Canonical (s : Scope Block) : Prop where
  tidy : Block.TidyBody s.body
  shortensLast : Block.ShortensLastBody s.body

end Scope

namespace Scope

variable {β : Type} (s : Scope β)

theorem flatMap_eq_nil {α γ : Type} (xs : List α) : xs.flatMap (fun _ => ([] : List γ)) = [] :=
  List.flatMap_eq_nil_iff.2 fun _ _ => rfl

@[simp] theorem macroList_ownEntries : s.ownEntries.flatMap Entry.macroList = s.macros := by
  simp [ownEntries, List.flatMap_map, Entry.macroList]

@[simp] theorem typeList_ownEntries : s.ownEntries.flatMap Entry.typeList = s.types := by
  simp [ownEntries, List.flatMap_map, Entry.typeList, flatMap_eq_nil]

@[simp] theorem abbreviationList_ownEntries :
    s.ownEntries.flatMap Entry.abbreviationList = s.abbreviations := by
  simp [ownEntries, List.flatMap_map, Entry.abbreviationList]

@[simp] theorem modeList_ownEntries : s.ownEntries.flatMap Entry.modeList = s.modes := by
  simp [ownEntries, List.flatMap_map, Entry.modeList, flatMap_eq_nil]

@[simp] theorem clauseList_ownEntries : s.ownEntries.flatMap Entry.clauseList = [] := by
  simp [ownEntries, List.flatMap_map, Entry.clauseList]

@[simp] theorem localList_ownEntries : s.ownEntries.flatMap Entry.localList = [] := by
  simp [ownEntries, List.flatMap_map, Entry.localList]

@[simp] theorem ruleList_ownEntries : s.ownEntries.flatMap Entry.ruleList = [] := by
  simp [ownEntries, List.flatMap_map, Entry.ruleList]

end Scope

namespace Body

theorem append_done (b : Body) : b.append .done = b := by
  induction b with
  | done => rfl
  | entry e rest ih => rw [append, ih]
  | block _ _ _ _ _ rest _ ih => rw [append, ih]
  | shorten _ _ rest ih => rw [append, ih]

/-- A body that starts with those entries. -/
def entries (es : List Entry) (rest : Body) : Body := es.foldr .entry rest

variable (es : List Entry) (rest : Body)

@[simp] theorem flat_entries : (entries es rest).flat = es.map Entry.decl ++ rest.flat := by
  induction es with
  | nil => rfl
  | cons e es ih => exact congrArg (List.cons e.decl) ih

@[simp] theorem own_entries {α : Type} (f : Entry → List α) :
    (entries es rest).own f = es.flatMap f ++ rest.own f := by
  induction es with
  | nil => rfl
  | cons e es ih => simp [entries, own, ← ih]

@[simp] theorem bracketed_entries {α : Type} (f : Entry → List α) :
    (entries es rest).bracketed f = es.flatMap f ++ rest.bracketed f := by
  induction es with
  | nil => rfl
  | cons e es ih => simp [entries, bracketed, ← ih]

@[simp] theorem blocks_entries (pending : List (Clause ClauseOptions)) :
    (entries es rest).blocks pending = rest.blocks (pending ++ es.flatMap Entry.clauseList) := by
  induction es generalizing pending with
  | nil => simp [entries]
  | cons e es ih =>
    rw [List.flatMap_cons, ← List.append_assoc, ← ih]
    rfl

end Body

namespace Block

def clauseEntry (c : Clause ClauseOptions) : Entry := .clause c.untyped c c.typed_untyped

def ruleEntry (r : Rule RuleOptions) : Entry := .rule r.untyped r r.typed_untyped

mutual

/-- The body that consists of a block and what follows it. -/
def followedBy (sites : Sites) (after : Body) : Block → Body
  | .clauses cs => Body.entries (cs.map clauseEntry) after
  | .locals names s@⟨_, _, _, _, body⟩ =>
    .block .braces rfl (sites []).opened (sites []).closed
      (Body.entries (.locals (sites []).locals names :: s.ownEntries) (toBody sites 0 body)) after
  | .namespaced name s@⟨_, _, _, _, body⟩ =>
    .block (.namespaced name) rfl (sites []).opened (sites []).closed
      (Body.entries s.ownEntries (toBody sites 0 body)) after
  | .shortened shorthands s@⟨_, _, _, _, body⟩ =>
    .shorten (sites []).opened shorthands
      ((Body.entries s.ownEntries (toBody sites 0 body)).append after)
  | .constraints names rules s@⟨_, _, _, _, body⟩ =>
    .block (.constraint names) rfl (sites []).opened (sites []).closed
      (Body.entries (rules.map ruleEntry ++ s.ownEntries) (toBody sites 0 body)) after

def toBody (sites : Sites) (i : Nat) : List Block → Body
  | [] => .done
  | b :: rest => b.followedBy (sites.child i) (toBody sites (i + 1) rest)

end

mutual

theorem flat_followedBy (sites : Sites) (after : Body) (b : Block) :
    (b.followedBy sites after).flat = b.flat sites ++ after.flat := by
  match b with
  | .clauses cs => simp [followedBy, flat, clauseEntry, Entry.decl]
  | .locals names s@⟨_, _, _, _, body⟩ =>
    simp [followedBy, flat, Body.flat, flat_toBody sites 0 body, Opening.decl, Entry.decl,
      Scope.ownDecls]
  | .namespaced name s@⟨_, _, _, _, body⟩ =>
    simp [followedBy, flat, Body.flat, flat_toBody sites 0 body, Opening.decl, Scope.ownDecls]
  | .shortened shorthands s@⟨_, _, _, _, body⟩ =>
    simp [followedBy, flat, Body.flat, Body.flat_append, flat_toBody sites 0 body, Scope.ownDecls]
  | .constraints names rules s@⟨_, _, _, _, body⟩ =>
    simp [followedBy, flat, Body.flat, flat_toBody sites 0 body, Opening.decl, ruleEntry,
      Entry.decl, Scope.ownDecls]

theorem flat_toBody (sites : Sites) (i : Nat) (body : List Block) :
    (toBody sites i body).flat = flatBody sites i body := by
  match body with
  | [] => rfl
  | b :: rest =>
    rw [toBody, flat_followedBy (sites.child i) _ b, flat_toBody sites (i + 1) rest, flatBody]

end

/-- The blocks of a body declare nothing in its own scope. -/
theorem own_toBody {α : Type} {f : Entry → List α} (hf : ∀ c, f (clauseEntry c) = []) (sites : Sites)
    (i : Nat) (body : List Block) : (toBody sites i body).own f = [] := by
  induction body generalizing i with
  | nil => rfl
  | cons b rest ih =>
    have ih := ih (i + 1)
    cases b with
    | clauses cs => simp [toBody, followedBy, ih, List.flatMap_map, hf]
    | shortened shorthands s => rfl
    | _ => exact ih

mutual

/-- Nor do they hold local names or rules outside brackets. -/
theorem bracketed_followedBy {α : Type} {f : Entry → List α} (hf : ∀ c, f (clauseEntry c) = [])
    (hown : ∀ s : Scope Block, s.ownEntries.flatMap f = []) (sites : Sites) (after : Body)
    (b : Block) : (b.followedBy sites after).bracketed f = after.bracketed f := by
  match b with
  | .clauses cs => simp [followedBy, List.flatMap_map, hf]
  | .locals _ _ | .namespaced _ _ | .constraints _ _ _ => rfl
  | .shortened shorthands s@⟨_, _, _, _, body⟩ =>
    simp [followedBy, Body.bracketed, Body.bracketed_append, hown,
      bracketed_toBody hf hown sites 0 body]

theorem bracketed_toBody {α : Type} {f : Entry → List α} (hf : ∀ c, f (clauseEntry c) = [])
    (hown : ∀ s : Scope Block, s.ownEntries.flatMap f = []) (sites : Sites) (i : Nat)
    (body : List Block) : (toBody sites i body).bracketed f = [] := by
  match body with
  | [] => rfl
  | b :: rest =>
    rw [toBody, bracketed_followedBy hf hown, bracketed_toBody hf hown sites (i + 1) rest]

end

/-- Entries that declare nothing in the scope they stand in. -/
structure OutOfScope (es : List Entry) : Prop where
  macros : es.flatMap Entry.macroList = []
  types : es.flatMap Entry.typeList = []
  abbreviations : es.flatMap Entry.abbreviationList = []
  modes : es.flatMap Entry.modeList = []
  clauses : es.flatMap Entry.clauseList = []

theorem outOfScope_nil : OutOfScope [] := ⟨rfl, rfl, rfl, rfl, rfl⟩

theorem outOfScope_locals (span : Span) (names : List Symbol) :
    OutOfScope [.locals span names] := ⟨rfl, rfl, rfl, rfl, rfl⟩

theorem outOfScope_rules (rules : List (Rule RuleOptions)) : OutOfScope (rules.map ruleEntry) := by
  constructor <;> rw [List.flatMap_map] <;> exact Scope.flatMap_eq_nil rules

/-- The body of a scope: entries for the bracket around it, its own entries and the blocks in it. -/
def bodyOf (sites : Sites) (more : List Entry) (s : Scope Block) : Body :=
  Body.entries (more ++ s.ownEntries) (toBody sites 0 s.body)

theorem scope_bodyOf (sites : Sites) {more : List Entry} {s : Scope Block}
    (h : OutOfScope more) (hb : (toBody sites 0 s.body).blocks [] = s.body) :
    (bodyOf sites more s).scope = s := by
  have hmacros := own_toBody (f := Entry.macroList) (fun _ => rfl) sites 0 s.body
  have htypes := own_toBody (f := Entry.typeList) (fun _ => rfl) sites 0 s.body
  have habbreviations := own_toBody (f := Entry.abbreviationList) (fun _ => rfl) sites 0 s.body
  have hmodes := own_toBody (f := Entry.modeList) (fun _ => rfl) sites 0 s.body
  simp [Body.scope, bodyOf, hmacros, htypes, habbreviations, hmodes, h.macros, h.types,
    h.abbreviations, h.modes, h.clauses, hb]

theorem bracketed_bodyOf {α : Type} {f : Entry → List α} (hf : ∀ c, f (clauseEntry c) = [])
    (hown : ∀ s : Scope Block, s.ownEntries.flatMap f = []) (sites : Sites) (more : List Entry)
    (s : Scope Block) : (bodyOf sites more s).bracketed f = more.flatMap f := by
  simp [bodyOf, hown, bracketed_toBody hf hown]

/-- A block with a closing holds what was put into its body. -/
theorem blockOf_bodyOf (sites : Sites) (opening : Opening) {more : List Entry} {s : Scope Block}
    (h : OutOfScope more) (hb : (toBody sites 0 s.body).blocks [] = s.body) :
    opening.blockOf (bodyOf sites more s) =
      opening.block (more.flatMap Entry.localList) (more.flatMap Entry.ruleList) s := by
  rw [Opening.blockOf, scope_bodyOf sites h hb,
    bracketed_bodyOf (fun _ => rfl) Scope.localList_ownEntries,
    bracketed_bodyOf (fun _ => rfl) Scope.ruleList_ownEntries]

mutual

/-- A canonical block comes out as it is, behind the run of clauses that it ends. -/
theorem blocks_followedBy (sites : Sites) {after : Body} {b : Block} (hrun : b.isRun = false)
    (ht : b.Tidy) (hs : b.ShortensLast) (hafter : b.isShortened = true → after = .done)
    (pending : List (Clause ClauseOptions)) :
    (b.followedBy sites after).blocks pending = Body.run pending ++ b :: after.blocks [] := by
  match b with
  | .clauses cs => cases hrun
  | .locals names ⟨ms, ts, as, modes, body⟩ =>
    have hblock := blockOf_bodyOf sites .braces (s := ⟨ms, ts, as, modes, body⟩)
      (outOfScope_locals (sites []).locals names) (blocks_toBody sites 0 ht hs [] fun _ _ _ => rfl)
    rw [List.flatMap_singleton] at hblock
    exact congrArg (Body.run pending ++ · :: after.blocks []) hblock
  | .namespaced name ⟨ms, ts, as, modes, body⟩ =>
    have hblock := blockOf_bodyOf sites (.namespaced name) (s := ⟨ms, ts, as, modes, body⟩)
      outOfScope_nil (blocks_toBody sites 0 ht hs [] fun _ _ _ => rfl)
    exact congrArg (Body.run pending ++ · :: after.blocks []) hblock
  | .shortened shorthands ⟨ms, ts, as, modes, body⟩ =>
    have hscope := scope_bodyOf sites (s := ⟨ms, ts, as, modes, body⟩) outOfScope_nil
      (blocks_toBody sites 0 ht hs [] fun _ _ _ => rfl)
    obtain rfl := hafter rfl
    have hdone : (bodyOf sites [] ⟨ms, ts, as, modes, body⟩).append .done =
        bodyOf sites [] ⟨ms, ts, as, modes, body⟩ := Body.append_done _
    have hblocks := congrArg (Body.run pending ++ [.shortened shorthands ·]) hscope
    rw [← hdone] at hblocks
    exact hblocks
  | .constraints names rules ⟨ms, ts, as, modes, body⟩ =>
    have hblock := blockOf_bodyOf sites (.constraint names) (s := ⟨ms, ts, as, modes, body⟩)
      (outOfScope_rules rules) (blocks_toBody sites 0 ht hs [] fun _ _ _ => rfl)
    have hrules : (rules.map ruleEntry).flatMap Entry.ruleList = rules := by
      simp [List.flatMap_map, ruleEntry, Entry.ruleList]
    rw [hrules] at hblock
    exact congrArg (Body.run pending ++ · :: after.blocks []) hblock

/-- So does a canonical body, whose first block ends the pending run if it is none itself. -/
theorem blocks_toBody (sites : Sites) (i : Nat) {body : List Block} (ht : TidyBody body)
    (hs : ShortensLastBody body) (pending : List (Clause ClauseOptions))
    (hp : ∀ b ∈ body.head?, b.isRun = true → pending = []) :
    (toBody sites i body).blocks pending = Body.run pending ++ body := by
  match body with
  | [] => simp [toBody, Body.blocks]
  | b :: rest =>
    obtain ⟨hb, hnext, hrest⟩ := ht
    obtain ⟨hsb, hlast, hsrest⟩ := hs
    cases hrun : b.isRun with
    | true =>
      obtain rfl := hp b rfl hrun
      obtain ⟨cs, rfl⟩ : ∃ cs, b = .clauses cs := by cases b <;> first | exact ⟨_, rfl⟩ | cases hrun
      have hcs : (cs.map clauseEntry).flatMap Entry.clauseList = cs := by
        simp [List.flatMap_map, clauseEntry, Entry.clauseList]
      have hnone : ∀ next ∈ rest.head?, next.isRun = true → cs = [] := fun next hn h =>
        absurd ((hnext rfl next hn).symm.trans h) Bool.false_ne_true
      rw [toBody, followedBy, Body.blocks_entries, hcs, List.nil_append,
        blocks_toBody sites (i + 1) hrest hsrest cs hnone]
      obtain ⟨c, cs, rfl⟩ := List.exists_cons_of_ne_nil hb
      rfl
    | false =>
      have hafter : b.isShortened = true → toBody sites (i + 1) rest = .done := by
        intro h
        rw [hlast h, toBody]
      rw [toBody, blocks_followedBy (sites.child i) hrun hb hsb hafter,
        blocks_toBody sites (i + 1) hrest hsrest [] fun _ _ _ => rfl]
      rfl

end

end Block

theorem expandAll_eq_self {ds : List Decl} (h : ∀ d ∈ ds, ∀ seen, expandDecl seen d = ([d], seen))
    (seen : List Digest) : expandAll seen ds = (ds, seen) := by
  induction ds with
  | nil => rfl
  | cons d ds ih =>
    rw [expandAll, h d List.mem_cons_self]
    dsimp only
    rw [ih fun e he => h e (List.mem_cons_of_mem _ he)]
    rfl

/-- No units stand in a body. -/
theorem Body.expandDecl_of_mem_flat {b : Body} {d : Decl} (hd : d ∈ b.flat) (seen : List Digest) :
    expandDecl seen d = ([d], seen) := by
  induction b with
  | done => cases hd
  | entry e rest ih =>
    rcases List.mem_cons.1 hd with rfl | hd
    · cases e <;> rfl
    · exact ih hd
  | block opening _ span closing inner rest ihi ihr =>
    rcases List.mem_cons.1 hd with rfl | hd
    · cases opening <;> rfl
    · rcases List.mem_append.1 hd with hd | hd
      · exact ihi hd
      · rcases List.mem_cons.1 hd with rfl | hd
        · rfl
        · exact ihr hd
  | shorten span shorthands rest ih =>
    rcases List.mem_cons.1 hd with rfl | hd
    · rfl
    · exact ih hd

theorem Body.expand_flat (b : Body) : expand b.flat = b.flat := by
  rw [expand, expandAll_eq_self fun d hd => b.expandDecl_of_mem_flat hd]

/-- The declarations may stand where those brackets are open, and leave the same open. -/
def Keeps (around : List Bracket) (ds : List Decl) : Prop :=
  WellPlaced around (ds.flatMap Decl.items) ∧
    (ds.flatMap Decl.items).foldl Decl.bracketsAfter around = around

namespace Keeps

variable {around : List Bracket} {ds es : List Decl}

theorem nil : Keeps around [] := ⟨wellPlaced_nil, rfl⟩

theorem append (hd : Keeps around ds) (he : Keeps around es) : Keeps around (ds ++ es) := by
  obtain ⟨hplaced, hfold⟩ := hd
  refine ⟨?_, ?_⟩
  · rw [List.flatMap_append, wellPlaced_append, hfold]
    exact ⟨hplaced, he.1⟩
  · rw [List.flatMap_append, List.foldl_append, hfold, he.2]

theorem of_items {d : Decl}
    (h : ∀ e ∈ d.items, e.StandsIn around ∧ e.bracketsAfter around = around) :
    Keeps around [d] := by
  rw [Keeps, List.flatMap_singleton]
  generalize d.items = items at h
  induction items with
  | nil => exact ⟨wellPlaced_nil, rfl⟩
  | cons e items ih =>
    obtain ⟨hstands, hafter⟩ := h e List.mem_cons_self
    obtain ⟨hplaced, hfold⟩ := ih fun e' he' => h e' (List.mem_cons_of_mem _ he')
    rw [wellPlaced_cons, List.foldl_cons, hafter]
    exact ⟨⟨hstands, hplaced⟩, hfold⟩

theorem of_forall (h : ∀ d ∈ ds, Keeps around [d]) : Keeps around ds := by
  induction ds with
  | nil => exact nil
  | cons d ds ih =>
    exact (h d List.mem_cons_self).append (ih fun e he => h e (List.mem_cons_of_mem _ he))

theorem bracket (opening : Opening) (hb : opening.isShorten = false) {span closing : Span}
    (h : Keeps (⟨opening, span⟩ :: around) ds) :
    Keeps around (opening.decl span :: (ds ++ [.close closing])) := by
  obtain ⟨hplaced, hfold⟩ := h
  have hopen : (opening.decl span).items = [opening.decl span] ∧
      (opening.decl span).StandsIn around ∧
      (opening.decl span).bracketsAfter around = ⟨opening, span⟩ :: around := by
    cases opening with
    | shorten shorthands => cases hb
    | _ => exact ⟨rfl, trivial, rfl⟩
  obtain ⟨hitems, hstands, hafter⟩ := hopen
  rw [Keeps, List.flatMap_cons, hitems, List.singleton_append, List.flatMap_append,
    wellPlaced_cons, wellPlaced_append, List.foldl_cons, List.foldl_append, hafter, hfold]
  refine ⟨⟨hstands, hplaced, ?_⟩, rfl⟩
  exact wellPlaced_cons.2 ⟨List.cons_ne_nil _ _, wellPlaced_nil⟩

theorem shorten (span : Span) (shorthands : List Shorthand) (h : Keeps around ds) :
    Keeps around (.shorten span shorthands :: ds) := by
  have hfirst : Keeps around [.shorten span shorthands] :=
    of_items (by simp [Decl.items, Decl.StandsIn, Decl.bracketsAfter])
  exact hfirst.append h

theorem clauses (cs : List (Clause ClauseOptions)) :
    Keeps around (cs.map fun c => .clause c.untyped) := by
  refine of_forall fun d hd => ?_
  obtain ⟨c, -, rfl⟩ := List.mem_map.1 hd
  have hadmitted := (ClauseOptions.ofAttributes_iff _).1 ⟨_, c.attributes.ofAttributes_attributes⟩
  refine of_items fun e he => ?_
  obtain rfl := List.mem_singleton.1 he
  exact ⟨hadmitted, rfl⟩

theorem rules {b : Bracket} (hb : b.opening.isConstraint = true)
    (rs : List (Rule RuleOptions)) : Keeps (b :: around) (rs.map fun r => .rule r.untyped) := by
  refine of_forall fun d hd => ?_
  obtain ⟨r, -, rfl⟩ := List.mem_map.1 hd
  have hadmitted := (RuleOptions.ofAttributes_iff r.span _).1
    ⟨_, r.attributes.ofAttributes_attributes r.span⟩
  refine of_items fun e he => ?_
  obtain rfl := List.mem_singleton.1 he
  exact ⟨⟨⟨b, rfl, hb⟩, hadmitted⟩, rfl⟩

theorem locals (span opened : Span) (names : List Symbol) :
    Keeps (⟨.braces, opened⟩ :: around) [.locals span names] :=
  of_items (by simp [Decl.items, Decl.StandsIn, Decl.bracketsAfter])

theorem ownDecls {β : Type} (s : Scope β) : Keeps around s.ownDecls := by
  refine of_forall fun d hd => of_items fun e he => ?_
  obtain ⟨entry, hentry, rfl⟩ := List.mem_map.1 hd
  simp only [Scope.ownEntries, List.mem_append, List.mem_map, List.mem_singleton] at hentry
  rcases hentry with ((⟨m, -, rfl⟩ | rfl) | ⟨a, -, rfl⟩) | rfl
  case inl.inl.inr =>
    obtain ⟨_, ht, rfl⟩ := List.mem_map.1 he
    obtain ⟨t, -, rfl⟩ := List.mem_map.1 ht
    have hadmitted := (TypeOption.ofAttributes_iff _).1 ⟨_, t.attributes.ofAttributes_attributes⟩
    exact ⟨fun t' ht' => by rwa [List.mem_singleton.1 ht'], rfl⟩
  all_goals
    obtain rfl := List.mem_singleton.1 he
    exact ⟨trivial, rfl⟩

end Keeps

namespace Block

mutual

theorem keeps_flat (sites : Sites) (around : List Bracket) (b : Block) :
    Keeps around (b.flat sites) := by
  match b with
  | .clauses cs => exact .clauses cs
  | .locals names ⟨ms, ts, as, modes, body⟩ =>
    exact .bracket .braces rfl
      (((Keeps.locals _ _ names).append (.ownDecls _)).append (keeps_flatBody sites _ 0 body))
  | .namespaced name ⟨ms, ts, as, modes, body⟩ =>
    exact .bracket (.namespaced name) rfl
      ((Keeps.ownDecls _).append (keeps_flatBody sites _ 0 body))
  | .shortened shorthands ⟨ms, ts, as, modes, body⟩ =>
    exact .shorten _ shorthands ((Keeps.ownDecls _).append (keeps_flatBody sites _ 0 body))
  | .constraints names rules ⟨ms, ts, as, modes, body⟩ =>
    exact .bracket (.constraint names) rfl
      (((Keeps.rules rfl rules).append (.ownDecls _)).append (keeps_flatBody sites _ 0 body))

theorem keeps_flatBody (sites : Sites) (around : List Bracket) (i : Nat) (body : List Block) :
    Keeps around (flatBody sites i body) := by
  match body with
  | [] => exact .nil
  | b :: rest =>
    exact (keeps_flat (sites.child i) around b).append (keeps_flatBody sites around (i + 1) rest)

end

end Block

/-- Nesting the flat form of a canonical program gives the program back, wherever its blocks open and
close. -/
theorem nest_flat (sites : Sites) {p : NestedProgram} (h : p.Canonical) :
    nest (p.flat sites) = .ok p := by
  let body := Block.bodyOf sites [] p
  have hbody : body.flat = p.flat sites := by
    simp [body, Block.bodyOf, Block.flat_toBody, Scope.flat, Scope.ownDecls]
  have hexpand : expand (p.flat sites) = p.flat sites := hbody ▸ body.expand_flat
  have hkeeps : Keeps [] (p.flat sites) :=
    (Keeps.ownDecls p).append (Block.keeps_flatBody sites [] 0 p.body)
  have hitems : itemsOf (p.flat sites) = (p.flat sites).flatMap Decl.items := by
    rw [itemsOf, hexpand]
  obtain ⟨result, hresult⟩ := nest_of_wellPlaced (hitems ▸ hkeeps.1)
    (by rw [hitems]; exact hkeeps.2)
  obtain ⟨b, hflat, rfl⟩ := body_of_nest hresult
  obtain rfl : b = body := Body.flat_injective (by rw [hflat, hexpand, hbody])
  rw [hresult]
  exact congrArg Except.ok (Block.scope_bodyOf sites Block.outOfScope_nil
    (Block.blocks_toBody sites 0 h.tidy h.shortensLast [] fun _ _ _ => rfl))

def samplePlace (i : Nat) : Sites := fun path =>
  ⟨lineSpan (i + path.length), lineSpan (i + 1 + path.length), lineSpan (i + 2 + path.length)⟩

/-- Blocks of all kinds. Two `shorten` scopes end with the bodies around them. -/
def allKinds : NestedProgram :=
  let named : Clause ClauseOptions := ⟨lineSpan 2, ⟨some "c", some (.after "a"), none⟩, .const ⟨24⟩⟩
  let rule : Rule RuleOptions := ⟨[], [], none, none, ⟨"r", some "guarded"⟩, lineSpan 3⟩
  ⟨[⟨lineSpan 1, ⟨25⟩, .const ⟨26⟩⟩],
    [⟨lineSpan 1, .index [1], ⟨24⟩, .const .prop⟩, ⟨lineSpan 1, .plain, ⟨26⟩, .const .prop⟩], [],
    [⟨lineSpan 1, ⟨24⟩, [.input]⟩],
    [.clauses [named],
      .locals [⟨27⟩] ⟨[], [], [], [],
        [.namespaced ⟨28⟩ .empty, .clauses [sampleTyped 27],
          .shortened [] ⟨[], [], [], [], [.clauses [sampleTyped 26]]⟩]⟩,
      .constraints [⟨24⟩] [rule] ⟨[], [], [], [], [.clauses [named]]⟩,
      .shortened [⟨lineSpan 4, ⟨29⟩, ⟨30⟩⟩] ⟨[], [], [], [], [.clauses [named, sampleTyped 30]]⟩]⟩

theorem nest_flat_allKinds :
    allKinds.Canonical ∧ nest (allKinds.flat (samplePlace 5)) = .ok allKinds := by
  have h : allKinds.Canonical :=
    ⟨by simp [allKinds, Block.TidyBody, Block.Tidy, Block.isRun, Scope.empty],
      by simp [allKinds, Block.ShortensLastBody, Block.ShortensLast, Block.isShortened, Scope.empty]⟩
  exact ⟨h, nest_flat (samplePlace 5) h⟩

end Clausal
