import Clausal.Scope.Nesting

/-!
# Flat programs as trees of blocks

A `Body` is what stands between an opening and its closing: declarations, whole blocks, and perhaps
a `shorten` scope, which takes in all that is left. `Body.flat` writes it out again, so a flat
program is the body that it is the flat form of. `Body.scope` says where each declaration goes, by
the block that it stands in.
-/
namespace Clausal

mutual

/-- A declaration with units expanded in place, each digest once, and the digests seen by then. -/
def expandDecl (seen : List Digest) : Decl → List Decl × List Digest
  | .accumulated _ units => expandUnits seen units
  | d => ([d], seen)

def expandUnits (seen : List Digest) : List (Digest × List Decl) → List Decl × List Digest
  | [] => ([], seen)
  | (digest, decls) :: rest =>
    if digest ∈ seen then expandUnits seen rest
    else
      let (front, seen) := expandAll (digest :: seen) decls
      let (back, seen) := expandUnits seen rest
      (front ++ back, seen)

def expandAll (seen : List Digest) : List Decl → List Decl × List Digest
  | [] => ([], seen)
  | d :: rest =>
    let (front, seen) := expandDecl seen d
    let (back, seen) := expandAll seen rest
    (front ++ back, seen)

end

/-- A program with its units expanded in place, in reading order. -/
def expand (program : List Decl) : List Decl := (expandAll [] program).1

def Clause.typed (c : Clause (List Attribute)) : Except NestingFault (Clause ClauseOptions) :=
  (ClauseOptions.ofAttributes c.attributes).map fun options => ⟨c.span, options, c.body⟩

def Rule.typed (r : Rule (List Attribute)) : Except NestingFault (Rule RuleOptions) :=
  (RuleOptions.ofAttributes r.span r.attributes).map fun options =>
    ⟨r.matched, r.removed, r.guard, r.goal, options, r.span⟩

def TypeDecl.typed (t : TypeDecl (List Attribute)) : Except NestingFault (TypeDecl TypeOption) :=
  (TypeOption.ofAttributes t.attributes).map fun option => ⟨t.span, option, t.name, t.type⟩

/-- A declaration that opens and closes nothing, with its attributes read. -/
inductive Entry where
  | clause (c : Clause (List Attribute)) (typed : Clause ClauseOptions) (h : c.typed = .ok typed)
  | rule (r : Rule (List Attribute)) (typed : Rule RuleOptions) (h : r.typed = .ok typed)
  | types (ts : List (TypeDecl (List Attribute))) (typed : List (TypeDecl TypeOption))
      (h : ts.mapM TypeDecl.typed = .ok typed)
  | locals (span : Span) (names : List Symbol)
  | modes (modes : List Mode)
  | macroDef (definition : MacroDef)
  | typeAbbreviation (abbreviation : TypeAbbreviation)
  | ignored (span : Span)

namespace Entry

def decl : Entry → Decl
  | clause c _ _ => .clause c
  | rule r _ _ => .rule r
  | types ts _ _ => .types ts
  | locals span names => .locals span names
  | modes ms => .modes ms
  | macroDef m => .macroDef m
  | typeAbbreviation a => .typeAbbreviation a
  | ignored span => .ignored span

def clauseList : Entry → List (Clause ClauseOptions)
  | clause _ typed _ => [typed]
  | _ => []

def ruleList : Entry → List (Rule RuleOptions)
  | rule _ typed _ => [typed]
  | _ => []

def typeList : Entry → List (TypeDecl TypeOption)
  | types _ typed _ => typed
  | _ => []

def localList : Entry → List Symbol
  | locals _ names => names
  | _ => []

def modeList : Entry → List Mode
  | modes ms => ms
  | _ => []

def macroList : Entry → List MacroDef
  | macroDef m => [m]
  | _ => []

def abbreviationList : Entry → List TypeAbbreviation
  | typeAbbreviation a => [a]
  | _ => []

end Entry

/-- What stands between an opening and its closing. -/
inductive Body where
  | done
  | entry (e : Entry) (rest : Body)
  /-- A block that is closed, and what follows it. -/
  | block (opening : Opening) (bracket : opening.isShorten = false) (span closing : Span)
      (inner rest : Body)
  /-- A scope that goes on to the end of the body. -/
  | shorten (span : Span) (shorthands : List Shorthand) (rest : Body)

namespace Opening

def decl (span : Span) : Opening → Decl
  | braces => .openBlock span
  | namespaced name => .openNamespace span name
  | constraint names => .openConstraint span names
  | shorten shorthands => .shorten span shorthands

/-- The block that an opening makes of a scope, local names and rules. -/
def block (locals : List Symbol) (rules : List (Rule RuleOptions)) (scope : Scope Block) :
    Opening → Block
  | braces => .locals locals scope
  | namespaced name => .namespaced name scope
  | constraint names => .constraints names rules scope
  | shorten shorthands => .shortened shorthands scope

end Opening

namespace Body

/-- The declarations of a body, in the order of the text. -/
def flat : Body → List Decl
  | done => []
  | entry e rest => e.decl :: rest.flat
  | block opening _ span closing inner rest =>
    opening.decl span :: (inner.flat ++ .close closing :: rest.flat)
  | shorten span shorthands rest => .shorten span shorthands :: rest.flat

/-- What the body has of one kind in its own scope. -/
def own {α : Type} (f : Entry → List α) : Body → List α
  | done => []
  | entry e rest => f e ++ rest.own f
  | block _ _ _ _ _ rest => rest.own f
  | shorten _ _ _ => []

/-- What the body has of one kind outside its blocks; `shorten` scopes do not count as blocks. -/
def bracketed {α : Type} (f : Entry → List α) : Body → List α
  | done => []
  | entry e rest => f e ++ rest.bracketed f
  | block _ _ _ _ _ rest => rest.bracketed f
  | shorten _ _ rest => rest.bracketed f

/-- The block of a run of clauses, if there are any. -/
def run : List (Clause ClauseOptions) → List Block
  | [] => []
  | clauses => [.clauses clauses]

/-- The clauses and blocks of a body in their order, clauses that no block divides in one run.
`pending` are the clauses of the run that is not yet ended. -/
def blocks (pending : List (Clause ClauseOptions)) : Body → List Block
  | done => run pending
  | entry e rest => rest.blocks (pending ++ e.clauseList)
  | block opening _ _ _ inner rest =>
    run pending ++
      opening.block (inner.bracketed Entry.localList) (inner.bracketed Entry.ruleList)
        ⟨inner.own Entry.macroList, inner.own Entry.typeList, inner.own Entry.abbreviationList,
          inner.own Entry.modeList, inner.blocks []⟩ :: rest.blocks []
  | shorten _ shorthands rest =>
    run pending ++ [.shortened shorthands
      ⟨rest.own Entry.macroList, rest.own Entry.typeList, rest.own Entry.abbreviationList,
        rest.own Entry.modeList, rest.blocks []⟩]

/-- The scope of a body. -/
def scope (b : Body) : Scope Block :=
  ⟨b.own Entry.macroList, b.own Entry.typeList, b.own Entry.abbreviationList,
    b.own Entry.modeList, b.blocks []⟩

/-- The block may hold local names only between braces, and rules only for a constraint. -/
def Fits (b : Body) (opening : Opening) : Prop :=
  (opening ≠ .braces → b.bracketed Entry.localList = []) ∧
    (opening.isConstraint = false → b.bracketed Entry.ruleList = [])

/-- All local names and rules stand in blocks that hold them. -/
def Placed : Body → Prop
  | done => True
  | entry _ rest => rest.Placed
  | block opening _ _ _ inner rest => inner.Fits opening ∧ inner.Placed ∧ rest.Placed
  | shorten _ _ rest => rest.Placed

end Body

namespace Block

def isRun : Block → Bool
  | clauses _ => true
  | _ => false

mutual

/-- No run of clauses in the block is empty or stands next to another one. -/
def Tidy : Block → Prop
  | .clauses cs => cs ≠ []
  | .locals _ ⟨_, _, _, _, body⟩ | .namespaced _ ⟨_, _, _, _, body⟩
  | .shortened _ ⟨_, _, _, _, body⟩ | .constraints _ _ ⟨_, _, _, _, body⟩ => TidyBody body

def TidyBody : List Block → Prop
  | [] => True
  | b :: rest => b.Tidy ∧ (b.isRun = true → ∀ next ∈ rest.head?, next.isRun = false) ∧
      TidyBody rest

end

theorem tidy_run_append {pending : List (Clause ClauseOptions)} {b : Block} {rest : List Block}
    (hr : b.isRun = false) (hb : b.Tidy) (ht : TidyBody rest) :
    TidyBody (Body.run pending ++ b :: rest) := by
  have hcons : TidyBody (b :: rest) := ⟨hb, fun h => Bool.noConfusion (hr.symm.trans h), ht⟩
  cases pending with
  | nil => exact hcons
  | cons c pending =>
    refine ⟨List.cons_ne_nil _ _, fun _ next hn => ?_, hcons⟩
    obtain rfl : b = next := by simpa using hn
    exact hr

end Block

namespace Opening

variable (opening : Opening) (locals : List Symbol) (rules : List (Rule RuleOptions))

theorem isRun_block (scope : Scope Block) : (opening.block locals rules scope).isRun = false := by
  cases opening <;> rfl

theorem tidy_block {scope : Scope Block} (h : Block.TidyBody scope.body) :
    (opening.block locals rules scope).Tidy := by
  cases opening <;> exact h

end Opening

theorem Body.tidy_blocks (b : Body) (pending : List (Clause ClauseOptions)) :
    Block.TidyBody (b.blocks pending) := by
  induction b generalizing pending with
  | done =>
    cases pending with
    | nil => trivial
    | cons c pending => exact ⟨List.cons_ne_nil _ _, by simp, trivial⟩
  | entry e rest ih => exact ih _
  | block opening bracket span closing inner rest ihi ihr =>
    exact Block.tidy_run_append (opening.isRun_block _ _ _) (opening.tidy_block _ _ (ihi []))
      (ihr [])
  | shorten span shorthands rest ih =>
    exact Block.tidy_run_append rfl ((Opening.shorten shorthands).tidy_block [] [] (ih [])) trivial

theorem Entry.decl_injective {e e' : Entry} (h : e.decl = e'.decl) : e = e' := by
  cases e <;> cases e' <;> simp only [Entry.decl, reduceCtorEq, Decl.clause.injEq,
    Decl.rule.injEq, Decl.types.injEq, Decl.locals.injEq, Decl.modes.injEq, Decl.macroDef.injEq,
    Decl.typeAbbreviation.injEq, Decl.ignored.injEq] at h
  case clause.clause c typed hc c' typed' hc' =>
    subst h
    obtain rfl := Except.ok.inj (hc.symm.trans hc')
    rfl
  case rule.rule r typed hr r' typed' hr' =>
    subst h
    obtain rfl := Except.ok.inj (hr.symm.trans hr')
    rfl
  case types.types ts typed ht ts' typed' ht' =>
    subst h
    obtain rfl := Except.ok.inj (ht.symm.trans ht')
    rfl
  all_goals simp [h]

theorem Entry.decl_ne_opening (e : Entry) (opening : Opening) (span : Span) :
    e.decl ≠ opening.decl span := by
  cases e <;> cases opening <;> simp [Entry.decl, Opening.decl]

theorem Opening.decl_injective {o p : Opening} {span span' : Span}
    (h : o.decl span = p.decl span') : o = p ∧ span = span' := by
  cases o <;> cases p <;> simp_all [Opening.decl]

namespace Body

/-- Nothing follows, or the closing of the block around. -/
def Ends : List Decl → Prop
  | [] => True
  | d :: _ => ∃ span, d = .close span

theorem ends_close (span : Span) (more : List Decl) : Ends (.close span :: more) := ⟨span, rfl⟩

theorem not_ends_entry (e : Entry) (more : List Decl) : ¬ Ends (e.decl :: more) := by
  rintro ⟨span, h⟩
  cases e <;> exact Decl.noConfusion h

theorem not_ends_opening (opening : Opening) (span : Span) (more : List Decl) :
    ¬ Ends (opening.decl span :: more) := by
  rintro ⟨span', h⟩
  cases opening <;> exact Decl.noConfusion h

theorem flat_append_injective {b b' : Body} {k m : List Decl} (hk : Ends k) (hm : Ends m)
    (h : b.flat ++ k = b'.flat ++ m) : b = b' ∧ k = m := by
  induction b generalizing b' k m with
  | done =>
    cases b' with
    | done => exact ⟨rfl, h⟩
    | entry e rest =>
      obtain rfl : k = _ := h
      exact absurd hk (not_ends_entry e _)
    | block o _ span _ _ _ =>
      obtain rfl : k = _ := h
      exact absurd hk (not_ends_opening o span _)
    | shorten span s rest =>
      obtain rfl : k = _ := h
      exact absurd hk (not_ends_opening (.shorten s) span _)
  | entry e rest ih =>
    cases b' with
    | done =>
      obtain rfl : _ = m := h
      exact absurd hm (not_ends_entry e _)
    | entry e' rest' =>
      obtain ⟨hd, ht⟩ := List.cons.inj h
      obtain rfl := Entry.decl_injective hd
      obtain ⟨rfl, rfl⟩ := ih hk hm ht
      exact ⟨rfl, rfl⟩
    | block o _ span _ _ _ => exact absurd (List.cons.inj h).1 (e.decl_ne_opening o span)
    | shorten span s rest => exact absurd (List.cons.inj h).1 (e.decl_ne_opening (.shorten s) span)
  | block o bracket span closing inner rest ihi ihr =>
    cases b' with
    | done =>
      obtain rfl : _ = m := h
      exact absurd hm (not_ends_opening o span _)
    | entry e' rest' => exact absurd (List.cons.inj h).1.symm (e'.decl_ne_opening o span)
    | block o' bracket' span' closing' inner' rest' =>
      obtain ⟨hd, ht⟩ := List.cons.inj h
      obtain ⟨rfl, rfl⟩ := Opening.decl_injective hd
      simp only [List.append_eq, List.append_assoc, List.cons_append] at ht
      obtain ⟨rfl, hclose⟩ := ihi (ends_close closing _) (ends_close closing' _) ht
      obtain ⟨hc, hrest⟩ := List.cons.inj hclose
      obtain rfl := Decl.close.inj hc
      obtain ⟨rfl, rfl⟩ := ihr hk hm hrest
      exact ⟨rfl, rfl⟩
    | shorten span' s rest' =>
      obtain ⟨rfl, -⟩ := Opening.decl_injective (p := .shorten s) (List.cons.inj h).1
      exact Bool.noConfusion bracket
  | shorten span s rest ih =>
    cases b' with
    | done =>
      obtain rfl : _ = m := h
      exact absurd hm (not_ends_opening (.shorten s) span _)
    | entry e' rest' =>
      exact absurd (List.cons.inj h).1.symm (e'.decl_ne_opening (.shorten s) span)
    | block o' bracket' span' closing' inner' rest' =>
      obtain ⟨rfl, -⟩ := Opening.decl_injective (o := .shorten s) (List.cons.inj h).1
      exact Bool.noConfusion bracket'
    | shorten span' s' rest' =>
      obtain ⟨hd, ht⟩ := List.cons.inj h
      obtain ⟨rfl, rfl⟩ := Decl.shorten.inj hd
      obtain ⟨rfl, rfl⟩ := ih hk hm ht
      exact ⟨rfl, rfl⟩

/-- A flat program is the flat form of one body only. -/
theorem flat_injective {b b' : Body} (h : b.flat = b'.flat) : b = b' :=
  (flat_append_injective (k := []) (m := []) trivial trivial (by simpa using h)).1

end Body

end Clausal
