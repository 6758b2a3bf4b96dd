import Clausal.Proofs.BlockTrees

/-!
# Bodies as drafts

A body that still lacks its end is a draft of its own scope, with a frame for each `shorten` scope
in it. More declarations change the innermost of these drafts, and closing the `shorten` scopes
gives the draft of the finished body.
-/
namespace Clausal

namespace Draft

@[simp] theorem scope_flush (d : Draft) :
    d.flush.scope = { d.scope with body := d.scope.body ++ Body.run d.clauses } := by
  unfold flush
  split <;> simp_all [Body.run, addBlock]

@[simp] theorem clauses_flush (d : Draft) : d.flush.clauses = [] := by
  unfold flush
  split <;> simp_all

end Draft

namespace Entry

/-- The draft of a scope after an entry. Local names and rules do not go there. -/
def onto (d : Draft) : Entry → Draft
  | clause _ typed _ => { d with clauses := d.clauses ++ [typed] }
  | types _ typed _ => { d with scope.types := d.scope.types ++ typed }
  | modes ms => { d with scope.modes := d.scope.modes ++ ms }
  | macroDef m => { d with scope.macros := d.scope.macros ++ [m] }
  | typeAbbreviation a => { d with scope.abbreviations := d.scope.abbreviations ++ [a] }
  | rule _ _ _ | locals _ _ | ignored _ => d

theorem onto_eq (d : Draft) (e : Entry) :
    e.onto d =
      { d with
        scope.macros := d.scope.macros ++ e.macroList
        scope.types := d.scope.types ++ e.typeList
        scope.abbreviations := d.scope.abbreviations ++ e.abbreviationList
        scope.modes := d.scope.modes ++ e.modeList
        clauses := d.clauses ++ e.clauseList } := by
  cases e <;> simp [onto, macroList, typeList, abbreviationList, modeList, clauseList]

end Entry

namespace Opening

/-- The block of a body. -/
def blockOf (opening : Opening) (b : Body) : Block :=
  opening.block (b.bracketed Entry.localList) (b.bracketed Entry.ruleList) b.scope

end Opening

namespace Body

/-- Puts more declarations at the end of a body. -/
def append : Body → Body → Body
  | done, more => more
  | entry e rest, more => entry e (rest.append more)
  | block opening bracket span closing inner rest, more =>
    block opening bracket span closing inner (rest.append more)
  | shorten span shorthands rest, more => shorten span shorthands (rest.append more)

/-- The draft of the body's own scope, while all `shorten` scopes in it are open. -/
def top (d : Draft) : Body → Draft
  | done => d
  | entry e rest => rest.top (e.onto d)
  | block opening _ _ _ inner rest => rest.top (d.flush.addBlock (opening.blockOf inner))
  | shorten _ _ _ => d.flush

/-- The draft once the `shorten` scopes are closed. -/
def finishTop (d : Draft) : Body → Draft
  | done => d
  | entry _ rest => rest.finishTop d
  | block _ _ _ _ _ rest => rest.finishTop d
  | shorten _ shorthands rest => d.addBlock (.shortened shorthands rest.scope)

/-- The open `shorten` scopes, innermost first. -/
def shortens : Body → List Frame
  | done => []
  | entry _ rest => rest.shortens
  | block _ _ _ _ _ rest => rest.shortens
  | shorten span shorthands rest =>
    rest.shortens ++ [⟨.shorten shorthands, span, rest.top .empty⟩]

/-- The draft of the block around the `shorten` scopes, which holds local names and rules. -/
def base (b : Body) : Draft :=
  { b.top .empty with
    locals := b.bracketed Entry.localList
    rules := b.bracketed Entry.ruleList }

theorem flat_append (b more : Body) : (b.append more).flat = b.flat ++ more.flat := by
  induction b with
  | done => rfl
  | entry e rest ih => simp [append, flat, ih]
  | block _ _ _ _ _ rest _ ih => simp [append, flat, ih]
  | shorten _ _ rest ih => simp [append, flat, ih]

theorem bracketed_append {α : Type} (f : Entry → List α) (b more : Body) :
    (b.append more).bracketed f = b.bracketed f ++ more.bracketed f := by
  induction b with
  | done => rfl
  | entry e rest ih => simp [append, bracketed, ih]
  | block _ _ _ _ _ rest _ ih => simp [append, bracketed, ih]
  | shorten _ _ rest ih => simp [append, bracketed, ih]

theorem placed_append {b more : Body} : (b.append more).Placed ↔ b.Placed ∧ more.Placed := by
  induction b with
  | done => simp [append, Placed]
  | entry e rest ih => simp [append, Placed, ih]
  | block _ _ _ _ _ rest _ ih => simp [append, Placed, ih, and_assoc]
  | shorten _ _ rest ih => simp [append, Placed, ih]

theorem append_of_shortens_eq_nil {b : Body} (h : b.shortens = []) (more : Body) (d : Draft) :
    (b.append more).shortens = more.shortens ∧ (b.append more).top d = more.top (b.top d) := by
  induction b generalizing d with
  | done => exact ⟨rfl, rfl⟩
  | entry e rest ih => exact ih h _
  | block _ _ _ _ _ rest _ ih => exact ih h _
  | shorten _ _ rest ih => simp [shortens] at h

theorem append_of_shortens_eq_cons {b : Body} {f : Frame} {rest : List Frame}
    (h : b.shortens = f :: rest) (more : Body) (d : Draft) :
    (b.append more).shortens =
        more.shortens ++ { f with draft := more.top f.draft } :: rest ∧
      (b.append more).top d = b.top d := by
  induction b generalizing d f rest with
  | done => simp [shortens] at h
  | entry e _ ih => exact ih h _
  | block _ _ _ _ _ _ _ ih => exact ih h _
  | shorten span s inner ih =>
    refine ⟨?_, rfl⟩
    simp only [shortens, append] at h ⊢
    cases hi : inner.shortens with
    | nil =>
      rw [hi, List.nil_append] at h
      obtain ⟨rfl, rfl⟩ := List.cons.inj h
      obtain ⟨hs, ht⟩ := append_of_shortens_eq_nil hi more .empty
      rw [hs, ht]
    | cons g gs =>
      rw [hi, List.cons_append] at h
      obtain ⟨rfl, rfl⟩ := List.cons.inj h
      obtain ⟨hs, ht⟩ := ih hi .empty
      rw [hs, ht, List.append_assoc, List.cons_append]

/-- Local names and rules pass through a draft. -/
def withLocals (d : Draft) (locals : List Symbol) (rules : List (Rule RuleOptions)) : Draft :=
  { d with locals, rules }

section

variable (d : Draft) (locals : List Symbol) (rules : List (Rule RuleOptions))

theorem flush_withLocals : (withLocals d locals rules).flush = withLocals d.flush locals rules := by
  obtain ⟨scope, clauses, rules', locals'⟩ := d
  cases clauses <;> rfl

theorem onto_withLocals (e : Entry) :
    e.onto (withLocals d locals rules) = withLocals (e.onto d) locals rules := by
  cases e <;> rfl

theorem top_withLocals (b : Body) :
    b.top (withLocals d locals rules) = withLocals (b.top d) locals rules := by
  induction b generalizing d with
  | done => rfl
  | entry e rest ih =>
    rw [top, onto_withLocals]
    exact ih (e.onto d)
  | block opening _ _ _ inner rest _ ih =>
    rw [top, flush_withLocals]
    exact ih (d.flush.addBlock (opening.blockOf inner))
  | shorten _ _ _ => exact flush_withLocals d locals rules

theorem finishTop_withLocals (b : Body) :
    b.finishTop (withLocals d locals rules) = withLocals (b.finishTop d) locals rules := by
  induction b with
  | done => rfl
  | entry _ _ ih => exact ih
  | block _ _ _ _ _ _ _ ih => exact ih
  | shorten _ _ _ => rfl

end

section

variable {b more : Body} (hl : more.bracketed Entry.localList = [])
variable (hr : more.bracketed Entry.ruleList = [])

include hl hr

theorem base_append_of_shortens_eq_nil (h : b.shortens = []) :
    (b.append more).base = more.top b.base := by
  have hb : b.base = withLocals (b.top .empty) (b.bracketed Entry.localList)
      (b.bracketed Entry.ruleList) := rfl
  rw [base, (append_of_shortens_eq_nil h more .empty).2, bracketed_append, bracketed_append, hl, hr,
    List.append_nil, List.append_nil, hb, top_withLocals]
  rfl

theorem base_append_of_shortens_eq_cons {f : Frame} {rest : List Frame}
    (h : b.shortens = f :: rest) : (b.append more).base = b.base := by
  rw [base, (append_of_shortens_eq_cons h more .empty).2, bracketed_append, bracketed_append, hl,
    hr, List.append_nil, List.append_nil, base]

end

/-- A draft with all that a body has of its own. -/
theorem scope_finishTop (b : Body) (d : Draft) :
    ((b.finishTop (b.top d)).flush).scope =
      ⟨d.scope.macros ++ b.own Entry.macroList, d.scope.types ++ b.own Entry.typeList,
        d.scope.abbreviations ++ b.own Entry.abbreviationList,
        d.scope.modes ++ b.own Entry.modeList, d.scope.body ++ b.blocks d.clauses⟩ := by
  induction b generalizing d with
  | done => simp [finishTop, top, own, blocks]
  | entry e rest ih =>
    rw [top, finishTop, ih]
    simp [own, blocks, Entry.onto_eq]
  | block opening _ _ _ inner rest _ ih =>
    rw [top, finishTop, ih]
    simp [own, blocks, Draft.addBlock, Opening.blockOf, scope]
  | shorten span s rest ih =>
    simp [finishTop, top, own, blocks, Draft.addBlock, scope, run]

theorem scope_finishTop_empty (b : Body) :
    ((b.finishTop (b.top .empty)).flush).scope = b.scope := by
  rw [scope_finishTop]
  rfl

theorem isShorten_of_mem_shortens {b : Body} {f : Frame} (h : f ∈ b.shortens) :
    f.opening.isShorten = true := by
  induction b with
  | done => simp [shortens] at h
  | entry _ _ ih => exact ih h
  | block _ _ _ _ _ _ _ ih => exact ih h
  | shorten span s rest ih =>
    rcases List.mem_append.1 h with h | h
    · exact ih h
    · obtain rfl := List.mem_singleton.1 h
      rfl

end Body

end Clausal
