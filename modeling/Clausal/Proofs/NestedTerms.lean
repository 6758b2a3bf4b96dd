import Clausal.Proofs.BlockScopes
import Clausal.Proofs.FlatTerms

/-!
# The terms of nested programs

Nesting moves the terms of a program into blocks and makes none of its own. So what holds of all terms
of a flat program holds of all terms of its nested form.
-/
namespace Clausal

namespace Block

mutual

/-- The terms of a block, those of the blocks inside it among them. -/
def terms : Block → List Term
  | .clauses cs => cs.map (·.body)
  | .locals _ scope | .namespaced _ scope | .shortened _ scope => termsOfScope scope
  | .constraints _ rules scope => rules.flatMap Rule.terms ++ termsOfScope scope

def termsOfScope : Scope Block → List Term
  | ⟨macros, types, abbreviations, _, body⟩ =>
    macros.map (·.body) ++ types.map (·.type) ++ abbreviations.map (·.value) ++ termsOfBody body

def termsOfBody : List Block → List Term
  | [] => []
  | b :: rest => b.terms ++ termsOfBody rest

end

theorem termsOfBody_append (bs cs : List Block) :
    termsOfBody (bs ++ cs) = termsOfBody bs ++ termsOfBody cs := by
  induction bs with
  | nil => rfl
  | cons b bs ih => simp [termsOfBody, ih]

end Block

/-- The terms of a nested program. -/
def NestedProgram.terms (p : NestedProgram) : List Term := Block.termsOfScope p

/-- All these terms are alike. -/
def Term.All (P : Term → Prop) (ts : List Term) : Prop := ∀ t ∈ ts, P t

@[simp] theorem Term.all_append {P : Term → Prop} {ts us : List Term} :
    Term.All P (ts ++ us) ↔ Term.All P ts ∧ Term.All P us := by
  simp [Term.All, or_imp, forall_and]

/-- All terms that a scope under construction holds are alike. -/
structure Draft.All (P : Term → Prop) (d : Draft) : Prop where
  macros : Term.All P (d.scope.macros.map (·.body))
  types : Term.All P (d.scope.types.map (·.type))
  abbreviations : Term.All P (d.scope.abbreviations.map (·.value))
  body : Term.All P (Block.termsOfBody d.scope.body)
  clauses : Term.All P (d.clauses.map (·.body))
  rules : Term.All P (d.rules.flatMap Rule.terms)

namespace Nesting

/-- All terms that have been placed are alike. -/
structure All (P : Term → Prop) (n : Nesting) : Prop where
  outermost : n.outermost.All P
  frames : ∀ f ∈ n.frames, f.draft.All P

end Nesting

variable {P : Term → Prop} {d : Draft} {n m : Nesting}

namespace Draft.All

theorem empty : Draft.empty.All P := by
  constructor <;> simp [Draft.empty, Scope.empty, Block.termsOfBody, Term.All]

theorem scope (h : d.All P) : Term.All P (Block.termsOfScope d.scope) := by
  obtain ⟨⟨macros, types, abbreviations, modes, body⟩, clauses, rules, locals⟩ := d
  simp only [Block.termsOfScope, Term.all_append]
  exact ⟨⟨⟨h.macros, h.types⟩, h.abbreviations⟩, h.body⟩

theorem addBlock {b : Block} (h : d.All P) (hb : Term.All P b.terms) : (d.addBlock b).All P where
  macros := h.macros
  types := h.types
  abbreviations := h.abbreviations
  body := by
    simp only [Draft.addBlock, Block.termsOfBody_append, Block.termsOfBody, List.append_nil,
      Term.all_append]
    exact ⟨h.body, hb⟩
  clauses := h.clauses
  rules := h.rules

theorem flush (h : d.All P) : d.flush.All P := by
  obtain ⟨scope, clauses, rules, locals⟩ := d
  cases clauses with
  | nil => exact h
  | cons c cs =>
    have hrun : Term.All P (Block.clauses (c :: cs)).terms := by
      rw [Block.terms]
      exact h.clauses
    have hadded := h.addBlock hrun
    exact ⟨hadded.macros, hadded.types, hadded.abbreviations, hadded.body, by simp [Draft.flush, Term.All],
      hadded.rules⟩

end Draft.All

theorem Frame.all_toBlock {f : Frame} (h : f.draft.All P) : Term.All P f.toBlock.terms := by
  have hflush := h.flush
  obtain ⟨opening, span, draft⟩ := f
  cases opening <;> rw [Frame.toBlock, Block.terms]
  case constraint => exact Term.all_append.2 ⟨hflush.rules, hflush.scope⟩
  all_goals exact hflush.scope

namespace Nesting.All

theorem onTop {f : Draft → Draft} (h : n.All P) (hf : ∀ d : Draft, d.All P → (f d).All P) :
    (n.onTop f).All P := by
  obtain ⟨outermost, frames, seen⟩ := n
  cases frames with
  | nil => exact ⟨hf _ h.outermost, h.frames⟩
  | cons frame rest =>
    obtain ⟨hframe, hrest⟩ := List.forall_mem_cons.1 h.frames
    exact ⟨h.outermost, List.forall_mem_cons.2 ⟨hf _ hframe, hrest⟩⟩

theorem openBlock (h : n.All P) (opening : Opening) (span : Span) : (n.openBlock opening span).All P :=
  have hflush := h.onTop fun _ => Draft.All.flush
  ⟨hflush.outermost, List.forall_mem_cons.2 ⟨.empty, hflush.frames⟩⟩

theorem closeTop (h : n.All P) : n.closeTop.All P := by
  obtain ⟨outermost, frames, seen⟩ := n
  cases frames with
  | nil => exact h
  | cons frame rest =>
    obtain ⟨hframe, hrest⟩ := List.forall_mem_cons.1 h.frames
    have hinner : Nesting.All P ⟨outermost, rest, seen⟩ := ⟨h.outermost, hrest⟩
    exact hinner.onTop fun _ hd => hd.addBlock (Frame.all_toBlock hframe)

theorem closeShortens (h : n.All P) : n.closeShortens.All P := by
  unfold Nesting.closeShortens
  generalize n.frames.takeWhile _ = shortens
  induction shortens generalizing n with
  | nil => exact h
  | cons _ _ ih => exact ih h.closeTop

theorem onScope {allowed : Opening → Bool} {f : Draft → Draft} {frames frames' : List Frame}
    (h : ∀ frame ∈ frames, frame.draft.All P) (hscope : onScope allowed f frames = some frames')
    (hf : ∀ d : Draft, d.All P → (f d).All P) : ∀ frame ∈ frames', frame.draft.All P := by
  induction frames generalizing frames' with
  | nil => cases hscope
  | cons frame rest ih =>
    obtain ⟨hframe, hrest⟩ := List.forall_mem_cons.1 h
    rw [Nesting.onScope] at hscope
    split_ifs at hscope
    · obtain ⟨rest', hrest', rfl⟩ := Option.map_eq_some_iff.1 hscope
      exact List.forall_mem_cons.2 ⟨hframe, ih hrest hrest'⟩
    · obtain rfl := Option.some.inj hscope
      exact List.forall_mem_cons.2 ⟨hf _ hframe, hrest⟩

theorem addClause {c : Clause (List Attribute)} (h : n.All P) (hc : P c.body)
    (hn : n.addClause c = .ok m) : m.All P := by
  obtain ⟨options, -, hn⟩ := ok_of_bind hn
  obtain rfl := Except.ok.inj hn
  refine h.onTop fun d hd => { hd with clauses := ?_ }
  rw [List.map_append, Term.all_append]
  exact ⟨hd.clauses, by simpa [Term.All] using hc⟩

theorem addLocals {span : Span} {names : List Symbol} (h : n.All P)
    (hn : n.addLocals span names = .ok m) : m.All P := by
  unfold Nesting.addLocals at hn
  split at hn
  · next frames hscope =>
    obtain rfl := Except.ok.inj hn
    exact ⟨h.outermost, onScope h.frames hscope fun _ hd => { hd with }⟩
  · cases hn

theorem addRule {r : Rule (List Attribute)} (h : n.All P) (hr : Term.All P r.terms)
    (hn : n.addRule r = .ok m) : m.All P := by
  obtain ⟨options, -, hn⟩ := ok_of_bind hn
  dsimp only at hn
  split at hn
  · next frames hscope =>
    obtain rfl := Except.ok.inj hn
    refine ⟨h.outermost, onScope h.frames hscope fun d hd => { hd with rules := ?_ }⟩
    rw [List.flatMap_append, Term.all_append]
    exact ⟨hd.rules, by simpa [Rule.terms] using hr⟩
  · cases hn

theorem addType {t : TypeDecl (List Attribute)} (h : n.All P) (ht : P t.type)
    (hn : n.addType t = .ok m) : m.All P := by
  obtain ⟨option, -, hn⟩ := ok_of_bind hn
  obtain rfl := Except.ok.inj hn
  refine h.onTop fun d hd => { hd with types := ?_ }
  rw [List.map_append, Term.all_append]
  exact ⟨hd.types, by simpa [Term.All] using ht⟩

theorem addTypes {ts : List (TypeDecl (List Attribute))} (h : n.All P)
    (hts : Term.All P (ts.map (·.type))) (hn : ts.foldlM Nesting.addType n = .ok m) : m.All P := by
  induction ts generalizing n with
  | nil =>
    obtain rfl := Except.ok.inj hn
    exact h
  | cons t ts ih =>
    rw [List.foldlM_cons] at hn
    obtain ⟨n', ht, hn⟩ := ok_of_bind hn
    obtain ⟨hone, hrest⟩ := List.forall_mem_cons.1 hts
    exact ih (h.addType hone ht) hrest hn

theorem closeBlock {span : Span} (h : n.All P) (hn : n.closeBlock span = .ok m) : m.All P := by
  unfold Nesting.closeBlock at hn
  dsimp only at hn
  split_ifs at hn
  obtain rfl := Except.ok.inj hn
  exact h.closeShortens.closeTop

mutual

theorem add {n m : Nesting} {d : Decl} (h : n.All P) (hd : Term.All P d.terms)
    (hn : n.add d = .ok m) : m.All P := by
  match d with
  | .openBlock _ | .openNamespace _ _ | .openConstraint _ _ | .shorten _ _ =>
    obtain rfl := Except.ok.inj hn
    exact h.openBlock _ _
  | .close span => exact h.closeBlock hn
  | .accumulated _ units => exact h.addUnits hd hn
  | .clause c => exact h.addClause (hd _ (by simp [Decl.terms])) hn
  | .locals _ _ => exact h.addLocals hn
  | .modes _ =>
    obtain rfl := Except.ok.inj hn
    exact h.onTop fun _ hd => { hd with }
  | .rule _ => exact h.addRule hd hn
  | .macroDef _ =>
    obtain rfl := Except.ok.inj hn
    refine h.onTop fun d hdraft => { hdraft with macros := ?_ }
    rw [List.map_append, Term.all_append]
    exact ⟨hdraft.macros, hd⟩
  | .types _ => exact h.addTypes hd hn
  | .typeAbbreviation _ =>
    obtain rfl := Except.ok.inj hn
    refine h.onTop fun d hdraft => { hdraft with abbreviations := ?_ }
    rw [List.map_append, Term.all_append]
    exact ⟨hdraft.abbreviations, hd⟩
  | .ignored _ =>
    obtain rfl := Except.ok.inj hn
    exact h

theorem addUnits {n m : Nesting} {units : List (Digest × List Decl)} (h : n.All P)
    (hunits : Term.All P (termsOfUnits units)) (hn : n.addUnits units = .ok m) : m.All P := by
  match units with
  | [] =>
    obtain rfl := Except.ok.inj hn
    exact h
  | (digest, decls) :: rest =>
    rw [termsOfUnits, Term.all_append] at hunits
    rw [Nesting.addUnits] at hn
    split_ifs at hn
    · exact h.addUnits hunits.2 hn
    · obtain ⟨n', hdecls, hn⟩ := ok_of_bind hn
      have hseen : Nesting.All P { n with seen := digest :: n.seen } := ⟨h.outermost, h.frames⟩
      exact (hseen.addAll hunits.1 hdecls).addUnits hunits.2 hn

theorem addAll {n m : Nesting} {ds : List Decl} (h : n.All P) (hds : Term.All P (termsOf ds))
    (hn : n.addAll ds = .ok m) : m.All P := by
  match ds with
  | [] =>
    obtain rfl := Except.ok.inj hn
    exact h
  | d :: rest =>
    rw [termsOf, Term.all_append] at hds
    rw [Nesting.addAll] at hn
    obtain ⟨n', hd, hn⟩ := ok_of_bind hn
    exact (h.add hds.1 hd).addAll hds.2 hn

end

theorem finish {p : NestedProgram} (h : n.All P) (hn : n.finish = .ok p) : Term.All P p.terms := by
  unfold Nesting.finish at hn
  dsimp only at hn
  split at hn
  · obtain rfl := Except.ok.inj hn
    exact h.closeShortens.outermost.flush.scope
  · cases hn

end Nesting.All

/-- A nested program has no terms but those of its flat form. -/
theorem mem_terms_of_nest {program : List Decl} {p : NestedProgram} (h : nest program = .ok p)
    {t : Term} (ht : t ∈ p.terms) : t ∈ termsOf program := by
  obtain ⟨n, hn, hfinish⟩ := Nesting.ok_of_bind h
  have hinitial : Nesting.initial.All (· ∈ termsOf program) := ⟨.empty, by simp [Nesting.initial]⟩
  exact (hinitial.addAll (fun _ ht => ht) hn).finish hfinish t ht

end Clausal
