import Clausal.Scope.Nesting
import Mathlib.Tactic.Common

/-!
# Nesting with a single stack

The outermost scope can be kept as one more frame, below those of the open blocks. Then there are things to
go wrong that are not faults of a program: the stack may be empty, have no frame for the outermost scope, or
that frame may be taken for a block. Here these cases have no result, and no program leads to any of them.
-/
namespace Clausal

/-- A frame of an open block, or of the outermost scope. -/
structure StackFrame where
  opening : Option Opening
  span : Span
  draft : Draft

namespace StackFrame

def isShorten (f : StackFrame) : Bool := f.opening.any Opening.isShorten

/-- The outermost scope is no block. -/
def toBlock? (f : StackFrame) : Option Block :=
  f.opening.map fun opening => (Frame.mk opening f.span f.draft).toBlock

end StackFrame

/-- The frame of the outermost scope. -/
def StackFrame.root (d : Draft) : StackFrame := ⟨none, Span.initial "<root>", d⟩

structure FrameStack where
  /-- The frames, innermost first. -/
  frames : List StackFrame
  seen : List Digest

namespace FrameStack

/-- A step on the stack: it may fail, or have no result. -/
abbrev Step (α : Type) : Type := ExceptT TermError Option α

def initial : FrameStack := ⟨[.root .empty], []⟩

def onTop (s : FrameStack) (f : Draft → Draft) : Option FrameStack :=
  match s.frames with
  | [] => none
  | frame :: rest => some { s with frames := { frame with draft := f frame.draft } :: rest }

def openBlock (s : FrameStack) (opening : Opening) (span : Span) : Option FrameStack := do
  let s ← s.onTop Draft.flush
  some { s with frames := ⟨some opening, span, .empty⟩ :: s.frames }

def closeTop (s : FrameStack) : Option FrameStack :=
  match s.frames with
  | [] => some s
  | frame :: rest => do
    let block ← frame.toBlock?
    { s with frames := rest }.onTop (·.addBlock block)

def closeShortens (s : FrameStack) : Option FrameStack :=
  (s.frames.takeWhile (·.isShorten)).foldlM (fun s _ => s.closeTop) s

/-- Changes the innermost frame that is no `shorten` scope, if it is of the given kind. There has to be
such a frame. -/
def onScope (allowed : Opening → Bool) (f : Draft → Draft) :
    List StackFrame → Option (Option (List StackFrame))
  | [] => none
  | frame :: rest =>
    if frame.isShorten then (onScope allowed f rest).map (·.map (frame :: ·))
    else if frame.opening.any allowed then some (some ({ frame with draft := f frame.draft } :: rest))
    else some none

/-- Changes the scope, or fails if it is not of the given kind. -/
def inScope (s : FrameStack) (allowed : Opening → Bool) (f : Draft → Draft) (e : TermError) :
    Step FrameStack := do
  match ← onScope allowed f s.frames with
  | some frames => pure { s with frames }
  | none => throw e

def addClause (s : FrameStack) (c : Clause (List Attribute)) : Step FrameStack := do
  let options ← ExceptT.mk (some (Nesting.located c.span (ClauseOptions.ofAttributes c.attributes)))
  s.onTop fun d => { d with clauses := d.clauses ++ [⟨c.span, options, c.body⟩] }

def addRule (s : FrameStack) (r : Rule (List Attribute)) : Step FrameStack := do
  let options ←
    ExceptT.mk (some (Nesting.located r.span (RuleOptions.ofAttributes r.span r.attributes)))
  let rule : Rule RuleOptions := ⟨r.matched, r.removed, r.guard, r.goal, options, r.span⟩
  s.inScope Opening.isConstraint (fun d => { d with rules := d.rules ++ [rule] })
    (.nesting r.span .misplacedRule)

def addType (s : FrameStack) (t : TypeDecl (List Attribute)) : Step FrameStack := do
  let option ← ExceptT.mk (some (Nesting.located t.span (TypeOption.ofAttributes t.attributes)))
  s.onTop fun d =>
    { d with scope.types := d.scope.types ++ [⟨t.span, option, t.name, t.type⟩] }

def closeBlock (s : FrameStack) (span : Span) : Step FrameStack := do
  let s ← s.closeShortens
  if s.frames.length = 1 then throw (.nesting span .unmatchedEnd) else s.closeTop

mutual

def add (s : FrameStack) : Decl → Step FrameStack
  | .openBlock span => s.openBlock .braces span
  | .openNamespace span name => s.openBlock (.namespaced name) span
  | .openConstraint span names => s.openBlock (.constraint names) span
  | .shorten span shorthands => s.openBlock (.shorten shorthands) span
  | .close span => s.closeBlock span
  | .accumulated _ units => addUnits s units
  | .clause c => s.addClause c
  | .locals span names =>
    s.inScope (· = .braces) (fun d => { d with locals := d.locals ++ names })
      (.nesting span .misplacedLocal)
  | .modes modes => s.onTop fun d => { d with scope.modes := d.scope.modes ++ modes }
  | .rule r => s.addRule r
  | .macroDef m => s.onTop fun d => { d with scope.macros := d.scope.macros ++ [m] }
  | .types types => types.foldlM addType s
  | .typeAbbreviation a =>
    s.onTop fun d => { d with scope.abbreviations := d.scope.abbreviations ++ [a] }
  | .ignored _ => pure s

def addUnits (s : FrameStack) : List (Digest × List Decl) → Step FrameStack
  | [] => pure s
  | (digest, decls) :: rest =>
    if digest ∈ s.seen then addUnits s rest
    else do
      let s ← addAll { s with seen := digest :: s.seen } decls
      addUnits s rest

def addAll (s : FrameStack) : List Decl → Step FrameStack
  | [] => pure s
  | decl :: rest => do
    let s ← add s decl
    addAll s rest

end

def finish (s : FrameStack) : Step NestedProgram := do
  let s ← s.closeShortens
  match s.frames with
  | [] => none
  | frame :: _ =>
    if frame.opening.isNone then pure frame.draft.flush.scope
    else throw (.nesting frame.span .neverClosed)

/-- The nested form of a flat program, unless the stack is not as it should be. -/
def nest? (program : List Decl) : Option (Except TermError NestedProgram) := ExceptT.run do
  let s ← initial.addAll program
  s.finish

end FrameStack

def Frame.stacked (f : Frame) : StackFrame := ⟨some f.opening, f.span, f.draft⟩

namespace Nesting

/-- The frames of the open blocks above the one of the outermost scope. -/
def stack (n : Nesting) : FrameStack :=
  ⟨n.frames.map Frame.stacked ++ [.root n.outermost], n.seen⟩

variable (n : Nesting)

theorem onTop_stack (f : Draft → Draft) : n.stack.onTop f = some (n.onTop f).stack := by
  obtain ⟨outermost, frames, seen⟩ := n
  cases frames <;> rfl

theorem openBlock_stack (opening : Opening) (span : Span) :
    n.stack.openBlock opening span = some (n.openBlock opening span).stack := by
  rw [FrameStack.openBlock, onTop_stack]
  rfl

/-- An open block has a frame around it. -/
theorem closeTop_stack (h : n.frames ≠ []) : n.stack.closeTop = some n.closeTop.stack := by
  obtain ⟨outermost, frames, seen⟩ := n
  cases frames with
  | nil => exact absurd rfl h
  | cons frame rest => exact onTop_stack ⟨outermost, rest, seen⟩ (·.addBlock frame.toBlock)

theorem length_closeTop : n.closeTop.frames.length = n.frames.length - 1 := by
  obtain ⟨outermost, frames, seen⟩ := n
  cases frames with
  | nil => rfl
  | cons frame rest => cases rest <;> rfl

/-- As many blocks can be closed as are open. -/
theorem foldlM_closeTop_stack {β : Type} (ys : List β) (h : ys.length ≤ n.frames.length) :
    ys.foldlM (fun s _ => s.closeTop) n.stack =
      some (ys.foldl (fun n _ => n.closeTop) n).stack := by
  induction ys generalizing n with
  | nil => rfl
  | cons y ys ih =>
    rw [List.length_cons] at h
    have hne : n.frames ≠ [] := by
      intro hnil
      simp [hnil] at h
    rw [List.foldlM_cons, closeTop_stack n hne]
    refine ih n.closeTop ?_
    rw [length_closeTop]
    omega

/-- The frame of the outermost scope is no `shorten` scope. -/
theorem takeWhile_stack (frames : List Frame) (root : Draft) :
    (frames.map Frame.stacked ++ [StackFrame.root root]).takeWhile (·.isShorten) =
      (frames.takeWhile (·.opening.isShorten)).map Frame.stacked := by
  induction frames with
  | nil => rfl
  | cons frame rest ih =>
    have hframe : frame.stacked.isShorten = frame.opening.isShorten := rfl
    rw [List.map_cons, List.cons_append, List.takeWhile_cons, List.takeWhile_cons, hframe, ih]
    split_ifs <;> rfl

theorem closeShortens_stack : n.stack.closeShortens = some n.closeShortens.stack := by
  have hshortens : n.stack.frames.takeWhile (·.isShorten) =
      (n.frames.takeWhile (·.opening.isShorten)).map Frame.stacked :=
    takeWhile_stack n.frames n.outermost
  rw [FrameStack.closeShortens, hshortens, List.foldlM_map]
  exact foldlM_closeTop_stack n _ (List.takeWhile_sublist _).length_le

/-- A scope is found, since the outermost one is a scope. -/
theorem onScope_stack (allowed : Opening → Bool) (f : Draft → Draft) (frames : List Frame)
    (root : Draft) :
    FrameStack.onScope allowed f (frames.map Frame.stacked ++ [.root root]) =
      some ((onScope allowed f frames).map fun found =>
        found.map Frame.stacked ++ [.root root]) := by
  induction frames with
  | nil => rfl
  | cons frame rest ih =>
    have hshorten : frame.stacked.isShorten = frame.opening.isShorten := rfl
    have hopening : frame.stacked.opening.any allowed = allowed frame.opening := rfl
    rw [List.map_cons, List.cons_append, FrameStack.onScope, onScope, ih, hshorten, hopening]
    split_ifs
    · rw [Option.map_some, Option.map_map, Option.map_map]
      rfl
    · rfl
    · rfl

end Nesting

/-- A step on the stack has a result, that of the step on the nesting. -/
def Mirrors (step : FrameStack.Step FrameStack) (r : Except TermError Nesting) : Prop :=
  step.run = some (r.map Nesting.stack)

namespace Mirrors

variable {step : FrameStack.Step FrameStack} {r : Except TermError Nesting} {n : Nesting}

theorem ok {o : Option FrameStack} (h : o = some n.stack) : Mirrors o (.ok n) := by
  subst h
  rfl

theorem bind {f : FrameStack → FrameStack.Step FrameStack} {g : Nesting → Except TermError Nesting}
    (h : Mirrors step r) (hf : ∀ n, r = .ok n → Mirrors (f n.stack) (g n)) :
    Mirrors (step >>= f) (r >>= g) := by
  rw [Mirrors, ExceptT.run_bind, h]
  cases r with
  | error e => rfl
  | ok n => exact hf n rfl

/-- A step on the stack that depends on what may be refused. -/
theorem bind_of {α : Type} {a : Except TermError α} {f : α → FrameStack.Step FrameStack}
    {g : α → Except TermError Nesting} (hf : ∀ x, Mirrors (f x) (g x)) :
    Mirrors (ExceptT.mk (some a) >>= f) (a >>= g) := by
  rw [Mirrors, ExceptT.run_bind]
  cases a with
  | error e => rfl
  | ok x => exact hf x

theorem onTop (n : Nesting) (f : Draft → Draft) : Mirrors (n.stack.onTop f) (.ok (n.onTop f)) :=
  ok (n.onTop_stack f)

theorem openBlock (n : Nesting) (opening : Opening) (span : Span) :
    Mirrors (n.stack.openBlock opening span) (.ok (n.openBlock opening span)) :=
  ok (n.openBlock_stack opening span)

/-- Going on with a stack that is there. -/
theorem bind_some {α β : Type} (a : α) (f : α → FrameStack.Step β) :
    ((liftM (some a) : FrameStack.Step α) >>= f) = f a := rfl

theorem closeBlock (n : Nesting) (span : Span) :
    Mirrors (n.stack.closeBlock span) (n.closeBlock span) := by
  rw [FrameStack.closeBlock, n.closeShortens_stack, bind_some, Nesting.closeBlock]
  generalize n.closeShortens = m
  have hlength : m.stack.frames.length = m.frames.length + 1 := by simp [Nesting.stack]
  by_cases hframes : m.frames = []
  · rw [if_pos (by rw [hlength, hframes]; rfl), if_pos (List.isEmpty_iff.2 hframes)]
    rfl
  · have hpos := List.length_pos_iff.2 hframes
    rw [if_neg (by omega), if_neg (mt List.isEmpty_iff.1 hframes)]
    exact ok (m.closeTop_stack hframes)

/-- Changing the scope, where both fail with the same error. -/
theorem inScope {allowed : Opening → Bool} {f : Draft → Draft} {e : TermError}
    (hsome : ∀ frames, Nesting.onScope allowed f n.frames = some frames → r = .ok { n with frames })
    (hnone : Nesting.onScope allowed f n.frames = none → r = .error e) :
    Mirrors (n.stack.inScope allowed f e) r := by
  have hscope : FrameStack.onScope allowed f n.stack.frames = _ :=
    Nesting.onScope_stack allowed f n.frames n.outermost
  rw [FrameStack.inScope, hscope, bind_some]
  cases hfound : Nesting.onScope allowed f n.frames with
  | some frames =>
    obtain rfl := hsome frames hfound
    rfl
  | none =>
    obtain rfl := hnone hfound
    rfl

theorem addClause (n : Nesting) (c : Clause (List Attribute)) :
    Mirrors (n.stack.addClause c) (n.addClause c) :=
  bind_of fun _ => onTop n _

theorem addType (n : Nesting) (t : TypeDecl (List Attribute)) :
    Mirrors (n.stack.addType t) (n.addType t) :=
  bind_of fun _ => onTop n _

theorem addTypes (n : Nesting) (ts : List (TypeDecl (List Attribute))) :
    Mirrors (ts.foldlM FrameStack.addType n.stack) (ts.foldlM Nesting.addType n) := by
  induction ts generalizing n with
  | nil => rfl
  | cons t ts ih =>
    rw [List.foldlM_cons, List.foldlM_cons]
    exact (addType n t).bind fun m _ => ih m

theorem addLocals (n : Nesting) (span : Span) (names : List Symbol) :
    Mirrors (n.stack.inScope (· = .braces) (fun d => { d with locals := d.locals ++ names })
      (.nesting span .misplacedLocal)) (n.addLocals span names) := by
  refine inScope (fun frames h => ?_) fun h => ?_ <;> rw [Nesting.addLocals, h]

theorem addRule (n : Nesting) (r : Rule (List Attribute)) :
    Mirrors (n.stack.addRule r) (n.addRule r) := by
  refine bind_of fun options => inScope (fun frames h => ?_) fun h => ?_ <;> dsimp only <;> rw [h] <;> rfl

end Mirrors

namespace Nesting

mutual

theorem mirrors_add (n : Nesting) (d : Decl) : Mirrors (n.stack.add d) (n.add d) := by
  match d with
  | .openBlock span => exact .openBlock n .braces span
  | .openNamespace span name => exact .openBlock n (.namespaced name) span
  | .openConstraint span names => exact .openBlock n (.constraint names) span
  | .shorten span shorthands => exact .openBlock n (.shorten shorthands) span
  | .close span => exact .closeBlock n span
  | .accumulated _ units => exact mirrors_addUnits n units
  | .clause c => exact .addClause n c
  | .locals span names => exact .addLocals n span names
  | .modes modes => exact .onTop n _
  | .rule r => exact .addRule n r
  | .macroDef m => exact .onTop n _
  | .types ts => exact .addTypes n ts
  | .typeAbbreviation a => exact .onTop n _
  | .ignored span => rfl

theorem mirrors_addUnits (n : Nesting) (units : List (Digest × List Decl)) :
    Mirrors (n.stack.addUnits units) (n.addUnits units) := by
  match units with
  | [] => rfl
  | (digest, decls) :: rest =>
    rw [addUnits, FrameStack.addUnits]
    have hseen : n.stack.seen = n.seen := rfl
    rw [hseen]
    split
    · exact mirrors_addUnits n rest
    · exact (mirrors_addAll { n with seen := digest :: n.seen } decls).bind fun m _ =>
        mirrors_addUnits m rest

theorem mirrors_addAll (n : Nesting) (ds : List Decl) : Mirrors (n.stack.addAll ds) (n.addAll ds) := by
  match ds with
  | [] => rfl
  | d :: rest =>
    rw [addAll, FrameStack.addAll]
    exact (mirrors_add n d).bind fun m _ => mirrors_addAll m rest

end

end Nesting

theorem Nesting.finish_stack (n : Nesting) : n.stack.finish.run = some n.finish := by
  rw [FrameStack.finish, n.closeShortens_stack, Mirrors.bind_some, Nesting.finish]
  generalize n.closeShortens = m
  obtain ⟨outermost, frames, seen⟩ := m
  cases frames <;> rfl

/-- No program leads to a stack that is empty or has lost its outermost scope. -/
theorem FrameStack.nest?_eq (program : List Decl) : nest? program = some (nest program) := by
  have hadded : Mirrors (initial.addAll program) (Nesting.initial.addAll program) :=
    Nesting.initial.mirrors_addAll program
  rw [nest?, ExceptT.run_bind, hadded, nest]
  cases Nesting.initial.addAll program with
  | error e => rfl
  | ok n => exact n.finish_stack

end Clausal
