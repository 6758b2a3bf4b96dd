import Clausal.Scope.Options

/-!
# Nesting a flat program

The blocks that are open at a declaration form a stack above the outermost scope. A closing
declaration attaches the innermost block to the one around it. A `shorten` has no closing of its
own: it ends with the block around it. Included units are read in place, each text once.
-/
namespace Clausal

/-- What opened a block. -/
inductive Opening where
  | braces
  | namespaced (name : Symbol)
  | constraint (names : List Symbol)
  | shorten (shorthands : List Shorthand)
  deriving DecidableEq, Repr

namespace Opening

def isShorten : Opening → Bool
  | shorten _ => true
  | _ => false

def isConstraint : Opening → Bool
  | constraint _ => true
  | _ => false

end Opening

/-- A scope under construction. -/
structure Draft where
  scope : Scope Block
  /-- Clauses since the last block. -/
  clauses : List (Clause ClauseOptions)
  rules : List (Rule RuleOptions)
  locals : List Symbol

namespace Draft

def empty : Draft := ⟨.empty, [], [], []⟩

def addBlock (d : Draft) (b : Block) : Draft :=
  { d with scope.body := d.scope.body ++ [b] }

/-- Ends the run of clauses, if there is one. -/
def flush (d : Draft) : Draft :=
  match d.clauses with
  | [] => d
  | clauses => { d.addBlock (.clauses clauses) with clauses := [] }

end Draft

/-- An open block. -/
structure Frame where
  opening : Opening
  span : Span
  draft : Draft

namespace Frame

def toBlock (f : Frame) : Block :=
  let d := f.draft.flush
  match f.opening with
  | .braces => .locals d.locals d.scope
  | .namespaced name => .namespaced name d.scope
  | .constraint names => .constraints names d.rules d.scope
  | .shorten shorthands => .shortened shorthands d.scope

end Frame

structure Nesting where
  outermost : Draft
  /-- The open blocks, innermost first. -/
  frames : List Frame
  /-- The texts included so far. -/
  seen : List Digest

namespace Nesting

def initial : Nesting := ⟨.empty, [], []⟩

/-- Changes the scope that declarations go to. -/
def onTop (n : Nesting) (f : Draft → Draft) : Nesting :=
  match n.frames with
  | [] => { n with outermost := f n.outermost }
  | frame :: rest => { n with frames := { frame with draft := f frame.draft } :: rest }

def openBlock (n : Nesting) (opening : Opening) (span : Span) : Nesting :=
  let n := n.onTop Draft.flush
  { n with frames := ⟨opening, span, .empty⟩ :: n.frames }

/-- Attaches the innermost block to the one around it. -/
def closeTop (n : Nesting) : Nesting :=
  match n.frames with
  | [] => n
  | frame :: rest => { n with frames := rest }.onTop (·.addBlock frame.toBlock)

/-- Closes the innermost blocks as long as they are `shorten` scopes. -/
def closeShortens (n : Nesting) : Nesting :=
  (n.frames.takeWhile (·.opening.isShorten)).foldl (fun n _ => n.closeTop) n

/-- Changes the innermost block that is no `shorten` scope, if it is of the given kind. -/
def onScope (allowed : Opening → Bool) (f : Draft → Draft) : List Frame → Option (List Frame)
  | [] => none
  | frame :: rest =>
    if frame.opening.isShorten then (onScope allowed f rest).map (frame :: ·)
    else if allowed frame.opening then some ({ frame with draft := f frame.draft } :: rest)
    else none

def located {α : Type} (span : Span) : Except NestingFault α → Except TermError α
  | .ok a => .ok a
  | .error fault => .error (.nesting span fault)

def addClause (n : Nesting) (c : Clause (List Attribute)) : Except TermError Nesting := do
  let options ← located c.span (ClauseOptions.ofAttributes c.attributes)
  return n.onTop fun d => { d with clauses := d.clauses ++ [⟨c.span, options, c.body⟩] }

def addLocals (n : Nesting) (span : Span) (names : List Symbol) : Except TermError Nesting :=
  match onScope (· = .braces) (fun d => { d with locals := d.locals ++ names }) n.frames with
  | some frames => .ok { n with frames }
  | none => .error (.nesting span .misplacedLocal)

def addRule (n : Nesting) (r : Rule (List Attribute)) : Except TermError Nesting := do
  let options ← located r.span (RuleOptions.ofAttributes r.span r.attributes)
  let rule : Rule RuleOptions := ⟨r.matched, r.removed, r.guard, r.goal, options, r.span⟩
  match onScope Opening.isConstraint (fun d => { d with rules := d.rules ++ [rule] }) n.frames with
  | some frames => return { n with frames }
  | none => throw (.nesting r.span .misplacedRule)

def addType (n : Nesting) (t : TypeDecl (List Attribute)) : Except TermError Nesting := do
  let option ← located t.span (TypeOption.ofAttributes t.attributes)
  return n.onTop fun d =>
    { d with scope.types := d.scope.types ++ [⟨t.span, option, t.name, t.type⟩] }

def addModes (n : Nesting) (modes : List Mode) : Nesting :=
  n.onTop fun d => { d with scope.modes := d.scope.modes ++ modes }

def addMacro (n : Nesting) (m : MacroDef) : Nesting :=
  n.onTop fun d => { d with scope.macros := d.scope.macros ++ [m] }

def addAbbreviation (n : Nesting) (a : TypeAbbreviation) : Nesting :=
  n.onTop fun d => { d with scope.abbreviations := d.scope.abbreviations ++ [a] }

def closeBlock (n : Nesting) (span : Span) : Except TermError Nesting :=
  let n := n.closeShortens
  if n.frames.isEmpty then .error (.nesting span .unmatchedEnd) else .ok n.closeTop

mutual

def add (n : Nesting) : Decl → Except TermError Nesting
  | .openBlock span => .ok (n.openBlock .braces span)
  | .openNamespace span name => .ok (n.openBlock (.namespaced name) span)
  | .openConstraint span names => .ok (n.openBlock (.constraint names) span)
  | .shorten span shorthands => .ok (n.openBlock (.shorten shorthands) span)
  | .close span => n.closeBlock span
  | .accumulated _ units => addUnits n units
  | .clause c => n.addClause c
  | .locals span names => n.addLocals span names
  | .modes modes => .ok (n.addModes modes)
  | .rule r => n.addRule r
  | .macroDef m => .ok (n.addMacro m)
  | .types types => types.foldlM addType n
  | .typeAbbreviation a => .ok (n.addAbbreviation a)
  | .ignored _ => .ok n

def addUnits (n : Nesting) : List (Digest × List Decl) → Except TermError Nesting
  | [] => .ok n
  | (digest, decls) :: rest =>
    if digest ∈ n.seen then addUnits n rest
    else do
      let n ← addAll { n with seen := digest :: n.seen } decls
      addUnits n rest

def addAll (n : Nesting) : List Decl → Except TermError Nesting
  | [] => .ok n
  | decl :: rest => do
    let n ← add n decl
    addAll n rest

end

/-- The outermost scope, once every block is closed. -/
def finish (n : Nesting) : Except TermError NestedProgram :=
  let n := n.closeShortens
  match n.frames with
  | [] => .ok n.outermost.flush.scope
  | frame :: _ => .error (.nesting frame.span .neverClosed)

end Nesting

/-- The nested form of a flat program. -/
def nest (program : List Decl) : Except TermError NestedProgram := do
  let n ← Nesting.initial.addAll program
  n.finish

end Clausal
