import Clausal.Parse.Declaration
import Clausal.Source.Loader

/-!
# Reading programs and goals

Every entry point takes a vocabulary and gives back the one it leaves behind, also when it fails.
A text that is included twice counts once: the second time it yields no declarations.
-/
namespace Clausal

namespace Parse

def markSeen (digest : Digest) : Parse Unit :=
  fun s => (.ok (), { s with seen := digest :: s.seen })

/-- Includes a unit, whose text is read by `body` unless it has been seen. A text counts as seen
before it is read, so a unit that includes itself does so without effect. -/
def includeUnit (loader : Loader) (body : Parse (List Decl)) : Include := fun span name => do
  match loader.load span name with
  | .error e => fail e
  | .ok source =>
    let digest := Digest.ofText source.text
    if digest ∈ (← state).seen then pure (digest, [])
    else
      markSeen digest
      let decls ← within source.name source.text body
      pure (digest, decls)

/-- The declarations of a text whose inclusions nest at most so deep. -/
def unitBody (loader : Loader) : Nat → Parse (List Decl)
  | 0 => declarations (includeUnit loader (fail (.anomaly .exhausted)))
  | depth + 1 => declarations (includeUnit loader (unitBody loader depth))

/-- The declarations of a text. A chain of inclusions reads no text twice, so it is no longer than
the list of texts that the loader can deliver. -/
def program (loader : Loader) : Parse (List Decl) := unitBody loader loader.texts.length

end Parse

/-- Reads a program from a text. -/
def parseText (v : Vocabulary) (loader : Loader) (source text : String) :
    Except ParseError (List Decl) × Vocabulary :=
  let (result, s) := (Parse.program loader).run (.initial v [] source text)
  (result, s.vocabulary)

/-- The source that the names of whole units are written in. -/
def topLevel : String := "<command line>"

/-- Includes units by name, one declaration for each. -/
def includeAll (loader : Loader) : List String → Parse (List Decl)
  | [] => pure []
  | name :: rest => do
    let unit ← Parse.includeUnit loader (Parse.program loader) (Span.initial topLevel) name
    let others ← includeAll loader rest
    pure (.accumulated (Span.initial topLevel) [unit] :: others)

/-- Reads a program from units named one after the other. -/
def parseUnits (v : Vocabulary) (loader : Loader) (names : List String) :
    Except ParseError (List Decl) × Vocabulary :=
  let (result, s) := (includeAll loader names).run (.initial v [] topLevel "")
  (result, s.vocabulary)

structure Goal where
  span : Span
  term : Term
  deriving DecidableEq, Repr

namespace Parse

/-- A term, a stop that may be left out, and the end of the input. -/
def goal : Parse Goal := do
  let first ← peek
  let t ← term
  let span ← spanFrom first.span
  if (← peek).kind = .stop then
    let _ ← next
  let _ ← expect .endOfInput
  pure ⟨span, t⟩

end Parse

def parseGoal (v : Vocabulary) (source text : String) : Except ParseError Goal × Vocabulary :=
  let (result, s) := Parse.goal.run (.initial v [] source text)
  (result, s.vocabulary)

/-- Reads a single term. -/
def parseTerm (v : Vocabulary) (text : String) : Except ParseError Term × Vocabulary :=
  let (result, v) := parseGoal v "<term>" text
  (result.map (·.term), v)

end Clausal
