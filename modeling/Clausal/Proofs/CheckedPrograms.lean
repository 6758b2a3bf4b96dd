import Clausal.Proofs.BuiltInOperators
import Clausal.Proofs.CheckedDeclarations
import Clausal.Proofs.ProgramOutcomes

/-!
# Entry points that check what they rely on

The entry points of reading, with the readers that check. They do the same as those without checks for every
text, every loader and every vocabulary of a session.
-/
namespace Clausal.Parse

namespace Checked

section

-- The step that is run when a check fails.
variable (halt : (α : Type) → Parse α)

def unitBody (loader : Loader) : Nat → Parse (List Decl)
  | 0 => declarations halt (includeUnit loader (fail (.anomaly .exhausted)))
  | depth + 1 => declarations halt (includeUnit loader (unitBody loader depth))

def program (loader : Loader) : Parse (List Decl) := unitBody halt loader loader.texts.length

def parseText (v : Vocabulary) (loader : Loader) (source text : String) :
    Except ParseError (List Decl) × Vocabulary :=
  let (result, s) := (program halt loader).run (.initial v [] source text)
  (result, s.vocabulary)

def includeAll (loader : Loader) : List String → Parse (List Decl)
  | [] => pure []
  | name :: rest => do
    let unit ← includeUnit loader (program halt loader) (Span.initial topLevel) name
    let others ← includeAll loader rest
    pure (.accumulated (Span.initial topLevel) [unit] :: others)

def parseUnits (v : Vocabulary) (loader : Loader) (names : List String) :
    Except ParseError (List Decl) × Vocabulary :=
  let (result, s) := (includeAll halt loader names).run (.initial v [] topLevel "")
  (result, s.vocabulary)

def goal : Parse Goal := do
  let first ← peek
  let t ← term halt
  let span ← spanFrom first.span
  if (← peek).kind = .stop then
    let _ ← next
  let _ ← expect .endOfInput
  pure ⟨span, t⟩

def parseGoal (v : Vocabulary) (source text : String) : Except ParseError Goal × Vocabulary :=
  let (result, s) := (goal halt).run (.initial v [] source text)
  (result, s.vocabulary)

/-- Reads the texts of the baseline one after the other. -/
def parseTexts (v : Vocabulary) : List String → Except ParseError (List Decl) × Vocabulary
  | [] => (.ok [], v)
  | text :: rest =>
    match parseText halt v .disabled Baseline.sourceName text with
    | (.error e, v) => (.error e, v)
    | (.ok decls, v) =>
      let (others, v) := parseTexts v rest
      (others.map (decls ++ ·), v)

/-- Loads the baseline. -/
def load (v : Vocabulary) (config : Baseline.Config) : Baseline.Outcome :=
  match v.beginBootstrap with
  | (false, v) => ⟨.ok [], v, [⟨config.verbose, "pervasives already loaded"⟩]⟩
  | (true, v) =>
    match v.defineBaseline with
    | (.error e, v) => ⟨.error (.term e), v, []⟩
    | (.ok _, v) =>
      match parseTexts halt v (Baseline.texts config.variant) with
      | (.error e, v) => ⟨.error e, v, []⟩
      | (.ok program, v) =>
        ⟨.ok program, v, [⟨config.verbose, Baseline.loadedText config.variant program v⟩]⟩

end

variable {halt : (α : Type) → Parse α} {loader : Loader} {s : ParseState}

theorem includeUnit_eq {body body' : Parse (List Decl)} {seen : List Digest} {depth : Nat}
    (h : loader.unread seen ≤ depth)
    (hbody : ∀ s, Settled s → loader.unread s.seen < depth → body' s = body s) (span : Span)
    (name : String) (s : ParseState) (hs : Settled s) (hseen : ∀ d ∈ seen, d ∈ s.seen) :
    includeUnit loader body' span name s = includeUnit loader body span name s := by
  cases hl : loader.load span name with
  | error e => rw [includeUnit_of_error hl, includeUnit_of_error hl]
  | ok source =>
    by_cases hd : source.digest ∈ s.seen
    · rw [includeUnit_of_seen hl hd, includeUnit_of_seen hl hd]
    · have hlt := Nat.lt_of_lt_of_le (Loader.unread_lt hl hd)
        (Nat.le_trans (Loader.unread_anti hseen) h)
      have hentering : Settled (s.entering source) := settled_initial hs.reachable _ _ _
      rw [includeUnit_of_unseen hl hd, includeUnit_of_unseen hl hd, hbody _ hentering hlt]

theorem unitBody_eq (depth : Nat) (h : loader.unread s.seen ≤ depth) (hs : Settled s) :
    unitBody halt loader depth s = Parse.unitBody loader depth s := by
  induction depth generalizing s with
  | zero =>
    exact declarations_eq loader (Delivers.includes_of_unread h fun _ hlt => absurd hlt (Nat.not_lt_zero _))
      (fun _ _ _ _ _ => rfl) hs fun _ hd => hd
  | succ depth ih =>
    exact declarations_eq loader
      (Delivers.includes_of_unread h fun _ hlt => Delivers.unitBody depth (Nat.le_of_lt_succ hlt))
      (includeUnit_eq h fun _ hs' hlt => ih (Nat.le_of_lt_succ hlt) hs') hs fun _ hd => hd

theorem program_eq (hs : Settled s) : program halt loader s = Parse.program loader s :=
  unitBody_eq _ (loader.unread_le s.seen) hs

theorem includeAll_eq (names : List String) (hs : Settled s) :
    includeAll halt loader names s = Clausal.includeAll loader names s := by
  induction names generalizing s with
  | nil => rfl
  | cons name rest ih =>
    have hnone : ∀ d ∈ ([] : List Digest), d ∈ s.seen := List.forall_mem_nil _
    have hincludes : Delivers.Includes loader [] (includeUnit loader (Parse.program loader)) :=
      Delivers.includes_includeUnit fun _ _ _ _ => Delivers.program
    have hunit : includeUnit loader (program halt loader) (Span.initial topLevel) name s =
        includeUnit loader (Parse.program loader) (Span.initial topLevel) name s :=
      includeUnit_eq (Nat.le_refl _) (fun _ hs' _ => program_eq hs') _ name s hs hnone
    exact hs.bind_with loader hunit (hincludes _ name s hnone) fun unit s₁ hs₁ _ _ =>
      hs₁.bind_with loader (ih hs₁) (Delivers.includeAll rest) fun _ _ _ _ _ => rfl

theorem goal_eq (hs : Settled s) : goal halt s = Parse.goal s :=
  hs.look Delivers.peek fun _ _ => hs.bind (term_eq hs) Delivers.term fun _ _ _ _ _ => rfl

section

-- The vocabulary of a session.
variable {v : Vocabulary} (hv : v.Reachable)
include hv

theorem parseText_eq (loader : Loader) (source text : String) :
    parseText halt v loader source text = Clausal.parseText v loader source text :=
  congrArg (fun r => (r.1, r.2.vocabulary)) (program_eq (settled_initial hv [] source text))

theorem parseUnits_eq (loader : Loader) (names : List String) :
    parseUnits halt v loader names = Clausal.parseUnits v loader names :=
  congrArg (fun r => (r.1, r.2.vocabulary))
    (includeAll_eq names (settled_initial hv [] topLevel ""))

theorem parseGoal_eq (source text : String) :
    parseGoal halt v source text = Clausal.parseGoal v source text :=
  congrArg (fun r => (r.1, r.2.vocabulary)) (goal_eq (settled_initial hv [] source text))

theorem parseTexts_eq (texts : List String) :
    parseTexts halt v texts = Baseline.parseTexts v texts := by
  induction texts generalizing v with
  | nil => rfl
  | cons text rest ih =>
    have hreachable := (sound_parseText .disabled v Baseline.sourceName text).reachable hv
    rw [parseTexts, Baseline.parseTexts, parseText_eq hv]
    rcases hrun : Clausal.parseText v .disabled Baseline.sourceName text with ⟨_ | decls, w⟩
    · rfl
    · rw [hrun] at hreachable
      dsimp only
      rw [ih hreachable]

theorem load_eq (config : Baseline.Config) : load halt v config = Baseline.load v config := by
  have hbegun : v.beginBootstrap.2.Reachable := .bootstrap hv
  have hdeclared : v.beginBootstrap.2.defineBaseline.2.Reachable :=
    hbegun.defineOperators baselineOperators
  clear hbegun
  rw [load, Baseline.load]
  generalize v.beginBootstrap = begun at hdeclared
  obtain ⟨_ | _, u⟩ := begun
  · rfl
  dsimp only at hdeclared ⊢
  generalize u.defineBaseline = declared at hdeclared
  obtain ⟨_ | _, w⟩ := declared
  · rfl
  have htexts : parseTexts halt w (Baseline.texts config.variant) =
      Baseline.parseTexts w (Baseline.texts config.variant) := parseTexts_eq hdeclared _
  dsimp only
  generalize parseTexts halt w (Baseline.texts config.variant) = r at htexts ⊢
  subst htexts
  rfl

end

end Checked

end Clausal.Parse
