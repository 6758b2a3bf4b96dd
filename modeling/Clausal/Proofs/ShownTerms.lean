import Clausal.Proofs.FlatTerms

/-!
# Terms whose symbols all have names

A term is shown with the names of its symbols. If one is not in the table, nothing is shown. The terms that are
read with a vocabulary can be shown with it, and with whatever it grows into.
-/
namespace Clausal

namespace Term

section

variable (names : SymbolTable)

mutual

/-- The term as text, if all names that it takes are there. -/
def renderAt? : Place → Term → Option String
  | place, .const s =>
    if place = .tail ∧ s = Symbol.nil then some ""
    else do
      let name ← names.name? s
      some (place.enclose true (renderName name))
  | place, .app head args =>
    match args, decide (head.symbol? = some Symbol.cons) with
    | [first, rest], true => do
      let shownFirst ← renderAt? .alone first
      let shownRest ← renderAt? .tail rest
      some (place.encloseList shownFirst shownRest)
    | args, closed => do
      let shownHead ← renderAt? .argument head
      let shownArgs ← renderArgs? args
      some (place.enclose closed (shownHead ++ shownArgs))
  | place, .lam x body => do
    let name ← names.name? x
    let shown ← renderAt? .alone body
    some (place.enclose false (renderName name ++ "\\ " ++ shown))
  | place, .literal a => some (place.enclose true a.render)
  | place, .quoted q => some (place.enclose true q.render)

def renderArgs? : List Term → Option String
  | [] => some ""
  | t :: ts => do
    let shown ← renderAt? .argument t
    let others ← renderArgs? ts
    some (" " ++ shown ++ others)

end

def render? (t : Term) : Option String := renderAt? names .alone t

end

variable {names : SymbolTable} {ts : List Term} {t : Term}

theorem renderArgs?_eq (h : ∀ t ∈ ts, ∀ place, renderAt? names place t = some (renderAt names place t)) :
    renderArgs? names ts = some (renderArgs names ts) := by
  induction ts with
  | nil => rfl
  | cons t ts ih =>
    rw [List.forall_mem_cons] at h
    rw [renderArgs?, h.1, ih h.2]
    rfl

/-- A term over symbols with names is shown. -/
theorem Flat.renderAt?_eq (h : t.Flat fun s => ∃ name, names.name? s = some name) (place : Place) :
    renderAt? names place t = some (renderAt names place t) := by
  induction h generalizing place with
  | @const s hs =>
    obtain ⟨name, hname⟩ := hs
    rw [renderAt?, renderAt, SymbolTable.name, hname]
    split_ifs <;> rfl
  | @app head args hhead _ hne _ ih ihargs =>
    have hargs := renderArgs?_eq ihargs
    unfold renderAt? renderAt
    generalize decide (head.symbol? = some Symbol.cons) = closed
    -- A cell has two arguments, and a list at its head.
    rcases closed, args with ⟨_ | _, _ | ⟨first, _ | ⟨rest, _ | _⟩⟩⟩
    all_goals dsimp only
    case true.cons.cons.nil =>
      rw [ihargs first (by simp), ihargs rest (by simp)]
      rfl
    all_goals
      rw [ih, hargs]
      rfl
  | @lam x body hx _ ih =>
    obtain ⟨name, hname⟩ := hx
    rw [renderAt?, renderAt, SymbolTable.name, hname, ih]
    rfl
  | literal a => rw [renderAt?, renderAt]
  | quoted q => rw [renderAt?, renderAt]

end Term

namespace Vocabulary

def render? (v : Vocabulary) (t : Term) : Option String := t.render? v.symbols

/-- What has been read with a vocabulary can be shown with what it has grown into. -/
theorem Extends.render?_eq {v w : Vocabulary} {t : Term} (h : v.Extends w) (hv : v.Reachable)
    (ht : t.FlatIn w) : w.render? t = some (w.render t) :=
  Term.Flat.renderAt?_eq (Term.Flat.mono (fun _ hs => h.exists_name? hv hs) ht) .alone

end Vocabulary

end Clausal
