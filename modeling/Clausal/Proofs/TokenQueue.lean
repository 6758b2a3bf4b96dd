import Clausal.Proofs.Lookahead
import Clausal.Proofs.NamedRuns
import Clausal.Proofs.TextSlices

/-!
# Tokens that wait in a queue

A reader can take tokens from its text only when it looks at them, and keep those that it has looked at
in a queue until it reads them. Then there would be no result if the queue lacked a token that has just
been put there, or if the text were cut in the wrong place. It never comes to that: looking and reading
give what the list of all items of the text gives.
-/
namespace Clausal

structure TokenQueue where
  text : String
  /-- The place behind the tokens that have been looked at. -/
  place : Place
  /-- The tokens that have been looked at but not read. -/
  waiting : List Token

namespace TokenQueue

def initial (source text : String) : TokenQueue := ⟨text, Place.initial source, []⟩

/-- Puts further tokens into the queue, unless there is a fault in the text. -/
def fill? : Nat → TokenQueue → Option (Except ScanError Unit × TokenQueue)
  | 0, q => some (.ok (), q)
  | n + 1, q => do
    let (item, place) ← q.place.next? q.text
    match item with
    | .token t => fill? n { q with place, waiting := q.waiting ++ [t] }
    | .fault e => some (.error e, { q with place })

/-- The token `n` places ahead, without reading it. -/
def peek? (q : TokenQueue) (n : Nat) : Option (Except ScanError Token × TokenQueue) := do
  let (filled, q) ← fill? (n + 1 - q.waiting.length) q
  match filled with
  | .error e => some (.error e, q)
  | .ok () => do
    let t ← q.waiting[n]?
    some (.ok t, q)

/-- Reads the next token. -/
def next? (q : TokenQueue) : Option (Except ScanError Token × TokenQueue) := do
  let (found, q) ← q.peek? 0
  match found with
  | .error e => some (.error e, q)
  | .ok _ =>
    match q.waiting with
    | [] => none
    | t :: waiting => some (.ok t, { q with waiting })

/-- The item at a position: one that waits, or one of those behind the cursor. -/
def upcoming (waiting : List Token) (k : Cursor) (i : Nat) : Item :=
  if h : i < waiting.length then .token waiting[i] else (k.past (i - waiting.length)).next.1

variable {waiting : List Token} {k : Cursor} {t : Token} {e : ScanError} {i : Nat}

theorem upcoming_length : upcoming waiting k waiting.length = k.next.1 := by
  simp [upcoming, Cursor.past]

theorem upcoming_of_lt (h : i < waiting.length) : upcoming waiting k i = .token waiting[i] :=
  dif_pos h

theorem upcoming_of_le (h : waiting.length ≤ i) :
    upcoming waiting k i = (k.past (i - waiting.length)).next.1 :=
  dif_neg (Nat.not_lt.2 h)

/-- Putting the next token into the queue changes nothing ahead. -/
theorem upcoming_push (h : k.next.1 = .token t) (i : Nat) :
    upcoming (waiting ++ [t]) k.next.2 i = upcoming waiting k i := by
  rcases Nat.lt_trichotomy i waiting.length with hi | rfl | hi
  · rw [upcoming_of_lt hi, upcoming_of_lt (by simp; omega), List.getElem_append_left hi]
  · rw [upcoming_length, h, upcoming_of_lt (by simp), List.getElem_concat_length rfl]
  · obtain ⟨d, rfl⟩ := Nat.exists_eq_add_of_le (Nat.succ_le_of_lt hi)
    rw [upcoming_of_le (by simp), upcoming_of_le (by omega)]
    have hleft : waiting.length.succ + d - (waiting ++ [t]).length = d := by simp
    have hright : waiting.length.succ + d - waiting.length = d + 1 := by omega
    rw [hleft, hright, Cursor.past]

/-- A fault is taken out from behind the tokens that wait. -/
theorem upcoming_next (waiting : List Token) (k : Cursor) (i : Nat) :
    upcoming waiting k.next.2 i = upcoming waiting k (if i < waiting.length then i else i + 1) := by
  split_ifs with hi
  · rw [upcoming_of_lt hi, upcoming_of_lt hi]
  · rw [upcoming_of_le (by omega), upcoming_of_le (by omega), Nat.sub_add_comm (by omega), Cursor.past]

/-- What is ahead when up to `n` tokens have been put into the queue. -/
inductive Filled (waiting : List Token) (k : Cursor) (n : Nat) :
    Except ScanError Unit → List Token → Cursor → Prop
  | ok {waiting' : List Token} {k' : Cursor} (hlength : waiting'.length = waiting.length + n)
      (hsame : ∀ i, upcoming waiting' k' i = upcoming waiting k i) :
      Filled waiting k n (.ok ()) waiting' k'
  | error {e : ScanError} {waiting' : List Token} {k' : Cursor}
      (hlength : waiting'.length < waiting.length + n)
      (hfault : upcoming waiting k waiting'.length = .fault e)
      (hsame : ∀ i, upcoming waiting' k' i =
        upcoming waiting k (if i < waiting'.length then i else i + 1)) :
      Filled waiting k n (.error e) waiting' k'

/-- The queue holds what comes next of these items, and the text what comes then. -/
def Shows (q : TokenQueue) (x : Scan) : Prop :=
  ∃ k : Cursor, k.StandsIn q.text ∧ k.place = q.place ∧ ∀ i, x.get i = upcoming q.waiting k i

theorem shows_initial (source text : String) : (initial source text).Shows (Scan.ofText source text) :=
  ⟨Cursor.initial source text, Cursor.standsIn_initial source text, rfl, Scan.get_ofText source text⟩

theorem fill?_eq (n : Nat) (waiting : List Token) {text : String} (hk : k.StandsIn text) :
    ∃ r waiting' k', fill? n ⟨text, k.place, waiting⟩ = some (r, ⟨text, k'.place, waiting'⟩) ∧
      k'.StandsIn text ∧ Filled waiting k n r waiting' k' := by
  induction n generalizing k waiting with
  | zero => exact ⟨_, _, _, rfl, hk, .ok rfl fun _ => rfl⟩
  | succ n ih =>
    cases hitem : k.next.1 with
    | token t =>
      obtain ⟨r, waiting', k', hfill, hk', hfilled⟩ := ih (waiting ++ [t]) hk.next
      refine ⟨r, waiting', k', ?_, hk', ?_⟩
      · rw [fill?, hk.next?, hitem]
        exact hfill
      · cases hfilled with
        | ok hlength hsame =>
          refine .ok ?_ fun i => (hsame i).trans (upcoming_push hitem i)
          rw [hlength, List.length_append, List.length_singleton]
          omega
        | error hlength hfault hsame =>
          rw [List.length_append, List.length_singleton] at hlength
          refine .error (by omega) ?_ fun i => (hsame i).trans (upcoming_push hitem _)
          rw [← upcoming_push hitem, hfault]
    | fault e =>
      refine ⟨.error e, waiting, k.next.2, ?_, hk.next, .error (by omega) ?_ (upcoming_next waiting k)⟩
      · rw [fill?, hk.next?, hitem]
        rfl
      · rw [upcoming_length, hitem]

end TokenQueue

/-- Looking ahead over a fault takes the first one out. -/
theorem Scan.peekItem_of_fault {last : Item} {e : ScanError} : ∀ {n j : Nat} {items : List Item},
    j ≤ n → (∀ i < j, ∃ t, items.getD i last = .token t) → items.getD j last = .fault e →
      (peekItem last n items).1 = .error e ∧
        ∀ i, (peekItem last n items).2.getD i last = items.getD (if i < j then i else i + 1) last
  | n, j, [], hj, htokens, hfault => by
    obtain rfl : last = .fault e := hfault
    cases n <;> exact ⟨rfl, fun _ => rfl⟩
  | n, 0, .fault e' :: rest, hj, htokens, hfault => by
    obtain rfl : e' = e := Item.fault.inj hfault
    cases n <;> exact ⟨rfl, fun _ => rfl⟩
  | n, j + 1, .fault e' :: rest, hj, htokens, hfault => by
    obtain ⟨t, ht⟩ := htokens 0 (Nat.succ_pos j)
    cases ht
  | n, 0, .token t :: rest, hj, htokens, hfault => by
    cases hfault
  | n + 1, j + 1, .token t :: rest, hj, htokens, hfault => by
    have hfault' : rest.getD j last = .fault e := hfault
    obtain ⟨hfound, hget⟩ := peekItem_of_fault (Nat.le_of_succ_le_succ hj)
      (fun i hi => htokens (i + 1) (Nat.succ_lt_succ hi)) hfault'
    rw [peekItem]
    refine ⟨hfound, fun i => ?_⟩
    cases i with
    | zero => rfl
    | succ i =>
      refine (hget i).trans ?_
      simp only [Nat.succ_lt_succ_iff]
      split_ifs <;> rfl

/-- What the grammar makes of a fault of the text. -/
def ScanError.refusal (e : ScanError) : ParseError := .grammar e.span (.scan e.fault)

namespace TokenQueue

variable {q q' : TokenQueue} {x : Scan} {n : Nat}

/-- Looking ahead finds what the list of items has there. -/
theorem Shows.peek? (h : q.Shows x) (n : Nat) :
    ∃ q', q.peek? n = some ((x.peek n).1, q') ∧ q'.Shows (x.peek n).2 := by
  obtain ⟨text, place, waiting⟩ := q
  obtain ⟨k, hk, rfl, hget⟩ := h
  obtain ⟨r, waiting', k', hfill, hk', hfilled⟩ :=
    fill?_eq (n + 1 - waiting.length) waiting hk
  rw [TokenQueue.peek?, hfill, Option.bind_eq_bind, Option.bind_some]
  cases hfilled with
  | ok hlength hsame =>
    have htoken : ∀ i (hi : i < waiting'.length), x.get i = .token waiting'[i] := fun i hi => by
      rw [hget, ← hsame, upcoming_of_lt hi]
    have hn : n < waiting'.length := by omega
    have hpeek : x.peek n = (.ok waiting'[n], x) :=
      Scan.peek_of_tokens fun i hi => ⟨_, htoken i (by omega), by rintro rfl; rfl⟩
    rw [hpeek]
    refine ⟨⟨text, k'.place, waiting'⟩, ?_, k', hk', rfl, fun i => (hget i).trans (hsame i).symm⟩
    dsimp only
    rw [List.getElem?_eq_getElem hn]
    rfl
  | @error e _ _ hlength hfault hsame =>
    have hle : waiting.length ≤ waiting'.length := by
      by_contra hlt
      rw [upcoming_of_lt (by omega)] at hfault
      cases hfault
    have htokens : ∀ i < waiting'.length, ∃ t, x.get i = .token t := fun i hi => by
      rw [hget, ← if_pos (c := i < waiting'.length) (t := i) (e := i + 1) hi, ← hsame,
        upcoming_of_lt hi]
      exact ⟨_, rfl⟩
    have hfault' : x.get waiting'.length = .fault e := (hget _).trans hfault
    obtain ⟨hfound, hrest⟩ := Scan.peekItem_of_fault (n := n) (by omega) htokens hfault'
    refine ⟨⟨text, k'.place, waiting'⟩, ?_, k', hk', rfl, fun i => ?_⟩
    · exact congrArg (fun r => some (r, _)) hfound.symm
    · exact (hrest i).trans ((hget _).trans (hsame i).symm)

theorem waiting_of_peek? {t : Token} (h : q.peek? n = some (.ok t, q')) :
    q'.waiting[n]? = some t := by
  rw [TokenQueue.peek?] at h
  obtain ⟨⟨filled, q₁⟩, -, h⟩ := Option.bind_eq_some_iff.1 h
  cases filled with
  | error e => cases h
  | ok _ =>
    obtain ⟨u, hu, h⟩ := Option.bind_eq_some_iff.1 h
    cases h
    exact hu

/-- Reading takes the token in front out of the queue. -/
theorem Shows.advance {text : String} {place : Place} {t : Token} {rest : List Token}
    (h : Shows ⟨text, place, t :: rest⟩ x) : Shows ⟨text, place, rest⟩ x.advance := by
  obtain ⟨k, hk, hplace, hget⟩ := h
  refine ⟨k, hk, hplace, fun i => ?_⟩
  rw [← Scan.drop_one, Scan.get_drop, hget, Nat.add_comm]
  rcases Nat.lt_or_ge i rest.length with hi | hi
  · rw [upcoming_of_lt hi, upcoming_of_lt (Nat.succ_lt_succ hi), List.getElem_cons_succ]
  · rw [upcoming_of_le hi, upcoming_of_le (Nat.succ_le_succ hi), List.length_cons,
      Nat.add_sub_add_right]

end TokenQueue

/-- What a reader does with the tokens ahead. -/
inductive Glance where
  | look (n : Nat)
  | read

namespace Scan

def glance (x : Scan) : Glance → Except ScanError Token × Scan
  | .look n => x.peek n
  | .read =>
    match x.peek 0 with
    | (.ok t, x) => (.ok t, x.advance)
    | (.error e, x) => (.error e, x)

/-- What is found one after the other. After a fault there is more to be found. -/
def glances (x : Scan) : List Glance → List (Except ScanError Token)
  | [] => []
  | g :: rest => (x.glance g).1 :: (x.glance g).2.glances rest

end Scan

namespace Parse

variable (n : Nat) (s : ParseState)

/-- The grammar looks ahead by a glance. -/
theorem peekAt_eq_glance :
    (peekAt n s).1 = (s.ahead.glance (.look n)).1.mapError ScanError.refusal ∧
      (peekAt n s).2.ahead = (s.ahead.glance (.look n)).2 := by
  have hpeek : peekAt n s = _ := Adds.run_peekAt n s
  rw [hpeek]
  exact ⟨rfl, rfl⟩

/-- The grammar reads by a glance. -/
theorem next_eq_glance :
    (next s).1 = (s.ahead.glance .read).1.mapError ScanError.refusal ∧
      (next s).2.ahead = (s.ahead.glance .read).2 := by
  have hpeek : peek s = _ := Adds.run_peekAt 0 s
  rw [next_eq_bind]
  simp only [Scan.glance] at hpeek ⊢
  rcases hfound : s.ahead.peek 0 with ⟨e | t, x⟩ <;> rw [hfound] at hpeek
  · rw [Pairing.bind_of_error hpeek]
    exact ⟨rfl, rfl⟩
  · rw [Pairing.bind_of_ok hpeek]
    exact ⟨rfl, rfl⟩

end Parse

namespace TokenQueue

variable {q : TokenQueue} {x : Scan}

def glance? (q : TokenQueue) : Glance → Option (Except ScanError Token × TokenQueue)
  | .look n => q.peek? n
  | .read => q.next?

def glances? (q : TokenQueue) : List Glance → Option (List (Except ScanError Token))
  | [] => some []
  | g :: rest => do
    let (found, q) ← q.glance? g
    let others ← q.glances? rest
    some (found :: others)

theorem Shows.glance? (h : q.Shows x) (g : Glance) :
    ∃ q', q.glance? g = some ((x.glance g).1, q') ∧ q'.Shows (x.glance g).2 := by
  cases g with
  | look n => exact h.peek? n
  | read =>
    obtain ⟨⟨text, place, waiting⟩, hq, hshows⟩ := h.peek? 0
    simp only [TokenQueue.glance?, TokenQueue.next?, hq, Scan.glance]
    rcases hpeek : x.peek 0 with ⟨e | t, x'⟩ <;> rw [hpeek] at hq hshows
    · exact ⟨_, rfl, hshows⟩
    · have hfront := waiting_of_peek? hq
      cases waiting with
      | nil => cases hfront
      | cons u rest =>
        obtain rfl : u = t := Option.some.inj hfront
        exact ⟨_, rfl, hshows.advance⟩

theorem Shows.glances? (h : q.Shows x) (gs : List Glance) : q.glances? gs = some (x.glances gs) := by
  induction gs generalizing q x with
  | nil => rfl
  | cons g rest ih =>
    obtain ⟨q', hq, hshows⟩ := h.glance? g
    rw [TokenQueue.glances?, hq, Option.bind_eq_bind, Option.bind_some]
    dsimp only
    rw [ih hshows]
    rfl

/-- However a reader looks and reads, it finds what the list of all items gives. -/
theorem glances?_initial (source text : String) (gs : List Glance) :
    (initial source text).glances? gs = some ((Scan.ofText source text).glances gs) :=
  (shows_initial source text).glances? gs

end TokenQueue

end Clausal
