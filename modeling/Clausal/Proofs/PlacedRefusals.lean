import Clausal.Proofs.ChainReading
import Clausal.Proofs.LocatedTerms

/-!
# Where a reader refuses its text

A fault of the grammar stands at a token. While tokens are read their number goes down, so the token is
known by how many were left when the reader came to it. `RefusesAt` says of one step that it ends with a
fault there, and has rules for the steps on the way to the fault.
-/
namespace Clausal

/-- A fault at the token that has this many behind its front, itself included. -/
structure Refusal where
  source : Source
  left : Nat
  fault : SyntaxFault

namespace Refusal

/-- The item that the fault is at. -/
def item (r : Refusal) : Item := r.source.scan.get (r.source.scan.items.length - r.left)

/-- The result is that fault. -/
def Of {α : Type} (r : Refusal) (result : Except ParseError α) : Prop :=
  ∃ t, r.item = .token t ∧ result = .error (.grammar t.span r.fault)

end Refusal

theorem ParseState.At.get_zero {s : ParseState} {v : Vocabulary} {k : TokenKind}
    {kinds : List TokenKind} (ha : s.At v (k :: kinds)) :
    ∃ t : Token, t.kind = k ∧ s.ahead.get 0 = .token t := by
  obtain ⟨t, hpeek, hk⟩ := ha.ahead.peek 0
  obtain ⟨-, hget⟩ := Scan.peek_eq_ok hpeek
  obtain ⟨u, hu, heq⟩ := hget 0 (Nat.le_refl 0)
  exact ⟨t, hk, heq rfl ▸ hu⟩

/-- A state in a unit with these kinds ahead is in front of as many items of it. -/
theorem ParseState.In.get_left {s : ParseState} {u : Source} {v : Vocabulary} {k : TokenKind}
    {kinds : List TokenKind} (h : s.In u) (ha : s.At v (k :: kinds)) :
    s.ahead.get 0 = u.scan.get (u.scan.items.length - (k :: kinds).length) := by
  obtain ⟨j, hj⟩ := h.ahead
  have hlen : s.ahead.items.length = kinds.length + 1 := by
    simpa using congrArg List.length ha.ahead.items
  rw [hj, Scan.drop, List.length_drop] at hlen
  rw [hj, Scan.get_drop, List.length_cons]
  congr 1
  omega

namespace Parse

variable {α β : Type} {r : Refusal} {v v' : Vocabulary}
variable {kinds rest : List TokenKind}

/-- In the unit of the refusal, the step comes to it wherever the vocabulary and the kinds ahead are
the given ones. -/
def RefusesAt (r : Refusal) (p : Parse α) (v : Vocabulary) (kinds : List TokenKind) : Prop :=
  ∀ s : ParseState, s.In r.source → s.At v kinds → r.Of (p.run s).1

namespace RefusesAt

variable {p : Parse α} {f : α → Parse β} {Q : List Source → α → Prop}

theorem failAt {t : Token} (ht : r.item = .token t) :
    RefusesAt r (Parse.failAt t.span r.fault : Parse α) v kinds :=
  fun _ _ _ => ⟨t, ht, rfl⟩

theorem bind_refusal (hp : RefusesAt r p v kinds) : RefusesAt r (p >>= f) v kinds := by
  intro s hs ha
  obtain ⟨t, ht, hrun⟩ := hp s hs ha
  refine ⟨t, ht, ?_⟩
  rw [run_bind]
  rcases hps : p.run s with ⟨e | a, s'⟩ <;> rw [hps] at hrun
  · exact congrArg Except.error (Except.error.inj hrun)
  · cases hrun

theorem bind_of (hl : Locates Loader.disabled r.source p Q) (hp : ∀ s : ParseState, s.At v kinds →
    ∃ a s' v' rest, p.run s = (.ok a, s') ∧ s'.At v' rest ∧ RefusesAt r (f a) v' rest) :
    RefusesAt r (p >>= f) v kinds := by
  intro s hs ha
  obtain ⟨a, s', v', rest, hrun, ha', hf⟩ := hp s ha
  have hs' : s'.In r.source := by
    obtain ⟨units, hlocated⟩ := hl s hs
    rw [show p s = (.ok a, s') from hrun] at hlocated
    obtain ⟨-, ⟨k, hk⟩, hlast⟩ := hlocated.ok a rfl
    obtain ⟨j, hj⟩ := hs.ahead
    exact ⟨⟨j + k, by rw [← Scan.drop_drop, ← hj]; exact hk⟩, hlast⟩
  rw [run_bind, hrun]
  exact hf s' hs' ha'

/-- Behind a step that gives a value. -/
theorem bind {a : α} (hl : Locates Loader.disabled r.source p Q) (hp : p.Does v kinds (.value a v' rest))
    (hf : RefusesAt r (f a) v' rest) : RefusesAt r (p >>= f) v kinds := by
  refine bind_of hl fun s ha => ?_
  obtain ⟨s', hrun, ha'⟩ := hp s ha
  exact ⟨a, s', v', rest, hrun, ha', hf⟩

/-- A token that is looked at is the one of the refusal if as many kinds are left. -/
theorem peek_bind {k : TokenKind} {f : Token → Parse β}
    (h : ∀ t : Token, t.kind = k → t.WrittenIn r.source →
      ((k :: kinds).length = r.left → r.item = .token t) → RefusesAt r (f t) v (k :: kinds)) :
    RefusesAt r (peek >>= f) v (k :: kinds) := by
  intro s hs ha
  obtain ⟨t, hk, hget⟩ := ha.get_zero
  have hrun : peek s = (.ok t, s) := by
    refine peekAt_of_tokens fun i hi => ?_
    obtain rfl := Nat.le_zero.1 hi
    exact ⟨t, hget, fun _ => rfl⟩
  rw [run, Pairing.bind_of_ok hrun]
  refine h t hk (hs.get hget) (fun hleft => ?_) s hs ha
  rw [Refusal.item, ← hleft, ← hs.get_left ha, hget]

theorem next_bind {k : TokenKind} {f : Token → Parse β} (h : ∀ t, RefusesAt r (f t) v kinds) :
    RefusesAt r (next >>= f) v (k :: kinds) := by
  refine bind_of Stays.next fun s ha => ?_
  obtain ⟨t, -, hget⟩ := ha.get_zero
  exact ⟨t, _, v, kinds, next_of_token hget,
    ⟨ha.vocabulary, Scan.drop_one ▸ ha.ahead.advance⟩, h t⟩

end RefusesAt

section

variable {limit : Nat} {strict : Bool} {earlier : Option (Nat × Grouping)}

-- The equations of the steps are at hand before the rules, which unfold them.
attribute [local simp] expression climb operand arguments atomic elements

/-- The bounded step comes to that refusal if its bound is large enough, as for `Reads`. -/
def Refuses (r : Refusal) (step : Nat → Parse α) (slack : Nat) (v : Vocabulary)
    (kinds : List TokenKind) : Prop :=
  ∀ n, 4 * kinds.length + slack ≤ n → RefusesAt r (step n) v kinds

abbrev RefusesExpression (r : Refusal) (limit : Nat) (strict : Bool)
    (earlier : Option (Nat × Grouping)) :=
  Refuses r (fun n => expression n limit strict earlier) 2

abbrev RefusesClimb (r : Refusal) (limit : Nat) (strict : Bool) (earlier : Option (Nat × Grouping))
    (first : Term) :=
  Refuses r (fun n => climb n limit strict earlier first) 1

theorem refuses_expression {first : Term} {mid : List TokenKind}
    (hf : ReadsOperand limit v kinds (.value first v' mid)) (hl : mid.length ≤ kinds.length)
    (hc : RefusesClimb r limit strict earlier first v' mid) :
    RefusesExpression r limit strict earlier v kinds := by
  intro n hn
  obtain ⟨n, rfl⟩ : ∃ m, n = m + 1 := ⟨n - 1, by omega⟩
  dsimp only
  rw [expression]
  exact .bind ((Stays.termReaders n).operand limit) (hf n (by omega))
    (hc n (by omega))

variable {k : TokenKind} {first : Term} {s : Symbol} {op : Operator}
variable (h : operatorBehind? v k (rest.headD .endOfInput) = some (s, op))
variable (hl : ¬ (op.precedence < limit ∨ op.precedence = limit ∧ strict))

include h hl

/-- An operator that is tight enough is taken. -/
theorem refusesAt_climb_taken {n : Nat}
    (ho : ∀ t : Token, t.kind = k → t.WrittenIn r.source →
      ((k :: rest).length = r.left → r.item = .token t) → RefusesAt r (do
        checkChain t op earlier
        let _ ← next
        if op.placement = Placement.afterOperand then
          climb n limit strict (some (op.precedence, op.grouping)) (Term.node s [first])
        else
          let second ← expression n op.precedence (op.grouping ≠ Grouping.right)
            (some (op.precedence, op.grouping))
          climb n limit strict (some (op.precedence, op.grouping))
            (Term.node s [first, second])) v (k :: rest)) :
    RefusesAt r (climb (n + 1) limit strict earlier first) v (k :: rest) := by
  rw [climb]
  refine .peek_bind fun t hk ht hitem => ?_
  refine .bind (Stays.operatorAfter? t.kind)
    (does_operatorAfter t.kind) ?_
  obtain rfl := hk
  simp only [List.drop_succ_cons, List.drop_zero, h, if_neg hl]
  exact ho t rfl ht hitem

/-- An operator that may not follow the one in front of it is itself the place of the fault. -/
theorem refuses_climb_clash {g : Grouping} (hg : ¬ (g = op.grouping ∧ g ≠ .none))
    (hleft : (k :: rest).length = r.left) (hfault : r.fault = chainFault k g op) :
    RefusesClimb r limit strict (some (op.precedence, g)) first v (k :: rest) := by
  intro n hn
  obtain ⟨n, rfl⟩ : ∃ m, n = m + 1 := ⟨n - 1, by omega⟩
  refine refusesAt_climb_taken h hl fun t hk _ hitem => .bind_refusal ?_
  have hclash : checkChain t op (some (op.precedence, g)) = Parse.failAt t.span r.fault := by
    dsimp only [checkChain]
    rw [hfault, chainFault, hk, if_neg (by simp)]
    by_cases hn : g = .none ∨ op.grouping = .none
    · rw [if_pos hn, if_pos hn]
    · rw [if_neg hn, if_neg hn, if_pos fun he => hg ⟨he, fun hx => hn (.inl hx)⟩]
  rw [hclash]
  exact .failAt (hitem hleft)

/-- The fault is in the right operand of the operator. -/
theorem refuses_climb_operand (hc : Chains earlier op) (hp : op.placement ≠ .afterOperand)
    (hs : RefusesExpression r op.precedence (op.grouping ≠ .right)
      (some (op.precedence, op.grouping)) v rest) :
    RefusesClimb r limit strict earlier first v (k :: rest) := by
  intro n hn
  rw [List.length_cons] at hn
  obtain ⟨n, rfl⟩ : ∃ m, n = m + 1 := ⟨n - 1, by omega⟩
  refine refusesAt_climb_taken h hl fun t _ ht _ => ?_
  refine .bind (Stays.checkChain ht _ _) (does_checkChain hc)
    (.next_bind fun _ => ?_)
  rw [if_neg hp]
  exact (hs n (by omega)).bind_refusal

/-- The fault is behind the right operand of the operator. -/
theorem refuses_climb_behind {second : Term} {mid : List TokenKind} (hc : Chains earlier op)
    (hp : op.placement ≠ .afterOperand)
    (hs : ReadsExpression op.precedence (op.grouping ≠ .right)
      (some (op.precedence, op.grouping)) v rest (.value second v' mid))
    (hm : mid.length ≤ rest.length)
    (ho : RefusesClimb r limit strict (some (op.precedence, op.grouping))
      (Term.node s [first, second]) v' mid) :
    RefusesClimb r limit strict earlier first v (k :: rest) := by
  intro n hn
  rw [List.length_cons] at hn
  obtain ⟨n, rfl⟩ : ∃ m, n = m + 1 := ⟨n - 1, by omega⟩
  refine refusesAt_climb_taken h hl fun t _ ht _ => ?_
  refine .bind (Stays.checkChain ht _ _) (does_checkChain hc)
    (.next_bind fun _ => ?_)
  rw [if_neg hp]
  exact .bind ((Stays.termReaders n).expression _ _ _)
    (hs n (by omega)) (ho n (by omega))

end

theorem RefusesExpression.leaf {limit : Nat} {strict : Bool} {earlier : Option (Nat × Grouping)}
    {name : String} (hv : v.WellFormed) (ht : (OperatorTree.leaf name).Over v)
    (hr : OperatorTree.Closes v none rest)
    (hc : RefusesClimb r limit strict earlier ((OperatorTree.leaf name).build v).1
      ((OperatorTree.leaf name).build v).2 rest) :
    RefusesExpression r limit strict earlier v (wordKind name :: rest) :=
  refuses_expression (OperatorTree.reads_leaf_operand hv ht hr) (by simp) hc

theorem refusesAt_term (h : RefusesExpression r Precedence.lowest false none v kinds) :
    RefusesAt r term v kinds := by
  intro s hs ha
  have hl : s.ahead.items.length = kinds.length := by
    simpa using congrArg List.length ha.ahead.items
  rw [run, term, expressionAt]
  -- The bound is opaque from here on, so that no step of the reader unfolds.
  generalize hb : 4 * s.ahead.items.length + 4 = n
  exact h n (by omega) s hs ha

theorem refusesAt_goal {k : TokenKind}
    (h : RefusesExpression r Precedence.lowest false none v (k :: kinds)) :
    RefusesAt r (goal >>= fun g => pure g.term) v (k :: kinds) := by
  refine .bind_refusal ?_
  unfold goal
  exact .peek_bind fun _ _ _ _ => (refusesAt_term h).bind_refusal

end Parse

/-- A text whose reading as a term comes to a refusal is refused there. -/
theorem parseTerm_refuses {r : Refusal} {v : Vocabulary} {k : TokenKind} {kinds : List TokenKind}
    (hr : r.source.name = "<term>") (hs : r.source.scan.Shows (k :: kinds))
    (h : Parse.RefusesExpression r Precedence.lowest false none v (k :: kinds)) :
    r.Of (parseTerm v r.source.text).1 := by
  rw [parseTerm_eq, ← hr]
  exact Parse.refusesAt_goal h _ (ParseState.in_initial v [] r.source) ⟨rfl, hs⟩

end Clausal
