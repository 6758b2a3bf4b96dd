import Clausal.Proofs.InclusionDepth
import Clausal.Proofs.Reading

/-!
# A declaration looks no further than its end

A step that succeeds has looked at the items that it reads, and as long as the declaration goes on,
at the next one and perhaps at one behind a name. A declaration ends with a token that closes it, so
nothing behind that token has been looked at, and it is read the same whatever follows.
-/
namespace Clausal

namespace Scan

/-- Reads a number of items. -/
def drop (x : Scan) (k : Nat) : Scan := { x with items := x.items.drop k }

variable {x : Scan}

theorem drop_drop (j k : Nat) : (x.drop j).drop k = x.drop (j + k) := by
  simp [drop]

theorem get_drop (k i : Nat) : (x.drop k).get i = x.get (k + i) := by
  simp [get, drop, List.getD_eq_getElem?_getD]

theorem drop_one : x.drop 1 = x.advance := by
  simp [drop, advance]

/-- Looking ahead finds the token at the place, if no fault stands in front of it. -/
theorem peekItem_eq_ok {last : Item} : ∀ {n : Nat} {items items' : List Item} {t : Token},
    peekItem last n items = (.ok t, items') →
      items' = items ∧ ∀ i ≤ n, ∃ u, items.getD i last = .token u ∧ (i = n → u = t)
  | n, [], items', t, h => by
    cases last with
    | fault e => cases n <;> cases h
    | token u =>
      have hpeek : peekItem (.token u) n [] = (.ok u, []) := by cases n <;> rfl
      rw [hpeek] at h
      obtain ⟨hu, rfl⟩ := Prod.ext_iff.1 h
      exact ⟨rfl, fun i _ => ⟨u, rfl, fun _ => Except.ok.inj hu⟩⟩
  | n, .fault e :: rest, items', t, h => by cases n <;> cases h
  | 0, .token u :: rest, items', t, h => by
    obtain ⟨hu, rfl⟩ := Prod.ext_iff.1 h
    refine ⟨rfl, fun i hi => ⟨u, ?_, fun _ => Except.ok.inj hu⟩⟩
    obtain rfl := Nat.le_zero.1 hi
    rfl
  | n + 1, .token u :: rest, items', t, h => by
    rcases hrest : peekItem last n rest with ⟨found, rest'⟩
    rw [peekItem, hrest] at h
    obtain ⟨rfl, rfl⟩ := Prod.mk.inj h
    obtain ⟨rfl, hget⟩ := peekItem_eq_ok hrest
    refine ⟨rfl, fun i hi => ?_⟩
    cases i with
    | zero => exact ⟨u, rfl, by omega⟩
    | succ i =>
      obtain ⟨w, hw, hn⟩ := hget i (Nat.le_of_succ_le_succ hi)
      exact ⟨w, hw, fun he => hn (Nat.succ.inj he)⟩

theorem peekItem_of_tokens {last : Item} : ∀ {n : Nat} {items : List Item} {t : Token},
    (∀ i ≤ n, ∃ u, items.getD i last = .token u ∧ (i = n → u = t)) →
      peekItem last n items = (.ok t, items)
  | n, [], t, h => by
    obtain ⟨u, hu, ht⟩ := h n (Nat.le_refl n)
    obtain rfl := ht rfl
    obtain rfl : last = .token u := hu
    cases n <;> rfl
  | n, .fault e :: rest, t, h => by
    obtain ⟨u, hu, -⟩ := h 0 (Nat.zero_le n)
    cases hu
  | 0, .token u :: rest, t, h => by
    obtain ⟨w, hw, ht⟩ := h 0 (Nat.le_refl 0)
    obtain rfl := ht rfl
    obtain rfl : u = w := Item.token.inj hw
    rfl
  | n + 1, .token u :: rest, t, h => by
    have hrest : peekItem last n rest = (.ok t, rest) := by
      refine peekItem_of_tokens fun i hi => ?_
      obtain ⟨w, hw, ht⟩ := h (i + 1) (Nat.succ_le_succ hi)
      exact ⟨w, hw, fun he => ht (congrArg Nat.succ he)⟩
    rw [peekItem, hrest]

theorem peek_eq_ok {n : Nat} {t : Token} {x' : Scan} (h : x.peek n = (.ok t, x')) :
    x' = x ∧ ∀ i ≤ n, ∃ u, x.get i = .token u ∧ (i = n → u = t) := by
  rcases hfound : peekItem x.last n x.items with ⟨found, items⟩
  rw [peek, hfound] at h
  obtain ⟨rfl, rfl⟩ := Prod.mk.inj h
  obtain ⟨rfl, hget⟩ := peekItem_eq_ok hfound
  exact ⟨rfl, hget⟩

theorem peek_of_tokens {n : Nat} {t : Token}
    (h : ∀ i ≤ n, ∃ u, x.get i = .token u ∧ (i = n → u = t)) : x.peek n = (.ok t, x) := by
  rw [peek, peekItem_of_tokens h]

end Scan

namespace Parse

namespace Phase

/-- The items ahead are as the phase says. -/
def Holds (x : Scan) : Phase → Prop
  | before kind => (x.get 0).kind? = some kind
  | _ => True

/-- The declaration goes on. -/
def Open : Phase → Prop
  | behind => False
  | _ => True

end Phase

/-- A step from one phase to another has read `k` items. -/
structure Taken (φ ψ : Phase) (k : Nat) (x x' : Scan) : Prop where
  drop : x' = x.drop k
  tokens : ∀ i < k, ∃ t, x.get i = .token t
  holds : ψ.Holds x'
  /-- Behind the end of a declaration nothing more is read. -/
  shut : ¬ φ.Open → k = 0 ∧ ¬ ψ.Open
  /-- A declaration ends with a token that closes it. -/
  closed : φ.Open → ¬ ψ.Open → ∃ j kind, k = j + 1 ∧ (x.get j).kind? = some kind ∧ kind.closes = true

/-- Other items ahead are the same as far as they are looked at. -/
structure SameAhead (ψ : Phase) (k : Nat) (x c : Scan) : Prop where
  front : ∀ i < k, c.get i = x.get i
  here : ψ.Open → c.get k = x.get k
  behindName : ψ.Open → ∀ kind, (x.get k).kind? = some kind → kind.name?.isSome = true →
    c.get (k + 1) = x.get (k + 1)

theorem Taken.refl {φ : Phase} {x : Scan} (h : φ.Holds x) : Taken φ φ 0 x x :=
  ⟨rfl, fun _ hi => absurd hi (Nat.not_lt_zero _), h, fun hn => ⟨rfl, hn⟩, fun ho hn => absurd ho hn⟩

theorem Taken.trans {φ ψ χ : Phase} {j k : Nat} {x y z : Scan} (h : Taken φ ψ j x y)
    (g : Taken ψ χ k y z) : Taken φ χ (j + k) x z where
  drop := by rw [g.drop, h.drop, Scan.drop_drop]
  tokens i hi := by
    by_cases hj : i < j
    · exact h.tokens i hj
    · obtain ⟨t, ht⟩ := g.tokens (i - j) (by omega)
      rw [h.drop, Scan.get_drop] at ht
      exact ⟨t, by rw [← ht]; congr 1; omega⟩
  holds := g.holds
  shut hn := by
    obtain ⟨rfl, hψ⟩ := h.shut hn
    obtain ⟨rfl, hχ⟩ := g.shut hψ
    exact ⟨rfl, hχ⟩
  closed ho hn := by
    by_cases hψ : ψ.Open
    · obtain ⟨i, kind, rfl, hk, hc⟩ := g.closed hψ hn
      rw [h.drop, Scan.get_drop] at hk
      exact ⟨j + i, kind, rfl, hk, hc⟩
    · obtain ⟨i, kind, rfl, hk, hc⟩ := h.closed ho hψ
      obtain ⟨rfl, -⟩ := g.shut hψ
      exact ⟨i, kind, rfl, hk, hc⟩

theorem name?_of_closes {kind : TokenKind} (h : kind.closes = true) : kind.name?.isSome = false := by
  cases kind <;> first | rfl | cases h

/-- What is the same for two steps in a row is the same for the first. -/
theorem SameAhead.first {ψ χ : Phase} {j k : Nat} {x y z c : Scan} (hy : y = x.drop j)
    (g : Taken ψ χ k y z) (h : SameAhead χ (j + k) x c) : SameAhead ψ j x c := by
  have hhere : ψ.Open → c.get j = x.get j := by
    intro hψ
    rcases Nat.eq_zero_or_pos k with rfl | hk
    · refine h.here ?_
      by_contra hχ
      obtain ⟨i, _, hi, -⟩ := g.closed hψ hχ
      omega
    · exact h.front j (by omega)
  refine ⟨fun i hi => h.front i (by omega), hhere, fun hψ kind hkind hname => ?_⟩
  by_cases hχ : χ.Open
  · rcases Nat.lt_trichotomy k 1 with hk | rfl | hk
    · obtain rfl : k = 0 := by omega
      exact h.behindName hχ kind hkind hname
    · exact h.here hχ
    · exact h.front (j + 1) (by omega)
  · obtain ⟨i, kind', rfl, hk, hc⟩ := g.closed hψ hχ
    rcases Nat.eq_zero_or_pos i with rfl | hi
    · -- The only item that is left is the one that closes, which is no name.
      rw [hy, Scan.get_drop, Nat.add_zero, hkind] at hk
      obtain rfl := Option.some.inj hk
      exact absurd (name?_of_closes hc) (by simp [hname])
    · exact h.front (j + 1) (by omega)

theorem SameAhead.second {χ : Phase} {j k : Nat} {x c : Scan} (h : SameAhead χ (j + k) x c) :
    SameAhead χ k (x.drop j) (c.drop j) where
  front i hi := by rw [Scan.get_drop, Scan.get_drop, h.front _ (by omega)]
  here ho := by rw [Scan.get_drop, Scan.get_drop, h.here ho]
  behindName ho kind hk hn := by
    rw [Scan.get_drop] at hk
    rw [Scan.get_drop, Scan.get_drop]
    exact h.behindName ho kind hk hn

variable {α β γ δ : Type}

/-- A step has succeeded from `s` with `a` in `s₁`, and the other step does so with `b`, where other
items are ahead that are the same as far as they are looked at. -/
structure Reaches (φ ψ : Phase) (W : World) (R : World → α → β → Prop) (q : Parse β) (s s₁ : ParseState)
    (a : α) (c : Scan) (k : Nat) (W' : World) (b : β) : Prop where
  le : W.Le W'
  admits : Pairing.diagonal.admits W'
  moment : s₁.moment = W'.left
  taken : Taken φ ψ k s.ahead s₁.ahead
  related : R W' a b
  other : SameAhead ψ k s.ahead c → q { s with ahead := c } = (.ok b, { s₁ with ahead := c.drop k })

/-- Where the first step succeeds, the second one does so in the same way before items that are the same
as far as they are looked at. -/
def Local (φ : Phase) (ψ : α → Phase) (W : World) (R : World → α → β → Prop) (p : Parse α)
    (q : Parse β) : Prop :=
  ∀ (s s₁ : ParseState) (a : α) (c : Scan), s.moment = W.left → φ.Holds s.ahead →
    s.ahead.items.length ≤ c.items.length → p s = (.ok a, s₁) →
      ∃ k W' b, Reaches φ (ψ a) W R q s s₁ a c k W' b

namespace Local

variable {φ : Phase} {ψ : α → Phase} {χ : γ → Phase} {W : World} {R : World → α → β → Prop}
variable {S : World → γ → δ → Prop} {p : Parse α} {q : Parse β} {f : α → Parse γ} {g : β → Parse δ}

theorem bind (hp : Local φ ψ W R p q)
    (hf : ∀ {W' a b}, W.Le W' → Pairing.diagonal.admits W' → R W' a b →
      Local (ψ a) χ W' S (f a) (g b)) :
    Local φ χ W S (p >>= f) (q >>= g) := by
  intro s s₂ d c hs hφ hlen hrun
  rcases hps : p s with ⟨_ | a, s₁⟩
  · rw [Pairing.bind_of_error hps] at hrun
    cases hrun
  rw [Pairing.bind_of_ok hps] at hrun
  obtain ⟨j, W₁, b, hreach⟩ := hp s s₁ a c hs hφ hlen hps
  have hlen' : s₁.ahead.items.length ≤ (c.drop j).items.length := by
    rw [hreach.taken.drop]
    simp only [Scan.drop, List.length_drop]
    omega
  obtain ⟨k, W₂, e, hreach'⟩ := hf hreach.le hreach.admits hreach.related s₁ s₂ d (c.drop j)
    hreach.moment hreach.taken.holds hlen' hrun
  refine ⟨j + k, W₂, e, hreach.le.trans hreach'.le, hreach'.admits, hreach'.moment,
    hreach.taken.trans hreach'.taken, hreach'.related, fun hc => ?_⟩
  have hfirst := hreach.other (hc.first hreach.taken.drop hreach'.taken)
  have hsecond := hreach'.other (by rw [hreach.taken.drop]; exact hc.second)
  rw [Pairing.bind_of_ok hfirst, hsecond, Scan.drop_drop]

/-- A step that reads nothing and does not look ahead. -/
theorem of_still {W' : World} {b : α → β} (hle : W.Le W') (hW' : Pairing.diagonal.admits W')
    (hψ : ∀ a, ψ a = φ)
    (h : ∀ s s₁ a, s.moment = W.left → p s = (.ok a, s₁) → s₁.moment = W'.left ∧
      s₁.ahead = s.ahead ∧ R W' a (b a) ∧
        ∀ c, q { s with ahead := c } = (.ok (b a), { s₁ with ahead := c })) :
    Local φ ψ W R p q := by
  intro s s₁ a c hs hφ _ hrun
  obtain ⟨hm, hahead, hr, hother⟩ := h s s₁ a hs hrun
  refine ⟨0, W', b a, hle, hW', hm, ?_, hr, fun _ => hother c⟩
  rw [hψ a, hahead]
  exact .refl hφ

theorem pure {a : α} {b : β} (hW : Pairing.diagonal.admits W) (hψ : ψ a = φ) (h : R W a b) :
    Local φ ψ W R (Pure.pure a) (Pure.pure b) := by
  intro s s₁ a' c hs hφ _ hrun
  obtain ⟨ha, rfl⟩ := Prod.mk.inj hrun
  obtain rfl := Except.ok.inj ha
  refine ⟨0, W, b, .refl W, hW, hs, ?_, h, fun _ => rfl⟩
  rw [hψ]
  exact .refl hφ

theorem of_fails (h : ∀ s, ∃ e s₁, p s = (.error e, s₁)) : Local φ ψ W R p q := by
  intro s s₁ a c _ _ _ hrun
  obtain ⟨e, s₂, he⟩ := h s
  cases he.symm.trans hrun

end Local

theorem peekAt_eq_ok {n : Nat} {s s₁ : ParseState} {t : Token} (h : peekAt n s = (.ok t, s₁)) :
    s₁ = s ∧ ∀ i ≤ n, ∃ u, s.ahead.get i = .token u ∧ (i = n → u = t) := by
  rcases hp : s.ahead.peek n with ⟨_ | u, x⟩
  · simp [peekAt, hp] at h
  · obtain ⟨rfl, hget⟩ := Scan.peek_eq_ok hp
    simp only [peekAt, hp, Prod.mk.injEq, Except.ok.injEq] at h
    obtain ⟨rfl, rfl⟩ := h
    exact ⟨rfl, hget⟩

theorem peekAt_of_tokens {n : Nat} {s : ParseState} {t : Token}
    (h : ∀ i ≤ n, ∃ u, s.ahead.get i = .token u ∧ (i = n → u = t)) : peekAt n s = (.ok t, s) := by
  simp only [peekAt, Scan.peek_of_tokens h]

/-- Reading a token that was looked at. -/
def take (t : Token) : Parse Token :=
  fun s => (.ok t, { s with ahead := s.ahead.advance, last := t.span })

theorem next_eq_bind : next = peek >>= take := rfl

theorem next_eq_ok {s s₁ : ParseState} {t : Token} (h : next s = (.ok t, s₁)) :
    s.ahead.get 0 = .token t ∧ s₁ = { s with ahead := s.ahead.drop 1, last := t.span } := by
  rw [next_eq_bind] at h
  rcases hp : peek s with ⟨_ | u, s'⟩
  · rw [Pairing.bind_of_error hp] at h
    cases h
  · rw [Pairing.bind_of_ok hp] at h
    obtain ⟨rfl, hget⟩ := peekAt_eq_ok hp
    obtain ⟨ht, rfl⟩ := Prod.mk.inj h
    obtain rfl := Except.ok.inj ht
    obtain ⟨w, hw, he⟩ := hget 0 (Nat.le_refl 0)
    obtain rfl := he rfl
    exact ⟨hw, by rw [Scan.drop_one]⟩

theorem next_of_token {s : ParseState} {t : Token} (h : s.ahead.get 0 = .token t) :
    next s = (.ok t, { s with ahead := s.ahead.drop 1, last := t.span }) := by
  have hp : peek s = (.ok t, s) := by
    refine peekAt_of_tokens fun i hi => ?_
    obtain rfl := Nat.le_zero.1 hi
    exact ⟨t, h, fun _ => rfl⟩
  rw [next_eq_bind, Pairing.bind_of_ok hp, take, Scan.drop_one]

theorem expect_eq_ok {kind : TokenKind} {s s₁ : ParseState} {t : Token}
    (h : expect kind s = (.ok t, s₁)) : t.kind = kind ∧ next s = (.ok t, s₁) := by
  rcases hn : next s with ⟨_ | u, s'⟩
  · rw [expect, Pairing.bind_of_error hn] at h
    cases h
  · rw [expect, Pairing.bind_of_ok hn] at h
    split_ifs at h with hk
    · obtain ⟨hu, rfl⟩ := Prod.mk.inj h
      obtain rfl := Except.ok.inj hu
      exact ⟨hk, rfl⟩
    · cases h

theorem expect_of_token {kind : TokenKind} {s : ParseState} {t : Token} (h : s.ahead.get 0 = .token t)
    (hk : t.kind = kind) :
    expect kind s = (.ok t, { s with ahead := s.ahead.drop 1, last := t.span }) := by
  rw [expect, Pairing.bind_of_ok (next_of_token h), if_pos hk]
  rfl

/-- A token that is read in the midst of a declaration or at its end. -/
theorem local_next {φ χ : Phase} {W : World} (hW : Pairing.diagonal.admits W) (hφ : φ.Open)
    {p q : Parse Token} (hχ : ∀ x : Scan, χ.Holds x)
    (hp : ∀ {s s₁ t}, φ.Holds s.ahead → p s = (.ok t, s₁) →
      s.ahead.get 0 = .token t ∧ s₁ = { s with ahead := s.ahead.drop 1, last := t.span } ∧
        (¬ χ.Open → t.kind.closes = true) ∧ ∀ c : Scan, c.get 0 = .token t →
          q { s with ahead := c } = (.ok t, { s with ahead := c.drop 1, last := t.span })) :
    Local φ (fun _ => χ) W (fun W' t t' => W' = W ∧ t.Matches Eq t') p q := by
  intro s s₁ t c hs hold hlen hrun
  obtain ⟨hget, rfl, hclose, hother⟩ := hp hold hrun
  have htokens : ∀ i < 1, ∃ u, s.ahead.get i = .token u := by
    intro i hi
    obtain rfl : i = 0 := by omega
    exact ⟨t, hget⟩
  refine ⟨1, W, t, .refl W, hW, hs, ⟨rfl, htokens, hχ _, fun hn => absurd hφ hn, fun _ hn => ?_⟩,
    ⟨rfl, rfl, rfl⟩, fun hc => ?_⟩
  · exact ⟨0, t.kind, rfl, congrArg Item.kind? hget, hclose hn⟩
  · exact hother c ((hc.front 0 Nat.one_pos).trans hget)

/-- A look at the tokens ahead, of which all but the last are of a known kind. -/
theorem local_peekAt {φ : Phase} {ψ : Token → Phase} {W : World} (hW : Pairing.diagonal.admits W)
    (n : Nat) (hφ : φ.Open)
    (hψ : ∀ {x : Scan} {t}, φ.Holds x → (∀ i ≤ n, ∃ u, x.get i = .token u ∧ (i = n → u = t)) →
      (ψ t).Open ∧ (ψ t).Holds x ∧ ∀ c, SameAhead (ψ t) 0 x c → ∀ i ≤ n, c.get i = x.get i) :
    Local φ ψ W (fun W' t t' => W' = W ∧ t.Matches Eq t') (peekAt n) (peekAt n) := by
  intro s s₁ t c hs hold hlen hrun
  obtain ⟨rfl, hget⟩ := peekAt_eq_ok hrun
  obtain ⟨hopen, hholds, hsame⟩ := hψ hold hget
  refine ⟨0, W, t, .refl W, hW, hs, ⟨rfl, by simp, hholds, fun hn => absurd hφ hn, fun _ hn => absurd hopen hn⟩,
    ⟨rfl, rfl, rfl⟩, fun hc => peekAt_of_tokens fun i hi => ?_⟩
  obtain ⟨u, hu, he⟩ := hget i hi
  exact ⟨u, (hsame c hc i hi).trans hu, he⟩

theorem local_change {φ : Phase} {W : World} (hW : Pairing.diagonal.admits W) (a : Addition)
    {c : Vocabulary → α × Vocabulary} {d : Vocabulary → β × Vocabulary}
    (hc : ∀ v, (c v).2 = a.apply v) (hd : ∀ v, (d v).2 = a.apply v) :
    Local φ (fun _ => φ) W (fun W' x y => W' = W.add a ∧ x = (c W.left.vocabulary).1 ∧
      y = (d W.right.vocabulary).1) (change c) (change d) := by
  refine .of_still (b := fun _ => (d W.right.vocabulary).1) (W.le_add a)
    (Pairing.diagonal.admits_add a hW) (fun _ => rfl) fun s s₁ x hs hrun => ?_
  have hv : s.vocabulary = W.left.vocabulary := congrArg Moment.vocabulary hs
  have hseen : s.seen = W.left.seen := congrArg Moment.seen hs
  obtain ⟨hx, rfl⟩ := Prod.mk.inj hrun
  obtain rfl := Except.ok.inj hx
  refine ⟨?_, rfl, ⟨rfl, by rw [hv], rfl⟩, fun ahead => ?_⟩
  · simp [ParseState.moment, World.add, hc, hv, hseen]
  · simp [change, hc, hd, hv, hW.1]

/-- Locality is a comparison of two runs with one vocabulary. -/
def lookahead : Comparison where
  admits := Pairing.diagonal.admits
  spans := Eq
  bounds n m := n ≤ m
  relates φ ψ W R p q := Pairing.diagonal.admits W → Local φ ψ W R p q
  interchangeable := Pairing.diagonal.interchangeable
  merge := Pairing.diagonal.merge
  strip := Pairing.diagonal.strip
  bounds_succ {n m} h := ⟨m - 1, by omega, by omega⟩
  assume h hW := h hW hW
  pure hψ h hW := .pure hW hψ h
  bind hp hf hW := (hp hW).bind fun hle hW' hab => hf hle hab hW'
  fail _ _ := .of_fails fun s => ⟨_, s, rfl⟩
  exhausted _ _ _ := .of_fails fun s => ⟨_, s, rfl⟩
  sized hsize h hW s s₁ a c hs hφ hlen hrun := by
    obtain ⟨k, W', b, hr⟩ := h (hsize hlen) hW s s₁ a c hs hφ hlen hrun
    exact ⟨k, W', b, hr.le, hr.admits, hr.moment, hr.taken, hr.related, hr.other⟩
  reopen kind h hW s s₁ a c hs _ hlen hrun := by
    obtain ⟨k, W', b, hr⟩ := h hW s s₁ a c hs trivial hlen hrun
    have ht : Taken (.before kind) _ k s.ahead s₁.ahead :=
      ⟨hr.taken.drop, hr.taken.tokens, hr.taken.holds, fun hn => absurd trivial hn, fun _ => hr.taken.closed trivial⟩
    exact ⟨k, W', b, hr.le, hr.admits, hr.moment, ht, hr.related, hr.other⟩
  vocabulary {φ W} hW := by
    refine .of_still (b := fun v => v) (.refl W) hW (fun _ => rfl) fun s s₁ v hs hrun => ?_
    obtain ⟨hv, rfl⟩ := Prod.mk.inj hrun
    obtain rfl := Except.ok.inj hv
    have hv : s.vocabulary = W.left.vocabulary := congrArg Moment.vocabulary hs
    exact ⟨hs, rfl, ⟨rfl, hv, by rw [hv, hW.1]⟩, fun _ => rfl⟩
  change a _ _ hc hd hW := local_change hW a hc hd
  spanFrom {φ W a b} hab hW := by
    refine .of_still (b := fun x => x) (.refl W) hW (fun _ => rfl) fun s s₁ x hs hrun => ?_
    obtain ⟨hx, rfl⟩ := Prod.mk.inj hrun
    obtain rfl := Except.ok.inj hx
    obtain rfl : a = b := hab
    exact ⟨hs, rfl, ⟨rfl, rfl⟩, fun _ => rfl⟩
  peek hW := by
    refine local_peekAt hW 0 trivial fun {x t} _ hget => ?_
    obtain ⟨u, hu, he⟩ := hget 0 (Nat.le_refl 0)
    obtain rfl := he rfl
    refine ⟨trivial, congrArg Item.kind? hu, fun c hc i hi => ?_⟩
    obtain rfl := Nat.le_zero.1 hi
    exact hc.here trivial
  peekBehind hname hW := by
    refine local_peekAt hW 1 trivial fun {x t} hold _ => ⟨trivial, hold, fun c hc i hi => ?_⟩
    rcases Nat.le_one_iff_eq_zero_or_eq_one.1 hi with rfl | rfl
    · exact hc.here trivial
    · exact hc.behindName trivial _ hold hname
  next hW := by
    refine local_next (φ := .within) (χ := .within) hW trivial (fun _ => trivial) fun {s s₁ t} _ hrun => ?_
    obtain ⟨hget, rfl⟩ := next_eq_ok hrun
    exact ⟨hget, rfl, fun hn => absurd trivial hn, fun c hc => next_of_token (s := { s with ahead := c }) hc⟩
  close {W kind} hk hW := by
    refine local_next (φ := .before kind) (χ := .behind) hW trivial (fun _ => trivial) fun {s s₁ t} hold hrun => ?_
    obtain ⟨hget, rfl⟩ := next_eq_ok hrun
    have ht : t.kind = kind := by
      have h : (s.ahead.get 0).kind? = some kind := hold
      rw [hget] at h
      exact Option.some.inj h
    exact ⟨hget, rfl, fun _ => ht ▸ hk, fun c hc => next_of_token (s := { s with ahead := c }) hc⟩
  expectClose {W kind} hk hW := by
    refine local_next (φ := .within) (χ := .behind) hW trivial (fun _ => trivial) fun {s s₁ t} _ hrun => ?_
    obtain ⟨ht, hn⟩ := expect_eq_ok hrun
    obtain ⟨hget, rfl⟩ := next_eq_ok hn
    exact ⟨hget, rfl, fun _ => ht ▸ hk, fun c hc => expect_of_token (s := { s with ahead := c }) hc ht⟩

variable {loader : Loader}

/-- Including a unit neither reads the items ahead nor looks at them. -/
theorem includeUnit_ahead {body : Parse (List Decl)} {span : Span} {name : String} {s s₁ : ParseState}
    {u : Digest × List Decl} (h : includeUnit loader body span name s = (.ok u, s₁)) :
    s₁.ahead = s.ahead ∧ ∀ c, includeUnit loader body span name { s with ahead := c } =
      (.ok u, { s₁ with ahead := c }) := by
  cases hl : loader.load span name with
  | error e =>
    rw [includeUnit_of_error hl] at h
    cases h
  | ok source =>
    by_cases hd : source.digest ∈ s.seen
    · rw [includeUnit_of_seen hl hd] at h
      obtain ⟨hu, rfl⟩ := Prod.mk.inj h
      refine ⟨rfl, fun c => ?_⟩
      rw [includeUnit_of_seen (s := { s with ahead := c }) hl hd, ← Except.ok.inj hu]
    · rw [includeUnit_of_unseen hl hd] at h
      obtain ⟨hu, rfl⟩ := Prod.mk.inj h
      refine ⟨rfl, fun c => ?_⟩
      rw [includeUnit_of_unseen (s := { s with ahead := c }) hl hd]
      exact Prod.ext hu rfl

theorem includes_lookahead (loader : Loader) : lookahead.alikeAccount.Includes (includeUnit loader (program loader))
    (includeUnit loader (program loader)) := by
  intro W a b name hab hW s s₁ u c hs _ _ hrun
  obtain rfl : a = b := hab
  have hkeep := Pairing.includes_program (Pairing.includes_diagonal loader) name (rfl : a = a) hW
  have hstep : Pairing.diagonal.InStep W s s := ⟨hs, hW.1 ▸ hs, .refl (fun _ => rfl) _, rfl⟩
  obtain ⟨W', hle, hW', he⟩ := (hkeep.together s s hstep).resolve_left id
  rw [hrun] at he
  obtain ⟨hahead, hother⟩ := includeUnit_ahead hrun
  refine ⟨0, W', u, hle, hW', he.2.left, ?_, he.1, fun _ => hother c⟩
  rw [hahead]
  exact .refl trivial

/-- A declaration is read up to a token that closes it, and is read the same before other items that
are the same up to there. -/
theorem declaration_local {s s₁ : ParseState} {ds : List Decl} {c : Scan} (hs : s.vocabulary.Reachable)
    (hlen : s.ahead.items.length ≤ c.items.length)
    (h : declaration (includeUnit loader (program loader)) s = (.ok ds, s₁)) :
    ∃ k kind, s₁.vocabulary.Reachable ∧ s₁.ahead = s.ahead.drop (k + 1) ∧
      (∀ i < k + 1, ∃ t, s.ahead.get i = .token t) ∧
      (s.ahead.get k).kind? = some kind ∧ kind.closes = true ∧
      ((∀ i < k + 1, c.get i = s.ahead.get i) →
        declaration (includeUnit loader (program loader)) { s with ahead := c } =
          (.ok ds, { s₁ with ahead := c.drop (k + 1) })) := by
  have hW : Pairing.diagonal.admits ⟨s.moment, s.moment⟩ := ⟨rfl, hs⟩
  have hlocal := Comparison.Account.declares_declaration (A := lookahead.alikeAccount)
    (includes_lookahead loader) hW
  obtain ⟨k, W', ds', hr⟩ := hlocal s s₁ ds c rfl trivial hlen h
  obtain ⟨j, kind, rfl, hkind, hclose⟩ := hr.taken.closed trivial id
  have hv : s₁.vocabulary.Reachable := by
    rw [show s₁.vocabulary = W'.left.vocabulary from congrArg Moment.vocabulary hr.moment]
    exact hr.admits.2
  obtain rfl : ds = ds' := by
    have hj := Pairing.joins_id hr.admits
    have he : relabel .id ds = relabel .id ds' := hr.related .id .id hj
    rwa [relabel_id, relabel_id] at he
  exact ⟨j, kind, hv, hr.taken.drop, hr.taken.tokens, hkind, hclose, fun hfront =>
    hr.other ⟨hfront, fun ho => ho.elim, fun ho => ho.elim⟩⟩

end Parse

end Clausal
