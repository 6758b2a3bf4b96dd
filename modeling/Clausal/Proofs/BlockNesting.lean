import Clausal.Proofs.BlockDrafts

/-!
# Nesting follows the tree of blocks

While a flat program is read, every open block has a body that still lacks its end. The frames on
the stack are those bodies with their `shorten` scopes taken apart, so each declaration lengthens
the innermost body, and a closing makes of it a block of the next one. At the end one body is left,
and the nested program is its scope.
-/
namespace Clausal

namespace Nesting

/-- The nesting with more frames, innermost first, above its own. -/
def push (n : Nesting) (frames : List Frame) : Nesting := { n with frames := frames ++ n.frames }

theorem onTop_id (n : Nesting) : n.onTop id = n := by
  obtain ⟨outermost, frames, seen⟩ := n
  cases frames <;> rfl

theorem onTop_onTop (n : Nesting) (f g : Draft → Draft) :
    (n.onTop f).onTop g = n.onTop (g ∘ f) := by
  unfold onTop
  cases n.frames <;> rfl

theorem onTop_seen (n : Nesting) (f : Draft → Draft) : (n.onTop f).seen = n.seen := by
  unfold onTop
  cases n.frames <;> rfl

theorem onTop_with_seen (n : Nesting) (f : Draft → Draft) (seen : List Digest) :
    { n.onTop f with seen } = { n with seen }.onTop f := by
  unfold onTop
  cases n.frames <;> rfl

theorem onTop_push_cons (n : Nesting) (f : Frame) (fs : List Frame) (g : Draft → Draft) :
    (n.push (f :: fs)).onTop g = n.push ({ f with draft := g f.draft } :: fs) := rfl

theorem closeTop_push_cons (n : Nesting) (f : Frame) (fs : List Frame) :
    (n.push (f :: fs)).closeTop = (n.push fs).onTop (·.addBlock f.toBlock) := rfl

/-- Closing the `shorten` scopes of a body makes blocks of them. -/
theorem foldl_closeTop (n : Nesting) (b : Body) :
    b.shortens.foldl (fun n _ => n.closeTop) (n.push b.shortens) = n.onTop b.finishTop := by
  induction b generalizing n with
  | done => exact (n.onTop_id).symm
  | entry _ _ ih => exact ih n
  | block _ _ _ _ _ _ _ ih => exact ih n
  | shorten span s rest ih =>
    have hpush : n.push (Body.shorten span s rest).shortens =
        (n.push [⟨.shorten s, span, rest.top .empty⟩]).push rest.shortens := by
      simp [push, Body.shortens]
    rw [hpush, Body.shortens, List.foldl_append, ih, List.foldl_cons, List.foldl_nil,
      onTop_push_cons, closeTop_push_cons]
    have hblock : Frame.toBlock ⟨.shorten s, span, rest.finishTop (rest.top .empty)⟩ =
        .shortened s rest.scope := by
      rw [Frame.toBlock, ← rest.scope_finishTop_empty]
    rw [hblock]
    rfl

end Nesting

/-- A block that is not closed yet, with its body so far. -/
structure OpenBlock where
  opening : Opening
  bracket : opening.isShorten = false
  span : Span
  body : Body

namespace OpenBlock

def base (o : OpenBlock) : Frame := ⟨o.opening, o.span, o.body.base⟩

def frames (o : OpenBlock) : List Frame := o.body.shortens ++ [o.base]

end OpenBlock

/-- The bodies that are open at a place of a program. -/
structure Surroundings where
  outermost : Body
  /-- The open blocks, innermost first. -/
  inner : List OpenBlock

namespace Surroundings

/-- The declarations up to the place. -/
def flat (s : Surroundings) : List Decl :=
  s.inner.foldr (fun o before => before ++ o.opening.decl o.span :: o.body.flat) s.outermost.flat

/-- The state of the nesting at the place. A block ends the run of clauses in front of it. -/
def nesting (seen : List Digest) (outermost : Body) : List OpenBlock → Nesting
  | [] => ⟨outermost.base, outermost.shortens, seen⟩
  | o :: rest => ((nesting seen outermost rest).onTop Draft.flush).push o.frames

def state (s : Surroundings) (seen : List Digest) : Nesting := nesting seen s.outermost s.inner

theorem state_seen (s : Surroundings) (seen : List Digest) : (s.state seen).seen = seen := by
  obtain ⟨b, inner⟩ := s
  induction inner with
  | nil => rfl
  | cons o rest ih => exact (Nesting.onTop_seen _ _).trans ih

theorem state_with_seen (s : Surroundings) (seen more : List Digest) :
    { s.state seen with seen := more } = s.state more := by
  obtain ⟨b, inner⟩ := s
  induction inner with
  | nil => rfl
  | cons o rest ih =>
    have hpush := congrArg (fun n : Nesting => (n.onTop Draft.flush).push o.frames) ih
    dsimp only at hpush
    rw [← Nesting.onTop_with_seen] at hpush
    exact hpush

/-- Puts more declarations at the place. -/
def append (s : Surroundings) (more : Body) : Surroundings :=
  match s.inner with
  | [] => { s with outermost := s.outermost.append more }
  | o :: rest => { s with inner := { o with body := o.body.append more } :: rest }

/-- Local names and rules stand in blocks that hold them. -/
structure Placed (s : Surroundings) : Prop where
  outermost : s.outermost.Placed
  locals : s.outermost.bracketed Entry.localList = []
  rules : s.outermost.bracketed Entry.ruleList = []
  inner : ∀ o ∈ s.inner, o.body.Fits o.opening ∧ o.body.Placed

theorem flat_append (s : Surroundings) (more : Body) :
    (s.append more).flat = s.flat ++ more.flat := by
  unfold append flat
  cases s.inner with
  | nil => exact Body.flat_append _ _
  | cons o rest => simp [Body.flat_append]

/-- More declarations without local names and rules go to the top. -/
theorem state_append (s : Surroundings) (seen : List Digest) (more : Body)
    (hl : more.bracketed Entry.localList = []) (hr : more.bracketed Entry.ruleList = []) :
    (s.append more).state seen = ((s.state seen).onTop (more.top ·)).push more.shortens := by
  obtain ⟨b, inner⟩ := s
  cases inner with
  | nil =>
    simp only [state, append, nesting]
    cases h : b.shortens with
    | nil =>
      rw [(Body.append_of_shortens_eq_nil h more .empty).1,
        Body.base_append_of_shortens_eq_nil hl hr h]
      simp [Nesting.onTop, Nesting.push]
    | cons f rest =>
      rw [(Body.append_of_shortens_eq_cons h more .empty).1,
        Body.base_append_of_shortens_eq_cons hl hr h]
      rfl
  | cons o inner =>
    simp only [state, append, nesting, OpenBlock.frames, OpenBlock.base]
    cases h : o.body.shortens with
    | nil =>
      rw [(Body.append_of_shortens_eq_nil h more .empty).1,
        Body.base_append_of_shortens_eq_nil hl hr h]
      simp [Nesting.onTop, Nesting.push]
    | cons f rest =>
      rw [(Body.append_of_shortens_eq_cons h more .empty).1,
        Body.base_append_of_shortens_eq_cons hl hr h]
      simp [Nesting.onTop, Nesting.push]

theorem fits_append {b more : Body} {opening : Opening} (hb : b.Fits opening)
    (hm : more.Fits opening) : (b.append more).Fits opening := by
  constructor
  · intro h
    rw [Body.bracketed_append, hb.1 h, hm.1 h, List.append_nil]
  · intro h
    rw [Body.bracketed_append, hb.2 h, hm.2 h, List.append_nil]

/-- The declarations may stand at the place. -/
def Holds (s : Surroundings) (more : Body) : Prop :=
  match s.inner with
  | [] => more.bracketed Entry.localList = [] ∧ more.bracketed Entry.ruleList = []
  | o :: _ => more.Fits o.opening

theorem holds_of_eq_nil (s : Surroundings) {more : Body}
    (hl : more.bracketed Entry.localList = []) (hr : more.bracketed Entry.ruleList = []) :
    s.Holds more := by
  unfold Holds
  cases s.inner with
  | nil => exact ⟨hl, hr⟩
  | cons o rest => exact ⟨fun _ => hl, fun _ => hr⟩

theorem Placed.append {s : Surroundings} {more : Body} (h : s.Placed) (hm : more.Placed)
    (hs : s.Holds more) : (s.append more).Placed := by
  obtain ⟨b, inner⟩ := s
  cases inner with
  | nil =>
    refine ⟨Body.placed_append.2 ⟨h.outermost, hm⟩, ?_, ?_, h.inner⟩
    · exact (Body.bracketed_append _ _ _).trans (by rw [h.locals, hs.1, List.append_nil])
    · exact (Body.bracketed_append _ _ _).trans (by rw [h.rules, hs.2, List.append_nil])
  | cons o rest =>
    refine ⟨h.outermost, h.locals, h.rules, fun o' ho => ?_⟩
    rcases List.mem_cons.1 ho with rfl | ho
    · obtain ⟨hf, hp⟩ := h.inner o List.mem_cons_self
      exact ⟨fits_append hf hs, Body.placed_append.2 ⟨hp, hm⟩⟩
    · exact h.inner o' (List.mem_cons_of_mem _ ho)

/-- From `s` the declarations `out.1` lead to the nesting `n`, with the digests `out.2` seen. -/
def LeadsTo (s : Surroundings) (out : List Decl × List Digest) (n : Nesting) : Prop :=
  ∃ s' : Surroundings, n = s'.state out.2 ∧ s'.flat = s.flat ++ out.1 ∧ (s.Placed → s'.Placed)

theorem leadsTo_nil (s : Surroundings) (seen : List Digest) :
    s.LeadsTo ([], seen) (s.state seen) :=
  ⟨s, rfl, (List.append_nil _).symm, id⟩

theorem LeadsTo.trans {s : Surroundings} {front back : List Decl} {seen seen' : List Digest}
    {n m : Nesting} (h : s.LeadsTo (front, seen) n)
    (hk : ∀ s' : Surroundings, n = s'.state seen → s'.LeadsTo (back, seen') m) :
    s.LeadsTo (front ++ back, seen') m := by
  obtain ⟨s', hn, hf, hp⟩ := h
  obtain ⟨s'', hm, hf', hp'⟩ := hk s' hn
  exact ⟨s'', hm, by rw [hf', hf, List.append_assoc], hp' ∘ hp⟩

variable (s : Surroundings) (seen : List Digest)

/-- A declaration for the top of the stack. -/
theorem leadsTo_onTop {e : Entry} {f : Draft → Draft} (hf : ∀ d, f d = e.onto d)
    (hl : e.localList = []) (hr : e.ruleList = []) :
    s.LeadsTo ([e.decl], seen) ((s.state seen).onTop f) := by
  have hl' : (Body.entry e .done).bracketed Entry.localList = [] := by simp [Body.bracketed, hl]
  have hr' : (Body.entry e .done).bracketed Entry.ruleList = [] := by simp [Body.bracketed, hr]
  refine ⟨s.append (.entry e .done), ?_, s.flat_append _, fun h =>
    h.append trivial (s.holds_of_eq_nil hl' hr')⟩
  rw [s.state_append seen _ hl' hr', funext hf]
  rfl

/-- An opening with a closing of its own. -/
theorem leadsTo_openBlock (opening : Opening) (h : opening.isShorten = false) (span : Span) :
    s.LeadsTo ([opening.decl span], seen) ((s.state seen).openBlock opening span) := by
  refine ⟨⟨s.outermost, ⟨opening, h, span, .done⟩ :: s.inner⟩, rfl, rfl, fun hs => ?_⟩
  refine ⟨hs.outermost, hs.locals, hs.rules, fun o ho => ?_⟩
  rcases List.mem_cons.1 ho with rfl | ho
  · exact ⟨⟨fun _ => rfl, fun _ => rfl⟩, trivial⟩
  · exact hs.inner o ho

theorem leadsTo_shorten (span : Span) (shorthands : List Shorthand) :
    s.LeadsTo ([.shorten span shorthands], seen)
      ((s.state seen).openBlock (.shorten shorthands) span) := by
  refine ⟨s.append (.shorten span shorthands .done), ?_, s.flat_append _, fun h =>
    h.append trivial (s.holds_of_eq_nil rfl rfl)⟩
  rw [s.state_append seen _ rfl rfl]
  rfl

theorem onScope_append {allowed : Opening → Bool} {f : Draft → Draft} {front : List Frame}
    (h : ∀ g ∈ front, g.opening.isShorten = true) (rest : List Frame) :
    Nesting.onScope allowed f (front ++ rest) =
      (Nesting.onScope allowed f rest).map (front ++ ·) := by
  induction front with
  | nil => simp
  | cons g front ih =>
    have hg := h g List.mem_cons_self
    have ih := ih fun g' hg' => h g' (List.mem_cons_of_mem _ hg')
    simp only [List.cons_append, Nesting.onScope, hg, if_true, ih, Option.map_map]
    rfl

/-- An entry of local names or of a rule changes nothing but the base. -/
theorem append_entry {e : Entry} (he : ∀ d, e.onto d = d) (b : Body) :
    (b.append (.entry e .done)).shortens = b.shortens ∧
      (b.append (.entry e .done)).base =
        { b.base with
          locals := b.base.locals ++ e.localList
          rules := b.base.rules ++ e.ruleList } := by
  have htop : ∀ d, (Body.entry e .done).top d = d := he
  have hbase : (b.append (.entry e .done)).top .empty = b.top .empty →
      (b.append (.entry e .done)).base =
        { b.base with
          locals := b.base.locals ++ e.localList
          rules := b.base.rules ++ e.ruleList } := by
    intro h
    simp [Body.base, h, Body.bracketed_append, Body.bracketed]
  cases hb : b.shortens with
  | nil =>
    obtain ⟨hs, ht⟩ := Body.append_of_shortens_eq_nil hb (.entry e .done) .empty
    exact ⟨hs, hbase (ht.trans (htop _))⟩
  | cons f rest =>
    obtain ⟨hs, ht⟩ := Body.append_of_shortens_eq_cons hb (.entry e .done) .empty
    refine ⟨?_, hbase ht⟩
    rw [hs, htop]
    rfl

/-- An entry for the innermost block that is no `shorten` scope. -/
theorem leadsTo_onScope {e : Entry} {allowed : Opening → Bool} {f : Draft → Draft}
    {frames : List Frame} (he : ∀ d, e.onto d = d)
    (hf : ∀ d, f d = { d with locals := d.locals ++ e.localList, rules := d.rules ++ e.ruleList })
    (ha : ∀ o, allowed o = true → (Body.entry e .done).Fits o)
    (h : Nesting.onScope allowed f (s.state seen).frames = some frames) :
    s.LeadsTo ([e.decl], seen) { s.state seen with frames } := by
  obtain ⟨b, inner⟩ := s
  cases inner with
  | nil =>
    have hnone : Nesting.onScope allowed f (b.shortens ++ []) = none := by
      rw [onScope_append fun g hg => Body.isShorten_of_mem_shortens hg]
      rfl
    rw [List.append_nil] at hnone
    exact absurd (hnone.symm.trans h) (by simp)
  | cons o inner =>
    have hframes : ((⟨b, o :: inner⟩ : Surroundings).state seen).frames =
        o.body.shortens ++ o.base :: ((nesting seen b inner).onTop Draft.flush).frames := by
      simp [state, nesting, Nesting.push, OpenBlock.frames]
    rw [hframes, onScope_append fun g hg => Body.isShorten_of_mem_shortens hg] at h
    have hopen : o.base.opening = o.opening := rfl
    simp only [Nesting.onScope, hopen, o.bracket] at h
    by_cases hao : allowed o.opening = true
    · simp only [hao, Bool.false_eq_true, if_false, if_true, Option.map_some,
        Option.some.injEq] at h
      refine ⟨Surroundings.append ⟨b, o :: inner⟩ (.entry e .done), ?_, flat_append _ _, fun hs =>
        hs.append trivial (ha _ hao)⟩
      obtain ⟨hs, hb⟩ := append_entry he o.body
      simp [← h, state, append, nesting, Nesting.push, OpenBlock.frames, OpenBlock.base, hs, hb, hf]
    · simp [hao] at h

theorem closeShortens_push (n : Nesting) (b : Body)
    (h : ∀ f ∈ n.frames.head?, f.opening.isShorten = false) :
    (n.push b.shortens).closeShortens = n.onTop b.finishTop := by
  have htake : (n.push b.shortens).frames.takeWhile (·.opening.isShorten) = b.shortens := by
    rw [Nesting.push, List.takeWhile_append_of_pos fun f hf => Body.isShorten_of_mem_shortens hf]
    cases hn : n.frames with
    | nil => simp
    | cons f rest => simp [h f (by simp [hn])]
  rw [Nesting.closeShortens, htake, n.foldl_closeTop b]

theorem closeShortens_state_nil (b : Body) :
    (nesting seen b []).closeShortens = ⟨b.finishTop b.base, [], seen⟩ := by
  have h := closeShortens_push ⟨b.base, [], seen⟩ b (by simp)
  simpa [Nesting.push, nesting, Nesting.onTop] using h

theorem closeShortens_state_cons (b : Body) (o : OpenBlock) (rest : List OpenBlock) :
    (nesting seen b (o :: rest)).closeShortens =
      ((nesting seen b rest).onTop Draft.flush).push
        [⟨o.opening, o.span, o.body.finishTop o.body.base⟩] := by
  have h := closeShortens_push (((nesting seen b rest).onTop Draft.flush).push [o.base]) o.body
    (by simp [Nesting.push, OpenBlock.base, o.bracket])
  simpa [Nesting.push, OpenBlock.frames, nesting, Nesting.onTop, OpenBlock.base] using h

/-- The finished frame of an open block is the block of its body. -/
theorem toBlock_finishTop (o : OpenBlock) :
    Frame.toBlock ⟨o.opening, o.span, o.body.finishTop o.body.base⟩ = o.opening.blockOf o.body := by
  have hb : o.body.base = Body.withLocals (o.body.top .empty) (o.body.bracketed Entry.localList)
      (o.body.bracketed Entry.ruleList) := rfl
  rw [Frame.toBlock, hb, Body.finishTop_withLocals, Body.flush_withLocals, Opening.blockOf,
    ← o.body.scope_finishTop_empty]
  cases o.opening <;> rfl

theorem leadsTo_close {span : Span} {n : Nesting} (h : (s.state seen).closeBlock span = .ok n) :
    s.LeadsTo ([.close span], seen) n := by
  obtain ⟨b, inner⟩ := s
  cases inner with
  | nil => simp [state, Nesting.closeBlock, closeShortens_state_nil] at h
  | cons o rest =>
    simp only [state, Nesting.closeBlock, closeShortens_state_cons] at h
    rw [if_neg (by simp [Nesting.push]), Nesting.closeTop_push_cons, toBlock_finishTop] at h
    obtain rfl := Except.ok.inj h
    let more : Body := .block o.opening o.bracket o.span span o.body .done
    refine ⟨Surroundings.append ⟨b, rest⟩ more, ?_, ?_, fun hs => ?_⟩
    · rw [state_append _ seen more rfl rfl]
      exact Nesting.onTop_onTop _ _ _
    · rw [flat_append]
      simp [more, flat, Body.flat]
    · obtain ⟨hf, hp⟩ := hs.inner o List.mem_cons_self
      have hrest : Placed ⟨b, rest⟩ := ⟨hs.outermost, hs.locals, hs.rules, fun o' ho =>
        hs.inner o' (List.mem_cons_of_mem _ ho)⟩
      exact hrest.append ⟨hf, hp, trivial⟩ (holds_of_eq_nil _ rfl rfl)

end Surroundings

end Clausal
