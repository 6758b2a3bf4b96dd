import Clausal.Proofs.GrammarCompleteness
import Clausal.Proofs.TermEnds
import Clausal.Proofs.JoinedScans

/-!
# Texts that are terms

A text consists of tokens of some kinds, up to the end of the input. It is read as a goal or as a term
exactly if these derive a term, and then its tree says what is read and which vocabulary is left.
-/
namespace Clausal

namespace Scan

/-- The items are tokens of these kinds, and then the input ends. -/
def ConsistsOf (u : Scan) (kinds : List TokenKind) : Prop :=
  ∀ n, (u.get n).kind? = some ((kinds.drop n).headD .endOfInput)

variable {u : Scan} {kinds : List TokenKind}

theorem ConsistsOf.exists_token (h : u.ConsistsOf kinds) (n : Nat) :
    ∃ t, u.get n = .token t ∧ t.kind = (kinds.drop n).headD .endOfInput := by
  have hn := h n
  cases hget : u.get n with
  | token t =>
    rw [hget] at hn
    exact ⟨t, rfl, Option.some.inj hn⟩
  | fault e =>
    rw [hget] at hn
    cases hn

theorem ConsistsOf.offers (h : u.ConsistsOf kinds) : u.Offers kinds := by
  intro n t _ ht
  have hn := h n
  rw [ht] at hn
  exact Option.some.inj hn

theorem Shows.consistsOf {ends : List TokenKind} (h : u.Shows (kinds ++ ends))
    (hends : ∀ k ∈ ends, k = .endOfInput) : u.ConsistsOf kinds := by
  intro n
  have hget : (u.get n).kind? = some (((kinds ++ ends).drop n).headD .endOfInput) := by
    have hn := congrArg (fun l : List (Option TokenKind) => l[n]?) h.items
    simp only [List.getElem?_map] at hn
    rw [get, List.getD_eq_getElem?_getD, List.headD_eq_head?_getD, List.head?_drop]
    cases hi : u.items[n]? with
    | none =>
      rw [hi, Option.map_none] at hn
      rw [Option.map_eq_none_iff.1 hn.symm]
      exact h.last
    | some item =>
      rw [hi, Option.map_some] at hn
      obtain ⟨k, hk, hkind⟩ := Option.map_eq_some_iff.1 hn.symm
      rw [hk]
      exact hkind.symm
  rw [hget, List.headD_eq_head?_getD, List.headD_eq_head?_getD, List.head?_drop, List.head?_drop]
  rcases Nat.lt_or_ge n kinds.length with hlt | hge
  · rw [List.getElem?_append_left hlt]
  · rw [List.getElem?_append_right hge, List.getElem?_eq_none hge]
    cases hk : ends[n - kinds.length]? with
    | none => rfl
    | some k => rw [hends k (List.mem_of_getElem? hk)]; rfl

theorem ConsistsOf.of_items (hitems : u.items.map Item.kind? = kinds.map some)
    (hlast : u.last.kind? = some .endOfInput) : u.ConsistsOf kinds := by
  have hshows : u.Shows (kinds ++ []) := ⟨by rwa [List.append_nil], hlast⟩
  exact hshows.consistsOf fun _ hm => (by cases hm)

/-- The tokens in front of the end are listed first. -/
theorem ConsistsOf.exists_shows (h : u.ConsistsOf kinds) (hend : .endOfInput ∉ kinds) :
    ∃ ends, u.Shows (kinds ++ ends) ∧ ∀ k ∈ ends, k = .endOfInput := by
  have hget : ∀ n, (u.get n).kind? = some (kinds[n]?.getD .endOfInput) := by
    intro n
    rw [h n, List.headD_eq_head?_getD, List.head?_drop]
  have hlast : ∀ n, u.items.length ≤ n → u.last.kind? = some (kinds[n]?.getD .endOfInput) := by
    intro n hn
    rw [← hget, get, List.getD_eq_getElem?_getD, List.getElem?_eq_none hn, Option.getD_none]
  have heoi : u.last.kind? = some .endOfInput := by
    rw [hlast (max u.items.length kinds.length) (Nat.le_max_left _ _),
      List.getElem?_eq_none (Nat.le_max_right _ _), Option.getD_none]
  have hlength : kinds.length ≤ u.items.length := by
    by_contra hlt
    have hn := hlast u.items.length (Nat.le_refl _)
    rw [List.getElem?_eq_getElem (Nat.lt_of_not_le hlt), Option.getD_some, heoi] at hn
    exact hend (Option.some.inj hn ▸ List.getElem_mem _)
  refine ⟨List.replicate (u.items.length - kinds.length) .endOfInput, ⟨?_, heoi⟩,
    fun k hk => List.eq_of_mem_replicate hk⟩
  refine List.ext_getElem (by simp; omega) fun n hn _ => ?_
  rw [List.length_map] at hn
  have hitem := hget n
  rw [get, List.getD_eq_getElem?_getD, List.getElem?_eq_getElem hn, Option.getD_some] at hitem
  rw [List.getElem_map, List.getElem_map, hitem, List.getElem_append]
  split_ifs with hk
  · rw [List.getElem?_eq_getElem hk, Option.getD_some]
  · rw [List.getElem?_eq_none (Nat.le_of_not_lt hk), Option.getD_none, List.getElem_replicate]

/-- A text without faults consists of its tokens. -/
theorem exists_consistsOf (source text : String) (h : (ofText source text).Complete) :
    ∃ kinds, (ofText source text).ConsistsOf kinds ∧ .endOfInput ∉ kinds := by
  obtain ⟨tokens, z, w, hleads, -, -⟩ := Cursor.scan_extend (k := Cursor.initial source text)
    (Cursor.initial source text) h
  obtain ⟨ends, hitems, -, hends⟩ := hleads.items
  have hshows : (ofText source text).Shows (tokens.map Token.kind ++ ends.map fun _ => .endOfInput) := by
    refine ⟨?_, hleads.last⟩
    rw [show (ofText source text).items = _ from hitems, List.map_append, List.map_append, List.map_map,
      List.map_map, List.map_map]
    exact congrArg _ (List.map_congr_left fun i hi => hends i hi)
  refine ⟨tokens.map Token.kind, hshows.consistsOf (by simp), fun hmem => ?_⟩
  obtain ⟨t, ht, hk⟩ := List.mem_map.1 hmem
  exact hleads.goesOn t ht hk

/-- The kinds of all tokens, those behind a fault included. -/
theorem offers_filterMap {last : Item} (hlast : ∀ kind, last.kind? = some kind → kind = .endOfInput)
    (items : List Item) : (Scan.mk items last).Offers (items.filterMap Item.kind?) := by
  induction items with
  | nil =>
    intro n t _ ht
    have ht : last = .token t := ht
    rw [List.filterMap_nil, List.drop_nil]
    exact hlast t.kind (by rw [ht]; rfl)
  | cons item items ih =>
    intro n t hbefore ht
    cases n with
    | zero =>
      obtain rfl : item = .token t := ht
      rfl
    | succ n =>
      obtain ⟨first, hfirst⟩ := hbefore 0 (Nat.succ_pos n)
      obtain rfl : item = .token first := hfirst
      exact ih n t (fun i hi => hbefore (i + 1) (Nat.succ_lt_succ hi)) ht

end Scan

namespace Grammar

open Parse Precedence

variable {u : Scan} {kinds X Y : List TokenKind} {v w w' : Vocabulary} {s s' : ParseState}

theorem expressionAt_eq_ok (hu : u.Offers kinds) {limit : Nat} {strict : Bool} {r : Term}
    (hl : limit ≤ application) (hs : Facing u kinds v s w X)
    (hrun : expressionAt limit strict s = (.ok r, s')) :
    HasRead u kinds v (.expression limit strict none) w X r s' :=
  (readsDerived hu _).expression hl hs hrun

/-- A goal is a term, perhaps a stop, and the end of the input. -/
theorem goal_eq_ok (hu : u.Offers kinds) {g : Goal} (hs : Facing u kinds v s w X)
    (hrun : goal s = (.ok g, s')) :
    ∃ a Y, Derives v (.expression lowest false none) X a Y ∧
      (Y.headD .endOfInput = .endOfInput ∨ ∃ Z, Y = .stop :: Z ∧ Z.headD .endOfInput = .endOfInput) ∧
        SameParts g.term (a.build w).1 ∧ s'.vocabulary = (a.build w).2 ∧ u.Complete := by
  obtain ⟨first, s₁, hfirst, hrun⟩ := bind_eq_ok hrun
  obtain ⟨rfl, -⟩ := hs.peek_eq_ok hu hfirst
  obtain ⟨t, s₁, ht, hrun⟩ := bind_eq_ok hrun
  obtain ⟨a, Y, ha, hsame, hs₁⟩ := expressionAt_eq_ok hu (by decide) hs ht
  obtain ⟨span, s₂, hspan, hrun⟩ := bind_eq_ok hrun
  obtain ⟨-, rfl⟩ := Prod.mk.inj hspan
  obtain ⟨following, s₂, hfollowing, hrun⟩ := bind_eq_ok hrun
  obtain ⟨rfl, hk⟩ := hs₁.peek_eq_ok hu hfollowing
  have hends : ∀ {s₂ s' : ParseState} {Z : List TokenKind} {g : Goal},
      Facing u kinds v s₂ (a.build w).2 Z →
      (do
        let _ ← expect .endOfInput
        pure ⟨span, t⟩ : Parse Goal) s₂ = (.ok g, s') →
      Z.headD .endOfInput = .endOfInput ∧ g.term = t ∧ s'.vocabulary = (a.build w).2 ∧ u.Complete := by
    intro s₂ s' Z g hs₂ hrun
    obtain ⟨last, s₃, hlast, hrun⟩ := bind_eq_ok hrun
    obtain ⟨rfl, rfl⟩ := eq_ok_of_pure hrun
    obtain ⟨hkind, hnext⟩ := Parse.expect_eq_ok hlast
    obtain ⟨hZ, -⟩ := hs₂.next_eq_ok hu hnext
    obtain ⟨k, -, hahead, htokens, -⟩ := hs₂.ahead
    obtain ⟨hget, rfl⟩ := Parse.next_eq_ok hnext
    rw [hahead, Scan.get_drop, Nat.add_zero] at hget
    exact ⟨hZ.symm.trans hkind, rfl, hs₂.vocabulary, k, htokens, by rw [hget, ← hkind]; rfl⟩
  split_ifs at hrun with hstop
  · obtain ⟨t', s₂, hnext, hrun⟩ := bind_eq_ok hrun
    obtain ⟨Z, rfl⟩ := eq_cons_of_headD (hk.symm.trans hstop) (by simp)
    obtain ⟨hZ, rfl, hv, hcomplete⟩ := hends ((hs₁.next_eq_ok hu hnext).2 rfl) hrun
    exact ⟨a, _, ha, .inr ⟨Z, rfl, hZ⟩, hsame, hv, hcomplete⟩
  · obtain ⟨hZ, rfl, hv, hcomplete⟩ := hends hs₁ hrun
    exact ⟨a, Y, ha, .inl hZ, hsame, hv, hcomplete⟩

end Grammar

section

variable {v w : Vocabulary}

open Grammar

theorem ParseState.facing_initial (hv : v.WellFormed) (seen : List Digest) (source text : String)
    (kinds : List TokenKind) :
    Facing (Scan.ofText source text) kinds v (.initial v seen source text) v kinds :=
  ⟨rfl, hv, .refl v, 0, Nat.zero_le _, rfl, fun _ hi => absurd hi (Nat.not_lt_zero _), rfl,
    fun _ _ hk => absurd hk (Nat.succ_ne_zero _).symm⟩

theorem goal_of_parseGoal {source text : String} {g : Goal} (h : parseGoal v source text = (.ok g, w)) :
    ∃ s', Parse.goal (.initial v [] source text) = (.ok g, s') ∧ s'.vocabulary = w := by
  rcases hrun : Parse.goal (.initial v [] source text) with ⟨r, s'⟩
  unfold parseGoal Parse.run at h
  rw [hrun] at h
  obtain ⟨rfl, rfl⟩ := Prod.mk.inj h
  exact ⟨s', rfl, rfl⟩

theorem parseGoal_of_parseTerm {text : String} {t : Term} (h : parseTerm v text = (.ok t, w)) :
    ∃ g, parseGoal v "<term>" text = (.ok g, w) ∧ g.term = t := by
  rcases hrun : parseGoal v "<term>" text with ⟨e | g, w'⟩ <;> unfold parseTerm at h <;> rw [hrun] at h
  · cases h
  · obtain ⟨ht, rfl⟩ := Prod.mk.inj h
    exact ⟨g, rfl, Except.ok.inj ht⟩

/-- A goal that is read consists of tokens that derive a term, but perhaps a stop. -/
theorem derives_of_parseGoal (hv : v.WellFormed) {source text : String} {g : Goal}
    (h : parseGoal v source text = (.ok g, w)) :
    ∃ kinds a Y, (Scan.ofText source text).ConsistsOf kinds ∧
      Derives v (.expression Precedence.lowest false none) kinds a Y ∧
        (Y = [] ∨ Y = [.stop]) ∧ SameParts g.term (a.build v).1 ∧ w = (a.build v).2 := by
  obtain ⟨s', hrun, rfl⟩ := goal_of_parseGoal h
  have hoffers := Scan.offers_filterMap (fun _ hk => (Cursor.initial source text).last_scan hk)
    (Scan.ofText source text).items
  obtain ⟨-, -, -, -, -, -, hcomplete⟩ :=
    goal_eq_ok hoffers (ParseState.facing_initial hv [] source text _) hrun
  obtain ⟨kinds, hkinds, hend⟩ := Scan.exists_consistsOf source text hcomplete
  obtain ⟨a, Y, ha, hY, hsame, hw, -⟩ :=
    goal_eq_ok hkinds.offers (ParseState.facing_initial hv [] source text kinds) hrun
  refine ⟨kinds, a, Y, hkinds, ha, ?_, hsame, hw⟩
  -- No token is the end of the input, so nothing stands behind.
  obtain ⟨C, rfl, -, -⟩ := ha.exists_balanced
  have hnil : ∀ {Z : List TokenKind}, Z.headD .endOfInput = .endOfInput → .endOfInput ∉ Z → Z = [] := by
    intro Z hZ hnot
    cases Z with
    | nil => rfl
    | cons k Z => exact absurd (hZ ▸ List.mem_cons_self) hnot
  have hend : .endOfInput ∉ Y := fun hm => hend (List.mem_append_right C hm)
  rcases hY with hY | ⟨Z, rfl, hZ⟩
  · exact .inl (hnil hY hend)
  · exact .inr (by rw [hnil hZ fun hm => hend (List.mem_cons_of_mem _ hm)])

/-- A text of known tokens that is read as a term has a tree. A stop is no part of a term. -/
theorem derives_of_parseTerm (hv : v.WellFormed) {text : String} {kinds : List TokenKind} {t : Term}
    (hk : (Scan.ofText "<term>" text).ConsistsOf kinds) (hend : ∀ k ∈ kinds, k.isStop = false)
    (h : parseTerm v text = (.ok t, w)) :
    ∃ a, Derives v (.expression Precedence.lowest false none) kinds a [] ∧ SameParts t (a.build v).1 ∧
      w = (a.build v).2 := by
  obtain ⟨g, hg, rfl⟩ := parseGoal_of_parseTerm h
  obtain ⟨s', hrun, rfl⟩ := goal_of_parseGoal hg
  obtain ⟨a, Y, ha, hY, hsame, hw, -⟩ :=
    goal_eq_ok hk.offers (ParseState.facing_initial hv [] "<term>" text kinds) hrun
  obtain ⟨C, rfl, -, -⟩ := ha.exists_balanced
  obtain rfl : Y = [] := by
    cases Y with
    | nil => rfl
    | cons k Y =>
      have hk := hend k (List.mem_append_right C List.mem_cons_self)
      rcases hY with rfl | ⟨Z, hZ, -⟩
      · cases hk
      · obtain ⟨rfl, -⟩ := List.cons.inj hZ
        cases hk
  exact ⟨a, ha, hsame, hw⟩

end

namespace Grammar

open Parse Precedence

variable {v w : Vocabulary} {kinds ends : List TokenKind} {a : SyntaxTree}

/-- An expression at a level that a text has at most is read in front of whatever it is derived before. -/
theorem Derives.expressionAt_produces {limit : Nat} {strict : Bool} {X Y : List TokenKind}
    (h : Derives v (.expression limit strict none) X a Y) (hl : limit ≤ Precedence.application)
    (hw : w.WellFormed) (hv : SameOperators v w) :
    (expressionAt limit strict).Produces w X (SameParts · (a.build w).1) (a.build w).2 Y := by
  intro s hs
  have hlength : s.ahead.items.length = X.length := by simpa using congrArg List.length hs.ahead.items
  exact h.reads hw hv (by simp [hlength, Part.slack]) hl s hs

theorem goal_produces (h : Derives v (.expression lowest false none) kinds a []) (hw : w.WellFormed)
    (hv : SameOperators v w) (hends : ends.headD .endOfInput = .endOfInput) :
    Parse.goal.Produces w (kinds ++ ends) (SameParts ·.term (a.build w).1) (a.build w).2 ends.tail := by
  have hfollowed := h.followedBy (m := 0) (C := kinds) (Z := ends) (List.append_nil _).symm
    (.inl (.of_name?_eq_none rfl rfl hends))
  refine Produces.peek_bind fun first _ => (hfollowed.expressionAt_produces (by decide) hw hv).bind fun t ht => ?_
  refine Produces.spanFrom_bind fun span => Produces.peek_bind fun following hfollowing => ?_
  rw [if_neg (by rw [hfollowing, hends]; simp)]
  dsimp only
  refine Produces.expect_end_bind hends fun last => .pure ht

end Grammar

/-- Some text of these tokens is read as a term. -/
def Vocabulary.Parses (v : Vocabulary) (kinds : List TokenKind) : Prop :=
  ∃ text t w, (Scan.ofText "<term>" text).ConsistsOf kinds ∧ parseTerm v text = (.ok t, w)

/-- Every text of these tokens is read as that term, but for the places of quotations, and leaves that
vocabulary. -/
def Vocabulary.Reads (v : Vocabulary) (kinds : List TokenKind) (t : Term) (w : Vocabulary) : Prop :=
  ∀ text, (Scan.ofText "<term>" text).ConsistsOf kinds → ∃ u, parseTerm v text = (.ok u, w) ∧ SameParts u t

theorem exists_eq_ok_of_isSome {v : Vocabulary} {text : String}
    (h : (parseTerm v text).1.toOption.isSome = true) : ∃ t w, parseTerm v text = (.ok t, w) := by
  rcases hrun : parseTerm v text with ⟨_ | t, w⟩ <;> rw [hrun] at h
  · cases h
  · exact ⟨t, w, rfl⟩

section

open Grammar

variable {v w : Vocabulary} {kinds : List TokenKind} {t u : Term} {a : SyntaxTree}

/-- A row that may end where a text ends is listed first in every scan of it. -/
theorem Scan.ConsistsOf.exists_ends {u : Scan} (hk : u.ConsistsOf kinds) (hend : .endOfInput ∉ kinds) :
    ∃ ends, u.Shows (kinds ++ ends) ∧ ends.headD .endOfInput = .endOfInput := by
  obtain ⟨ends, hshows, hends⟩ := hk.exists_shows hend
  refine ⟨ends, hshows, ?_⟩
  cases ends with
  | nil => rfl
  | cons k _ => exact hends k List.mem_cons_self

theorem Grammar.Derives.isStop_eq_false {part : Part} (h : Derives v part kinds a []) :
    ∀ k ∈ kinds, k.isStop = false := by
  obtain ⟨C, rfl, hC, -⟩ := h.exists_balanced
  rw [List.append_nil]
  exact fun k hk => hC.isStop_eq_false hk

/-- What derives by itself is read, in every vocabulary with these operators. -/
theorem Grammar.Derives.reads_text (h : Derives v (.expression Precedence.lowest false none) kinds a [])
    (hw : w.WellFormed) (hv : Parse.SameOperators v w) :
    w.Reads kinds (a.build w).1 (a.build w).2 := by
  intro text hk
  obtain ⟨ends, hshows, hends⟩ := hk.exists_ends fun hm => by cases h.isStop_eq_false _ hm
  obtain ⟨g, s, hrun, hsame, hs⟩ := goal_produces h hw hv hends (.initial w [] "<term>" text) ⟨rfl, hshows⟩
  have hgoal : parseGoal w "<term>" text = (.ok g, (a.build w).2) := by
    unfold parseGoal Parse.run
    rw [hrun, ← hs.vocabulary]
  refine ⟨g.term, ?_, hsame⟩
  rw [parseTerm, hgoal]
  rfl

theorem Vocabulary.Parses.derives (h : v.Parses kinds) (hv : v.WellFormed) (hend : ∀ k ∈ kinds, k.isStop = false) :
    ∃ a, Derives v (.expression Precedence.lowest false none) kinds a [] := by
  obtain ⟨text, t, w, hk, hrun⟩ := h
  obtain ⟨a, ha, -⟩ := derives_of_parseTerm hv hk hend hrun
  exact ⟨a, ha⟩

theorem Vocabulary.Reads.of_sameParts (h : v.Reads kinds t w) (hu : SameParts t u) : v.Reads kinds u w := by
  intro text hk
  obtain ⟨r, hrun, hr⟩ := h text hk
  exact ⟨r, hrun, Eq.trans hr hu⟩

end

end Clausal
