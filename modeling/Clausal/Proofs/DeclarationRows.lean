import Clausal.Proofs.JoinedScans
import Clausal.Proofs.Lookahead

/-!
# Declarations in a row

The declarations of a text are read one after the other. None of them looks at the next one, so what is
read first does not depend on what follows it, and it matters for what follows only by the
vocabulary and the texts that have been included.
-/
namespace Clausal.Parse

variable {loader : Loader} {s s₁ s' : ParseState} {ds rest : List Decl}

/-- The declarations of a text and of the units that it includes. -/
abbrev contents (loader : Loader) : Parse (List Decl) :=
  declarations (includeUnit loader (program loader))

theorem contents_ends_eq (loader : Loader) (hs : s.vocabulary.Reachable) :
    (contents loader s).1 = (program loader s).1 ∧
      (contents loader s).2.moment = (program loader s).2.moment :=
  unitBody_ends_eq loader (loader.texts.length + 1) hs
    (Nat.le_succ_of_le (loader.unseen_le s.seen))

/-- What a run gives if these declarations have been read before it. -/
def prepend (ds : List Decl) (r : Except ParseError (List Decl) × ParseState) :
    Except ParseError (List Decl) × ParseState :=
  (r.1.map (ds ++ ·), r.2)

theorem prepend_nil (r : Except ParseError (List Decl) × ParseState) : prepend [] r = r := by
  obtain ⟨_ | ds, s⟩ := r <;> rfl

theorem prepend_prepend (ds rest : List Decl) (r : Except ParseError (List Decl) × ParseState) :
    prepend ds (prepend rest r) = prepend (ds ++ rest) r := by
  obtain ⟨_ | es, s⟩ := r
  · rfl
  · simp [prepend, Except.map]

/-- The vocabulary is sound and the items ahead end as those of a text do. -/
structure Steady (s : ParseState) : Prop where
  reachable : s.vocabulary.Reachable
  last : ∀ kind, s.ahead.last.kind? = some kind → kind = .endOfInput

theorem steady_initial {v : Vocabulary} (hv : v.Reachable) (seen : List Digest) (source text : String) :
    Steady (.initial v seen source text) :=
  ⟨hv, fun _ h => (Cursor.initial source text).last_scan h⟩

/-- A declaration reads at least one item, and not the last. -/
theorem Steady.declaration (hs : Steady s)
    (h : declaration (includeUnit loader (program loader)) s = (.ok ds, s₁)) :
    Steady s₁ ∧ s₁.ahead.items.length < s.ahead.items.length := by
  obtain ⟨k, kind, hv, hahead, -, hkind, hclose, -⟩ :=
    declaration_local hs.reachable (Nat.le_refl _) h
  have hk : k < s.ahead.items.length := by
    by_contra hk
    have hlast : s.ahead.get k = s.ahead.last := by
      simp [Scan.get, List.getD_eq_getElem?_getD, List.getElem?_eq_none (Nat.le_of_not_lt hk)]
    rw [hlast] at hkind
    obtain rfl := hs.last kind hkind
    cases hclose
  refine ⟨⟨hv, fun kind' h' => hs.last kind' ?_⟩, ?_⟩
  · rwa [hahead] at h'
  · rw [hahead, Scan.drop, List.length_drop]
    omega

/-- One round of reading declarations. -/
def declarationRound (loader : Loader) (found : List Decl) : Parse (Round (List Decl) (List Decl)) :=
  peek >>= fun t =>
    if t.kind = .endOfInput then pure (.done found)
    else declaration (includeUnit loader (program loader)) >>= fun ds => pure (.again (found ++ ds))

theorem contents_eq_rounds (s : ParseState) :
    contents loader s = rounds (declarationRound loader) (s.ahead.items.length + 1) [] s := rfl

theorem rounds_of_error {n : Nat} {found : List Decl} {e : ParseError} (h : peek s = (.error e, s₁)) :
    rounds (declarationRound loader) (n + 1) found s = (.error e, s₁) := by
  have hround : declarationRound loader found s = (.error e, s₁) := Pairing.bind_of_error h
  exact Pairing.bind_of_error hround

theorem rounds_of_end {n : Nat} {found : List Decl} {t : Token} (h : peek s = (.ok t, s))
    (ht : t.kind = .endOfInput) : rounds (declarationRound loader) (n + 1) found s = (.ok found, s) := by
  have hround : declarationRound loader found s = (.ok (.done found), s) := by
    rw [declarationRound, Pairing.bind_of_ok h, if_pos ht]
    rfl
  rw [rounds, Pairing.bind_of_ok hround]
  rfl

theorem rounds_of_refused {n : Nat} {found : List Decl} {t : Token} {e : ParseError}
    (h : peek s = (.ok t, s)) (ht : t.kind ≠ .endOfInput)
    (hd : declaration (includeUnit loader (program loader)) s = (.error e, s₁)) :
    rounds (declarationRound loader) (n + 1) found s = (.error e, s₁) := by
  have hround : declarationRound loader found s = (.error e, s₁) := by
    rw [declarationRound, Pairing.bind_of_ok h, if_neg ht, Pairing.bind_of_error hd]
  exact Pairing.bind_of_error hround

theorem rounds_of_declaration {n : Nat} {found : List Decl} {t : Token} (h : peek s = (.ok t, s))
    (ht : t.kind ≠ .endOfInput)
    (hd : declaration (includeUnit loader (program loader)) s = (.ok ds, s₁)) :
    rounds (declarationRound loader) (n + 1) found s =
      rounds (declarationRound loader) n (found ++ ds) s₁ := by
  have hround : declarationRound loader found s = (.ok (.again (found ++ ds)), s₁) := by
    rw [declarationRound, Pairing.bind_of_ok h, if_neg ht, Pairing.bind_of_ok hd]
    rfl
  rw [rounds, Pairing.bind_of_ok hround]

/-- Any number of rounds that is enough gives the same, behind what has been found. -/
theorem rounds_eq_prepend {n : Nat} {found : List Decl} (hs : Steady s) (hn : s.ahead.items.length < n) :
    rounds (declarationRound loader) n found s = prepend found (contents loader s) := by
  induction hlen : s.ahead.items.length using Nat.strongRecOn generalizing s n found with
  | ind len ih =>
    obtain ⟨n, rfl⟩ : ∃ m, n = m + 1 := ⟨n - 1, by omega⟩
    rw [contents_eq_rounds]
    rcases hp : peek s with ⟨e | t, s₁⟩
    · rw [rounds_of_error hp, rounds_of_error hp]
      rfl
    obtain ⟨rfl, -⟩ := peekAt_eq_ok hp
    by_cases ht : t.kind = .endOfInput
    · rw [rounds_of_end hp ht, rounds_of_end hp ht]
      simp [prepend, Except.map]
    rcases hd : declaration (includeUnit loader (program loader)) s₁ with ⟨e | ds, s₂⟩
    · rw [rounds_of_refused hp ht hd, rounds_of_refused hp ht hd]
      rfl
    · obtain ⟨hs₂, hlt⟩ := hs.declaration hd
      rw [rounds_of_declaration hp ht hd, rounds_of_declaration hp ht hd,
        ih _ (hlen ▸ hlt) hs₂ (by omega) rfl, ih _ (hlen ▸ hlt) hs₂ hlt rfl, List.nil_append,
        prepend_prepend]

theorem peek_of_token {t : Token} (h : s.ahead.get 0 = .token t) : peek s = (.ok t, s) := by
  refine peekAt_of_tokens fun i hi => ?_
  obtain rfl := Nat.le_zero.1 hi
  exact ⟨t, h, fun _ => rfl⟩

theorem exists_token_of_kind? {i : Item} {kind : TokenKind} (h : i.kind? = some kind) :
    ∃ t, i = .token t ∧ t.kind = kind := by
  cases i with
  | token t => exact ⟨t, rfl, Option.some.inj h⟩
  | fault e => cases h

theorem contents_of_end (h : (s.ahead.get 0).kind? = some .endOfInput) :
    contents loader s = (.ok [], s) := by
  obtain ⟨t, hget, ht⟩ := exists_token_of_kind? h
  rw [contents_eq_rounds, rounds_of_end (peek_of_token hget) ht]

theorem contents_of_declaration {t : Token} (hs : Steady s) (hget : s.ahead.get 0 = .token t)
    (ht : t.kind ≠ .endOfInput)
    (hd : declaration (includeUnit loader (program loader)) s = (.ok ds, s₁)) :
    contents loader s = prepend ds (contents loader s₁) := by
  obtain ⟨hs₁, hlt⟩ := hs.declaration hd
  rw [contents_eq_rounds, rounds_of_declaration (peek_of_token hget) ht hd, rounds_eq_prepend hs₁ hlt,
    List.nil_append]

/-- The declarations between two states, each with what it yields. -/
inductive Row (loader : Loader) : ParseState → List Decl → ParseState → Prop
  | nil {s : ParseState} (h : (s.ahead.get 0).kind? = some .endOfInput) : Row loader s [] s
  | cons {s s₁ s' : ParseState} {t : Token} {ds rest : List Decl} (get : s.ahead.get 0 = .token t)
      (goesOn : t.kind ≠ .endOfInput)
      (first : declaration (includeUnit loader (program loader)) s = (.ok ds, s₁))
      (others : Row loader s₁ rest s') : Row loader s (ds ++ rest) s'

/-- A text that is read yields a row of declarations. -/
theorem row_of_contents (hs : Steady s) (h : contents loader s = (.ok ds, s')) : Row loader s ds s' := by
  induction hlen : s.ahead.items.length using Nat.strongRecOn generalizing s ds with
  | ind len ih =>
    have hrounds := h
    rw [contents_eq_rounds] at hrounds
    rcases hp : peek s with ⟨e | t, s₀⟩
    · rw [rounds_of_error hp] at hrounds
      cases hrounds
    obtain ⟨rfl, hget⟩ := peekAt_eq_ok hp
    obtain ⟨u, hu, he⟩ := hget 0 (Nat.le_refl 0)
    obtain rfl := he rfl
    by_cases ht : u.kind = .endOfInput
    · rw [rounds_of_end hp ht] at hrounds
      obtain ⟨hds, rfl⟩ := Prod.mk.inj hrounds
      obtain rfl := Except.ok.inj hds
      exact .nil (by rw [hu, Item.kind?, ht])
    rcases hd : declaration (includeUnit loader (program loader)) s₀ with ⟨e | es, s₁⟩
    · rw [rounds_of_refused hp ht hd] at hrounds
      cases hrounds
    obtain ⟨hs₁, hlt⟩ := hs.declaration hd
    rw [contents_of_declaration hs hu ht hd] at h
    rcases hc : contents loader s₁ with ⟨e | rest, s₂⟩
    · rw [hc] at h
      cases h
    · rw [hc] at h
      obtain ⟨hds, rfl⟩ := Prod.mk.inj h
      obtain rfl := Except.ok.inj hds
      exact .cons hu ht hd (ih _ (hlen ▸ hlt) hs₁ hc rfl)

end Clausal.Parse

namespace Clausal.Scan

variable {tokens : List Token} {x y z : Scan} {i k : Nat}

theorem Complete.of_drop (hk : ∀ i < k, ∃ t, x.get i = .token t) (h : (x.drop k).Complete) :
    x.Complete := by
  obtain ⟨n, hn, hend⟩ := h
  refine ⟨k + n, fun i hi => ?_, by rw [← get_drop]; exact hend⟩
  by_cases hlt : i < k
  · exact hk i hlt
  · obtain ⟨t, ht⟩ := hn (i - k) (by omega)
    rw [get_drop] at ht
    exact ⟨t, by rw [← ht]; congr 1; omega⟩

namespace Leads

theorem get_lt (h : Leads tokens x z y) (hi : i < tokens.length) : y.get i = x.get i := by
  obtain ⟨-, ⟨ends, hitems, -, -⟩, -, rfl⟩ := h
  have hleft : i < (tokens.map Item.token).length := by simpa using hi
  simp only [get, hitems, List.getD_eq_getElem?_getD, List.getElem?_append_left hleft,
    List.getElem?_eq_getElem hleft, Option.getD_some]

theorem get_of_le (h : Leads tokens x z y) (hi : tokens.length ≤ i) :
    (x.get i).kind? = some .endOfInput := by
  obtain ⟨-, ⟨ends, hitems, -, hends⟩, hlast, -⟩ := h
  have hright : (tokens.map Item.token).length ≤ i := by simpa using hi
  simp only [get, hitems, List.getD_eq_getElem?_getD, List.getElem?_append_right hright]
  cases hget : ends[i - (tokens.map Item.token).length]? with
  | none => simpa using hlast
  | some item => exact hends item (List.mem_of_getElem? hget)

theorem length_le (h : Leads tokens x z y) : x.items.length ≤ y.items.length := by
  obtain ⟨-, ⟨ends, hitems, hlen, -⟩, -, rfl⟩ := h
  rw [hitems, List.length_append, List.length_append]
  omega

theorem drop (h : Leads tokens x z y) (hk : k ≤ tokens.length) :
    Leads (tokens.drop k) (x.drop k) z (y.drop k) := by
  obtain ⟨hgoes, ⟨ends, hitems, hlen, hends⟩, hlast, rfl⟩ := h
  have hk' : k ≤ (tokens.map Item.token).length := by simpa using hk
  refine ⟨fun t ht => hgoes t (List.mem_of_mem_drop ht), ⟨ends, ?_, hlen, hends⟩, hlast, ?_⟩
  · rw [Scan.drop, hitems, List.drop_append_of_le_length hk', List.map_drop]
  · rw [Scan.drop, List.drop_append_of_le_length hk', List.map_drop]

end Leads

end Clausal.Scan

namespace Clausal.Parse

variable {loader : Loader} {s s₁ s' : ParseState} {ds rest : List Decl}

/-- A text that is read without fault consists of tokens. -/
theorem Row.complete (h : Row loader s ds s') (hs : Steady s) : s.ahead.Complete := by
  induction h with
  | nil hend => exact ⟨0, fun i hi => absurd hi (Nat.not_lt_zero i), hend⟩
  | cons get goesOn first others ih =>
    obtain ⟨hs₁, -⟩ := hs.declaration first
    obtain ⟨k, kind, -, hahead, htokens, -, -, -⟩ :=
      declaration_local hs.reachable (Nat.le_refl _) first
    have hrest := ih hs₁
    rw [hahead] at hrest
    exact .of_drop htokens hrest

/-- The declarations of a text are read the same before the items of another one, which is then read
from the state that they leave. -/
theorem Row.contents_leads (h : Row loader s ds s') (hs : Steady s) {tokens : List Token} {z y : Scan}
    (hz : ∀ kind, z.last.kind? = some kind → kind = .endOfInput)
    (hlead : Scan.Leads tokens s.ahead z y) :
    contents loader { s with ahead := y } = prepend ds (contents loader { s' with ahead := z }) := by
  induction h generalizing tokens y with
  | @nil s hend =>
    obtain rfl : tokens = [] := by
      cases tokens with
      | nil => rfl
      | cons t tokens =>
        obtain ⟨hgoes, ⟨ends, hitems, -⟩, -⟩ := hlead
        have hget : s.ahead.get 0 = .token t := by
          rw [Scan.get, hitems]
          rfl
        rw [hget] at hend
        exact absurd (Option.some.inj hend) (hgoes t List.mem_cons_self)
    obtain rfl : y = z := hlead.joined
    rw [prepend_nil]
  | @cons s s₁ s' t ds rest get goesOn first others ih =>
    obtain ⟨hs₁, -⟩ := hs.declaration first
    obtain ⟨k, kind, -, hahead, -, hkind, hclose, hother⟩ :=
      declaration_local hs.reachable hlead.length_le first
    have hk : k < tokens.length := by
      by_contra hk
      rw [hlead.get_of_le (Nat.le_of_not_lt hk)] at hkind
      obtain rfl := Option.some.inj hkind
      cases hclose
    have hfirst := hother fun i hi => hlead.get_lt (Nat.lt_of_lt_of_le hi hk)
    have hsteady : Steady { s with ahead := y } := by
      refine ⟨hs.reachable, ?_⟩
      have hlast : y.last = z.last := by rw [hlead.joined]
      exact hlast ▸ hz
    have hget : y.get 0 = .token t := by
      rw [hlead.get_lt (Nat.lt_of_le_of_lt (Nat.zero_le k) hk)]
      exact get
    have hrest := hlead.drop hk
    rw [← hahead] at hrest
    rw [contents_of_declaration hsteady hget goesOn hfirst, ih hs₁ hrest, prepend_prepend]

end Clausal.Parse
