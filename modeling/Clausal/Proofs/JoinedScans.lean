import Clausal.Proofs.JoinedTexts
import Clausal.Proofs.PairedRuns

/-!
# Items of texts in a row

The items of a text do not depend on where it stands but for their spans. The items of two texts with a
line break between them are the tokens of the first, and then the items of the second.
-/
namespace Clausal

/-- Spans that need not have anything in common. -/
def Anywhere (_ _ : Span) : Prop := True

namespace Lexeme

/-- A gap that begins later ends later. -/
theorem gap_add (m : Nat) (text : List Char) :
    gap .plain m text =
      match gap .plain 0 text with
      | .ok n => .ok (m + n)
      | .error n => .error (m + n) := by
  induction m with
  | zero => cases gap .plain 0 text <;> simp
  | succ m ih =>
    rw [show gap .plain (m + 1) text = _ from gap_succ .plain m text, ih]
    cases gap .plain 0 text <;> simp <;> omega

end Lexeme

namespace Cursor

variable {k k' : Cursor}

theorem take_matches {kind : TokenKind} {n : Nat} (h : k.rest = k'.rest) :
    (k.take kind n).1.Matches Anywhere (k'.take kind n).1 ∧
      (k.take kind n).2.rest = (k'.take kind n).2.rest := by
  refine ⟨⟨rfl, trivial⟩, ?_⟩
  simp only [take, rest_advance, h]

theorem refuse_matches {a b : Span} {fault : ScanFault} {n : Nat} (h : k.rest = k'.rest) :
    (k.refuse a fault n).1.Matches Anywhere (k'.refuse b fault n).1 ∧
      (k.refuse a fault n).2.rest = (k'.refuse b fault n).2.rest := by
  refine ⟨⟨trivial, rfl⟩, ?_⟩
  simp only [refuse, rest_advance, h]

theorem takeQuotation_matches (h : k.rest = k'.rest) :
    k.takeQuotation.1.Matches Anywhere k'.takeQuotation.1 ∧
      k.takeQuotation.2.rest = k'.takeQuotation.2.rest := by
  rw [takeQuotation, takeQuotation, ← h]
  cases Lexeme.quotation k.rest with
  | some length => exact take_matches h
  | none => exact refuse_matches h

theorem takeString_matches (h : k.rest = k'.rest) (w : List Char) :
    (k.takeString w).1.Matches Anywhere (k'.takeString w).1 ∧
      (k.takeString w).2.rest = (k'.takeString w).2.rest := by
  rw [takeString, takeString, ← h]
  cases Lexeme.stringBody w with
  | closed text length => exact take_matches h
  | unterminated => exact refuse_matches h
  | unknownEscape e length => exact refuse_matches h

/-- The text decides which item is read. -/
theorem item_matches (h : k.rest = k'.rest) :
    k.item.1.Matches Anywhere k'.item.1 ∧ k.item.2.rest = k'.item.2.rest := by
  rw [item, item, ← h]
  cases hc : k.rest with
  | nil => exact take_matches h
  | cons c w =>
    dsimp only
    cases single? c with
    | some kind =>
      dsimp only
      split_ifs
      · exact take_matches h
      · exact takeQuotation_matches h
      · exact take_matches h
    | none =>
      dsimp only
      split_ifs
      · exact take_matches h
      · exact takeQuotation_matches h
      · exact take_matches h
      · exact take_matches h
      · exact take_matches h
      · exact take_matches h
      · exact takeString_matches h w
      · exact take_matches h
      · exact refuse_matches h

theorem next_of_gap {n : Nat} (h : Lexeme.gap .plain 0 k.rest = .ok n) : k.next = (k.advance n).item := by
  rw [next, h]

theorem next_of_gap_error {n : Nat} (h : Lexeme.gap .plain 0 k.rest = .error n) :
    k.next = k.refuse (k.advance n).here .unterminatedComment k.rest.length := by
  rw [next, h]

theorem next_matches (h : k.rest = k'.rest) :
    k.next.1.Matches Anywhere k'.next.1 ∧ k.next.2.rest = k'.next.2.rest := by
  cases hg : Lexeme.gap .plain 0 k.rest with
  | ok n =>
    rw [next_of_gap hg, next_of_gap (h ▸ hg)]
    refine item_matches ?_
    rw [rest_advance, rest_advance, h]
  | error n =>
    rw [next_of_gap_error hg, next_of_gap_error (h ▸ hg), ← h]
    exact refuse_matches h

theorem item_snd (k : Cursor) : ∃ n, k.item.2 = k.advance n := by
  have hscans := k.scans_item
  generalize k.item = x at hscans ⊢
  cases hscans <;> exact ⟨_, rfl⟩

theorem next_snd (k : Cursor) : ∃ n, k.next.2 = k.advance n := by
  rw [next]
  split
  · next m _ =>
    obtain ⟨n, hn⟩ := (k.advance m).item_snd
    exact ⟨m + n, by rw [hn, advance_add]⟩
  · exact ⟨_, rfl⟩

theorem length_next_le (k : Cursor) : k.next.2.rest.length ≤ k.rest.length := by
  obtain ⟨n, hn⟩ := k.next_snd
  rw [hn, rest_advance, List.length_drop]
  exact Nat.sub_le _ _

theorem advance_of_nil (h : k.rest = []) (n : Nat) : k.advance n = k := by
  induction n with
  | zero => rfl
  | succ n ih => rw [advance, step, h, ih]

/-- A cursor that leaves as much text as there was has not moved. -/
theorem next_snd_of_still (h : ¬ k.next.2.rest.length < k.rest.length) : k.next.2 = k := by
  obtain ⟨n, hn⟩ := k.next_snd
  rw [hn, rest_advance, List.length_drop] at h
  rw [hn]
  rcases Nat.eq_zero_or_pos n with rfl | hpos
  · rfl
  · exact advance_of_nil (List.eq_nil_of_length_eq_zero (by omega)) n

/-- The cursor has moved if there is less text left. -/
theorem offset_lt_next_iff (k : Cursor) :
    k.offset < k.next.2.offset ↔ k.next.2.rest.length < k.rest.length := by
  constructor
  · intro h
    by_contra hstill
    rw [next_snd_of_still hstill] at h
    exact Nat.lt_irrefl _ h
  · intro h
    obtain ⟨n, hn⟩ := k.next_snd
    rw [hn, rest_advance, List.length_drop] at h
    rw [hn]
    refine offset_lt_advance ?_ (by omega)
    rintro hnil
    simp [hnil] at h

/-- What is read in front of a break, and with the text that is behind the break. -/
theorem prolongs_next {b : Char} (hb : Lexeme.isBreak b = true) (rest : List Char) :
    Prolongs (b :: rest) k.next (k.extend (b :: rest)).next := by
  rcases Lexeme.gap_append_break hb .plain 0 k.rest rest with ⟨n, hn, hg, hg'⟩ | ⟨g, hg, hg'⟩
  · rw [Nat.zero_add] at hn
    have hne : (k.advance n).rest ≠ [] := by
      rw [rest_advance, Ne, List.drop_eq_nil_iff]
      omega
    rw [next_of_gap hg, next_of_gap hg', advance_extend (Nat.le_of_lt hn)]
    exact prolongs_item rest hb hne
  -- The gap takes all of the text, and then the break.
  rw [Nat.zero_add] at hg hg'
  have hend : k.next.1.meetsEnd = true := by
    have hitem : (k.advance k.rest.length).item = (k.advance k.rest.length).take .endOfInput 0 := by
      rw [item, rest_advance, List.drop_length]
    cases g with
    | plain | line =>
      rw [next_of_gap hg, hitem]
      rfl
    | block opened =>
      rw [next_of_gap_error hg]
      rfl
  refine prolongs_of_meetsEnd hend ?_
  cases hafter : Lexeme.gap g k.rest.length (b :: rest) with
  | ok n =>
    have hlt := Lexeme.lt_of_gap_break hb hafter
    obtain ⟨m, hm⟩ := ((k.extend (b :: rest)).advance n).item_snd
    rw [next_of_gap (hg'.trans hafter), hm, ← advance_add]
    exact rest_advance_lt (Nat.lt_add_right m hlt) b rest
  | error n =>
    rw [next_of_gap_error (hg'.trans hafter)]
    refine rest_advance_lt ?_ b rest
    simp [extend]

/-- A token that does not end the input takes a character, and is the same before a line break. -/
theorem next_of_token {t : Token} {after : Cursor} (h : k.next = (.token t, after))
    (ht : t.kind ≠ .endOfInput) (rest : List Char) :
    (k.extend ('\n' :: rest)).next = (.token t, after.extend ('\n' :: rest)) ∧
      after.rest.length < k.rest.length := by
  have hkind : k.next.1.kind? = some t.kind := by rw [h]; rfl
  obtain ⟨n, -, hn⟩ := next_of_kind? hkind
  have hne : (k.advance n).rest ≠ [] := by
    intro hnil
    rw [hn, item, hnil] at h
    exact ht (Token.mk.inj (Item.token.inj (Prod.mk.inj h).1) |>.1 ▸ rfl)
  have hafter := (item_of_token (hn.symm.trans h) hne).2
  rw [rest_advance, List.length_drop] at hafter
  refine ⟨?_, by omega⟩
  have hmore := prolongs_next (k := k) Lexeme.isBreak_newline rest
  have hmeets : k.next.1.meetsEnd = false := by
    rw [h]
    exact decide_eq_false ht
  rw [Prolongs, hmeets, h] at hmore
  exact hmore

/-- The input ends where no text is left. -/
theorem gap_of_end (h : k.next.1.kind? = some .endOfInput) :
    ∃ n, Lexeme.gap .plain 0 k.rest = .ok n ∧ (k.advance n).rest = [] ∧
      k.next = (k.advance n).take .endOfInput 0 := by
  obtain ⟨n, hg, hn⟩ := next_of_kind? h
  have hnil : (k.advance n).rest = [] := by
    by_contra hne
    rcases hi : (k.advance n).item with ⟨t | e, after⟩
    · rw [hn, hi] at h
      exact (item_of_token hi hne).1 (Option.some.inj h)
    · rw [hn, hi] at h
      cases h
  exact ⟨n, hg, hnil, by rw [hn, item, hnil]⟩

/-- Where the input ends, the text behind a line break is read as by itself. -/
theorem next_of_end (k' : Cursor) (h : k.next.1.kind? = some .endOfInput) :
    (k.extend ('\n' :: k'.rest)).next.1.Matches Anywhere k'.next.1 ∧
      (k.extend ('\n' :: k'.rest)).next.2.rest = k'.next.2.rest := by
  obtain ⟨n, hg, hnil, -⟩ := gap_of_end h
  rw [rest_advance, List.drop_eq_nil_iff] at hnil
  rcases Lexeme.gap_append_newline hg k'.rest with ⟨hlt, -⟩ | ⟨-, hg'⟩
  · omega
  rw [Lexeme.gap_add (0 + k.rest.length + 1)] at hg'
  have hdrop : ∀ m, (k.extend ('\n' :: k'.rest)).rest.drop (k.rest.length + 1 + m) = k'.rest.drop m := by
    intro m
    rw [Nat.add_assoc, ← List.drop_drop, extend, List.drop_left, Nat.add_comm, List.drop_succ_cons]
  cases hk' : Lexeme.gap .plain 0 k'.rest with
  | ok m =>
    rw [hk', Nat.zero_add] at hg'
    have hg' : Lexeme.gap .plain 0 (k.extend ('\n' :: k'.rest)).rest = .ok (k.rest.length + 1 + m) := hg'
    rw [next_of_gap hg', next_of_gap hk']
    refine item_matches ?_
    rw [rest_advance, rest_advance, hdrop]
  | error m =>
    rw [hk'] at hg'
    have hg' : Lexeme.gap .plain 0 (k.extend ('\n' :: k'.rest)).rest = .error (0 + k.rest.length + 1 + m) := hg'
    rw [next_of_gap_error hg', next_of_gap_error hk']
    refine ⟨⟨trivial, rfl⟩, ?_⟩
    simp only [refuse, rest_advance, List.drop_length]

theorem fromCursor_eq : ∀ {n m : Nat} {k : Cursor}, k.rest.length ≤ n → k.rest.length ≤ m →
    Scan.fromCursor n k = Scan.fromCursor m k := by
  have hzero : ∀ {m : Nat} {k : Cursor}, k.rest.length ≤ 0 →
      Scan.fromCursor 0 k = Scan.fromCursor m k := by
    intro m k h
    cases m with
    | zero => rfl
    | succ m =>
      have hstill : ¬ k.offset < k.next.2.offset := by
        rw [offset_lt_next_iff]
        omega
      simp only [Scan.fromCursor, if_neg hstill]
  intro n
  induction n with
  | zero => exact fun h _ => hzero h
  | succ n ih =>
    intro m k hn hm
    cases m with
    | zero => exact (hzero hm).symm
    | succ m =>
      rw [Scan.fromCursor, Scan.fromCursor]
      by_cases hmoved : k.offset < k.next.2.offset
      · have hlt := (k.offset_lt_next_iff).1 hmoved
        have hafter := ih (m := m) (k := k.next.2) (by omega) (by omega)
        simp only [if_pos hmoved, hafter]
      · simp only [if_neg hmoved]

/-- The items of the text at a cursor. -/
def scan (k : Cursor) : Scan := Scan.fromCursor k.rest.length k

theorem scan_of_moved (h : k.next.2.rest.length < k.rest.length) :
    k.scan = ⟨k.next.1 :: k.next.2.scan.items, k.next.2.scan.last⟩ := by
  obtain ⟨n, hn⟩ : ∃ n, k.rest.length = n + 1 := ⟨k.rest.length - 1, by omega⟩
  have hafter : Scan.fromCursor n k.next.2 = k.next.2.scan :=
    fromCursor_eq (by omega) (Nat.le_refl _)
  rw [scan, hn, Scan.fromCursor]
  simp only [if_pos (k.offset_lt_next_iff.2 h), hafter]

theorem scan_of_still (h : ¬ k.next.2.rest.length < k.rest.length) : k.scan = ⟨[], k.next.1⟩ := by
  rw [scan]
  cases k.rest.length with
  | zero => rfl
  | succ n =>
    rw [Scan.fromCursor]
    simp only [if_neg (mt k.offset_lt_next_iff.1 h)]

theorem get_zero_scan (k : Cursor) : k.scan.get 0 = k.next.1 := by
  by_cases h : k.next.2.rest.length < k.rest.length
  · rw [scan_of_moved h]
    rfl
  · rw [scan_of_still h]
    rfl

/-- What holds of a cursor if it holds of the next one that has less text left. -/
theorem moving_induction {motive : Cursor → Prop}
    (step : ∀ k, (k.next.2.rest.length < k.rest.length → motive k.next.2) → motive k) (k : Cursor) :
    motive k := by
  induction hn : k.rest.length using Nat.strongRecOn generalizing k with
  | ind n ih => exact step k fun hlt => ih _ (hn ▸ hlt) _ rfl

theorem scan_matches (h : k.rest = k'.rest) : k.scan.Matches Anywhere k'.scan := by
  induction k using moving_induction generalizing k' with
  | step k ih =>
    obtain ⟨hitem, hafter⟩ := next_matches h
    by_cases hmoved : k.next.2.rest.length < k.rest.length
    · obtain ⟨hitems, hlast⟩ := ih hmoved hafter
      have hmoved' : k'.next.2.rest.length < k'.rest.length := by rwa [← hafter, ← h]
      rw [scan_of_moved hmoved, scan_of_moved hmoved']
      exact ⟨.cons hitem hitems, hlast⟩
    · rw [scan_of_still hmoved, scan_of_still (by rwa [← hafter, ← h])]
      exact ⟨.nil, hitem⟩

/-- What repeats for ever is the end of the input or a fault. -/
theorem last_scan (k : Cursor) {kind : TokenKind} (h : k.scan.last.kind? = some kind) :
    kind = .endOfInput := by
  induction k using moving_induction with
  | step k ih =>
    by_cases hmoved : k.next.2.rest.length < k.rest.length
    · rw [scan_of_moved hmoved] at h
      exact ih hmoved h
    · rw [scan_of_still hmoved] at h
      rcases hn : k.next with ⟨t | e, after⟩
      · rw [hn] at h hmoved
        obtain rfl := Option.some.inj h
        by_contra ht
        exact hmoved (next_of_token hn ht []).2
      · rw [hn] at h
        cases h

theorem next_of_nil (h : k.rest = []) : k.next = k.take .endOfInput 0 := by
  have hg : Lexeme.gap .plain 0 k.rest = .ok 0 := by rw [h, Lexeme.gap]
  rw [next_of_gap hg, advance, item, h]

/-- Behind the end of the input nothing else comes. -/
theorem scan_of_end (h : k.next.1.kind? = some .endOfInput) :
    k.scan.items.length ≤ 1 ∧ (∀ i ∈ k.scan.items, i.kind? = some .endOfInput) ∧
      k.scan.last.kind? = some .endOfInput := by
  have hnil : k.next.2.rest = [] := by
    obtain ⟨n, -, hnil, hn⟩ := gap_of_end h
    rw [hn]
    exact hnil
  by_cases hmoved : k.next.2.rest.length < k.rest.length
  · have hstill : ¬ k.next.2.next.2.rest.length < k.next.2.rest.length := by
      rw [hnil]
      exact Nat.not_lt_zero _
    rw [scan_of_moved hmoved, scan_of_still hstill, next_of_nil hnil]
    exact ⟨Nat.le_refl 1, by simpa using h, rfl⟩
  · rw [scan_of_still hmoved]
    exact ⟨Nat.zero_le 1, by simp, h⟩

end Cursor

namespace Scan

/-- The items of `x` are these tokens and then the input ends. Those of `y` are the same tokens and
then the items of `z`. -/
structure Leads (tokens : List Token) (x z y : Scan) : Prop where
  goesOn : ∀ t ∈ tokens, t.kind ≠ .endOfInput
  items : ∃ ends, x.items = tokens.map .token ++ ends ∧ ends.length ≤ z.items.length ∧
    ∀ i ∈ ends, i.kind? = some .endOfInput
  last : x.last.kind? = some .endOfInput
  joined : y = ⟨tokens.map .token ++ z.items, z.last⟩

/-- The item that repeats may be listed once more if there is no other. -/
def Relists (x y : Scan) : Prop :=
  y = x ∨ x.items = [] ∧ y = ⟨[x.last], x.last⟩

/-- All items up to the end of the input are tokens. -/
def Complete (x : Scan) : Prop :=
  ∃ n, (∀ i < n, ∃ t, x.get i = .token t) ∧ (x.get n).kind? = some .endOfInput

theorem Leads.cons {tokens : List Token} {x y z : Scan} {t : Token} (h : Leads tokens x z y)
    (ht : t.kind ≠ .endOfInput) :
    Leads (t :: tokens) ⟨.token t :: x.items, x.last⟩ z ⟨.token t :: y.items, y.last⟩ := by
  obtain ⟨hgoes, ⟨ends, hitems, hlen, hends⟩, hlast, rfl⟩ := h
  refine ⟨List.forall_mem_cons.2 ⟨ht, hgoes⟩, ⟨ends, ?_, hlen, hends⟩, hlast, rfl⟩
  rw [hitems]
  rfl

namespace Complete

variable {x y : Scan}

theorem exists_token (h : x.Complete) : ∃ t, x.get 0 = .token t := by
  obtain ⟨n, hn, hend⟩ := h
  cases n with
  | zero =>
    cases hx : x.get 0 with
    | token t => exact ⟨t, rfl⟩
    | fault e =>
      rw [hx] at hend
      cases hend
  | succ n => exact hn 0 (Nat.succ_pos n)

/-- What stands behind a token that is not the end is complete as well. -/
theorem of_cons {t : Token} (h : x.Complete) (hx : x = ⟨.token t :: y.items, y.last⟩)
    (ht : t.kind ≠ .endOfInput) : y.Complete := by
  subst hx
  obtain ⟨n, hn, hend⟩ := h
  cases n with
  | zero => exact absurd (Option.some.inj hend) ht
  | succ n => exact ⟨n, fun i hi => hn (i + 1) (Nat.succ_lt_succ hi), hend⟩

end Complete

end Scan

namespace Cursor

variable {k k' : Cursor}

/-- Behind the end of a text and a line break, the items of the other text follow. -/
theorem scan_of_next_end (k' : Cursor) (h : k.next.1.kind? = some .endOfInput) :
    ∃ w, Scan.Relists k'.scan w ∧ (k.extend ('\n' :: k'.rest)).scan.Matches Anywhere w ∧
      0 < (k.extend ('\n' :: k'.rest)).scan.items.length := by
  obtain ⟨hitem, hafter⟩ := next_of_end k' h
  have hle := k'.length_next_le
  have hmoved : (k.extend ('\n' :: k'.rest)).next.2.rest.length <
      (k.extend ('\n' :: k'.rest)).rest.length := by
    rw [hafter, extend, List.length_append, List.length_cons]
    omega
  obtain ⟨hitems, hlast⟩ := scan_matches hafter
  by_cases hmoved' : k'.next.2.rest.length < k'.rest.length
  · refine ⟨k'.scan, .inl rfl, ?_, ?_⟩ <;> rw [scan_of_moved hmoved]
    · rw [scan_of_moved hmoved']
      exact ⟨.cons hitem hitems, hlast⟩
    · exact Nat.succ_pos _
  · have hsame : k'.next.2.rest = k'.rest := by rw [next_snd_of_still hmoved']
    have hagain := scan_matches (hafter.trans hsame)
    rw [scan_of_still hmoved'] at hagain
    refine ⟨⟨[k'.next.1], k'.next.1⟩, ?_, ?_, ?_⟩
    · rw [scan_of_still hmoved']
      exact .inr ⟨rfl, rfl⟩
    · rw [scan_of_moved hmoved]
      exact ⟨.cons hitem hagain.items, hagain.last⟩
    · rw [scan_of_moved hmoved]
      exact Nat.succ_pos _

theorem scan_extend (k' : Cursor) (h : k.scan.Complete) :
    ∃ tokens z w, Scan.Leads tokens k.scan z (k.extend ('\n' :: k'.rest)).scan ∧
      Scan.Relists k'.scan w ∧ z.Matches Anywhere w := by
  induction k using moving_induction with
  | step k ih =>
    obtain ⟨t, hfirst⟩ := h.exists_token
    rw [get_zero_scan] at hfirst
    by_cases ht : t.kind = .endOfInput
    · have hkind : k.next.1.kind? = some .endOfInput := by
        rw [hfirst, ← ht]
        rfl
      obtain ⟨w, hw, hz, hpos⟩ := scan_of_next_end k' hkind
      obtain ⟨hlen, hends, hlast⟩ := scan_of_end hkind
      refine ⟨[], _, w, ⟨by simp, ⟨k.scan.items, rfl, ?_, hends⟩, hlast, rfl⟩, hw, hz⟩
      exact Nat.le_trans hlen hpos
    · obtain ⟨hnext, hmoved⟩ := next_of_token (Prod.ext hfirst rfl) ht k'.rest
      have hmoved' : (k.extend ('\n' :: k'.rest)).next.2.rest.length <
          (k.extend ('\n' :: k'.rest)).rest.length := by
        rw [hnext]
        simp only [extend, List.length_append]
        omega
      have hscan := scan_of_moved hmoved
      have hscan' := scan_of_moved hmoved'
      rw [hfirst] at hscan
      rw [hnext] at hscan'
      obtain ⟨tokens, z, w, hleads, hw, hz⟩ := ih hmoved (h.of_cons hscan ht)
      rw [hscan, hscan']
      exact ⟨t :: tokens, z, w, hleads.cons ht, hw, hz⟩

end Cursor

/-- Where a text stands shows in spans only. -/
theorem Scan.ofText_matches (source source' text : String) :
    (Scan.ofText source text).Matches Anywhere (Scan.ofText source' text) := by
  have hrest : (Cursor.initial source text).rest = (Cursor.initial source' text).rest := rfl
  exact Cursor.scan_matches hrest

/-- The items of two texts in a row. -/
theorem Scan.ofText_newline (source source' a b : String) (h : (Scan.ofText source a).Complete) :
    ∃ tokens z w, Leads tokens (ofText source a) z (ofText source (a ++ "\n" ++ b)) ∧
      Relists (ofText source' b) w ∧ z.Matches Anywhere w := by
  have hjoined : Scan.ofText source (a ++ "\n" ++ b) =
      ((Cursor.initial source a).extend ('\n' :: (Cursor.initial source' b).rest)).scan := by
    have htext : (a ++ "\n" ++ b).toList = a.toList ++ '\n' :: b.toList := by simp
    simp only [Cursor.scan, Scan.ofText, Cursor.extend, Cursor.initial, htext]
  rw [hjoined]
  exact Cursor.scan_extend (k := Cursor.initial source a) (Cursor.initial source' b) h

end Clausal
