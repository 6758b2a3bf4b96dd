import Clausal.Proofs.TokenSpans

/-!
# Layout

What stands between two tokens only keeps them apart. Where blanks or comments do so, others may
stand in their place: the tokens in front do not see them, and the tokens behind begin where they end.
-/
namespace Clausal

/-- What sets `rest` apart from a token in front of it. A line comment may go on to the end of the text. -/
structure Spacing (gap rest : List Char) : Prop where
  begins : Lexeme.startsWith Lexeme.isBreak gap = true
  skipped : IsGap gap ∨ rest = [] ∧
    ∃ front comment, gap = front ++ '%' :: comment ∧ IsGap front ∧ '\n' ∉ comment

namespace Spacing

variable {gap gap' rest : List Char}

theorem exists_cons (h : Spacing gap rest) : ∃ b more, gap = b :: more ∧ Lexeme.isBreak b = true := by
  cases gap with
  | nil => exact absurd h.begins (by simp [Lexeme.startsWith])
  | cons b more => exact ⟨b, more, rfl, h.begins⟩

theorem length_pos (h : Spacing gap rest) : 0 < gap.length := by
  obtain ⟨b, more, rfl, -⟩ := h.exists_cons
  exact Nat.succ_pos _

/-- No item in front of the gap goes on behind it. -/
theorem prolongs_next (h : Spacing gap rest) (k : Cursor) :
    Cursor.Prolongs (gap ++ rest) k.next (k.extend (gap ++ rest)).next := by
  obtain ⟨b, more, rfl, hb⟩ := h.exists_cons
  exact Cursor.prolongs_next hb (more ++ rest)

theorem gap_append (h : Spacing gap rest) :
    Lexeme.gap .plain 0 (gap ++ rest) = Lexeme.gap .plain gap.length rest := by
  rcases h.skipped with hgap | ⟨rfl, front, comment, rfl, hfront, hcomment⟩
  · rw [hgap.gap_append, Nat.zero_add]
  · have hlength : (front ++ '%' :: comment).length = 0 + front.length + 1 + comment.length := by
      simp
      omega
    rw [List.append_nil, hfront.gap_append, Lexeme.gap_percent, Lexeme.gap_lastLine hcomment, hlength,
      Lexeme.gap]

end Spacing

namespace Cursor

variable {k k' : Cursor} {gap gap' rest : List Char}

/-- What is behind a gap is found as if the text began there. -/
theorem gap_of_spacing (h : Spacing gap rest) (hk : k.rest = gap ++ rest) :
    Lexeme.gap .plain 0 k.rest = Lexeme.gap .plain gap.length rest ∧
      ∀ n, (k.advance (gap.length + n)).rest = rest.drop n := by
  refine ⟨by rw [hk, h.gap_append], fun n => ?_⟩
  rw [rest_advance, hk, ← List.drop_drop, List.drop_left]

/-- Behind one gap the same item comes as behind another. -/
theorem next_of_spacing (h : Spacing gap rest) (h' : Spacing gap' rest) (hk : k.rest = gap ++ rest)
    (hk' : k'.rest = gap' ++ rest) :
    k.next.1.Matches Anywhere k'.next.1 ∧ k.next.2.rest = k'.next.2.rest ∧
      k.next.2.rest.length ≤ rest.length := by
  obtain ⟨hgap, hbehind⟩ := gap_of_spacing h hk
  obtain ⟨hgap', hbehind'⟩ := gap_of_spacing h' hk'
  rw [Lexeme.gap_add gap.length] at hgap
  rw [Lexeme.gap_add gap'.length] at hgap'
  cases hrest : Lexeme.gap .plain 0 rest with
  | ok n =>
    rw [hrest] at hgap hgap'
    rw [next_of_gap hgap, next_of_gap hgap']
    obtain ⟨hitem, hafter⟩ := item_matches ((hbehind n).trans (hbehind' n).symm)
    refine ⟨hitem, hafter, ?_⟩
    obtain ⟨m, hm⟩ := (k.advance (gap.length + n)).item_snd
    rw [hm, rest_advance, hbehind, List.length_drop, List.length_drop]
    omega
  | error n =>
    rw [hrest] at hgap hgap'
    rw [next_of_gap_error hgap, next_of_gap_error hgap']
    refine ⟨⟨trivial, rfl⟩, ?_, ?_⟩ <;> simp only [refuse, rest_advance, List.drop_length]
    exact Nat.zero_le _

theorem length_past_le (k : Cursor) (n : Nat) : (k.past n).rest.length ≤ k.rest.length := by
  induction n generalizing k with
  | zero => exact Nat.le_refl _
  | succ n ih => exact Nat.le_trans (ih k.next.2) k.length_next_le

/-- Behind one gap the same items come as behind another. -/
theorem scan_of_spacing (h : Spacing gap rest) (h' : Spacing gap' rest) (hk : k.rest = gap ++ rest)
    (hk' : k'.rest = gap' ++ rest) : k.scan.Matches Anywhere k'.scan := by
  obtain ⟨hitem, hafter, hle⟩ := next_of_spacing h h' hk hk'
  obtain ⟨hitems, hlast⟩ := scan_matches hafter
  have hmoved : k.next.2.rest.length < k.rest.length := by
    have hpos := h.length_pos
    rw [hk, List.length_append]
    omega
  have hmoved' : k'.next.2.rest.length < k'.rest.length := by
    have hpos := h'.length_pos
    rw [← hafter, hk', List.length_append]
    omega
  rw [scan_of_moved hmoved, scan_of_moved hmoved']
  exact ⟨.cons hitem hitems, hlast⟩

/-- The items in front of a gap do not depend on it, and those behind it do not either. -/
theorem scan_extend_spacing (h : Spacing gap rest) (h' : Spacing gap' rest) (n : Nat)
    (hn : ((k.extend (gap ++ rest)).past n).rest = gap ++ rest) :
    (k.extend (gap ++ rest)).scan.Matches Anywhere (k.extend (gap' ++ rest)).scan := by
  induction n generalizing k with
  | zero =>
    have hnil : k.rest = [] := List.append_left_eq_self.1 hn
    refine scan_of_spacing h h' hn ?_
    rw [extend, hnil, List.nil_append]
  | succ n ih =>
    -- What is read in front of the gap leaves it in place, so it did not meet the end of the text before it.
    have hle := length_past_le (k.extend (gap ++ rest)).next.2 n
    have hpast : ((k.extend (gap ++ rest)).next.2.past n).rest = gap ++ rest := hn
    rw [hpast] at hle
    have hmeets : k.next.1.meetsEnd = false := by
      rw [← Bool.not_eq_true]
      intro hend
      have hlt := h.prolongs_next k
      rw [Prolongs, if_pos hend] at hlt
      exact absurd hle (Nat.not_le_of_lt hlt)
    have hnext : ∀ {gap}, Spacing gap rest →
        (k.extend (gap ++ rest)).next = (k.next.1, k.next.2.extend (gap ++ rest)) := by
      intro gap h
      have hlonger := h.prolongs_next k
      rwa [Prolongs, hmeets] at hlonger
    rw [hnext h] at hpast
    have hrest := ih hpast
    by_cases hmoved : k.next.2.rest.length < k.rest.length
    · have hscan : ∀ {gap}, Spacing gap rest → (k.extend (gap ++ rest)).scan =
          ⟨k.next.1 :: (k.next.2.extend (gap ++ rest)).scan.items,
            (k.next.2.extend (gap ++ rest)).scan.last⟩ := by
        intro gap h
        rw [scan_of_moved, hnext h]
        rw [hnext h]
        simpa [extend] using hmoved
      rw [hscan h, hscan h']
      exact ⟨.cons (.refl (fun _ => trivial) _) hrest.items, hrest.last⟩
    · have hscan : ∀ {gap}, Spacing gap rest → (k.extend (gap ++ rest)).scan = ⟨[], k.next.1⟩ := by
        intro gap h
        rw [scan_of_still, hnext h]
        rw [hnext h]
        simpa [extend] using hmoved
      rw [hscan h, hscan h']
      exact .refl (fun _ => trivial) _

end Cursor

/-- Two texts that differ in one gap have the same items but for where they stand. -/
theorem Scan.ofText_spacing (source : String) {front gap gap' rest : String}
    (h : Spacing gap.toList rest.toList) (h' : Spacing gap'.toList rest.toList) {n : Nat}
    (hn : ((Cursor.initial source (front ++ gap ++ rest)).past n).rest = (gap ++ rest).toList) :
    (Scan.ofText source (front ++ gap ++ rest)).Matches Anywhere
      (Scan.ofText source (front ++ gap' ++ rest)) := by
  have hstart : ∀ gap : String, Cursor.initial source (front ++ gap ++ rest) =
      (Cursor.initial source front).extend (gap.toList ++ rest.toList) := by
    intro gap
    simp [Cursor.initial, Cursor.extend]
  have hscan : ∀ gap : String, Scan.ofText source (front ++ gap ++ rest) =
      ((Cursor.initial source front).extend (gap.toList ++ rest.toList)).scan := by
    intro gap
    rw [← hstart]
    rfl
  rw [hstart, String.toList_append] at hn
  rw [hscan, hscan]
  exact Cursor.scan_extend_spacing h h' n hn

end Clausal
