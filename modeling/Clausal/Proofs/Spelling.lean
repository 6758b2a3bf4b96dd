import Clausal.Proofs.Reading
import Mathlib.Tactic.ByContra
import Mathlib.Tactic.SplitIfs

/-!
# How texts spell tokens

`Spells` relates a text to the kinds of its tokens, wherever it stands. A text is taken apart from
its front: a blank, or a lexeme and what follows it.
-/
namespace Clausal

namespace Lexeme

/-- The same place in a comment, with one more character in front. -/
def Gap.shift : Gap → Gap
  | .block opened => .block (opened + 1)
  | g => g

theorem gap_succ (g : Gap) (passed : Nat) (text : List Char) :
    gap g.shift (passed + 1) text =
      match gap g passed text with
      | .ok n => .ok (n + 1)
      | .error n => .error (n + 1) := by
  fun_induction gap g passed text with
  | case1 => simp [gap, Gap.shift]
  | case2 => simp [gap, Gap.shift]
  | case3 => simp [gap, Gap.shift]
  | case4 passed c rest ih =>
    by_cases hc : c = '\n' <;> simpa [gap, Gap.shift, hc] using ih
  | case5 opened passed rest ih => simpa [gap, Gap.shift] using ih
  | case6 opened passed c rest h ih => simpa [gap, Gap.shift] using ih
  | case7 passed rest ih => simpa [gap, Gap.shift] using ih
  | case8 passed c rest h hb ih => simpa [gap, Gap.shift, hb] using ih
  | case9 passed c rest h hb hp ih => simpa [gap, Gap.shift, hb, hp] using ih
  | case10 passed c rest h hb hp => simp [gap, Gap.shift, hb, hp]

theorem gap_blank {c : Char} (h : Text.isBlank c = true) (text : List Char) {n : Nat}
    (hg : gap .plain 0 text = .ok n) : gap .plain 0 (c :: text) = .ok (n + 1) := by
  have hs := gap_succ .plain 0 text
  rw [hg] at hs
  have hc : c ≠ '/' := by
    rintro rfl
    exact absurd h (by rw [Text.isBlank_eq]; decide)
  rw [gap]
  · rw [if_pos h]
    exact hs
  · rintro rest' rfl
    exact (hc rfl).elim

/-- No gap in front of a text: neither a blank nor a comment begins it. -/
theorem gap_zero {c : Char} {rest : List Char} (hb : Text.isBlank c = false) (hp : c ≠ '%')
    (hs : ¬ (c = '/' ∧ startsWith (· == '*') rest = true)) :
    gap .plain 0 (c :: rest) = .ok 0 := by
  rw [gap]
  · rw [if_neg (by simp [hb]), if_neg (by simpa using hp)]
  · rintro rest' rfl rfl
    exact hs ⟨rfl, rfl⟩

end Lexeme

namespace Cursor

theorem offset_le_step (k : Cursor) : k.offset ≤ k.step.offset := by
  unfold step
  split
  · exact Nat.le_refl _
  · split <;> simp

theorem offset_le_advance (k : Cursor) (n : Nat) : k.offset ≤ (k.advance n).offset := by
  induction n generalizing k with
  | zero => exact Nat.le_refl _
  | succ n ih => exact Nat.le_trans k.offset_le_step (ih k.step)

theorem offset_lt_step {k : Cursor} (h : k.rest ≠ []) : k.offset < k.step.offset := by
  obtain ⟨c, rest, hc⟩ := List.exists_cons_of_ne_nil h
  have hpos := c.utf8Size_pos
  unfold step
  rw [hc]
  dsimp only
  split <;> simp <;> omega

theorem offset_lt_advance {k : Cursor} {n : Nat} (h : k.rest ≠ []) (hn : 0 < n) :
    k.offset < (k.advance n).offset := by
  obtain ⟨m, rfl⟩ : ∃ m, n = m + 1 := ⟨n - 1, by omega⟩
  exact Nat.lt_of_lt_of_le (offset_lt_step h) (k.step.offset_le_advance m)

end Cursor

/-- The text yields tokens of these kinds, and then the input ends. -/
def Spells (text : List Char) (kinds : List TokenKind) : Prop :=
  ∀ (k : Cursor) (fuel : Nat), k.rest = text → text.length ≤ fuel →
    (Scan.fromCursor fuel k).Shows kinds

/-- The text begins with a token of this kind that is made of its first `length` characters. -/
def Begins (text : List Char) (kind : TokenKind) (length : Nat) : Prop :=
  Lexeme.gap .plain 0 text = .ok 0 ∧ ∀ k : Cursor, k.rest = text → k.item = k.take kind length

namespace Spells

theorem ofText {text : String} {kinds : List TokenKind} (h : Spells text.toList kinds)
    (source : String) : (Scan.ofText source text).Shows kinds :=
  h _ _ rfl (Nat.le_refl _)

theorem nil : Spells [] [] := by
  intro k fuel hk _
  have hn : k.next = k.take .endOfInput 0 := by
    simp [Cursor.next, hk, Lexeme.gap, Cursor.advance, Cursor.item]
  cases fuel with
  | zero =>
    rw [Scan.fromCursor, hn]
    exact ⟨rfl, rfl⟩
  | succ fuel =>
    rw [Scan.fromCursor, hn]
    simp only [Cursor.take, Cursor.advance, Nat.lt_irrefl, if_false]
    exact ⟨rfl, rfl⟩

theorem token {text : List Char} {kind : TokenKind} {kinds : List TokenKind} {length : Nat}
    (hb : Begins text kind length) (hpos : 0 < length) (hle : length ≤ text.length)
    (hr : Spells (text.drop length) kinds) : Spells text (kind :: kinds) := by
  intro k fuel hk hf
  have hne : k.rest ≠ [] := by
    rw [hk]
    rintro rfl
    simp at hle
    omega
  obtain ⟨f, rfl⟩ : ∃ f, fuel = f + 1 := ⟨fuel - 1, by omega⟩
  have hn : k.next = k.take kind length := by
    simp only [Cursor.next, hk, hb.1, Cursor.advance]
    exact hb.2 k hk
  have hlt := Cursor.offset_lt_advance hne hpos
  have hs := hr (k.advance length) f (by rw [Cursor.rest_advance, hk])
    (by rw [List.length_drop]; omega)
  rw [Scan.fromCursor, hn]
  simp only [Cursor.take, hlt, if_true]
  exact ⟨by simp [Item.kind?, hs.items], hs.last⟩

/-- A blank in front of a token changes nothing. -/
theorem blank {c : Char} {text : List Char} {kind : TokenKind} {kinds : List TokenKind}
    (hc : Text.isBlank c = true) (h : Spells text (kind :: kinds)) :
    Spells (c :: text) (kind :: kinds) := by
  intro k fuel hk hf
  rw [List.length_cons] at hf
  obtain ⟨f, rfl⟩ : ∃ f, fuel = f + 1 := ⟨fuel - 1, by omega⟩
  have hk' : k.step.rest = text := by rw [Cursor.rest_step, hk]; rfl
  have hs := h k.step (f + 1) hk' (by omega)
  have hlt : k.offset < k.step.offset := Cursor.offset_lt_step (by rw [hk]; simp)
  have hnext : k.next = k.step.next := by
    cases hg : Lexeme.gap .plain 0 text with
    | ok n => simp [Cursor.next, hk, hg, Lexeme.gap_blank hc text hg, Cursor.advance]
    | error n =>
      exfalso
      have hi := hs.items
      rw [Scan.fromCursor, Cursor.next, hk', hg] at hi
      dsimp only [Cursor.refuse] at hi
      split_ifs at hi <;> simp [Item.kind?] at hi
  have hlt' : k.step.offset < k.step.next.2.offset := by
    by_contra hge
    have hi := hs.items
    rw [Scan.fromCursor] at hi
    simp only [hge, if_false] at hi
    simp at hi
  rw [Scan.fromCursor] at hs ⊢
  rw [hnext]
  simp only [hlt', if_true] at hs
  simp only [Nat.lt_trans hlt hlt', if_true]
  exact hs

end Spells

end Clausal
