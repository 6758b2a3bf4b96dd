import Clausal.Proofs.TermGrammar

/-!
# Brackets in terms

Every part of a term opens and closes its own brackets. So the tokens outside all brackets make up the
chain of operators of a term, and the end of a term in brackets is found without reading it: it is
the bracket that closes the first one.
-/
namespace Clausal

namespace TokenKind

/-- The bracket that closes an opening one. -/
def partner? : TokenKind → Option TokenKind
  | leftParen => some rightParen
  | leftBracket => some rightBracket
  | leftBrace => some rightBrace
  | _ => none

def closesBracket : TokenKind → Bool
  | rightParen | rightBracket | rightBrace => true
  | _ => false

/-- A token that may be in a term and is no bracket. -/
structure IsPlain (k : TokenKind) : Prop where
  partner : k.partner? = none
  closes : k.closesBracket = false
  goesOn : k.isStop = false

theorem closesBracket_of_partner? {o c : TokenKind} (h : o.partner? = some c) :
    c.closesBracket = true ∧ c.partner? = none ∧ c.name? = none := by
  cases o <;> cases h <;> exact ⟨rfl, rfl, rfl⟩

theorem isPlain_of_name? {k : TokenKind} {n : String} (h : k.name? = some n) : k.IsPlain := by
  cases k <;> cases h <;> exact ⟨rfl, rfl, rfl⟩

end TokenKind

/-- In the row every bracket has its partner. -/
inductive Balanced : List TokenKind → Prop
  | nil : Balanced []
  | plain {k : TokenKind} {C : List TokenKind} (hk : k.IsPlain) (h : Balanced C) : Balanced (k :: C)
  | group {o c : TokenKind} {C D : List TokenKind} (ho : o.partner? = some c) (h : Balanced C)
      (hd : Balanced D) : Balanced (o :: (C ++ c :: D))

/-- The tokens outside all brackets, where so many brackets are open already. -/
def outside : Nat → List TokenKind → List TokenKind
  | _, [] => []
  | depth, k :: rest =>
    if k.partner?.isSome then outside (depth + 1) rest
    else if k.closesBracket then outside (depth - 1) rest
    else if depth = 0 then k :: outside depth rest
    else outside depth rest

namespace Balanced

variable {C D : List TokenKind} {k o c : TokenKind}

theorem append (h : Balanced C) (hd : Balanced D) : Balanced (C ++ D) := by
  induction h with
  | nil => exact hd
  | plain hk _ ih => exact .plain hk ih
  | group ho h _ _ ih =>
    rw [List.cons_append, List.append_assoc, List.cons_append]
    exact .group ho h ih

theorem flatten {rows : List (List TokenKind)} (h : ∀ C ∈ rows, Balanced C) : Balanced rows.flatten := by
  induction rows with
  | nil => exact .nil
  | cons C rows ih =>
    exact (h C List.mem_cons_self).append (ih fun D hD => h D (List.mem_cons_of_mem C hD))

theorem brackets (ho : o.partner? = some c) (h : Balanced C) : Balanced (o :: (C ++ [c])) :=
  .group ho h .nil

/-- A row of balanced rows does not begin with a closing bracket. -/
theorem not_closesBracket (h : Balanced (k :: C)) : k.closesBracket = false := by
  cases h with
  | plain hk _ => exact hk.closes
  | group ho _ _ => cases k <;> first | rfl | cases ho

/-- A balanced row ends in one place only before a closing bracket. -/
theorem eq_of_append_closing {C' : List TokenKind} {k' : TokenKind} {X X' : List TokenKind}
    (h : Balanced C) (h' : Balanced C') (hk : k.closesBracket = true) (hk' : k'.closesBracket = true)
    (he : C ++ k :: X = C' ++ k' :: X') : C = C' ∧ k = k' ∧ X = X' := by
  induction h generalizing C' X X' k k' with
  | nil =>
    cases C' with
    | nil =>
      obtain ⟨hkk, hX⟩ := List.cons.inj he
      exact ⟨rfl, hkk, hX⟩
    | cons j C' =>
      obtain ⟨rfl, -⟩ := List.cons.inj he
      rw [h'.not_closesBracket] at hk
      cases hk
  | @plain j C hj _ ih =>
    cases h' with
    | nil =>
      obtain ⟨rfl, -⟩ := List.cons.inj he
      rw [hj.closes] at hk'
      cases hk'
    | plain _ h' =>
      obtain ⟨rfl, hrest⟩ := List.cons.inj he
      obtain ⟨rfl, hkk, hX⟩ := ih h' hk hk' hrest
      exact ⟨rfl, hkk, hX⟩
    | group ho _ _ =>
      obtain ⟨rfl, -⟩ := List.cons.inj he
      rw [hj.partner] at ho
      cases ho
  | @group o c C D ho _ _ ih ihd =>
    cases h' with
    | nil =>
      obtain ⟨rfl, -⟩ := List.cons.inj he
      cases o <;> cases ho <;> cases hk'
    | plain hj _ =>
      obtain ⟨rfl, -⟩ := List.cons.inj he
      rw [hj.partner] at ho
      cases ho
    | @group o' c' C' D' ho' h' hd' =>
      rw [List.cons_append, List.cons_append, List.append_assoc, List.append_assoc] at he
      obtain ⟨rfl, hrest⟩ := List.cons.inj he
      obtain rfl := Option.some.inj (ho.symm.trans ho')
      have hc := (TokenKind.closesBracket_of_partner? ho).1
      obtain ⟨rfl, -, hbehind⟩ := ih h' hc hc hrest
      obtain ⟨rfl, hkk, hX⟩ := ihd hd' hk hk' hbehind
      exact ⟨rfl, hkk, hX⟩

/-- A term goes on to the end of its text: no stop is in a balanced row. -/
theorem isStop_eq_false (h : Balanced C) (hk : k ∈ C) : k.isStop = false := by
  induction h with
  | nil => cases hk
  | plain hj _ ih =>
    rcases List.mem_cons.1 hk with rfl | hk
    · exact hj.goesOn
    · exact ih hk
  | @group o c C D ho _ _ ih ihd =>
    rcases List.mem_cons.1 hk with rfl | hk
    · cases k <;> first | rfl | cases ho
    · rcases List.mem_append.1 hk with hk | hk
      · exact ih hk
      · rcases List.mem_cons.1 hk with rfl | hk
        · cases o <;> cases ho <;> rfl
        · exact ihd hk

theorem outside_append (h : Balanced C) (depth : Nat) (X : List TokenKind) :
    outside depth (C ++ X) = (if depth = 0 then outside 0 C else []) ++ outside depth X := by
  induction h generalizing depth X with
  | nil => split_ifs <;> rfl
  | @plain k C hk _ ih =>
    have hopen : ¬ k.partner?.isSome = true := by rw [hk.partner]; exact Bool.false_ne_true
    have hclose : ¬ k.closesBracket = true := by rw [hk.closes]; exact Bool.false_ne_true
    rw [List.cons_append, outside, outside, if_neg hopen, if_neg hclose, if_neg hopen, if_neg hclose, ih]
    by_cases hd : depth = 0 <;> simp [hd]
  | @group o c C D ho _ _ ih ihd =>
    have hopen : o.partner?.isSome = true := by rw [ho]; rfl
    obtain ⟨hclose, hnone, -⟩ := TokenKind.closesBracket_of_partner? ho
    have hnot : ¬ c.partner?.isSome = true := by rw [hnone]; exact Bool.false_ne_true
    have hinner : ∀ d X, outside (d + 1) (C ++ c :: X) = outside d X := by
      intro d X
      rw [ih, if_neg (Nat.succ_ne_zero d), List.nil_append, outside, if_neg hnot, if_pos hclose]
      rfl
    rw [List.cons_append, List.append_assoc, List.cons_append, outside, outside, if_pos hopen,
      if_pos hopen, hinner, hinner, ihd]

theorem mem_outside_left (h : Balanced C) (hk : k ∈ outside 0 C) : k ∈ outside 0 (C ++ D) := by
  rw [h.outside_append, if_pos rfl]
  exact List.mem_append_left _ hk

theorem mem_outside_right (h : Balanced C) (hk : k ∈ outside 0 D) : k ∈ outside 0 (C ++ D) := by
  rw [h.outside_append, if_pos rfl]
  exact List.mem_append_right _ hk

end Balanced

namespace TokenKind

/-- A token that is no bracket stands outside in a row that it begins. -/
theorem IsPlain.outside_cons {k : TokenKind} (h : k.IsPlain) (C : List TokenKind) :
    outside 0 (k :: C) = k :: outside 0 C := by
  have hopen : ¬ k.partner?.isSome = true := by rw [h.partner]; exact Bool.false_ne_true
  have hclose : ¬ k.closesBracket = true := by rw [h.closes]; exact Bool.false_ne_true
  rw [outside, if_neg hopen, if_neg hclose, if_pos rfl]

end TokenKind

namespace Parse

variable {v : Vocabulary} {k following : TokenKind} {e : Symbol × Operator}

theorem isPlain_of_operatorSymbol? {s : Symbol} (h : operatorSymbol? v k = some s) : k.IsPlain := by
  cases hn : k.name? with
  | none => simp [operatorSymbol?, hn] at h
  | some n => exact TokenKind.isPlain_of_name? hn

theorem operatorAt?_of_name?_eq_none (h : k.name? = none) (p : Placement) :
    operatorAt? v p k = none := by
  simp [operatorAt?, operatorSymbol?, h]

theorem isPlain_of_operatorAt? {p : Placement} (h : operatorAt? v p k = some e) : k.IsPlain := by
  cases hn : k.name? with
  | none => rw [operatorAt?_of_name?_eq_none hn] at h; cases h
  | some n => exact TokenKind.isPlain_of_name? hn

/-- An operator behind an operand is defined as infix or as postfix. -/
theorem operatorAt?_of_operatorBehind? (h : operatorBehind? v k following = some e) :
    ∃ p, operatorAt? v p k = some e := by
  unfold operatorBehind? at h
  cases hb : operatorAt? v .betweenOperands k with
  | none =>
    rw [hb] at h
    exact ⟨.afterOperand, h⟩
  | some between =>
    cases ha : operatorAt? v .afterOperand k with
    | none =>
      rw [hb, ha] at h
      exact ⟨.betweenOperands, hb.trans h⟩
    | some after =>
      rw [hb, ha] at h
      dsimp only at h
      by_cases hf : startsTerm v following = true
      · rw [if_pos hf] at h
        exact ⟨.betweenOperands, hb.trans h⟩
      · rw [if_neg hf] at h
        exact ⟨.afterOperand, ha.trans h⟩

theorem operatorAt?_of_operatorBefore? (h : operatorBefore? v k following = some e) :
    operatorAt? v .beforeOperand k = some e := by
  unfold operatorBefore? at h
  cases hb : operatorAt? v .beforeOperand k with
  | none => rw [hb] at h; cases h
  | some found =>
    rw [hb] at h
    dsimp only at h
    split_ifs at h
    exact h

end Parse

namespace Grammar

open Parse

variable {v : Vocabulary} {part : Part} {X Y : List TokenKind} {a : SyntaxTree}

theorem Single.isPlain {k : TokenKind} (h : Single v k a) : k.IsPlain := by
  cases h <;> exact ⟨rfl, rfl, rfl⟩

/-- The parts that take a token at least. -/
def Part.takesTokens : Part → Bool
  | .expression .. | .operand _ | .atom | .elements => true
  | .climb .. | .arguments _ => false

/-- A part of a term is balanced. -/
theorem Derives.exists_balanced (h : Derives v part X a Y) :
    ∃ C, X = C ++ Y ∧ Balanced C ∧ (part.takesTokens = true → C ≠ []) := by
  have hbrackets : ∀ {o c : TokenKind} {C Y : List TokenKind}, o.partner? = some c → Balanced C →
      ∃ D, o :: (C ++ c :: Y) = D ++ Y ∧ Balanced D ∧ (Part.atom.takesTokens = true → D ≠ []) :=
    fun {o c C Y} ho hC => ⟨o :: (C ++ [c]), by simp, .brackets ho hC, fun _ => by simp⟩
  induction h with
  | expression _ _ iho ihc =>
    obtain ⟨C, rfl, hC, hne⟩ := iho
    obtain ⟨D, rfl, hD, -⟩ := ihc
    exact ⟨C ++ D, by simp, hC.append hD, fun _ => by simp [hne rfl]⟩
  | stop | noArgument => exact ⟨[], rfl, .nil, fun h => (by cases h)⟩
  | @after limit strict earlier X Y a b k s o h _ _ _ _ ih =>
    obtain ⟨C, rfl, hC, -⟩ := ih
    obtain ⟨p, hp⟩ := operatorAt?_of_operatorBehind? h
    exact ⟨k :: C, rfl, .plain (isPlain_of_operatorAt? hp) hC, fun _ => by simp⟩
  | @between limit strict earlier X Y Z a b c k s o h _ _ _ _ _ ihe ihd =>
    obtain ⟨C, rfl, hC, -⟩ := ihe
    obtain ⟨D, rfl, hD, -⟩ := ihd
    obtain ⟨p, hp⟩ := operatorAt?_of_operatorBehind? h
    exact ⟨k :: (C ++ D), by simp, .plain (isPlain_of_operatorAt? hp) (hC.append hD), fun _ => by simp⟩
  | @before limit X Y a k s o h _ _ ih =>
    obtain ⟨C, rfl, hC, -⟩ := ih
    have hk := isPlain_of_operatorAt? (operatorAt?_of_operatorBefore? h)
    exact ⟨k :: C, rfl, .plain hk hC, fun _ => by simp⟩
  | application _ _ _ iha ihs | argument _ _ _ _ iha ihs =>
    obtain ⟨C, rfl, hC, hne⟩ := iha
    obtain ⟨D, rfl, hD, -⟩ := ihs
    exact ⟨C ++ D, by simp, hC.append hD, fun _ => by simp [hne rfl]⟩
  | @single X a k h _ => exact ⟨[k], rfl, .plain h.isPlain .nil, fun _ => by simp⟩
  | @lambda X Y a x _ ih =>
    obtain ⟨C, rfl, hC, -⟩ := ih
    exact ⟨.ident x :: .backslash :: C, rfl, .plain ⟨rfl, rfl, rfl⟩ (.plain ⟨rfl, rfl, rfl⟩ hC), fun _ => by simp⟩
  | @lone X k s h => exact hbrackets rfl (.plain (isPlain_of_operatorSymbol? h) .nil)
  | group _ _ ih | spill _ ih | list _ _ ih =>
    obtain ⟨C, rfl, hC, -⟩ := ih
    exact hbrackets rfl hC
  | @nil X => exact hbrackets (C := []) rfl .nil
  | @more X Y Z a b _ _ ihe ihs =>
    obtain ⟨C, rfl, hC, -⟩ := ihe
    obtain ⟨D, rfl, hD, -⟩ := ihs
    exact ⟨C ++ .symbolic "," :: D, by simp, hC.append (.plain ⟨rfl, rfl, rfl⟩ hD), fun _ => by simp⟩
  | @tail X Y Z a b _ _ ihe iht =>
    obtain ⟨C, rfl, hC, -⟩ := ihe
    obtain ⟨D, rfl, hD, -⟩ := iht
    exact ⟨C ++ .symbolic "|" :: D, by simp, hC.append (.plain ⟨rfl, rfl, rfl⟩ hD), fun _ => by simp⟩
  | last _ _ _ ih =>
    obtain ⟨C, rfl, hC, hne⟩ := ih
    exact ⟨C, rfl, hC, fun _ => hne rfl⟩

end Grammar

end Clausal
