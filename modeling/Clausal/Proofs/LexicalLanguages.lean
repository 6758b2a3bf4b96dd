import Clausal.Proofs.Breaks
import Mathlib.Computability.Language
import Mathlib.Data.List.TakeWhile

/-!
# The languages of names and numbers

The names and the numbers that a text can hold are regular languages. Each reader of lexemes takes the
longest text of its language from the front of what is left, though it looks at most two characters ahead.
-/
namespace Clausal

open scoped Computability

/-- No text of the language that `text` begins with is longer than `w`, which is one. -/
structure LongestPrefix (L : Language Char) (w text : List Char) : Prop where
  mem : w ∈ L
  isPrefix : w <+: text
  length_le : ∀ u ∈ L, u <+: text → u.length ≤ w.length

theorem mem_optional {L : Language Char} {w : List Char} : w ∈ 1 + L ↔ w = [] ∨ w ∈ L := Iff.rfl

namespace LongestPrefix

variable {L A B : Language Char} {a b u v w text : List Char} {c : Char}

/-- A shorter text goes on with a character of the longest one. -/
theorem eq_of_notMem (ha : LongestPrefix A a text) (hu : u ∈ A) (h : u ++ c :: v <+: text)
    (hc : c ∉ a) : u = a := by
  have hprefix : u <+: text := (List.prefix_append _ _).trans h
  obtain ⟨more, rfl⟩ := List.prefix_of_prefix_length_le hprefix ha.isPrefix (ha.length_le u hu hprefix)
  cases more with
  | nil => exact (List.append_nil u).symm
  | cons d more =>
    obtain ⟨back, rfl⟩ := h
    obtain ⟨back', hback⟩ := ha.isPrefix
    obtain rfl : d = c := by
      simp only [List.append_assoc, List.append_cancel_left_eq, List.cons_append] at hback
      exact (List.cons.inj hback).1
    exact absurd (List.mem_append_right _ List.mem_cons_self) hc

/-- If the second part cannot begin within the first, the longest parts make up the longest whole. -/
theorem mul (ha : LongestPrefix A a text) (hb : LongestPrefix B b (text.drop a.length))
    (h : ∀ c v, c :: v ∈ B → c ∉ a) : LongestPrefix (A * B) (a ++ b) text where
  mem := Language.mem_mul.2 ⟨a, ha.mem, b, hb.mem, rfl⟩
  isPrefix := Lexeme.append_isPrefix ha.isPrefix hb.isPrefix
  length_le u hu hprefix := by
    obtain ⟨x, hx, y, hy, rfl⟩ := Language.mem_mul.1 hu
    rw [List.length_append, List.length_append]
    cases y with
    | nil =>
      have := ha.length_le x hx (by simpa using hprefix)
      simp only [List.length_nil]
      omega
    | cons c v =>
      obtain rfl := ha.eq_of_notMem hx hprefix (h c v hy)
      obtain ⟨back, rfl⟩ := hprefix
      have := hb.length_le _ hy (by simp [List.append_assoc])
      omega

theorem optional (h : LongestPrefix L w text) : LongestPrefix (1 + L) w text where
  mem := .inr h.mem
  isPrefix := h.isPrefix
  length_le u hu hprefix := by
    obtain rfl | hu := mem_optional.1 hu
    · exact Nat.zero_le _
    · exact h.length_le u hu hprefix

theorem nil_optional (h : ∀ u ∈ L, ¬ u <+: text) : LongestPrefix (1 + L) [] text where
  mem := .inl rfl
  isPrefix := List.nil_prefix
  length_le u hu hprefix := by
    obtain rfl | hu := mem_optional.1 hu
    · exact Nat.zero_le _
    · exact absurd hprefix (h u hu)

/-- A first part without its second part is none of the whole. -/
theorem mul_optional (ha : LongestPrefix A a text) (hb : LongestPrefix (1 + B) b (text.drop a.length))
    (h : ∀ c v, c :: v ∈ B → c ∉ a) (hnil : [] ∉ B) :
    LongestPrefix (1 + A * B) (if b.isEmpty then [] else a ++ b) text := by
  cases b with
  | nil =>
    refine nil_optional fun u hu hprefix => ?_
    obtain ⟨x, hx, y, hy, rfl⟩ := Language.mem_mul.1 hu
    cases y with
    | nil => exact hnil hy
    | cons c v =>
      obtain rfl := ha.eq_of_notMem hx hprefix (h c v hy)
      obtain ⟨back, rfl⟩ := hprefix
      exact absurd (hb.length_le _ (.inr hy) (by simp [List.append_assoc])) (by simp)
  | cons c v =>
    have hmem : c :: v ∈ B := (mem_optional.1 hb.mem).resolve_left (List.cons_ne_nil c v)
    exact (ha.mul ⟨hmem, hb.isPrefix, fun u hu => hb.length_le u (.inr hu)⟩ h).optional

end LongestPrefix

namespace Lexeme

variable {p : Char → Bool} {c : Char} {u v w text rest : List Char}

/-- The texts of one character that passes a test. -/
def letter (p : Char → Bool) : Language Char := {w | ∃ c, p c = true ∧ w = [c]}

/-- A name without points. -/
def segments : Language Char := letter isNameStart * (letter isNameChar)∗

/-- Segments with points between them. -/
def names : Language Char := segments * (letter (· == '.') * segments)∗

def macroNames : Language Char := letter (· == '@') * names

/-- Digits, at least one. -/
def wholes : Language Char := letter Char.isDigit * (letter Char.isDigit)∗

def fractions : Language Char := letter (· == '.') * wholes

def isExponentMark (c : Char) : Bool := c == 'e' || c == 'E'

def isSign (c : Char) : Bool := c == '+' || c == '-'

/-- The letter, perhaps a sign, and digits. -/
def exponents : Language Char := letter isExponentMark * ((1 + letter isSign) * wholes)

/-- Digits, perhaps with a fraction, perhaps with an exponent. -/
def numbers : Language Char := wholes * (1 + fractions) * (1 + exponents)

theorem mem_letter_mul {L : Language Char} :
    w ∈ letter p * L ↔ ∃ c v, p c = true ∧ v ∈ L ∧ w = c :: v := by
  rw [Language.mem_mul]
  constructor
  · rintro ⟨_, ⟨c, hc, rfl⟩, v, hv, rfl⟩
    exact ⟨c, v, hc, hv, rfl⟩
  · rintro ⟨c, v, hc, hv, rfl⟩
    exact ⟨[c], ⟨c, hc, rfl⟩, v, hv, rfl⟩

theorem cons_mem_letter_mul {L : Language Char} : c :: w ∈ letter p * L ↔ p c = true ∧ w ∈ L := by
  rw [mem_letter_mul]
  constructor
  · rintro ⟨_, _, hc, hv, heq⟩
    obtain ⟨rfl, rfl⟩ := List.cons.inj heq
    exact ⟨hc, hv⟩
  · rintro ⟨hc, hw⟩
    exact ⟨c, w, hc, hw, rfl⟩

theorem nil_notMem_letter_mul {L : Language Char} : [] ∉ letter p * L := by
  rw [mem_letter_mul]
  rintro ⟨c, v, -, -, heq⟩
  cases heq

theorem mem_letter_kstar : w ∈ (letter p)∗ ↔ ∀ c ∈ w, p c = true := by
  rw [Language.mem_kstar]
  constructor
  · rintro ⟨parts, rfl, hparts⟩ c hc
    obtain ⟨part, hpart, hmem⟩ := List.mem_flatten.1 hc
    obtain ⟨d, hd, rfl⟩ := hparts part hpart
    obtain rfl := List.mem_singleton.1 hmem
    exact hd
  · intro h
    refine ⟨w.map fun c => [c], ?_, fun part hpart => ?_⟩
    · rw [← List.flatMap_def, List.flatMap_singleton']
    · obtain ⟨c, hc, rfl⟩ := List.mem_map.1 hpart
      exact ⟨c, h c hc, rfl⟩

theorem longestPrefix_letter (hc : p c = true) (rest : List Char) :
    LongestPrefix (letter p) [c] (c :: rest) where
  mem := ⟨c, hc, rfl⟩
  isPrefix := by simp
  length_le u hu _ := by
    obtain ⟨d, -, rfl⟩ := hu
    exact Nat.le_refl 1

theorem mem_wholes : w ∈ wholes ↔ w ≠ [] ∧ ∀ c ∈ w, c.isDigit = true := by
  cases w with
  | nil => exact iff_of_false nil_notMem_letter_mul fun h => h.1 rfl
  | cons c w =>
    rw [wholes, cons_mem_letter_mul, mem_letter_kstar, List.forall_mem_cons]
    exact (and_iff_right (List.cons_ne_nil c w)).symm

/-- The digits in front, if there are any. -/
theorem longestPrefix_digits (text : List Char) :
    LongestPrefix (1 + wholes) (text.takeWhile Char.isDigit) text where
  mem := by
    by_cases h : text.takeWhile Char.isDigit = []
    · exact .inl h
    · exact .inr (mem_wholes.2 ⟨h, fun c hc => List.mem_takeWhile_imp hc⟩)
  isPrefix := List.takeWhile_prefix _
  length_le u hu hprefix := by
    obtain ⟨back, rfl⟩ := hprefix
    obtain rfl | hu := mem_optional.1 hu
    · exact Nat.zero_le _
    · rw [List.takeWhile_append_of_pos (mem_wholes.1 hu).2, List.length_append]
      omega

theorem longestPrefix_whole (hc : c.isDigit = true) (rest : List Char) :
    LongestPrefix wholes ((c :: rest).takeWhile Char.isDigit) (c :: rest) where
  mem := (mem_optional.1 (longestPrefix_digits (c :: rest)).mem).resolve_left (by simp [hc])
  isPrefix := List.takeWhile_prefix _
  length_le u hu := (longestPrefix_digits (c :: rest)).length_le u (.inr hu)

theorem isDigit_of_cons_mem_wholes (h : c :: w ∈ wholes) : c.isDigit = true :=
  (mem_wholes.1 h).2 c List.mem_cons_self

theorem nil_notMem_wholes : [] ∉ wholes := nil_notMem_letter_mul

theorem fraction_point (rest : List Char) :
    fraction ('.' :: rest) = if (rest.takeWhile Char.isDigit).isEmpty then [] else
      ['.'] ++ rest.takeWhile Char.isDigit := by
  cases rest with
  | nil => rfl
  | cons d rest =>
    rw [fraction]
    cases hd : d.isDigit <;> simp [hd]

theorem longestPrefix_fraction (text : List Char) :
    LongestPrefix (1 + fractions) (fraction text) text := by
  by_cases hpoint : ∃ rest, text = '.' :: rest
  · obtain ⟨rest, rfl⟩ := hpoint
    rw [fraction_point]
    refine (longestPrefix_letter rfl rest).mul_optional (longestPrefix_digits rest) ?_ nil_notMem_wholes
    intro c v hv hc
    obtain rfl := List.mem_singleton.1 hc
    exact absurd (isDigit_of_cons_mem_wholes hv) (by decide)
  · have hnil : fraction text = [] := by
      unfold fraction
      split
      · exact absurd ⟨_, rfl⟩ hpoint
      · rfl
    rw [hnil]
    refine .nil_optional fun u hu hprefix => hpoint ?_
    obtain ⟨c, v, hc, -, rfl⟩ := mem_letter_mul.1 hu
    obtain ⟨back, rfl⟩ := hprefix
    exact ⟨v ++ back, by rw [eq_of_beq hc, List.cons_append]⟩

theorem exponentDigits_eq (front text : List Char) :
    exponentDigits front text = if (text.takeWhile Char.isDigit).isEmpty then [] else
      front ++ text.takeWhile Char.isDigit := by
  cases text with
  | nil => rfl
  | cons d rest =>
    rw [exponentDigits]
    cases hd : d.isDigit <;> simp [hd]

theorem exponent_signed {e s : Char} (he : isExponentMark e = true) (hs : isSign s = true)
    (rest : List Char) : exponent (e :: s :: rest) = exponentDigits [e, s] rest := by
  simp only [isExponentMark, isSign] at he hs
  simp only [exponent, he, hs, if_true]

theorem exponent_unsigned {e : Char} (he : isExponentMark e = true)
    (hs : startsWith isSign rest = false) : exponent (e :: rest) = exponentDigits [e] rest := by
  simp only [isExponentMark] at he
  cases rest with
  | nil => simp only [exponent, he, if_true, exponentDigits]
  | cons s rest =>
    have hs : (s == '+' || s == '-') = false := hs
    simp only [exponent, he, hs, if_true, Bool.false_eq_true, if_false]

/-- The digits of an exponent with the sign in front. -/
theorem longestPrefix_signed {sign : List Char}
    (hsign : LongestPrefix (1 + letter isSign) sign text) :
    LongestPrefix (1 + (1 + letter isSign) * wholes)
      (exponentDigits sign (text.drop sign.length)) text := by
  rw [exponentDigits_eq]
  refine hsign.mul_optional (longestPrefix_digits _) (fun c v hv hc => ?_) nil_notMem_wholes
  obtain rfl | ⟨d, hd, rfl⟩ := mem_optional.1 hsign.mem
  · cases hc
  · obtain rfl := List.mem_singleton.1 hc
    have hdigit := isDigit_of_cons_mem_wholes hv
    obtain hd | hd := Bool.or_eq_true_iff.1 hd <;> obtain rfl := eq_of_beq hd <;>
      exact absurd hdigit (by decide)

theorem not_isExponentMark_of_isDigit (h : c.isDigit = true) : isExponentMark c = false :=
  forall_mem_of_all (p := fun c => isExponentMark c = false) (by decide) c (mem_digits_of_isDigit h)

theorem nil_notMem_signed : [] ∉ (1 + letter isSign) * wholes := by
  rw [Language.mem_mul]
  rintro ⟨u, -, v, hv, heq⟩
  obtain ⟨-, rfl⟩ := List.append_eq_nil_iff.1 heq
  exact nil_notMem_wholes hv

theorem not_isExponentMark_of_cons_mem_signed (h : c :: w ∈ (1 + letter isSign) * wholes) :
    isExponentMark c = false := by
  obtain ⟨u, hu, v, hv, heq⟩ := Language.mem_mul.1 h
  obtain rfl | ⟨d, hd, rfl⟩ := mem_optional.1 hu
  · obtain rfl : v = c :: w := heq
    exact not_isExponentMark_of_isDigit (isDigit_of_cons_mem_wholes hv)
  · obtain ⟨rfl, -⟩ := List.cons.inj heq
    obtain hd | hd := Bool.or_eq_true_iff.1 hd <;> obtain rfl := eq_of_beq hd <;> decide

theorem exponentDigits_cons (c : Char) (front text : List Char) :
    exponentDigits (c :: front) text =
      if (exponentDigits front text).isEmpty then [] else [c] ++ exponentDigits front text := by
  rw [exponentDigits_eq, exponentDigits_eq]
  cases text.takeWhile Char.isDigit <;> simp

theorem longestPrefix_exponent (text : List Char) :
    LongestPrefix (1 + exponents) (exponent text) text := by
  by_cases hmark : ∃ e rest, isExponentMark e = true ∧ text = e :: rest
  · obtain ⟨e, rest, he, rfl⟩ := hmark
    -- The sign in front of the digits, if there is one.
    obtain ⟨sign, hsign, hexponent⟩ : ∃ sign, LongestPrefix (1 + letter isSign) sign rest ∧
        exponent (e :: rest) = exponentDigits (e :: sign) (rest.drop sign.length) := by
      cases hs : startsWith isSign rest with
      | false =>
        refine ⟨[], .nil_optional fun u hu hprefix => ?_, exponent_unsigned he hs⟩
        obtain ⟨s, hsign, rfl⟩ := hu
        obtain ⟨back, rfl⟩ := hprefix
        exact Bool.noConfusion (hs.symm.trans hsign)
      | true =>
        cases rest with
        | nil => cases hs
        | cons s rest => exact ⟨[s], (longestPrefix_letter hs rest).optional, exponent_signed he hs rest⟩
    rw [hexponent, exponentDigits_cons]
    refine (longestPrefix_letter he rest).mul_optional (longestPrefix_signed hsign)
      (fun c v hv hc => ?_) nil_notMem_signed
    obtain rfl := List.mem_singleton.1 hc
    exact Bool.noConfusion ((not_isExponentMark_of_cons_mem_signed hv).symm.trans he)
  · have hnil : exponent text = [] := by
      cases text with
      | nil => rfl
      | cons e rest =>
        have he : ¬ (e == 'e' || e == 'E') = true := fun he => hmark ⟨e, rest, he, rfl⟩
        simp only [exponent, if_neg he]
    rw [hnil]
    refine .nil_optional fun u hu hprefix => hmark ?_
    obtain ⟨c, v, hc, -, rfl⟩ := mem_letter_mul.1 hu
    obtain ⟨back, rfl⟩ := hprefix
    exact ⟨c, v ++ back, hc, rfl⟩

theorem not_isExponentMark_of_mem {whole part : List Char} (hwhole : whole ∈ wholes)
    (hpart : part ∈ 1 + fractions) (h : c ∈ whole ++ part) : isExponentMark c = false := by
  obtain h | h := List.mem_append.1 h
  · exact not_isExponentMark_of_isDigit ((mem_wholes.1 hwhole).2 c h)
  · obtain rfl | hpart := mem_optional.1 hpart
    · cases h
    · obtain ⟨d, v, hd, hv, rfl⟩ := mem_letter_mul.1 hpart
      obtain rfl | h := List.mem_cons.1 h
      · obtain rfl := eq_of_beq hd
        rfl
      · exact not_isExponentMark_of_isDigit ((mem_wholes.1 hv).2 c h)

/-- A number is the longest one that the text begins with. It is a fractional one if it has a fraction or an
exponent. -/
theorem number_longest (hc : c.isDigit = true) (rest : List Char) :
    ∃ whole ∈ wholes, ∃ part ∈ 1 + fractions, ∃ power ∈ 1 + exponents,
      LongestPrefix numbers (whole ++ part ++ power) (c :: rest) ∧
        number (c :: rest) = ⟨whole ++ part ++ power, !(part.isEmpty && power.isEmpty)⟩ := by
  have hwhole := longestPrefix_whole hc rest
  have hpart := longestPrefix_fraction
    ((c :: rest).drop ((c :: rest).takeWhile Char.isDigit).length)
  have hboth := hwhole.mul hpart fun d v hv hd => by
    obtain heq | hv := mem_optional.1 hv
    · cases heq
    · obtain rfl := eq_of_beq (cons_mem_letter_mul.1 hv).1
      exact absurd ((mem_wholes.1 hwhole.mem).2 _ hd) (by decide)
  have hpower := longestPrefix_exponent ((c :: rest).drop (((c :: rest).takeWhile Char.isDigit) ++
    fraction ((c :: rest).drop ((c :: rest).takeWhile Char.isDigit).length)).length)
  have hall := hboth.mul hpower fun d v hv hd => by
    obtain heq | hv := mem_optional.1 hv
    · cases heq
    · have hmark := not_isExponentMark_of_mem hwhole.mem hpart.mem hd
      exact Bool.noConfusion (hmark.symm.trans (cons_mem_letter_mul.1 hv).1)
  refine ⟨_, hwhole.mem, _, hpart.mem, _, hpower.mem, hall, ?_⟩
  simp only [number, List.length_append, List.drop_drop]

theorem name_append_run (h : ∀ c ∈ w, isNameChar c = true) (text : List Char) :
    name (w ++ text) = w ++ name text := by
  induction w with
  | nil => rfl
  | cons c w ih =>
    obtain ⟨hc, hw⟩ := List.forall_mem_cons.1 h
    rw [List.cons_append, name, if_pos hc, ih hw, List.cons_append]

theorem forall_isNameChar_of_mem_segments (h : w ∈ segments) : ∀ c ∈ w, isNameChar c = true := by
  obtain ⟨c, v, hc, hv, rfl⟩ := mem_letter_mul.1 h
  exact List.forall_mem_cons.2 ⟨isNameChar_of_isNameStart hc, mem_letter_kstar.1 hv⟩

theorem name_append_point (h : w ∈ segments) (text : List Char) :
    name ('.' :: (w ++ text)) = '.' :: (w ++ name text) := by
  have hstart : startsWith isNameStart (w ++ text) = true := by
    obtain ⟨c, v, hc, -, rfl⟩ := mem_letter_mul.1 h
    exact hc
  have hpoint : isNameChar '.' = false := by decide
  rw [name, hpoint, hstart, name_append_run (forall_isNameChar_of_mem_segments h)]
  rfl

theorem name_append_further (h : w ∈ (letter (· == '.') * segments)∗) (text : List Char) :
    name (w ++ text) = w ++ name text := by
  obtain ⟨parts, rfl, hparts⟩ := Language.mem_kstar.1 h
  clear h
  induction parts with
  | nil => rfl
  | cons part parts ih =>
    obtain ⟨hpart, hmore⟩ := List.forall_mem_cons.1 hparts
    obtain ⟨c, v, hc, hv, rfl⟩ := mem_letter_mul.1 hpart
    obtain rfl := eq_of_beq hc
    rw [List.flatten_cons, List.append_assoc, List.cons_append, name_append_point hv, ih hmore,
      List.cons_append, List.cons_append, List.append_assoc]

/-- What is a name is taken as a whole. -/
theorem name_append_of_mem (h : w ∈ names) (text : List Char) : name (w ++ text) = w ++ name text := by
  obtain ⟨u, hu, v, hv, rfl⟩ := Language.mem_mul.1 h
  rw [List.append_assoc, name_append_run (forall_isNameChar_of_mem_segments hu),
    name_append_further hv, List.append_assoc]

theorem exists_segment (hw : w ∈ (letter isNameChar)∗ * (letter (· == '.') * segments)∗)
    (hs : startsWith isNameStart w = true) : ∃ u ∈ segments, ∃ v ∈ (letter (· == '.') * segments)∗,
      w = u ++ v := by
  obtain ⟨u, hu, v, hv, rfl⟩ := Language.mem_mul.1 hw
  cases u with
  | cons c u =>
    refine ⟨c :: u, cons_mem_letter_mul.2 ⟨hs, ?_⟩, v, hv, rfl⟩
    exact mem_letter_kstar.2 (List.forall_mem_cons.1 (mem_letter_kstar.1 hu)).2
  | nil =>
    -- What begins with a point does not begin a name.
    obtain ⟨parts, rfl, hparts⟩ := Language.mem_kstar.1 hv
    cases parts with
    | nil => cases hs
    | cons part parts =>
      obtain ⟨c, v, hc, -, rfl⟩ := mem_letter_mul.1 (hparts part List.mem_cons_self)
      obtain rfl := eq_of_beq hc
      exact absurd (show isNameStart '.' = true from hs) (by decide)

theorem startsWith_name (text : List Char) (h : startsWith isNameStart text = true) :
    startsWith isNameStart (name text) = true := by
  cases text with
  | nil => cases h
  | cons c text =>
    rw [name, if_pos (isNameChar_of_isNameStart h)]
    exact h

/-- What is taken is the rest of a segment with further ones. -/
theorem name_mem_run (text : List Char) :
    name text ∈ (letter isNameChar)∗ * (letter (· == '.') * segments)∗ := by
  induction text with
  | nil => exact Language.mem_mul.2 ⟨[], Language.nil_mem_kstar _, [], Language.nil_mem_kstar _, rfl⟩
  | cons c text ih =>
    rw [name]
    split_ifs with hc hpoint
    · obtain ⟨u, hu, v, hv, heq⟩ := Language.mem_mul.1 ih
      refine Language.mem_mul.2 ⟨c :: u, ?_, v, hv, by rw [List.cons_append, heq]⟩
      exact mem_letter_kstar.2 (List.forall_mem_cons.2 ⟨hc, mem_letter_kstar.1 hu⟩)
    · obtain ⟨hdot, hs⟩ := Bool.and_eq_true_iff.1 hpoint
      obtain ⟨u, hu, v, hv, heq⟩ := exists_segment ih (startsWith_name text hs)
      obtain ⟨parts, rfl, hparts⟩ := Language.mem_kstar.1 hv
      refine Language.mem_mul.2 ⟨[], Language.nil_mem_kstar _, _, Language.mem_kstar.2
        ⟨(c :: u) :: parts, rfl, List.forall_mem_cons.2 ⟨cons_mem_letter_mul.2 ⟨hdot, hu⟩, hparts⟩⟩, ?_⟩
      rw [heq, List.flatten_cons]
      rfl
    · exact Language.mem_mul.2 ⟨[], Language.nil_mem_kstar _, [], Language.nil_mem_kstar _, rfl⟩

theorem name_longest (h : startsWith isNameStart text = true) :
    LongestPrefix names (name text) text where
  mem := by
    obtain ⟨u, hu, v, hv, heq⟩ := exists_segment (name_mem_run text) (startsWith_name text h)
    exact heq ▸ Language.mem_mul.2 ⟨u, hu, v, hv, rfl⟩
  isPrefix := name_isPrefix text
  length_le u hu hprefix := by
    obtain ⟨back, rfl⟩ := hprefix
    rw [name_append_of_mem hu, List.length_append]
    exact Nat.le_add_right _ _

theorem isNameStart_of_cons_mem_names (h : c :: w ∈ names) : isNameStart c = true := by
  obtain ⟨u, hu, v, -, heq⟩ := Language.mem_mul.1 h
  obtain ⟨d, x, hd, -, rfl⟩ := mem_letter_mul.1 hu
  exact (List.cons.inj heq).1 ▸ hd

theorem macroName_longest (h : startsWith isNameStart rest = true) :
    LongestPrefix macroNames ('@' :: name rest) ('@' :: rest) :=
  (longestPrefix_letter rfl rest).mul (name_longest h) fun c v hv hc => by
    obtain rfl := List.mem_singleton.1 hc
    exact absurd (isNameStart_of_cons_mem_names hv) (by decide)

end Lexeme

end Clausal
