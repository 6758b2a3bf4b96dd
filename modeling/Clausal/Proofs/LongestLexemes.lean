import Clausal.Proofs.BuiltInOperators
import Clausal.Proofs.DeclarationRows
import Clausal.Proofs.LexicalLanguages
import Mathlib.Data.List.Induction
import Mathlib.Data.Nat.Digits.Defs

/-!
# Longest lexemes

A token that begins as a name or a number does is the longest name or number at its place. An integer is
read as the number that its digits say, if that is in range.
-/
namespace Clausal

open scoped Computability

namespace Cursor

open Lexeme

variable {k : Cursor} {c : Char} {rest : List Char}

/-- Every integer token is a run of digits. -/
theorem mem_wholes_of_item {digits : String} (h : k.item.1.kind? = some (.int digits)) :
    digits.toList ∈ wholes := by
  have hscans := k.scans_item
  generalize k.item = x at h hscans
  cases hscans with
  | endOfInput | stop | quotation | name | macroName | string | symbols => cases kind_of_take h
  | openQuotation | openString | unknownEscape | unexpected => cases h
  | single _ _ alone =>
    obtain rfl := kind_of_take h
    unfold single? at alone
    split at alone <;> cases alone
  | number _ digit =>
    obtain ⟨whole, hwhole, part, -, power, -, -, hnumber⟩ := number_longest digit _
    rw [hnumber] at h
    cases part with
    | cons d part => cases kind_of_take h
    | nil =>
      cases power with
      | cons d power => cases kind_of_take h
      | nil =>
        obtain rfl := TokenKind.int.inj (kind_of_take h)
        simpa using hwhole

theorem mem_wholes_of_next {t : Token} {digits : String} (h : k.next.1 = .token t)
    (ht : t.kind = .int digits) : digits.toList ∈ wholes := by
  have hkind : k.next.1.kind? = some (.int digits) := by rw [h, Item.kind?, ht]
  obtain ⟨n, -, hnext⟩ := next_of_kind? hkind
  exact mem_wholes_of_item (hnext ▸ hkind)

end Cursor

/-- The number that is written with these digits. -/
def decimalValue (digits : List Char) : Nat :=
  Nat.ofDigits 10 (digits.reverse.map fun c => c.toNat - '0'.toNat)

theorem digitsValue_eq (digits : List Char) : Decimal.digitsValue digits = decimalValue digits := by
  induction digits using List.reverseRecOn with
  | nil => rfl
  | append_singleton digits c ih =>
    have hvalue : Decimal.digitsValue (digits ++ [c]) =
        10 * Decimal.digitsValue digits + (c.toNat - '0'.toNat) := by
      rw [Decimal.digitsValue, List.foldl_append]
      rfl
    rw [hvalue, ih, decimalValue, decimalValue, List.reverse_append, List.reverse_singleton,
      List.singleton_append, List.map_cons, Nat.ofDigits_cons]
    exact Nat.add_comm _ _

theorem toInt_decimalValue {digits : List Char} (h : decimalValue digits ≤ Nat.pow 2 63 - 1) :
    (Int64.ofNat (decimalValue digits)).toInt = decimalValue digits := by
  rw [Nat.pow_eq] at h
  exact Int64.toInt_ofNat_of_lt (by omega)

namespace Parse

variable {s : ParseState} {t : Token} {digits : String}

theorem atomic_int (h : s.ahead.get 0 = .token t) (ht : t.kind = .int digits) (n limit : Nat) :
    (atomic (n + 1) limit).run s =
      (integer t.span digits).run { s with ahead := s.ahead.advance, last := t.span } := by
  rw [run, atomic, Pairing.bind_of_ok (next_of_token h), Scan.drop_one]
  simp only [ht]
  rfl

theorem boundedNat?_of_le (h : decimalValue digits.toList ≤ Nat.pow 2 63 - 1) :
    boundedNat? (Nat.pow 2 63 - 1) digits = some (decimalValue digits.toList) := by
  rw [boundedNat?, digitsValue_eq, if_pos h]

theorem integer_of_le {span : Span} (h : decimalValue digits.toList ≤ Nat.pow 2 63 - 1) :
    integer span digits = pure (.literal (.int (Int64.ofNat (decimalValue digits.toList)))) := by
  rw [integer, boundedNat?_of_le h]

theorem integer_of_lt {span : Span} (h : Nat.pow 2 63 - 1 < decimalValue digits.toList) :
    integer span digits = fail (.integer span) := by
  have hbound : boundedNat? (Nat.pow 2 63 - 1) digits = none := by
    rw [boundedNat?, digitsValue_eq, if_neg (Nat.not_le_of_lt h)]
  rw [integer, hbound]

/-- A term that begins with an integer fails with it. -/
theorem term_of_lt (h : s.ahead.get 0 = .token t) (ht : t.kind = .int digits)
    (hlt : Nat.pow 2 63 - 1 < decimalValue digits.toList) :
    term s = (.error (.integer t.span), { s with ahead := s.ahead.advance, last := t.span }) := by
  have hatomic : ∀ n, atomic (n + 1) Precedence.lowest s =
      (.error (.integer t.span), { s with ahead := s.ahead.advance, last := t.span }) := by
    intro n
    have hrun := atomic_int h ht n Precedence.lowest
    rwa [integer_of_lt hlt] at hrun
  have hplain : prefixAt? t.kind s = (.ok none, s) := by rw [ht]; rfl
  rw [term, expressionAt]
  obtain ⟨n, hn⟩ : ∃ n, 4 * s.ahead.items.length + 4 = n + 3 := ⟨4 * s.ahead.items.length + 1, by omega⟩
  rw [hn, expression, Pairing.bind_of_error]
  rw [operand, Pairing.bind_of_ok (peek_of_token h), Pairing.bind_of_ok hplain]
  exact Pairing.bind_of_error (hatomic n)

end Parse

open Parse in
theorem parseTerm_of_lt {v : Vocabulary} {text digits : String} {t : Token}
    (h : (Scan.ofText "<term>" text).get 0 = .token t) (ht : t.kind = .int digits)
    (hlt : Nat.pow 2 63 - 1 < decimalValue digits.toList) :
    parseTerm v text = (.error (.integer t.span), v) := by
  have hget : (ParseState.initial v [] "<term>" text).ahead.get 0 = .token t := h
  have hgoal : goal (.initial v [] "<term>" text) = (.error (.integer t.span),
      { ParseState.initial v [] "<term>" text with
        ahead := (Scan.ofText "<term>" text).advance, last := t.span }) := by
    rw [goal, Pairing.bind_of_ok (peek_of_token hget), Pairing.bind_of_error (term_of_lt hget ht hlt)]
    rfl
  rw [parseTerm_eq, run, Pairing.bind_of_error hgoal]
  rfl

open Parse in
theorem parseTerm_of_le {v : Vocabulary} {text digits : String}
    (h : (Scan.ofText "<term>" text).Shows [.int digits])
    (hle : decimalValue digits.toList ≤ Nat.pow 2 63 - 1) :
    parseTerm v text = (.ok (.literal (.int (Int64.ofNat (decimalValue digits.toList)))), v) := by
  refine parseTerm_of_shows h (reads_expression (reads_operand_atomic ?_
    (reads_atomic_int (boundedNat?_of_le hle)) (Nat.le_refl _) ?_) (by simp) (reads_climb_stop ?_))
  · exact operatorBefore?_of_startsArgument rfl _
  · rfl
  · rfl

open Lexeme in
/-- Behind a gap, a token that begins as a name does is the longest name, one that begins with `@` and so is
the longest macro name, and one that begins with a digit is the longest number: an integer, unless it has a
fraction or an exponent. Wherever an integer stands first and is read, it gives the number that its digits say
if that is in range, and an error at the token if not. -/
theorem lexemes_longest :
    (∀ (k : Cursor) (n : Nat) (c : Char) (rest : List Char), gap .plain 0 k.rest = .ok n →
      (k.advance n).rest = c :: rest →
        (isNameStart c = true → ∃ w, LongestPrefix names w (c :: rest) ∧
          k.next = (k.advance n).takeText .ident w) ∧
        (c = '@' → startsWith isNameStart rest = true → ∃ w, LongestPrefix macroNames w (c :: rest) ∧
          k.next = (k.advance n).takeText .macroName w) ∧
        (c.isDigit = true → ∃ whole ∈ wholes, ∃ part ∈ 1 + fractions, ∃ power ∈ 1 + exponents,
          LongestPrefix numbers (whole ++ part ++ power) (c :: rest) ∧
          (part = [] ∧ power = [] → k.next = (k.advance n).takeText .int whole) ∧
          (part ≠ [] ∨ power ≠ [] →
            k.next = (k.advance n).takeText .float (whole ++ part ++ power)))) ∧
    (∀ (k : Cursor) (t : Token) (digits : String), k.next.1 = .token t → t.kind = .int digits →
      digits.toList ∈ wholes) ∧
    (∀ (s : ParseState) (t : Token) (digits : String), s.ahead.get 0 = .token t → t.kind = .int digits →
      ∀ n limit : Nat,
        (decimalValue digits.toList ≤ Nat.pow 2 63 - 1 →
          ∃ i : Int64, i.toInt = decimalValue digits.toList ∧ (Parse.atomic (n + 1) limit).run s =
            (.ok (.literal (.int i)), { s with ahead := s.ahead.advance, last := t.span })) ∧
        (Nat.pow 2 63 - 1 < decimalValue digits.toList → (Parse.atomic (n + 1) limit).run s =
          (.error (.integer t.span), { s with ahead := s.ahead.advance, last := t.span }))) ∧
    (∀ (v : Vocabulary) (text digits : String), (Scan.ofText "<term>" text).Shows [.int digits] →
      decimalValue digits.toList ≤ Nat.pow 2 63 - 1 →
        ∃ i : Int64, i.toInt = decimalValue digits.toList ∧
          parseTerm v text = (.ok (.literal (.int i)), v)) ∧
    (∀ (v : Vocabulary) (text digits : String) (t : Token), (Scan.ofText "<term>" text).get 0 = .token t →
      t.kind = .int digits → Nat.pow 2 63 - 1 < decimalValue digits.toList →
        parseTerm v text = (.error (.integer t.span), v)) := by
  refine ⟨fun k n c rest hgap hk => ⟨fun hc => ?_, ?_, fun hc => ?_⟩, fun k t digits => Cursor.mem_wholes_of_next,
    fun s t digits h ht n limit => ⟨fun hle => ?_, fun hlt => ?_⟩,
    fun v text digits h hle => ⟨_, toInt_decimalValue hle, parseTerm_of_le h hle⟩,
    fun v text digits t => parseTerm_of_lt⟩
  · exact ⟨_, name_longest hc, by rw [Cursor.next_of_gap hgap, Cursor.item_ident hk hc]⟩
  · rintro rfl hs
    exact ⟨_, macroName_longest hs, by rw [Cursor.next_of_gap hgap, Cursor.item_macroName hk hs]⟩
  · obtain ⟨whole, hwhole, part, hpart, power, hpower, hlongest, hnumber⟩ := number_longest hc rest
    have hnext := (Cursor.next_of_gap hgap).trans (Cursor.item_number hk hc)
    rw [hnumber] at hnext
    refine ⟨whole, hwhole, part, hpart, power, hpower, hlongest, ?_, fun hsome => ?_⟩
    · rintro ⟨rfl, rfl⟩
      simpa using hnext
    · have hfloat : (!(part.isEmpty && power.isEmpty)) = true := by
        simpa [← not_and_or] using hsome
      rwa [hfloat, if_pos rfl] at hnext
  · refine ⟨_, toInt_decimalValue hle, ?_⟩
    rw [Parse.atomic_int h ht, Parse.integer_of_le hle, Parse.run_pure]
  · rw [Parse.atomic_int h ht, Parse.integer_of_lt hlt]
    rfl

open Lexeme in
theorem lexemes_longest_texts :
    (∃ w, LongestPrefix names w "p.q'.5".toList ∧
      (Cursor.initial "main" "p.q'.5").next = (Cursor.initial "main" "p.q'.5").takeText .ident w) ∧
    (∃ i : Int64, i.toInt = 7 ∧ parseTerm .initial "% seven\n007" = (.ok (.literal (.int i)), .initial)) ∧
    parseTerm .initial "9223372036854775808" =
      (.error (.integer ⟨"<term>", 0, 19, 1, 0⟩), .initial) := by
  obtain ⟨hlexemes, -, -, hsmall, hlarge⟩ := lexemes_longest
  refine ⟨?_, ?_, ?_⟩
  · exact (hlexemes (Cursor.initial "main" "p.q'.5") 0 'p' ".q'.5".toList (by decide +kernel) (by decide)).1
      (by decide)
  · obtain ⟨i, hi, hparse⟩ := hsmall .initial "% seven\n007" "007"
      ⟨by decide +kernel, by decide +kernel⟩ (by decide +kernel)
    exact ⟨i, hi.trans (by decide +kernel), hparse⟩
  · exact hlarge .initial "9223372036854775808" "9223372036854775808" ⟨_, ⟨"<term>", 0, 19, 1, 0⟩⟩
      (by decide +kernel) rfl (by decide +kernel)

end Clausal
