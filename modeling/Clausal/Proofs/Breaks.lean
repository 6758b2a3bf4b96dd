import Clausal.Proofs.Words

/-!
# Breaks

No token goes on with a blank or with the beginning of a line comment, so either of them is a break.
Each lexeme is found in the text in front of a break as it would be if the text ended there, and what stands
behind the break does not matter for it.
-/
namespace Clausal

namespace Lexeme

theorem name_isPrefix (w : List Char) : name w <+: w := by
  induction w with
  | nil => exact List.prefix_rfl
  | cons c w ih =>
    rw [name]
    split_ifs <;> simp [ih]

theorem symbols_isPrefix (w : List Char) : symbols w <+: w := by
  induction w with
  | nil => exact List.prefix_rfl
  | cons c w ih =>
    rw [symbols]
    split_ifs <;> simp [ih]

theorem fraction_isPrefix (w : List Char) : fraction w <+: w := by
  unfold fraction
  split
  · split_ifs <;> simp [List.takeWhile_prefix]
  · exact List.nil_prefix

theorem exponentDigits_isPrefix (front w : List Char) : exponentDigits front w <+: front ++ w := by
  cases w with
  | nil => exact List.nil_prefix
  | cons d w =>
    rw [exponentDigits]
    split_ifs <;> simp [List.takeWhile_prefix]

theorem exponent_isPrefix (w : List Char) : exponent w <+: w := by
  match w with
  | [] => exact List.prefix_rfl
  | [e] => simp [exponent]
  | e :: s :: w =>
    simp only [exponent]
    split_ifs
    · exact exponentDigits_isPrefix [e, s] w
    · exact exponentDigits_isPrefix [e] (s :: w)
    · exact List.nil_prefix

theorem append_isPrefix {front back w : List Char} (hf : front <+: w)
    (hb : back <+: w.drop front.length) : front ++ back <+: w := by
  obtain ⟨rest, rfl⟩ := hf
  simpa using hb

theorem number_isPrefix (w : List Char) : (number w).text <+: w := by
  have hpart := append_isPrefix (List.takeWhile_prefix (p := Char.isDigit) (l := w))
    (fraction_isPrefix (w.drop (w.takeWhile Char.isDigit).length))
  refine append_isPrefix hpart ?_
  rw [List.length_append, ← List.drop_drop]
  exact exponent_isPrefix _

theorem name_pos {c : Char} (h : isNameStart c = true) (w : List Char) : 0 < (name (c :: w)).length := by
  rw [name, if_pos (isNameChar_of_isNameStart h)]
  exact Nat.succ_pos _

theorem number_pos {c : Char} (h : c.isDigit = true) (w : List Char) :
    0 < (number (c :: w)).text.length := by
  simp only [number, List.takeWhile_cons, h, if_true, List.cons_append, List.length_cons]
  exact Nat.succ_pos _

theorem quotation_pos {w : List Char} {length : Nat} (h : quotation ('\x7b' :: w) = some length) :
    0 < length := by
  obtain ⟨m, -, rfl⟩ := Option.map_eq_some_iff.1 h
  simp only [List.takeWhile_cons, beq_self_eq_true, if_true, List.length_cons]
  omega

end Lexeme

namespace Lexeme

namespace StringBody

/-- The number of characters up to where a string ends or is refused. -/
def length? : StringBody → Option Nat
  | closed _ length | unknownEscape _ length => some length
  | unterminated => none

theorem length?_add (c : Char) (width : Nat) (body : StringBody) :
    (body.add c width).length? = body.length?.map (width + ·) := by
  cases body <;> rfl

/-- Bodies that are the same within a bound are so with a character in front. -/
theorem add_iff {x y : StringBody} {bound : Nat}
    (h : ∀ {body : StringBody} {n : Nat}, n ∈ body.length? → (x = body ∧ n ≤ bound ↔ y = body))
    (c : Char) (width : Nat) {body : StringBody} {n : Nat} (hn : n ∈ body.length?) :
    x.add c width = body ∧ n ≤ width + bound ↔ y.add c width = body := by
  have hinner : ∀ {z : StringBody}, z.add c width = body → ∃ m ∈ z.length?, n = width + m := by
    rintro z rfl
    rw [length?_add] at hn
    obtain ⟨m, hm, rfl⟩ := Option.map_eq_some_iff.1 hn
    exact ⟨m, hm, rfl⟩
  constructor
  · rintro ⟨hx, hle⟩
    obtain ⟨m, hm, rfl⟩ := hinner hx
    rw [(h hm).1 ⟨rfl, by omega⟩, hx]
  · intro hy
    obtain ⟨m, hm, rfl⟩ := hinner hy
    obtain ⟨he, hle⟩ := (h hm).2 rfl
    exact ⟨by rw [he, hy], by omega⟩

end StringBody

theorem stringBody_cons {c : Char} (hb : c ≠ '\\') (hq : c ≠ '"') (rest : List Char) :
    stringBody (c :: rest) = (stringBody rest).add c 1 := by
  rw [stringBody]
  · exact fun h _ => hb h
  · exact hq
  · exact fun _ _ h _ => hb h

/-- With an escape in front, a string goes on for two characters at least. -/
theorem one_lt_of_escape {more : List Char} {n : Nat} (h : n ∈ (stringBody ('\\' :: more)).length?) : 1 < n := by
  cases more with
  | nil => cases h
  | cons e more =>
    simp only [stringBody] at h
    cases he : unescape e with
    | some c =>
      simp only [he, StringBody.length?_add, Option.mem_def, Option.map_eq_some_iff] at h
      obtain ⟨m, -, rfl⟩ := h
      omega
    | none =>
      simp only [he] at h
      obtain rfl := Option.some.inj h
      exact Nat.one_lt_two

theorem stringBody_pos {w : List Char} {n : Nat} (h : n ∈ (stringBody w).length?) : 0 < n := by
  cases w with
  | nil => cases h
  | cons c w =>
    by_cases hescape : c = '\\'
    · subst hescape
      exact Nat.lt_of_succ_lt (one_lt_of_escape h)
    by_cases hquote : c = '"'
    · subst hquote
      obtain rfl := Option.some.inj h
      exact Nat.one_pos
    · rw [stringBody_cons hescape hquote, StringBody.length?_add] at h
      obtain ⟨m, -, rfl⟩ := Option.map_eq_some_iff.1 h
      omega

/-- What a string is, and where it ends or is refused, does not depend on what is behind that place. -/
theorem stringBody_append {w : List Char} {body : StringBody} {n : Nat} (hn : n ∈ body.length?)
    (more : List Char) : stringBody (w ++ more) = body ∧ n ≤ w.length ↔ stringBody w = body := by
  fun_induction stringBody w generalizing body n with
  | case1 =>
    refine ⟨fun ⟨hbody, hle⟩ => ?_, fun hbody => ?_⟩
    · have hpos := stringBody_pos (hbody ▸ hn)
      exact absurd hpos (Nat.not_lt.2 hle)
    · cases hbody ▸ hn
  | case2 =>
    refine ⟨fun ⟨hbody, hle⟩ => ?_, fun hbody => ?_⟩
    · have hlt := one_lt_of_escape (hbody ▸ hn)
      exact absurd hlt (Nat.not_lt.2 hle)
    · cases hbody ▸ hn
  | case3 w =>
    refine ⟨fun h => h.1, fun h => ⟨h, ?_⟩⟩
    obtain rfl := Option.some.inj (h ▸ hn)
    exact Nat.succ_le_succ (Nat.zero_le _)
  | case4 e w c he ih =>
    have hlength : ('\\' :: e :: w).length = 2 + w.length := by simp; omega
    simp only [List.cons_append, stringBody, he, hlength]
    exact StringBody.add_iff ih c 2 hn
  | case5 e w he =>
    simp only [List.cons_append, stringBody, he]
    refine ⟨fun h => h.1, fun h => ⟨h, ?_⟩⟩
    obtain rfl := Option.some.inj (h ▸ hn)
    simp
  | case6 c w hslash hquote hescape ih =>
    have hc : c ≠ '\\' := by
      rintro rfl
      cases w with
      | nil => exact hslash rfl rfl
      | cons e w => exact hescape e w rfl rfl
    rw [List.cons_append, stringBody_cons hc hquote, List.length_cons, Nat.add_comm w.length]
    exact StringBody.add_iff ih c 1 hn

end Lexeme

namespace Lexeme

/-- A blank or the beginning of a line comment: no token goes on with it. -/
def isBreak (c : Char) : Bool := Text.isBlank c || c == '%'

theorem isBreak_newline : isBreak '\n' = true := by
  rw [isBreak, Text.isBlank_eq]
  decide

/-- Characters that a lexeme may go on with, or a comment begin or end with. -/
def marks : List Char := "*/\x7b\x7d.+-eE".toList

section

variable {c : Char} (hc : isBreak c = true)
include hc

theorem ne_of_isBreak : ∀ d ∈ marks, c ≠ d := by
  have hall : ∀ d ∈ marks, isBreak d = false := by
    simp only [isBreak, Text.isBlank_eq]
    exact forall_mem_of_all (by decide)
  rintro d hd rfl
  exact Bool.noConfusion ((hall c hd).symm.trans hc)

theorem isNameChar_of_isBreak : isNameChar c = false := by
  rw [← Bool.not_eq_true]
  intro hn
  rcases Bool.or_eq_true_iff.1 hc with hb | hp
  · exact Bool.noConfusion ((isBlank_of_isNameChar hn).symm.trans hb)
  · obtain rfl := eq_of_beq hp
    exact absurd hn (by decide)

theorem isNameStart_of_isBreak : isNameStart c = false := by
  rw [← Bool.not_eq_true]
  intro hn
  exact Bool.noConfusion ((isNameChar_of_isBreak hc).symm.trans (isNameChar_of_isNameStart hn))

theorem isSymbolChar_of_isBreak : isSymbolChar c = false := by
  rw [← Bool.not_eq_true]
  intro hs
  obtain ⟨hb, hp, -⟩ := of_isSymbolChar hs
  rcases Bool.or_eq_true_iff.1 hc with hb' | hp'
  · exact Bool.noConfusion (hb.symm.trans hb')
  · exact hp (eq_of_beq hp')

theorem isDigit_of_isBreak : c.isDigit = false := by
  rw [← Bool.not_eq_true]
  intro hd
  exact Bool.noConfusion ((isNameChar_of_isBreak hc).symm.trans (isNameChar_of_isDigit hd))

theorem endsWord_break (rest : List Char) : EndsWord (c :: rest) := by
  change (isNameChar c || isSymbolChar c) = false
  rw [isNameChar_of_isBreak hc, isSymbolChar_of_isBreak hc]
  rfl

end

theorem add_length_cons (passed : Nat) (c : Char) (w : List Char) :
    passed + (c :: w).length = passed + 1 + w.length := by
  rw [List.length_cons, Nat.add_right_comm, Nat.add_assoc]

theorem le_of_gap {g : Gap} {passed n : Nat} {w : List Char} (h : gap g passed w = .ok n) : passed ≤ n := by
  fun_induction gap g passed w with
  | case1 => cases h
  | case2 | case3 | case10 => exact Nat.le_of_eq (Except.ok.inj h)
  | case4 _ _ _ ih | case6 _ _ _ _ _ ih | case8 _ _ _ _ _ ih | case9 _ _ _ _ _ _ ih =>
    exact Nat.le_of_succ_le (ih h)
  | case5 _ _ _ ih | case7 _ _ ih => exact Nat.le_of_succ_le (Nat.le_of_succ_le (ih h))

section

variable {b : Char} (hb : isBreak b = true) (rest : List Char)

theorem startsWith_append_break {p : Char → Bool} (hp : p b = false) (w : List Char) :
    startsWith p (w ++ b :: rest) = startsWith p w := by
  cases w with
  | nil => exact hp
  | cons c w => rfl

theorem takeWhile_append_break {p : Char → Bool} (hp : p b = false) (w : List Char) :
    (w ++ b :: rest).takeWhile p = w.takeWhile p := by
  induction w with
  | nil => simp [hp]
  | cons c w ih => simp only [List.cons_append, List.takeWhile_cons, ih]

include hb

theorem beq_break {d : Char} (hd : d ∈ marks) : (b == d) = false :=
  beq_eq_false_iff_ne.2 (ne_of_isBreak hb d hd)

theorem endsDeclaration_append_break (w : List Char) :
    endsDeclaration (w ++ b :: rest) = endsDeclaration w := by
  cases w with
  | nil => exact hb
  | cons c w => rfl

theorem symbols_append_break (w : List Char) : symbols (w ++ b :: rest) = symbols w := by
  induction w with
  | nil => exact symbols_of_endsWord (endsWord_break hb rest)
  | cons c w ih =>
    rw [List.cons_append, symbols, symbols, ih, endsDeclaration_append_break hb,
      startsWith_append_break rest (p := (· == '*')) (beq_break hb (by decide))]

theorem fraction_append_break (w : List Char) : fraction (w ++ b :: rest) = fraction w := by
  have hd := takeWhile_append_break rest (p := Char.isDigit) (isDigit_of_isBreak hb)
  match w with
  | [] =>
    have hpoint := ne_of_isBreak hb '.' (by decide)
    cases rest <;> simp [fraction, hpoint]
  | [c] =>
    by_cases hc : c = '.'
    · subst hc
      simp [fraction, isDigit_of_isBreak hb]
    · simp [fraction, hc]
  | c :: d :: w =>
    by_cases hc : c = '.'
    · subst hc
      simp only [List.cons_append, fraction, hd]
    · simp [fraction, hc]

theorem exponentDigits_append_break (front w : List Char) :
    exponentDigits front (w ++ b :: rest) = exponentDigits front w := by
  have hd := takeWhile_append_break rest (p := Char.isDigit) (isDigit_of_isBreak hb)
  cases w with
  | nil => simp [exponentDigits, isDigit_of_isBreak hb]
  | cons d w => simp only [List.cons_append, exponentDigits, hd]

theorem exponent_append_break (w : List Char) : exponent (w ++ b :: rest) = exponent w := by
  have hletter : (b == 'e' || b == 'E') = false := by
    rw [beq_break hb (by decide), beq_break hb (by decide)]
    rfl
  have hsign : (b == '+' || b == '-') = false := by
    rw [beq_break hb (by decide), beq_break hb (by decide)]
    rfl
  match w with
  | [] => simp [exponent, hletter]
  | [e] => simp [exponent, exponentDigits, hsign, isDigit_of_isBreak hb]
  | e :: s :: w =>
    have hd := exponentDigits_append_break hb rest
    have hd' := hd [e] (s :: w)
    simp only [List.cons_append] at hd'
    simp only [List.cons_append, exponent, hd, hd']

theorem number_append_break (w : List Char) : number (w ++ b :: rest) = number w := by
  have hwhole := (List.takeWhile_prefix (p := Char.isDigit) (l := w)).length_le
  have hd := takeWhile_append_break rest (p := Char.isDigit) (isDigit_of_isBreak hb) w
  simp only [number, hd, List.drop_append_of_le_length hwhole, fraction_append_break hb,
    List.drop_append_of_le_length (fraction_isPrefix _).length_le, exponent_append_break hb]

omit hb in
theorem startsWithRun_append_break {c : Char} (hc : c ≠ b) (n : Nat) (w : List Char) :
    startsWithRun c n (w ++ b :: rest) = startsWithRun c n w := by
  by_cases hn : n ≤ w.length
  · simp only [startsWithRun, List.take_append_of_le_length hn]
  · have hshort : w.take n ≠ List.replicate n c := by
      intro he
      have hlen := congrArg List.length he
      simp only [List.length_take, List.length_replicate] at hlen
      omega
    have hlong : (w ++ b :: rest).take n ≠ List.replicate n c := by
      intro he
      have hmem : b ∈ (w ++ b :: rest).take n := by
        obtain ⟨m, rfl⟩ : ∃ m, n = w.length + (m + 1) := ⟨n - w.length - 1, by omega⟩
        simp [List.take_length_add_append]
      rw [he] at hmem
      exact hc (List.eq_of_mem_replicate hmem).symm
    rw [startsWithRun, startsWithRun, beq_eq_false_iff_ne.2 hshort, beq_eq_false_iff_ne.2 hlong]

omit hb in
/-- Counting goes on in one text as in the other, one character further. -/
theorem quotationLength_succ_iff {x y : Option Nat} {bound : Nat}
    (h : ∀ {n}, x = some n ∧ n ≤ bound ↔ y = some n) {n : Nat} :
    x.map (· + 1) = some n ∧ n ≤ bound + 1 ↔ y.map (· + 1) = some n := by
  simp only [Option.map_eq_some_iff]
  constructor
  · rintro ⟨⟨m, hm, rfl⟩, hle⟩
    exact ⟨m, h.1 ⟨hm, Nat.le_of_succ_le_succ hle⟩, rfl⟩
  · rintro ⟨m, hm, rfl⟩
    obtain ⟨hx, hle⟩ := h.2 hm
    exact ⟨⟨m, hx, rfl⟩, Nat.succ_le_succ hle⟩

/-- Where a quotation ends does not depend on what is behind a break. -/
theorem quotationLength_append_break {n depth skip length : Nat} {w : List Char} :
    quotationLength n depth skip (w ++ b :: rest) = some length ∧ length ≤ w.length ↔
      quotationLength n depth skip w = some length := by
  have hclose := startsWithRun_append_break rest (ne_of_isBreak hb '\x7d' (by decide)).symm n
  have hopen := startsWithRun_append_break rest (ne_of_isBreak hb '\x7b' (by decide)).symm n
  fun_induction quotationLength n depth skip w generalizing length with
  | case1 w =>
    simp only [quotationLength, Option.some.injEq]
    exact ⟨fun h => h.1, fun h => ⟨h, h ▸ Nat.zero_le _⟩⟩
  | case2 depth skip hne =>
    refine iff_of_false (fun ⟨hlength, hle⟩ => ?_) (by simp)
    obtain rfl := Nat.le_zero.1 hle
    cases skip with
    | succ skip => simp [quotationLength] at hlength
    | zero =>
      cases depth with
      | zero => exact hne rfl rfl
      | succ depth =>
        rw [List.nil_append, quotationLength] at hlength
        split_ifs at hlength <;> simp at hlength
  | case3 depth skip c w ih =>
    simp only [List.cons_append, quotationLength, List.length_cons]
    exact quotationLength_succ_iff ih
  | case4 depth c w hrun ih =>
    have hrun' : startsWithRun '\x7d' n (c :: (w ++ b :: rest)) = true := (hclose (c :: w)).trans hrun
    simp only [List.cons_append, quotationLength, List.length_cons, hrun', if_true]
    exact quotationLength_succ_iff ih
  | case5 depth c w hrun hrun' ih =>
    have h := (hclose (c :: w)).symm
    have h' := (hopen (c :: w)).symm
    rw [List.cons_append] at h h'
    rw [h] at hrun
    rw [h'] at hrun'
    simp only [List.cons_append, quotationLength, List.length_cons, hrun, hrun', if_true]
    exact quotationLength_succ_iff ih
  | case6 depth c w hrun hrun' ih =>
    have h := (hclose (c :: w)).symm
    have h' := (hopen (c :: w)).symm
    rw [List.cons_append] at h h'
    rw [h] at hrun
    rw [h'] at hrun'
    simp only [List.cons_append, quotationLength, List.length_cons, hrun, hrun']
    exact quotationLength_succ_iff ih

theorem quotation_append_break {w : List Char} {length : Nat} :
    quotation (w ++ b :: rest) = some length ∧ length ≤ w.length ↔ quotation w = some length := by
  have hbraces := (List.takeWhile_prefix (p := fun c => c == '\x7b') (l := w)).length_le
  have hd := takeWhile_append_break rest (p := fun c => c == '\x7b') (beq_break hb (by decide)) w
  simp only [quotation, hd, List.drop_append_of_le_length hbraces, Option.map_eq_some_iff]
  constructor
  · rintro ⟨⟨m, hm, rfl⟩, hle⟩
    refine ⟨m, (quotationLength_append_break hb rest).1 ⟨hm, ?_⟩, rfl⟩
    rw [List.length_drop]
    omega
  · rintro ⟨m, hm, rfl⟩
    obtain ⟨hm', hle⟩ := (quotationLength_append_break hb rest).2 hm
    rw [List.length_drop] at hle
    exact ⟨⟨m, hm', rfl⟩, by omega⟩

theorem append_break_ne_cons {d : Char} (hd : d ∈ marks) {rest w : List Char}
    (h : ∀ w', w ≠ d :: w') (w' : List Char) : w ++ b :: rest ≠ d :: w' := by
  intro he
  cases w with
  | nil => exact ne_of_isBreak hb d hd (List.cons.inj he).1
  | cons c w => exact h w (by rw [(List.cons.inj he).1])

/-- No gap ends in front of a break. -/
theorem lt_of_gap_break {g : Gap} {passed n : Nat} {rest : List Char}
    (h : gap g passed (b :: rest) = .ok n) : passed < n := by
  have hslash := ne_of_isBreak hb '/' (by decide)
  have hstar := ne_of_isBreak hb '*' (by decide)
  cases g with
  | line => exact le_of_gap h
  | block opened =>
    rw [gap] at h
    · exact le_of_gap h
    · exact fun _ hc _ => hstar hc
  | plain =>
    rw [gap] at h
    · split_ifs at h with hblank hline
      · exact le_of_gap h
      · exact le_of_gap h
      · simp [isBreak, hblank, hline] at hb
    · exact fun _ hc _ => hslash hc

/-- A gap in front of a break stops where it did, or it goes on with the break. -/
theorem gap_append_break (g : Gap) (passed : Nat) (w rest : List Char) :
    (∃ n < passed + w.length, gap g passed w = .ok n ∧ gap g passed (w ++ b :: rest) = .ok n) ∨
      ∃ g', gap g passed w = gap g' (passed + w.length) [] ∧
        gap g passed (w ++ b :: rest) = gap g' (passed + w.length) (b :: rest) := by
  have hbehind : ∀ {d}, d ∈ marks → ∀ {w : List Char}, (∀ w', w ≠ d :: w') →
      ∀ w', w ++ b :: rest ≠ d :: w' := fun hd _ => append_break_ne_cons hb hd
  fun_induction gap g passed w with
  | case1 passed opened => exact .inr ⟨.block opened, by simp [gap], rfl⟩
  | case2 passed => exact .inr ⟨.plain, by simp [gap], rfl⟩
  | case3 passed => exact .inr ⟨.line, by simp [gap], rfl⟩
  | case4 passed c w ih =>
    rw [add_length_cons]
    exact ih
  | case5 opened passed w ih =>
    rw [add_length_cons, add_length_cons]
    exact ih
  | case6 opened passed c w hend ih =>
    rw [add_length_cons, List.cons_append, gap]
    · exact ih
    · exact fun w' hc => hbehind (by decide) (fun v => hend v hc) w'
  | case7 passed w ih =>
    rw [add_length_cons, add_length_cons]
    exact ih
  | case8 passed c w hopen hblank ih =>
    rw [add_length_cons, List.cons_append, gap, if_pos hblank]
    · exact ih
    · exact fun w' hc => hbehind (by decide) (fun v => hopen v hc) w'
  | case9 passed c w hopen hblank hline ih =>
    rw [add_length_cons, List.cons_append, gap, if_neg hblank,
      if_pos hline]
    · exact ih
    · exact fun w' hc => hbehind (by decide) (fun v => hopen v hc) w'
  | case10 passed c w hopen hblank hline =>
    refine .inl ⟨passed, by simp, rfl, ?_⟩
    rw [List.cons_append, gap, if_neg hblank, if_neg hline]
    exact fun w' hc => hbehind (by decide) (fun v => hopen v hc) w'

end

/-- A gap in front of a line break stops where it did, or goes on behind the break. -/
theorem gap_append_newline {g : Gap} {passed n : Nat} {w : List Char} (h : gap g passed w = .ok n)
    (rest : List Char) :
    (n < passed + w.length ∧ gap g passed (w ++ '\n' :: rest) = .ok n) ∨
      (n = passed + w.length ∧
        gap g passed (w ++ '\n' :: rest) = gap .plain (passed + w.length + 1) rest) := by
  rcases gap_append_break isBreak_newline g passed w rest with ⟨m, hm, hw, happ⟩ | ⟨g', hw, happ⟩
  · obtain rfl := Except.ok.inj (hw.symm.trans h)
    exact .inl ⟨hm, happ⟩
  · rw [h] at hw
    have hblank : Text.isBlank '\n' = true := by
      rw [Text.isBlank_eq]
      decide
    cases g' with
    | block opened => cases hw
    | line => exact .inr ⟨Except.ok.inj hw, by rw [happ, gap]; rfl⟩
    | plain => exact .inr ⟨Except.ok.inj hw, by rw [happ, gap, if_pos hblank]; simp⟩

end Lexeme

end Clausal
