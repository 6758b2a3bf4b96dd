import Clausal.Proofs.UnitSpans
import Mathlib.Data.List.DropRight
import Mathlib.Data.List.Infix

/-!
# Quotations between braces

The scanner looks for the end of a quotation by counting runs of braces; what is quoted is found by counting
braces from both ends. Both agree on every text between braces that does not lengthen their runs, and
whatever the scanner takes for a quotation has enough braces on either side.
-/
namespace Clausal

open Quotation (openBrace closeBrace)

/-- A run at the front of two texts lies in the first, or takes up all of it and goes on in the second. -/
theorem run_isPrefix_append {a : Char} {n : Nat} {d more : List Char}
    (h : List.replicate n a <+: d ++ more) :
    List.replicate n a <+: d ∨ d = List.replicate d.length a ∧ more.head? = some a := by
  rcases Nat.lt_or_ge d.length n with hlt | hle
  · have hd : d <+: List.replicate n a :=
      List.prefix_of_prefix_length_le (List.prefix_append d more) h (by simpa using hlt.le)
    have hall := (List.prefix_replicate_iff.1 hd).2
    refine .inr ⟨hall, ?_⟩
    obtain ⟨m, rfl⟩ := Nat.exists_eq_add_of_lt hlt
    rw [Nat.add_assoc, ← List.replicate_append_replicate, ← hall, List.prefix_append_right_inj] at h
    obtain ⟨rest, rfl⟩ := h
    rfl
  · exact .inl (List.prefix_of_prefix_length_le h (List.prefix_append d more) (by simpa using hle))

theorem forall_mem_run {a : Char} {n : Nat} : ∀ c ∈ List.replicate n a, (c == a) = true :=
  fun c hc => by rw [List.eq_of_mem_replicate hc, beq_self_eq_true]

/-- A run that is not lengthened by what stands behind it is counted as a whole. -/
theorem takeWhile_run {a : Char} (n : Nat) {text : List Char} (h : text.head? ≠ some a) :
    (List.replicate n a ++ text).takeWhile (· == a) = List.replicate n a := by
  rw [List.takeWhile_append_of_pos forall_mem_run, List.takeWhile_eq_nil_iff.2, List.append_nil]
  intro hpos
  cases text with
  | nil => cases hpos
  | cons c text => simpa using h

/-- What begins in front of a run of another character does not begin with this one. -/
theorem head?_append_run {a b : Char} (hab : b ≠ a) {n : Nat} (hn : 0 < n) {d : List Char}
    (h : d.head? ≠ some a) (more : List Char) : (d ++ (List.replicate n b ++ more)).head? ≠ some a := by
  obtain ⟨m, rfl⟩ := Nat.exists_eq_add_one_of_ne_zero (Nat.pos_iff_ne_zero.1 hn)
  cases d with
  | nil => simpa [List.replicate_succ] using hab
  | cons c d => exact h

/-- The text, between runs of `n` braces. -/
def enclosed (n : Nat) (d : List Char) : List Char :=
  List.replicate n openBrace ++ d ++ List.replicate n closeBrace

/-- No run of `n` equal braces lies in the text, and its ends do not lengthen the runs around it. -/
structure Enclosable (n : Nat) (d : List Char) : Prop where
  opens : ¬ List.replicate n openBrace <:+: d
  closes : ¬ List.replicate n closeBrace <:+: d
  head : d.head? ≠ some openBrace
  last : d.getLast? ≠ some closeBrace

theorem enclosable_iff {n : Nat} {d : List Char} : Enclosable n d ↔
    ¬ List.replicate n openBrace <:+: d ∧ ¬ List.replicate n closeBrace <:+: d ∧
      d.head? ≠ some openBrace ∧ d.getLast? ≠ some closeBrace :=
  ⟨fun h => ⟨h.opens, h.closes, h.head, h.last⟩, fun h => ⟨h.1, h.2.1, h.2.2.1, h.2.2.2⟩⟩

instance (n : Nat) (d : List Char) : Decidable (Enclosable n d) := decidable_of_iff' _ enclosable_iff

namespace Lexeme

theorem startsWithRun_iff {c : Char} {n : Nat} {text : List Char} :
    startsWithRun c n text = true ↔ List.replicate n c <+: text := by
  rw [startsWithRun, beq_iff_eq, List.prefix_iff_eq_take, List.length_replicate, eq_comm]

/-- What is left of a run is passed over. -/
theorem quotationLength_skip (n depth : Nat) (run text : List Char) :
    quotationLength n depth run.length (run ++ text) =
      (quotationLength n depth 0 text).map (· + run.length) := by
  induction run with
  | nil => simp
  | cons c run ih =>
    rw [List.length_cons, List.cons_append, quotationLength, ih, Option.map_map]
    rfl

/-- The closing run ends a quotation that is open once, whatever stands behind it. -/
theorem quotationLength_closes {n : Nat} (hn : 0 < n) (more : List Char) :
    quotationLength n 1 0 (List.replicate n closeBrace ++ more) = some n := by
  obtain ⟨m, rfl⟩ := Nat.exists_eq_add_one_of_ne_zero (Nat.pos_iff_ne_zero.1 hn)
  have hrun : startsWithRun '\x7d' (m + 1) (List.replicate (m + 1) closeBrace ++ more) = true :=
    startsWithRun_iff.2 (List.prefix_append _ _)
  have hskip := quotationLength_skip (m + 1) 0 (List.replicate m closeBrace) more
  rw [List.length_replicate] at hskip
  rw [List.replicate_succ, List.cons_append] at hrun ⊢
  rw [quotationLength, if_pos hrun, Nat.add_sub_cancel, hskip, quotationLength, Option.map_some,
    Option.map_some, Nat.zero_add]

/-- A text without runs of braces is passed over up to the closing run. The induction is on what is left of
it: its front may be cut off, its end must not be a closing brace. -/
theorem quotationLength_enclosed {n : Nat} (hn : 0 < n) {d : List Char}
    (hopens : ¬ List.replicate n openBrace <:+: d) (hcloses : ¬ List.replicate n closeBrace <:+: d)
    (hlast : d.getLast? ≠ some closeBrace) (more : List Char) :
    quotationLength n 1 0 (d ++ (List.replicate n closeBrace ++ more)) = some (d.length + n) := by
  induction d with
  | nil => rw [List.nil_append, quotationLength_closes hn, List.length_nil, Nat.zero_add]
  | cons c d ih =>
    obtain ⟨m, rfl⟩ := Nat.exists_eq_add_one_of_ne_zero (Nat.pos_iff_ne_zero.1 hn)
    have hopen : ¬ startsWithRun '\x7b' (m + 1)
        (c :: (d ++ (List.replicate (m + 1) closeBrace ++ more))) = true := by
      rw [startsWithRun_iff]
      intro hrun
      rcases run_isPrefix_append (d := c :: d) hrun with hin | ⟨-, hhead⟩
      · exact hopens hin.isInfix
      · exact absurd hhead (by simp [List.replicate_succ, closeBrace])
    have hclose : ¬ startsWithRun '\x7d' (m + 1)
        (c :: (d ++ (List.replicate (m + 1) closeBrace ++ more))) = true := by
      rw [startsWithRun_iff]
      intro hrun
      rcases run_isPrefix_append (d := c :: d) hrun with hin | ⟨hall, -⟩
      · exact hcloses hin.isInfix
      · exact hlast (by rw [hall]; simp [List.getLast?_replicate, closeBrace])
    have hlast' : d.getLast? ≠ some closeBrace := fun h =>
      hlast (by rw [List.getLast?_cons, h, Option.getD_some])
    have hrest := ih (fun h => hopens (h.trans (List.suffix_cons c d).isInfix))
      (fun h => hcloses (h.trans (List.suffix_cons c d).isInfix)) hlast'
    rw [List.cons_append, quotationLength, if_neg hclose, if_neg hopen, hrest, Option.map_some,
      List.length_cons, Nat.add_right_comm]

theorem quotation_enclosed {n : Nat} (hn : 0 < n) {d : List Char} (h : Enclosable n d) (more : List Char) :
    quotation (enclosed n d ++ more) = some (enclosed n d).length := by
  have hsplit : enclosed n d ++ more =
      List.replicate n openBrace ++ (d ++ (List.replicate n closeBrace ++ more)) := by
    simp [enclosed]
  have hopens : (List.replicate n openBrace ++
      (d ++ (List.replicate n closeBrace ++ more))).takeWhile (· == '\x7b') = List.replicate n openBrace :=
    takeWhile_run n (head?_append_run (by decide) hn h.head more)
  have hdrop : (List.replicate n openBrace ++ (d ++ (List.replicate n closeBrace ++ more))).drop n =
      d ++ (List.replicate n closeBrace ++ more) := List.drop_left' (List.length_replicate)
  rw [hsplit, quotation, hopens, List.length_replicate, hdrop, quotationLength_enclosed hn h.opens h.closes h.last]
  simp [enclosed]

end Lexeme

/-- What is enclosed is a token in front of anything. -/
theorem begins_enclosed {n : Nat} (hn : 2 ≤ n) {d : List Char} (h : Enclosable n d) (more : List Char) :
    Begins (enclosed n d ++ more) (.quotation (String.ofList (enclosed n d))) (enclosed n d).length := by
  obtain ⟨m, rfl⟩ := Nat.exists_eq_add_of_le' hn
  have hlength := Lexeme.quotation_enclosed (Nat.succ_pos _) h more
  have hcons : ∃ w, enclosed (m + 2) d ++ more = '\x7b' :: '\x7b' :: w :=
    ⟨_, by rw [enclosed, List.replicate_succ, List.replicate_succ]; rfl⟩
  obtain ⟨w, hw⟩ := hcons
  refine ⟨?_, fun k hk => ?_⟩
  · rw [hw]
    exact Lexeme.gap_zero (by rw [Text.isBlank_eq]; decide) (by decide) (by simp)
  · have hitem : k.item = k.takeQuotation := by
      rw [Cursor.item, hk, hw]
      rfl
    rw [hitem, Cursor.takeQuotation, hk, hlength]
    simp only [List.take_left']

namespace Lexeme

/-- Behind the last closing run there is only its own rest. -/
theorem eq_skip_of_quotationLength {n skip length : Nat} {text : List Char}
    (h : quotationLength n 0 skip text = some length) : length = skip := by
  induction skip generalizing text length with
  | zero =>
    rw [quotationLength] at h
    exact (Option.some.inj h).symm
  | succ skip ih =>
    cases text with
    | nil => cases h
    | cons c text =>
      rw [quotationLength] at h
      obtain ⟨m, hm, rfl⟩ := Option.map_eq_some_iff.1 h
      rw [ih hm]

/-- What is closed ends with a closing run. -/
theorem closes_of_quotationLength {n depth skip length : Nat} {text : List Char} (hn : 0 < n)
    (hdepth : depth ≠ 0) (h : quotationLength n depth skip text = some length) :
    List.replicate n closeBrace <:+ text.take length := by
  have hcons : ∀ {c : Char} {rest : List Char} {m : Nat}, List.replicate n closeBrace <:+ rest.take m →
      List.replicate n closeBrace <:+ (c :: rest).take (m + 1) := fun hrest => by
    rw [List.take_succ_cons]
    exact hrest.trans (List.suffix_cons _ _)
  fun_induction quotationLength n depth skip text generalizing length with
  | case1 => exact absurd rfl hdepth
  | case2 => cases h
  | case3 depth skip c rest ih =>
    obtain ⟨m, hm, rfl⟩ := Option.map_eq_some_iff.1 h
    exact hcons (ih hdepth hm)
  | case4 depth c rest hrun ih =>
    obtain ⟨m, hm, rfl⟩ := Option.map_eq_some_iff.1 h
    by_cases hzero : depth = 0
    · subst hzero
      rw [eq_skip_of_quotationLength hm, Nat.sub_add_cancel hn]
      rw [startsWithRun, beq_iff_eq] at hrun
      rw [hrun]
      exact List.suffix_rfl
    · exact hcons (ih hzero hm)
  | case5 depth c rest hclose hopen ih =>
    obtain ⟨m, hm, rfl⟩ := Option.map_eq_some_iff.1 h
    exact hcons (ih (Nat.succ_ne_zero _) hm)
  | case6 depth c rest hclose hopen ih =>
    obtain ⟨m, hm, rfl⟩ := Option.map_eq_some_iff.1 h
    exact hcons (ih (Nat.succ_ne_zero _) hm)

/-- What is taken has the counted braces in front and no fewer behind. -/
theorem braces_of_quotation {n length : Nat} (hn : 0 < n) {rest : List Char}
    (hrest : rest.head? ≠ some openBrace)
    (h : quotation (List.replicate n openBrace ++ rest) = some length) :
    ∃ inner, (List.replicate n openBrace ++ rest).take length = List.replicate n openBrace ++ inner ∧
      inner.head? ≠ some openBrace ∧ List.replicate n closeBrace <:+ inner := by
  have hopens : (List.replicate n openBrace ++ rest).takeWhile (· == '\x7b') = List.replicate n openBrace :=
    takeWhile_run n hrest
  have hdrop : (List.replicate n openBrace ++ rest).drop n = rest := List.drop_left' List.length_replicate
  rw [quotation, hopens, List.length_replicate, hdrop] at h
  obtain ⟨m, hm, rfl⟩ := Option.map_eq_some_iff.1 h
  have hcloses := closes_of_quotationLength hn Nat.one_ne_zero hm
  refine ⟨rest.take m, ?_, ?_, hcloses⟩
  · rw [List.take_append, List.length_replicate, Nat.add_sub_cancel_left, List.take_of_length_le]
    rw [List.length_replicate]
    exact Nat.le_add_right n m
  · have hm0 : m ≠ 0 := by
      rintro rfl
      have hle := hcloses.length_le
      rw [List.take_zero, List.length_replicate, List.length_nil] at hle
      omega
    rwa [List.head?_take, if_neg hm0]

end Lexeme

/-- A text is a run of a character and something that does not begin with this one. -/
theorem exists_run (a : Char) (text : List Char) :
    ∃ n rest, text = List.replicate n a ++ rest ∧ rest.head? ≠ some a := by
  induction text with
  | nil => exact ⟨0, [], rfl, by simp⟩
  | cons c text ih =>
    by_cases hc : c = a
    · obtain ⟨n, rest, hrun, hrest⟩ := ih
      exact ⟨n + 1, rest, by rw [hc, hrun, List.replicate_succ, List.cons_append], hrest⟩
    · exact ⟨0, c :: text, rfl, by simpa using hc⟩

namespace Cursor

variable {k : Cursor} {raw : String}

theorem single?_ne_quotation (c : Char) (raw : String) : single? c ≠ some (.quotation raw) := by
  unfold single?
  split <;> simp

theorem item_quotation (h : k.item.1.kind? = some (.quotation raw)) :
    ∃ length rest, Lexeme.quotation k.rest = some length ∧ raw = String.ofList (k.rest.take length) ∧
      k.rest = openBrace :: openBrace :: rest := by
  have hscans := k.scans_item
  generalize k.item = x at h hscans
  cases hscans with
  | quotation text closed =>
    exact ⟨_, _, closed, (TokenKind.quotation.inj (kind_of_take h)).symm, text⟩
  | endOfInput | stop | name | macroName | string | symbols => cases kind_of_take h
  | openQuotation | openString | unknownEscape | unexpected => cases h
  | single _ _ alone =>
    rw [kind_of_take h] at alone
    exact absurd alone (single?_ne_quotation _ raw)
  | number =>
    have hkind := kind_of_take h
    split at hkind <;> cases hkind

/-- The token of a quotation is what the scanner has taken at a run of opening braces. -/
theorem quotation_of_next (h : k.next.1.kind? = some (.quotation raw)) :
    ∃ n rest length, 2 ≤ n ∧ rest.head? ≠ some openBrace ∧
      Lexeme.quotation (List.replicate n openBrace ++ rest) = some length ∧
      raw = String.ofList ((List.replicate n openBrace ++ rest).take length) := by
  obtain ⟨m, -, hnext⟩ := next_of_kind? h
  rw [hnext] at h
  obtain ⟨length, rest, hlength, hraw, htext⟩ := item_quotation h
  obtain ⟨n, rest, rfl, hrest⟩ := exists_run openBrace rest
  have hrun : (k.advance m).rest = List.replicate (n + 2) openBrace ++ rest := by
    rw [htext, List.replicate_succ, List.replicate_succ, List.cons_append, List.cons_append]
  rw [hrun] at hlength hraw
  exact ⟨n + 2, rest, length, Nat.le_add_left 2 n, hrest, hlength, hraw⟩

end Cursor

namespace Quotation

theorem after?_append (word text : List Char) : after? word (word ++ text) = some text := by
  induction word with
  | nil => rfl
  | cons w word ih => rw [List.cons_append, after?, if_pos rfl, ih]

theorem after?_eq_none {word text : List Char} (h : ¬ word <+: text) : after? word text = none := by
  cases hafter : after? word text with
  | none => rfl
  | some rest => exact absurd ⟨rest, (after?_eq_some hafter).symm⟩ h

section

variable {n : Nat} {d : List Char}

theorem opens_enclosed (hn : 0 < n) (h : Enclosable n d) :
    (enclosed n d).takeWhile (· == openBrace) = List.replicate n openBrace := by
  have hhead := head?_append_run (a := openBrace) (b := closeBrace) (by decide) hn h.head []
  rw [List.append_nil] at hhead
  rw [enclosed, List.append_assoc, takeWhile_run n hhead]

theorem closes_enclosed (hn : 0 < n) (h : Enclosable n d) :
    (enclosed n d).reverse.takeWhile (· == closeBrace) = List.replicate n closeBrace := by
  have hlast : d.reverse.head? ≠ some closeBrace := by
    rw [List.head?_reverse]
    exact h.last
  have hhead := head?_append_run (a := closeBrace) (b := openBrace) (by decide) hn hlast []
  rw [List.append_nil] at hhead
  rw [enclosed, List.reverse_append, List.reverse_append, List.reverse_replicate, List.reverse_replicate,
    takeWhile_run n hhead]

theorem length_enclosed (n : Nat) (d : List Char) : (enclosed n d).length = d.length + 2 * n := by
  simp only [enclosed, List.length_append, List.length_replicate]
  omega

theorem between_enclosed (n : Nat) (d : List Char) :
    ((enclosed n d).drop n).take ((enclosed n d).length - 2 * n) = d := by
  rw [length_enclosed, Nat.add_sub_cancel, enclosed, List.append_assoc,
    List.drop_left' List.length_replicate, List.take_left]

theorem ofRaw_plain (hn : 2 ≤ n) (h : Enclosable n d)
    (hkind : ¬ "kind:".toList <+: d.dropWhile Text.isBlank) (span : Span) :
    ofRaw span (enclosed n d) = .ok ⟨String.ofList d, span.strip n n, none⟩ := by
  have hpos : 0 < n := Nat.zero_lt_of_lt hn
  unfold ofRaw
  dsimp only
  rw [opens_enclosed hpos h, closes_enclosed hpos h, List.length_replicate, List.length_replicate,
    if_neg (by rw [length_enclosed]; omega), between_enclosed, after?_eq_none hkind]

theorem ofRaw_kind (hn : 2 ≤ n) {kind body : List Char} {c : Char}
    (h : Enclosable n ("kind:".toList ++ (kind ++ c :: body))) (hne : kind ≠ [])
    (hkind : ∀ k ∈ kind, k ≠ ' ' ∧ k ≠ '\n') (hc : c = ' ' ∨ c = '\n') (span : Span) :
    ∃ s, ofRaw span (enclosed n ("kind:".toList ++ (kind ++ c :: body))) =
      .ok ⟨String.ofList (body.rdropWhile Text.isBlank), s, some (String.ofList kind)⟩ := by
  have hpos : 0 < n := Nat.zero_lt_of_lt hn
  have hin : ∀ k ∈ kind, (k != ' ' && k != '\n') = true := fun k hk => by simpa using hkind k hk
  have hout : (c != ' ' && c != '\n') = false := by rcases hc with rfl | rfl <;> rfl
  have hblank : ("kind:".toList ++ (kind ++ c :: body)).dropWhile Text.isBlank =
      "kind:".toList ++ (kind ++ c :: body) := by
    have hk : Text.isBlank 'k' = false := by
      rw [Text.isBlank_eq]
      decide
    have hword : "kind:".toList = 'k' :: "ind:".toList := rfl
    rw [hword, List.cons_append, List.dropWhile_cons_of_neg (by simp [hk])]
  have htake : (kind ++ c :: body).takeWhile (fun k => k != ' ' && k != '\n') = kind := by
    rw [List.takeWhile_append_of_pos hin, List.takeWhile_cons_of_neg (by simp [hout]), List.append_nil]
  have hdrop : (kind ++ c :: body).dropWhile (fun k => k != ' ' && k != '\n') = c :: body := by
    rw [List.dropWhile_append_of_pos hin, List.dropWhile_cons_of_neg (by simp [hout])]
  unfold ofRaw
  dsimp only
  rw [opens_enclosed hpos h, closes_enclosed hpos h, List.length_replicate, List.length_replicate,
    if_neg (by rw [length_enclosed]; omega), between_enclosed, hblank, after?_append]
  dsimp only
  rw [htake, hdrop]
  dsimp only
  rw [if_neg (by simpa using hne)]
  exact ⟨_, rfl⟩

end

end Quotation

/-- Enough braces on either side are not refused. -/
theorem Quotation.ofRaw_ne_delimiters {n : Nat} (hn : 2 ≤ n) {inner : List Char}
    (hhead : inner.head? ≠ some openBrace) (hcloses : List.replicate n closeBrace <:+ inner) (span : Span) :
    ofRaw span (List.replicate n openBrace ++ inner) ≠ .error .quotationDelimiters := by
  have hopens : ((List.replicate n openBrace ++ inner).takeWhile (· == openBrace)).length = n := by
    rw [takeWhile_run n hhead, List.length_replicate]
  have hclosing : n ≤ ((List.replicate n openBrace ++ inner).reverse.takeWhile (· == closeBrace)).length := by
    obtain ⟨front, rfl⟩ := hcloses
    rw [List.reverse_append, List.reverse_append, List.reverse_replicate, List.append_assoc,
      List.takeWhile_append_of_pos forall_mem_run, List.length_append, List.length_replicate]
    exact Nat.le_add_right _ _
  have hle := braces_le (List.replicate n openBrace ++ inner)
  unfold ofRaw
  dsimp only
  rw [hopens] at hle ⊢
  rw [if_neg (by omega)]
  split
  · simp
  · split
    · simp
    · split_ifs <;> simp

/-- A text between `n` braces on either side is one token in front of anything. -/
theorem Cursor.next_enclosed {n : Nat} {d more : List Char} (hn : 2 ≤ n) (hd : Enclosable n d) {k : Cursor}
    (hk : k.rest = enclosed n d ++ more) :
    k.next.1 = .token ⟨.quotation (String.ofList (enclosed n d)), k.spanOver (enclosed n d)⟩ ∧
      k.next.2.rest = more := by
  have hnext := (begins_enclosed hn hd more).next hk
  rwa [List.take_left, List.drop_left] at hnext

/-- A quotation that the scanner finds is not refused for its braces. -/
theorem Token.WrittenIn.ofQuotation_ne_delimiters {u : Source} {t : Token} {raw : String} (ht : t.WrittenIn u)
    (hraw : t.kind = .quotation raw) (span : Span) :
    Term.ofQuotation t.span raw ≠ .error (.malformed span .quotationDelimiters) := by
  obtain ⟨m, hm⟩ := ht
  rw [Source.get_scan] at hm
  have hkind : ((Cursor.initial u.name u.text).past m).next.1.kind? = some (.quotation raw) := by
    rw [hm, ← hraw]
    rfl
  obtain ⟨n, rest, length, hn, hrest, hlength, rfl⟩ := Cursor.quotation_of_next hkind
  obtain ⟨inner, hinner, hhead, hcloses⟩ :=
    Lexeme.braces_of_quotation (Nat.zero_lt_of_lt hn) hrest hlength
  have hnot := Quotation.ofRaw_ne_delimiters hn hhead hcloses t.span
  rw [Term.ofQuotation, String.toList_ofList, hinner]
  split
  · simp
  · next fault hfault =>
    rintro ⟨rfl, rfl⟩
    exact hnot hfault

/-- The span of a quotation that the scanner finds names the bytes of its data. -/
theorem Token.WrittenIn.slice?_data {u : Source} {t : Token} {raw : String} (ht : t.WrittenIn u)
    (hraw : t.kind = .quotation raw) {q : Quotation} (hq : Term.ofQuotation t.span raw = .ok (.quoted q)) :
    slice? u.text q.span.start q.span.stop = some q.data := by
  rw [Term.ofQuotation] at hq
  split at hq
  · next q' hq' =>
    obtain rfl := Term.quoted.inj (Except.ok.inj hq)
    obtain ⟨front, opening, back, hcut⟩ := ht.cutFrom hraw hq'
    exact hcut.slice?
  · cases hq

/-- What is between `n` braces on either side is one token in front of anything, and the quotation made of
it holds just that, or what stands behind the kind up to the blanks at the end. A quotation that the
scanner finds in a text always has its braces, and its span names the bytes of the data. -/
theorem quotation_between_braces :
    (∀ (n : Nat) (d : List Char), 2 ≤ n → Enclosable n d →
      (∀ (k : Cursor) (more : List Char), k.rest = enclosed n d ++ more →
        k.next.1 = .token ⟨.quotation (String.ofList (enclosed n d)), k.spanOver (enclosed n d)⟩ ∧
          k.next.2.rest = more) ∧
      (¬ "kind:".toList <+: d.dropWhile Text.isBlank → ∀ span,
        Term.ofQuotation span (String.ofList (enclosed n d)) =
          .ok (.quoted ⟨String.ofList d, span.strip n n, none⟩)) ∧
      ∀ (kind body : List Char) (c : Char), d = "kind:".toList ++ (kind ++ c :: body) → kind ≠ [] →
        (∀ a ∈ kind, a ≠ ' ' ∧ a ≠ '\n') → (c = ' ' ∨ c = '\n') → ∀ span, ∃ s,
          Term.ofQuotation span (String.ofList (enclosed n d)) =
            .ok (.quoted ⟨String.ofList (body.rdropWhile Text.isBlank), s, some (String.ofList kind)⟩)) ∧
    ∀ (u : Source) (t : Token) (raw : String), t.WrittenIn u → t.kind = .quotation raw →
      (∀ span, Term.ofQuotation t.span raw ≠ .error (.malformed span .quotationDelimiters)) ∧
        ∀ q, Term.ofQuotation t.span raw = .ok (.quoted q) →
          slice? u.text q.span.start q.span.stop = some q.data := by
  constructor
  · refine fun n d hn hd => ⟨fun k more hk => Cursor.next_enclosed hn hd hk, fun hkind span => ?_,
      fun kind body c hinner hne hkind hc span => ?_⟩
    · rw [Term.ofQuotation, String.toList_ofList, Quotation.ofRaw_plain hn hd hkind]
    · obtain ⟨s, hs⟩ := Quotation.ofRaw_kind hn (hinner ▸ hd) hne hkind hc span
      exact ⟨s, by rw [Term.ofQuotation, String.toList_ofList, hinner, hs]⟩
  · exact fun u t raw ht hraw => ⟨ht.ofQuotation_ne_delimiters hraw, fun q hq => ht.slice?_data hraw hq⟩

/-- Braces within braces, and a stop behind. -/
def nestedQuotation : String := "\x7b\x7b\x7ba\x7b\x7bb\x7d\x7dc\x7d\x7d\x7d."

/-- A kind, a character of two bytes, and blanks behind it. -/
def taggedQuotation : String := "\x7b\x7bkind:elpi é \n\x7d\x7d."

theorem quotation_between_braces_nested :
    ((Cursor.initial "main" nestedQuotation).next.1 =
        .token ⟨.quotation "\x7b\x7b\x7ba\x7b\x7bb\x7d\x7dc\x7d\x7d\x7d", ⟨"main", 0, 13, 1, 0⟩⟩ ∧
      Term.ofQuotation ⟨"main", 0, 13, 1, 0⟩ "\x7b\x7b\x7ba\x7b\x7bb\x7d\x7dc\x7d\x7d\x7d" =
        .ok (.quoted ⟨"a\x7b\x7bb\x7d\x7dc", ⟨"main", 3, 10, 1, 0⟩, none⟩)) ∧
    ∃ s, Term.ofQuotation ⟨"main", 0, 18, 1, 0⟩ "\x7b\x7bkind:elpi é \n\x7d\x7d" =
        .ok (.quoted ⟨"é", s, some "elpi"⟩) ∧ slice? taggedQuotation s.start s.stop = some "é" := by
  obtain ⟨hbetween, hfound⟩ := quotation_between_braces
  constructor
  · obtain ⟨hnext, hplain, -⟩ := hbetween 3 "a\x7b\x7bb\x7d\x7dc".toList (by decide) (by decide +kernel)
    have hkind : ¬ "kind:".toList <+: ("a\x7b\x7bb\x7d\x7dc".toList).dropWhile Text.isBlank := by
      decide +kernel
    exact ⟨(hnext (.initial "main" nestedQuotation) ['.'] rfl).1, hplain hkind ⟨"main", 0, 13, 1, 0⟩⟩
  · obtain ⟨-, -, htagged⟩ := hbetween 2 "kind:elpi é \n".toList (by decide) (by decide +kernel)
    obtain ⟨s, hs⟩ := htagged "elpi".toList "é \n".toList ' ' rfl (by decide)
      (Lexeme.forall_mem_of_all (by decide)) (.inl rfl) ⟨"main", 0, 18, 1, 0⟩
    have hdata : String.ofList ("é \n".toList.rdropWhile Text.isBlank) = "é" := by decide +kernel
    have htoken : (⟨.quotation (String.ofList (enclosed 2 "kind:elpi é \n".toList)),
        ⟨"main", 0, 18, 1, 0⟩⟩ : Token).WrittenIn ⟨"main", taggedQuotation⟩ := ⟨0, by decide +kernel⟩
    have hslice := (hfound _ _ _ htoken rfl).2 _ hs
    rw [hdata] at hs hslice
    exact ⟨s, hs, hslice⟩

end Clausal
