import Clausal.Proofs.Breaks

/-!
# Items in front of a break

A token in front of a break is the same whatever stands behind the break. So a text is read the same in
front of a break and more text, up to its end.
-/
namespace Clausal

/-- The text that a token shows as it is written. -/
def TokenKind.written? : TokenKind → Option String
  | ident text | macroName text | symbolic text | int text | float text | quotation text => some text
  | _ => none

namespace Cursor

variable {k : Cursor}

/-- The cursor with more text behind its own. -/
def extend (k : Cursor) (more : List Char) : Cursor := { k with rest := k.rest ++ more }

theorem step_extend (h : k.rest ≠ []) (more : List Char) :
    (k.extend more).step = k.step.extend more := by
  obtain ⟨c, w, hc⟩ := List.exists_cons_of_ne_nil h
  simp only [step, extend, hc, List.cons_append]
  split_ifs <;> rfl

theorem advance_extend {n : Nat} (hn : n ≤ k.rest.length) (more : List Char) :
    (k.extend more).advance n = (k.advance n).extend more := by
  induction n generalizing k with
  | zero => rfl
  | succ n ih =>
    have hne : k.rest ≠ [] := by
      rintro h
      simp [h] at hn
    have hn' : n ≤ k.step.rest.length := by
      rw [rest_step, List.length_tail]
      omega
    rw [advance, advance, step_extend hne, ih hn']

theorem take_extend {kind : TokenKind} {n : Nat} (hn : n ≤ k.rest.length) (more : List Char) :
    (k.extend more).take kind n = ((k.take kind n).1, (k.take kind n).2.extend more) := by
  simp only [take, advance_extend hn]
  rfl

theorem single?_ne_endOfInput (c : Char) : single? c ≠ some .endOfInput := by
  unfold single?
  split <;> simp

theorem single?_written {c : Char} {kind : TokenKind} (h : single? c = some kind) {name : String}
    (hname : name ∈ kind.written?) : name = String.ofList [c] := by
  unfold single? at h
  split at h <;> cases h <;> simp_all [TokenKind.written?]

/-- A token is made of the first characters, of at least one. -/
theorem item_lexeme {t : Token} {after : Cursor} (h : k.item = (.token t, after)) (hk : k.rest ≠ []) :
    ∃ n, 0 < n ∧ n ≤ k.rest.length ∧ (.token t, after) = k.take t.kind n ∧ t.kind ≠ .endOfInput ∧
      ∀ name ∈ t.kind.written?, name = String.ofList (k.rest.take n) := by
  have htake : ∀ {kind n}, kind ≠ .endOfInput → 0 < n → n ≤ k.rest.length →
      (∀ name ∈ kind.written?, name = String.ofList (k.rest.take n)) →
      (.token t, after) = k.take kind n →
        ∃ n', 0 < n' ∧ n' ≤ k.rest.length ∧ (.token t, after) = k.take t.kind n' ∧
          t.kind ≠ .endOfInput ∧ ∀ name ∈ t.kind.written?, name = String.ofList (k.rest.take n') := by
    intro kind n hkind hpos hn hwritten ht
    obtain rfl : t.kind = kind := congrArg Token.kind (Item.token.inj (Prod.mk.inj ht).1)
    exact ⟨n, hpos, hn, ht, hkind, hwritten⟩
  -- A lexeme that is its own text is taken as it stands.
  have htext : ∀ {kind : String → TokenKind} {lexeme : List Char},
      (∀ text, kind text ≠ .endOfInput ∧ (kind text).written? = some text) → lexeme <+: k.rest →
      0 < lexeme.length → (.token t, after) = k.takeText kind lexeme →
        ∃ n', 0 < n' ∧ n' ≤ k.rest.length ∧ (.token t, after) = k.take t.kind n' ∧
          t.kind ≠ .endOfInput ∧ ∀ name ∈ t.kind.written?, name = String.ofList (k.rest.take n') := by
    intro kind lexeme hkind hprefix hpos ht
    refine htake (hkind _).1 hpos hprefix.length_le (fun name hname => ?_) ht
    rw [(hkind _).2, Option.mem_some_iff] at hname
    rw [← hname, ← List.prefix_iff_eq_take.1 hprefix]
  have hone : 1 ≤ k.rest.length := List.length_pos_iff.2 hk
  have hscans := k.scans_item
  generalize hx : k.item = x at hscans
  rw [h] at hx
  cases hscans with
  | endOfInput text => exact absurd text hk
  | openQuotation | openString | unknownEscape | unexpected => cases (Prod.mk.inj hx).1
  | stop text => exact htake (by simp) Nat.one_pos hone (by simp [TokenKind.written?]) hx
  | quotation text closed =>
    have hle := ((Lexeme.quotation_append_break Lexeme.isBreak_newline []).2 closed).2
    have hpos := Lexeme.quotation_pos (text ▸ closed)
    exact htake (by simp) hpos hle (by simp [TokenKind.written?]) hx
  | single text _ alone =>
    refine htake ?_ Nat.one_pos hone (fun name hname => ?_) hx
    · rintro rfl
      exact single?_ne_endOfInput _ alone
    · rw [text]
      exact single?_written alone hname
  | name text start =>
    exact htext (fun _ => ⟨by simp, rfl⟩) (text ▸ Lexeme.name_isPrefix _) (Lexeme.name_pos start _) hx
  | macroName text =>
    refine htext (fun _ => ⟨by simp, rfl⟩) ?_ (by simp) hx
    exact text ▸ List.cons_prefix_cons.2 ⟨rfl, Lexeme.name_isPrefix _⟩
  | @number c rest text digit =>
    refine htext (fun text => ?_) (text ▸ Lexeme.number_isPrefix _) (Lexeme.number_pos digit _) hx
    cases (Lexeme.number (c :: rest)).isFloat <;> exact ⟨by simp, rfl⟩
  | string text closed =>
    have hle := ((Lexeme.stringBody_append rfl []).2 closed).2
    refine htake (by simp) (Nat.succ_pos _) ?_ (by simp [TokenKind.written?]) hx
    rw [text]
    exact Nat.succ_le_succ hle
  | symbols text =>
    refine htext (fun _ => ⟨by simp, rfl⟩) ?_ (by simp) hx
    exact text ▸ List.cons_prefix_cons.2 ⟨rfl, Lexeme.symbols_isPrefix _⟩

/-- A token leaves less text. -/
theorem item_of_token {t : Token} {after : Cursor} (h : k.item = (.token t, after)) (hk : k.rest ≠ []) :
    t.kind ≠ .endOfInput ∧ after.rest.length < k.rest.length := by
  obtain ⟨n, hpos, hle, htake, hkind, -⟩ := item_lexeme h hk
  refine ⟨hkind, ?_⟩
  rw [(Prod.mk.inj htake).2, rest_advance, List.length_drop]
  omega

end Cursor

/-- The text ends before what has begun does. -/
def ScanFault.breaksOff : ScanFault → Bool
  | unterminatedComment | unterminatedString | unterminatedQuotation => true
  | _ => false

/-- The end of the text is found. -/
def Item.meetsEnd : Item → Bool
  | .token t => t.kind = .endOfInput
  | .fault e => e.fault.breaksOff

namespace Cursor

variable {k : Cursor}

/-- What is read from the front of a text, and what is read from there with more text behind. It is
the same unless the end of the text is met; then some of what is behind is read as well. -/
def Prolongs (more : List Char) (x y : Item × Cursor) : Prop :=
  if x.1.meetsEnd then y.2.rest.length < more.length else y = (x.1, x.2.extend more)

theorem prolongs_of_goesOn {more : List Char} {x y : Item × Cursor} (hx : x.1.meetsEnd = false)
    (h : y = (x.1, x.2.extend more)) : Prolongs more x y := by
  rw [Prolongs, hx]
  exact h

theorem prolongs_of_meetsEnd {more : List Char} {x y : Item × Cursor} (hx : x.1.meetsEnd = true)
    (h : y.2.rest.length < more.length) : Prolongs more x y := by
  rw [Prolongs, hx]
  exact h

theorem prolongs_take {kind : TokenKind} {n : Nat} (hkind : kind ≠ .endOfInput) (hn : n ≤ k.rest.length)
    (more : List Char) : Prolongs more (k.take kind n) ((k.extend more).take kind n) :=
  prolongs_of_goesOn (decide_eq_false hkind) (take_extend hn more)

theorem prolongs_refuse {a : Span} {fault : ScanFault} {n : Nat} (hfault : fault.breaksOff = false)
    (hn : n ≤ k.rest.length) (more : List Char) :
    Prolongs more (k.refuse a fault n) ((k.extend more).refuse a fault n) := by
  refine prolongs_of_goesOn hfault ?_
  rw [refuse, advance_extend hn]
  rfl

/-- With more characters read than there are in front, the break is read. -/
theorem rest_advance_lt {n : Nat} (hn : k.rest.length < n) (b : Char) (rest : List Char) :
    ((k.extend (b :: rest)).advance n).rest.length < (b :: rest).length := by
  simp only [rest_advance, extend, List.length_drop, List.length_append, List.length_cons]
  omega

variable {b : Char} (rest : List Char)

theorem prolongs_takeString {c : Char} {w : List Char} (hk : k.rest = c :: w) :
    Prolongs (b :: rest) (k.takeString w) ((k.extend (b :: rest)).takeString (w ++ b :: rest)) := by
  have hlength : k.rest.length = w.length + 1 := by rw [hk, List.length_cons]
  cases hbody : Lexeme.stringBody w with
  | closed text n =>
    obtain ⟨hbody', hle⟩ := (Lexeme.stringBody_append rfl (b :: rest)).2 hbody
    rw [takeString, takeString, hbody, hbody']
    exact prolongs_take (by simp) (by omega) _
  | unknownEscape e n =>
    obtain ⟨hbody', hle⟩ := (Lexeme.stringBody_append rfl (b :: rest)).2 hbody
    rw [takeString, takeString, hbody, hbody']
    dsimp only
    rw [advance_extend (by omega)]
    exact prolongs_refuse rfl (by omega) _
  | unterminated =>
    -- What ends within the text would have ended there without the rest.
    have hbeyond : ∀ {n}, n ∈ (Lexeme.stringBody (w ++ b :: rest)).length? → w.length < n := by
      intro n hn
      by_contra hle
      have hw := (Lexeme.stringBody_append hn (b :: rest)).1 ⟨rfl, Nat.le_of_not_lt hle⟩
      rw [← hw, hbody] at hn
      cases hn
    rw [takeString, takeString, hbody]
    refine prolongs_of_meetsEnd rfl ?_
    cases hbody' : Lexeme.stringBody (w ++ b :: rest) with
    | closed text n | unknownEscape e n =>
      have hlt := hbeyond (n := n) (by rw [hbody']; rfl)
      exact rest_advance_lt (by omega) b rest
    | unterminated =>
      refine rest_advance_lt ?_ b rest
      simp [extend]

variable (hb : Lexeme.isBreak b = true)
include hb

theorem prolongs_takeQuotation :
    Prolongs (b :: rest) k.takeQuotation (k.extend (b :: rest)).takeQuotation := by
  cases hq : Lexeme.quotation k.rest with
  | some n =>
    obtain ⟨hq', hle⟩ := (Lexeme.quotation_append_break hb rest).2 hq
    have hq'' : Lexeme.quotation (k.extend (b :: rest)).rest = some n := hq'
    rw [takeQuotation, takeQuotation, hq, hq'']
    dsimp only
    rw [extend, List.take_append_of_le_length hle]
    exact prolongs_take (by simp) hle _
  | none =>
    rw [takeQuotation, takeQuotation, hq]
    refine prolongs_of_meetsEnd rfl ?_
    cases hq' : Lexeme.quotation (k.extend (b :: rest)).rest with
    | some n =>
      refine rest_advance_lt (Nat.lt_of_not_le fun hle => ?_) b rest
      have hq'' := (Lexeme.quotation_append_break hb rest).1 ⟨hq', hle⟩
      rw [hq] at hq''
      cases hq''
    | none =>
      refine rest_advance_lt ?_ b rest
      simp [extend]

theorem prolongs_item (hk : k.rest ≠ []) :
    Prolongs (b :: rest) k.item (k.extend (b :: rest)).item := by
  obtain ⟨c, w, hc⟩ := List.exists_cons_of_ne_nil hk
  have hrest : (k.extend (b :: rest)).rest = c :: (w ++ b :: rest) := by
    rw [extend, hc, List.cons_append]
  have hbrace : Lexeme.startsWith (· == '\x7b') (w ++ b :: rest) = Lexeme.startsWith (· == '\x7b') w :=
    Lexeme.startsWith_append_break rest (p := (· == '\x7b')) (Lexeme.beq_break hb (by decide)) w
  have hstart := Lexeme.startsWith_append_break rest (Lexeme.isNameStart_of_isBreak hb) w
  have hname := Lexeme.name_append (c :: w) (Lexeme.endsWord_break hb rest)
  have hnumber := Lexeme.number_append_break hb rest (c :: w)
  rw [List.cons_append] at hname hnumber
  rw [item, item, hrest, hc]
  dsimp only
  rw [Lexeme.endsDeclaration_append_break hb, hbrace, hstart, hname, hnumber,
    Lexeme.name_append w (Lexeme.endsWord_break hb rest), Lexeme.symbols_append_break hb]
  have hone : 1 ≤ k.rest.length := List.length_pos_iff.2 hk
  have htext : ∀ {kind : String → TokenKind} {lexeme : List Char}, (∀ text, kind text ≠ .endOfInput) →
      lexeme <+: c :: w →
        Prolongs (b :: rest) (k.takeText kind lexeme) ((k.extend (b :: rest)).takeText kind lexeme) :=
    fun hkind hprefix => prolongs_take (hkind _) (hc ▸ hprefix.length_le) _
  cases hs : single? c with
  | some kind =>
    dsimp only
    split_ifs
    · exact prolongs_take (by simp) hone _
    · exact prolongs_takeQuotation rest hb
    · refine prolongs_take ?_ hone _
      rintro rfl
      exact single?_ne_endOfInput c hs
  | none =>
    dsimp only
    split_ifs with hpoint hquotation hident hsigil hdigit hfloat
    · exact prolongs_take (by simp) hone _
    · exact prolongs_takeQuotation rest hb
    · exact htext (by simp) (Lexeme.name_isPrefix _)
    · simp only [Bool.and_eq_true, decide_eq_true_eq] at hsigil
      exact htext (by simp) (List.cons_prefix_cons.2 ⟨hsigil.1.symm, Lexeme.name_isPrefix w⟩)
    · exact htext (by simp) (Lexeme.number_isPrefix _)
    · exact htext (by simp) (Lexeme.number_isPrefix _)
    · exact prolongs_takeString rest hc
    · exact htext (by simp) (List.cons_prefix_cons.2 ⟨rfl, Lexeme.symbols_isPrefix w⟩)
    · exact prolongs_refuse rfl (Nat.zero_le _) _

end Cursor

end Clausal
