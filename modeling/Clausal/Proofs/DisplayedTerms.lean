import Clausal.Proofs.DisplayPlaces

/-!
# Displayed terms read back

Each production of readable terms keeps the statements on how its text is read in each place, so the
text of a whole term is read back as an equal term.
-/
namespace Clausal

namespace Parse

open Precedence Term

variable {names : SymbolTable} {v : Vocabulary} {t : Term} {k : TokenKind} {ks : List TokenKind}

theorem operatorSymbol?_identifier {x : Symbol} {name : String} (hv : Speaks names v)
    (hs : names.name? x = some name) (hn : ∀ d ∈ baselineOperators, d.1 ≠ name)
    (hk : k.name? = some name) : operatorSymbol? v k = none := by
  have hc : Symbol.canonical name = name := by
    have hname := SymbolTable.name?_of_lookup (hv.lookup hs)
    rw [hv.symbols] at hname
    exact Option.some.inj (hname.symm.trans hs)
  exact operatorSymbol?_eq_none name hv.baseline hk (by rwa [hc])

theorem eq_nil_of_name? {s : Symbol} (hv : Speaks names v) (hs : names.name? s = some "[]") :
    s = Symbol.nil := by
  have hn : v.symbols.name? Symbol.nil = some "[]" := hv.wellFormed.symbols.name?_wellKnown rfl
  have hl := hv.wellFormed.symbols.lookup_of_name? hn
  exact Option.some.inj ((hv.lookup hs).symm.trans hl)

theorem renderAt_const {s : Symbol} {name : String} (hs : names.name? s = some name)
    (place : Place) (hp : ¬ (place = .tail ∧ s = Symbol.nil)) :
    renderAt names place (.const s) = place.enclose true (renderName name) := by
  have hname : names.name s = name := by rw [SymbolTable.name, hs, Option.getD_some]
  rw [renderAt, if_neg hp, hname]

/-- Built-in operators of symbol characters show in parentheses. -/
theorem isPlainName_symbolic : ∀ d ∈ baselineOperators, ReadsAs d.1 (.symbolic d.1) →
    isPlainName d.1 = false := by decide +kernel

variable [Extensions]

/-- A binder and the body behind it. -/
theorem ReadsAlone.lam {x : Symbol} {name : String} {body : Term} (h : ReadsAlone names body k ks)
    (hs : names.name? x = some name) (hn : IsIdentifier name) :
    ReadsAlone names (.lam x body) (.ident name) (.backslash :: k :: ks) := by
  have hstart : ∀ v, Speaks names v → startsArgument v (.ident name) = true := by
    intro v hv
    simp [startsArgument, operatorSymbol?_identifier (k := .ident name) hv hs hn.2.2 rfl]
  refine ⟨?_, hstart, fun v hv limit rest hl he hlam => ?_⟩
  · have hname : names.name x = name := by rw [SymbolTable.name, hs, Option.getD_some]
    have hplain : renderName name = name :=
      if_pos (isPlainName_of_readsAs hn.1 (.inl rfl))
    have hback : ("\\ " : String) = "\\" ++ " " := by decide
    rw [renderAt, hname, hplain, Place.enclose, hback, String.append_assoc, String.append_assoc]
    have hword : SpelledAs name [.ident name] := .ofWord _ (hn.1.word rfl)
    exact hword.append (h.spelled.space.behind "\\" rfl (by decide) rfl)
      (setsOff_of_head (c := '\\') (by simp; rfl) (by decide))
  · have hlow := hlam ⟨x, body, rfl⟩
    obtain ⟨u, strings, hu, hb⟩ := h.reads v hv lowest rest (Nat.zero_le _) hlow fun _ => hlow
    have hv' := hv.withStrings strings
    refine ⟨.lam x u, strings, by simp [Term.same, hu], ?_⟩
    have hbinder : ReadsAtomic limit v (.ident name :: .backslash :: (k :: (ks ++ rest)))
        (.value _ _ rest) := reads_atomic_lambda (Nat.le_trans hl (by decide)) hb
    rw [hv'.lambda hs u] at hbinder
    refine reads_expression (reads_operand_atomic ?_ hbinder ?_ (he.argument _ hv')) ?_
      (he.climb _ hv' _)
    · exact operatorBefore?_of_startsArgument (hstart v hv) _
    · simp only [List.length_cons, List.cons_append, List.length_append]
      omega
    · simp only [List.length_cons, List.cons_append, List.length_append]
      omega

theorem readsArgument_const {s : Symbol} {name : String} (hs : names.name? s = some name)
    (hn : NamesConstant name) : ∃ k ks, ReadsArgument names (.const s) k ks := by
  have hr := renderAt_const hs .argument fun h => Place.noConfusion h.1
  have hsame : (Term.const s).same (.const s) = true := by simp [Term.same]
  cases hn with
  | identifier hn =>
    have hplain : renderName name = name := if_pos (isPlainName_of_readsAs hn.1 (.inl rfl))
    refine ⟨.ident name, [], ?_, fun v hv => ?_, fun v hv limit rest hb => ?_⟩
    · rw [hr, hplain]
      exact .ofWord _ (hn.1.word rfl)
    · simp [startsArgument, operatorSymbol?_identifier (k := .ident name) hv hs hn.2.2 rfl]
    · have ho := operatorSymbol?_identifier (k := .ident name) hv hs hn.2.2 rfl
      have ha : ReadsAtomic limit v (.ident name :: rest) _ := reads_atomic_name hb ho
      rw [nameTerm, if_neg hn.2.1, hv.constant hs] at ha
      exact ⟨.const s, v.strings, hsame, ha⟩
  | macroName hn =>
    have hplain : renderName name = name := if_pos (isPlainName_of_readsAs hn (.inr rfl))
    refine ⟨.macroName name, [], ?_, fun _ _ => rfl, fun v hv limit rest _ => ?_⟩
    · rw [hr, hplain]
      exact .ofWord _ (hn.word rfl)
    · have ha : ReadsAtomic limit v (.macroName name :: rest) _ := reads_atomic_macroName
      rw [hv.constant hs] at ha
      exact ⟨.const s, v.strings, hsame, ha⟩
  | nil hn =>
    subst hn
    refine ⟨.leftBracket, [.rightBracket], ?_, fun _ _ => rfl, fun v hv limit rest _ => ?_⟩
    · have hname : renderName "[]" = "[" ++ "]" := by decide
      rw [hr, hname]
      exact SpelledAs.behind "[" rfl (by decide) rfl
        (.ofWord "]" (.single (by decide) rfl))
    · obtain rfl := eq_nil_of_name? hv hs
      exact ⟨Term.nil, v.strings, hsame, reads_atomic_nil⟩
  | cut hn =>
    subst hn
    have hcut : ∀ v, Speaks names v → operatorSymbol? v (.symbolic "!") = none := fun v hv =>
      operatorSymbol?_identifier hv hs (by decide) rfl
    refine ⟨.symbolic "!", [], ?_, fun v hv => ?_, fun v hv limit rest _ => ?_⟩
    · have hname : renderName "!" = "!" := by decide
      rw [hr, hname]
      exact .ofWord _ (.single (by decide) rfl)
    · simp [startsArgument, hcut v hv]
    · have ha : ReadsAtomic limit v (.symbolic "!" :: rest) _ :=
        reads_atomic_symbolic (by decide) (hcut v hv)
      rw [hv.constant hs] at ha
      exact ⟨.const s, v.strings, hsame, ha⟩
  | symbolic hn fixity precedence hd =>
    have hparen : renderName name = "(" ++ name ++ ")" :=
      if_neg (by rw [isPlainName_symbolic _ hd hn]; exact Bool.false_ne_true)
    refine ⟨.leftParen, [.symbolic name, .rightParen], ?_, fun _ _ => rfl,
      fun v hv limit rest _ => ?_⟩
    · rw [hr, hparen]
      exact SpelledAs.parenthesized (.ofWord _ (hn.word rfl))
    · have ho := operatorSymbol?_baseline (k := .symbolic name) hv.baseline hv.wellFormed hd rfl
        (hv.lookup hs)
      exact ⟨.const s, v.strings, hsame, reads_atomic_operator ho⟩

theorem readsArgument_int (names : SymbolTable) {n : Int64} (h : 0 ≤ n.toInt) :
    ∃ k ks, ReadsArgument names (.literal (.int n)) k ks := by
  obtain ⟨m, hm⟩ := Int.eq_ofNat_of_zero_le h
  have hle : m ≤ Nat.pow 2 63 - 1 := by
    have hlt := n.toInt_lt
    rw [Nat.pow_eq]
    omega
  have hr : renderAt names .argument (.literal (.int n)) = toString m := by
    rw [renderAt, Literal.render, hm]
    rfl
  have hn : Int64.ofNat m = n := by
    rw [← Int64.ofInt_eq_ofNat, ← hm, Int64.ofInt_toInt]
  refine ⟨.int (toString m), [], ?_, fun _ _ => rfl, fun v _ limit rest _ => ?_⟩
  · rw [hr]
    exact SpelledAs.ofNat m
  · refine ⟨_, v.strings, ?_, reads_atomic_int (boundedNat?_toString hle)⟩
    rw [hn]
    exact same_int n

theorem readsArgument_string (names : SymbolTable) (text : String) (pooled : Bool) :
    ∃ k ks, ReadsArgument names (.literal (.string text pooled)) k ks := by
  refine ⟨.string text, [], ?_, fun _ _ => rfl, fun v _ limit rest _ => ?_⟩
  · rw [renderAt]
    exact SpelledAs.string text
  · have ha : ReadsAtomic limit v (.string text :: rest) _ := reads_atomic_string
    obtain ⟨strings, hs⟩ := v.string_snd text
    rw [hs] at ha
    exact ⟨_, strings, same_string text _ pooled, ha⟩

theorem ReadsArgument.readsBack (h : ReadsArgument names t k ks)
    (ha : renderAt names .alone t = renderAt names .argument t)
    (ht : renderAt names .tail t = " | " ++ renderAt names .alone t) : ReadsBack names t :=
  ⟨⟨k, ks, h.alone ha⟩, ⟨k, ks, h⟩, ⟨_, (h.alone ha).tail ht⟩⟩

theorem ReadsAlone.readsBack (h : ReadsAlone names t k ks)
    (ha : renderAt names .argument t = "(" ++ renderAt names .alone t ++ ")")
    (ht : renderAt names .tail t = " | " ++ renderAt names .alone t) : ReadsBack names t :=
  ⟨⟨k, ks, h⟩, ⟨_, _, h.argument ha⟩, ⟨_, h.tail ht⟩⟩

/-- The text of a readable term is read back in each place. -/
theorem readsBack (ht : Readable names t) : ReadsBack names t := by
  induction ht with
  | @const s name hs hn =>
    obtain ⟨k, ks, h⟩ := readsArgument_const hs hn
    have halone := renderAt_const hs .alone fun h => Place.noConfusion h.1
    have harg := renderAt_const hs .argument fun h => Place.noConfusion h.1
    have hsame : renderAt names .alone (.const s) = renderAt names .argument (.const s) :=
      halone.trans harg.symm
    by_cases hnil : s = Symbol.nil
    · subst hnil
      exact ⟨⟨k, ks, h.alone hsame⟩, ⟨k, ks, h⟩, ⟨[], readsTail_nil⟩⟩
    · refine h.readsBack hsame ?_
      rw [renderAt_const hs .tail fun h => hnil h.2, halone]
      rfl
  | int h =>
    obtain ⟨k, ks, h⟩ := readsArgument_int names h
    exact h.readsBack rfl rfl
  | string text pooled =>
    obtain ⟨k, ks, h⟩ := readsArgument_string names text pooled
    exact h.readsBack rfl rfl
  | @application s name args hs hn hc hne _ ih =>
    obtain ⟨k, ks, h⟩ := readsArgument_const hs hn
    obtain ⟨rs, ha⟩ := readsArgs_of_forall ih
    refine (h.application ha hc hne).readsBack ?_ ?_
    · simp only [renderAt_application names _ hc]
      rfl
    · simp only [renderAt_application names _ hc]
      rfl
  | @cell first rest _ _ hl ihf ihr =>
    obtain ⟨k, ks, hf⟩ := ihf.alone
    obtain ⟨rs, hr⟩ := ihr.tail
    have harg := hf.cell_argument hr hl
    have hsame : renderAt names .alone (cell first rest) =
        renderAt names .argument (cell first rest) := by
      rw [renderAt_cell, renderAt_cell]
      rfl
    exact ⟨⟨_, _, harg.alone hsame⟩, ⟨_, _, harg⟩, ⟨_, hf.cell_tail hr hl⟩⟩
  | lam hs hn _ ih =>
    obtain ⟨k, ks, h⟩ := ih.alone
    exact (h.lam hs hn).readsBack rfl rfl

end Parse

open Parse Term

/-- The text of a term is read back as an equal term. Nothing but the pool of strings may grow. -/
theorem parseTerm_render [Extensions] {v : Vocabulary} (hv : v.Reachable) (hb : v.HasBaseline) {t : Term}
    (ht : Readable v.symbols t) :
    ∃ u strings, parseTerm v (v.render t) = (.ok u, { v with strings }) ∧ u.same t = true := by
  have hspeaks : Speaks v.symbols v := ⟨rfl, hv.wellFormed, hb⟩
  obtain ⟨k, ks, h⟩ := (readsBack ht).alone
  obtain ⟨u, strings, hu, hr⟩ := h.reads v hspeaks Precedence.lowest [] (Nat.zero_le _)
    (ends_nil _) fun _ => ends_nil _
  have hs := h.spelled [] [] EndsWord.nil Spells.nil
  rw [List.append_nil] at hs
  exact ⟨u, strings, parseTerm_of_shows (hs.ofText _) hr, hu⟩

/-- The term of `pi (i\ (=) i [3, ! | o]) "a\n"`, of well-known names only. -/
def mixedTerm : Term :=
  .app (.const ⟨8⟩)
    [.lam ⟨22⟩ (.app (.const ⟨10⟩) [.const ⟨22⟩,
      cell (.literal (.int 3)) (cell (.const ⟨7⟩) (.const ⟨23⟩))]),
    .literal (.string "a\n" false)]

theorem readable_mixedTerm {names : SymbolTable} (h : names.WellFormed) :
    Readable names mixedTerm := by
  have hi : IsIdentifier "i" := by decide +kernel
  have ho : IsIdentifier "o" := by decide +kernel
  have hpi : IsIdentifier "pi" := by decide +kernel
  have heq : NamesConstant "=" := .symbolic (by decide +kernel) .infixOnly 140 (by decide)
  have hname : ∀ {n : Nat} {name : String}, Symbol.wellKnown[n]? = some name →
      NamesConstant name → Readable names (.const ⟨n⟩) :=
    fun hn hc => .const (h.name?_wellKnown hn) hc
  have hlist : Readable names
      (cell (.literal (.int 3)) (cell (.const ⟨7⟩) (.const ⟨23⟩))) := by
    refine .cell (.int (by decide)) (.cell (hname rfl (.cut rfl)) (hname rfl (.identifier ho)) ?_)
      ?_
    · rintro ⟨x, body, hx⟩
      exact Term.noConfusion hx
    · rintro ⟨x, body, hx⟩
      exact Term.noConfusion hx
  refine .application (h.name?_wellKnown rfl) (.identifier hpi) (by decide) (by simp) ?_
  simp only [List.forall_mem_cons, List.not_mem_nil, false_imp_iff, implies_true, and_true]
  refine ⟨.lam (h.name?_wellKnown rfl) hi ?_, .string _ _⟩
  refine .application (h.name?_wellKnown rfl) heq (by decide) (by simp) ?_
  simp only [List.forall_mem_cons, List.not_mem_nil, false_imp_iff, implies_true, and_true]
  exact ⟨hname rfl (.identifier hi), hlist⟩

section

attribute [local instance] Extensions.byBytes

theorem parseTerm_mixedTerm :
    let v := Vocabulary.initial.defineBaseline.2
    v.render mixedTerm = "pi (i\\ (=) i [3, ! | o]) \"a\\n\"" ∧
      ∃ u strings, parseTerm v (v.render mixedTerm) = (.ok u, { v with strings }) ∧
        u.same mixedTerm = true := by
  intro v
  have hv : v.Reachable := Vocabulary.Reachable.initial.defineOperators baselineOperators
  have hb : v.HasBaseline := .of_eq (by decide +kernel)
  have hr : v.render mixedTerm = "pi (i\\ (=) i [3, ! | o]) \"a\\n\"" := by decide +kernel
  have ht : Readable v.symbols mixedTerm := readable_mixedTerm hv.wellFormed.symbols
  exact ⟨hr, parseTerm_render hv hb ht⟩

end

end Clausal
