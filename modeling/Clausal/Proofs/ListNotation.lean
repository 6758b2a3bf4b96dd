import Clausal.Proofs.RightChains

/-!
# List notation

A list in brackets is read element by element, and a chain of `::` by its right operands. The elements that
are tighter than `::` are the same in both, so both have one tree: the cells of these elements, and the
tail at the end.
-/
namespace Clausal

namespace Grammar

open Parse Precedence SyntaxTree

/-- The precedence of `::`. -/
def consPrecedence : Nat := 150

variable {v w : Vocabulary} {C T X Y Z : List TokenKind} {a t : SyntaxTree}
variable {rows : List (List TokenKind)} {as : List SyntaxTree}

theorem operatorAt?_bar (hb : v.HasBaseline) (p : Placement) : operatorAt? v p (.symbolic "|") = none := by
  rw [operatorAt?, operatorSymbol?_eq_none "|" hb rfl (by decide)]

theorem operatorAhead?_bar (hb : v.HasBaseline) (X : List TokenKind) :
    operatorAhead? v (.symbolic "|" :: X) = none := by
  change operatorBehind? v (.symbolic "|") _ = none
  rw [operatorBehind?, operatorAt?_bar hb, operatorAt?_bar hb]

theorem closes_bar (hb : v.HasBaseline) (X : List TokenKind) :
    Closes v consPrecedence [] (.symbolic "|" :: X) := by
  refine ⟨rfl, ?_, by simp, fun e he => ?_⟩
  · change startsTerm v (.symbolic "|") = false
    rw [startsTerm, operatorAt?_bar hb]
    rfl
  · rw [operatorAhead?_bar hb] at he
    cases he

theorem closes_bracket (X : List TokenKind) : Closes v consPrecedence [] (.rightBracket :: X) :=
  .of_name?_eq_none rfl rfl rfl (by simp)

/-- An element of a list in brackets. -/
theorem Alone.listed (ha : Alone v C a) (ht : Tight v consPrecedence C) (hends : Closes v consPrecedence [] Z)
    (hstop : ∀ e ∈ operatorAhead? v Z, ¬ Admits listElement false e.2) :
    Derives v (.expression listElement false none) (C ++ Z) a Z :=
  ha.before ht (by decide) (fun _ _ he => (by cases he)) hends hstop

/-- The elements of a list in brackets. -/
theorem alone_brackets (h : Derives v .elements X a [.rightBracket]) : Alone v (.leftBracket :: X) a := by
  refine .expression (.application (prefixAhead?_of_name?_eq_none rfl) (.list ?_ h) (.noArgument rfl))
    (.stop (forall_operatorAhead?_of_name?_eq_none rfl))
  obtain ⟨C, rfl, hC, hne⟩ := h.exists_balanced
  obtain ⟨k, C, rfl⟩ := List.exists_cons_of_ne_nil (hne rfl)
  have hk := hC.not_closesBracket
  intro hbracket
  obtain rfl : k = .rightBracket := hbracket
  cases hk

section

variable (hb : v.HasBaseline) (hv : v.WellFormed)
include hb hv

/-- Elements with commas between them, in front of what the last one ends the list with. -/
theorem derives_elements {E : List TokenKind}
    (hlast : ∀ C a, Alone v C a → Tight v consPrecedence C → Derives v .elements (C ++ E) (cell a t) Y)
    (hrows : ∀ C ∈ rows, Tight v consPrecedence C) (hne : rows ≠ []) (has : List.Forall₂ (Alone v) rows as) :
    Derives v .elements ([.symbolic ","].intercalate rows ++ E) (as.foldr cell t) Y := by
  induction has with
  | nil => exact absurd rfl hne
  | @cons C a rows as ha has ih =>
    have hC := hrows C List.mem_cons_self
    cases has with
    | nil =>
      rw [List.intercalate_singleton]
      exact hlast C a ha hC
    | @cons D b rows as hd has =>
      have hrest := ih (fun B hB => hrows B (List.mem_cons_of_mem C hB)) (List.cons_ne_nil _ _)
      rw [List.intercalate_cons_cons, List.append_assoc, List.append_assoc]
      refine .more (ha.listed hC (.comma hb hv rfl (by decide)) fun e he => ?_) hrest
      obtain rfl := Option.some.inj ((operatorAhead?_comma hb hv _).symm.trans he)
      decide

end

theorem buildEach_append_singleton (as : List SyntaxTree) (t : SyntaxTree) (v : Vocabulary) :
    buildEach (as ++ [t]) v = ((buildEach as v).1 ++ [(t.build (buildEach as v).2).1],
      (t.build (buildEach as v).2).2) := by
  induction as generalizing v with
  | nil => rfl
  | cons a as ih => simp only [List.cons_append, buildEach, ih]

theorem derives_nil (limit : Nat) (earlier : Option (Nat × Grouping)) :
    Derives v (.expression limit false earlier) [.leftBracket, .rightBracket] .nil [] :=
  .expression (.application (prefixAhead?_of_name?_eq_none rfl) .nil (.noArgument rfl))
    (.stop (forall_operatorAhead?_of_name?_eq_none rfl))

theorem Alone.at_end (ha : Alone v C a) (ht : Tight v consPrecedence C) {limit : Nat}
    {earlier : Option (Nat × Grouping)} (hl : limit ≤ consPrecedence)
    (hearlier : earlier = none ∨ earlier = some (consPrecedence, .right)) :
    Derives v (.expression limit false earlier) C a [] := by
  have hbefore : Derives v (.expression limit false earlier) (C ++ []) a [] := by
    refine ha.before ht hl ?_ (.of_name?_eq_none rfl rfl rfl (by simp)) (forall_operatorAhead?_of_name?_eq_none rfl)
    rintro p g he
    rcases hearlier with rfl | rfl <;> cases he
    exact Nat.le_refl _
  rwa [List.append_nil] at hbefore

/-- Elements that are joined by `::`, in front of the tail. -/
theorem derives_conses (hb : v.HasBaseline) (hv : v.WellFormed)
    (hT : ∀ limit earlier, limit ≤ consPrecedence →
      (earlier = none ∨ earlier = some (consPrecedence, .right)) →
      Derives v (.expression limit false earlier) T t [])
    (hrows : ∀ C ∈ rows, Tight v consPrecedence C) (has : List.Forall₂ (Alone v) rows as) :
    Alone v (rows.flatMap (· ++ [.symbolic "::"]) ++ T) (as.foldr cell t) :=
  derives_chain (d := ("::", .infixRight, 150)) (n := 1) hb hv (by decide) rfl rfl rfl (by decide) hT rfl hrows
    has (Nat.zero_le _) (.inl rfl)

end Grammar

open Grammar Parse Precedence SyntaxTree

/-- A list in brackets and the chain of its elements that ends with the empty list are one term and leave
one vocabulary. So are a list with a tail and the chain that ends with the tail. -/
theorem reads_list {v : Vocabulary} (hv : v.Reachable) (hb : v.HasBaseline)
    {rows : List (List TokenKind)} (hne : rows ≠ []) (hrows : ∀ C ∈ rows, TermAbove v consPrecedence C) :
    (∃ ts w, v.ReadsEach rows ts w ∧
      v.Reads (.leftBracket :: ([.symbolic ","].intercalate rows ++ [.rightBracket]))
        (Term.listWithTail ts Term.nil) w ∧
      v.Reads (rows.flatMap (· ++ [.symbolic "::"]) ++ [.leftBracket, .rightBracket])
        (Term.listWithTail ts Term.nil) w) ∧
    ∀ T, TermAbove v consPrecedence T → ∃ ts t w, v.ReadsEach (rows ++ [T]) (ts ++ [t]) w ∧
      v.Reads (.leftBracket :: ([.symbolic ","].intercalate rows ++ .symbolic "|" :: (T ++ [.rightBracket])))
        (Term.listWithTail ts t) w ∧
      v.Reads (rows.flatMap (· ++ [.symbolic "::"]) ++ T) (Term.listWithTail ts t) w := by
  have hw := hv.wellFormed
  obtain ⟨as, has⟩ := exists_alone hw hrows
  have hreads : ∀ {kinds t}, Alone v kinds (as.foldr cell t) →
      v.Reads kinds (Term.listWithTail (buildEach as v).1 (t.build (buildEach as v).2).1)
        (t.build (buildEach as v).2).2 := by
    intro kinds t h
    have hread := h.reads_text hw (.refl v)
    have hbuild : (as.foldr cell t).build v = _ := foldr_binary_build Symbol.cons as t v
    rwa [hbuild] at hread
  have htight : ∀ C ∈ rows, Tight v consPrecedence C := fun C hC => (hrows C hC).tight
  constructor
  · refine ⟨_, _, readsEach_of_alone has hw (.refl v), hreads (t := .nil) (alone_brackets ?_),
      hreads (t := .nil) ?_⟩
    · refine derives_elements hb hw (fun C a ha hC => ?_) htight hne has
      exact .last (ha.listed hC (closes_bracket []) (forall_operatorAhead?_of_name?_eq_none rfl)) (by simp)
        (by simp)
    · exact derives_conses hb hw (fun limit earlier _ _ => derives_nil limit earlier) htight has
  · intro T hT
    obtain ⟨t, ht⟩ := hT.alone hw
    have heach := readsEach_of_alone (List.rel_append has (.cons ht .nil)) hw (.refl v)
    rw [buildEach_append_singleton] at heach
    refine ⟨_, _, _, heach, hreads (alone_brackets ?_), hreads ?_⟩
    · refine derives_elements hb hw (fun C a ha hC => ?_) htight hne has
      refine .tail (ha.listed hC (closes_bar hb _) fun e he => ?_)
        (ht.listed hT.tight (closes_bracket []) (forall_operatorAhead?_of_name?_eq_none rfl))
      rw [operatorAhead?_bar hb] at he
      cases he
    · exact derives_conses hb hw (fun limit earlier hl he => ht.at_end hT.tight hl he) htight has

/-- A list of a sum and a name, with and without a tail. -/
theorem reads_list_sum :
    let v := Vocabulary.initial.defineBaseline.2
    (∃ t u w, parseTerm v "[a + b, c]" = (.ok t, w) ∧ parseTerm v "a + b :: c :: []" = (.ok u, w) ∧
      SameParts t u) ∧
    ∃ t u w, parseTerm v "[a + b, c | d]" = (.ok t, w) ∧ parseTerm v "a + b :: c :: d" = (.ok u, w) ∧
      SameParts t u := by
  intro v
  have hv : v.Reachable := Vocabulary.Reachable.initial.defineOperators baselineOperators
  have hscanned : ((Scan.ofText "<term>" "[a + b, c]").items.map Item.kind? =
        [some .leftBracket, some (.ident "a"), some (.symbolic "+"), some (.ident "b"), some (.symbolic ","),
          some (.ident "c"), some .rightBracket] ∧
      (Scan.ofText "<term>" "a + b :: c :: []").items.map Item.kind? =
        [some (.ident "a"), some (.symbolic "+"), some (.ident "b"), some (.symbolic "::"), some (.ident "c"),
          some (.symbolic "::"), some .leftBracket, some .rightBracket] ∧
      (Scan.ofText "<term>" "[a + b, c | d]").items.map Item.kind? =
        [some .leftBracket, some (.ident "a"), some (.symbolic "+"), some (.ident "b"), some (.symbolic ","),
          some (.ident "c"), some (.symbolic "|"), some (.ident "d"), some .rightBracket] ∧
      (Scan.ofText "<term>" "a + b :: c :: d").items.map Item.kind? =
        [some (.ident "a"), some (.symbolic "+"), some (.ident "b"), some (.symbolic "::"), some (.ident "c"),
          some (.symbolic "::"), some (.ident "d")]) ∧
      ∀ text ∈ ["[a + b, c]", "a + b :: c :: []", "[a + b, c | d]", "a + b :: c :: d"],
        (Scan.ofText "<term>" text).last.kind? = some .endOfInput := by
    decide +kernel
  have helements : (∀ d ∈ [("a + b", [.ident "a", .symbolic "+", .ident "b"]), ("c", [.ident "c"]),
        ("d", [TokenKind.ident "d"])],
      (parseTerm v d.1).1.toOption.isSome = true ∧ (Scan.ofText "<term>" d.1).items.map Item.kind? = d.2.map some ∧
        (Scan.ofText "<term>" d.1).last.kind? = some .endOfInput ∧ (∀ k ∈ d.2, k.isStop = false) ∧
        Tight v consPrecedence d.2) ∧ v.definitions = baselineOperators := by
    decide +kernel
  have helement : ∀ text C, (text, C) ∈ [("a + b", [.ident "a", .symbolic "+", .ident "b"]), ("c", [.ident "c"]),
      ("d", [TokenKind.ident "d"])] → TermAbove v consPrecedence C := by
    intro text C hm
    obtain ⟨hread, hitems, hlast, hgoes, htight⟩ := helements.1 _ hm
    exact .of_text hread hitems hlast hgoes htight
  obtain ⟨⟨hk₁, hk₂, hk₃, hk₄⟩, hlast⟩ := hscanned
  have hrows : ∀ C ∈ [[.ident "a", .symbolic "+", .ident "b"], [TokenKind.ident "c"]],
      TermAbove v consPrecedence C := by
    simpa using ⟨helement "a + b" _ (by simp), helement "c" _ (by simp)⟩
  have hd : TermAbove v consPrecedence [.ident "d"] := helement "d" _ (by simp)
  obtain ⟨⟨ts, w, -, hlist, hchain⟩, htail⟩ := reads_list hv (.of_eq helements.2) (List.cons_ne_nil _ _) hrows
  obtain ⟨ts', t', w', -, hlist', hchain'⟩ := htail _ hd
  obtain ⟨t, ht, hsame⟩ := hlist "[a + b, c]" (.of_items hk₁ (hlast _ (by simp)))
  obtain ⟨u, hu, hsame'⟩ := hchain "a + b :: c :: []" (.of_items hk₂ (hlast _ (by simp)))
  obtain ⟨r, hr, hsame₃⟩ := hlist' "[a + b, c | d]" (.of_items hk₃ (hlast _ (by simp)))
  obtain ⟨x, hx, hsame₄⟩ := hchain' "a + b :: c :: d" (.of_items hk₄ (hlast _ (by simp)))
  exact ⟨⟨t, u, w, ht, hu, Eq.trans hsame hsame'.symm⟩, r, x, w', hr, hx, Eq.trans hsame₃ hsame₄.symm⟩

end Clausal
