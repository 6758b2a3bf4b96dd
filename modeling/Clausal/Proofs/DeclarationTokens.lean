import Clausal.Proofs.TermTexts

/-!
# The tokens of declarations

What a declaration is read from is described by rows of tokens, as for terms: a name, an attribute, items
with commas between them. Each repetition of a reader has one rule that goes through its rows, so that the
rest of a text may be anything that ends the last of them.
-/
namespace Clausal

namespace Parse

variable {α β : Type} {v w u : Vocabulary} {X Y Z : List TokenKind}

namespace Produces

variable {p : Parse α} {P Q : α → Prop} {R : β → Prop} {a : α} {n : Nat}

theorem mono (h : p.Produces v X P w Y) (hQ : ∀ a, P a → Q a) : p.Produces v X Q w Y := by
  intro s hs
  obtain ⟨a, s', hrun, ha, hs'⟩ := h s hs
  exact ⟨a, s', hrun, hQ a ha, hs'⟩

theorem rounds_done {body : α → Parse (Round α β)}
    (h : (body a).Produces v X (fun r => ∃ b, r = .done b ∧ R b) w Y) :
    (rounds body (n + 1) a).Produces v X R w Y := by
  refine h.bind ?_
  rintro _ ⟨b, rfl, hb⟩
  exact .pure hb

theorem rounds_again {body : α → Parse (Round α β)}
    (h : (body a).Produces v X (fun r => ∃ a', r = .again a' ∧ P a') w Y)
    (hs : ∀ a', P a' → (rounds body n a').Produces w Y R u Z) :
    (rounds body (n + 1) a).Produces v X R u Z := by
  refine h.bind ?_
  rintro _ ⟨a', rfl, ha'⟩
  exact hs a' ha'

/-- There are as many rounds as tokens, and one more. -/
theorem repeated {body : α → Parse (Round α β)} (h : (rounds body (X.length + 1) a).Produces v X R w Y) :
    (Parse.repeated body a).Produces v X R w Y := by
  intro s hs
  have hlength : s.ahead.items.length = X.length := by simpa using congrArg List.length hs.ahead.items
  rw [← hlength] at h
  exact h s hs

/-- A repetition that reads a row for each value, and then comes to its end. -/
theorem repeated_rows {S : List TokenKind → α → Prop} {body : List α → Parse (Round (List α) (List α))}
    {rows : List (List TokenKind)} {as : List α} (hrows : List.Forall₂ S rows as)
    (hne : ∀ row a, S row a → row ≠ [])
    (hagain : ∀ found row a X, S row a → (body found).Produces v (row ++ X) (· = .again (found ++ [a])) v X)
    (hdone : ∀ found, (body found).Produces v Y (· = .done found) v Z) :
    (Parse.repeated body []).Produces v (rows.flatten ++ Y) (· = as) v Z := by
  -- The loop keeps what it has found, so the statement is about any beginning.
  suffices hall : ∀ found n, (rows.flatten ++ Y).length < n →
      (rounds body n found).Produces v (rows.flatten ++ Y) (· = found ++ as) v Z from
    .repeated (hall [] _ (Nat.lt_succ_self _))
  intro found n hn
  obtain ⟨n, rfl⟩ : ∃ m, n = m + 1 := ⟨n - 1, by omega⟩
  induction hrows generalizing found n with
  | nil => exact rounds_done ((hdone found).mono fun r hr => ⟨found, hr, (List.append_nil _).symm⟩)
  | @cons row a rows as ha _ ih =>
    rw [List.flatten_cons, List.append_assoc] at hn ⊢
    refine rounds_again (P := (· = found ++ [a])) ((hagain found row a _ ha).mono fun r hr => ⟨_, hr, rfl⟩) ?_
    rintro _ rfl
    have hrow := List.length_pos_iff.2 (hne row a ha)
    rw [List.length_append] at hn
    obtain ⟨n, rfl⟩ : ∃ m, n = m + 1 := ⟨n - 1, by omega⟩
    exact (ih (found ++ [a]) n (by omega)).mono fun as' h => by rw [h, List.append_assoc, List.singleton_append]

end Produces

/-- One round of reading items with commas between them. -/
def separatedRound (p : Parse α) (found : List α) : Parse (Round (List α) (List α)) := do
  let found := found ++ [← p]
  if ← eatSymbol "," then pure (.again found) else pure (.done found)

theorem separated_eq (p : Parse α) : separated p = repeated (separatedRound p) [] := rfl

/-- The only item, or the last one. -/
theorem Produces.separatedRound_last {p : Parse α} {Q : α → Prop} (h : p.Produces v X Q w Y)
    (hY : Y.headD .endOfInput ≠ .symbolic ",") (found : List α) :
    (separatedRound p found).Produces v X (fun r => ∃ as, r = .done as ∧ ∃ a, as = found ++ [a] ∧ Q a) w Y := by
  refine h.bind fun a ha => Produces.of_does_bind (does_eatSymbol_false hY) ?_
  rw [if_neg Bool.false_ne_true]
  exact .pure ⟨_, rfl, a, rfl, ha⟩

theorem Produces.separated_one {p : Parse α} {Q : α → Prop} (h : p.Produces v X Q w Y)
    (hY : Y.headD .endOfInput ≠ .symbolic ",") :
    (separated p).Produces v X (fun as => ∃ a, as = [a] ∧ Q a) w Y := by
  rw [separated_eq]
  exact .repeated (.rounds_done (h.separatedRound_last hY []))

/-- The rows are read one after the other, each in front of whatever `E` holds of. -/
inductive ProducesEach (p : Parse α) (E : List TokenKind → Prop) :
    Vocabulary → List (List TokenKind) → (List α → Prop) → Vocabulary → Prop
  | nil {v : Vocabulary} {P : List α → Prop} (h : P []) : ProducesEach p E v [] P v
  | cons {v w u : Vocabulary} {row : List TokenKind} {rows : List (List TokenKind)} {Q : α → Prop}
      {P R : List α → Prop} (h : ∀ Z, E Z → p.Produces v (row ++ Z) Q w Z) (hs : ProducesEach p E w rows P u)
      (hR : ∀ a as, Q a → P as → R (a :: as)) : ProducesEach p E v (row :: rows) R u

namespace ProducesEach

variable {p : Parse α} {E : List TokenKind → Prop} {rows : List (List TokenKind)} {P R : List α → Prop}

/-- Items with commas between them. -/
theorem separated (h : ProducesEach p E v rows P w) (hne : rows ≠ []) (hcomma : ∀ X, E (.symbolic "," :: X))
    (hZ : E Z) (hlast : Z.headD .endOfInput ≠ .symbolic ",") :
    (Parse.separated p).Produces v ([.symbolic ","].intercalate rows ++ Z) P w Z := by
  -- What is asked of all items is asked of the later ones behind the found ones, hence any `R`.
  suffices hall : ∀ found n, ([.symbolic ","].intercalate rows ++ Z).length < n → ∀ R : List α → Prop,
      (∀ as, P as → R (found ++ as)) → (rounds (separatedRound p) n found).Produces v
        ([.symbolic ","].intercalate rows ++ Z) R w Z from
    separated_eq p ▸ .repeated (hall [] _ (Nat.lt_succ_self _) P fun _ h => h)
  intro found n hn R hR
  obtain ⟨n, rfl⟩ : ∃ m, n = m + 1 := ⟨n - 1, by omega⟩
  induction h generalizing found n R with
  | nil _ => exact absurd rfl hne
  | @cons v w u row rows Q P P' hrow hrest hP ih =>
    cases rows with
    | nil =>
      cases hrest with
      | nil hnil =>
        rw [List.intercalate_singleton]
        refine (Produces.rounds_done ((hrow Z hZ).separatedRound_last hlast found)).mono ?_
        rintro _ ⟨a, rfl, ha⟩
        exact hR _ (hP a [] ha hnil)
    | cons row' rows =>
      rw [List.intercalate_cons_cons, List.append_assoc, List.append_assoc] at hn ⊢
      have hround : (separatedRound p found).Produces v
          (row ++ .symbolic "," :: ([.symbolic ","].intercalate (row' :: rows) ++ Z))
          (fun r => ∃ found', r = .again found' ∧ ∃ a, found' = found ++ [a] ∧ Q a) w
          ([.symbolic ","].intercalate (row' :: rows) ++ Z) := by
        refine (hrow _ (hcomma _)).bind fun a ha => Produces.of_does_bind does_eatSymbol_true ?_
        rw [if_pos rfl]
        exact .pure ⟨_, rfl, a, rfl, ha⟩
      refine hround.rounds_again ?_
      rintro _ ⟨a, rfl, ha⟩
      rw [List.length_append, List.length_append, List.length_singleton] at hn
      obtain ⟨n, rfl⟩ : ∃ m, n = m + 1 := ⟨n - 1, by omega⟩
      refine ih (List.cons_ne_nil _ _) (found ++ [a]) R (fun as has => ?_) n (by omega)
      rw [List.append_assoc]
      exact hR _ (hP a as ha has)

end ProducesEach

/-- The depth to index an argument at. -/
inductive DepthTokens : List TokenKind → UInt64 → Prop
  | none : DepthTokens [.ident "_"] 0
  | int {digits : String} {depth : Nat} (h : boundedNat? (Nat.pow 2 64 - 1) digits = some depth) :
      DepthTokens [.int digits] (UInt64.ofNat depth)

/-- An attribute with its colon. -/
inductive AttributeTokens : List TokenKind → Attribute → Prop
  | name {text : String} : AttributeTokens [.symbolic ":", .ident "name", .string text] (.name text)
  | before {text : String} : AttributeTokens [.symbolic ":", .ident "before", .string text] (.before text)
  | after {text : String} : AttributeTokens [.symbolic ":", .ident "after", .string text] (.after text)
  | onlyIf {text : String} : AttributeTokens [.symbolic ":", .ident "if", .string text] (.onlyIf text)
  | external : AttributeTokens [.symbolic ":", .ident "external"] .external
  | index {rows : List (List TokenKind)} {depths : List UInt64} (h : List.Forall₂ DepthTokens rows depths) :
      AttributeTokens (.symbolic ":" :: .ident "index" :: .leftParen :: (rows.flatten ++ [.rightParen]))
        (.index depths)

variable {rows : List (List TokenKind)} {row : List TokenKind} {a : Attribute} {as : List Attribute}

theorem endOfInput_not_mem_flatten {S : List TokenKind → α → Prop} {as : List α}
    (hrows : List.Forall₂ S rows as) (h : ∀ row a, S row a → .endOfInput ∉ row) :
    .endOfInput ∉ rows.flatten := by
  induction hrows with
  | nil => exact List.not_mem_nil
  | @cons row a rows as ha _ ih => exact fun hm => (List.mem_append.1 hm).elim (h row a ha) ih

theorem AttributeTokens.endOfInput_not_mem (h : AttributeTokens row a) : .endOfInput ∉ row := by
  cases h with
  | index hdepths =>
    have hinner := endOfInput_not_mem_flatten hdepths (by rintro _ _ (_ | _) <;> simp)
    simpa using hinner
  | _ => simp

theorem indexDepths_produces {depths : List UInt64} (h : List.Forall₂ DepthTokens rows depths) :
    indexDepths.Produces v (rows.flatten ++ .rightParen :: X) (· = depths) v X := by
  refine .repeated_rows h (by rintro _ _ (_ | _) <;> simp) ?_ fun found => ?_
  · intro found row depth X hdepth
    cases hdepth with
    | none =>
      refine Produces.next_cons_bind fun t ht => ?_
      rw [ht]
      dsimp only
      rw [if_pos rfl]
      exact .pure rfl
    | int hvalue =>
      refine Produces.next_cons_bind fun t ht => ?_
      rw [ht]
      dsimp only
      rw [hvalue]
      exact .pure rfl
  · refine Produces.next_cons_bind fun t ht => ?_
    rw [ht]
    exact .pure rfl

theorem string_produces {text : String} : string.Produces v (.string text :: X) (· = text) v X := by
  refine Produces.next_cons_bind fun t ht => ?_
  rw [ht]
  exact .pure rfl

theorem AttributeTokens.produces (h : AttributeTokens (.symbolic ":" :: row) a) :
    oneAttribute.Produces v (row ++ X) (· = a) v X := by
  have htext : ∀ {text : String} (make : String → Attribute),
      (string >>= fun text => pure (make text)).Produces v (.string text :: X) (· = make text) v X := fun make =>
    string_produces.bind fun t ht => .pure (congrArg make ht)
  cases h with
  | name | before | after | onlyIf =>
    refine Produces.next_cons_bind fun t ht => ?_
    rw [ht]
    exact htext _
  | external =>
    refine Produces.next_cons_bind fun t ht => ?_
    rw [ht]
    exact .pure rfl
  | index hdepths =>
    rw [List.cons_append, List.cons_append, List.append_assoc]
    refine Produces.next_cons_bind fun t ht => ?_
    rw [ht]
    refine Produces.expect_bind fun _ => ?_
    exact (indexDepths_produces hdepths).bind fun _ hd => .pure (congrArg Attribute.index hd)

theorem AttributeTokens.exists_colon (h : AttributeTokens row a) : ∃ rest, row = .symbolic ":" :: rest := by
  cases h <;> exact ⟨_, rfl⟩

/-- Attributes end in front of what is no colon. -/
theorem attributes_produces (h : List.Forall₂ AttributeTokens rows as) (hX : X.headD .endOfInput ≠ .symbolic ":") :
    attributes.Produces v (rows.flatten ++ X) (· = as) v X := by
  refine .repeated_rows h ?_ ?_ fun found => ?_
  · rintro row a ha rfl
    cases ha
  · intro found row a X ha
    obtain ⟨rest, rfl⟩ := ha.exists_colon
    refine Produces.of_does_bind does_eatSymbol_true ?_
    rw [if_pos rfl]
    exact ha.produces.bind fun b hb => .pure (by rw [hb])
  · refine Produces.of_does_bind (does_eatSymbol_false hX) ?_
    rw [if_neg Bool.false_ne_true]
    exact .pure rfl

/-- A declared name, perhaps in parentheses. -/
inductive NameTokens : List TokenKind → String → Prop
  | bare {name : String} : NameTokens [.ident name] name
  | macroName {name : String} : NameTokens [.macroName name] name
  | symbolic {name : String} (hcomma : name ≠ ",") (hbar : name ≠ "|") : NameTokens [.symbolic name] name
  | parenthesized {k : TokenKind} {name : String} (h : k.name? = some name ∨ k = .macroName name) :
      NameTokens [.leftParen, k, .rightParen] name

theorem NameTokens.endOfInput_not_mem {name : String} (h : NameTokens row name) : .endOfInput ∉ row := by
  cases h with
  | @parenthesized k _ hk =>
    rcases hk with hk | rfl
    · cases k <;> cases hk <;> simp
    · simp
  | _ => simp

theorem declaredName_produces {name : String} (h : NameTokens row name) :
    declaredName.Produces v (row ++ X) (· = (v.intern name).1) (v.intern name).2 X := by
  have hintern : ∀ {X}, (change (·.intern name)).Produces v X (· = (v.intern name).1) (v.intern name).2 X :=
    Produces.change rfl
  cases h with
  | bare | macroName =>
    refine Produces.next_cons_bind fun t ht => ?_
    rw [ht]
    exact hintern
  | symbolic hcomma hbar =>
    refine Produces.next_cons_bind fun t ht => ?_
    rw [ht]
    dsimp only
    rw [if_neg (not_or.2 ⟨hcomma, hbar⟩)]
    exact hintern
  | @parenthesized k _ hk =>
    refine Produces.next_cons_bind fun t ht => ?_
    rw [ht]
    refine Produces.next_cons_bind fun inner hinner => ?_
    rw [hinner]
    have hrest : (change (·.intern name) >>= fun s => expect .rightParen >>= fun _ => pure s).Produces v
        (.rightParen :: X) (· = (v.intern name).1) (v.intern name).2 X :=
      hintern.bind fun s hs => Produces.expect_bind fun _ => .pure hs
    rcases hk with hk | rfl
    · cases k <;> cases hk <;> exact hrest
    · exact hrest

/-- A declaration behind its attributes and its keyword. -/
theorem declaration_produces {incl : Include} {keyword : Keyword} {k : TokenKind} {R : List Decl → Prop}
    (h : List.Forall₂ AttributeTokens rows as) (hk : Keyword.of? k = some keyword)
    (hallowed : as = [] ∨ keyword.takesAttributes = true)
    (hread : ∀ start, (keywordDecl incl start as keyword).Produces v X R w Y) :
    (declaration incl).Produces v (rows.flatten ++ k :: X) R w Y := by
  obtain ⟨name, rfl⟩ : ∃ name, k = .ident name := by
    cases k <;> first | exact ⟨_, rfl⟩ | cases hk
  have hfirst : ∃ k Z, rows.flatten ++ .ident name :: X = k :: Z ∧ k ≠ .leftBrace ∧ k ≠ .rightBrace := by
    cases h with
    | nil => exact ⟨_, _, rfl, by simp, by simp⟩
    | cons ha _ =>
      obtain ⟨rest, rfl⟩ := ha.exists_colon
      exact ⟨_, _, rfl, by simp, by simp⟩
  obtain ⟨first, Z, hrow, hopen, hclose⟩ := hfirst
  refine Produces.peek_bind fun t ht => ?_
  rw [hrow, List.headD_cons] at ht
  rw [ht]
  have hread : ∀ start, (attributedDecl incl start).Produces v (rows.flatten ++ .ident name :: X) R w Y := by
    intro start
    refine (attributes_produces h (by simp)).bind fun found hfound => Produces.peek_bind fun t ht => ?_
    obtain ht : t.kind = .ident name := ht
    subst hfound
    rw [ht, hk]
    have hrefused : ¬ (!found.isEmpty && !keyword.takesAttributes) = true := by
      rcases hallowed with rfl | hallowed <;> simp [*]
    dsimp only
    rw [if_neg hrefused]
    exact Produces.next_cons_bind fun _ _ => hread start
  split
  · exact absurd rfl hopen
  · exact absurd rfl hclose
  · exact hread t.span

/-- Rows that are declarations, each read where the one before has left the vocabulary. -/
inductive DeclaresEach : Vocabulary → List (List TokenKind) → List Decl → Vocabulary → Prop
  | nil {v : Vocabulary} : DeclaresEach v [] [] v
  | cons {v w u : Vocabulary} {row : List TokenKind} {rows : List (List TokenKind)} {ds rest : List Decl}
      (h : ∀ incl Z, (declaration incl).Produces v (row ++ Z) (SameParts · ds) w Z)
      (hs : DeclaresEach w rows rest u) : DeclaresEach v (row :: rows) (ds ++ rest) u

/-- Declarations up to the end of a text. -/
theorem DeclaresEach.produces {incl : Include} {ds : List Decl} (h : DeclaresEach v rows ds w)
    (hrows : ∀ row ∈ rows, row.headD .endOfInput ≠ .endOfInput) (hX : X.headD .endOfInput = .endOfInput) :
    (declarations incl).Produces v (rows.flatten ++ X) (SameParts · ds) w X := by
  suffices hall : ∀ found n, (rows.flatten ++ X).length < n → (rounds (fun found => do
      if (← peek).kind = .endOfInput then pure (.done found)
      else pure (.again (found ++ (← declaration incl)))) n found).Produces v (rows.flatten ++ X)
        (fun ds' => ∃ rest, ds' = found ++ rest ∧ SameParts rest ds) w X from
    .repeated ((hall [] _ (Nat.lt_succ_self _)).mono fun _ ⟨_, he, hsame⟩ => he ▸ hsame)
  intro found n hn
  obtain ⟨n, rfl⟩ : ∃ m, n = m + 1 := ⟨n - 1, by omega⟩
  induction h generalizing found n with
  | nil =>
    refine Produces.rounds_done (Produces.peek_bind fun t ht => ?_)
    rw [if_pos (ht.trans hX)]
    exact .pure ⟨found, rfl, [], (List.append_nil found).symm, rfl⟩
  | @cons v w u row rows ds rest hrow _ ih =>
    have hhead := hrows row List.mem_cons_self
    obtain ⟨k, row, rfl⟩ : ∃ k rest, row = k :: rest :=
      List.exists_cons_of_ne_nil (by rintro rfl; exact hhead rfl)
    rw [List.flatten_cons, List.append_assoc] at hn ⊢
    refine Produces.rounds_again (P := fun found' => ∃ ds', found' = found ++ ds' ∧ SameParts ds' ds)
      (Y := rows.flatten ++ X) (w := w) (Produces.peek_bind fun t ht => ?_) ?_
    · rw [if_neg (ht ▸ hhead)]
      exact (hrow incl _).bind fun ds' hds => .pure ⟨_, rfl, ds', rfl, hds⟩
    · rintro _ ⟨ds', rfl, hds⟩
      rw [List.length_append, List.length_cons] at hn
      obtain ⟨n, rfl⟩ : ∃ m, n = m + 1 := ⟨n - 1, by omega⟩
      refine (ih (fun r hr => hrows r (List.mem_cons_of_mem _ hr)) (found ++ ds') n (by omega)).mono ?_
      rintro _ ⟨rest', rfl, hrest⟩
      exact ⟨ds' ++ rest', List.append_assoc _ _ _, hds.append hrest⟩

end Parse

/-- Every text of these tokens is read as these declarations, but for places, whatever units there are, and
leaves that vocabulary. -/
def Vocabulary.Declares (v : Vocabulary) (kinds : List TokenKind) (ds : List Decl) (w : Vocabulary) : Prop :=
  ∀ (loader : Loader) (source text : String), (Scan.ofText source text).ConsistsOf kinds →
    ∃ ds', parseText v loader source text = (.ok ds', w) ∧ SameParts ds' ds

namespace Parse

theorem exists_program_eq (loader : Loader) : ∃ incl, program loader = declarations incl := by
  rw [program]
  cases loader.texts.length <;> exact ⟨_, rfl⟩

/-- A text of nothing but declarations. -/
theorem DeclaresEach.declares {v w : Vocabulary} {rows : List (List TokenKind)} {ds : List Decl}
    (h : DeclaresEach v rows ds w) (hrows : ∀ row ∈ rows, row ≠ [] ∧ .endOfInput ∉ row) :
    v.Declares rows.flatten ds w := by
  intro loader source text hk
  have hend : .endOfInput ∉ rows.flatten := fun hm => by
    obtain ⟨row, hrow, hm⟩ := List.mem_flatten.1 hm
    exact (hrows row hrow).2 hm
  have hhead : ∀ row ∈ rows, row.headD .endOfInput ≠ .endOfInput := by
    rintro row hrow hhead
    obtain ⟨k, row, rfl⟩ := List.exists_cons_of_ne_nil (hrows row hrow).1
    exact (hrows _ hrow).2 (hhead ▸ List.mem_cons_self)
  obtain ⟨ends, hshows, hends⟩ := hk.exists_ends hend
  obtain ⟨incl, hincl⟩ := exists_program_eq loader
  obtain ⟨ds', s, hrun, hsame, hs⟩ := h.produces hhead hends (.initial v [] source text) ⟨rfl, hshows⟩
  refine ⟨ds', ?_, hsame⟩
  rw [parseText, hincl, Parse.run, hrun, ← hs.vocabulary]

end Parse

end Clausal
