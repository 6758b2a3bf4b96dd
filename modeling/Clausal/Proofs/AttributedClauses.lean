import Clausal.Proofs.AccumulatedTexts
import Clausal.Proofs.TakenOperators

/-!
# Clauses behind attributes

The attributes in front of a clause are read one by one, and the clause itself is read the same whatever
they are. So attributes that stand in front of a clause are in front of its own.
-/
namespace Clausal

namespace Parse

section

variable {α β : Type} {body : α → Parse (Round α β)} {a a' : α} {b : β} {s s' s'' : ParseState}

/-- With more rounds allowed, a repetition that comes to an end does so alike. -/
theorem rounds_mono {n m : Nat} (hnm : n ≤ m) (h : rounds body n a s = (.ok b, s')) :
    rounds body m a s = (.ok b, s') := by
  induction n generalizing m a s with
  | zero => cases h
  | succ n ih =>
    obtain ⟨m, rfl⟩ : ∃ k, m = k + 1 := ⟨m - 1, by omega⟩
    rw [rounds] at h ⊢
    obtain ⟨round, inner, hbody, hrest⟩ := bind_eq_ok h
    rw [Pairing.bind_of_ok hbody]
    cases round with
    | again a => exact ih (Nat.le_of_succ_le_succ hnm) hrest
    | done b => exact hrest

/-- The rounds that lead from one state to another. Each of them takes an item. -/
inductive Rolls (body : α → Parse (Round α β)) : α → ParseState → α → ParseState → Prop
  | refl (a : α) (s : ParseState) : Rolls body a s a s
  | step {a a₁ a' : α} {s s₁ s' : ParseState} (first : body a s = (.ok (.again a₁), s₁))
      (taken : s₁.ahead.items.length < s.ahead.items.length) (others : Rolls body a₁ s₁ a' s') :
      Rolls body a s a' s'

namespace Rolls

/-- There are as many rounds left as are needed. -/
theorem rounds_eq (h : Rolls body a s a' s') {n : Nat} (hn : s.ahead.items.length < n) :
    ∃ m, s'.ahead.items.length < m ∧ rounds body n a s = rounds body m a' s' := by
  induction h generalizing n with
  | refl => exact ⟨n, hn, rfl⟩
  | step first taken others ih =>
    obtain ⟨n, rfl⟩ : ∃ k, n = k + 1 := ⟨n - 1, by omega⟩
    obtain ⟨m, hm, heq⟩ := ih (n := n) (by omega)
    exact ⟨m, hm, by rw [rounds, Pairing.bind_of_ok first, ← heq]⟩

theorem repeated_of_ok (h : Rolls body a s a' s') (hrest : repeated body a' s' = (.ok b, s'')) :
    repeated body a s = (.ok b, s'') := by
  obtain ⟨m, hm, heq⟩ := h.rounds_eq (Nat.lt_succ_self _)
  rw [repeated, heq]
  exact rounds_mono hm hrest

theorem repeated_of_done (h : Rolls body a s a' s') (hbody : body a' s' = (.ok (.done b), s'')) :
    repeated body a s = (.ok b, s'') :=
  h.repeated_of_ok (Pairing.bind_of_ok hbody)

theorem repeated_of_error (h : Rolls body a s a' s') {e : ParseError}
    (hbody : body a' s' = (.error e, s'')) : repeated body a s = (.error e, s'') := by
  obtain ⟨m, hm, heq⟩ := h.rounds_eq (Nat.lt_succ_self _)
  obtain ⟨m, rfl⟩ : ∃ k, m = k + 1 := ⟨m - 1, by omega⟩
  rw [repeated, heq]
  exact Pairing.bind_of_error hbody

end Rolls

end

/-- Whatever the step makes is so. -/
def Makes {α : Type} (p : Parse α) (Q : α → Prop) : Prop := ∀ s a s', p s = (.ok a, s') → Q a

namespace Makes

variable {α β : Type} {p : Parse α} {f : α → Parse β} {Q : α → Prop} {R : β → Prop}

theorem pure {a : α} (h : Q a) : Makes (Pure.pure a) Q := by
  intro s b s' hrun
  exact Except.ok.inj (Prod.mk.inj hrun).1 ▸ h

theorem failAt {span : Span} {fault : SyntaxFault} : Makes (Parse.failAt span fault) Q :=
  fun _ _ _ hrun => (by cases (Prod.mk.inj hrun).1)

theorem bind (hp : Makes p Q) (hf : ∀ a, Q a → Makes (f a) R) : Makes (p >>= f) R := by
  intro s b s' hrun
  obtain ⟨a, inner, hps, hfs⟩ := bind_eq_ok hrun
  exact hf a (hp s a inner hps) inner b s' hfs

/-- Only the last step decides. -/
theorem after (hf : ∀ a, Makes (f a) R) : Makes (p >>= f) R :=
  bind (Q := fun _ => True) (fun _ _ _ _ => trivial) fun a _ => hf a

end Makes

end Parse

/-- Whether a declaration is a clause. -/
def Decl.isClause : Decl → Bool
  | .clause _ => true
  | _ => false

namespace Parse

variable {incl : Include} {start : Span}

namespace Makes

/-- The step makes a declaration that is no clause. -/
abbrev Other (p : Parse Decl) : Prop := Makes p fun d => d.isClause = false

/-- The step makes declarations, at least one, of which none is a clause. -/
abbrev Others (p : Parse (List Decl)) : Prop := Makes p fun ds => ds ≠ [] ∧ ∀ d ∈ ds, d.isClause = false

theorem others_single {p : Parse Decl} (h : Other p) : Others (p >>= fun d => Pure.pure [d]) :=
  h.bind fun _ hd => pure (by simpa using hd)

theorem typeDecl (found : List Attribute) : Other (typeDecl start found) :=
  after fun _ => after fun _ => after fun _ => after fun _ => pure rfl

theorem predicate (found : List Attribute) : Others (predicate start found) := by
  refine after fun name => after fun t => ?_
  split
  · exact after fun args => after fun _ => after fun _ => pure (by simp [Decl.isClause])
  · exact after fun args => after fun _ => after fun _ => pure (by simp [Decl.isClause])

theorem macroDecl : Other (macroDecl start) := by
  refine after fun t => after fun _ => after fun span => ?_
  split
  · refine after fun v => ?_
    split
    · exact after fun _ => pure rfl
    · exact failAt
  · exact failAt

theorem typeAbbreviation : Other (typeAbbreviation start) := by
  refine after fun head => after fun value => after fun _ => after fun span => ?_
  split
  · exact after fun _ => pure rfl
  · exact after fun _ => failAt

theorem ruleDecl (found : List Attribute) : Other (ruleDecl start found) := by
  refine after fun matched => after fun t => ?_
  have hgoal : ∀ removed guard, Other (do
      let goal ← if ← eatSymbol "<=>" then some <$> sequent else Pure.pure none
      let _ ← expect .stop
      Pure.pure (.rule ⟨matched, removed, guard, goal, found, ← spanFrom start⟩)) := by
    intro removed guard
    refine after fun arrow => ?_
    split_ifs <;> exact after fun _ => after fun _ => after fun _ => pure rfl
  have hguard : ∀ removed, Other (do
      let guard ← if ← eatSymbol "|" then some <$> closedTerm else Pure.pure none
      let goal ← if ← eatSymbol "<=>" then some <$> sequent else Pure.pure none
      let _ ← expect .stop
      Pure.pure (.rule ⟨matched, removed, guard, goal, found, ← spanFrom start⟩)) := by
    intro removed
    refine after fun bar => ?_
    split_ifs <;> exact after fun guard => hgoal removed guard
  dsimp only
  split_ifs
  · exact after fun _ => after hguard
  · exact after hguard

theorem localDecls : Others (localDecls start) := by
  refine after fun names => after fun t => ?_
  split_ifs
  · exact after fun _ => after fun _ => pure (by simp [Decl.isClause])
  · exact after fun _ => after fun _ => after fun _ => pure (by simp [Decl.isClause, typesOf])

theorem externalDecl (found : List Attribute) : Others (externalDecl start found) := by
  refine after fun t => ?_
  dsimp only
  split
  · exact others_single (typeDecl _)
  · exact others_single (typeDecl _)
  · exact predicate _
  · exact failAt

theorem keywordDecl (found : List Attribute) (keyword : Keyword) :
    Others (keywordDecl incl start found keyword) := by
  have hplain : ∀ {d : Decl}, d.isClause = false → [d] ≠ [] ∧ ∀ e ∈ [d], e.isClause = false :=
    fun hd => by simpa using hd
  cases keyword with
  | nameSpace => exact after fun _ => after fun _ => after fun _ => pure (hplain rfl)
  | constraint => exact after fun _ => after fun _ => pure (hplain rfl)
  | shorten => exact after fun _ => after fun _ => after fun _ => pure (hplain rfl)
  | localNames => exact localDecls
  | type | kind => exact others_single (typeDecl found)
  | external => exact externalDecl found
  | mode => exact after fun _ => after fun _ => pure (hplain rfl)
  | pred => exact predicate found
  | macroDef => exact others_single macroDecl
  | typeAbbreviation => exact others_single typeAbbreviation
  | rule => exact others_single (ruleDecl found)
  | accumulate => exact others_single (after fun _ => after fun _ => after fun _ => pure rfl)
  | fixity f => exact after fun _ => after fun _ => after fun _ => pure (hplain rfl)

end Makes

/-- One round of reading attributes. -/
def attributeRound (found : List Attribute) : Parse (Round (List Attribute) (List Attribute)) := do
  if ← eatSymbol ":" then pure (.again (found ++ [← oneAttribute]))
  else pure (.done found)

theorem attributes_eq : attributes = repeated attributeRound [] := rfl

/-- A clause, of whose attributes some have been read. Where a keyword follows them there is none. -/
def clauseBehind (found : List Attribute) (start : Span) : Parse (Clause (List Attribute)) := do
  let attributes ← repeated attributeRound found
  let t ← peek
  if (Keyword.of? t.kind).isSome then failAt t.span (.unexpected t.kind)
  else
    let body ← term
    let _ ← expect .stop
    pure ⟨← spanFrom start, attributes, body⟩

section

variable {c : Clause (List Attribute)} {ds : List Decl} {s s₁ : ParseState} {t : Token}

theorem clauseBehind_eq_ok {found : List Attribute} (h : clauseBehind found start s = (.ok c, s₁)) :
    ∃ s₂ t s₃ s₄ stop, repeated attributeRound found s = (.ok c.attributes, s₂) ∧ peek s₂ = (.ok t, s₃) ∧
      Keyword.of? t.kind = none ∧ term s₃ = (.ok c.body, s₄) ∧ expect .stop s₄ = (.ok stop, s₁) ∧
      c.span = start.merge s₁.last := by
  obtain ⟨attributes, s₂, hattributes, h⟩ := bind_eq_ok h
  obtain ⟨t, s₃, ht, h⟩ := bind_eq_ok h
  split_ifs at h with hkeyword
  · cases h
  obtain ⟨body, s₄, hbody, h⟩ := bind_eq_ok h
  obtain ⟨stop, s₅, hstop, h⟩ := bind_eq_ok h
  obtain ⟨hc, rfl⟩ := Prod.mk.inj h
  obtain rfl := Except.ok.inj hc
  exact ⟨s₂, t, s₃, s₄, stop, hattributes, ht, Option.not_isSome_iff_eq_none.1 hkeyword, hbody, hstop, rfl⟩

/-- Behind its attributes a declaration is a clause, or begins with a keyword. -/
theorem attributedDecl_eq_ok (h : attributedDecl incl start s = (.ok ds, s₁)) :
    (∃ c, ds = [.clause c] ∧ clauseBehind [] start s = (.ok c, s₁)) ∨
      ds ≠ [] ∧ ∀ d ∈ ds, d.isClause = false := by
  obtain ⟨found, s₂, hfound, h⟩ := bind_eq_ok h
  obtain ⟨t, s₃, ht, h⟩ := bind_eq_ok h
  rcases hkeyword : Keyword.of? t.kind with _ | keyword <;> rw [hkeyword] at h
  · obtain ⟨body, s₄, hbody, h⟩ := bind_eq_ok h
    obtain ⟨stop, s₅, hstop, h⟩ := bind_eq_ok h
    obtain ⟨hds, rfl⟩ := Prod.mk.inj h
    refine .inl ⟨_, (Except.ok.inj hds).symm, ?_⟩
    rw [attributes_eq] at hfound
    rw [clauseBehind, Pairing.bind_of_ok hfound, Pairing.bind_of_ok ht, hkeyword, if_neg (by simp),
      Pairing.bind_of_ok hbody, Pairing.bind_of_ok hstop]
    rfl
  · -- What a keyword begins is no clause, with attributes or without.
    right
    dsimp only at h
    split_ifs at h
    · cases h
    · obtain ⟨_, s₄, -, h⟩ := bind_eq_ok h
      exact Makes.keywordDecl found keyword _ _ _ h

theorem attributedDecl_of_clause (h : clauseBehind [] start s = (.ok c, s₁)) :
    attributedDecl incl start s = (.ok [.clause c], s₁) := by
  obtain ⟨s₂, t, s₃, s₄, stop, hattributes, ht, hkeyword, hbody, hstop, hspan⟩ := clauseBehind_eq_ok h
  rw [← attributes_eq] at hattributes
  rw [attributedDecl, Pairing.bind_of_ok hattributes, Pairing.bind_of_ok ht, hkeyword]
  refine (Pairing.bind_of_ok hbody).trans ((Pairing.bind_of_ok hstop).trans ?_)
  obtain ⟨span, attributes, body⟩ := c
  obtain rfl : span = start.merge s₁.last := hspan
  rfl

/-- A declaration is read either to the one clause behind no attribute, or to declarations none of which is a
clause. -/
theorem declaration_eq_ok (h : declaration incl s = (.ok ds, s₁)) (hget : s.ahead.get 0 = .token t) :
    (∃ c, ds = [.clause c] ∧ clauseBehind [] t.span s = (.ok c, s₁)) ∨
      ds ≠ [] ∧ ∀ d ∈ ds, d.isClause = false := by
  have hbrace : ∀ d : Decl, d.isClause = false → Makes.Others (next >>= fun _ => pure [d]) :=
    fun d hd => Makes.after fun _ => Makes.pure (by simpa using hd)
  rw [declaration, Pairing.bind_of_ok (peek_of_token hget)] at h
  generalize t.kind = kind at h
  split at h
  · exact .inr (hbrace _ rfl _ _ _ h)
  · exact .inr (hbrace _ rfl _ _ _ h)
  · exact attributedDecl_eq_ok h

end

namespace Comparison

variable {C : Comparison} {W : World} {a b : Span}

/-- What has been found before is in front of what is found. -/
theorem reads_attributesBehind (front : List Attribute) :
    C.Reads W (fun _ x y => x = front ++ y) (Parse.repeated attributeRound front)
      (Parse.repeated attributeRound []) := by
  refine reads_repeated (A := fun _ x y => x = front ++ y) (List.append_nil front).symm
    fun {W' x y} _ hxy => ?_
  subst hxy
  refine eatSymbol_bind ":" fun {colon} => ?_
  cases colon with
  | true =>
    refine reads_bind reads_oneAttribute fun {_ x' y'} _ hxy => reads_pure rfl ?_
    obtain rfl : x' = y' := hxy
    exact List.append_assoc front y [x']
  | false => exact reads_pure rfl rfl

/-- The same clause, with more attributes in front of its own. -/
theorem reads_clauseBehind (front : List Attribute) (hab : C.spans a b) :
    C.Closes W (fun W' c c' => c.attributes = front ++ c'.attributes ∧ C.terms W' c.body c'.body)
      (clauseBehind front a) (clauseBehind [] b) := by
  refine reads_bind (reads_attributesBehind front) fun {_ x y} _ hxy => peek_bind fun {t t'} ht => C.reopen _ ?_
  rw [← ht.kind]
  split_ifs
  · exact failAt ht.span _
  · refine reads_bind reads_term fun _ hbody => expectClose_bind rfl (spanFrom_bind hab fun _ => ?_)
    exact reads_pure rfl ⟨hxy, hbody⟩

end Comparison

section

variable {loader : Loader} {c : Clause (List Attribute)} {s s' s₁ : ParseState}

/-- The clause is read the same wherever it stands, whatever attributes stand in front of it. -/
theorem clauseBehind_anywhere (front : List Attribute) {a b : Span} (hv : s.vocabulary.Reachable)
    (hm : s'.moment = s.moment) (hahead : s'.ahead.Matches Anywhere s.ahead)
    (h : clauseBehind [] b s = (.ok c, s₁)) :
    ∃ c' s₁', clauseBehind front a s' = (.ok c', s₁') ∧ c'.attributes = front ++ c.attributes ∧
      SameParts c'.body c.body ∧ s₁'.moment = s₁.moment ∧ s₁'.ahead.Matches Anywhere s₁.ahead := by
  have hv' : s'.vocabulary.Reachable := by
    rwa [show s'.vocabulary = s.vocabulary from congrArg Moment.vocabulary hm]
  have hstep : Pairing.anywhere.InStep ⟨s'.moment, s.moment⟩ s' s := ⟨rfl, rfl, hahead, trivial⟩
  have hkeep := Comparison.reads_clauseBehind (C := Pairing.anywhere.comparison)
    (W := ⟨s'.moment, s.moment⟩) (a := a) (b := b) front trivial ⟨hm, hv'⟩
  obtain ⟨W, -, hW, he⟩ := (hkeep.together _ _ hstep).resolve_left id
  rw [h] at he
  rcases hc : clauseBehind front a s' with ⟨e | c', s₁'⟩ <;> rw [hc] at he
  · exact he.elim
  · obtain ⟨⟨-, hattributes, hbody⟩, hs₁⟩ := he
    have hj : (W.matching Anywhere).Joins .unlocated .unlocated :=
      Pairing.joins_unlocated hW.2 (congrArg Moment.vocabulary hW.1)
    have hmoment : s₁'.moment = s₁.moment := hs₁.left.trans (hW.1.trans hs₁.right.symm)
    exact ⟨c', s₁', rfl, hattributes, hbody.alike _ _ hj, hmoment, hs₁.ahead⟩

/-- Every declaration yields something, so a text that yields nothing is at its end. -/
theorem Row.nil_inv (h : Row loader s [] s') : s' = s ∧ (s.ahead.get 0).kind? = some .endOfInput := by
  generalize hds : ([] : List Decl) = ds at h
  cases h with
  | nil hend => exact ⟨rfl, hend⟩
  | @cons _ s₁ _ t es rest get goesOn first others =>
    rcases declaration_eq_ok first get with ⟨c, rfl, -⟩ | ⟨hne, -⟩
    · cases hds
    · exact absurd (List.append_eq_nil_iff.1 hds.symm).1 hne

/-- A text that yields one clause consists of its tokens. -/
theorem Row.clause_inv (h : Row loader s [.clause c] s') :
    ∃ t, s.ahead.get 0 = .token t ∧ t.kind ≠ .endOfInput ∧ clauseBehind [] t.span s = (.ok c, s') ∧
      (s'.ahead.get 0).kind? = some .endOfInput := by
  generalize hds : [Decl.clause c] = ds at h
  cases h with
  | nil => cases hds
  | @cons _ s₁ _ t es rest get goesOn first others =>
    rcases declaration_eq_ok first get with ⟨d, rfl, hclause⟩ | ⟨hne, hother⟩
    · obtain ⟨hd, rfl⟩ := List.cons.inj hds
      obtain rfl := Decl.clause.inj hd
      obtain ⟨rfl, hend⟩ := others.nil_inv
      exact ⟨t, get, goesOn, hclause, hend⟩
    · -- The first declaration is the clause, so it is not one of another kind.
      obtain ⟨d, es, rfl⟩ := List.exists_cons_of_ne_nil hne
      obtain ⟨rfl, -⟩ := List.cons.inj hds
      exact Bool.noConfusion (hother _ List.mem_cons_self)

variable {t : Token} {found : List Attribute} {e : ParseError}

theorem Rolls.clauseBehind {front : List Attribute} (h : Rolls attributeRound front s found s')
    (hc : clauseBehind found start s' = (.ok c, s₁)) : clauseBehind front start s = (.ok c, s₁) := by
  obtain ⟨attributes, s₂, hattributes, hrest⟩ := bind_eq_ok hc
  rw [Parse.clauseBehind, Pairing.bind_of_ok (h.repeated_of_ok hattributes)]
  exact hrest

theorem contents_of_clauseBehind (hs : Steady s) (hget : s.ahead.get 0 = .token t)
    (ht : t.kind = .symbolic ":") (hc : clauseBehind [] t.span s = (.ok c, s₁))
    (hend : (s₁.ahead.get 0).kind? = some .endOfInput) : contents loader s = (.ok [.clause c], s₁) := by
  have hgoes : t.kind ≠ .endOfInput := by simp [ht]
  have hdecl : declaration (includeUnit loader (program loader)) s = (.ok [.clause c], s₁) :=
    (declaration_attributed _ hget (by simp [ht]) (by simp [ht])).trans (attributedDecl_of_clause hc)
  rw [contents_of_declaration hs hget hgoes hdecl, contents_of_end hend]
  rfl

theorem contents_of_attribute_error (hget : s.ahead.get 0 = .token t) (ht : t.kind = .symbolic ":")
    (hrolls : Rolls attributeRound [] s found s') (he : attributeRound found s' = (.error e, s₁)) :
    contents loader s = (.error e, s₁) := by
  have hgoes : t.kind ≠ .endOfInput := by simp [ht]
  have hattributes : attributes s = (.error e, s₁) := hrolls.repeated_of_error he
  have hdecl : declaration (includeUnit loader (program loader)) s = (.error e, s₁) :=
    (declaration_attributed _ hget (by simp [ht]) (by simp [ht])).trans
      (Pairing.bind_of_error hattributes)
  rw [contents_eq_rounds, rounds_of_refused (peek_of_token hget) hgoes hdecl]

end

end Parse

end Clausal
