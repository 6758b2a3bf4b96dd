import Clausal.Proofs.TermTexts

/-!
# Applications

An argument is one token or stands in brackets, so the rows of a head and of its arguments are taken apart
again in one way only. The tree of an application has its arguments one by one, and is thus the same
wherever the parentheses around its front are closed.
-/
namespace Clausal

/-- The rows are read one after the other, each by itself. -/
inductive Vocabulary.ReadsEach : Vocabulary → List (List TokenKind) → List Term → Vocabulary → Prop
  | nil {v : Vocabulary} : ReadsEach v [] [] v
  | cons {v w x : Vocabulary} {row : List TokenKind} {rows : List (List TokenKind)} {t : Term}
      {ts : List Term} (h : v.Reads row t w) (hs : ReadsEach w rows ts x) :
      ReadsEach v (row :: rows) (t :: ts) x

namespace SyntaxTree

/-- The terms of trees that stand one after the other. -/
def buildEach : List SyntaxTree → Vocabulary → List Term × Vocabulary
  | [], v => ([], v)
  | a :: as, v =>
    let (t, v) := a.build v
    let (ts, v) := buildEach as v
    (t :: ts, v)

theorem length_buildEach (as : List SyntaxTree) (v : Vocabulary) :
    (buildEach as v).1.length = as.length := by
  induction as generalizing v with
  | nil => rfl
  | cons a as ih => exact congrArg (· + 1) (ih _)

theorem buildEach_wellFormed (as : List SyntaxTree) {v : Vocabulary} (hv : v.WellFormed) :
    (buildEach as v).2.WellFormed := by
  induction as generalizing v with
  | nil => exact hv
  | cons a as ih => exact ih (a.build_wellFormed hv)

theorem build_foldl_apply (f : SyntaxTree) (as : List SyntaxTree) (v : Vocabulary) :
    (as.foldl apply f).build v = ((buildEach as (f.build v).2).1.foldl Term.applied (f.build v).1,
      (buildEach as (f.build v).2).2) := by
  induction as generalizing f with
  | nil => rfl
  | cons a as ih => exact ih (apply f a)

theorem isApplicable_foldl_apply (f : SyntaxTree) (as : List SyntaxTree) (hf : f.isApplicable = true) :
    (as.foldl apply f).isApplicable = true := by
  induction as generalizing f with
  | nil => exact hf
  | cons a as ih => exact ih _ rfl

end SyntaxTree

namespace Grammar

open Parse Precedence SyntaxTree

/-- The tokens of an argument: one that is no operator, or what stands in brackets. -/
inductive IsArgument (v : Vocabulary) : List TokenKind → Prop
  | token {k : TokenKind} (h : startsArgument v k = true) (hk : k.IsPlain) : IsArgument v [k]
  | brackets {k c : TokenKind} {C : List TokenKind} (hk : k.partner? = some c) (hC : Balanced C) :
      IsArgument v (k :: (C ++ [c]))

/-- A name that is no operator, that of a macro included, or a quotation. -/
def IsFunctor (v : Vocabulary) (k : TokenKind) : Prop :=
  startsArgument v k = true ∧ (k.word?.isSome = true ∨ ∃ raw, k = .quotation raw)

/-- The row is a term by itself, with this tree. -/
abbrev Alone (v : Vocabulary) (A : List TokenKind) (a : SyntaxTree) : Prop :=
  Derives v (.expression lowest false none) A a []

/-- Wherever no abstraction begins there, the row is an argument with this tree. -/
def Stands (v : Vocabulary) (A : List TokenKind) (a : SyntaxTree) : Prop :=
  ∀ Z : List TokenKind, Z.headD .endOfInput ≠ .backslash → Derives v .atom (A ++ Z) a Z

variable {v w : Vocabulary} {A H X Y Z C : List TokenKind} {a b f : SyntaxTree} {k c : TokenKind}
variable {args : List (List TokenKind)} {as : List SyntaxTree}

theorem readsEach_of_alone (has : List.Forall₂ (Alone v) args as) (hw : w.WellFormed)
    (hv : SameOperators v w) : w.ReadsEach args (buildEach as w).1 (buildEach as w).2 := by
  induction has generalizing w with
  | nil => exact .nil
  | @cons A a args as ha _ ih =>
    exact .cons (ha.reads_text hw hv) (ih (a.build_wellFormed hw) (hv.trans (a.build_sameOperators hw)))

theorem prefixAhead?_of_startsArgument (h : startsArgument v (X.headD .endOfInput) = true) :
    prefixAhead? v X = none := operatorBefore?_of_startsArgument h _

namespace IsArgument

theorem starts (h : IsArgument v A) (X : List TokenKind) :
    startsArgument v ((A ++ X).headD .endOfInput) = true := by
  cases h with
  | token h _ => exact h
  | @brackets k c C hk hC => cases k <;> first | rfl | cases hk

theorem balanced (h : IsArgument v A) : Balanced A := by
  cases h with
  | token _ hk => exact .plain hk .nil
  | brackets hk hC => exact hC.brackets hk

end IsArgument

theorem IsFunctor.isPlain (h : IsFunctor v k) : k.IsPlain := by
  rcases h.2 with hword | ⟨raw, rfl⟩
  · cases k with
    | ident | symbolic | macroName => exact ⟨rfl, rfl, rfl⟩
    | _ => cases hword
  · exact ⟨rfl, rfl, rfl⟩

theorem IsFunctor.isArgument (h : IsFunctor v k) : IsArgument v [k] := .token h.1 h.isPlain

theorem headD_flatten_ne_backslash (hargs : ∀ A ∈ args, IsArgument v A)
    (hZ : Z.headD .endOfInput ≠ .backslash) : (args.flatten ++ Z).headD .endOfInput ≠ .backslash := by
  cases args with
  | nil => exact hZ
  | cons A args =>
    have hstarts := (hargs A List.mem_cons_self).starts (args.flatten ++ Z)
    rw [List.flatten_cons, List.append_assoc]
    intro hback
    rw [hback] at hstarts
    cases hstarts

/-- An atom in brackets ends at the bracket that closes the first one, and stands anywhere. -/
theorem Derives.atom_brackets (h : Derives v .atom (k :: X) a Y) (hk : k.partner? = some c) :
    ∃ C, X = C ++ c :: Y ∧ Balanced C ∧ ∀ Z, Derives v .atom (k :: (C ++ c :: Z)) a Z := by
  have hclosing : ∀ {part : Part} {C : List TokenKind} (Z : List TokenKind),
      Meets v 0 part C (c :: Y) (c :: Z) := fun Z =>
    .inl (.of_name?_eq_none (TokenKind.closesBracket_of_partner? hk).2.2 rfl rfl)
  cases h with
  | single h _ =>
    rw [h.isPlain.partner] at hk
    cases hk
  | lambda => cases hk
  | @lone _ k s h =>
    cases hk
    exact ⟨[k], rfl, .plain (isPlain_of_operatorSymbol? h) .nil, fun Z => .lone h⟩
  | nil =>
    cases hk
    exact ⟨[], rfl, .nil, fun Z => .nil⟩
  | group h he =>
    cases hk
    obtain ⟨C, rfl, hC, hne⟩ := he.exists_balanced
    refine ⟨C, rfl, hC, fun Z => ?_⟩
    obtain ⟨hhead, hnext⟩ := headD_append_closing (hne rfl) .rightParen Y Z
    exact .group (by rwa [hhead, hnext] at h) (he.followedBy rfl (hclosing Z))
  | list h he =>
    cases hk
    obtain ⟨C, rfl, hC, hne⟩ := he.exists_balanced
    refine ⟨C, rfl, hC, fun Z => ?_⟩
    obtain ⟨hhead, -⟩ := headD_append_closing (hne rfl) .rightBracket Y Z
    exact .list (by rwa [hhead] at h) (he.followedBy rfl (hclosing Z))
  | spill he =>
    cases hk
    obtain ⟨C, rfl, hC, -⟩ := he.exists_balanced
    exact ⟨C, rfl, hC, fun Z => .spill (he.followedBy rfl (hclosing Z))⟩

/-- What an argument begins is that argument. -/
theorem Derives.atom_argument (h : Derives v .atom (A ++ X) a Y) (hA : IsArgument v A)
    (hX : X.headD .endOfInput ≠ .backslash) : Y = X ∧ Stands v A a := by
  cases hA with
  | @token k _ hk =>
    generalize hkX : [k] ++ X = W at h
    cases h with
    | single h _ =>
      obtain ⟨rfl, rfl⟩ := List.cons.inj hkX
      exact ⟨rfl, fun Z hZ => .single h fun ⟨_, _, hback⟩ => hZ hback⟩
    | lambda =>
      obtain ⟨-, rfl⟩ := List.cons.inj hkX
      exact absurd rfl hX
    | _ =>
      obtain ⟨rfl, -⟩ := List.cons.inj hkX
      cases hk.partner
  | @brackets k c C hk hC =>
    rw [List.cons_append, List.append_assoc] at h
    obtain ⟨D, hD, hbalanced, hstands⟩ := h.atom_brackets hk
    have hclose := (TokenKind.closesBracket_of_partner? hk).1
    obtain ⟨rfl, -, rfl⟩ := hC.eq_of_append_closing hbalanced hclose hclose hD
    refine ⟨rfl, fun Z _ => ?_⟩
    rw [List.cons_append, List.append_assoc]
    exact hstands Z

/-- The arguments of an application are those that it is written with. -/
theorem Derives.arguments_flatten (h : Derives v (.arguments f) args.flatten b Y)
    (hargs : ∀ A ∈ args, IsArgument v A) :
    ∃ as, List.Forall₂ (Stands v) args as ∧ b = as.foldl apply f ∧ Y = [] ∧
      (args ≠ [] → f.isApplicable = true) := by
  induction args generalizing f with
  | nil =>
    generalize hX : ([] : List (List TokenKind)).flatten = X at h
    cases h with
    | noArgument _ => exact ⟨[], .nil, rfl, hX.symm, fun hne => absurd rfl hne⟩
    | argument hstarts _ _ _ =>
      subst hX
      cases hstarts
  | cons A args ih =>
    have hA := hargs A List.mem_cons_self
    have hrest := fun B hB => hargs B (List.mem_cons_of_mem A hB)
    generalize hX : (A :: args).flatten = X at h
    cases h with
    | noArgument hno =>
      subst hX
      rw [List.flatten_cons, hA.starts] at hno
      cases hno
    | argument _ hf ha hs =>
      subst hX
      have hback := headD_flatten_ne_backslash (Z := []) hrest (by simp)
      rw [List.append_nil] at hback
      obtain ⟨rfl, hstands⟩ := ha.atom_argument hA hback
      obtain ⟨as, has, rfl, hY, -⟩ := ih hs hrest
      exact ⟨_ :: as, .cons hstands has, rfl, hY, fun _ => hf⟩

/-- A term that is written as a head with arguments has the tree of that application. -/
theorem Derives.application_flatten
    (h : Alone v (H ++ args.flatten) a) (hH : IsArgument v H)
    (hargs : ∀ A ∈ args, IsArgument v A) :
    ∃ f as, Stands v H f ∧ List.Forall₂ (Stands v) args as ∧ a = as.foldl apply f ∧
      (args ≠ [] → f.isApplicable = true) := by
  have hahead := prefixAhead?_of_startsArgument (hH.starts args.flatten)
  have hback := headD_flatten_ne_backslash (Z := []) hargs (by simp)
  rw [List.append_nil] at hback
  cases h with
  | expression ho hc =>
    generalize hX : H ++ args.flatten = X at ho hahead
    cases ho with
    | before hbefore _ _ =>
      rw [hahead] at hbefore
      cases hbefore
    | application _ ha hs =>
      subst hX
      obtain ⟨rfl, hstands⟩ := ha.atom_argument hH hback
      obtain ⟨as, has, rfl, rfl, hf⟩ := hs.arguments_flatten hargs
      generalize hX : ([] : List TokenKind) = X at hc
      cases hc with
      | stop _ => exact ⟨_, as, hstands, has, rfl, hf⟩
      | after => cases hX
      | between => cases hX

theorem Stands.arguments (has : List.Forall₂ (Stands v) args as) (hargs : ∀ A ∈ args, IsArgument v A)
    (hf : args ≠ [] → f.isApplicable = true) (hZ : startsArgument v (Z.headD .endOfInput) = false)
    (hback : Z.headD .endOfInput ≠ .backslash) :
    Derives v (.arguments f) (args.flatten ++ Z) (as.foldl apply f) Z := by
  induction has generalizing f with
  | nil => exact .noArgument hZ
  | @cons A a args as ha has ih =>
    have hrest := fun B hB => hargs B (List.mem_cons_of_mem A hB)
    rw [List.flatten_cons, List.append_assoc]
    refine .argument ((hargs A List.mem_cons_self).starts _) (hf (List.cons_ne_nil _ _))
      (ha _ (headD_flatten_ne_backslash hrest hback)) ?_
    exact ih hrest fun _ => rfl

/-- Rows that stand by themselves make up an application in front of what no name begins. -/
theorem Stands.expression (hH : Stands v H f) (hargument : IsArgument v H)
    (has : List.Forall₂ (Stands v) args as) (hargs : ∀ A ∈ args, IsArgument v A)
    (hf : args ≠ [] → f.isApplicable = true) (hZ : startsArgument v (Z.headD .endOfInput) = false)
    (hname : (Z.headD .endOfInput).name? = none) (hback : Z.headD .endOfInput ≠ .backslash) :
    Derives v (.expression lowest false none) (H ++ (args.flatten ++ Z)) (as.foldl apply f) Z := by
  have hahead := prefixAhead?_of_startsArgument (hargument.starts (args.flatten ++ Z))
  refine .expression (.application hahead (hH _ (headD_flatten_ne_backslash hargs hback))
    (Stands.arguments has hargs hf hZ hback)) (.stop (forall_operatorAhead?_of_name?_eq_none hname))

/-- An argument is a term by itself. -/
theorem Stands.alone (h : Stands v A a) (hA : IsArgument v A) : Alone v A a := by
  have hexpression := h.expression hA (.nil : List.Forall₂ (Stands v) [] []) (fun _ hm => (by cases hm))
    (fun hne => absurd rfl hne) (Z := []) rfl rfl (by simp)
  rwa [List.flatten_nil, List.append_nil, List.append_nil] at hexpression

theorem Stands.alones (has : List.Forall₂ (Stands v) args as) (hargs : ∀ A ∈ args, IsArgument v A) :
    List.Forall₂ (Alone v) args as := by
  induction has with
  | nil => exact .nil
  | @cons A a args as ha _ ih =>
    exact .cons (ha.alone (hargs A List.mem_cons_self)) (ih fun B hB => hargs B (List.mem_cons_of_mem A hB))

theorem Stands.buildEach_ne_nil (has : List.Forall₂ (Stands v) args as) (hne : args ≠ [])
    (w : Vocabulary) : (buildEach as w).1 ≠ [] := by
  rw [← List.length_pos_iff, length_buildEach, ← has.length_eq]
  exact List.length_pos_iff.2 hne

/-- A name or a quotation is a constant or a quotation. -/
theorem Stands.isHead (h : Stands v [k] f) (hk : IsFunctor v k) (w : Vocabulary) :
    (∃ s, (f.build w).1 = .const s) ∨ ∃ q, (f.build w).1 = .quoted q := by
  have hatom := h [] (by simp)
  generalize hX : [k] ++ [] = X at hatom
  cases hatom with
  | single hs _ =>
    obtain ⟨rfl, -⟩ := List.cons.inj hX
    cases hs with
    | @name n _ =>
      rw [build_ofName, nameTerm]
      split_ifs <;> exact .inl ⟨_, rfl⟩
    | symbolic | macroName => exact .inl ⟨_, rfl⟩
    | quotation => exact .inr ⟨_, rfl⟩
    | _ => rcases hk.2 with hword | ⟨_, hraw⟩ <;> first | cases hword | cases hraw
  | lambda => cases (List.cons.inj hX).2
  | _ =>
    obtain ⟨rfl, -⟩ := List.cons.inj hX
    cases hk.isPlain.partner

end Grammar

namespace SameParts

variable {t head : Term} {ts us : List Term}

/-- What is an application but for places is one. -/
theorem of_app (h : SameParts t (.app head us)) :
    ∃ head' ts, t = .app head' ts ∧ SameParts head' head ∧ SameParts ts us := by
  cases t with
  | app head' ts =>
    obtain ⟨hhead, hargs⟩ := Term.app.inj h
    rw [Term.relabeledAll_eq_map, Term.relabeledAll_eq_map] at hargs
    exact ⟨head', ts, rfl, hhead, hargs⟩
  | _ => cases h

theorem isHead (h : SameParts t head) (hh : (∃ s, head = .const s) ∨ ∃ q, head = .quoted q) :
    (∃ s, t = .const s) ∨ ∃ q, t = .quoted q := by
  rcases hh with ⟨s, rfl⟩ | ⟨q, rfl⟩
  · cases t with
    | const s' => exact .inl ⟨s', rfl⟩
    | _ => cases h
  · cases t with
    | quoted q' => exact .inr ⟨q', rfl⟩
    | _ => cases h

end SameParts

section

open Grammar Precedence SyntaxTree

variable {v w x : Vocabulary} {rows args : List (List TokenKind)} {t : Term} {ts us : List Term}
variable {h : TokenKind} {H : List TokenKind} {text : String} {f : SyntaxTree} {as : List SyntaxTree}

theorem Vocabulary.ReadsEach.of_sameParts (hs : v.ReadsEach rows ts x) (hu : SameParts us ts) :
    v.ReadsEach rows us x := by
  induction hs generalizing us with
  | nil =>
    cases us with
    | nil => exact .nil
    | cons => cases hu
  | cons ht _ ih =>
    obtain ⟨u, us, rfl, hfirst, hrest⟩ := SameParts.of_cons hu
    exact .cons (ht.of_sameParts (Eq.symm hfirst)) (ih hrest)

theorem Term.foldl_applied {head : Term} (hhead : (∃ s, head = .const s) ∨ ∃ q, head = .quoted q)
    (hts : ts ≠ []) : ts.foldl Term.applied head = .app head ts := by
  obtain ⟨u, us, rfl⟩ := List.exists_cons_of_ne_nil hts
  rcases hhead with ⟨s, rfl⟩ | ⟨q, rfl⟩ <;> exact foldl_applied_app _ [u] us

/-- The term of an application whose head is a name or a quotation. -/
theorem Grammar.Stands.of_sameParts_application (hf : Stands v [h] f) (hh : IsFunctor v h)
    (has : List.Forall₂ (Stands v) args as) (hargs : ∀ A ∈ args, IsArgument v A) (hne : args ≠ [])
    (hv : v.WellFormed) (ht : SameParts t ((as.foldl apply f).build v).1) :
    ∃ head ts, t = .app head ts ∧ ((∃ s, head = .const s) ∨ ∃ q, head = .quoted q) ∧
      v.ReadsEach ([h] :: args) (head :: ts) ((as.foldl apply f).build v).2 := by
  have hhead := hf.isHead hh v
  have hterms := Stands.buildEach_ne_nil has hne (f.build v).2
  rw [build_foldl_apply, Term.foldl_applied hhead hterms] at ht
  rw [build_foldl_apply]
  obtain ⟨head, ts, rfl, hsame, hsames⟩ := ht.of_app
  refine ⟨head, ts, rfl, hsame.isHead hhead, ?_⟩
  have hread := (hf.alone hh.isArgument).reads_text hv (.refl v)
  have hreads := readsEach_of_alone (Stands.alones has hargs) (f.build_wellFormed hv) (f.build_sameOperators hv)
  exact .cons (hread.of_sameParts (Eq.symm hsame)) (hreads.of_sameParts hsames)

/-- Wherever the parentheses around the front of an application are closed, the tree is the same. -/
theorem Grammar.Stands.split {front back : List (List TokenKind)} (hf : Stands v [h] f)
    (hh : IsFunctor v h) (hargs : ∀ A ∈ front ++ back, IsArgument v A)
    (has : List.Forall₂ (Stands v) (front ++ back) as) (happ : f.isApplicable = true) :
    Alone v (.leftParen :: h :: (front.flatten ++ .rightParen :: back.flatten)) (as.foldl apply f) := by
  have hfront := (List.forall₂_take_append as front back has.flip).flip
  have hback := (List.forall₂_drop_append as front back has.flip).flip
  have hargs₁ := fun A hA => hargs A (List.mem_append_left back hA)
  have hargs₂ := fun A hA => hargs A (List.mem_append_right front hA)
  have hgroup : Stands v (.leftParen :: (h :: front.flatten ++ [.rightParen]))
      ((as.take front.length).foldl apply f) := by
    intro Z _
    have hinner := hf.expression hh.isArgument hfront hargs₁ (fun _ => happ) (Z := .rightParen :: Z) rfl
      rfl (by simp)
    simp only [List.cons_append, List.append_assoc, List.nil_append] at hinner ⊢
    exact .group (.inl (Parse.operatorSymbol?_of_startsArgument hh.1)) hinner
  have hbalanced : Balanced (h :: front.flatten) :=
    .plain hh.isPlain (.flatten fun A hA => (hargs₁ A hA).balanced)
  have hsplit := hgroup.expression (.brackets rfl hbalanced) hback hargs₂
    (fun _ => isApplicable_foldl_apply f _ happ) (Z := []) rfl rfl (by simp)
  rw [← List.foldl_append, List.take_append_drop] at hsplit
  simpa only [List.cons_append, List.append_assoc, List.nil_append, List.append_nil] using hsplit

/-- Where an application is read whose head is a name or a quotation, its term has the arguments in their
order, and it is the term with parentheses around any front of it. -/
theorem Grammar.reads_application (hv : v.Reachable) (hh : IsFunctor v h) (hne : args ≠ [])
    (hargs : ∀ A ∈ args, IsArgument v A)
    (hk : (Scan.ofText "<term>" text).ConsistsOf (h :: args.flatten))
    (hrun : parseTerm v text = (.ok t, w)) :
    (∃ head ts, t = .app head ts ∧ ((∃ s, head = .const s) ∨ ∃ q, head = .quoted q) ∧
      v.ReadsEach ([h] :: args) (head :: ts) w) ∧
    ∀ front back, args = front ++ back →
      v.Reads (.leftParen :: h :: (front.flatten ++ .rightParen :: back.flatten)) t w := by
  have hstop : ∀ k ∈ h :: args.flatten, k.isStop = false := fun k hk =>
    (Balanced.plain hh.isPlain (.flatten fun A hA => (hargs A hA).balanced)).isStop_eq_false hk
  obtain ⟨a, ha, hsame, rfl⟩ := derives_of_parseTerm hv.wellFormed hk hstop hrun
  obtain ⟨f, as, hf, has, rfl, happ⟩ := ha.application_flatten (H := [h]) hh.isArgument hargs
  refine ⟨hf.of_sameParts_application hh has hargs hne hv.wellFormed hsame, ?_⟩
  rintro front back rfl
  exact ((hf.split hh hargs has (happ hne)).reads_text hv.wellFormed (.refl v)).of_sameParts hsame.symm

end

namespace Grammar

open Parse Precedence SyntaxTree

variable {u : Scan} {kinds ends X Y H : List TokenKind} {v w w' : Vocabulary} {s s' : ParseState}
variable {a f : SyntaxTree} {args : List (List TokenKind)} {as : List SyntaxTree} {n limit : Nat}

namespace Facing

variable (hu : u.Shows (kinds ++ ends))
include hu

theorem stateAt (hs : Facing u kinds v s w X) : s.At w (X ++ ends) := by
  obtain ⟨k, hle, hahead, -, rfl, -⟩ := hs.ahead
  refine ⟨hs.vocabulary, ?_, ?_⟩
  · rw [hahead, Scan.drop, List.map_drop, hu.items, ← List.map_drop, List.drop_append_of_le_length hle]
  · rw [hahead]
    exact hu.last

theorem eq_of_at (hs : Facing u kinds v s w X) (hat : s.At w' (Y ++ ends)) : w = w' ∧ X = Y := by
  have hitems := (hs.stateAt hu).ahead.items.symm.trans hat.ahead.items
  refine ⟨hs.vocabulary.symm.trans hat.vocabulary, ?_⟩
  exact List.append_cancel_right (List.map_injective_iff.2 (Option.some_injective _) hitems)

/-- An atom is read, and the state knows where it ends. -/
theorem reads_atom (ho : u.Offers kinds) (hs : Facing u kinds v s w X)
    (h : Derives v .atom (X ++ ends) a (Y ++ ends)) (hl : limit ≤ binder)
    (hn : 4 * (X ++ ends).length ≤ n) :
    ∃ t s', Parse.atomic n limit s = (.ok t, s') ∧ SameParts t (a.build w).1 ∧
      Facing u kinds v s' (a.build w).2 Y := by
  obtain ⟨t, s', hrun, hsame, hat⟩ := h.reads hs.wellFormed hs.operators hn limit hl s (hs.stateAt hu)
  obtain ⟨b, Z, -, -, hs'⟩ := (readsDerived ho n).atomic hl hs hrun
  obtain ⟨hw, rfl⟩ := hs'.eq_of_at hu hat
  exact ⟨t, s', hrun, hsame, hw ▸ hs'⟩

/-- So are the arguments behind it. -/
theorem reads_arguments (ho : u.Offers kinds) (hs : Facing u kinds v s w X)
    (h : Derives v (.arguments (.symbol Symbol.nil)) (X ++ ends) a (Y ++ ends))
    (hn : 4 * (X ++ ends).length + 1 ≤ n) :
    ∃ ts s', Parse.arguments n s = (.ok ts, s') ∧
      SameParts (ts.foldl Term.applied Term.nil) (a.build w).1 ∧ Facing u kinds v s' (a.build w).2 Y := by
  obtain ⟨ts, s', hrun, ⟨hsame, -⟩, hat⟩ :=
    h.reads hs.wellFormed hs.operators hn Term.nil rfl s (hs.stateAt hu)
  have hfirst : SameParts Term.nil ((SyntaxTree.symbol Symbol.nil).build w).1 := rfl
  obtain ⟨b, Z, -, -, hs'⟩ := (readsDerived ho n).arguments hs hfirst hrun
  obtain ⟨hw, rfl⟩ := hs'.eq_of_at hu hat
  exact ⟨ts, s', hrun, hsame, hw ▸ hs'⟩

omit hu in
/-- At the end the token read last is the last one. -/
theorem last_of_nil (hs : Facing u kinds v s w []) {t : Token}
    (ht : u.get (kinds.length - 1) = .token t) (hne : kinds ≠ []) : s.last = t.span := by
  obtain ⟨k, hle, -, -, hnil, hlast⟩ := hs.ahead
  have hk : k = kinds.length := Nat.le_antisymm hle (List.drop_eq_nil_iff.1 hnil.symm)
  have := List.length_pos_iff.2 hne
  exact hlast (kinds.length - 1) t (by omega) ht

end Facing

attribute [local simp] Parse.expression Parse.operand

/-- A head that takes no arguments is refused together with those that follow it. -/
theorem operand_refuses (hu : u.Shows (H ++ args.flatten ++ ends)) (ho : u.Offers (H ++ args.flatten))
    (hends : ends.headD .endOfInput = .endOfInput)
    (hs : Facing u (H ++ args.flatten) v s w (H ++ args.flatten)) (hH : IsArgument v H)
    (hargs : ∀ A ∈ args, IsArgument v A) (hne : args ≠ []) (hf : Stands v H f)
    (happ : f.isApplicable = false) (has : List.Forall₂ (Stands v) args as)
    {first last : Token} (hfirst : peek s = (.ok first, s))
    (hlast : u.get ((H ++ args.flatten).length - 1) = .token last)
    (hn : 4 * (H ++ args.flatten ++ ends).length + 1 ≤ n) :
    ∃ kind shown s', Parse.operand (n + 1) lowest s = (.error (.term (.malformed
      (first.span.merge last.span) (.cannotApply kind shown))), s') := by
  have hclose : startsArgument v (ends.headD .endOfInput) = false := by rw [hends]; rfl
  have hback : ends.headD .endOfInput ≠ .backslash := by rw [hends]; simp
  have hahead : prefixAt? first.kind s = (.ok none, s) := by
    obtain ⟨s₁, hrun, -⟩ := does_prefixAt first.kind s (hs.stateAt hu)
    rw [(hs.peek_eq_ok ho hfirst).2] at hrun ⊢
    obtain ⟨rfl, hfound⟩ := hs.prefixAt?_eq_ok ho hrun
    rw [prefixAhead?_of_startsArgument (hH.starts _)] at hfound
    exact hrun.trans (by rw [hfound])
  have hatom := hf (args.flatten ++ ends) (headD_flatten_ne_backslash hargs hback)
  rw [← List.append_assoc] at hatom
  obtain ⟨head, s₁, hhead, hsame, hs₁⟩ := hs.reads_atom hu ho hatom (show lowest ≤ binder by decide)
    (Nat.le_of_succ_le hn)
  -- The arguments are read before the head is refused, and reading them does not depend on the head:
  -- here they stand behind a constant that may have arguments.
  have harguments := Stands.arguments (f := .symbol Symbol.nil) has hargs (fun _ => rfl) hclose hback
  obtain ⟨ts, s₂, hts, hsames, hs₂⟩ := hs₁.reads_arguments (Y := []) hu ho harguments (n := n) (by
    simp only [List.length_append] at hn ⊢
    omega)
  have htsne : ts ≠ [] := by
    rintro rfl
    have hsame : SameParts Term.nil ((buildEach as (f.build w).2).1.foldl Term.applied Term.nil) := by
      rwa [build_foldl_apply] at hsames
    have hnil : ∃ s, Term.nil = .const s := ⟨Symbol.nil, rfl⟩
    rw [Term.foldl_applied (.inl hnil) (Stands.buildEach_ne_nil has hne _)] at hsame
    cases hsame
  obtain ⟨t, ts, rfl⟩ := List.exists_cons_of_ne_nil htsne
  have happly : head.isApplicable = false := by
    rw [hsame.isApplicable, f.isApplicable_build, happ]
  have hspan : s₂.last = last.span := hs₂.last_of_nil hlast (by
    have := (hH.starts args.flatten)
    rintro hnil
    rw [hnil] at this
    cases this)
  refine ⟨head.kindName, s₂.vocabulary.render head, s₂, ?_⟩
  rw [Parse.operand, Pairing.bind_of_ok hfirst, Pairing.bind_of_ok hahead]
  dsimp only
  rw [Pairing.bind_of_ok hhead, if_neg (by decide), Pairing.bind_of_ok hts]
  dsimp only
  rw [Pairing.bind_of_ok (show spanFrom first.span s₂ = (.ok (first.span.merge last.span), s₂) by
      rw [← hspan]; rfl), Pairing.bind_of_ok (show vocabulary s₂ = (.ok s₂.vocabulary, s₂) from rfl),
    Vocabulary.apply_of_not_isApplicable _ _ _ _ happly]
  rfl

end Grammar

section

open Grammar Precedence SyntaxTree Parse.Pairing

variable {v w₀ : Vocabulary} {H : List TokenKind} {args : List (List TokenKind)} {text text₀ : String}
variable {t₀ : Term}

/-- An argument that is read as a term stands by itself. -/
theorem Grammar.IsArgument.stands {A : List TokenKind} {a : SyntaxTree} (hA : IsArgument v A)
    (ha : Alone v A a) : Stands v A a := by
  have ha : Alone v (A ++ ([] : List (List TokenKind)).flatten) a := by
    rwa [List.flatten_nil, List.append_nil]
  obtain ⟨f, as, hf, has, rfl, -⟩ := ha.application_flatten hA fun _ hm => (by cases hm)
  cases has
  exact hf

theorem Grammar.exists_stands (hv : v.WellFormed) (hargs : ∀ A ∈ args, IsArgument v A ∧ v.Parses A) :
    ∃ as, List.Forall₂ (Stands v) args as := by
  induction args with
  | nil => exact ⟨[], .nil⟩
  | cons A args ih =>
    obtain ⟨hA, hparses⟩ := hargs A List.mem_cons_self
    obtain ⟨as, has⟩ := ih fun B hB => hargs B (List.mem_cons_of_mem A hB)
    obtain ⟨a, ha⟩ := hparses.derives hv fun k hk => hA.balanced.isStop_eq_false hk
    exact ⟨a :: as, .cons (hA.stands ha) has⟩

/-- What follows a literal or an abstraction as an argument is refused, with all that is applied. -/
theorem Grammar.refuses_application (hv : v.WellFormed) (hH : IsArgument v H) (hne : args ≠ [])
    (hargs : ∀ A ∈ args, IsArgument v A ∧ v.Parses A)
    (hk₀ : (Scan.ofText "<term>" text₀).ConsistsOf H) (hrun₀ : parseTerm v text₀ = (.ok t₀, w₀))
    (ht₀ : t₀.isApplicable = false) (hk : (Scan.ofText "<term>" text).ConsistsOf (H ++ args.flatten)) :
    ∃ first last kind shown, (Scan.ofText "<term>" text).get 0 = .token first ∧
      (Scan.ofText "<term>" text).get ((H ++ args.flatten).length - 1) = .token last ∧
        (parseTerm v text).1 = .error (.term (.malformed (first.span.merge last.span)
          (.cannotApply kind shown))) := by
  have hbalanced : Balanced (H ++ args.flatten) :=
    hH.balanced.append (.flatten fun A hA => (hargs A hA).1.balanced)
  obtain ⟨f, hf, hsame, -⟩ := derives_of_parseTerm hv hk₀ (fun k hk => hH.balanced.isStop_eq_false hk) hrun₀
  have happ : f.isApplicable = false := by
    rw [← f.isApplicable_build v, ← hsame.isApplicable, ht₀]
  obtain ⟨as, has⟩ := exists_stands hv hargs
  obtain ⟨ends, hshows, hends⟩ := hk.exists_ends fun hm => by cases hbalanced.isStop_eq_false hm
  obtain ⟨first, hfirst, -⟩ := hk.exists_token 0
  obtain ⟨last, hlast, -⟩ := hk.exists_token ((H ++ args.flatten).length - 1)
  obtain ⟨s, hs⟩ : ∃ s, s = ParseState.initial v [] "<term>" text := ⟨_, rfl⟩
  have hpeek : Parse.peek s = (.ok first, s) := by
    refine Parse.peekAt_of_tokens fun i hi => ⟨first, ?_, fun _ => rfl⟩
    rw [Nat.le_zero.1 hi, hs]
    exact hfirst
  have hfacing := ParseState.facing_initial hv [] "<term>" text (H ++ args.flatten)
  rw [← hs] at hfacing
  have hlength : s.ahead.items.length = (H ++ args.flatten ++ ends).length := by
    have hitems := congrArg List.length hshows.items
    rw [List.length_map, List.length_map] at hitems
    rw [hs]
    exact hitems
  obtain ⟨kind, shown, s', hrun⟩ := operand_refuses (n := 4 * s.ahead.items.length + 2) hshows hk.offers
    hends hfacing hH (fun A hA => (hargs A hA).1) hne (hH.stands hf) happ has hpeek hlast (by omega)
  have hterm : Parse.term s = (.error (.term (.malformed (first.span.merge last.span)
      (.cannotApply kind shown))), s') := by
    rw [Parse.term, Parse.expressionAt, Parse.expression, bind_of_error hrun]
  have hgoal : Parse.goal s = (.error (.term (.malformed (first.span.merge last.span)
      (.cannotApply kind shown))), s') := by
    rw [Parse.goal, bind_of_ok hpeek, bind_of_error hterm]
  refine ⟨first, last, kind, shown, hfirst, hlast, ?_⟩
  rw [parseTerm, parseGoal, Parse.run, ← hs, hgoal]
  rfl

/-- An application whose head is a name or a quotation is the term of that head with the arguments in their
order, each as it is read by itself, and so it is with parentheses around any front of it. What follows
a literal or an abstraction as an argument is refused, with a fault that spans all that is applied. -/
theorem parse_application (hv : v.Reachable) :
    (∀ (h : TokenKind) (args : List (List TokenKind)) (text : String) (t : Term) (w : Vocabulary),
      IsFunctor v h → args ≠ [] → (∀ A ∈ args, IsArgument v A) →
      (Scan.ofText "<term>" text).ConsistsOf (h :: args.flatten) → parseTerm v text = (.ok t, w) →
      (∃ head ts, t = .app head ts ∧ ((∃ s, head = .const s) ∨ ∃ q, head = .quoted q) ∧
        v.ReadsEach ([h] :: args) (head :: ts) w) ∧
      ∀ front back, args = front ++ back →
        v.Reads (.leftParen :: h :: (front.flatten ++ .rightParen :: back.flatten)) t w) ∧
    ∀ (H : List TokenKind) (args : List (List TokenKind)) (text₀ text : String) (t₀ : Term) (w₀ : Vocabulary),
      IsArgument v H → args ≠ [] → (∀ A ∈ args, IsArgument v A ∧ v.Parses A) →
      (Scan.ofText "<term>" text₀).ConsistsOf H → parseTerm v text₀ = (.ok t₀, w₀) →
      ((∃ a, t₀ = .literal a) ∨ ∃ x body, t₀ = .lam x body) →
      (Scan.ofText "<term>" text).ConsistsOf (H ++ args.flatten) →
      ∃ first last kind shown, (Scan.ofText "<term>" text).get 0 = .token first ∧
        (Scan.ofText "<term>" text).get ((H ++ args.flatten).length - 1) = .token last ∧
          (parseTerm v text).1 = .error (.term (.malformed (first.span.merge last.span)
            (.cannotApply kind shown))) := by
  refine ⟨fun h args text t w hh hne hargs hk hrun => reads_application hv hh hne hargs hk hrun, ?_⟩
  intro H args text₀ text t₀ w₀ hH hne hargs hk₀ hrun₀ hhead hk
  refine refuses_application hv.wellFormed hH hne hargs hk₀ hrun₀ ?_ hk
  rcases hhead with ⟨a, rfl⟩ | ⟨x, body, rfl⟩ <;> rfl

/-- An application with parentheses around its front, and a number with an argument. -/
theorem parse_application_parenthesized :
    (∃ t u w, parseTerm .initial "f a (b)" = (.ok t, w) ∧ parseTerm .initial "(f a) (b)" = (.ok u, w) ∧
      SameParts u t) ∧
    ∃ span kind shown, (parseTerm .initial "3 a").1 = .error (.term (.malformed span (.cannotApply kind shown))) := by
  have hscanned : ((Scan.ofText "<term>" "f a (b)").items.map Item.kind? =
        [some (.ident "f"), some (.ident "a"), some .leftParen, some (.ident "b"), some .rightParen] ∧
      (Scan.ofText "<term>" "(f a) (b)").items.map Item.kind? =
        [some .leftParen, some (.ident "f"), some (.ident "a"), some .rightParen, some .leftParen,
          some (.ident "b"), some .rightParen] ∧
      (Scan.ofText "<term>" "3").items.map Item.kind? = [some (.int "3")] ∧
      (Scan.ofText "<term>" "a").items.map Item.kind? = [some (.ident "a")] ∧
      (Scan.ofText "<term>" "3 a").items.map Item.kind? = [some (.int "3"), some (.ident "a")]) ∧
      ∀ text ∈ ["f a (b)", "(f a) (b)", "3", "a", "3 a"],
        (Scan.ofText "<term>" text).last.kind? = some .endOfInput := by
    decide +kernel
  have hread : (parseTerm .initial "f a (b)").1.toOption.isSome = true ∧
      (parseTerm .initial "a").1.toOption.isSome = true ∧
      (parseTerm .initial "3").1 = .ok (.literal (.int 3)) := by
    decide +kernel
  obtain ⟨⟨hk, hk', hk₀, hka, hk₁⟩, hlast⟩ := hscanned
  obtain ⟨t, w, hrun⟩ := exists_eq_ok_of_isSome hread.1
  obtain ⟨ta, wa, hruna⟩ := exists_eq_ok_of_isSome hread.2.1
  obtain ⟨happlied, hrefused⟩ := parse_application Vocabulary.Reachable.initial
  have ha : IsArgument .initial [.ident "a"] := .token (by decide +kernel) ⟨rfl, rfl, rfl⟩
  have hb : IsArgument .initial [.leftParen, .ident "b", .rightParen] :=
    .brackets (C := [.ident "b"]) rfl (.plain ⟨rfl, rfl, rfl⟩ .nil)
  constructor
  · obtain ⟨-, hsplit⟩ := happlied (.ident "f") [[.ident "a"], [.leftParen, .ident "b", .rightParen]] _ t w
      ⟨by decide +kernel, .inl rfl⟩ (by simp) (by simpa using ⟨ha, hb⟩) (.of_items hk (hlast _ (by simp))) hrun
    obtain ⟨u, hu, hsame⟩ := hsplit [[.ident "a"]] [[.leftParen, .ident "b", .rightParen]] rfl "(f a) (b)"
      (.of_items hk' (hlast _ (by simp)))
    exact ⟨t, u, w, hrun, hu, hsame⟩
  · obtain ⟨first, last, kind, shown, -, -, hrefuse⟩ := hrefused [.int "3"] [[.ident "a"]] "3" "3 a" _ _
      (.token rfl ⟨rfl, rfl, rfl⟩) (by simp)
      (by simpa using ⟨ha, "a", ta, wa, .of_items hka (hlast _ (by simp)), hruna⟩)
      (.of_items hk₀ (hlast _ (by simp))) (Prod.ext hread.2.2 rfl) (.inl ⟨_, rfl⟩)
      (.of_items hk₁ (hlast _ (by simp)))
    exact ⟨_, kind, shown, hrefuse⟩

end

end Clausal
