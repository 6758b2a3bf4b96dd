import Clausal.Proofs.BuiltInOperators
import Clausal.Proofs.TermBrackets

/-!
# What follows a term

A term is read the same whatever stands behind it, as long as that ends the term as well. Behind brackets
anything will do that looks the same from within. Behind an expression it has to be something that no
argument begins with, and an operator must be looser than those that the expression itself takes
outside brackets. Such an expression may also stand at a higher level than it was read at, or go on.
-/
namespace Clausal

namespace Parse

variable {v : Vocabulary}

theorem operatorBehind?_congr {k following following' : TokenKind}
    (h : startsTerm v following = startsTerm v following') :
    operatorBehind? v k following = operatorBehind? v k following' := by
  simp only [operatorBehind?, h]

theorem operatorBefore?_congr {k following following' : TokenKind}
    (h : startsTerm v following = startsTerm v following') :
    operatorBefore? v k following = operatorBefore? v k following' := by
  simp only [operatorBefore?, h]

theorem startsArgument_of_startsTerm {k : TokenKind} (h : startsTerm v k = false) :
    startsArgument v k = false :=
  (Bool.or_eq_false_iff.1 h).1

theorem startsTerm_of_name?_eq_none {k : TokenKind} (h : k.name? = none)
    (ha : startsArgument v k = false) : startsTerm v k = false := by
  rw [startsTerm, ha, operatorAt?_of_name?_eq_none h]
  rfl

theorem operatorAhead?_of_name?_eq_none {X : List TokenKind} (h : (X.headD .endOfInput).name? = none) :
    operatorAhead? v X = none := by
  simp only [operatorAhead?, operatorBehind?, operatorAt?_of_name?_eq_none h]

/-- What is no name is no operator to be taken. -/
theorem forall_operatorAhead?_of_name?_eq_none {X : List TokenKind} {P : Symbol × Operator → Prop}
    (h : (X.headD .endOfInput).name? = none) : ∀ e ∈ operatorAhead? v X, P e := by
  rw [operatorAhead?_of_name?_eq_none h]
  exact fun _ he => (by cases he)

/-- A built-in infix operator is one in front of anything. -/
theorem operatorAhead?_baseline (h : v.HasBaseline) (hv : v.WellFormed) {d : String × Fixity × Nat}
    (hd : d ∈ baselineOperators) {k : TokenKind} (hk : k.name? = some d.1) {n : Nat}
    (hn : Symbol.wellKnown[n]? = some d.1) (hp : d.2.1.placement = .betweenOperands) (X : List TokenKind) :
    operatorAhead? v (k :: X) = some (⟨n⟩, ⟨d.2.1, d.2.2⟩) := by
  have hat := operatorAt?_wellKnown h hv hd hk hn
  rw [hp] at hat
  change operatorBehind? v k _ = _
  rw [operatorBehind?, hat, operatorAt?_afterOperand h]

theorem operatorAhead?_comma (h : v.HasBaseline) (hv : v.WellFormed) (X : List TokenKind) :
    operatorAhead? v (.symbolic "," :: X) = some (⟨2⟩, ⟨.infixRight, 110⟩) :=
  operatorAhead?_baseline h hv (d := (",", .infixRight, 110)) (by decide) rfl rfl rfl X

theorem prefixAhead?_of_name?_eq_none {X : List TokenKind} (h : (X.headD .endOfInput).name? = none) :
    prefixAhead? v X = none := by
  simp only [prefixAhead?, operatorBefore?, operatorAt?_of_name?_eq_none h]

end Parse

namespace Grammar

open Parse Precedence

variable {v : Vocabulary} {m : Nat} {C D X Y Z W : List TokenKind} {part part' : Part}
variable {a b c : SyntaxTree}

/-- Two rows that are the same for what is read in front of them. -/
structure LooksLike (v : Vocabulary) (Y Z : List TokenKind) : Prop where
  head : Y.headD .endOfInput = Z.headD .endOfInput
  operator : operatorAhead? v Y = operatorAhead? v Z
  before : prefixAhead? v Y = prefixAhead? v Z

/-- Of rows that begin with the same tokens the next one counts only as far as it begins a term. -/
theorem LooksLike.of_ne_nil
    (h : startsTerm v (Y.headD .endOfInput) = startsTerm v (Z.headD .endOfInput)) (hD : D ≠ []) :
    LooksLike v (D ++ Y) (D ++ Z) := by
  match D, hD with
  | [k], _ => exact ⟨rfl, operatorBehind?_congr h, operatorBefore?_congr h⟩
  | _ :: _ :: _, _ => exact ⟨rfl, rfl, rfl⟩

theorem LooksLike.of_append_ne_nil
    (h : startsTerm v (Y.headD .endOfInput) = startsTerm v (Z.headD .endOfInput)) (hC : C ≠ [])
    (D : List TokenKind) : LooksLike v (C ++ (D ++ Y)) (C ++ (D ++ Z)) := by
  rw [← List.append_assoc, ← List.append_assoc]
  exact .of_ne_nil h (by simp [hC])

theorem LooksLike.startsTerm (h : LooksLike v Y Z) :
    Parse.startsTerm v (Y.headD .endOfInput) = Parse.startsTerm v (Z.headD .endOfInput) := by
  rw [h.head]

/-- What is no name is no operator, whatever follows. -/
theorem LooksLike.of_name?_eq_none {k : TokenKind} (hk : k.name? = none)
    (hY : Y.headD .endOfInput = k) (hZ : Z.headD .endOfInput = k) : LooksLike v Y Z := by
  have hY' : (Y.headD .endOfInput).name? = none := hY ▸ hk
  have hZ' : (Z.headD .endOfInput).name? = none := hZ ▸ hk
  exact ⟨hY.trans hZ.symm, (operatorAhead?_of_name?_eq_none hY').trans (operatorAhead?_of_name?_eq_none hZ').symm,
    (prefixAhead?_of_name?_eq_none hY').trans (prefixAhead?_of_name?_eq_none hZ').symm⟩

/-- In place of `Y`, which no term begins with, stands `Z`, which no term begins with either, and
whose operator is at most as tight as `m`. -/
structure Closes (v : Vocabulary) (m : Nat) (Y Z : List TokenKind) : Prop where
  before : startsTerm v (Y.headD .endOfInput) = false
  behind : startsTerm v (Z.headD .endOfInput) = false
  binds : Z.headD .endOfInput ≠ .backslash
  loose : ∀ e ∈ operatorAhead? v Z, e.2.precedence ≤ m

namespace Closes

/-- What is no name and begins no argument ends every term. -/
theorem of_name?_eq_none (hY : startsTerm v (Y.headD .endOfInput) = false)
    (hname : (Z.headD .endOfInput).name? = none) (hZ : startsArgument v (Z.headD .endOfInput) = false)
    (hb : Z.headD .endOfInput ≠ .backslash) : Closes v m Y Z where
  before := hY
  behind := startsTerm_of_name?_eq_none hname hZ
  binds := hb
  loose e he := by rw [operatorAhead?_of_name?_eq_none hname] at he; cases he

/-- So does an infix operator, for the terms that are tighter. -/
theorem of_operatorAhead? {k : TokenKind} {s : Symbol} {o : Operator}
    (hY : startsTerm v (Y.headD .endOfInput) = false) (ho : operatorAhead? v (k :: X) = some (s, o))
    (hbefore : operatorAt? v .beforeOperand k = none) (hm : o.precedence ≤ m) :
    Closes v m Y (k :: X) := by
  obtain ⟨p, hat⟩ := operatorAt?_of_operatorBehind? ho
  have hat : operatorAt? v p k = some (s, o) := hat
  refine ⟨hY, ?_, ?_, fun e he => Option.some.inj (ho.symm.trans he) ▸ hm⟩
  · have hargument : startsArgument v k = false := by
      refine Bool.eq_false_iff.2 fun hstarts => ?_
      rw [operatorAt?_of_startsArgument hstarts] at hat
      cases hat
    change startsTerm v k = false
    rw [startsTerm, hargument, hbefore]
    rfl
  · rintro hback
    obtain rfl : k = .backslash := hback
    rw [operatorAt?_of_name?_eq_none rfl] at hat
    cases hat

/-- A built-in operator that is infix only. -/
theorem of_baseline (h : v.HasBaseline) (hv : v.WellFormed) {d : String × Fixity × Nat}
    (hd : d ∈ baselineOperators) {k : TokenKind} (hk : k.name? = some d.1) {n : Nat}
    (hn : Symbol.wellKnown[n]? = some d.1) (hp : d.2.1.placement = .betweenOperands)
    (honly : ∀ e ∈ baselineOperators, e.2.1.placement = .beforeOperand → e.1 ≠ Symbol.canonical d.1)
    (hY : startsTerm v (Y.headD .endOfInput) = false) (hm : d.2.2 ≤ m) : Closes v m Y (k :: X) := by
  refine of_operatorAhead? hY (operatorAhead?_baseline h hv hd hk hn hp X) ?_ hm
  refine operatorAt?_eq_none_of_hasBaseline h k _ fun e he hbefore name hname => ?_
  rw [← Option.some.inj (hk.symm.trans hname)]
  exact honly e he hbefore

theorem comma (h : v.HasBaseline) (hv : v.WellFormed) (hY : startsTerm v (Y.headD .endOfInput) = false)
    (hm : 110 ≤ m) : Closes v m Y (.symbolic "," :: X) :=
  .of_baseline h hv (d := (",", .infixRight, 110)) (n := 2) (by decide) rfl rfl rfl (by decide) hY hm

end Closes

/-- Outside brackets there are operators tighter than `m` only, and no abstraction. -/
structure Tight (v : Vocabulary) (m : Nat) (C : List TokenKind) : Prop where
  operators : ∀ k ∈ outside 0 C, ∀ p e, operatorAt? v p k = some e → m < e.2.precedence
  abstracts : .backslash ∉ outside 0 C

theorem tight_iff : Tight v m C ↔ .backslash ∉ outside 0 C ∧
    ∀ k ∈ outside 0 C, ∀ p ∈ Placement.all, (operatorAt? v p k).all (m < ·.2.precedence) = true := by
  have hplacement : ∀ p, p ∈ Placement.all := fun p => by cases p <;> decide
  constructor
  · intro h
    refine ⟨h.abstracts, fun k hk p _ => ?_⟩
    cases he : operatorAt? v p k with
    | none => rfl
    | some e => exact decide_eq_true (h.operators k hk p e he)
  · rintro ⟨hb, hall⟩
    refine ⟨fun k hk p e he => ?_, hb⟩
    have hk := hall k hk p (hplacement p)
    rw [he] at hk
    exact of_decide_eq_true hk

instance : Decidable (Tight v m C) := decidable_of_iff _ tight_iff.symm

namespace Tight

theorem left (h : Tight v m (C ++ D)) (hC : Balanced C) : Tight v m C :=
  ⟨fun k hk => h.operators k (hC.mem_outside_left hk),
    fun hb => h.abstracts (hC.mem_outside_left hb)⟩

theorem right (h : Tight v m (C ++ D)) (hC : Balanced C) : Tight v m D :=
  ⟨fun k hk => h.operators k (hC.mem_outside_right hk),
    fun hb => h.abstracts (hC.mem_outside_right hb)⟩

theorem lt {k : TokenKind} {p : Placement} {s : Symbol} {o : Operator} (h : Tight v m (k :: C))
    (hk : operatorAt? v p k = some (s, o)) : m < o.precedence :=
  h.operators k (by rw [(isPlain_of_operatorAt? hk).outside_cons]; exact List.mem_cons_self) p _ hk

theorem lt_of_operatorAhead? {k : TokenKind} {s : Symbol} {o : Operator} (h : Tight v m (k :: C))
    (hk : operatorAhead? v (k :: X) = some (s, o)) : m < o.precedence := by
  obtain ⟨p, hp⟩ := operatorAt?_of_operatorBehind? hk
  exact h.lt hp

theorem lt_of_prefixAhead? {k : TokenKind} {s : Symbol} {o : Operator} (h : Tight v m (k :: C))
    (hk : prefixAhead? v (k :: X) = some (s, o)) : m < o.precedence :=
  h.lt (operatorAt?_of_operatorBefore? hk)

end Tight

/-- The part does not go on into `Z`. -/
def Part.Yields (v : Vocabulary) (Z : List TokenKind) : Part → Prop
  | expression limit strict _ | climb limit strict _ _ =>
    ∀ e ∈ operatorAhead? v Z, ¬ Admits limit strict e.2
  | operand _ | arguments _ | atom => True
  | elements => False

/-- A part made of the tokens `C` ends in front of `Z` as it does in front of `Y`. -/
def Meets (v : Vocabulary) (m : Nat) (part : Part) (C Y Z : List TokenKind) : Prop :=
  LooksLike v Y Z ∨ Closes v m Y Z ∧ Tight v m C ∧ part.Yields v Z

namespace Meets

theorem startsTerm (h : Meets v m part C Y Z) :
    Parse.startsTerm v (Y.headD .endOfInput) = Parse.startsTerm v (Z.headD .endOfInput) := by
  rcases h with h | ⟨h, -, -⟩
  · exact h.startsTerm
  · rw [h.before, h.behind]

theorem looksLike (h : Meets v m part C Y Z) (hD : D ≠ []) : LooksLike v (D ++ Y) (D ++ Z) :=
  .of_ne_nil h.startsTerm hD

theorem looksLike_append (h : Meets v m part C Y Z) (hD : D ≠ []) (E : List TokenKind) :
    LooksLike v (D ++ (E ++ Y)) (D ++ (E ++ Z)) :=
  .of_append_ne_nil h.startsTerm hD E

theorem front (h : Meets v m part (C ++ D) Y Z) (hC : Balanced C)
    (hy : Closes v m Y Z → Tight v m (C ++ D) → part.Yields v Z → part'.Yields v Z) :
    Meets v m part' C (D ++ Y) (D ++ Z) := by
  by_cases hD : D = []
  · subst hD
    rcases h with h | ⟨hc, ht, hyield⟩
    · exact .inl h
    · exact .inr ⟨hc, ht.left hC, hy hc ht hyield⟩
  · exact .inl (h.looksLike hD)

theorem back (h : Meets v m part (C ++ D) Y Z) (hC : Balanced C)
    (hy : Closes v m Y Z → Tight v m (C ++ D) → part.Yields v Z → part'.Yields v Z) :
    Meets v m part' D Y Z := by
  rcases h with h | ⟨hc, ht, hyield⟩
  · exact .inl h
  · exact .inr ⟨hc, ht.right hC, hy hc ht hyield⟩

end Meets

/-- An operator that is looser than those of an expression is left by their operands. -/
theorem Closes.yields (h : Closes v m Y Z) {limit : Nat} (hl : m < limit) (strict : Bool)
    (earlier : Option (Nat × Grouping)) : (Part.expression limit strict earlier).Yields v Z :=
  fun e he ho => Nat.not_lt_of_le (h.loose e he) (Nat.lt_of_lt_of_le hl ho.le)

private theorem eq_append {E : List TokenKind} (h : D ++ (E ++ Y) = C ++ Y) : C = D ++ E :=
  List.append_cancel_right (by rw [List.append_assoc]; exact h.symm)

/-- In brackets the first two tokens are the same whatever follows. -/
theorem headD_append_closing (hC : C ≠ []) (k : TokenKind) (Y Z : List TokenKind) :
    (C ++ k :: Y).headD .endOfInput = (C ++ k :: Z).headD .endOfInput ∧
      ((C ++ k :: Y).drop 1).headD .endOfInput = ((C ++ k :: Z).drop 1).headD .endOfInput := by
  obtain ⟨j, D, rfl⟩ := List.exists_cons_of_ne_nil hC
  cases D <;> exact ⟨rfl, rfl⟩

/-- The part may stand in front of whatever ends it as well. -/
def Movable (v : Vocabulary) (m : Nat) (part : Part) (X : List TokenKind) (a : SyntaxTree)
    (Y : List TokenKind) : Prop :=
  ∀ ⦃C Z : List TokenKind⦄, X = C ++ Y → Meets v m part C Y Z → Derives v part (C ++ Z) a Z

section

variable {p q : Part} {E : List TokenKind}

/-- Two parts in turn, behind the tokens `D` and with `E` between them, have tokens of their own. -/
theorem Derives.split (hp : Derives v p X a (E ++ W)) (hq : Derives v q W b Y) (hX : D ++ X = C ++ Y) :
    ∃ C₁ C₂, C = D ++ (C₁ ++ (E ++ C₂)) ∧ X = C₁ ++ (E ++ W) ∧ W = C₂ ++ Y ∧ Balanced C₁ ∧
      (p.takesTokens = true → C₁ ≠ []) := by
  obtain ⟨C₁, rfl, hC₁, hne⟩ := hp.exists_balanced
  obtain ⟨C₂, rfl, -, -⟩ := hq.exists_balanced
  exact ⟨C₁, C₂, eq_append (E := C₁ ++ (E ++ C₂)) (by simpa using hX), rfl, rfl, hC₁, hne⟩

/-- Where a whole ends that begins with the tokens `D`, the part behind them ends. -/
theorem Meets.move (hm : Meets v m part C Y Z) (hp : Derives v p X a Y) (ih : Movable v m p X a Y)
    (hD : Balanced D) (hne : D ≠ []) (hX : D ++ X = C ++ Y)
    (hy : Closes v m Y Z → Tight v m D → part.Yields v Z → p.Yields v Z) :
    ∃ X', C ++ Z = D ++ X' ∧ Derives v p X' a Z ∧ LooksLike v (D ++ X) (D ++ X') := by
  obtain ⟨C₁, rfl, -, -⟩ := hp.exists_balanced
  obtain rfl : C = D ++ C₁ := eq_append hX
  refine ⟨C₁ ++ Z, List.append_assoc .., ih rfl (hm.back hD fun hends ht => hy hends (ht.left hD)), ?_⟩
  exact hm.looksLike_append hne C₁

/-- So do two parts in turn, the first in front of the tokens `E`. -/
theorem Meets.moveBoth (hm : Meets v m part C Y Z) (hp : Derives v p X a (E ++ W))
    (hq : Derives v q W b Y) (ihp : Movable v m p X a (E ++ W)) (ihq : Movable v m q W b Y)
    (hD : Balanced D) (hE : Balanced E) (hne : p.takesTokens = true) (hX : D ++ X = C ++ Y)
    (hyp : Closes v m Y Z → Tight v m D → part.Yields v Z → p.Yields v Z)
    (hyq : part.Yields v Z → q.Yields v Z) :
    ∃ X' W', C ++ Z = D ++ X' ∧ Derives v p X' a (E ++ W') ∧ Derives v q W' b Z ∧
      LooksLike v (D ++ X) (D ++ X') := by
  obtain ⟨C₁, C₂, rfl, rfl, rfl, hC₁, htokens⟩ := hp.split hq hX
  have hfirst : Meets v m p C₁ (E ++ (C₂ ++ Y)) (E ++ (C₂ ++ Z)) := by
    rw [← List.append_assoc, ← List.append_assoc]
    refine Meets.front (hm.back hD fun hends ht => ?_) hC₁ fun _ _ hy => hy
    exact hyp hends (ht.left hD)
  have hsecond : Meets v m q C₂ Y Z := by
    refine Meets.back (C := D ++ (C₁ ++ E)) ?_ (hD.append (hC₁.append hE)) fun _ _ => hyq
    simpa using hm
  have hlook := hm.looksLike_append (D := D ++ C₁) (by simp [htokens hne]) (E ++ C₂)
  exact ⟨C₁ ++ (E ++ (C₂ ++ Z)), C₂ ++ Z, by simp, ihp rfl hfirst, ihq rfl hsecond, by simpa using hlook⟩

/-- What stands in brackets ends at the same bracket as before. -/
theorem Movable.enclosed {o c : TokenKind} (ih : Movable v m p X a (c :: Y))
    (hp : Derives v p X a (c :: Y)) (hne : p.takesTokens = true) (hc : c.name? = none)
    (hX : o :: X = C ++ Y) (Z : List TokenKind) :
    ∃ X', C ++ Z = o :: X' ∧ Derives v p X' a (c :: Z) ∧
      X.headD .endOfInput = X'.headD .endOfInput ∧
      (X.drop 1).headD .endOfInput = (X'.drop 1).headD .endOfInput := by
  obtain ⟨C₁, rfl, -, htokens⟩ := hp.exists_balanced
  obtain rfl : C = o :: (C₁ ++ [c]) := eq_append (D := [o]) (E := C₁ ++ [c]) (by simpa using hX)
  have hmoved := ih rfl (.inl (.of_name?_eq_none hc rfl rfl) : Meets v m p C₁ (c :: Y) (c :: Z))
  exact ⟨C₁ ++ c :: Z, by simp, hmoved, headD_append_closing (htokens hne) c Y Z⟩

end

namespace Derives

/-- A part of a term may stand in front of whatever ends it as well. -/
theorem followedBy (h : Derives v part X a Y) : Movable v m part X a Y := by
  induction h with
  | expression ho hc iho ihc =>
    intro C Z hX hm
    obtain ⟨X', W', hC, ho', hc', -⟩ := hm.moveBoth (D := []) (E := []) ho hc iho ihc .nil .nil rfl hX
      (fun _ _ _ => trivial) fun hy => hy
    rw [hC]
    exact .expression ho' hc'
  | stop h =>
    intro C Z hX hm
    obtain rfl : C = [] := by simpa using hX.symm
    refine .stop ?_
    rcases hm with hm | ⟨-, -, hy⟩
    · rw [List.nil_append, ← hm.operator]
      exact h
    · exact hy
  | @after limit strict earlier X Y a b k s o h hl hc hp hd ih =>
    intro C Z hX hm
    obtain ⟨p, hk⟩ := operatorAt?_of_operatorBehind? h
    obtain ⟨X', hC, hd', hlook⟩ := hm.move (D := [k]) hd ih (.plain (isPlain_of_operatorAt? hk) .nil)
      (by simp) hX fun _ _ hy => hy
    rw [hC]
    exact .after (hlook.operator.symm.trans h) hl hc hp hd'
  | @between limit strict earlier X W Y a b c k s o h hl hc hp he hd ihe ihd =>
    intro C Z hX hm
    obtain ⟨p, hk⟩ := operatorAt?_of_operatorBehind? h
    obtain ⟨X', W', hC, he', hd', hlook⟩ := hm.moveBoth (D := [k]) (E := []) he hd ihe ihd
      (.plain (isPlain_of_operatorAt? hk) .nil) .nil rfl hX
      (fun hends ht _ => hends.yields (ht.lt_of_operatorAhead? h) _ _) fun hy => hy
    rw [hC]
    exact .between (hlook.operator.symm.trans h) hl hc hp he' hd'
  | @before limit X Y a k s o h hl he ih =>
    intro C Z hX hm
    have hk := isPlain_of_operatorAt? (operatorAt?_of_operatorBefore? h)
    obtain ⟨X', hC, he', hlook⟩ := hm.move (D := [k]) he ih (.plain hk .nil) (by simp) hX
      fun hends ht _ => hends.yields (ht.lt_of_prefixAhead? h) _ _
    rw [hC]
    exact .before (hlook.before.symm.trans h) hl he'
  | application h ha hs iha ihs =>
    intro C Z hX hm
    obtain ⟨X', W', hC, ha', hs', hlook⟩ := hm.moveBoth (D := []) (E := []) ha hs iha ihs .nil .nil rfl hX
      (fun _ _ _ => trivial) fun _ => trivial
    rw [hC]
    exact .application (hlook.before.symm.trans h) ha' hs'
  | noArgument h =>
    intro C Z hX hm
    obtain rfl : C = [] := by simpa using hX.symm
    refine .noArgument ?_
    rcases hm with hm | ⟨hm, -, -⟩
    · rw [List.nil_append, ← hm.head]
      exact h
    · exact startsArgument_of_startsTerm hm.behind
  | argument h ha hb hs ihb ihs =>
    intro C Z hX hm
    obtain ⟨X', W', hC, hb', hs', hlook⟩ := hm.moveBoth (D := []) (E := []) hb hs ihb ihs .nil .nil rfl hX
      (fun _ _ _ => trivial) fun _ => trivial
    rw [hC]
    exact .argument (hlook.head ▸ h) ha hb' hs'
  | @single X a k h hb =>
    intro C Z hX hm
    obtain rfl : C = [k] := List.append_cancel_right hX.symm
    refine .single h ?_
    rintro ⟨n, hn, hz⟩
    rcases hm with hm | ⟨hm, -, -⟩
    · exact hb ⟨n, hn, hm.head.trans hz⟩
    · exact hm.binds hz
  | @lambda X Y a x he ih =>
    intro C Z hX hm
    have hname : Balanced [.ident x, .backslash] := .plain ⟨rfl, rfl, rfl⟩ (.plain ⟨rfl, rfl, rfl⟩ .nil)
    obtain ⟨X', hC, he', -⟩ := hm.move (D := [.ident x, .backslash]) he ih hname (by simp) hX
      fun _ ht _ => absurd (by simp [outside, TokenKind.partner?, TokenKind.closesBracket]) ht.abstracts
    rw [hC]
    exact .lambda he'
  | @lone X k s h =>
    intro C Z hX hm
    obtain rfl : C = [.leftParen, k, .rightParen] := List.append_cancel_right hX.symm
    exact .lone h
  | group h he ih =>
    intro C Z hX hm
    obtain ⟨X', hC, he', hhead, hnext⟩ := ih.enclosed he rfl rfl hX Z
    rw [hC]
    exact .group (by rwa [hhead, hnext] at h) he'
  | @nil X =>
    intro C Z hX hm
    obtain rfl : C = [.leftBracket, .rightBracket] := List.append_cancel_right hX.symm
    exact .nil
  | list h he ih =>
    intro C Z hX hm
    obtain ⟨X', hC, he', hhead, -⟩ := ih.enclosed he rfl rfl hX Z
    rw [hC]
    exact .list (by rwa [hhead] at h) he'
  | spill he ih =>
    intro C Z hX hm
    obtain ⟨X', hC, he', -, -⟩ := ih.enclosed he rfl rfl hX Z
    rw [hC]
    exact .spill he'
  | more he hs ihe ihs =>
    intro C Z hX hm
    obtain ⟨X', W', hC, he', hs', -⟩ := hm.moveBoth (D := []) (E := [.symbolic ","]) he hs ihe ihs .nil
      (.plain ⟨rfl, rfl, rfl⟩ .nil) rfl hX (fun _ _ hy => hy.elim) fun hy => hy
    rw [hC]
    exact .more he' hs'
  | tail he ht ihe iht =>
    intro C Z hX hm
    obtain ⟨X', W', hC, he', ht', -⟩ := hm.moveBoth (D := []) (E := [.symbolic "|"]) he ht ihe iht .nil
      (.plain ⟨rfl, rfl, rfl⟩ .nil) rfl hX (fun _ _ hy => hy.elim) fun hy => hy.elim
    rw [hC]
    exact .tail he' ht'
  | last he hc hb ih =>
    intro C Z hX hm
    have hlook := hm.resolve_right fun h => h.2.2
    exact .last (ih hX (.inl hlook)) (hlook.head ▸ hc) (hlook.head ▸ hb)

/-- An operand may stand at any limit that its prefix operator, if it begins with one, obeys. -/
theorem operand_of {limit limit' : Nat} (h : Derives v (.operand limit) X a Y)
    (hl : ∀ s o, prefixAhead? v X = some (s, o) → limit' ≤ o.precedence) :
    Derives v (.operand limit') X a Y := by
  cases h with
  | before h _ he => exact .before h (hl _ _ h) he
  | application h ha hs => exact .application h ha hs

end Derives

/-- Every operator tighter than `m` may stand in an expression at this limit. -/
def AdmitsAbove (m limit : Nat) (strict : Bool) : Prop :=
  ∀ o : Operator, m < o.precedence → Admits limit strict o

/-- The last operator of an expression in front of which `earlier` stands: that one or a tighter
one than `m`. -/
def LastTaken (m : Nat) (earlier last : Option (Nat × Grouping)) : Prop :=
  last = earlier ∨ ∃ p g, last = some (p, g) ∧ m < p

theorem LastTaken.of_lt {n : Nat} {g : Grouping} {last : Option (Nat × Grouping)}
    (h : LastTaken m (some (n, g)) last) (hn : m < n) (earlier : Option (Nat × Grouping)) :
    LastTaken m earlier last := by
  rcases h with rfl | h
  · exact .inr ⟨n, g, rfl, hn⟩
  · exact .inr h

section

variable {limit limit' : Nat} {strict strict' : Bool} {earlier earlier' : Option (Nat × Grouping)}

/-- The operators after an operand may be followed by more, at a limit that admits them. -/
theorem Derives.climb_append (h : Derives v (.climb limit strict earlier a) X b Y)
    (hends : Closes v m Y Z) (hl : AdmitsAbove m limit' strict')
    (hgo : ∀ last, LastTaken m earlier' last → Derives v (.climb limit' strict' last b) Z c W)
    (hchain : ∀ o : Operator, m < o.precedence → Chains earlier o → Chains earlier' o)
    (hX : X = C ++ Y) (ht : Tight v m C) : Derives v (.climb limit' strict' earlier' a) (C ++ Z) c W := by
  -- The operand in front grows with each operator, so its tree and what was taken last are general.
  generalize hpart : Part.climb limit strict earlier a = part at h
  induction h generalizing C a earlier earlier' with
  | stop h =>
    cases hpart
    obtain rfl : C = [] := by simpa using hX.symm
    exact hgo earlier' (.inl rfl)
  | @after _ _ _ X Y _ b k s o h hloose hc hp hd ih =>
    cases hpart
    obtain ⟨C₁, rfl, -, -⟩ := hd.exists_balanced
    obtain rfl : C = [k] ++ C₁ := eq_append hX
    obtain ⟨p, hk⟩ := operatorAt?_of_operatorBehind? h
    have hm := ht.lt_of_operatorAhead? h
    have hlook : LooksLike v (k :: C₁ ++ Y) (k :: C₁ ++ Z) :=
      .of_ne_nil (by rw [hends.before, hends.behind]) (by simp)
    refine .after (hlook.operator.symm.trans h) (hl o hm) (hchain o hm hc) hp ?_
    exact ih hends (fun last hlast => hgo last (hlast.of_lt hm _)) (fun _ _ hc => hc) rfl
      (ht.right (.plain (isPlain_of_operatorAt? hk) .nil)) rfl
  | @between _ _ _ X Y' Y _ b c k s o h hloose hc hp he hd ihe ihd =>
    cases hpart
    obtain ⟨C₁, C₂, hC, rfl, rfl, hC₁, -⟩ := he.split (D := [k]) (E := []) hd hX
    obtain rfl : C = (k :: C₁) ++ C₂ := hC
    obtain ⟨p, hk⟩ := operatorAt?_of_operatorBehind? h
    have hk := isPlain_of_operatorAt? hk
    have hm := ht.lt_of_operatorAhead? h
    have hlook := LooksLike.of_append_ne_nil (hends.before.trans hends.behind.symm) (List.cons_ne_nil k C₁) C₂
    have hright : Meets v m (.expression o.precedence (o.grouping ≠ .right)
        (some (o.precedence, o.grouping))) ([k] ++ (C₁ ++ C₂)) Y Z :=
      .inr ⟨hends, ht, hends.yields hm _ _⟩
    have hinner := (hright.back (C := [k]) (.plain hk .nil) fun _ _ hy => hy).front hC₁ fun _ _ hy => hy
    rw [List.append_assoc]
    refine .between (hlook.operator.symm.trans h) (hl o hm) (hchain o hm hc) hp
      (he.followedBy rfl hinner) ?_
    exact ihd hends (fun last hlast => hgo last (hlast.of_lt hm _)) (fun _ _ hc => hc) rfl
      (ht.right (.plain hk hC₁)) rfl
  | _ => cases hpart

/-- An expression may stand at a limit that admits its operators, in front of what goes on from there. -/
theorem Derives.expression_append (h : Derives v (.expression limit strict none) (C ++ Y) a Y)
    (hends : Closes v m Y Z) (ht : Tight v m C) (hl : AdmitsAbove m limit' strict')
    (hearlier : ∀ p g, earlier' = some (p, g) → p ≤ m)
    (hgo : ∀ last, LastTaken m earlier' last → Derives v (.climb limit' strict' last a) Z c W) :
    Derives v (.expression limit' strict' earlier') (C ++ Z) c W := by
  generalize hX : C ++ Y = X at h
  cases h with
  | @expression _ _ _ _ Y' _ b _ ho hc =>
    obtain ⟨C₁, C₂, hC, rfl, rfl, hC₁, hne⟩ := ho.split (D := []) (E := []) hc hX.symm
    obtain rfl : C = C₁ ++ C₂ := hC
    have hoperand : Meets v m (.operand limit) (C₁ ++ C₂) Y Z := .inr ⟨hends, ht, trivial⟩
    have hlook : LooksLike v (C₁ ++ C₂ ++ Y) (C₁ ++ C₂ ++ Z) :=
      .of_ne_nil (by rw [hends.before, hends.behind]) (by simp [hne rfl])
    rw [List.append_assoc]
    refine .expression (Y := C₂ ++ Z) (.operand_of (ho.followedBy rfl (hoperand.front hC₁ fun _ _ hy => hy)) ?_)
      (hc.climb_append hends hl hgo ?_ rfl (ht.right hC₁))
    · intro s o hp
      obtain ⟨k, C₃, rfl⟩ := List.exists_cons_of_ne_nil (hne rfl)
      exact (hl o (ht.lt_of_prefixAhead? hp)).le
    · intro o hm _ p g he hp
      exact absurd (hearlier p g he) (by omega)

/-- An expression may stand at a limit that admits its operators, in front of what it leaves there. -/
theorem Derives.expression_before (h : Derives v (.expression limit strict none) (C ++ Y) a Y)
    (hends : Closes v m Y Z) (ht : Tight v m C) (hl : AdmitsAbove m limit' strict')
    (hearlier : ∀ p g, earlier' = some (p, g) → p ≤ m)
    (hstop : ∀ e ∈ operatorAhead? v Z, ¬ Admits limit' strict' e.2) :
    Derives v (.expression limit' strict' earlier') (C ++ Z) a Z :=
  h.expression_append hends ht hl hearlier fun _ _ => .stop hstop

end

end Grammar

end Clausal
