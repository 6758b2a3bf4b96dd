import Clausal.Proofs.AdmittedAttributes
import Clausal.Proofs.BlockScopes

/-!
# Which programs have a nested form

Openings and closings match as brackets do; a `shorten` is no bracket. Whether an item of a program
may stand at its place depends on the brackets that are open there and on its attributes. A program
has a nested form if all items may stand where they do and every bracket is closed. If not, the error
is at the first item that may not, or else at the innermost bracket that is left.
-/
namespace Clausal

/-- The opening of a block with a closing of its own. -/
structure Bracket where
  opening : Opening
  span : Span
  deriving DecidableEq, Repr

namespace Decl

/-- The brackets that are open behind a declaration, innermost first. -/
def bracketsAfter (around : List Bracket) : Decl → List Bracket
  | openBlock span => ⟨.braces, span⟩ :: around
  | openNamespace span name => ⟨.namespaced name, span⟩ :: around
  | openConstraint span names => ⟨.constraint names, span⟩ :: around
  | close _ => around.tail
  | _ => around

/-- A group of types has as many items as members. -/
def items : Decl → List Decl
  | types ts => ts.map fun t => types [t]
  | d => [d]

/-- The declaration may stand where those brackets are open. -/
def StandsIn (around : List Bracket) : Decl → Prop
  | close _ => around ≠ []
  | locals _ _ => ∃ b ∈ around.head?, b.opening = .braces
  | rule r =>
    (∃ b ∈ around.head?, b.opening.isConstraint = true) ∧
      Attribute.Admitted RuleOptions.slots r.attributes
  | clause c => Attribute.Admitted ClauseOptions.slots c.attributes
  | types ts => ∀ t ∈ ts, Attribute.Admitted TypeOption.slots t.attributes
  | _ => True

end Decl

/-- The brackets that items leave open, innermost first. -/
def openBrackets (items : List Decl) : List Bracket := items.foldl Decl.bracketsAfter []

/-- Every item may stand at its place, if `around` is open in front of the first. -/
def WellPlaced (around : List Bracket) (items : List Decl) : Prop :=
  ∀ front d back, items = front ++ d :: back → d.StandsIn (front.foldl Decl.bracketsAfter around)

/-- The first item that may not stand at its place is at that span. -/
def FirstMisplaced (around : List Bracket) (items : List Decl) (span : Span) : Prop :=
  ∃ front d back, items = front ++ d :: back ∧ WellPlaced around front ∧
    ¬ d.StandsIn (front.foldl Decl.bracketsAfter around) ∧ d.span? = some span

section

variable {around : List Bracket} {d : Decl} {front back rest : List Decl} {span : Span}

theorem wellPlaced_nil : WellPlaced around [] := by
  intro front d back h
  simp at h

theorem wellPlaced_cons :
    WellPlaced around (d :: rest) ↔ d.StandsIn around ∧ WellPlaced (d.bracketsAfter around) rest := by
  constructor
  · intro h
    exact ⟨h [] d rest rfl, fun front e back hsplit => h (d :: front) e back (by rw [hsplit]; rfl)⟩
  · rintro ⟨hd, hrest⟩ front e back hsplit
    cases front with
    | nil =>
      obtain ⟨rfl, rfl⟩ := List.cons.inj hsplit
      exact hd
    | cons f front =>
      obtain ⟨rfl, htail⟩ := List.cons.inj hsplit
      exact hrest front e back htail

theorem wellPlaced_append :
    WellPlaced around (front ++ back) ↔
      WellPlaced around front ∧ WellPlaced (front.foldl Decl.bracketsAfter around) back := by
  induction front generalizing around with
  | nil => simp [wellPlaced_nil]
  | cons d front ih => simp [wellPlaced_cons, ih, and_assoc]

theorem FirstMisplaced.append_right (h : FirstMisplaced around front span) (back : List Decl) :
    FirstMisplaced around (front ++ back) span := by
  obtain ⟨before, d, after, rfl, hbefore, hd, hspan⟩ := h
  exact ⟨before, d, after ++ back, by simp, hbefore, hd, hspan⟩

theorem FirstMisplaced.append_left (hfront : WellPlaced around front)
    (h : FirstMisplaced (front.foldl Decl.bracketsAfter around) back span) :
    FirstMisplaced around (front ++ back) span := by
  obtain ⟨before, d, after, rfl, hbefore, hd, hspan⟩ := h
  refine ⟨front ++ before, d, after, by simp, wellPlaced_append.2 ⟨hfront, hbefore⟩, ?_, hspan⟩
  rwa [List.foldl_append]

theorem FirstMisplaced.not_wellPlaced {items : List Decl} (h : FirstMisplaced around items span) :
    ¬ WellPlaced around items := by
  obtain ⟨front, d, back, rfl, -, hd, -⟩ := h
  exact fun hall => hd (hall front d back rfl)

end

def Frame.bracket (f : Frame) : Bracket := ⟨f.opening, f.span⟩

namespace Nesting

/-- What the open blocks were opened by, innermost first. -/
def openings (n : Nesting) : List Bracket := n.frames.map Frame.bracket

/-- The openings among them that need a closing. -/
def brackets (n : Nesting) : List Bracket := n.openings.filter (! ·.opening.isShorten)

variable (n : Nesting)

@[simp] theorem openings_onTop (f : Draft → Draft) : (n.onTop f).openings = n.openings := by
  unfold onTop openings
  cases n.frames <;> rfl

@[simp] theorem brackets_onTop (f : Draft → Draft) : (n.onTop f).brackets = n.brackets := by
  rw [brackets, openings_onTop, brackets]

@[simp] theorem openings_openBlock (opening : Opening) (span : Span) :
    (n.openBlock opening span).openings = ⟨opening, span⟩ :: n.openings :=
  congrArg (List.cons (⟨opening, span⟩ : Bracket)) (n.openings_onTop Draft.flush)

@[simp] theorem seen_openBlock (opening : Opening) (span : Span) :
    (n.openBlock opening span).seen = n.seen :=
  n.onTop_seen Draft.flush

@[simp] theorem openings_closeTop : n.closeTop.openings = n.openings.tail := by
  obtain ⟨outermost, frames, seen⟩ := n
  cases frames with
  | nil => rfl
  | cons frame rest => exact openings_onTop _ _

@[simp] theorem seen_closeTop : n.closeTop.seen = n.seen := by
  obtain ⟨outermost, frames, seen⟩ := n
  cases frames with
  | nil => rfl
  | cons frame rest => exact onTop_seen _ _

theorem foldl_closeTop_openings {α : Type} (xs : List α) :
    (xs.foldl (fun n _ => n.closeTop) n).openings = n.openings.drop xs.length ∧
      (xs.foldl (fun n _ => n.closeTop) n).seen = n.seen := by
  induction xs generalizing n with
  | nil => exact ⟨rfl, rfl⟩
  | cons x xs ih =>
    obtain ⟨hopen, hseen⟩ := ih n.closeTop
    refine ⟨?_, hseen.trans n.seen_closeTop⟩
    rw [List.foldl_cons, hopen, openings_closeTop, List.drop_tail, List.length_cons]

theorem openings_closeShortens :
    n.closeShortens.openings = n.openings.dropWhile (·.opening.isShorten) := by
  rw [closeShortens, (n.foldl_closeTop_openings _).1, openings]
  induction n.frames with
  | nil => rfl
  | cons f frames ih => by_cases h : f.opening.isShorten <;> simp [Frame.bracket, h, ih]

@[simp] theorem seen_closeShortens : n.closeShortens.seen = n.seen :=
  (n.foldl_closeTop_openings _).2

/-- Behind the `shorten` scopes stands the innermost bracket. -/
theorem openings_closeShortens_cases :
    (n.closeShortens.openings = [] ∧ n.brackets = []) ∨
      ∃ b rest, n.closeShortens.openings = b :: rest ∧
        n.brackets = b :: rest.filter (! ·.opening.isShorten) := by
  rw [openings_closeShortens, brackets]
  induction n.openings with
  | nil => exact .inl ⟨rfl, rfl⟩
  | cons b rest ih =>
    by_cases h : b.opening.isShorten = true
    · simpa [h] using ih
    · exact .inr ⟨b, rest, by simp [h], by simp [h]⟩

/-- Where a change goes to the innermost bracket, that bracket allows it. -/
theorem onScope_eq_some {allowed : Opening → Bool} {f : Draft → Draft} {frames frames' : List Frame}
    (h : onScope allowed f frames = some frames') :
    frames'.map Frame.bracket = frames.map Frame.bracket ∧
      ∃ b ∈ ((frames.map Frame.bracket).filter (! ·.opening.isShorten)).head?,
        allowed b.opening = true := by
  induction frames generalizing frames' with
  | nil => cases h
  | cons frame rest ih =>
    rw [onScope] at h
    split at h
    · next hshorten =>
      obtain ⟨rest', hrest, rfl⟩ := Option.map_eq_some_iff.1 h
      obtain ⟨hmap, hb⟩ := ih hrest
      exact ⟨by simp [hmap], by simpa [Frame.bracket, hshorten] using hb⟩
    · next hshorten =>
      split at h
      · next hallowed =>
        obtain rfl := Option.some.inj h
        exact ⟨rfl, by simpa [Frame.bracket, hshorten] using hallowed⟩
      · cases h

theorem onScope_eq_none {allowed : Opening → Bool} {f : Draft → Draft} {frames : List Frame}
    (h : onScope allowed f frames = none) :
    ¬ ∃ b ∈ ((frames.map Frame.bracket).filter (! ·.opening.isShorten)).head?,
      allowed b.opening = true := by
  induction frames with
  | nil => simp
  | cons frame rest ih =>
    rw [onScope] at h
    split at h
    · next hshorten => simpa [Frame.bracket, hshorten] using ih (Option.map_eq_none_iff.1 h)
    · next hshorten =>
      split at h
      · cases h
      · next hallowed => simpa [Frame.bracket, hshorten] using hallowed

end Nesting

/-- What the items do to a nesting: they may stand where they do and lead to a nesting with the
brackets that they leave open, or the error is at the first that may not. -/
def Follows (n : Nesting) (items : List Decl) (seen : List Digest) : Except TermError Nesting → Prop
  | .ok m => WellPlaced n.brackets items ∧
      m.brackets = items.foldl Decl.bracketsAfter n.brackets ∧ m.seen = seen
  | .error e => ∃ span fault, e = .nesting span fault ∧ FirstMisplaced n.brackets items span

namespace Follows

variable {n m : Nesting} {d : Decl} {front back : List Decl} {seen seen' : List Digest}
variable {span : Span} {fault : NestingFault}

theorem nil : Follows n [] n.seen (.ok n) := ⟨wellPlaced_nil, rfl, rfl⟩

theorem ok_of (hd : d.StandsIn n.brackets) (hm : m.brackets = d.bracketsAfter n.brackets)
    (hs : m.seen = n.seen) : Follows n [d] n.seen (.ok m) :=
  ⟨wellPlaced_cons.2 ⟨hd, wellPlaced_nil⟩, hm, hs⟩

theorem error_of (hd : ¬ d.StandsIn n.brackets) (hs : d.span? = some span) :
    Follows n [d] seen (.error (.nesting span fault)) :=
  ⟨span, fault, rfl, [], d, [], rfl, wellPlaced_nil, hd, hs⟩

theorem bind {r : Except TermError Nesting} {f : Nesting → Except TermError Nesting}
    (h : Follows n front seen r)
    (hf : ∀ m : Nesting, r = .ok m → m.seen = seen → Follows m back seen' (f m)) :
    Follows n (front ++ back) seen' (r >>= f) := by
  cases r with
  | error e =>
    obtain ⟨span, fault, rfl, hfirst⟩ := h
    exact ⟨span, fault, rfl, hfirst.append_right back⟩
  | ok m =>
    obtain ⟨hfront, hm, hs⟩ := h
    have hback := hf m rfl hs
    change Follows n (front ++ back) seen' (f m)
    cases hr : f m with
    | error e =>
      rw [hr] at hback
      obtain ⟨span, fault, rfl, hfirst⟩ := hback
      exact ⟨span, fault, rfl, .append_left hfront (hm ▸ hfirst)⟩
    | ok m' =>
      rw [hr] at hback
      obtain ⟨hplaced, hm', hs'⟩ := hback
      refine ⟨wellPlaced_append.2 ⟨hfront, hm ▸ hplaced⟩, ?_, hs'⟩
      rw [hm', hm, List.foldl_append]

end Follows

namespace Nesting

variable (n : Nesting)

/-- Attributes that are not admitted are an error at their declaration, whatever comes next. -/
theorem follows_located {d : Decl} {α : Type} {span : Span} {r : Except NestingFault α}
    {f : α → Except TermError Nesting} (hspan : d.span? = some span)
    (hr : d.StandsIn n.brackets → ∃ a, r = .ok a)
    (hf : ∀ a, r = .ok a → Follows n [d] n.seen (f a)) :
    Follows n [d] n.seen (located span r >>= f) := by
  cases r with
  | ok a => exact hf a rfl
  | error fault =>
    refine Follows.error_of (fun hd => ?_) hspan
    obtain ⟨a, ha⟩ := hr hd
    cases ha

theorem follows_openBlock {d : Decl} (opening : Opening) (span : Span)
    (hd : d.StandsIn n.brackets)
    (hb : d.bracketsAfter n.brackets =
      if opening.isShorten then n.brackets else ⟨opening, span⟩ :: n.brackets) :
    Follows n [d] n.seen (.ok (n.openBlock opening span)) := by
  refine Follows.ok_of hd ?_ (n.seen_openBlock opening span)
  rw [hb, brackets, openings_openBlock]
  cases h : opening.isShorten <;> simp [h, brackets]

theorem follows_onTop {d : Decl} (f : Draft → Draft) (hd : d.StandsIn n.brackets)
    (hb : d.bracketsAfter n.brackets = n.brackets) : Follows n [d] n.seen (.ok (n.onTop f)) :=
  Follows.ok_of hd (by rw [brackets_onTop, hb]) (n.onTop_seen f)

theorem follows_clause (c : Clause (List Attribute)) :
    Follows n [.clause c] n.seen (n.addClause c) := by
  have hadmits := ClauseOptions.ofAttributes_iff c.attributes
  refine n.follows_located rfl hadmits.2 fun options ho => ?_
  exact n.follows_onTop _ (hadmits.1 ⟨options, ho⟩) rfl

theorem follows_type (t : TypeDecl (List Attribute)) :
    Follows n [.types [t]] n.seen (n.addType t) := by
  have hadmits := TypeOption.ofAttributes_iff t.attributes
  refine n.follows_located rfl (fun hd => hadmits.2 (hd t (List.mem_singleton.2 rfl)))
    fun option ho => ?_
  refine n.follows_onTop _ (fun t' ht => ?_) rfl
  obtain rfl := List.mem_singleton.1 ht
  exact hadmits.1 ⟨option, ho⟩

theorem follows_types (ts : List (TypeDecl (List Attribute))) :
    Follows n (ts.map fun t => .types [t]) n.seen (ts.foldlM addType n) := by
  induction ts generalizing n with
  | nil => exact .nil
  | cons t ts ih =>
    rw [List.foldlM_cons]
    refine (n.follows_type t).bind fun m _ hs => ?_
    rw [← hs]
    exact ih m

theorem follows_locals (span : Span) (names : List Symbol) :
    Follows n [.locals span names] n.seen (n.addLocals span names) := by
  unfold addLocals
  split
  · next frames hframes =>
    obtain ⟨hmap, b, hb, hbraces⟩ := onScope_eq_some hframes
    refine Follows.ok_of ⟨b, hb, of_decide_eq_true hbraces⟩ ?_ rfl
    exact congrArg (List.filter _) hmap
  · next hframes =>
    refine Follows.error_of ?_ rfl
    rintro ⟨b, hb, hbraces⟩
    exact onScope_eq_none hframes ⟨b, hb, decide_eq_true hbraces⟩

theorem follows_rule (r : Rule (List Attribute)) :
    Follows n [.rule r] n.seen (n.addRule r) := by
  have hadmits := RuleOptions.ofAttributes_iff r.span r.attributes
  refine n.follows_located rfl (fun hd => hadmits.2 hd.2) fun options ho => ?_
  dsimp only
  split
  · next frames hframes =>
    obtain ⟨hmap, hconstraint⟩ := onScope_eq_some hframes
    refine Follows.ok_of ⟨hconstraint, hadmits.1 ⟨options, ho⟩⟩ ?_ rfl
    exact congrArg (List.filter _) hmap
  · next hframes => exact Follows.error_of (fun hd => onScope_eq_none hframes hd.1) rfl

theorem follows_close (span : Span) :
    Follows n [.close span] n.seen (n.closeBlock span) := by
  have hempty : n.closeShortens.frames.isEmpty = n.closeShortens.openings.isEmpty := by
    simp [openings]
  rw [closeBlock, hempty]
  rcases n.openings_closeShortens_cases with ⟨hopen, hb⟩ | ⟨b, rest, hopen, hb⟩
  · rw [hopen]
    exact Follows.error_of (fun hd => hd hb) rfl
  · rw [hopen]
    refine Follows.ok_of (m := n.closeShortens.closeTop) (by simp [Decl.StandsIn, hb]) ?_
      (by simp)
    rw [brackets, openings_closeTop, hopen, Decl.bracketsAfter, hb, List.tail_cons, List.tail_cons]

mutual

/-- A declaration does what the items of its expansion do. -/
theorem follows_add (n : Nesting) (d : Decl) :
    Follows n ((expandDecl n.seen d).1.flatMap Decl.items) (expandDecl n.seen d).2 (n.add d) := by
  match d with
  | .openBlock span => exact n.follows_openBlock .braces span trivial rfl
  | .openNamespace span name => exact n.follows_openBlock (.namespaced name) span trivial rfl
  | .openConstraint span names => exact n.follows_openBlock (.constraint names) span trivial rfl
  | .shorten span shorthands => exact n.follows_openBlock (.shorten shorthands) span trivial rfl
  | .close span => exact n.follows_close span
  | .accumulated _ units => exact follows_addUnits n units
  | .clause c => exact n.follows_clause c
  | .locals span names => exact n.follows_locals span names
  | .modes modes => exact n.follows_onTop _ trivial rfl
  | .rule r => exact n.follows_rule r
  | .macroDef m => exact n.follows_onTop _ trivial rfl
  | .types ts =>
    have hitems : (expandDecl n.seen (.types ts)).1.flatMap Decl.items =
        ts.map fun t => .types [t] := by
      simp [expandDecl, Decl.items]
    rw [hitems]
    exact n.follows_types ts
  | .typeAbbreviation a => exact n.follows_onTop _ trivial rfl
  | .ignored span => exact Follows.ok_of trivial rfl rfl

theorem follows_addUnits (n : Nesting) (units : List (Digest × List Decl)) :
    Follows n ((expandUnits n.seen units).1.flatMap Decl.items) (expandUnits n.seen units).2
      (n.addUnits units) := by
  match units with
  | [] => exact .nil
  | (digest, decls) :: rest =>
    rw [addUnits, expandUnits]
    split
    · exact follows_addUnits n rest
    · rw [List.flatMap_append]
      refine (follows_addAll { n with seen := digest :: n.seen } decls).bind fun m _ hs => ?_
      dsimp only at hs ⊢
      rw [← hs]
      exact follows_addUnits m rest

theorem follows_addAll (n : Nesting) (decls : List Decl) :
    Follows n ((expandAll n.seen decls).1.flatMap Decl.items) (expandAll n.seen decls).2
      (n.addAll decls) := by
  match decls with
  | [] => exact .nil
  | d :: rest =>
    rw [addAll, expandAll, List.flatMap_append]
    refine (follows_add n d).bind fun m _ hs => ?_
    dsimp only
    rw [← hs]
    exact follows_addAll m rest

end

/-- At the end the innermost open bracket is an error. -/
theorem finish_of_brackets :
    match n.brackets with
    | [] => ∃ result, n.finish = .ok result
    | b :: _ => n.finish = .error (.nesting b.span .neverClosed) := by
  have hframes : n.closeShortens.frames.map Frame.bracket = n.closeShortens.openings := rfl
  unfold finish
  rcases n.openings_closeShortens_cases with ⟨hopen, hb⟩ | ⟨b, rest, hopen, hb⟩
  · rw [hb]
    rw [hopen, List.map_eq_nil_iff] at hframes
    simp [hframes]
  · rw [hb]
    rw [hopen] at hframes
    obtain ⟨frame, frames, hcons, hframe, -⟩ := List.map_eq_cons_iff.1 hframes
    simp [hcons, ← hframe, Frame.bracket]

end Nesting

/-- The items of a program are those of its expansion. -/
def itemsOf (program : List Decl) : List Decl := (expand program).flatMap Decl.items

/-- The program is at fault at that span: an item is the first that may not stand at its place, or
all may, and the innermost bracket that is left open is there. -/
def FaultAt (program : List Decl) (span : Span) : Prop :=
  FirstMisplaced [] (itemsOf program) span ∨
    WellPlaced [] (itemsOf program) ∧ ∃ b ∈ (openBrackets (itemsOf program)).head?, b.span = span

theorem nest_cases (program : List Decl) :
    (WellPlaced [] (itemsOf program) ∧ openBrackets (itemsOf program) = [] ∧
      ∃ result, nest program = .ok result) ∨
    ∃ span fault, nest program = .error (.nesting span fault) ∧ FaultAt program span := by
  have hadd := Nesting.initial.follows_addAll program
  rw [nest]
  cases h : Nesting.initial.addAll program with
  | error e =>
    rw [h] at hadd
    obtain ⟨span, fault, rfl, hfirst⟩ := hadd
    exact .inr ⟨span, fault, rfl, .inl hfirst⟩
  | ok n =>
    rw [h] at hadd
    obtain ⟨hplaced, hbrackets, -⟩ := hadd
    have hfinish := n.finish_of_brackets
    have hopen : n.brackets = openBrackets (itemsOf program) := hbrackets
    rw [hopen] at hfinish
    cases hb : openBrackets (itemsOf program) with
    | nil =>
      rw [hb] at hfinish
      exact .inl ⟨hplaced, rfl, hfinish⟩
    | cons b rest =>
      rw [hb] at hfinish
      exact .inr ⟨b.span, .neverClosed, hfinish, .inr ⟨hplaced, b, by simp [hb], rfl⟩⟩

theorem FaultAt.not_accepted {program : List Decl} {span : Span} (h : FaultAt program span) :
    ¬ (WellPlaced [] (itemsOf program) ∧ openBrackets (itemsOf program) = []) := by
  rintro ⟨hplaced, hopen⟩
  rcases h with hfirst | ⟨-, b, hb, -⟩
  · exact hfirst.not_wellPlaced hplaced
  · simp [hopen] at hb

theorem nest_of_wellPlaced {program : List Decl} (hplaced : WellPlaced [] (itemsOf program))
    (hopen : openBrackets (itemsOf program) = []) : ∃ result, nest program = .ok result := by
  rcases nest_cases program with ⟨-, -, hresult⟩ | ⟨span, fault, -, hfault⟩
  · exact hresult
  · exact absurd ⟨hplaced, hopen⟩ hfault.not_accepted

/-- Exactly the programs whose items may all stand where they do, and that leave no bracket open,
have a nested form. For any other the error is a fault of nesting, at the first item that may not, or
at the innermost bracket left open if all may. -/
theorem nest_ok_iff_wellPlaced (program : List Decl) :
    ((∃ result, nest program = .ok result) ↔
      WellPlaced [] (itemsOf program) ∧ openBrackets (itemsOf program) = []) ∧
    ∀ e, nest program = .error e → ∃ span fault, e = .nesting span fault ∧ FaultAt program span := by
  refine ⟨⟨?_, fun h => nest_of_wellPlaced h.1 h.2⟩, ?_⟩
  · rintro ⟨result, hresult⟩
    rcases nest_cases program with ⟨hplaced, hopen, -⟩ | ⟨span, fault, herror, -⟩
    · exact ⟨hplaced, hopen⟩
    · cases hresult.symm.trans herror
  · intro e he
    rcases nest_cases program with ⟨-, -, result, hresult⟩ | ⟨span, fault, herror, hfault⟩
    · cases hresult.symm.trans he
    · exact ⟨span, fault, Except.error.inj (he.symm.trans herror), hfault⟩

def lineSpan (line : Nat) : Span := ⟨"main", 0, 0, line, 0⟩

/-- A unit closes the block it is included in, by its first inclusion only. The clause on line 5 has
two positions. The closing on line 9 is a fault as well, but not the first. -/
def twoPositions : List Decl :=
  let unit : Digest × List Decl := (⟨Digest.start⟩, [.close (lineSpan 10)])
  [.openBlock (lineSpan 1), .shorten (lineSpan 2) [],
    .accumulated (lineSpan 3) [unit, unit],
    .openConstraint (lineSpan 4) [],
    .clause ⟨lineSpan 5, [.before "first", .name "here", .after "last"], .const ⟨24⟩⟩,
    .openNamespace (lineSpan 6) ⟨25⟩, .close (lineSpan 7), .close (lineSpan 8), .close (lineSpan 9)]

theorem nest_twoPositions :
    nest twoPositions = .error (.nesting (lineSpan 5) (.repeatedAttribute "before/after")) ∧
      ¬ (WellPlaced [] (itemsOf twoPositions) ∧ openBrackets (itemsOf twoPositions) = []) ∧
      FaultAt twoPositions (lineSpan 5) := by
  have h : nest twoPositions =
      .error (.nesting (lineSpan 5) (.repeatedAttribute "before/after")) := by rfl
  obtain ⟨haccepted, hfault⟩ := nest_ok_iff_wellPlaced twoPositions
  obtain ⟨span, fault, he, hat⟩ := hfault _ h
  obtain ⟨rfl, -⟩ := TermError.nesting.inj he
  refine ⟨h, fun hplaced => ?_, hat⟩
  obtain ⟨result, hresult⟩ := haccepted.2 hplaced
  cases hresult.symm.trans h

end Clausal
