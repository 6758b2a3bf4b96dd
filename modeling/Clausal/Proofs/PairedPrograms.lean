import Clausal.Proofs.PairedRuns

/-!
# Programs read in step

Two runs include the same texts if their loaders deliver the same and the same texts have been seen. The text of a
unit is read from its beginning in both, so runs in step stay in step over inclusions, however
deep they nest.
-/
namespace Clausal

/-- The digest that names a source. -/
def Source.digest (source : Source) : Digest := Digest.ofText source.text

/-- Where the text of a unit is read from. -/
def ParseState.entering (s : ParseState) (source : Source) : ParseState :=
  .initial s.vocabulary (source.digest :: s.seen) source.name source.text

namespace Parse

section

variable {loader : Loader} {body : Parse (List Decl)} {span : Span} {name : String} {s : ParseState}
variable {source : Source}

theorem includeUnit_of_error {e : ParseError} (h : loader.load span name = .error e) :
    includeUnit loader body span name s = (.error e, s) := by
  simp only [includeUnit, h]
  rfl

theorem includeUnit_of_seen (h : loader.load span name = .ok source) (hs : source.digest ∈ s.seen) :
    includeUnit loader body span name s = (.ok (source.digest, []), s) := by
  have hs' : Digest.ofText source.text ∈ s.seen := hs
  have hstate : (state : Parse ParseState) s = (.ok s, s) := rfl
  simp only [includeUnit, h]
  rw [Pairing.bind_of_ok hstate, if_pos hs']
  rfl

theorem includeUnit_of_unseen (h : loader.load span name = .ok source) (hs : source.digest ∉ s.seen) :
    includeUnit loader body span name s =
      ((body (s.entering source)).1.map fun decls => (source.digest, decls),
        { s with
          vocabulary := (body (s.entering source)).2.vocabulary
          seen := (body (s.entering source)).2.seen }) := by
  have hs' : ¬ Digest.ofText source.text ∈ s.seen := hs
  have hstate : (state : Parse ParseState) s = (.ok s, s) := rfl
  have hmark : markSeen (Digest.ofText source.text) s =
      (.ok (), { s with seen := source.digest :: s.seen }) := rfl
  have hwithin : within source.name source.text body { s with seen := source.digest :: s.seen } =
      ((body (s.entering source)).1,
        { s with
          vocabulary := (body (s.entering source)).2.vocabulary
          seen := (body (s.entering source)).2.seen }) := rfl
  simp only [includeUnit, h]
  rw [Pairing.bind_of_ok hstate, if_neg hs', Pairing.bind_of_ok hmark]
  rcases hb : body (s.entering source) with ⟨_ | decls, s₁⟩
  · rw [hb] at hwithin
    rw [Pairing.bind_of_error hwithin]
    rfl
  · rw [hb] at hwithin
    rw [Pairing.bind_of_ok hwithin]
    rfl

end

namespace Pairing

variable {P : Pairing}

/-- Wherever a name is written, the loader delivers the same text for it, or refuses alike. -/
def Loads (P : Pairing) (loader : Loader) : Prop :=
  ∀ {W : World} {a b} name, P.spans a b →
    ExceptRel ((W.matching P.spans).Alike (α := ParseError)) (· = ·) (loader.load a name)
      (loader.load b name)

/-- Both runs have seen the same texts, or the comparison is given up. -/
structure Marks (P : Pairing) : Prop where
  seen_iff : ∀ {W} (d : Digest), P.admits W →
    P.spoiled (d :: W.left.seen) ∨ (d ∈ W.left.seen ↔ d ∈ W.right.seen)
  admits_mark : ∀ {W} (d : Digest), P.admits W → P.admits (W.mark d)

theorem inStep_entering {W : World} {s s' : ParseState} (h : P.InStep W s s') (source : Source) :
    P.InStep (W.mark source.digest) (s.entering source) (s'.entering source) where
  left := by
    rw [World.mark, ← h.left]
    rfl
  right := by
    rw [World.mark, ← h.right]
    rfl
  ahead := .refl P.refl _
  last := P.refl _

variable {A : P.comparison.Account} {loader : Loader} {body body' : Parse (List Decl)}

/-- What an account has to say of a unit whose text is read by `body`. -/
structure Enters (A : P.comparison.Account) (loader : Loader) (body : Parse (List Decl)) : Prop where
  units : ∀ {W W' : World} {span name source ds ds'} {s s₁ : ParseState}, P.admits W →
    loader.load span name = .ok source → source.digest ∉ W.left.seen →
    (W.mark source.digest).Le W' → P.admits W' → A.decls (W.mark source.digest) W' ds ds' →
    s.moment = W.left → body (s.entering source) = (.ok ds, s₁) → s₁.moment = W'.left →
    A.units W W' [(source.digest, ds)] [(source.digest, ds')]

/-- What an account has to say of a unit whose text has been read before. -/
def Passes (A : P.comparison.Account) (loader : Loader) : Prop :=
  ∀ {W : World} {span name source}, loader.load span name = .ok source →
    source.digest ∈ W.left.seen → A.units W W [(source.digest, [])] [(source.digest, [])]

/-- Within a text that has not been read, the left run starts where the account of the unit does. -/
theorem moment_entering {W : World} {s : ParseState} (hs : s.moment = W.left) (source : Source) :
    (s.entering source).moment = (W.mark source.digest).left := by
  rw [World.mark, ← hs]
  rfl

/-- The texts of units that have not been read are read in step. -/
def KeepsBodies (A : P.comparison.Account) (loader : Loader) (body body' : Parse (List Decl)) : Prop :=
  ∀ {W : World} {span name source}, P.admits W → loader.load span name = .ok source →
    source.digest ∉ W.left.seen → P.Keeps (W.mark source.digest)
      (fun W' ds ds' => A.decls (W.mark source.digest) W' ds ds') body body'

/-- The left run by itself includes a unit that the account has an entry for. -/
theorem alone_includeUnit (hpass : Passes A loader) (henter : Enters A loader body)
    (hbody : KeepsBodies A loader body body') {W : World} (hW : P.admits W) {a : Span} {name : String}
    {source : Source} (hl : loader.load a name = .ok source) :
    P.Alone W (fun W' u u' => A.units W W' [u] [u']) (includeUnit loader body a name) := by
  intro s hs
  have hseen : s.seen = W.left.seen := congrArg Moment.seen hs
  by_cases hd : source.digest ∈ s.seen
  · rw [includeUnit_of_seen hl hd]
    refine ⟨W, .refl W, hW, hs, fun u hu => ⟨u, ?_⟩⟩
    obtain rfl := Except.ok.inj hu
    exact hpass hl (hseen ▸ hd)
  · have hd' : source.digest ∉ W.left.seen := hseen ▸ hd
    obtain ⟨W', hle, hW', hm, hr⟩ := (hbody hW hl hd').alone _ (moment_entering hs source)
    rw [includeUnit_of_unseen hl hd]
    refine ⟨W', (W.le_mark _).trans hle, hW', hm, fun u hu => ?_⟩
    rcases hb : body (s.entering source) with ⟨_ | ds, s₁⟩
    · rw [hb] at hu
      cases hu
    · rw [hb] at hu hm hr
      obtain ⟨ds', hds⟩ := hr ds rfl
      obtain rfl := Except.ok.inj hu
      exact ⟨(source.digest, ds'), henter.units hW hl hd' hle hW' hds hs hb hm⟩

/-- Behind an inclusion the left run has seen the text of the unit. -/
theorem subset_seen_includeUnit (hbody : KeepsBodies A loader body body') {W : World} (hW : P.admits W)
    {a : Span} {name : String} {source : Source} (hl : loader.load a name = .ok source) {s : ParseState}
    (hs : s.moment = W.left) :
    source.digest :: W.left.seen ⊆ (includeUnit loader body a name s).2.seen := by
  have hseen : s.seen = W.left.seen := congrArg Moment.seen hs
  by_cases hd : source.digest ∈ s.seen
  · rw [includeUnit_of_seen hl hd, ← hseen]
    exact List.cons_subset.2 ⟨hd, List.Subset.refl _⟩
  · have hsub := (hbody hW hl (hseen ▸ hd)).alone.seen_subset (moment_entering hs source)
    rw [includeUnit_of_unseen hl hd]
    have hstart : (s.entering source).seen = source.digest :: W.left.seen :=
      congrArg (source.digest :: ·) hseen
    exact hstart ▸ hsub

/-- Inclusions keep an account that has its entries for both kinds of units. -/
theorem includes_includeUnit (hmark : P.Marks) (hload : P.Loads loader) (hpass : Passes A loader)
    (henter : Enters A loader body) (hbody : KeepsBodies A loader body body') :
    A.Includes (includeUnit loader body) (includeUnit loader body') := by
  intro W a b name hab hW
  have hl := hload (W := W) name hab
  rcases hla : loader.load a name with e | source <;> rcases hlb : loader.load b name with e' | source' <;>
    rw [hla, hlb] at hl
  · refine keeps_of_still hW (fun s => ?_) (fun s u _ hu => ?_) fun s s' hs => ?_
    · rw [includeUnit_of_error hla]
    · rw [includeUnit_of_error hla] at hu
      cases hu
    · rw [includeUnit_of_error hla, includeUnit_of_error hlb]
      exact ⟨hl, hs.left, hs.right⟩
  · exact hl.elim
  · exact hl.elim
  obtain rfl : source = source' := hl
  refine ⟨alone_includeUnit hpass henter hbody hW hla, fun s s' hs => ?_⟩
  rcases hmark.seen_iff source.digest hW with hspoiled | hiff
  · exact .inl (P.spoiled_mono (subset_seen_includeUnit hbody hW hla hs.left) hspoiled)
  have hleft : s.seen = W.left.seen := congrArg Moment.seen hs.left
  have hright : s'.seen = W.right.seen := congrArg Moment.seen hs.right
  by_cases hd : source.digest ∈ s.seen
  · have hd₁ : source.digest ∈ W.left.seen := hleft ▸ hd
    rw [includeUnit_of_seen hla hd, includeUnit_of_seen hlb (hright ▸ hiff.1 hd₁)]
    exact .inr ⟨W, .refl W, hW, hpass hla hd₁, hs⟩
  · have hd₁ : source.digest ∉ W.left.seen := hleft ▸ hd
    have hd₂ : source.digest ∉ s'.seen := hright ▸ mt hiff.2 hd₁
    rw [includeUnit_of_unseen hla hd, includeUnit_of_unseen hlb hd₂]
    refine ((hbody hW hla hd₁).together _ _ (inStep_entering hs source)).imp_right ?_
    rintro ⟨W', hle, hW', he⟩
    refine ⟨W', (W.le_mark _).trans hle, hW', ?_⟩
    rcases hb : body (s.entering source) with ⟨e | ds, s₁⟩ <;>
      rcases hb' : body' (s'.entering source) with ⟨e' | ds', s₁'⟩ <;> rw [hb, hb'] at he
    · exact he
    · exact he.elim
    · exact he.elim
    · obtain ⟨hds, hs₁⟩ := he
      exact ⟨henter.units hW hla hd₁ hle hW' hds hs.left hb hs₁.left, hs₁.left, hs₁.right, hs.ahead, hs.last⟩

end Pairing

end Parse

/-- The texts of a loader that have not been seen. -/
def Loader.unseen (loader : Loader) (seen : List Digest) : Nat :=
  loader.texts.countP fun text => Digest.ofText text ∉ seen

namespace Loader

variable (loader : Loader) (seen : List Digest)

theorem unseen_le : loader.unseen seen ≤ loader.texts.length := List.countP_le_length

theorem unseen_cons_le (digest : Digest) : loader.unseen (digest :: seen) ≤ loader.unseen seen := by
  refine List.countP_mono_left fun text _ h => ?_
  simp_all

theorem unseen_cons_lt {text : String} (ht : text ∈ loader.texts) (h : Digest.ofText text ∉ seen) :
    loader.unseen (Digest.ofText text :: seen) < loader.unseen seen := by
  obtain ⟨front, back, hsplit⟩ := List.append_of_mem ht
  have hle : ∀ texts : List String,
      texts.countP (fun t => Digest.ofText t ∉ Digest.ofText text :: seen) ≤
        texts.countP (fun t => Digest.ofText t ∉ seen) :=
    fun texts => List.countP_mono_left fun t _ h => by simp_all
  have hfront := hle front
  have hback := hle back
  simp only [unseen, hsplit, List.countP_append, List.countP_cons, h, List.mem_cons_self,
    not_true_eq_false, not_false_eq_true, decide_true, decide_false, if_true]
  simp only [Bool.false_eq_true, if_false]
  omega

end Loader

namespace Parse

namespace Pairing

/-- Steps that keep two runs in step do so with more worlds admitted. -/
theorem Keeps.mono {P Q : Pairing} {α β : Type} {W : World} {R : World → α → β → Prop} {p : Parse α}
    {q : Parse β} (hadmits : ∀ {W}, P.admits W → Q.admits W) (hspans : P.spans = Q.spans)
    (hspoiled : P.spoiled = Q.spoiled) (h : P.Keeps W R p q) : Q.Keeps W R p q := by
  obtain ⟨halone, htogether⟩ := h
  refine ⟨fun s hs => ?_, fun s s' hs => ?_⟩
  · obtain ⟨W', hle, hW', hr⟩ := halone s hs
    exact ⟨W', hle, hadmits hW', hr⟩
  · obtain ⟨hleft, hright, hahead, hlast⟩ := hs
    have ht := htogether s s' ⟨hleft, hright, hspans ▸ hahead, hspans ▸ hlast⟩
    rw [hspoiled] at ht
    refine ht.imp_right ?_
    rintro ⟨W', hle, hW', he⟩
    refine ⟨W', hle, hadmits hW', ?_⟩
    rcases hp : p s with ⟨_ | a, s₁⟩ <;> rcases hq : q s' with ⟨_ | b, s₁'⟩ <;> rw [hp, hq] at he
    · exact ⟨hspans ▸ he.1, he.2⟩
    · exact he.elim
    · exact he.elim
    · exact ⟨he.1, he.2.left, he.2.right, hspans ▸ he.2.ahead, hspans ▸ he.2.last⟩

/-- Only worlds where at most so many texts are left to be included. -/
def atMost (P : Pairing) (loader : Loader) (k : Nat) : Pairing :=
  { P with
    admits := fun W => P.admits W ∧ loader.unseen W.left.seen ≤ k
    interchangeable := fun hW => P.interchangeable hW.1
    admits_add := fun a hW => ⟨P.admits_add a hW.1, hW.2⟩ }

variable {P : Pairing} {A : P.comparison.Account} {loader : Loader}

theorem Marks.atMost (h : P.Marks) (loader : Loader) (k : Nat) : (P.atMost loader k).Marks where
  seen_iff d hW := h.seen_iff d hW.1
  admits_mark d hW := ⟨h.admits_mark d hW.1, Nat.le_trans (loader.unseen_cons_le _ d) hW.2⟩

/-- The same account of fewer worlds. -/
def accountAtMost (A : P.comparison.Account) (loader : Loader) (k : Nat) :
    (P.atMost loader k).comparison.Account where
  decls := A.decls
  units := A.units
  declares hle hq h := A.declares hle hq ⟨h.alike, h.isPlain⟩
  append := A.append
  nil := A.nil
  snoc := A.snoc
  accumulated := A.accumulated

theorem Enters.atMost {body : Parse (List Decl)} (h : Enters A loader body) (k : Nat) :
    Enters (accountAtMost A loader k) loader body :=
  ⟨fun hW hl hd hle hW' hds hs hb hs₁ => h.units hW.1 hl hd hle hW'.1 hds hs hb hs₁⟩

/-- The text of a unit goes with a smaller bound than the text around it. -/
theorem unseen_mark_lt {span : Span} {name : String} {source : Source} {seen : List Digest}
    (hl : loader.load span name = .ok source) (hd : source.digest ∉ seen) :
    loader.unseen (source.digest :: seen) < loader.unseen seen :=
  loader.unseen_cons_lt seen (loader.complete hl) hd

/-- The depths at which two runs stop do not matter once they are enough for the texts that are left. -/
theorem keeps_unitBody (hmark : P.Marks) (hload : P.Loads loader) (hpass : Passes A loader)
    (henter : ∀ {k depth}, k ≤ depth →
      Enters (accountAtMost A loader (k + 1)) loader (unitBody loader depth))
    {k depth depth' : Nat} (hk : k ≤ depth) (hk' : k ≤ depth') {W : World}
    (hW : (P.atMost loader k).admits W) :
    (P.atMost loader k).Keeps W (A.decls W) (unitBody loader depth) (unitBody loader depth') := by
  have hagain : ∀ {k : Nat} {W} {p q : Parse (List Decl)},
      (accountAtMost A loader k).Declares .behind W p q →
      (accountAtMost A loader k).Declares .within W p q := fun h => h
  induction k generalizing depth depth' W with
  | zero =>
    -- No text is left, so nothing depends on how the text of a unit would be read.
    have hnone : ∀ {W : World} {span name source}, (P.atMost loader 0).admits W →
        loader.load span name = .ok source → source.digest ∈ W.left.seen := by
      intro W span name source hW hl
      by_contra hd
      exact absurd (Nat.lt_of_lt_of_le (unseen_mark_lt hl hd) hW.2) (Nat.not_lt_zero _)
    have hbody : ∀ depth, ∃ body, unitBody loader depth = declarations (includeUnit loader body) := by
      rintro (_ | depth) <;> exact ⟨_, rfl⟩
    obtain ⟨body, hb⟩ := hbody depth
    obtain ⟨body', hb'⟩ := hbody depth'
    rw [hb, hb']
    refine Comparison.Account.declares_declarations (A := accountAtMost A loader 0)
      (includes_includeUnit (hmark.atMost loader 0) hload hpass ?_ ?_) hagain hW
    · exact ⟨fun hW hl hd => absurd (hnone hW hl) hd⟩
    · exact fun hW hl hd => absurd (hnone hW hl) hd
  | succ k ih =>
    obtain ⟨depth, rfl⟩ : ∃ d, depth = d + 1 := ⟨depth - 1, by omega⟩
    obtain ⟨depth', rfl⟩ : ∃ d, depth' = d + 1 := ⟨depth' - 1, by omega⟩
    have hd := Nat.le_of_succ_le_succ hk
    have hd' := Nat.le_of_succ_le_succ hk'
    refine Comparison.Account.declares_declarations (A := accountAtMost A loader (k + 1))
      (includes_includeUnit (hmark.atMost loader (k + 1)) hload hpass (henter hd) ?_) hagain hW
    intro W span name source hW hl hunseen
    have hlt := Nat.lt_of_lt_of_le (unseen_mark_lt hl hunseen) hW.2
    have hmarked : (P.atMost loader k).admits (W.mark source.digest) :=
      ⟨hmark.admits_mark _ hW.1, Nat.le_of_lt_succ hlt⟩
    have hmore : ∀ {W}, (P.atMost loader k).admits W → (P.atMost loader (k + 1)).admits W :=
      fun hW => ⟨hW.1, Nat.le_succ_of_le hW.2⟩
    exact (ih hd hd' hmarked).mono hmore rfl rfl

end Pairing

end Parse

end Clausal
