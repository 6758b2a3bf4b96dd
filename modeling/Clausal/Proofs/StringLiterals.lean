import Clausal.Proofs.BuiltInOperators
import Clausal.Proofs.SpelledTexts
import Clausal.Proofs.TermOrigins
import Clausal.Proofs.VocabularyGrowth

/-!
# String literals

A string is shown so that the scanner reads it back, whatever characters it has and whatever stands behind
it. The literals that are read come from the pool, which holds each text at one place only, and for
ever at the same, so those of one text share it.
-/
namespace Clausal

namespace Vocabulary

variable {v w : Vocabulary}

/-- No text has two places in the pool. -/
def PoolsOnce (v : Vocabulary) : Prop := v.strings.toList.Nodup

theorem PoolsOnce.string (h : v.PoolsOnce) (text : String) : (v.string text).2.PoolsOnce := by
  unfold Vocabulary.string
  split_ifs with hmem
  · exact h
  · have hnew : text ∉ v.strings.toList := fun h => hmem (Array.contains_iff_mem.2 (Array.mem_def.2 h))
    simpa [PoolsOnce, List.nodup_append] using ⟨h, fun a ha heq => hnew (Array.mem_def.1 (heq ▸ ha))⟩

theorem mem_string (v : Vocabulary) (text : String) : text ∈ (v.string text).2.strings.toList := by
  unfold Vocabulary.string
  split_ifs with hmem
  · exact Array.mem_def.1 (Array.contains_iff_mem.1 hmem)
  · simp

theorem PoolsOnce.apply (h : v.PoolsOnce) (a : Addition) : (a.apply v).PoolsOnce := by
  cases a with
  | name n => exact h
  | «variable» => exact h
  | text t => exact h.string t
  | operator n f p =>
    rw [Addition.apply, defineOperator]
    split_ifs
    · exact h
    · dsimp only
      split <;> exact h

theorem lasting_poolsOnce : Lasting PoolsOnce := ⟨fun a _ h => h.apply a⟩

theorem poolsOnce_foldl (calls : List Call) (hv : v.Reachable) (h : v.PoolsOnce) :
    (calls.foldl Call.apply v).PoolsOnce := by
  induction calls generalizing v with
  | nil => exact h
  | cons call rest ih =>
    exact ih ((Call.keeps v call).reachable hv) (lasting_poolsOnce.apply hv h h h call)

theorem poolsOnce_session (calls : List Call) : (session calls).PoolsOnce :=
  poolsOnce_foldl calls .initial List.nodup_nil

/-- Where a text is pooled, it stays, and it is pooled nowhere else. -/
theorem PoolsOnce.getElem?_iff {i j : Nat} {text : String} (h : w.PoolsOnce) (hgrows : v.GrowsInto w)
    (hi : v.strings.toList[i]? = some text) : w.strings[j]? = some text ↔ j = i := by
  obtain ⟨more, hmore⟩ := hgrows.strings
  have hlt := (List.getElem?_eq_some_iff.1 hi).1
  have hi' : w.strings.toList[i]? = some text := by
    rw [← hmore, List.getElem?_append_left hlt, hi]
  have hlt' := (List.getElem?_eq_some_iff.1 hi').1
  rw [← Array.getElem?_toList]
  constructor
  · intro hj
    exact ((List.getElem?_inj hlt' h).1 (hi'.trans hj.symm)).symm
  · rintro rfl
    exact hi'

end Vocabulary

/-- What a string shows as is read as the literal of that string, from the pool. -/
theorem parseTerm_renderString (v : Vocabulary) (text : String) :
    parseTerm v (Literal.renderString text) = (.ok (.literal (.string text true)), (v.string text).2) := by
  have hspells : Spells (Literal.renderString text).toList [.string text] := by
    have hstring := Spells.string text Spells.nil
    rwa [List.append_nil] at hstring
  refine parseTerm_of_shows (hspells.ofText _) (Parse.reads_expression (Parse.reads_operand_atomic ?_
    Parse.reads_atomic_string (Nat.le_refl _) ?_) (by simp) (Parse.reads_climb_stop ?_))
  · exact Parse.operatorBefore?_of_startsArgument rfl _
  · rfl
  · rfl

/-- What a string shows as is one token in front of anything. -/
theorem Cursor.next_renderString {k : Cursor} {text : String} {more : List Char}
    (hk : k.rest = (Literal.renderString text).toList ++ more) :
    k.next.1 = .token ⟨.string text, k.spanOver (Literal.renderString text).toList⟩ ∧ k.next.2.rest = more := by
  have hnext := (begins_string text more).next hk
  rwa [List.take_left, List.drop_left] at hnext

/-- String literals of one text share their payload in whatever a call gives. -/
theorem Call.GivesTerm.shares {v : Vocabulary} {call : Call} {t : Term} {a : Literal} {text : String}
    (h : call.GivesTerm v t) (ha : (Term.literal a).Within t) (htext : a.string? = some text) :
    (Literal.string text true).shares a = true := by
  obtain ⟨x, -, ht⟩ := Call.readFrom h
  have hread := (ht.of_within ha).of_literal
  cases a with
  | string other pooled =>
    obtain rfl := Option.some.inj htext
    obtain rfl : pooled = true := hread
    simp [Literal.shares]
  | int | float | span | extension | malformed => cases htext

/-- Once a literal has been read, its text is pooled at one place, and stays there. -/
theorem exists_place_session (text : String) (front : List Call) :
    ∃ i, ∀ (back : List Call) (j : Nat),
      (session (front ++ .term (Literal.renderString text) :: back)).strings[j]? = some text ↔ j = i := by
  obtain ⟨i, hi⟩ := List.getElem?_of_mem ((session front).mem_string text)
  refine ⟨i, fun back j => ?_⟩
  have hcall : Call.apply (session front) (.term (Literal.renderString text)) =
      ((session front).string text).2 := congrArg Prod.snd (parseTerm_renderString _ text)
  have hreachable := (Call.keeps (session front) (.term (Literal.renderString text))).reachable
    (reachable_session front)
  have honce : ((session front).string text).2.PoolsOnce :=
    (Vocabulary.poolsOnce_session front).string text
  have hsession : session (front ++ .term (Literal.renderString text) :: back) =
      back.foldl Call.apply ((session front).string text).2 := by
    rw [session, List.foldl_append, List.foldl_cons, ← hcall]
    rfl
  rw [hcall] at hreachable
  rw [hsession]
  exact (Vocabulary.poolsOnce_foldl back hreachable honce).getElem?_iff (.calls hreachable back) hi

/-- A string is shown so that it reads back in front of anything, as one token that is just what is shown, and
alone as the literal of the string. String literals of one text that any calls give share their payload,
and once a literal has been read, its text is pooled at one place and stays there. -/
theorem string_literal_readsBack (text : String) (pooled : Bool) :
    (∀ (k : Cursor) (more : List Char), k.rest = (Literal.string text pooled).render.toList ++ more →
      k.next.1 = .token ⟨.string text, k.spanOver (Literal.string text pooled).render.toList⟩ ∧
        k.next.2.rest = more) ∧
    (∀ v, parseTerm v (Literal.string text pooled).render =
      (.ok (.literal (.string text true)), (v.string text).2)) ∧
    (∀ v call t a, Call.GivesTerm v call t → (Term.literal a).Within t → a.string? = some text →
      (Literal.string text true).shares a = true) ∧
    ∀ front, ∃ i, ∀ (back : List Call) (j : Nat),
      (session (front ++ .term (Literal.string text pooled).render :: back)).strings[j]? = some text ↔
        j = i :=
  ⟨fun _ _ hk => Cursor.next_renderString hk, fun v => parseTerm_renderString v text,
    fun _ _ _ _ hgives ha htext => hgives.shares ha htext, exists_place_session text⟩

/-- A quote, a backslash, a line break, a tab, a zero and a character of two bytes. -/
def awkwardText : String := "\"\\\n\t\x00é"

/-- Two literals of the text, with another quote behind the first, and a term that holds the second. -/
theorem string_literal_readsBack_awkward :
    (Cursor.initial "main" (Literal.renderString awkwardText ++ "\"")).next.1 =
        .token ⟨.string awkwardText, ⟨"main", 0, 13, 1, 0⟩⟩ ∧
      (parseTerm .initial (Literal.renderString awkwardText)).1 =
        .ok (.literal (.string awkwardText true)) ∧
      (∃ a, Call.GivesTerm .initial (.term (Literal.renderString awkwardText)) (.literal a) ∧
        (Literal.string awkwardText true).shares a = true) ∧
      ∃ i : Nat, (session [.term (Literal.renderString awkwardText), .term "f x"]).strings[i]? =
        some awkwardText := by
  obtain ⟨hlex, hparse, hshares, hpool⟩ := string_literal_readsBack awkwardText false
  have hterm : (parseTerm .initial (Literal.renderString awkwardText)).1 =
      .ok (.literal (.string awkwardText true)) := congrArg Prod.fst (hparse .initial)
  have hgives : Call.GivesTerm .initial (.term (Literal.renderString awkwardText))
      (.literal (.string awkwardText true)) := .inl (by rw [Call.term?, hterm]; rfl)
  have htoken := (hlex (.initial "main" (Literal.renderString awkwardText ++ "\"")) ['"']
    String.toList_append).1
  obtain ⟨i, hi⟩ := hpool []
  exact ⟨htoken, hterm, ⟨_, hgives, hshares _ _ _ _ hgives .refl rfl⟩, i, (hi [.term "f x"] i).2 rfl⟩

end Clausal
