import Clausal.Proofs.TextSlices
import Clausal.Term.Quotation
import Mathlib.Data.List.TakeWhile

/-!
# Slices of a quotation

A quotation is taken apart at byte offsets. Its braces take a byte each, and so does what ends the kind, so
every cut is within bounds and between characters, and no size is taken from a smaller one.
-/
namespace Clausal

/-- The difference of two sizes, if the first is not smaller. -/
def difference? (m n : Nat) : Option Nat := if n ≤ m then some (m - n) else none

theorem difference?_of_le {m n : Nat} (h : n ≤ m) : difference? m n = some (m - n) := if_pos h

theorem utf8Length_eq (text : List Char) : utf8Length text = String.utf8Len text := by
  induction text with
  | nil => rfl
  | cons c rest ih => rw [String.utf8Len_cons, ← ih, Nat.add_comm, utf8Length, utf8Length, List.foldr_cons]

/-- A text of copies of a character of one byte has as many bytes as characters. -/
theorem utf8Len_of_forall {c : Char} (hc : c.utf8Size = 1) {text : List Char} (h : ∀ d ∈ text, d = c) :
    String.utf8Len text = text.length := by
  induction text with
  | nil => rfl
  | cons d rest ih =>
    rw [List.forall_mem_cons] at h
    rw [String.utf8Len_cons, ih h.2, h.1, hc, List.length_cons]

namespace Quotation

/-- Whether a character is part of the kind. -/
def inKind (c : Char) : Bool := c != ' ' && c != '\n'

/-- The number of bytes in front of what ends the kind. -/
def kindEnd? (tagged : List Char) : Option Nat :=
  match tagged.dropWhile inKind with
  | [] => none
  | _ :: _ => some (String.utf8Len (tagged.takeWhile inKind))

/-- The quotation with the given raw text, taken apart by slices. -/
def cut? (span : Span) (raw : String) : Option (Except TermFault Quotation) :=
  let width := (raw.toList.takeWhile (· == openBrace)).length
  let closing := (raw.toList.reverse.takeWhile (· == closeBrace)).length
  if width < 2 ∨ closing < width ∨ raw.utf8ByteSize < 2 * width then
    some (.error .quotationDelimiters)
  else do
    let stop ← difference? raw.utf8ByteSize width
    let inner ← slice? raw width stop
    match after? "kind:".toList (inner.toList.dropWhile Text.isBlank) with
    | none => some (.ok ⟨inner, span.strip width width, none⟩)
    | some tagged =>
      match kindEnd? tagged with
      | none => some (.error .quotationKindUnterminated)
      | some ended =>
        if ended = 0 then some (.error .quotationKindEmpty)
        else do
          let tagged := String.ofList tagged
          let kind ← slice? tagged 0 ended
          let body ← slice? tagged (ended + 1) tagged.utf8ByteSize
          let data := String.ofList (trimEnd body.toList)
          let front ← difference? stop body.utf8ByteSize
          let back ← difference? body.utf8ByteSize data.utf8ByteSize
          some (.ok ⟨data, span.strip front (width + back), some kind⟩)

theorem after?_eq_some {word text rest : List Char} (h : after? word text = some rest) :
    text = word ++ rest := by
  induction word generalizing text with
  | nil => exact Option.some.inj h
  | cons w word ih =>
    cases text with
    | nil => cases h
    | cons c text =>
      rw [after?] at h
      split_ifs at h with hw
      rw [hw, ih h, List.cons_append]

theorem trimEnd_isPrefix (text : List Char) : trimEnd text <+: text := by
  have h := (List.dropWhile_suffix Text.isBlank (l := text.reverse)).reverse
  rwa [List.reverse_reverse] at h

/-- A run of copies of a character has nothing else in it. -/
theorem eq_of_mem_run {a c : Char} {text : List Char} (h : c ∈ text.takeWhile (· == a)) : c = a := by
  simpa using List.mem_takeWhile_imp h

/-- Opening braces at the front and closing braces at the end do not overlap. -/
theorem braces_le (raw : List Char) :
    (raw.takeWhile (· == openBrace)).length + (raw.reverse.takeWhile (· == closeBrace)).length ≤
      raw.length := by
  have hraw := List.takeWhile_append_dropWhile (p := (· == openBrace)) (l := raw)
  have hopen : ∀ c ∈ raw.takeWhile (· == openBrace), c = openBrace := fun _ => eq_of_mem_run
  generalize raw.takeWhile (· == openBrace) = opens at hraw hopen ⊢
  generalize raw.dropWhile (· == openBrace) = rest at hraw
  have hnone : opens.reverse.takeWhile (· == closeBrace) = [] := by
    refine List.takeWhile_eq_nil_iff.2 fun hpos => ?_
    rw [hopen _ (List.mem_reverse.1 (List.get_mem _ _))]
    decide
  have hclosing : (rest.reverse ++ opens.reverse).takeWhile (· == closeBrace) <+: rest.reverse := by
    rw [List.takeWhile_append, hnone, List.append_nil]
    split_ifs
    · exact List.prefix_refl _
    · exact List.takeWhile_prefix _
  have hle := hclosing.length_le
  rw [← hraw, List.reverse_append, List.length_append]
  rw [List.length_reverse] at hle
  omega

/-- What stands between as many braces at the front and at the end. -/
def between (width : Nat) (raw : List Char) : List Char :=
  (raw.drop width).take (raw.length - 2 * width)

/-- The braces around a quotation take a byte each. -/
theorem exists_braces {raw : List Char} {width : Nat}
    (hw : width = (raw.takeWhile (· == openBrace)).length)
    (hc : width ≤ (raw.reverse.takeWhile (· == closeBrace)).length) :
    ∃ opens closes, raw = opens ++ between width raw ++ closes ∧ (∀ c ∈ opens, c = openBrace) ∧
      String.utf8Len opens = width ∧ String.utf8Len closes = width ∧ 2 * width ≤ raw.length := by
  have hle := braces_le raw
  have hlen : 2 * width ≤ raw.length := by omega
  have hopens : ∀ c ∈ raw.take width, c = openBrace := by
    rw [hw, ← List.prefix_iff_eq_take.1 (List.takeWhile_prefix _)]
    exact fun _ => eq_of_mem_run
  have hcloses : ∀ c ∈ raw.drop (raw.length - width), c = closeBrace := by
    intro c hmem
    rw [← List.mem_reverse, List.reverse_drop] at hmem
    have hrun := List.prefix_iff_eq_take.1 (List.takeWhile_prefix (· == closeBrace) (l := raw.reverse))
    have hmem' : c ∈ raw.reverse.takeWhile (· == closeBrace) := by
      rw [hrun]
      exact (List.take_sublist_take_left (by omega)).subset hmem
    exact eq_of_mem_run hmem'
  refine ⟨raw.take width, raw.drop (raw.length - width), ?_, hopens, ?_, ?_, hlen⟩
  · have hrest : raw.drop (raw.length - width) = (raw.drop width).drop (raw.length - 2 * width) := by
      rw [List.drop_drop]
      congr 1
      omega
    rw [hrest, between, List.append_assoc, List.take_append_drop, List.take_append_drop]
  · rw [utf8Len_of_forall rfl hopens, List.length_take]
    omega
  · rw [utf8Len_of_forall rfl hcloses, List.length_drop]
    omega

/-- What ends a kind takes a byte, and the kind and the rest are cut out around it. -/
theorem slices_of_kind {tagged body : List Char} {c : Char} (h : tagged.dropWhile inKind = c :: body) :
    slice? (String.ofList tagged) 0 (String.utf8Len (tagged.takeWhile inKind)) =
        some (String.ofList (tagged.takeWhile inKind)) ∧
      slice? (String.ofList tagged) (String.utf8Len (tagged.takeWhile inKind) + 1)
        (String.ofList tagged).utf8ByteSize = some (String.ofList body) := by
  have htagged := List.takeWhile_append_dropWhile (p := inKind) (l := tagged)
  have hsize : c.utf8Size = 1 := by
    have hc := List.head?_dropWhile_not inKind tagged
    rw [h] at hc
    simp only [List.head?_cons, inKind, Bool.and_eq_false_iff, bne_eq_false_iff_eq] at hc
    rcases hc with rfl | rfl <;> rfl
  rw [h] at htagged
  generalize tagged.takeWhile inKind = kind at htagged ⊢
  constructor
  · have hkind : (String.ofList tagged).toList = [] ++ kind ++ c :: body := by
      rw [String.toList_ofList, List.nil_append, htagged]
    exact slice?_of_append hkind rfl (Nat.zero_add _).symm
  · have hbody : (String.ofList tagged).toList = kind ++ [c] ++ body ++ [] := by
      simp [← htagged]
    refine slice?_of_append hbody (by simp [hsize]) ?_
    rw [String.utf8ByteSize_ofList, ← htagged]
    simp only [String.utf8Len_append, String.utf8Len_cons, String.utf8Len_nil]
    omega

/-- Slices take a quotation apart just as its characters say. -/
theorem cut?_eq (span : Span) (raw : String) : cut? span raw = some (ofRaw span raw.toList) := by
  unfold cut? ofRaw
  dsimp only
  by_cases hdelimiters : (raw.toList.takeWhile (· == openBrace)).length < 2 ∨
      (raw.toList.reverse.takeWhile (· == closeBrace)).length <
        (raw.toList.takeWhile (· == openBrace)).length
  · rw [if_pos (hdelimiters.elim .inl fun h => .inr (.inl h)),
      if_pos (hdelimiters.elim .inl fun h => .inr (.inl h))]
  obtain ⟨hwidth, hclosing⟩ := not_or.1 hdelimiters
  obtain ⟨opens, closes, hraw, -, hopens, hcloses, hlen⟩ := exists_braces rfl (Nat.le_of_not_lt hclosing)
  generalize (raw.toList.takeWhile (· == openBrace)).length = width at *
  have hsize : raw.utf8ByteSize = width + String.utf8Len (between width raw.toList) + width := by
    rw [← String.utf8Len_toList]
    conv_lhs => rw [hraw]
    rw [String.utf8Len_append, String.utf8Len_append, hopens, hcloses]
  have hstop : raw.utf8ByteSize - width =
      String.utf8Len opens + String.utf8Len (between width raw.toList) := by omega
  have hinner := slice?_of_append hraw hopens.symm hstop
  have hbetween : (raw.toList.drop width).take (raw.toList.length - 2 * width) =
      between width raw.toList := rfl
  have hinKind : (fun c : Char => c != ' ' && c != '\n') = inKind := rfl
  rw [if_neg (by omega), if_neg (by omega), difference?_of_le (by omega)]
  simp only [Option.bind_eq_bind, Option.bind_some, hinner, String.toList_ofList, hbetween, hinKind]
  generalize between width raw.toList = inner at hsize ⊢
  cases htagged : after? "kind:".toList (inner.dropWhile Text.isBlank) with
  | none => rfl
  | some tagged =>
    have htaggedLe : String.utf8Len tagged ≤ String.utf8Len inner := by
      refine String.utf8Len_le_of_sublist (List.Sublist.trans ?_ (List.dropWhile_sublist Text.isBlank))
      rw [after?_eq_some htagged]
      exact List.sublist_append_right _ _
    dsimp only [kindEnd?]
    cases hbody : tagged.dropWhile inKind with
    | nil => rfl
    | cons c body =>
      obtain ⟨hkind, hrest⟩ := slices_of_kind hbody
      have hbodyLe : String.utf8Len body ≤ String.utf8Len tagged := by
        refine String.utf8Len_le_of_sublist ((List.sublist_cons_self c body).trans ?_)
        rw [← hbody]
        exact List.dropWhile_sublist inKind
      have hdataLe := String.utf8Len_le_of_prefix (trimEnd_isPrefix body)
      dsimp only
      rw [hkind, hrest]
      simp only [Option.bind_some, String.toList_ofList, String.utf8ByteSize_ofList, utf8Length_eq,
        String.utf8Len_toList]
      rw [difference?_of_le (by omega), difference?_of_le hdataLe]
      simp only [Option.bind_some, List.isEmpty_iff, String.utf8Len_eq_zero]
      split_ifs <;> rfl

end Quotation

end Clausal
