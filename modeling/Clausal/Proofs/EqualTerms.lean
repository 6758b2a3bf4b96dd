import Clausal.Term

/-!
# What equal terms feed to a hash

Equality of spans looks at the source and the extent, while their feed holds the line as well. So
equal terms have equal feeds just when the spans among their literals begin on the same lines; for
all other literals equality leaves the feed no choice, if it leaves none for the payloads of extensions.
-/
namespace Clausal

namespace Feed

@[simp] theorem length_little (width n : Nat) : (little width n).length = width := by
  simp [little]

theorem little_succ (width n : Nat) :
    little (width + 1) n = UInt8.ofNat n :: little width (n / 256) := by
  simp [little, List.range_succ_eq_map, Nat.div_div_eq_div_mul, Nat.pow_succ, Nat.mul_comm]

/-- The low bytes tell numbers apart up to the size of the word. -/
theorem little_eq_iff (width m n : Nat) :
    little width m = little width n ↔ m % Nat.pow 256 width = n % Nat.pow 256 width := by
  induction width generalizing m n with
  | zero => simp [little, Nat.mod_one]
  | succ width ih =>
    have hbyte : UInt8.ofNat m = UInt8.ofNat n ↔ m % 256 = n % 256 := by
      simp [← UInt8.toNat_inj]
    have hm := Nat.mod_mul (x := m) (a := 256) (b := 256 ^ width)
    have hn := Nat.mod_mul (x := n) (a := 256) (b := 256 ^ width)
    simp only [little_succ, List.cons.injEq, hbyte, ih, Nat.pow_eq, Nat.pow_succ', hm, hn]
    omega

/-- Feeds of equal length in front are compared piece by piece. -/
theorem append_eq_iff {as bs cs ds : List UInt8} (h : as.length = cs.length) :
    as ++ bs = cs ++ ds ↔ as = cs ∧ bs = ds := by
  constructor
  · intro e
    exact List.append_inj e h
  · rintro ⟨rfl, rfl⟩
    rfl

@[simp] theorem length_word (n : Nat) : (word n).length = 8 := length_little 8 n

theorem word_eq_iff (m n : Nat) : word m = word n ↔ UInt64.ofNat m = UInt64.ofNat n := by
  simp [word, little_eq_iff, ← UInt64.toNat_inj]

end Feed

namespace Span

/-- Whether two spans begin on the same line, lines and offsets being machine words. -/
def SameLine (a b : Span) : Prop :=
  UInt64.ofNat a.line = UInt64.ofNat b.line ∧
    UInt64.ofNat a.lineStart = UInt64.ofNat b.lineStart

end Span

namespace Literal

/-- Whether two literals, if they are spans, begin on the same line. -/
def SameLine : Literal → Literal → Prop
  | span a, span b => a.SameLine b
  | _, _ => True

theorem compareSpans_eq_iff (a b : Span) :
    compareSpans a b = .eq ↔ a.source = b.source ∧ a.start = b.start ∧ a.stop = b.stop := by
  simp [compareSpans, Ordering.then_eq_eq]

theorem eq_of_shares {a b : Literal} (h : a.shares b = true) : a = b := by
  unfold shares at h
  split at h <;> simp_all

section

variable [Extensions]

/-- Equal literals are one and the same, but for the pool that holds a string, the line on which a
span begins and what the order of an extension type does not look at. -/
theorem same_cases {a b : Literal} (h : a.same b = true) :
    a = b ∨ (∃ text p q, a = string text p ∧ b = string text q) ∨
      (∃ s t, a = span s ∧ b = span t ∧ compareSpans s t = .eq) ∨
        ∃ t p q, a = extension t p ∧ b = extension t q ∧ Extensions.compare t p q = .eq := by
  simp only [same, Bool.and_eq_true, Bool.or_eq_true, decide_eq_true_eq] at h
  obtain ⟨htype, ⟨-, hshared⟩ | hvalue⟩ := h
  · exact .inl (eq_of_shares hshared)
  -- A payload never compares equal to a missing one, so only payloads of one type are left.
  cases a <;> cases b <;> cases htype <;>
    simp [type, compareAs, int?, float?, string?, span?, payload?, comparePayload] at hvalue
  case inr.malformed.malformed.refl => exact .inl rfl
  case inr.int.int.refl => exact .inl (congrArg int (Int64.toInt_inj.1 hvalue))
  case inr.float.float.refl => exact .inl (congrArg float (Binary64.rank_injective hvalue))
  case inr.string.string.refl => exact .inr (.inl ⟨_, _, _, rfl, by rw [hvalue]⟩)
  case inr.span.span.refl => exact .inr (.inr (.inl ⟨_, _, rfl, rfl, hvalue⟩))
  case inr.extension.extension.refl => exact .inr (.inr (.inr ⟨_, _, _, rfl, rfl, hvalue⟩))

theorem length_feed_of_same {a b : Literal} (h : a.same b = true) :
    a.feed.length = b.feed.length := by
  obtain rfl | ⟨text, p, q, rfl, rfl⟩ | ⟨s, t, rfl, rfl, hst⟩ | ⟨t, p, q, rfl, rfl, hpq⟩ := same_cases h
  · rfl
  · rfl
  · obtain ⟨hsource, -, -⟩ := (compareSpans_eq_iff s t).1 hst
    simp [feed, feedPayload, type, Feed.span, hsource]
  · simp [feed, feedPayload, type, Extensions.feed_eq hpq]

/-- Equal literals have equal feeds just when they begin on the same line. -/
theorem feed_eq_iff_sameLine {a b : Literal} (h : a.same b = true) :
    a.feed = b.feed ↔ a.SameLine b := by
  obtain rfl | ⟨text, p, q, rfl, rfl⟩ | ⟨s, t, rfl, rfl, hst⟩ | ⟨t, p, q, rfl, rfl, hpq⟩ := same_cases h
  · cases a <;> simp [SameLine, Span.SameLine]
  · simp [SameLine, feed, feedPayload, type]
  · obtain ⟨hsource, hstart, hstop⟩ := (compareSpans_eq_iff s t).1 hst
    have hlines : Feed.word s.line ++ Feed.word s.lineStart =
        Feed.word t.line ++ Feed.word t.lineStart ↔ s.SameLine t := by
      rw [Feed.append_eq_iff (by simp), Feed.word_eq_iff, Feed.word_eq_iff]
      rfl
    simp [SameLine, feed, feedPayload, type, Feed.span, hsource, hstart, hstop, hlines]
  · simp [SameLine, feed, feedPayload, type, Extensions.feed_eq hpq]

end

end Literal

namespace Term

mutual

/-- Whether the spans that stand at the same places of two terms begin on the same lines. -/
def SameLines : Term → Term → Prop
  | app head args, app head' args' => SameLines head head' ∧ SameLinesList args args'
  | lam _ body, lam _ body' => SameLines body body'
  | literal a, literal b => a.SameLine b
  | _, _ => True

def SameLinesList : List Term → List Term → Prop
  | t :: ts, u :: us => SameLines t u ∧ SameLinesList ts us
  | _, _ => True

end

section

variable [Extensions]

mutual

theorem length_feed_of_same {a b : Term} (h : a.same b = true) :
    a.feed.length = b.feed.length := by
  match a, b, h with
  | const _, const _, _ => simp [feed]
  | app _ _, app _ _, h =>
    obtain ⟨hhead, hargs⟩ := Bool.and_eq_true_iff.1 h
    simp [feed, length_feed_of_same hhead, length_feedList_of_sameList hargs]
  | lam _ _, lam _ _, h => simp [feed, length_feed_of_same (Bool.and_eq_true_iff.1 h).2]
  | literal _, literal _, h => simp [feed, Literal.length_feed_of_same h]
  | quoted _, quoted _, h => rw [of_decide_eq_true h]

theorem length_feedList_of_sameList {as bs : List Term} (h : sameList as bs = true) :
    (feedList as).length = (feedList bs).length := by
  match as, bs, h with
  | [], [], _ => rfl
  | _ :: _, _ :: _, h =>
    obtain ⟨hfirst, hrest⟩ := Bool.and_eq_true_iff.1 h
    simp [feedList, length_feed_of_same hfirst, length_feedList_of_sameList hrest]

end

theorem length_eq_of_sameList {as bs : List Term} (h : sameList as bs = true) :
    as.length = bs.length := by
  match as, bs, h with
  | [], [], _ => rfl
  | _ :: _, _ :: _, h =>
    simp [length_eq_of_sameList (Bool.and_eq_true_iff.1 h).2]

mutual

/-- Equal terms have equal feeds just when their spans begin on the same lines. -/
theorem feed_eq_iff_sameLines {a b : Term} (h : a.same b = true) :
    a.feed = b.feed ↔ a.SameLines b := by
  match a, b, h with
  | const s, const t, h =>
    obtain rfl : s = t := of_decide_eq_true h
    simp [SameLines]
  | app head args, app head' args', h =>
    obtain ⟨hhead, hargs⟩ := Bool.and_eq_true_iff.1 h
    simp only [feed, SameLines, List.append_assoc, List.append_cancel_left_eq,
      length_eq_of_sameList hargs]
    rw [Feed.append_eq_iff (length_feed_of_same hhead), feed_eq_iff_sameLines hhead,
      List.append_cancel_left_eq, feedList_eq_iff_sameLinesList hargs]
  | lam x body, lam y body', h =>
    obtain ⟨hbinder, hbody⟩ := Bool.and_eq_true_iff.1 h
    obtain rfl : x = y := of_decide_eq_true hbinder
    simp [feed, SameLines, feed_eq_iff_sameLines hbody]
  | literal a, literal b, h => simp [feed, SameLines, Literal.feed_eq_iff_sameLine h]
  | quoted q, quoted r, h =>
    obtain rfl : q = r := of_decide_eq_true h
    simp [SameLines]

theorem feedList_eq_iff_sameLinesList {as bs : List Term} (h : sameList as bs = true) :
    feedList as = feedList bs ↔ SameLinesList as bs := by
  match as, bs, h with
  | [], [], _ => simp [SameLinesList]
  | _ :: _, _ :: _, h =>
    obtain ⟨hfirst, hrest⟩ := Bool.and_eq_true_iff.1 h
    simp only [feedList, SameLinesList]
    rw [Feed.append_eq_iff (length_feed_of_same hfirst), feed_eq_iff_sameLines hfirst,
      feedList_eq_iff_sameLinesList hrest]

end

end

/-- The first byte of a text, said to be on the given line. -/
def lined (line : Nat) : Term := literal (.span ⟨"t", 0, 1, line, 0⟩)

section

attribute [local instance] Extensions.byBytes

/-- Two spans that differ in their line only are equal, but a hash table keeps them apart. -/
theorem feed_ne_of_lines_differ :
    (lined 1).same (lined 2) = true ∧ (lined 1).feed ≠ (lined 2).feed := by
  have h : (lined 1).same (lined 2) = true := by decide
  refine ⟨h, fun hfeed => ?_⟩
  have hlines := (feed_eq_iff_sameLines h).1 hfeed
  simp [lined, SameLines, Literal.SameLine, Span.SameLine] at hlines

end

end Term

end Clausal
