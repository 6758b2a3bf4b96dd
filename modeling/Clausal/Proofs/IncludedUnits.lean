import Clausal.Proofs.BlockScopes
import Mathlib.Data.List.Forall2

/-!
# Units in a flat program

The entries of a program are the units in it, in reading order: a unit stands before those
that it includes itself. A program can be written out with all entries in their places. If the later entries
of each digest are empty, that is what nesting does, though it leaves such entries out.
-/
namespace Clausal

mutual

/-- The units that a declaration includes. -/
def Decl.entries : Decl → List (Digest × List Decl)
  | .accumulated _ units => unitEntries units
  | _ => []

def unitEntries : List (Digest × List Decl) → List (Digest × List Decl)
  | [] => []
  | (digest, decls) :: rest => (digest, decls) :: (entriesOf decls ++ unitEntries rest)

def entriesOf : List Decl → List (Digest × List Decl)
  | [] => []
  | d :: rest => d.entries ++ entriesOf rest

end

mutual

/-- A declaration with the units in it written out, whether or not they have been included before. -/
def Decl.spliced : Decl → List Decl
  | .accumulated _ units => splicedUnits units
  | d => [d]

def splicedUnits : List (Digest × List Decl) → List Decl
  | [] => []
  | (_, decls) :: rest => splicedAll decls ++ splicedUnits rest

def splicedAll : List Decl → List Decl
  | [] => []
  | d :: rest => d.spliced ++ splicedAll rest

end

/-- The clauses that stand in a list of declarations, not in units. -/
def clausesOf (decls : List Decl) : List (Clause (List Attribute)) :=
  decls.filterMap fun
    | .clause c => some c
    | _ => none

theorem entriesOf_append (ds es : List Decl) : entriesOf (ds ++ es) = entriesOf ds ++ entriesOf es := by
  induction ds with
  | nil => rfl
  | cons d ds ih => simp [entriesOf, ih]

theorem unitEntries_append (us us' : List (Digest × List Decl)) :
    unitEntries (us ++ us') = unitEntries us ++ unitEntries us' := by
  induction us with
  | nil => rfl
  | cons u us ih => simp [unitEntries, ih]

theorem clausesOf_append (ds es : List Decl) : clausesOf (ds ++ es) = clausesOf ds ++ clausesOf es :=
  List.filterMap_append

/-- Each entry is as it has to be when the digests of the entries before it have been seen. -/
def InOrder (Q : List Digest → Digest → List Decl → Prop) :
    (seen : List Digest) → List (Digest × List Decl) → Prop
  | _, [] => True
  | seen, (digest, decls) :: rest => Q seen digest decls ∧ InOrder Q (digest :: seen) rest

namespace InOrder

variable {Q Q' : List Digest → Digest → List Decl → Prop} {seen seen' : List Digest}
variable {es fs : List (Digest × List Decl)}

theorem mono (hQ : ∀ seen digest decls, Q seen digest decls → Q' seen digest decls)
    (h : InOrder Q seen es) : InOrder Q' seen es := by
  induction es generalizing seen with
  | nil => trivial
  | cons e es ih => exact ⟨hQ _ _ _ h.1, ih h.2⟩

/-- Only which digests have been seen matters. -/
def Respects (Q : List Digest → Digest → List Decl → Prop) : Prop :=
  ∀ {seen seen' digest decls}, (∀ d, d ∈ seen ↔ d ∈ seen') → Q seen digest decls → Q seen' digest decls

theorem congr (hQ : Respects Q) (hs : ∀ d, d ∈ seen ↔ d ∈ seen') (h : InOrder Q seen es) :
    InOrder Q seen' es := by
  induction es generalizing seen seen' with
  | nil => trivial
  | cons e es ih => exact ⟨hQ hs h.1, ih (fun d => by simp [hs]) h.2⟩

theorem append_iff : InOrder Q seen (es ++ fs) ↔
    InOrder Q seen es ∧ InOrder Q ((es.map (·.1)).reverse ++ seen) fs := by
  induction es generalizing seen with
  | nil => simp [InOrder]
  | cons e es ih => simp [InOrder, ih, and_assoc]

theorem append (hQ : Respects Q) (hs : ∀ d, d ∈ seen' ↔ d ∈ seen ∨ d ∈ es.map (·.1))
    (h : InOrder Q seen es) (g : InOrder Q seen' fs) : InOrder Q seen (es ++ fs) := by
  refine append_iff.2 ⟨h, g.congr hQ fun d => ?_⟩
  rw [hs, List.mem_append, List.mem_reverse, or_comm]

end InOrder

/-- Entries of a digest that has been seen are empty. -/
def EmptyAgain (seen : List Digest) (digest : Digest) (decls : List Decl) : Prop :=
  digest ∈ seen → decls = []

theorem respects_emptyAgain : InOrder.Respects EmptyAgain :=
  fun hs h hd => h ((hs _).2 hd)

/-- An expansion that leaves nothing out, with the digests seen by then. -/
structure ExpandsTo (seen : List Digest) (entries : List (Digest × List Decl)) (spliced : List Decl)
    (out : List Decl × List Digest) : Prop where
  decls : out.1 = spliced
  seen : ∀ d, d ∈ out.2 ↔ d ∈ seen ∨ d ∈ entries.map (·.1)

theorem ExpandsTo.append {seen : List Digest} {es fs : List (Digest × List Decl)} {ds ds' : List Decl}
    {out out' : List Decl × List Digest} (h : ExpandsTo seen es ds out) (g : ExpandsTo out.2 fs ds' out') :
    ExpandsTo seen (es ++ fs) (ds ++ ds') (out.1 ++ out'.1, out'.2) where
  decls := congrArg₂ (· ++ ·) h.decls g.decls
  seen d := by simp only [g.seen, h.seen, List.map_append, List.mem_append, or_assoc]

theorem ExpandsTo.inOrder {seen : List Digest} {es fs : List (Digest × List Decl)} {ds : List Decl}
    {out : List Decl × List Digest} (h : ExpandsTo seen es ds out)
    (ho : InOrder EmptyAgain seen (es ++ fs)) : InOrder EmptyAgain out.2 fs := by
  refine (InOrder.append_iff.1 ho).2.congr respects_emptyAgain fun d => ?_
  rw [h.seen, List.mem_append, List.mem_reverse, or_comm]

mutual

theorem expandDecl_spliced (seen : List Digest) (d : Decl) (h : InOrder EmptyAgain seen d.entries) :
    ExpandsTo seen d.entries d.spliced (expandDecl seen d) := by
  cases d with
  | accumulated span units => exact expandUnits_spliced seen units h
  | _ => exact ⟨rfl, by simp [expandDecl, Decl.entries]⟩

theorem expandUnits_spliced (seen : List Digest) (units : List (Digest × List Decl))
    (h : InOrder EmptyAgain seen (unitEntries units)) :
    ExpandsTo seen (unitEntries units) (splicedUnits units) (expandUnits seen units) := by
  match units with
  | [] => exact ⟨rfl, by simp [expandUnits, unitEntries]⟩
  | (digest, decls) :: rest =>
    obtain ⟨hd, hrest⟩ := h
    by_cases hmem : digest ∈ seen
    · obtain rfl := hd hmem
      have hs : ∀ d, d ∈ digest :: seen ↔ d ∈ seen := by simp [hmem]
      have hr := expandUnits_spliced seen rest (hrest.congr respects_emptyAgain hs)
      rw [expandUnits, if_pos hmem]
      refine ⟨hr.decls, fun d => ?_⟩
      rw [hr.seen, ← hs]
      simp [unitEntries, entriesOf, or_assoc, or_left_comm]
    · have hfront := expandAll_spliced (digest :: seen) decls (InOrder.append_iff.1 hrest).1
      have hback := expandUnits_spliced _ rest (hfront.inOrder hrest)
      have hboth := hfront.append hback
      rw [expandUnits, if_neg hmem]
      refine ⟨hboth.decls, fun d => ?_⟩
      rw [hboth.seen]
      simp [unitEntries, or_assoc, or_left_comm]

theorem expandAll_spliced (seen : List Digest) (decls : List Decl)
    (h : InOrder EmptyAgain seen (entriesOf decls)) :
    ExpandsTo seen (entriesOf decls) (splicedAll decls) (expandAll seen decls) := by
  match decls with
  | [] => exact ⟨rfl, by simp [expandAll, entriesOf]⟩
  | d :: rest =>
    have hfront := expandDecl_spliced seen d (InOrder.append_iff.1 h).1
    exact hfront.append (expandAll_spliced _ rest (hfront.inOrder h))

end

/-- Nesting leaves out only entries that are empty. -/
theorem expand_eq_spliced {program : List Decl} (h : InOrder EmptyAgain [] (entriesOf program)) :
    expand program = splicedAll program :=
  (expandAll_spliced [] program h).decls

mutual

/-- All clauses are those of the program itself and those of each entry, in another order. -/
theorem clausesOf_spliced (d : Decl) :
    (clausesOf d.spliced).Perm (clausesOf [d] ++ d.entries.flatMap fun e => clausesOf e.2) := by
  cases d with
  | accumulated span units => exact clausesOf_splicedUnits units
  | _ => simp [Decl.spliced, Decl.entries]

theorem clausesOf_splicedUnits (units : List (Digest × List Decl)) :
    (clausesOf (splicedUnits units)).Perm ((unitEntries units).flatMap fun e => clausesOf e.2) := by
  match units with
  | [] => exact .refl _
  | (digest, decls) :: rest =>
    have hfront := clausesOf_splicedAll decls
    have hback := clausesOf_splicedUnits rest
    rw [splicedUnits, clausesOf_append, unitEntries, List.flatMap_cons, List.flatMap_append,
      ← List.append_assoc]
    exact hfront.append hback

theorem clausesOf_splicedAll (decls : List Decl) : (clausesOf (splicedAll decls)).Perm
    (clausesOf decls ++ (entriesOf decls).flatMap fun e => clausesOf e.2) := by
  match decls with
  | [] => exact .refl _
  | d :: rest =>
    have hfront := clausesOf_spliced d
    have hback := clausesOf_splicedAll rest
    have hcons : clausesOf (d :: rest) = clausesOf [d] ++ clausesOf rest := clausesOf_append [d] rest
    rw [splicedAll, clausesOf_append, entriesOf, List.flatMap_append, hcons]
    refine (hfront.append hback).trans ?_
    simp only [List.append_assoc]
    exact List.Perm.append_left _ (List.perm_append_comm_assoc _ _ _)

end

mutual

/-- The clauses of a block and of the blocks in it, in order. -/
def Block.clauseList : Block → List (Clause ClauseOptions)
  | .clauses cs => cs
  | .locals _ ⟨_, _, _, _, body⟩ | .namespaced _ ⟨_, _, _, _, body⟩
  | .shortened _ ⟨_, _, _, _, body⟩ | .constraints _ _ ⟨_, _, _, _, body⟩ => Block.bodyClauses body

def Block.bodyClauses : List Block → List (Clause ClauseOptions)
  | [] => []
  | b :: rest => b.clauseList ++ bodyClauses rest

end

namespace Body

/-- The clauses of a body and of the blocks in it, in order. -/
def clauseList : Body → List (Clause ClauseOptions)
  | done => []
  | entry e rest => e.clauseList ++ rest.clauseList
  | block _ _ _ _ inner rest => inner.clauseList ++ rest.clauseList
  | shorten _ _ rest => rest.clauseList

end Body

end Clausal
