import Clausal.Source.Tree
import Mathlib.Data.List.DropRight

/-!
# Components of paths

A path is absolute or not and has components, among which empty ones and `.` do not count. Joining appends the
components, and the parent of a path loses the last one.
-/
namespace Clausal.Path

/-- The components that count. -/
def counting (components : List (List Char)) : List (List Char) :=
  components.filter fun c => !(c.isEmpty || c == ['.'])

theorem counting_append (components others : List (List Char)) :
    counting (components ++ others) = counting components ++ counting others :=
  List.filter_append _ _

theorem counting_concat (components : List (List Char)) (c : List Char) :
    counting (components ++ [c]) =
      if c.isEmpty || c == ['.'] then counting components else counting components ++ [c] := by
  rw [counting_append, counting, counting, List.filter_cons, List.filter_nil]
  cases c.isEmpty || c == ['.'] <;> simp

/-- Paths that differ in components that do not count at most. -/
def Alike (path other : String) : Prop :=
  isAbsolute path = isAbsolute other ∧ FileTree.components path = FileTree.components other

instance (path other : String) : Decidable (Alike path other) :=
  inferInstanceAs (Decidable (_ ∧ _))

example : Alike "./src//main.lp" "src/./main.lp" := by decide

theorem splitSlashes_slash (cs : List Char) : splitSlashes ('/' :: cs) = [] :: splitSlashes cs := rfl

theorem splitSlashes_cons {c : Char} (hc : c ≠ '/') (cs : List Char) :
    ∃ first others, splitSlashes cs = first :: others ∧
      splitSlashes (c :: cs) = (c :: first) :: others := by
  induction cs generalizing c with
  | nil => exact ⟨[], [], rfl, by simp [splitSlashes, hc]⟩
  | cons d ds ih =>
    by_cases hd : d = '/'
    · subst hd
      exact ⟨[], splitSlashes ds, rfl, by simp [splitSlashes, hc]⟩
    · obtain ⟨first, others, -, h⟩ := ih hd
      exact ⟨d :: first, others, h, by rw [splitSlashes, if_neg hc, h]⟩

theorem splitSlashes_append (cs ds : List Char) :
    splitSlashes (cs ++ '/' :: ds) = splitSlashes cs ++ splitSlashes ds := by
  induction cs with
  | nil => rfl
  | cons c cs ih =>
    by_cases hc : c = '/'
    · subst hc
      simp only [List.cons_append, splitSlashes_slash, ih]
    · obtain ⟨first, others, h, hcs⟩ := splitSlashes_cons hc cs
      obtain ⟨first', others', h', hds⟩ := splitSlashes_cons hc (cs ++ '/' :: ds)
      rw [ih, h] at h'
      obtain ⟨rfl, rfl⟩ := List.cons.inj h'
      rw [List.cons_append, hds, hcs]
      rfl

theorem not_mem_of_mem_splitSlashes {cs component : List Char} (h : component ∈ splitSlashes cs) :
    '/' ∉ component := by
  induction cs generalizing component with
  | nil => simp_all [splitSlashes]
  | cons c cs ih =>
    by_cases hc : c = '/'
    · subst hc
      rcases List.mem_cons.1 h with rfl | h
      · simp
      · exact ih h
    · obtain ⟨first, others, hcs, h'⟩ := splitSlashes_cons hc cs
      rw [h'] at h
      rw [hcs] at ih
      rcases List.mem_cons.1 h with rfl | h
      · simpa [Ne.symm hc] using ih List.mem_cons_self
      · exact ih (List.mem_cons_of_mem _ h)

theorem splitSlashes_of_not_mem {cs : List Char} (h : '/' ∉ cs) : splitSlashes cs = [cs] := by
  induction cs with
  | nil => rfl
  | cons c cs ih =>
    rw [List.mem_cons, not_or] at h
    rw [splitSlashes, if_neg (Ne.symm h.1), ih h.2]

theorem joinSlashes_cons (component other : List Char) (components : List (List Char)) :
    joinSlashes (component :: other :: components) =
      component ++ '/' :: joinSlashes (other :: components) := by
  simp [joinSlashes, List.intercalate]

theorem counting_split_joinSlashes {components : List (List Char)} (h : ∀ c ∈ components, '/' ∉ c) :
    counting (splitSlashes (joinSlashes components)) = counting components := by
  induction components with
  | nil => rfl
  | cons component components ih =>
    have hc := splitSlashes_of_not_mem (h component List.mem_cons_self)
    cases components with
    | nil => simp [joinSlashes, List.intercalate, hc]
    | cons other components =>
      rw [joinSlashes_cons, splitSlashes_append, hc, counting_append,
        ih fun c hm => h c (List.mem_cons_of_mem _ hm), ← counting_append, List.singleton_append]

theorem isAbsolute_append {path : String} (hp : path ≠ "") (rest : String) :
    isAbsolute (path ++ rest) = isAbsolute path := by
  have h : path.toList ≠ [] := fun h => hp (String.toList_inj.1 h)
  obtain ⟨c, cs, h⟩ := List.exists_cons_of_ne_nil h
  simp [isAbsolute, h]

theorem components_append_slash (path rest : String) :
    FileTree.components (path ++ "/" ++ rest) =
      FileTree.components path ++ FileTree.components rest := by
  simp [FileTree.components, splitSlashes_append]

theorem join_of_absolute {base path : String} (h : isAbsolute path = true) : join base path = path := by
  simp [join, h]

theorem isAbsolute_join {base path : String} (h : isAbsolute path = false) :
    isAbsolute (join base path) = isAbsolute base := by
  simp only [join, h, Bool.false_eq_true, if_false]
  by_cases hb : base = ""
  · subst hb
    simpa [isAbsolute] using h
  · split_ifs
    · exact isAbsolute_append hb path
    · rw [String.append_assoc]
      exact isAbsolute_append hb _

theorem components_join {base path : String} (h : isAbsolute path = false) :
    FileTree.components (join base path) =
      FileTree.components base ++ FileTree.components path := by
  simp only [join, h, Bool.false_eq_true, if_false]
  split_ifs with hb
  · rcases (Bool.or_eq_true _ _).mp hb with hb | hb
    · obtain rfl : base = "" := by simpa using hb
      simp [FileTree.components, splitSlashes]
    · obtain ⟨cs, hcs⟩ := List.getLast?_eq_some_iff.1 (of_decide_eq_true hb)
      have hb' : base = String.ofList cs ++ "/" ++ "" := String.toList_inj.1 (by simp [hcs])
      rw [hb', components_append_slash, String.append_empty, components_append_slash]
      simp [FileTree.components, splitSlashes]
  · exact components_append_slash base path

/-- How a path is taken apart. -/
inductive Parts (path : String) : Prop
  | absolute (rest : List Char) (h : isAbsolute path = true)
      (hp : parts path = (['/'], splitSlashes rest))
  | here (rest : List Char) (h : isAbsolute path = false)
      (hp : parts path = (['.'], splitSlashes rest)) (hrest : rest = [] ∨ rest.head? = some '/')
  | plain (rest : List Char) (h : isAbsolute path = false)
      (hp : parts path = ([], splitSlashes rest)) (hrest : rest.head? ≠ some '/')

theorem parts_cases (path : String) : Parts path := by
  rcases hp : parts path with ⟨front, components⟩
  unfold parts at hp
  split at hp
  case h_1 rest h =>
    exact .absolute rest (by simp [isAbsolute, h]) (by simp only [parts, h])
  case h_2 h =>
    exact .here [] (by simp [isAbsolute, h]) (by simp only [parts, h]) (.inl rfl)
  case h_3 rest h =>
    exact .here ('/' :: rest) (by simp [isAbsolute, h]) (by simp only [parts, h]) (.inr rfl)
  case h_4 h _ _ =>
    have hhead : path.toList.head? ≠ some '/' := by
      intro hhead
      obtain ⟨rest, hrest⟩ := List.head?_eq_some_iff.1 hhead
      exact h rest hrest
    exact .plain path.toList (by simpa [isAbsolute] using hhead) (by rw [parts]; split <;> simp_all) hhead

theorem trim_concat (components : List (List Char)) (c : List Char) :
    trim (components ++ [c]) =
      if c.isEmpty || c == ['.'] then trim components else components ++ [c] :=
  List.rdropWhile_concat _ _ _

theorem trim_initial (components : List (List Char)) : trim components <+: components :=
  List.rdropWhile_prefix _ _

theorem counting_trim (components : List (List Char)) :
    counting (trim components) = counting components := by
  induction components using List.reverseRecOn with
  | nil => rfl
  | append_singleton components c ih =>
    rw [trim_concat, counting_concat]
    split_ifs with hc
    · exact ih
    · rw [counting_concat, if_neg hc]

theorem counting_dropLast_trim (components : List (List Char)) :
    counting (trim components).dropLast = (counting components).dropLast := by
  induction components using List.reverseRecOn with
  | nil => rfl
  | append_singleton components c ih =>
    rw [trim_concat, counting_concat]
    split_ifs
    · exact ih
    · simp only [List.dropLast_concat]

theorem trim_eq_nil_iff {components : List (List Char)} :
    trim components = [] ↔ counting components = [] := by
  simp [trim, counting, List.filter_eq_nil_iff, or_iff_not_imp_left]

theorem components_eq_counting (path : String) :
    FileTree.components path = counting (parts path).2 := by
  unfold parts
  split
  all_goals
    next h => simp [FileTree.components, counting, h, splitSlashes]

theorem splitSlashes_here {rest : List Char} (h : rest = [] ∨ rest.head? = some '/') :
    ∃ others, splitSlashes rest = [] :: others := by
  rcases h with rfl | h
  · exact ⟨[], rfl⟩
  · obtain ⟨cs, rfl⟩ := List.head?_eq_some_iff.1 h
    exact ⟨splitSlashes cs, rfl⟩

theorem splitSlashes_plain {rest : List Char} (h : rest.head? ≠ some '/')
    (hr : trim (splitSlashes rest) ≠ []) :
    ∃ c cs others, c ≠ '/' ∧ splitSlashes rest = (c :: cs) :: others := by
  cases rest with
  | nil => exact absurd rfl hr
  | cons c cs =>
    have hc : c ≠ '/' := by simpa using h
    obtain ⟨first, others, -, hcs⟩ := splitSlashes_cons hc cs
    exact ⟨c, first, others, hc, hcs⟩

section Front

variable {path : String} {components : List (List Char)}

/-- The first components of a path, with what stands in front of them, lie where the path does. -/
theorem isAbsolute_front (h : components <+: (parts path).2) (hp : trim (parts path).2 ≠ []) :
    isAbsolute (String.ofList ((parts path).1 ++ joinSlashes components)) = isAbsolute path := by
  cases parts_cases path with
  | absolute rest habs hparts =>
    rw [hparts, habs]
    simp [isAbsolute]
  | here rest habs hparts hrest =>
    rw [hparts, habs]
    simp [isAbsolute]
  | plain rest habs hparts hrest =>
    rw [hparts] at h hp ⊢
    rw [habs]
    obtain ⟨c, cs, others, hc, hothers⟩ := splitSlashes_plain hrest hp
    cases components with
    | nil => rfl
    | cons first components =>
      obtain ⟨rfl, -⟩ := List.cons_prefix_cons.1 (hothers ▸ h)
      cases components <;> simp [isAbsolute, joinSlashes, List.intercalate, hc]

theorem counting_split_front (h : components <+: (parts path).2) :
    counting (splitSlashes ((parts path).1 ++ joinSlashes components)) = counting components := by
  have hslash {rest : List Char} (hr : components <+: splitSlashes rest) :
      ∀ c ∈ components, '/' ∉ c := fun c hc => not_mem_of_mem_splitSlashes (hr.mem hc)
  cases parts_cases path with
  | absolute rest habs hparts =>
    rw [hparts] at h ⊢
    rw [List.singleton_append, splitSlashes_slash]
    exact counting_split_joinSlashes (hslash h)
  | here rest habs hparts hrest =>
    rw [hparts] at h ⊢
    obtain ⟨others, hothers⟩ := splitSlashes_here hrest
    -- The empty component behind the point, if it is kept, leaves the slash.
    match components, h, hslash h with
    | [], _, _ => rfl
    | [first], h, _ =>
      obtain ⟨rfl, -⟩ := List.cons_prefix_cons.1 (hothers ▸ h)
      rfl
    | first :: second :: components, h, hc =>
      obtain ⟨rfl, -⟩ := List.cons_prefix_cons.1 (hothers ▸ h)
      rw [joinSlashes_cons, List.nil_append, splitSlashes_append, counting_append,
        counting_split_joinSlashes fun c hm => hc c (List.mem_cons_of_mem _ hm)]
      rfl
  | plain rest habs hparts hrest =>
    rw [hparts] at h ⊢
    exact counting_split_joinSlashes (hslash h)

end Front

/-- The parent of a path lies where the path does, and has its components but for the last one. -/
theorem parent?_eq_some {path directory : String} (h : parent? path = some directory) :
    isAbsolute directory = isAbsolute path ∧
      FileTree.components directory = (FileTree.components path).dropLast := by
  simp only [parent?, List.isEmpty_iff] at h
  split_ifs at h with hp hfront
  · obtain rfl := Option.some.inj h
    rw [components_eq_counting path, trim_eq_nil_iff.1 hp]
    refine ⟨?_, rfl⟩
    cases parts_cases path with
    | absolute _ _ hparts =>
      rw [hparts] at hfront
      exact absurd hfront (by simp)
    | here _ habs => exact habs.symm
    | plain _ habs => exact habs.symm
  · obtain rfl := Option.some.inj h
    have hinitial : trim (trim (parts path).2).dropLast <+: (parts path).2 :=
      (trim_initial _).trans ((List.dropLast_prefix _).trans (trim_initial _))
    refine ⟨isAbsolute_front hinitial hp, ?_⟩
    have hc := counting_split_front hinitial
    rw [counting_trim, counting_dropLast_trim, ← components_eq_counting] at hc
    rw [← hc, FileTree.components, String.toList_ofList]
    rfl

theorem parent?_isSome {path : String} (h : FileTree.components path ≠ []) :
    (parent? path).isSome = true := by
  rw [components_eq_counting, Ne, ← trim_eq_nil_iff] at h
  simp [parent?, h]

end Clausal.Path
