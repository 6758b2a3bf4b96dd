import Clausal.Proofs.PathComponents

/-!
# Units next to the including file

The first place where a name is looked for is the directory of the including file, as seen from the working
directory. A file that has been found goes by its path, in which a relative working directory stands
already. So the working directory comes in once more with every file that is included by another.
-/
namespace Clausal.SearchPath

open FileTree (components)

variable {s : SearchPath}

/-- The files that are tried for some name, from anywhere. -/
def Reports (s : SearchPath) (file : String) : Prop :=
  ∃ origin name, file ∈ s.candidates origin name

/-- For a name in a file, the one next to that file is tried first. -/
def TriesBeside (s : SearchPath) (file name : String) : Prop :=
  ∀ directory, Path.parent? file = some directory →
    ∃ first, (s.candidates (some file) name).head? = some first ∧
      Path.Alike first (Path.join directory name)

theorem isAbsolute_of_mem_fileNames {file name : String} (h : file ∈ fileNames name) :
    Path.isAbsolute file = Path.isAbsolute name := by
  have hext : Path.isAbsolute (withExtension name) = Path.isAbsolute name := by
    by_cases hname : name = ""
    · subst hname
      rfl
    · rw [withExtension, String.append_assoc]
      exact Path.isAbsolute_append hname _
  unfold fileNames at h
  split_ifs at h <;> simp only [List.mem_cons, List.not_mem_nil, or_false] at h
  · rw [h]
  · rcases h with rfl | rfl
    · rfl
    · exact hext

theorem fileNames_eq_cons (name : String) : ∃ others, fileNames name = name :: others := by
  unfold fileNames
  split_ifs
  · exact ⟨_, rfl⟩
  · exact ⟨_, rfl⟩

theorem head?_candidates {origin : Option String} {name place : String} {places : List String}
    (hname : Path.isAbsolute name = false) (hplaces : s.places origin = place :: places) :
    (s.candidates origin name).head? = some (Path.join place name) := by
  obtain ⟨others, hothers⟩ := fileNames_eq_cons name
  simp [candidates, hname, hplaces, hothers]

theorem head?_candidates_none {name : String} (hname : Path.isAbsolute name = false) :
    (s.candidates none name).head? = some (Path.join s.workingDirectory name) :=
  head?_candidates hname rfl

theorem head?_candidates_some {file directory name : String} (hname : Path.isAbsolute name = false)
    (hdir : Path.parent? file = some directory) :
    (s.candidates (some file) name).head? =
      some (Path.join (Path.join s.workingDirectory directory) name) :=
  head?_candidates hname (by simp only [places, Option.bind_some, hdir]; rfl)

/-- A relative path below the working directory, or an absolute one. -/
def Anchored (s : SearchPath) (path : String) : Prop :=
  Path.isAbsolute path = true ∨
    (Path.isAbsolute path = false ∧ Path.isAbsolute s.workingDirectory = false ∧
      components s.workingDirectory <+: components path)

theorem Anchored.join {base path : String} (h : s.Anchored base) : s.Anchored (Path.join base path) := by
  cases hp : Path.isAbsolute path with
  | true => exact .inl (by rw [Path.join_of_absolute hp, hp])
  | false =>
    rw [Anchored, Path.isAbsolute_join hp, Path.components_join hp]
    exact h.imp id fun ⟨hb, hw, hc⟩ => ⟨hb, hw, hc.trans (List.prefix_append _ _)⟩

theorem anchored_workingDirectory (s : SearchPath) : s.Anchored s.workingDirectory := by
  cases h : Path.isAbsolute s.workingDirectory with
  | true => exact .inl h
  | false => exact .inr ⟨h, h, List.prefix_rfl⟩

theorem anchored_of_mem_places {origin : Option String} {place : String}
    (h : place ∈ s.places origin) : s.Anchored place := by
  simp only [places, List.mem_append, List.mem_cons, List.mem_map] at h
  rcases h with h | rfl | ⟨directory, -, rfl⟩
  · split at h
    · rw [List.mem_singleton.1 h]
      exact s.anchored_workingDirectory.join
    · cases h
  · exact s.anchored_workingDirectory
  · exact s.anchored_workingDirectory.join

theorem Reports.anchored {file : String} (h : s.Reports file) : s.Anchored file := by
  obtain ⟨origin, name, h⟩ := h
  unfold candidates at h
  split_ifs at h with hname
  · exact .inl ((isAbsolute_of_mem_fileNames h).trans hname)
  · obtain ⟨place, hplace, h⟩ := List.mem_flatMap.1 h
    obtain ⟨fileName, -, rfl⟩ := List.mem_map.1 h
    exact (anchored_of_mem_places hplace).join

/-- Next to an absolute file the name is looked for right there. -/
theorem head?_candidates_absolute {file directory name : String} (hname : Path.isAbsolute name = false)
    (hdir : Path.parent? file = some directory) (hfile : Path.isAbsolute file = true) :
    (s.candidates (some file) name).head? = some (Path.join directory name) := by
  have habs : Path.isAbsolute directory = true := (Path.parent?_eq_some hdir).1.trans hfile
  rw [head?_candidates_some hname hdir, Path.join_of_absolute habs]

/-- Next to a relative file the working directory comes in front. -/
theorem components_join_relative {file directory name : String} (hname : Path.isAbsolute name = false)
    (hdir : Path.parent? file = some directory) (hfile : Path.isAbsolute file = false) :
    components (Path.join (Path.join s.workingDirectory directory) name) =
      components s.workingDirectory ++ components (Path.join directory name) := by
  have hrel : Path.isAbsolute directory = false := (Path.parent?_eq_some hdir).1.trans hfile
  rw [Path.components_join hname, Path.components_join hrel, Path.components_join hname,
    List.append_assoc]

theorem triesBeside_of_absolute {file name : String} (hname : Path.isAbsolute name = false)
    (hfile : Path.isAbsolute file = true) : s.TriesBeside file name :=
  fun _ hdir => ⟨_, head?_candidates_absolute hname hdir hfile, rfl, rfl⟩

theorem triesBeside_iff_of_relative {file directory name : String} (hs : s.Reports file)
    (hname : Path.isAbsolute name = false) (hdir : Path.parent? file = some directory)
    (hfile : Path.isAbsolute file = false) :
    s.TriesBeside file name ↔ components s.workingDirectory = [] := by
  have hfirst := head?_candidates_some (s := s) hname hdir
  have hc := components_join_relative (s := s) hname hdir hfile
  constructor
  · intro h
    obtain ⟨first, hf, -, hcomponents⟩ := h directory hdir
    obtain rfl := Option.some.inj (hfirst.symm.trans hf)
    exact List.append_left_eq_self.1 (hc.symm.trans hcomponents)
  · intro hw directory' hdir'
    obtain rfl := Option.some.inj (hdir.symm.trans hdir')
    have hrel : Path.isAbsolute directory = false := (Path.parent?_eq_some hdir).1.trans hfile
    obtain hfile' | ⟨-, hcwd, -⟩ := hs.anchored
    · exact absurd hfile' (by simp [hfile])
    refine ⟨_, hfirst, ?_, by rw [hc, hw, List.nil_append]⟩
    rw [Path.isAbsolute_join hname, Path.isAbsolute_join hrel, Path.isAbsolute_join hname, hcwd, hrel]

theorem triesBeside_iff {file directory name : String} (hs : s.Reports file)
    (hdir : Path.parent? file = some directory) (hname : Path.isAbsolute name = false) :
    s.TriesBeside file name ↔
      Path.isAbsolute file = true ∨ components s.workingDirectory = [] := by
  cases hfile : Path.isAbsolute file with
  | true => exact ⟨fun _ => .inl rfl, fun _ => triesBeside_of_absolute hname hfile⟩
  | false => simpa using triesBeside_iff_of_relative hs hname hdir hfile

/-- A relative working directory is the only thing that keeps the file next to a reported one from being
tried first. -/
theorem reported_triesBeside_iff (s : SearchPath) :
    (∀ file directory name, s.Reports file → Path.parent? file = some directory →
      Path.isAbsolute name = false →
      (s.TriesBeside file name ↔
        Path.isAbsolute file = true ∨ components s.workingDirectory = [])) ∧
    ((∀ file name, s.Reports file → Path.isAbsolute name = false → s.TriesBeside file name) ↔
      Path.isAbsolute s.workingDirectory = true ∨ components s.workingDirectory = []) := by
  refine ⟨fun file directory name hs hdir hname => triesBeside_iff hs hdir hname, ?_, ?_⟩
  · intro h
    -- A file that lies in the working directory itself.
    have hunit : Path.isAbsolute "unit" = false := by decide
    have hs : s.Reports (Path.join s.workingDirectory "unit") :=
      ⟨none, "unit", List.mem_of_head? (head?_candidates_none hunit)⟩
    have hc : components (Path.join s.workingDirectory "unit") ≠ [] := by
      rw [Path.components_join hunit]
      exact List.append_ne_nil_of_right_ne_nil _ (by decide)
    obtain ⟨directory, hdir⟩ := Option.isSome_iff_exists.1 (Path.parent?_isSome hc)
    have hiff := (triesBeside_iff hs hdir hunit).1 (h _ _ hs hunit)
    rwa [Path.isAbsolute_join hunit] at hiff
  · intro hw file name hs hname directory hdir
    refine (triesBeside_iff hs hdir hname).2 ?_ directory hdir
    rcases hw, hs.anchored with ⟨hw | hw, hfile | ⟨hfile, hcwd, -⟩⟩
    · exact .inl hfile
    · rw [hw] at hcwd; cases hcwd
    · exact .inl hfile
    · exact .inr hw

theorem not_triesBeside_relative :
    Reports ⟨"w", []⟩ "w/src/main.lp" ∧ Path.parent? "w/src/main.lp" = some "w/src" ∧
      Path.isAbsolute "util" = false ∧ ¬ TriesBeside ⟨"w", []⟩ "w/src/main.lp" "util" ∧
      (candidates ⟨"w", []⟩ (some "w/src/main.lp") "util").head? = some "w/w/src/util" := by
  have hs : Reports ⟨"w", []⟩ "w/src/main.lp" := ⟨none, "src/main.lp", by decide⟩
  have hdir : Path.parent? "w/src/main.lp" = some "w/src" := by decide
  refine ⟨hs, hdir, by decide, ?_, by decide⟩
  rw [(reported_triesBeside_iff ⟨"w", []⟩).1 _ _ _ hs hdir (by decide)]
  decide

/-- The file tried first for the last name, where each name stands in the file tried first for the one before
it. -/
def descend (s : SearchPath) (names : List String) : Option String :=
  names.foldl (fun file name => (s.candidates file name).head?) none

/-- How often the working directory stands in front of a file that is included at this depth. -/
def repeated (s : SearchPath) (depth : Nat) : List (List Char) :=
  if Path.isAbsolute s.workingDirectory then components s.workingDirectory
  else (List.replicate depth (components s.workingDirectory)).flatten

theorem descend_concat (s : SearchPath) (names : List String) (name : String) :
    s.descend (names ++ [name]) = (s.candidates (s.descend names) name).head? := by
  simp [descend]

/-- With each file of a chain a relative working directory comes in front once more. -/
theorem components_descend (s : SearchPath) (names : List String) (name : String)
    (h : ∀ n ∈ names ++ [name], Path.isAbsolute n = false ∧ components n ≠ []) :
    ∃ file, s.descend (names ++ [name]) = some file ∧
      Path.isAbsolute file = Path.isAbsolute s.workingDirectory ∧
      components file = s.repeated (names.length + 1) ++
        names.flatMap (fun n => (components n).dropLast) ++ components name := by
  induction names using List.reverseRecOn generalizing name with
  | nil =>
    obtain ⟨hname, -⟩ := h name (by simp)
    refine ⟨_, head?_candidates_none hname, Path.isAbsolute_join hname, ?_⟩
    simp [Path.components_join hname, repeated]
  | append_singleton names middle ih =>
    obtain ⟨hname, -⟩ := h name (by simp)
    obtain ⟨hmiddle, hne⟩ := h middle (by simp)
    obtain ⟨file, hfile, habs, hc⟩ := ih middle fun n hn => h n (List.mem_append_left _ hn)
    have hparent : components file ≠ [] := hc ▸ List.append_ne_nil_of_right_ne_nil _ hne
    obtain ⟨directory, hdir⟩ := Option.isSome_iff_exists.1 (Path.parent?_isSome hparent)
    obtain ⟨hdirAbs, hdirC⟩ := Path.parent?_eq_some hdir
    rw [habs] at hdirAbs
    rw [hc, List.dropLast_append_of_ne_nil hne] at hdirC
    refine ⟨_, by rw [descend_concat, hfile, head?_candidates_some hname hdir], ?_⟩
    rw [Path.isAbsolute_join hname, Path.components_join hname]
    cases hcwd : Path.isAbsolute s.workingDirectory with
    | true =>
      rw [Path.join_of_absolute (hdirAbs.trans hcwd), hdirC]
      exact ⟨hdirAbs.trans hcwd, by simp [repeated, hcwd]⟩
    | false =>
      have hrel := hdirAbs.trans hcwd
      rw [Path.isAbsolute_join hrel, Path.components_join hrel, hdirC]
      exact ⟨hcwd, by simp [repeated, hcwd, List.replicate_succ]⟩

end Clausal.SearchPath
