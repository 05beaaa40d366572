import ImportAtlas.Proofs.Weight

/-!
# The segments of targets

A target is a normalized path that has been given a dot in front. It has the same parts as the
path, whichever of its forms it takes, and no segment of it stands for nothing, but for that dot.

## Summary

* `IsTarget`: what all targets of packages have in common.
* `Project.below`: the parts of the path to a file of a package, as it is written.

## Main results

* `Project.isTarget_packageFile`, `Project.isTarget_packageFolder`: the targets of packages.
* `Project.sublist_below`: the target for a file of a package has lost some parts of its path.
* `Project.parts_packageFile_of_relative`: it has lost those that `..` takes back.
-/

namespace ImportAtlas

open Path (Segment here up segments joinSegments reduce isPart parts)

/-! ### Normalized paths -/

namespace Path

variable {rooted : Bool} {segs segs' : List Segment}

theorem here_not_mem_reduce (rooted : Bool) (segs : List Segment) : here ∉ reduce rooted segs :=
  fun hmem => (ne_of_mem_reduce hmem).2 rfl

theorem here_not_mem_segments_written {n : Nat} (hslash : ∀ seg ∈ segs, '/' ∉ seg)
    (h : here ∉ segs) : here ∉ segments (List.replicate n '/' ++ joinSegments segs) := by
  induction n with
  | zero =>
      by_cases hne : segs = []
      · rw [hne]
        decide
      · rwa [List.replicate_zero, List.nil_append, segments_joinSegments hslash hne]
  | succ n ih =>
      rw [List.replicate_succ, List.cons_append, segments, Url.splitOn_slash, List.mem_cons, not_or]
      exact ⟨by decide, ih⟩

/-- A normalized path is a dot, or has no segment that is one. -/
theorem here_not_mem_normalize (path : String) :
    normalize path = "." ∨ here ∉ segments (normalize path).toList := by
  rw [normalize, String.toList_ofList, normalizeChars]
  split
  · exact Or.inl rfl
  · exact Or.inr (here_not_mem_segments_written
      (fun seg hseg => not_mem_of_mem_segments (mem_of_mem_reduce hseg)) (here_not_mem_reduce _ _))

theorem rootSlashes_join (dir : String) {path : String} (h : path.toList.head? ≠ some '/') :
    rootSlashes (join dir path).toList = rootSlashes dir.toList := by
  rw [join, String.toList_ofList, rootSlashes_joinChars _ h]

/-- What is followed after two ways to one place ends at one place. -/
theorem reduce_append_congr {names names' : List Segment}
    (h : reduce rooted names = reduce rooted names') (segs : List Segment) :
    reduce rooted (names ++ segs) = reduce rooted (names' ++ segs) := by
  have hstack := List.reverse_injective h
  rw [reduce, reduce, List.foldl_append, List.foldl_append, hstack]

theorem segments_append_slash (cs : List Char) : segments (cs ++ ['/']) = segments cs ++ [[]] := by
  rw [segments, List.splitOn_append_cons_self, List.splitOn_nil, segments]

end Path

/-! ### The form of targets -/

/-- A relative path whose segments are no dots, but for the one that may be put in front. -/
structure IsTarget (value : String) : Prop where
  /-- The path is relative. -/
  isRelative : Target.isRelative value = true
  /-- It begins with a dot. -/
  head? : value.toList.head? = some '.'
  /-- Its segments are no dots. -/
  segments : ∃ body, (value.toList = body ∨ value.toList = '.' :: '/' :: body) ∧
    here ∉ segments body

theorem IsTarget.isPathSpecifier {value : String} (h : IsTarget value) :
    isPathSpecifier value = true := by
  rw [ImportAtlas.isPathSpecifier, h.isRelative, Bool.true_or]

/-- A slash at its end leaves a path relative. -/
theorem Target.isRelativeChars_append_slash {cs : List Char}
    (h : Target.isRelativeChars cs = true) : Target.isRelativeChars (cs ++ ['/']) = true := by
  have hstart : ∀ front : List Char, front.isPrefixOf cs = true →
      front.isPrefixOf (cs ++ ['/']) = true := fun front hfront => by
    rw [List.isPrefixOf_iff_prefix] at hfront ⊢
    exact hfront.trans (List.prefix_append _ _)
  simp only [Target.isRelativeChars, Bool.or_eq_true] at h ⊢
  rcases h with ((hhere | hup) | hdot) | hdots
  · exact Or.inl (Or.inl (Or.inl (hstart _ hhere)))
  · exact Or.inl (Or.inl (Or.inr (hstart _ hup)))
  · rw [beq_iff_eq] at hdot
    subst hdot
    decide
  · rw [beq_iff_eq] at hdots
    subst hdots
    decide

/-- A target may be given a slash at its end. -/
theorem IsTarget.append_slash {value : String} (h : IsTarget value) : IsTarget (value ++ "/") := by
  have htext : (value ++ "/").toList = value.toList ++ ['/'] := String.toList_append
  obtain ⟨rest, hrest⟩ := List.head?_eq_some_iff.1 h.head?
  obtain ⟨body, hbody, hhere⟩ := h.segments
  refine ⟨?_, ?_, body ++ ['/'], ?_, ?_⟩
  · rw [Target.isRelative, htext]
    exact Target.isRelativeChars_append_slash h.isRelative
  · rw [htext, hrest]
    rfl
  · rw [htext]
    rcases hbody with hbody | hbody
    · exact Or.inl (by rw [hbody])
    · exact Or.inr (by rw [hbody]; rfl)
  · rw [Path.segments_append_slash, List.mem_append, List.mem_singleton, not_or]
    exact ⟨hhere, by decide⟩

theorem IsTarget.withSlash {value : String} (h : IsTarget value) :
    IsTarget (Target.withSlash value) := by
  rw [Target.withSlash]
  split
  · exact h
  · exact h.append_slash

namespace Project

theorem isRelative_targetOfPath (path : String) : Target.isRelative (targetOfPath path) = true := by
  rw [targetOfPath]
  split
  · rfl
  · split
    · rename_i hup
      rw [Target.isRelative, Target.isRelativeChars]
      rcases Bool.or_eq_true_iff.1 hup with hup | hup
      · rw [beq_iff_eq.1 hup]
        rfl
      · rw [hup, Bool.or_true]
        rfl
    · rw [Target.isRelative, Target.isRelativeChars, String.toList_append]
      rfl

/-- **What is made of a normalized path is a target.** -/
theorem isTarget_joinTarget (folder path : String) : IsTarget (joinTarget folder path) := by
  refine ⟨isRelative_targetOfPath _, head?_targetOfPath _, ?_⟩
  have hnormal := Path.here_not_mem_normalize (Path.join folder path)
  rw [joinTarget]
  generalize Path.normalize (Path.join folder path) = normal at hnormal
  rcases targetOfPath_cases normal with ⟨rfl, htext⟩ | ⟨rest, hrest, heq⟩ | htext
  · exact ⟨[], Or.inr htext, by decide⟩
  · refine ⟨normal.toList, Or.inl (by rw [heq]), hnormal.resolve_left ?_⟩
    rintro rfl
    exact absurd hrest (by simp)
  · rcases hnormal with rfl | hhere
    · exact absurd htext (by decide)
    · exact ⟨normal.toList, Or.inr htext, hhere⟩

/-! ### The parts of targets -/

theorem parts_append_slash (value : String) : parts (value ++ "/") = parts value := by
  rw [Path.parts_eq, Path.parts_eq, String.toList_append, show "/".toList = ['/'] from rfl,
    Path.segments_append_slash, List.filter_append]
  simp [isPart]

theorem parts_withSlash (value : String) : parts (Target.withSlash value) = parts value := by
  rw [Target.withSlash]
  split
  · rfl
  · exact parts_append_slash value

theorem parts_targetOfPath (path : String) : parts (targetOfPath path) = parts path := by
  rcases targetOfPath_cases path with ⟨rfl, -⟩ | ⟨-, -, heq⟩ | htext
  · rfl
  · rw [heq]
  · rw [Path.parts_eq, Path.parts_eq, htext, Path.segments_dotSlash, List.filter_cons_of_neg]
    simp [isPart]

/-- A target has the parts of its path that are left when it is reduced. -/
theorem parts_joinTarget (folder path : String) : parts (joinTarget folder path) =
    reduce (Path.rootSlashes (Path.join folder path).toList ≠ 0) (parts (Path.join folder path)) :=
  (parts_targetOfPath _).trans (Path.parts_normalize _)

/-- The target for a path below a target. -/
theorem parts_joinTarget_of_relative {folder path : String}
    (hfolder : folder.toList.head? ≠ some '/') (hpath : path.toList.head? ≠ some '/') :
    parts (joinTarget folder path) = reduce false (parts folder ++ parts path) := by
  rw [parts_joinTarget, Path.parts_join hpath, Path.rootSlashes_join _ hpath,
    Path.rootSlashes_eq_zero hfolder]
  rfl

variable {p : Project} {id : PackageId} {file : String}

/-- A file of a package that is taken from elsewhere: it has a rooted path, or all packages have. -/
def Elsewhere (p : Project) (file : String) : Prop :=
  p.settings.packagesDir.toList.head? = some '/' ∨ file.toList.head? = some '/'

/-- The parts of the path to a file of a package, as it is written. -/
def below (p : Project) (id : PackageId) (file : String) : List Segment :=
  parts (Path.join (Path.join p.settings.packagesDir id.path) file)

/-- The path of the map to the folder of a package has the parts of the setting. -/
theorem parts_join_base (hbase : p.base = ".") (hid : id.Parsed) :
    parts (Path.join (Path.join p.base p.settings.packagesDir) id.path) =
      parts (Path.join p.settings.packagesDir id.path) := by
  rw [Path.parts_join hid.head?_path, Path.parts_join hid.head?_path, hbase]
  by_cases hroot : p.settings.packagesDir.toList.head? = some '/'
  · rw [Path.join_of_rooted hroot]
  · rw [Path.parts_join hroot]
    rfl

theorem below_of_relative (h : file.toList.head? ≠ some '/') :
    p.below id file = parts (Path.join p.settings.packagesDir id.path) ++ parts file :=
  Path.parts_join h

/-- The target for a file of a package, if it is a path. -/
theorem isTarget_packageFile (hempty : file ≠ Builtin.emptyModule)
    (hurl : Target.isUrl file = false) : IsTarget (p.packageFile id file) := by
  rw [packageFile, if_neg (by simpa using hempty), if_neg (by simp [hurl])]
  dsimp only
  split
  · exact (isTarget_joinTarget _ _).withSlash
  · exact isTarget_joinTarget _ _

theorem isTarget_packageFolder (p : Project) (id : PackageId) : IsTarget (p.packageFolder id) :=
  (isTarget_joinTarget _ _).append_slash

theorem head?_packagePath (p : Project) (id : PackageId) :
    (p.packagePath id).toList.head? ≠ some '/' := by
  rw [packagePath, joinTarget, head?_targetOfPath]
  decide

theorem parts_packageFile_eq (hempty : file ≠ Builtin.emptyModule)
    (hurl : Target.isUrl file = false) :
    parts (p.packageFile id file) = parts (joinTarget (p.packagePath id) file) := by
  rw [packageFile, if_neg (by simpa using hempty), if_neg (by simp [hurl])]
  dsimp only
  split
  · exact parts_withSlash _
  · rfl

section Parts

variable (hbase : p.base = ".") (hid : id.Parsed) (hempty : file ≠ Builtin.emptyModule)
  (hurl : Target.isUrl file = false)
include hbase hid hempty hurl

/-- **Below the project, a target has the parts of the path that are left when it is reduced.** -/
theorem parts_packageFile_of_relative (h : ¬ p.Elsewhere file) :
    parts (p.packageFile id file) = reduce false (p.below id file) := by
  obtain ⟨hdir, hfile⟩ := not_or.1 h
  have hroot : Path.rootSlashes (Path.join (Path.join p.base p.settings.packagesDir)
      id.path).toList = 0 := by
    rw [Path.rootSlashes_join _ hid.head?_path, Path.rootSlashes_join _ hdir, hbase]
    rfl
  rw [parts_packageFile_eq hempty hurl,
    parts_joinTarget_of_relative (p.head?_packagePath id) hfile, packagePath, parts_joinTarget,
    parts_join_base hbase hid, below_of_relative hfile, hroot]
  exact Path.reduce_append_congr (Path.reduce_reduce false _) _

/-- The target for a file of a package has some of the parts of its path, and all of them if none
is `..`. -/
theorem sublist_below : (parts (p.packageFile id file)).Sublist (p.below id file) ∧
    (up ∉ p.below id file → parts (p.packageFile id file) = p.below id file) := by
  by_cases hfile : file.toList.head? = some '/'
  · rw [parts_packageFile_eq hempty hurl, parts_joinTarget, below, Path.join_of_rooted hfile,
      Path.join_of_rooted hfile]
    exact ⟨Path.reduce_sublist _ _, Path.reduce_parts⟩
  · rw [parts_packageFile_eq hempty hurl,
      parts_joinTarget_of_relative (p.head?_packagePath id) hfile, packagePath, parts_joinTarget,
      parts_join_base hbase hid]
    refine ⟨?_, fun hup => ?_⟩
    · rw [below_of_relative hfile]
      exact (Path.reduce_sublist _ _).trans ((Path.reduce_sublist _ _).append (List.Sublist.refl _))
    · have hfront : up ∉ parts (Path.join p.settings.packagesDir id.path) := fun hmem => hup (by
        rw [below_of_relative hfile]
        exact List.mem_append_left _ hmem)
      rw [Path.reduce_parts hfront, ← below_of_relative hfile]
      exact Path.reduce_parts hup

end Parts

end Project

end ImportAtlas
