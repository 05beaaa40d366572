import ImportAtlas.Proofs.InstalledFiles

/-!
# Targets seen from another directory

The targets of a map are taken from the directory that the map is in. Seen from another directory
the path from there to the map stands in front of them; a URL is the same from everywhere. A target
that leads down from the directory of its map keeps its parts and its last slash.

## Summary

* `Path.Tidy`: a path that leads down from a directory, written without detours.
* `Target.Downward`: a target that leads down from the directory of its map.
* `Project.seenFrom`: a target of a map, as it is in a map elsewhere.

## Main results

* `Project.joinTarget_joinTarget`: a target below a folder, seen from elsewhere.
* `Project.parts_seenFrom`, `Project.endsInSlash_seenFrom`: a target that leads down, seen from
  elsewhere.
-/

namespace ImportAtlas

open Path (Segment IsName here up segments joinSegments reduce parts isPart)

/-! ### Tidy paths -/

namespace Path

variable {path : String}

/-- The segments of a path without a `.` in front and without an empty one at the end. -/
def inner (path : String) : List Segment :=
  let segs := segments (Manifest.stripDot path).toList
  if segs.getLast? = some [] then segs.dropLast else segs

/-- A path that leads down from a directory, written without detours. -/
def Tidy (path : String) : Prop :=
  ∀ seg ∈ inner path, seg ≠ [] ∧ seg ≠ here ∧ seg ≠ up ∧ ':' ∉ seg

instance (path : String) : Decidable (Tidy path) :=
  inferInstanceAs (Decidable (∀ seg ∈ inner path, _))

/-- A dot and a slash in front of a path are taken off. -/
theorem stripDot_cases (path : String) :
    (∃ rest, path.toList = '.' :: '/' :: rest ∧ Manifest.stripDot path = String.ofList rest) ∨
      ((∀ rest, path.toList ≠ '.' :: '/' :: rest) ∧ Manifest.stripDot path = path) := by
  rw [Manifest.stripDot]
  split
  · rename_i rest heq
    exact Or.inl ⟨rest, heq, rfl⟩
  · rename_i hne
    exact Or.inr ⟨hne, rfl⟩

theorem stripDot_of_head? (h : path.toList.head? ≠ some '.') : Manifest.stripDot path = path := by
  rcases stripDot_cases path with ⟨rest, hrest, -⟩ | ⟨-, heq⟩
  · exact absurd (by rw [hrest]; rfl) h
  · exact heq

theorem parts_stripDot (path : String) : parts (Manifest.stripDot path) = parts path := by
  rcases stripDot_cases path with ⟨rest, hrest, heq⟩ | ⟨-, heq⟩
  · rw [heq, parts_eq, parts_eq, hrest, String.toList_ofList, segments_dotSlash,
      List.filter_cons_of_neg (by simp [isPart])]
  · rw [heq]

/-- The parts of a path are among its inner segments. -/
theorem parts_eq_filter_inner (path : String) : parts path = (inner path).filter isPart := by
  rw [← parts_stripDot, parts_eq, inner]
  split
  · rename_i hlast
    obtain ⟨front, hfront⟩ := List.getLast?_eq_some_iff.1 hlast
    rw [hfront, List.dropLast_concat, List.filter_append]
    simp [isPart]
  · rfl

namespace Tidy

/-- A tidy path has the parts that are written. -/
theorem parts_eq (h : Tidy path) : parts path = inner path := by
  rw [parts_eq_filter_inner, List.filter_eq_self]
  intro seg hseg
  obtain ⟨hempty, hhere, -, -⟩ := h seg hseg
  simp [isPart, hempty, hhere]

theorem isName (h : Tidy path) : ∀ seg ∈ parts path, IsName seg ∧ ':' ∉ seg := by
  intro seg hseg
  have hslash := (of_mem_parts hseg).2.2
  rw [h.parts_eq] at hseg
  obtain ⟨hempty, hhere, hup, hcolon⟩ := h seg hseg
  exact ⟨⟨hempty, hhere, hup, hslash⟩, hcolon⟩

/-- A tidy path is relative. -/
theorem head?_ne (h : Tidy path) : path.toList.head? ≠ some '/' := by
  intro hhead
  obtain ⟨rest, hrest⟩ := List.head?_eq_some_iff.1 hhead
  have hmem : [] ∈ inner path := by
    have hstrip : Manifest.stripDot path = path :=
      stripDot_of_head? (by rw [hhead]; decide)
    obtain ⟨first, more, hsegs⟩ := List.exists_cons_of_ne_nil (List.splitOn_ne_nil '/' rest)
    have hpath : segments path.toList = [] :: first :: more := by
      rw [hrest, segments, Url.splitOn_slash, hsegs]
    rw [inner, hstrip, hpath]
    split
    · rw [List.dropLast_cons_of_ne_nil (List.cons_ne_nil _ _)]
      exact List.mem_cons_self
    · exact List.mem_cons_self
  exact (h [] hmem).1 rfl

/-- **What follows an alias in a tidy path is tidy**, unless the path begins with a dot. -/
theorem of_append {front rest : String} (h : Tidy path)
    (hdot : ∀ rest, path.toList ≠ '.' :: '/' :: rest)
    (hpath : path.toList = front.toList ++ '/' :: rest.toList) : Tidy rest := by
  have hstrip : Manifest.stripDot path = path := by
    rcases stripDot_cases path with ⟨rest, hrest, -⟩ | ⟨-, heq⟩
    · exact absurd hrest (hdot rest)
    · exact heq
  have hsegs : segments path.toList = segments front.toList ++ segments rest.toList := by
    rw [hpath, segments, List.splitOn_append_cons_self]
    rfl
  have hne : segments rest.toList ≠ [] := List.splitOn_ne_nil '/' _
  have hinner : inner path = segments front.toList ++
      if (segments rest.toList).getLast? = some [] then (segments rest.toList).dropLast
      else segments rest.toList := by
    rw [inner, hstrip, hsegs, List.getLast?_append_of_ne_nil _ hne,
      List.dropLast_append_of_ne_nil hne]
    split <;> rfl
  have hrest : Manifest.stripDot rest = rest := by
    rcases stripDot_cases rest with ⟨more, hmore, -⟩ | ⟨-, heq⟩
    · have hmem : here ∈ inner path := by
        rw [hinner, hmore, segments_dotSlash]
        refine List.mem_append_right _ ?_
        split
        · have hsome : segments more ≠ [] := List.splitOn_ne_nil '/' more
          rw [List.dropLast_cons_of_ne_nil hsome]
          exact List.mem_cons_self
        · exact List.mem_cons_self
      exact absurd rfl (h here hmem).2.1
    · exact heq
  intro seg hseg
  rw [inner, hrest] at hseg
  exact h seg (hinner ▸ List.mem_append_right _ hseg)

end Tidy

end Path

/-! ### Targets below a folder -/

theorem Path.head?_ne_of_rootSlashes {cs : List Char} (h : Path.rootSlashes cs = 0) :
    cs.head? ≠ some '/' := fun hhead => Path.rootSlashes_pos hhead h

namespace Project

variable {base folder folder' path path' : String}

/-- A target is known by the parts of its path. -/
theorem joinTarget_congr (hfolder : folder.toList.head? ≠ some '/')
    (hpath : path.toList.head? ≠ some '/') (hfolder' : folder'.toList.head? ≠ some '/')
    (hpath' : path'.toList.head? ≠ some '/')
    (h : reduce false (parts folder ++ parts path) = reduce false (parts folder' ++ parts path')) :
    joinTarget folder path = joinTarget folder' path' := by
  have hnames : ∀ {folder path : String}, folder.toList.head? ≠ some '/' →
      path.toList.head? ≠ some '/' → Path.rootSlashes (Path.join folder path).toList = 0 ∧
        Path.reducedNames (Path.join folder path).toList =
          reduce false (parts folder ++ parts path) := by
    intro folder path hfolder hpath
    have hroot : Path.rootSlashes (Path.join folder path).toList = 0 := by
      rw [Path.rootSlashes_join _ hpath, Path.rootSlashes_eq_zero hfolder]
    refine ⟨hroot, ?_⟩
    rw [Path.reducedNames, hroot, ← Path.parts_join hpath]
    exact (Path.reduce_append_filter_isPart [] _).symm
  obtain ⟨hroot, hnames₁⟩ := hnames hfolder hpath
  obtain ⟨hroot', hnames₂⟩ := hnames hfolder' hpath'
  rw [joinTarget, joinTarget, Path.normalize, Path.normalize,
    Path.normalizeChars_congr (hroot.trans hroot'.symm) (by rw [hnames₁, hnames₂, h])]

theorem head?_joinTarget (folder path : String) :
    (joinTarget folder path).toList.head? ≠ some '/' := by
  rw [joinTarget, head?_targetOfPath]
  decide

/-- **A target below a folder, seen from elsewhere**, is a target below that folder seen from
there. -/
theorem joinTarget_joinTarget (hbase : base.toList.head? ≠ some '/')
    (hfolder : folder.toList.head? ≠ some '/') (hfolder' : folder'.toList.head? ≠ some '/')
    (hpath : path.toList.head? ≠ some '/')
    (h : reduce false (parts folder') = reduce false (parts base ++ parts folder)) :
    joinTarget base (joinTarget folder path) = joinTarget folder' path := by
  refine joinTarget_congr hbase (head?_joinTarget _ _) hfolder' hpath ?_
  rw [parts_joinTarget_of_relative hfolder hpath, Path.reduce_append_reduce, ← List.append_assoc]
  exact Path.reduce_append_congr h.symm _

/-- The written form of a relative path that leads somewhere else. -/
theorem toList_normalize (hpath : path.toList.head? ≠ some '/')
    (hne : reduce false (parts path) ≠ []) :
    (Path.normalize path).toList = joinSegments (reduce false (parts path)) := by
  have hnames : reduce false (segments path.toList) = reduce false (parts path) :=
    (Path.reduce_append_filter_isPart [] _).symm
  have htext : joinSegments (reduce false (parts path)) ≠ [] := by
    obtain ⟨seg, segs, hsegs⟩ := List.exists_cons_of_ne_nil hne
    obtain ⟨rest, hrest⟩ := Path.exists_joinSegments_cons seg segs
    have hseg : seg ∈ parts path := Path.mem_of_mem_reduce (hsegs ▸ List.mem_cons_self)
    rw [hsegs, hrest]
    exact fun hnil => (of_decide_eq_true (List.mem_filter.1 hseg).2).1
      (List.append_eq_nil_iff.1 hnil).1
  rw [Path.normalize, String.toList_ofList, Path.normalizeChars,
    Path.rootSlashes_eq_zero hpath, if_neg]
  · exact congrArg joinSegments hnames
  · rw [List.isEmpty_iff]
    exact fun hnil => htext (hnames ▸ hnil)

/-- A target that leads somewhere else does not end in a slash. -/
theorem endsInSlash_joinTarget (hfolder : folder.toList.head? ≠ some '/')
    (hpath : path.toList.head? ≠ some '/') (hne : parts (joinTarget folder path) ≠ []) :
    Target.endsInSlash (joinTarget folder path) = false := by
  have hjoin : (Path.join folder path).toList.head? ≠ some '/' := by
    refine Path.head?_ne_of_rootSlashes ?_
    rw [Path.rootSlashes_join _ hpath, Path.rootSlashes_eq_zero hfolder]
  have hreduced : reduce false (parts (Path.join folder path)) ≠ [] := by
    rwa [parts_joinTarget, Path.rootSlashes_eq_zero hjoin] at hne
  have hlast : (Path.normalize (Path.join folder path)).toList.getLast? ≠ some '/' := by
    rw [toList_normalize hjoin hreduced]
    refine Path.getLast?_joinSegments fun seg hseg => ?_
    have hpart := Path.of_mem_parts (Path.mem_of_mem_reduce hseg)
    exact ⟨hpart.1, hpart.2.2⟩
  rw [joinTarget, parts_targetOfPath] at hne
  rw [joinTarget]
  generalize Path.normalize (Path.join folder path) = normal at hlast hne
  rcases targetOfPath_cases normal with ⟨rfl, -⟩ | ⟨-, -, heq⟩ | htext
  · exact absurd rfl hne
  · rw [Target.endsInSlash, heq]
    simpa using hlast
  · have hnil : normal.toList ≠ [] := by
      intro hnil
      rw [String.toList_eq_nil_iff.1 hnil] at hne
      exact absurd rfl hne
    have hsplit : '.' :: '/' :: normal.toList = ['.', '/'] ++ normal.toList := rfl
    rw [Target.endsInSlash, htext, hsplit, List.getLast?_append_of_ne_nil _ hnil]
    simpa using hlast

end Project

/-! ### Targets that lead down -/

namespace Target

theorem head?_withSlash {value : String} {c : Char} (h : value.toList.head? = some c) :
    (withSlash value).toList.head? = some c := by
  obtain ⟨rest, hrest⟩ := List.head?_eq_some_iff.1 h
  rw [withSlash]
  split
  · exact h
  · rw [String.toList_append, hrest]
    rfl

/-- A target that leads down from the directory of its map. -/
structure Downward (value : String) : Prop where
  head? : value.toList.head? = some '.'
  parts_ne_nil : parts value ≠ []
  isName : ∀ seg ∈ parts value, IsName seg ∧ ':' ∉ seg

/-- A target that is a URL or leads down from the directory of its map. -/
def UrlOrDownward (value : String) : Prop := isUrl value = true ∨ Downward value

/-- A target in a manifest that is a URL or a tidy path. -/
def Tidy (value : String) : Prop := isUrl value = true ∨ Path.Tidy value

instance (value : String) : Decidable (Tidy value) :=
  inferInstanceAs (Decidable (_ ∨ _))

namespace Downward

variable {value : String}

theorem head?_ne (h : Downward value) : value.toList.head? ≠ some '/' := by
  rw [h.head?]
  decide

theorem isUrl_eq_false (h : Downward value) : isUrl value = false := Target.isUrl_eq_false h.head?

/-- The parts of a target that leads down are reduced, wherever they are taken up. -/
theorem reduce_append (h : Downward value) (segs : List Segment) :
    reduce false (segs ++ parts value) = reduce false segs ++ parts value :=
  Path.reduce_append_names (fun seg hseg => (h.isName seg hseg).1) segs

theorem withSlash (h : Downward value) : Downward (withSlash value) := by
  refine ⟨head?_withSlash h.head?, ?_, ?_⟩
  · rw [Project.parts_withSlash]
    exact h.parts_ne_nil
  · rw [Project.parts_withSlash]
    exact h.isName

end Downward

/-- What stands below a folder leads down if the folder does. -/
theorem downward_joinTarget {folder path : String} (hfolder : folder.toList.head? ≠ some '/')
    (hpath : path.toList.head? ≠ some '/') (hne : parts folder ++ parts path ≠ [])
    (hnames : ∀ seg ∈ parts folder ++ parts path, IsName seg ∧ ':' ∉ seg) :
    Downward (Project.joinTarget folder path) := by
  have hparts : parts (Project.joinTarget folder path) = parts folder ++ parts path := by
    rw [Project.parts_joinTarget_of_relative hfolder hpath,
      Path.reduce_names fun seg hseg => (hnames seg hseg).1]
  refine ⟨Project.head?_targetOfPath _, ?_, ?_⟩
  · rwa [hparts]
  · rwa [hparts]

end Target

/-! ### Seen from another directory -/

namespace Project

/-- A target of a map in the directory of a project, as it is in a map from whose directory `base`
leads to that of the project. -/
def seenFrom (base value : String) : String :=
  if Target.isUrl value then value
  else if Target.endsInSlash value then Target.withSlash (joinTarget base value)
  else joinTarget base value

theorem seenFrom_of_isUrl {base value : String} (h : Target.isUrl value = true) :
    seenFrom base value = value := by
  rw [seenFrom, if_pos h]

/-- A target that is no URL begins with a dot, seen from elsewhere. -/
theorem head?_seenFrom {base value : String} (h : Target.isUrl value = false) :
    (seenFrom base value).toList.head? = some '.' := by
  rw [seenFrom, h, if_neg Bool.false_ne_true]
  split
  · exact Target.head?_withSlash (head?_targetOfPath _)
  · exact head?_targetOfPath _

section SeenFrom

variable {base value : String} (hbase : base.toList.head? ≠ some '/') (h : Target.Downward value)
include hbase h

/-- The parts of a target, seen from elsewhere. -/
theorem parts_joinTarget_downward :
    parts (joinTarget base value) = reduce false (parts base) ++ parts value := by
  rw [parts_joinTarget_of_relative hbase h.head?_ne, h.reduce_append]

theorem endsInSlash_joinTarget_downward : Target.endsInSlash (joinTarget base value) = false := by
  refine endsInSlash_joinTarget hbase h.head?_ne ?_
  rw [parts_joinTarget_downward hbase h]
  exact List.append_ne_nil_of_right_ne_nil _ h.parts_ne_nil

omit hbase in
theorem seenFrom_of_file (hslash : Target.endsInSlash value = false) :
    seenFrom base value = joinTarget base value := by
  rw [seenFrom, h.isUrl_eq_false, if_neg Bool.false_ne_true, hslash, if_neg Bool.false_ne_true]

/-- A slash at the end of a target stays there. -/
theorem seenFrom_withSlash :
    seenFrom base (Target.withSlash value) = Target.withSlash (joinTarget base value) := by
  have hjoin : joinTarget base (Target.withSlash value) = joinTarget base value := by
    refine joinTarget_congr hbase h.withSlash.head?_ne hbase h.head?_ne ?_
    rw [parts_withSlash]
  rw [seenFrom, h.withSlash.isUrl_eq_false, if_neg Bool.false_ne_true,
    Target.endsInSlash_withSlash, if_pos rfl, hjoin]

theorem parts_seenFrom :
    parts (seenFrom base value) = reduce false (parts base) ++ parts value := by
  rw [seenFrom, h.isUrl_eq_false, if_neg Bool.false_ne_true, ← parts_joinTarget_downward hbase h]
  split
  · exact parts_withSlash _
  · rfl

theorem endsInSlash_seenFrom :
    Target.endsInSlash (seenFrom base value) = Target.endsInSlash value := by
  rw [seenFrom, h.isUrl_eq_false, if_neg Bool.false_ne_true]
  cases hslash : Target.endsInSlash value with
  | true => rw [if_pos rfl, Target.endsInSlash_withSlash]
  | false => rw [if_neg Bool.false_ne_true, endsInSlash_joinTarget_downward hbase h]

end SeenFrom

end Project

end ImportAtlas
