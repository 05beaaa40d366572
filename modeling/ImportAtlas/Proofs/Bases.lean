import ImportAtlas.Proofs.Detours
import ImportAtlas.Proofs.InstalledFiles
import ImportAtlas.Proofs.TidyProjects

/-!
# The path from a map to a project

A project whose map is elsewhere is prepared with the path from there. The path is reduced, and
followed from the directory of the map it leads to the project; so a target seen from there and the
target itself are the same value once both have moved to one directory. All prefixes of scopes are
written below the path, and they stay apart when they move.

## Main results

* `Path.reduce_append_parts_relative`: the path from one directory to another leads there.
* `movedValue_seenFrom`: a target that was seen from elsewhere moves to the same value.
* `Project.make_eq_map`: a project is prepared for a map elsewhere where it is for one in its own
  directory.
* `Project.Tidy.leads`, `Project.Tidy.packageFolder_eq_of_movedValue`: the prefixes of scopes, seen
  from elsewhere and moved.
-/

namespace ImportAtlas

open Path (IsName Segment absolute here isPart joinSegments parts reduce segments steps up)

/-! ### The path between two directories -/

namespace Path

theorem isPart_of_mem_steps {start target : List Segment} (h : ∀ seg ∈ target, IsName seg)
    {seg : Segment} (hseg : seg ∈ steps start target) : isPart seg = true ∧ '/' ∉ seg := by
  rcases mem_steps h seg hseg with rfl | hname
  · exact ⟨by decide, by decide⟩
  · exact ⟨decide_eq_true ⟨hname.ne_nil, hname.ne_here⟩, hname.no_slash⟩

/-- The written path between two places: a dot if they are the same. -/
theorem toList_relative (path start : String) :
    (relative path start).toList = if steps (absolute start) (absolute path) = [] then here
      else joinSegments (steps (absolute start) (absolute path)) := by
  rw [relative]
  split
  · rename_i hnil
    rw [if_pos hnil, String.toList_ofList]
  · rename_i hne
    rw [if_neg hne, String.toList_ofList]

theorem parts_relative (path start : String) :
    parts (relative path start) = steps (absolute start) (absolute path) := by
  rw [parts_eq, toList_relative]
  split
  · rename_i hnil
    rw [hnil]
    rfl
  · have hsteps := @isPart_of_mem_steps (absolute start) _ (@isName_of_mem_absolute path)
    rw [filter_segments_joinSegments fun seg hseg => (hsteps hseg).2]
    exact List.filter_eq_self.2 fun seg hseg => (hsteps hseg).1

theorem head?_relative (path start : String) :
    (relative path start).toList.head? ≠ some '/' := by
  rw [toList_relative]
  split
  · decide
  · refine head?_joinSegments fun seg hseg => ?_
    obtain ⟨hpart, hslash⟩ := isPart_of_mem_steps isName_of_mem_absolute hseg
    exact ⟨(of_decide_eq_true hpart).1, hslash⟩

theorem reduce_replicate_up (n : Nat) :
    reduce false (List.replicate n up) = List.replicate n up := by
  have hfold : ∀ k, (List.replicate n up).foldl (push false) (List.replicate k up) =
      List.replicate (n + k) up := by
    induction n with
    | zero => exact fun k => by rw [Nat.zero_add]; rfl
    | succ n ih =>
        intro k
        have hpush : push false (List.replicate k up) up = List.replicate (k + 1) up := by
          cases k <;> rfl
        rw [List.replicate_succ, List.foldl_cons, hpush, ih, Nat.add_right_comm]
        rfl
  rw [reduce, show ([] : List Segment) = List.replicate 0 up from rfl, hfold,
    List.reverse_replicate]
  rfl

/-- The path between two places is reduced. -/
theorem reduce_parts_relative (path start : String) :
    reduce false (parts (relative path start)) = parts (relative path start) := by
  rw [parts_relative, steps, reduce_append_names, reduce_replicate_up]
  exact fun seg hseg => isName_of_mem_absolute seg (List.mem_of_mem_drop hseg)

/-- **The path from one directory to another leads there.** -/
theorem reduce_append_parts_relative (path start : String) :
    reduce true (absolute start ++ parts (relative path start)) = absolute path := by
  rw [parts_relative]
  exact reduce_append_steps isName_of_mem_absolute isName_of_mem_absolute

theorem absolute_resolve (path : String) : absolute (resolve path) = absolute path :=
  absolute_ofNames isName_of_mem_absolute

/-- Directories may be resolved before the path between them is taken. -/
theorem relative_resolve (path start : String) :
    relative (resolve path) (resolve start) = relative path start := by
  rw [relative, relative, absolute_resolve, absolute_resolve]

/-- Where a path below a rooted directory leads, by its parts. -/
theorem absolute_normalize_join_parts {dir path : String} (h : dir.toList.head? = some '/')
    (hpath : path.toList.head? ≠ some '/') :
    absolute (normalize (join dir path)) = reduce true (absolute dir ++ parts path) := by
  rw [absolute_normalize_join h hpath, parts_eq, reduce_append_filter_isPart]

end Path

/-! ### Values that move from elsewhere -/

theorem head?_forwardSlashes {path : String} (h : path.toList.head? = some '/') :
    (forwardSlashes path).toList.head? = some '/' := by
  rw [forwardSlashes, String.toList_ofList, List.head?_map, h]
  rfl

section Moving

variable {source source' target value value' base : String}

/-- A value moves to where its place is. -/
theorem movedValue_congr (h : Target.isUrlOrRooted value = false)
    (h' : Target.isUrlOrRooted value' = false)
    (hplace : absolute (Path.normalize (Path.join source value)) =
      absolute (Path.normalize (Path.join source' value')))
    (hslash : Target.endsInSlash value = Target.endsInSlash value') :
    movedValue source target value = movedValue source' target value' := by
  have hpath : pathBetween source target value = pathBetween source' target value' := by
    rw [pathBetween, pathBetween, Path.relative, Path.relative, hplace]
  rw [movedValue_eq h, movedValue_eq h', ledPath, ledPath, hpath, hslash]

/-- The dot that leads a path, and empty segments behind it, are no parts. -/
theorem filter_isPart_lead {more : List Segment} (hmore : ∀ seg ∈ more, seg = []) :
    (segments (joinSegments (leadSegments (stepsTo source target value) ++
      stepsTo source target value ++ more))).filter isPart = stepsTo source target value := by
  have hsteps : ∀ seg ∈ stepsTo source target value, isPart seg = true ∧ '/' ∉ seg := fun seg =>
    Path.isPart_of_mem_steps Path.isName_of_mem_absolute
  have hdot : ∀ seg ∈ leadSegments (stepsTo source target value), seg = here := by
    intro seg hseg
    rw [leadSegments] at hseg
    split at hseg
    · exact absurd hseg List.not_mem_nil
    · exact List.mem_singleton.1 hseg
  rw [Path.filter_segments_joinSegments, List.filter_append, List.filter_append,
    List.filter_eq_nil_iff.2, List.filter_eq_self.2 fun seg hseg => (hsteps seg hseg).1,
    List.filter_eq_nil_iff.2, List.append_nil, List.nil_append]
  · exact fun seg hseg => by rw [hmore seg hseg]; decide
  · exact fun seg hseg => by rw [hdot seg hseg]; decide
  · intro seg hseg
    rcases List.mem_append.1 hseg with hseg | hseg
    · rcases List.mem_append.1 hseg with hseg | hseg
      · rw [hdot seg hseg]
        decide
      · exact (hsteps seg hseg).2
    · rw [hmore seg hseg]
      exact List.not_mem_nil

/-- The parts of a relative value that has moved are the steps to its place. -/
theorem parts_movedValue (h : Target.isUrlOrRooted value = false) :
    parts (movedValue source target value) = stepsTo source target value := by
  have hled : parts (ledPath source target value) = stepsTo source target value := by
    rw [Path.parts_eq]
    by_cases hnear : stepsTo source target value = [] ∨ stepsTo source target value = [up]
    · rw [toList_ledPath_of_near hnear]
      exact filter_isPart_lead fun seg hseg => List.mem_singleton.1 hseg
    · rw [not_or] at hnear
      rw [toList_ledPath hnear.1 hnear.2, ← List.append_nil (leadSegments _ ++ _)]
      exact filter_isPart_lead fun seg hseg => absurd hseg List.not_mem_nil
  rw [movedValue_eq h]
  split
  · rw [Project.parts_withSlash, hled]
  · exact hled

/-- **A target that was seen from elsewhere moves to the same value.** -/
theorem movedValue_seenFrom (hsource : source.toList.head? = some '/')
    (hsource' : source'.toList.head? = some '/') (h : Target.UrlOrDownward value) :
    movedValue source' target (Project.seenFrom (Path.relative source source') value) =
      movedValue source target value := by
  have hbase := Path.head?_relative source source'
  rcases h with hurl | hdown
  · rw [Project.seenFrom_of_isUrl hurl, movedValue_of_isUrlOrRooted, movedValue_of_isUrlOrRooted]
    · rw [Target.isUrlOrRooted, hurl, Bool.or_true]
    · rw [Target.isUrlOrRooted, hurl, Bool.or_true]
  · have hseen := Project.straight_seenFrom hbase hdown
    have hhead : (Project.seenFrom (Path.relative source source') value).toList.head? ≠
        some '/' := by
      rw [hseen.head?]
      decide
    refine movedValue_congr (Target.isUrlOrRooted_eq_false hseen.head?)
      (Target.isUrlOrRooted_eq_false hdown.head?) ?_ (Project.endsInSlash_seenFrom hbase hdown)
    rw [Path.absolute_normalize_join_parts hsource' hhead,
      Path.absolute_normalize_join_parts hsource hdown.head?_ne,
      Project.parts_seenFrom hbase hdown, Path.reduce_parts_relative, ← List.append_assoc,
      Path.reduce_append_names fun seg hseg => (hdown.isName seg hseg).1,
      Path.reduce_append_parts_relative,
      Path.reduce_append_names fun seg hseg => (hdown.isName seg hseg).1,
      Path.reduce_names Path.isName_of_mem_absolute]

end Moving

/-! ### Projects for a map elsewhere -/

namespace Project

/-- **A project is prepared for a map elsewhere where it is for one in its own directory**, and is
the same but for the path from the map. -/
theorem make_eq_map {mapBase : String} (hmapBase : '\x00' ∉ mapBase.toList)
    (graph : DependencyGraph) (files : FileTree) (directory : String) (settings : Settings)
    (env : Environment) (roots? : Option (Dict String PackageId)) :
    make graph files directory settings env mapBase roots? =
      (make graph files directory settings env directory roots?).map fun p =>
        p.atBase (Path.relative directory mapBase) := by
  have hrooted : rootedPath mapBase = .ok (Path.resolve mapBase) := by
    rw [rootedPath, if_neg fun h => hmapBase (List.contains_iff_mem.1 h)]
  rw [make, make, basePath, basePath, hrooted]
  cases builtinsOf settings with
  | error error => rfl
  | ok builtins =>
      cases hdirectory : rootedPath directory with
      | error error => rfl
      | ok project =>
          have hproject : project = Path.resolve directory := by
            rw [rootedPath] at hdirectory
            split at hdirectory
            · exact absurd hdirectory (by simp)
            · exact (Except.ok.inj hdirectory).symm
          simp only [bind, Except.bind, pure, Except.pure, Except.map, hproject,
            Path.relative_resolve]
          rfl

variable {p : Project} {base : String} (hp : p.Tidy) (hhere : p.base = ".")

/-- What the forms of scopes begin with, seen from elsewhere. -/
def leadOf (base : String) : String :=
  if reduce false (parts base) = [] then ""
  else String.ofList (joinSegments (reduce false (parts base)) ++ ['/'])

include hp hhere in
/-- **The scopes of a map lie below the path to it**, seen from elsewhere. -/
theorem Tidy.leads (hbase : base.toList.head? ≠ some '/') {map : ImportMap}
    (hfolders : ∀ q ∈ map.scopes.keys, ∃ id : PackageId, id.Tidy ∧ q = p.packageFolder id) :
    map.Leads (seenFrom base) (leadOf base) := by
  have hform : ∀ q ∈ map.scopes.keys, Target.Downward q ∧
      (Target.normalize q).toList = joinSegments (parts q) ++ ['/'] ∧
      (Target.normalize (seenFrom base q)).toList =
        joinSegments (reduce false (parts base) ++ parts q) ++ ['/'] := by
    intro q hq
    obtain ⟨id, hid, rfl⟩ := hfolders q hq
    have hdown := hp.downward_packageFolder hhere hid
    have hslash : Target.endsInSlash (p.packageFolder id) = true :=
      Target.endsInSlash_append_slash _
    refine ⟨hdown, ?_, ?_⟩
    · rw [hdown.straight.toList_normalize, if_pos hslash]
    · rw [(straight_seenFrom hbase hdown).toList_normalize, endsInSlash_seenFrom hbase hdown,
        if_pos hslash, parts_seenFrom hbase hdown]
  refine ⟨fun q hq => String.toList_injective ?_, fun q hq hempty => ?_⟩
  · obtain ⟨hdown, hform, hseen⟩ := hform q hq
    rw [hseen, String.toList_append, hform, leadOf]
    split
    · rename_i hnil
      rw [hnil]
      rfl
    · rename_i hne
      rw [Path.joinSegments_append hne hdown.parts_ne_nil, String.toList_ofList]
      simp
  · obtain ⟨-, hform, -⟩ := hform q hq
    rw [hempty] at hform
    exact absurd hform.symm (by simp)

include hp hhere in
/-- **Packages whose folders move to one prefix have one folder.** -/
theorem Tidy.packageFolder_eq_of_movedValue {source target : String} {id id' : PackageId}
    (hsource : source.toList.head? = some '/') (hid : id.Tidy) (hid' : id'.Tidy)
    (h : movedValue source target (p.packageFolder id) =
      movedValue source target (p.packageFolder id')) :
    p.packageFolder id = p.packageFolder id' := by
  have hplace : ∀ {id : PackageId}, id.Tidy →
      reduce true (absolute target ++ parts (movedValue source target (p.packageFolder id))) =
        absolute source ++ parts (p.packageFolder id) := fun {id} hid => by
    have hdown := hp.downward_packageFolder hhere hid
    rw [parts_movedValue (Target.isUrlOrRooted_eq_false hdown.head?), stepsTo,
      Path.reduce_append_steps Path.isName_of_mem_absolute Path.isName_of_mem_absolute,
      Path.absolute_normalize_join_parts hsource hdown.head?_ne,
      Path.reduce_append_names fun seg hseg => (hdown.isName seg hseg).1,
      Path.reduce_names Path.isName_of_mem_absolute]
  have hparts : absolute source ++ parts (p.packageFolder id) =
      absolute source ++ parts (p.packageFolder id') := by
    rw [← hplace hid, h, hplace hid']
  exact hp.packageFolder_eq_of_parts hhere hid hid' (List.append_cancel_left hparts)

end Project

end ImportAtlas
