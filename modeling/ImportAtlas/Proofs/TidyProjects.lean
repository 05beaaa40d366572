import ImportAtlas.Proofs.Requirements
import ImportAtlas.Proofs.Viewpoint

/-!
# Projects with tidy paths

What a project writes for a map in another directory is what it writes for one in its own, seen
from there, if its paths are tidy: relative, without `..`, and without empty segments inside.

## Summary

* `Project.Tidy`: a project whose paths are tidy.
* `Project.atBase`: a project whose map is elsewhere.
* `MirroredEntries`: entries for a map in the directory of the project, with those for a map
  elsewhere.

## Main results

* `Project.Tidy.mirrored_packageFile`: the targets for files of packages.
* `Project.Tidy.mirrored_packageEntries`, `Project.Tidy.mirrored_scopeEntries`: the entries for a
  package, and its scope.
-/

namespace ImportAtlas

open Path (IsName parts reduce)

/-! ### Tidy projects -/

/-- A package whose folder is below that of all packages and has a tidy path. The first is so for
all that were read from texts (`PackageId.Parsed.tidy_iff`). -/
structure PackageId.Tidy (id : PackageId) : Prop where
  path : Path.Tidy id.path
  inner_ne_nil : Path.inner id.path ≠ []

instance (id : PackageId) : Decidable id.Tidy :=
  decidable_of_iff (Path.Tidy id.path ∧ Path.inner id.path ≠ [])
    ⟨fun ⟨hpath, hne⟩ => ⟨hpath, hne⟩, fun h => ⟨h.path, h.inner_ne_nil⟩⟩

/-- A package that was read from a text is tidy if its path is: its folder is below that of all
packages. -/
theorem PackageId.Parsed.tidy_iff {id : PackageId} (h : id.Parsed) :
    id.Tidy ↔ Path.Tidy id.path := by
  refine ⟨fun htidy => htidy.path, fun hpath => ⟨hpath, fun hinner => ?_⟩⟩
  obtain ⟨c, rest, htext, hletter⟩ := h.exists_path
  have hstrip : Manifest.stripDot id.path = id.path := by
    refine Path.stripDot_of_head? fun hdot => ?_
    rw [htext] at hdot
    obtain rfl := Option.some.inj hdot
    exact absurd hletter (by decide)
  rw [Path.inner, hstrip] at hinner
  have hne : Path.segments id.path.toList ≠ [] := List.splitOn_ne_nil '/' _
  split at hinner
  · -- only the empty path has the empty segment alone
    rename_i hlast
    have hsegs : Path.segments id.path.toList = [[]] := by
      rw [← List.dropLast_append_getLast? [] hlast, hinner]
      rfl
    have hempty : id.path.toList = ['/'].intercalate [[]] := by
      rw [← hsegs, Path.segments, List.intercalate_splitOn]
    rw [htext] at hempty
    exact absurd hempty (List.cons_ne_nil c rest)
  · exact hne hinner

/-- A manifest whose targets are tidy. -/
structure Manifest.Tidy (manifest : Manifest) : Prop where
  main : ∀ main ∈ manifest.main?, Target.Tidy main
  paths : ∀ file ∈ manifest.paths.values, Target.Tidy file
  map : ∀ target ∈ manifest.map.values, Target.Tidy target

instance (manifest : Manifest) : Decidable manifest.Tidy :=
  decidable_of_iff ((∀ main ∈ manifest.main?, Target.Tidy main) ∧
      (∀ file ∈ manifest.paths.values, Target.Tidy file) ∧
        ∀ target ∈ manifest.map.values, Target.Tidy target)
    ⟨fun ⟨hmain, hpaths, hmap⟩ => ⟨hmain, hpaths, hmap⟩, fun h => ⟨h.main, h.paths, h.map⟩⟩

theorem Manifest.tidy_default : (default : Manifest).Tidy :=
  ⟨fun _ h => absurd h (by simp [default, instInhabitedManifest.default]),
    fun _ h => absurd h List.not_mem_nil, fun _ h => absurd h List.not_mem_nil⟩

/-- A meaning with tidy paths. -/
def Meaning.Tidy : Meaning → Prop
  | .ownFile path => Target.Tidy path
  | .place target => Target.isUrl target = true
  | .package part => part.id.Tidy ∧ ∀ path ∈ part.path?, Path.Tidy path
  | .builtin name => Builtin.isBuiltin name = true
  | .emptyModule | .unknown => True

namespace Project

/-- A project whose paths are tidy: that of the folder of all packages, those of the packages that
it mentions, and the targets in the manifests of installed packages. -/
structure Tidy (p : Project) : Prop where
  packagesDir : Path.Tidy p.settings.packagesDir
  builtins : p.builtins.Tidy
  candidates : ∀ id ∈ p.candidates, id.Tidy
  manifests : ∀ id manifest, p.installation.manifest id = .ok manifest → manifest.Tidy

/-- A project is tidy if its aliases and the packages that are installed are. -/
theorem tidy_of_packages {p : Project} (hdir : Path.Tidy p.settings.packagesDir)
    (hbuiltins : p.builtins.Tidy) (hroots : ∀ id ∈ p.roots.values, id.Tidy)
    (hpackages : ∀ package ∈ p.installation.graph.packages.entries,
      (∀ id ∈ package.2.resolve.values, id.Tidy) ∧
        ∀ manifest ∈ (p.installation.manifest package.1).toOption, manifest.Tidy) : p.Tidy := by
  refine ⟨hdir, hbuiltins, fun id hid => ?_, fun id manifest hread => ?_⟩
  · rw [candidates, List.mem_toFinset, List.mem_append, List.mem_flatMap] at hid
    rcases hid with hid | ⟨package, hpackage, hid⟩
    · exact hroots id hid
    · exact (hpackages package hpackage).1 id hid
  · obtain ⟨node, hnode, -⟩ := exists_of_bind_eq_ok hread
    rw [DependencyGraph.node] at hnode
    split at hnode
    · rename_i node' hget
      refine (hpackages (id, node') (Dict.get?_eq_some_iff.1 hget)).2 manifest ?_
      rw [hread]
      rfl
    · exact absurd hnode (by simp)

/-- The project with its map elsewhere. -/
def atBase (p : Project) (base : String) : Project := { p with base }

variable {p : Project} {base : String} {id : PackageId} {file : String}

theorem Tidy.atBase (h : p.Tidy) (base : String) : (p.atBase base).Tidy :=
  ⟨h.packagesDir, h.builtins, h.candidates, h.manifests⟩

/-- The aliases of an installed package of a tidy project are for packages with tidy paths. -/
theorem Tidy.tidy_of_mem_resolve (hp : p.Tidy) {node : PackageNode}
    (hnode : p.installation.graph.node id = .ok node) : ∀ dep ∈ node.resolve.values, dep.Tidy := by
  intro dep hdep
  obtain ⟨⟨name, dep⟩, hmem, rfl⟩ := List.mem_map.1 hdep
  exact hp.candidates dep (mem_candidates_of_resolve hnode hmem)

section Targets

variable (hp : p.Tidy)
include hp

/-- The folder of all packages is found from the directory of the map. -/
theorem Tidy.head?_packages {dir : String} (hdir : dir.toList.head? ≠ some '/') :
    (Path.join dir p.settings.packagesDir).toList.head? ≠ some '/' := by
  refine Path.head?_ne_of_rootSlashes ?_
  rw [Path.rootSlashes_join _ hp.packagesDir.head?_ne, Path.rootSlashes_eq_zero hdir]

variable (hhere : p.base = ".") (hid : id.Tidy)
include hhere hid

/-- A package leads down from the directory of its project. -/
theorem Tidy.downward_packagePath : Target.Downward (p.packagePath id) := by
  have hparts : parts (Path.join p.base p.settings.packagesDir) =
      parts p.settings.packagesDir := by
    rw [Path.parts_join hp.packagesDir.head?_ne, hhere]
    rfl
  refine Target.downward_joinTarget (hp.head?_packages (by rw [hhere]; decide))
    hid.path.head?_ne ?_ ?_
  · rw [hid.path.parts_eq]
    exact List.append_ne_nil_of_right_ne_nil _ hid.inner_ne_nil
  · rw [hparts]
    exact fun seg hseg => (List.mem_append.1 hseg).elim (hp.packagesDir.isName seg)
      (hid.path.isName seg)

theorem Tidy.packageFolder_eq : p.packageFolder id = Target.withSlash (p.packagePath id) := by
  have hslash : Target.endsInSlash (p.packagePath id) = false :=
    endsInSlash_joinTarget (hp.head?_packages (by rw [hhere]; decide)) hid.path.head?_ne
      (hp.downward_packagePath hhere hid).parts_ne_nil
  rw [Target.withSlash, hslash]
  rfl

/-- A file of a package leads down from the directory of its project. -/
theorem Tidy.downward_file (hfile : Path.Tidy file) :
    Target.Downward (joinTarget (p.packagePath id) file) := by
  have hpath := hp.downward_packagePath hhere hid
  refine Target.downward_joinTarget hpath.head?_ne hfile.head?_ne
    (List.append_ne_nil_of_left_ne_nil hpath.parts_ne_nil _) fun seg hseg => ?_
  exact (List.mem_append.1 hseg).elim (hpath.isName seg) (hfile.isName seg)

theorem Tidy.downward_packageFolder : Target.Downward (p.packageFolder id) := by
  rw [hp.packageFolder_eq hhere hid]
  exact (hp.downward_packagePath hhere hid).withSlash

theorem Tidy.parts_packageFolder : parts (p.packageFolder id) = parts (p.packagePath id) := by
  rw [hp.packageFolder_eq hhere hid, parts_withSlash]

/-- **Packages whose folders have the same parts have one folder.** -/
theorem Tidy.packageFolder_eq_of_parts {id' : PackageId} (hid' : id'.Tidy)
    (h : parts (p.packageFolder id) = parts (p.packageFolder id')) :
    p.packageFolder id = p.packageFolder id' := by
  have hroot := hp.head?_packages (hhere ▸ (by decide) : p.base.toList.head? ≠ some '/')
  rw [hp.parts_packageFolder hhere hid, hp.parts_packageFolder hhere hid', packagePath, packagePath,
    parts_joinTarget_of_relative hroot hid.path.head?_ne,
    parts_joinTarget_of_relative hroot hid'.path.head?_ne] at h
  rw [packageFolder, packageFolder, packagePath, packagePath,
    joinTarget_congr hroot hid.path.head?_ne hroot hid'.path.head?_ne h]

variable (hbase : base.toList.head? ≠ some '/')
include hbase

/-- The folder of a package, seen from elsewhere. -/
theorem Tidy.packagePath_atBase :
    (p.atBase base).packagePath id = joinTarget base (p.packagePath id) := by
  refine (joinTarget_joinTarget hbase (hp.head?_packages (by rw [hhere]; decide))
    (hp.head?_packages hbase) hid.path.head?_ne ?_).symm
  rw [Path.parts_join hp.packagesDir.head?_ne, Path.parts_join hp.packagesDir.head?_ne, hhere]
  rfl

theorem Tidy.packageFolder_atBase :
    (p.atBase base).packageFolder id = seenFrom base (p.packageFolder id) := by
  have hpath := hp.downward_packagePath hhere hid
  rw [hp.packageFolder_eq hhere hid, seenFrom_withSlash hbase hpath, Target.withSlash,
    endsInSlash_joinTarget_downward hbase hpath, packageFolder,
    hp.packagePath_atBase hhere hid hbase]
  rfl

/-- **Packages with one folder, seen from elsewhere, have one folder.** -/
theorem Tidy.packageFolder_eq_of_seenFrom {id' : PackageId} (hid' : id'.Tidy)
    (h : seenFrom base (p.packageFolder id) = seenFrom base (p.packageFolder id')) :
    p.packageFolder id = p.packageFolder id' := by
  have hparts : reduce false (parts base) ++ parts (p.packageFolder id) =
      reduce false (parts base) ++ parts (p.packageFolder id') := by
    rw [← parts_seenFrom hbase (hp.downward_packageFolder hhere hid), h,
      parts_seenFrom hbase (hp.downward_packageFolder hhere hid')]
  exact hp.packageFolder_eq_of_parts hhere hid hid' (List.append_cancel_left hparts)

/-- A file of a package, seen from elsewhere. -/
theorem Tidy.file_atBase (hfile : Path.Tidy file) :
    joinTarget ((p.atBase base).packagePath id) file =
      joinTarget base (joinTarget (p.packagePath id) file) := by
  rw [hp.packagePath_atBase hhere hid hbase]
  refine (joinTarget_joinTarget hbase (p.head?_packagePath id) (head?_joinTarget _ _)
    hfile.head?_ne ?_).symm
  rw [parts_joinTarget_of_relative hbase (p.head?_packagePath id), Path.reduce_reduce]

end Targets

end Project

/-! ### Entries of both maps -/

/-- A target of a map in the directory of the project, with the same target in a map elsewhere. -/
structure Target.Mirrored (base value value' : String) : Prop where
  eq : value' = Project.seenFrom base value
  urlOrDownward : Target.UrlOrDownward value

/-- Entries with these targets. -/
structure MirroredEntries (base : String) (entries entries' : List (String × String)) : Prop where
  eq : entries' = entries.map fun e => (e.1, Project.seenFrom base e.2)
  urlOrDownward : ∀ e ∈ entries, Target.UrlOrDownward e.2

namespace MirroredEntries

variable {base : String} {entries entries' more more' : List (String × String)}

theorem nil : MirroredEntries base [] [] := ⟨rfl, fun _ h => absurd h List.not_mem_nil⟩

theorem cons {name value value' : String} (h : Target.Mirrored base value value')
    (hmore : MirroredEntries base more more') :
    MirroredEntries base ((name, value) :: more) ((name, value') :: more') :=
  ⟨by rw [List.map_cons, h.eq, hmore.eq],
    List.forall_mem_cons.2 ⟨h.urlOrDownward, hmore.urlOrDownward⟩⟩

theorem append (h : MirroredEntries base entries entries')
    (hmore : MirroredEntries base more more') :
    MirroredEntries base (entries ++ more) (entries' ++ more') :=
  ⟨by rw [List.map_append, h.eq, hmore.eq],
    List.forall_mem_append.2 ⟨h.urlOrDownward, hmore.urlOrDownward⟩⟩

theorem flatMap {α : Type} {l : List α} {f g : α → List (String × String)}
    (h : ∀ a ∈ l, MirroredEntries base (f a) (g a)) :
    MirroredEntries base (l.flatMap f) (l.flatMap g) := by
  induction l with
  | nil => exact nil
  | cons a l ih =>
      rw [List.forall_mem_cons] at h
      rw [List.flatMap_cons, List.flatMap_cons]
      exact h.1.append (ih h.2)

theorem filterMap {l : List (String × String)} {f g : String × String → Option String}
    (h : ∀ e ∈ l, Option.Rel (Target.Mirrored base) (f e) (g e)) :
    MirroredEntries base (l.filterMap fun e => (f e).map fun value => (e.1, value))
      (l.filterMap fun e => (g e).map fun value => (e.1, value)) := by
  induction l with
  | nil => exact nil
  | cons e l ih =>
      rw [List.forall_mem_cons] at h
      have hrest := ih h.2
      have hfirst := h.1
      rw [List.filterMap_cons, List.filterMap_cons]
      generalize f e = value?, g e = value'? at hfirst
      cases hfirst with
      | none => exact hrest
      | some hvalue => exact hrest.cons hvalue

/-- The dictionary of mirrored entries. -/
theorem ofList (h : MirroredEntries base entries entries') :
    Dict.ofList entries' = (Dict.ofList entries).map fun _ => Project.seenFrom base := by
  rw [h.eq, Dict.map_ofList]

end MirroredEntries

namespace Project

variable {p : Project} {base : String} {id : PackageId} {file : String}

theorem isBuiltin_of_mem {name : String} (h : name ∈ Builtin.names) :
    Builtin.isBuiltin name = true := by
  rw [Builtin.isBuiltin, List.contains_iff_mem.2 h, Bool.true_or]

/-- The files of the package of platform modules have tidy paths. -/
theorem tidy_shimFile {name : String} (h : Builtin.isBuiltin name = true) (browser : Bool) :
    Path.Tidy (Builtin.shimFile name browser) := by
  have hall : ∀ name ∈ Builtin.emptyModule :: Builtin.names, ∀ browser,
      Path.Tidy (Builtin.shimFile name browser) := by decide +kernel
  refine hall name ?_ browser
  rw [Builtin.isBuiltin, Bool.or_eq_true, List.contains_iff_mem, beq_iff_eq] at h
  exact List.mem_cons.2 h.symm

/-- What follows an alias in a tidy target is tidy. -/
theorem tidy_of_matchAlias? {target : String} {aliases : Dict String PackageId}
    {part : PackagePart} (h : Path.Tidy target)
    (hdot : ∀ rest, target.toList ≠ '.' :: '/' :: rest)
    (hpart : matchAlias? target aliases = some part) :
    part.id ∈ aliases.values ∧ ∀ path ∈ part.path?, Path.Tidy path := by
  have hvalue : ∀ {name : String} {id : PackageId}, aliases.get? name = some id →
      id ∈ aliases.values := fun hget =>
    List.mem_map.2 ⟨_, Dict.get?_eq_some_iff.1 hget, rfl⟩
  rw [matchAlias?] at hpart
  cases hget : aliases.get? target with
  | some id =>
      rw [hget] at hpart
      obtain rfl := Option.some.inj hpart
      exact ⟨hvalue hget, fun path hpath => absurd hpath (by simp)⟩
  | none =>
      simp only [hget] at hpart
      cases hal : aliasesOf target aliases with
      | nil => exact absurd hpart (by simp [hal])
      | cons first more =>
          simp only [hal, Option.map_eq_some_iff] at hpart
          obtain ⟨id, hid, rfl⟩ := hpart
          obtain ⟨hmem, -⟩ := foldl_longer_spec first more
          rw [← hal] at hmem
          obtain ⟨rest, hrest⟩ := (mem_aliasesOf.1 hmem).2
          generalize more.foldl longer first = name at *
          rw [String.toList_append, List.append_assoc] at hrest
          have hdrop : target.toList.drop (name.length + 1) = rest := by
            rw [← hrest, ← String.length_toList, List.drop_length_add_append]
            rfl
          refine ⟨hvalue hid, fun path hpath => ?_⟩
          obtain rfl := Option.some.inj hpath
          rw [hdrop]
          exact @Path.Tidy.of_append target name _ h hdot (by
            rw [String.toList_ofList]
            exact hrest.symm)

/-- **What a tidy target means is tidy.** -/
theorem Tidy.tidy_meaning (hp : p.Tidy) {node : PackageNode} {target : String}
    (hnode : ∀ dep ∈ node.resolve.values, dep.Tidy) (htarget : Target.Tidy target) :
    (p.meaning node target).Tidy := by
  rw [meaning]
  split
  · trivial
  split
  · exact htarget
  rename_i hown
  split
  · rename_i hplace
    rw [Target.isUrlOrRooted, Target.isRooted, Bool.or_eq_true, beq_iff_eq] at hplace
    exact htarget.elim (fun hurl => hurl) fun htidy => hplace.resolve_left htidy.head?_ne
  rename_i hplace
  have hdot : ∀ rest, target.toList ≠ '.' :: '/' :: rest := fun rest hrest =>
    hown (by rw [hrest]; rfl)
  have htidy : Path.Tidy target := htarget.resolve_left fun hurl =>
    hplace (by rw [Target.isUrlOrRooted, hurl, Bool.or_true])
  cases hpart : (matchAlias? target node.resolve).or (matchAlias? target p.roots) with
  | none =>
      dsimp only
      split
      · assumption
      · trivial
  | some part =>
      rcases Option.or_eq_some_iff.1 hpart with hpart | ⟨-, hpart⟩
      · obtain ⟨hmem, hpath⟩ := tidy_of_matchAlias? htidy hdot hpart
        exact ⟨hnode _ hmem, hpath⟩
      · obtain ⟨hmem, hpath⟩ := tidy_of_matchAlias? htidy hdot hpart
        obtain ⟨root, hroot, heq⟩ := List.mem_map.1 hmem
        exact ⟨hp.candidates _ (heq ▸ mem_candidates_of_roots hroot), hpath⟩

section Entries

variable (hp : p.Tidy) (hhere : p.base = ".") (hbase : base.toList.head? ≠ some '/')
include hp hhere hbase

theorem Tidy.mirrored_file (hid : id.Tidy) (hfile : Path.Tidy file) :
    Target.Mirrored base (joinTarget (p.packagePath id) file)
      (joinTarget ((p.atBase base).packagePath id) file) := by
  have hdown := hp.downward_file hhere hid hfile
  refine ⟨?_, Or.inr hdown⟩
  rw [hp.file_atBase hhere hid hbase hfile, seenFrom_of_file hdown]
  exact endsInSlash_joinTarget (p.head?_packagePath id) hfile.head?_ne hdown.parts_ne_nil

theorem Tidy.mirrored_shimPath {name : String} (h : Builtin.isBuiltin name = true) :
    Target.Mirrored base (p.shimPath name) ((p.atBase base).shimPath name) :=
  hp.mirrored_file hhere hbase hp.builtins (tidy_shimFile h _)

/-- **The target for a file of a package, seen from elsewhere.** -/
theorem Tidy.mirrored_packageFile (hid : id.Tidy) (hfile : Target.Tidy file) :
    Target.Mirrored base (p.packageFile id file) ((p.atBase base).packageFile id file) := by
  rw [packageFile, packageFile]
  split
  · exact hp.mirrored_shimPath hhere hbase (by decide +kernel)
  split
  · rename_i hurl
    exact ⟨(seenFrom_of_isUrl hurl).symm, Or.inl hurl⟩
  · rename_i hurl
    have htidy := hfile.resolve_left hurl
    have hmirrored := hp.mirrored_file hhere hbase hid htidy
    have hdown := hp.downward_file hhere hid htidy
    dsimp only
    split
    · refine ⟨?_, Or.inr hdown.withSlash⟩
      rw [seenFrom_withSlash hbase hdown, hp.file_atBase hhere hid hbase htidy]
    · exact hmirrored

theorem Tidy.mirrored_packageFolder (hid : id.Tidy) :
    Target.Mirrored base (p.packageFolder id) ((p.atBase base).packageFolder id) := by
  refine ⟨hp.packageFolder_atBase hhere hid hbase, Or.inr ?_⟩
  rw [hp.packageFolder_eq hhere hid]
  exact (hp.downward_packagePath hhere hid).withSlash

theorem Tidy.mirrored_mainFile (hid : id.Tidy) {manifest : Manifest} (hm : manifest.Tidy) :
    Target.Mirrored base (p.mainFile id manifest) ((p.atBase base).mainFile id manifest) := by
  refine hp.mirrored_packageFile hhere hbase hid ?_
  cases hmain : Manifest.nonempty? (manifest.main?.getD "") with
  | none => exact Or.inr (by decide +kernel)
  | some main =>
      rw [Manifest.nonempty?, Option.filter_eq_some_iff, Option.some.injEq] at hmain
      obtain ⟨rfl, hne⟩ := hmain
      cases hm' : manifest.main? with
      | none => rw [hm'] at hne; exact absurd hne (by decide)
      | some main => exact hm.main main hm'

/-- **The entries for a package, seen from elsewhere.** -/
theorem Tidy.mirrored_packageEntries (name : String) (hid : id.Tidy) {manifest : Manifest}
    (hm : manifest.Tidy) : MirroredEntries base (p.packageEntries name id manifest)
      ((p.atBase base).packageEntries name id manifest) := by
  refine .cons (hp.mirrored_mainFile hhere hbase hid hm)
    (.cons (hp.mirrored_packageFolder hhere hbase hid) ?_)
  rw [← List.flatMap_pure_eq_map, ← List.flatMap_pure_eq_map]
  refine .flatMap fun e he => .cons (hp.mirrored_packageFile hhere hbase hid ?_) .nil
  exact hm.paths e.2 (List.mem_map_of_mem he)

/-- The target for a part of a package, seen from elsewhere. -/
theorem Tidy.mirrored_partTarget {part : PackagePart} (hid : part.id.Tidy)
    (hpart : ∀ path ∈ part.path?, Path.Tidy path) {manifest : Manifest} (hm : manifest.Tidy) :
    Target.Mirrored base (p.partTarget part manifest)
      ((p.atBase base).partTarget part manifest) := by
  rw [partTarget, partTarget]
  cases hpath : part.path? with
  | none => exact hp.mirrored_mainFile hhere hbase hid hm
  | some path =>
      dsimp only
      split
      · exact hp.mirrored_packageFolder hhere hbase hid
      · refine hp.mirrored_packageFile hhere hbase hid ?_
        rw [Dict.getD_eq]
        cases hget : manifest.paths.get? path with
        | none => exact Or.inr (hpart path hpath)
        | some file =>
            exact hm.paths file (List.mem_map.2 ⟨(path, file), Dict.get?_eq_some_iff.1 hget, rfl⟩)

/-- **The target for a meaning, seen from elsewhere.** -/
theorem Tidy.mirrored_meaningTarget? {manifestOf : PackageId → Manifest} {meaning : Meaning}
    (hid : id.Tidy) (hm : ∀ id, (manifestOf id).Tidy) (hmeaning : meaning.Tidy) :
    Option.Rel (Target.Mirrored base) (p.meaningTarget? manifestOf id meaning)
      ((p.atBase base).meaningTarget? manifestOf id meaning) := by
  cases meaning with
  | emptyModule => exact .some (hp.mirrored_shimPath hhere hbase (by decide +kernel))
  | ownFile path => exact .some (hp.mirrored_packageFile hhere hbase hid hmeaning)
  | place target => exact .some ⟨(seenFrom_of_isUrl hmeaning).symm, Or.inl hmeaning⟩
  | package part =>
      exact .some (hp.mirrored_partTarget hhere hbase hmeaning.1 hmeaning.2 (hm _))
  | builtin name => exact .some (hp.mirrored_shimPath hhere hbase hmeaning)
  | unknown => exact .none

/-- **The scope of a package, seen from elsewhere.** -/
theorem Tidy.mirrored_scopeEntries {manifestOf : PackageId → Manifest} {node : PackageNode}
    (hid : id.Tidy) (hnode : ∀ dep ∈ node.resolve.values, dep.Tidy)
    (hm : ∀ id, (manifestOf id).Tidy) :
    MirroredEntries base
      (p.ownEntries manifestOf id ++ p.aliasEntries manifestOf node ++
        p.meaningEntries manifestOf id node)
      ((p.atBase base).ownEntries manifestOf id ++ (p.atBase base).aliasEntries manifestOf node ++
        (p.atBase base).meaningEntries manifestOf id node) := by
  refine .append (.append ?_ (.flatMap fun e he => ?_)) (.filterMap fun e he => ?_)
  · rw [ownEntries, ownEntries]
    split
    · exact hp.mirrored_packageEntries hhere hbase _ hid (hm id)
    · exact .nil
  · have hdep := hnode e.2 (List.mem_map_of_mem (Dict.mem_entries_filter.1 he).1)
    have hentries := hp.mirrored_packageEntries hhere hbase e.1 hdep (hm e.2)
    by_cases hroot : p.roots.get? e.1 = some e.2
    · have hroot' : (p.atBase base).roots.get? e.1 = some e.2 := hroot
      simp only [hroot, hroot', if_true]
      exact .nil
    · have hroot' : (p.atBase base).roots.get? e.1 ≠ some e.2 := hroot
      simpa only [hroot, hroot', if_false] using hentries
  · exact hp.mirrored_meaningTarget? hhere hbase hid hm
      (hp.tidy_meaning hnode ((hm id).map _ (List.mem_map_of_mem he)))

end Entries

end Project

end ImportAtlas
