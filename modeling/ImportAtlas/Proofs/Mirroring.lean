import ImportAtlas.Proofs.Availability
import ImportAtlas.Proofs.Rebasing
import ImportAtlas.Proofs.TidyProjects
import ImportAtlas.Proofs.Visits

/-!
# Builds for maps elsewhere

A build does the same tasks wherever its map is. What it writes for a map in another directory is,
entry by entry and scope by scope, what it writes for a map in the directory of the project, seen
from there.

## Summary

* `Build.Mirrors`: a build of a tidy project, with the map that it has so far when it is made for a
  map elsewhere.

## Main results

* `Build.stepsAlike_perform`, `Build.stepsAlike_run`: a task is done alike, and so is a run.
* `Project.Tidy.uncleaned_atBase`: the map of a build for a map elsewhere.
-/

namespace ImportAtlas

open Project (seenFrom)

namespace Build

variable {p : Project} {base : String} {build : Build} {map' : ImportMap} {id : PackageId}
  {node : PackageNode}

/-- A build of a project, with the map that it has so far when it is made for a map elsewhere. -/
structure Mirrors (p : Project) (base : String) (build : Build) (map' : ImportMap) : Prop where
  /-- The other map is this one, seen from its directory. -/
  respelled : ImportMap.Respelled (seenFrom base) build.map map'
  /-- Scopes are those of packages. -/
  folders : ∀ q ∈ build.map.scopes.keys, ∃ id : PackageId, id.Tidy ∧ q = p.packageFolder id
  /-- Readings have the results that the installation gives. -/
  faithful : build.reader.Faithful p.installation
  /-- The tasks on the agenda are about reachable packages. -/
  due : ∀ task ∈ build.agenda, task.Due p

/-- A step of a build that does the same when its map is elsewhere. -/
def StepsAlike (p : Project) (base : String) (build : Build) (step : Project → Build → Build) :
    Prop :=
  ∀ map', build.Mirrors p base map' → ∃ next',
    step (p.atBase base) { build with map := map' } = { step p build with map := next' } ∧
      (step p build).Mirrors p base next'

theorem tidy_manifestOf (hp : p.Tidy) (hf : build.reader.Faithful p.installation)
    (id : PackageId) : (build.manifestOf id).Tidy := by
  rw [Build.manifestOf, Build.manifest?]
  cases hresult : build.reader.result? id with
  | none => exact Manifest.tidy_default
  | some result =>
      cases result with
      | error error => exact Manifest.tidy_default
      | ok manifest => exact hp.manifests id manifest (hf id _ hresult).symm

/-- Waits for manifests and goes on, unless one of them is at fault. -/
def awaitThen (p : Project) (build : Build) (ids : List PackageId) (next : Build → Build) : Build :=
  match (build.await p ids).faultOf ids with
  | some error => { build.await p ids with fault? := some error }
  | none => next (build.await p ids)

/-- Adds the entries for an alias whose manifest has been read. -/
def addRoot (p : Project) (build : Build) (name : String) (id : PackageId) : Build :=
  reach p { build with map := { build.map with
    imports := build.map.imports.insertMany (p.packageEntries name id (build.manifestOf id)) } } id

theorem perform_root_eq (p : Project) (build : Build) (name : String) (id : PackageId) :
    build.perform p (.root name id) =
      build.awaitThen p [id] fun build => build.addRoot p name id := rfl

theorem populate_eq (p : Project) (build : Build) (id : PackageId) (node : PackageNode) :
    build.populate p id node = build.awaitThen p (id :: (p.dependencies node).values) fun build =>
      build.awaitThen p (p.meantPackages (build.manifestOf id) node) fun build =>
        build.addScope p id node := rfl

/-- Steps that go on alike wait alike. -/
theorem stepsAlike_awaitThen (ids : List PackageId) {next : Project → Build → Build}
    (hnext : (build.await p ids).StepsAlike p base next) :
    build.StepsAlike p base fun p build => build.awaitThen p ids (next p) := by
  intro map' h
  have hfaults : (({ build with map := map' } : Build).await (p.atBase base) ids).faultOf ids =
      (build.await p ids).faultOf ids := rfl
  have hread : (build.await p ids).Mirrors p base map' :=
    ⟨h.respelled, h.folders, h.faithful.getAll ids, h.due⟩
  simp only [awaitThen, hfaults]
  cases (build.await p ids).faultOf ids with
  | some error => exact ⟨map', rfl, hread.respelled, hread.folders, hread.faithful, hread.due⟩
  | none => exact hnext map' hread

section Steps

variable (hp : p.Tidy) (hhere : p.base = ".") (hbase : base.toList.head? ≠ some '/')
include hp hhere hbase

/-- The scope of a package is added to both maps. -/
theorem stepsAlike_addScope (hid : p.Reachable id)
    (hnode : p.installation.graph.node id = .ok node) :
    build.StepsAlike p base fun p build => build.addScope p id node := by
  intro map' h
  have htidy : id.Tidy := hp.candidates id hid.mem_candidates
  have hentries : (p.atBase base).scopeEntries build.manifestOf id node =
      (p.scopeEntries build.manifestOf id node).respell (seenFrom base) :=
    (hp.mirrored_scopeEntries hhere hbase htidy (hp.tidy_of_mem_resolve hnode)
      (tidy_manifestOf hp h.faithful)).ofList
  have hfolder : (p.atBase base).packageFolder id = seenFrom base (p.packageFolder id) :=
    hp.packageFolder_atBase hhere htidy hbase
  have hinj : ∀ q ∈ build.map.scopes.keys, seenFrom base q = seenFrom base (p.packageFolder id) →
      q = p.packageFolder id := by
    intro q hq heq
    obtain ⟨id', hid', rfl⟩ := h.folders q hq
    exact hp.packageFolder_eq_of_seenFrom hhere hid' hbase htidy heq
  have hsame : ∀ map', ({ build with map := map' } : Build).manifestOf = build.manifestOf :=
    fun _ => rfl
  simp only [addScope, hsame, hentries, hfolder, Imports.isEmpty_respell]
  cases hempty : (p.scopeEntries build.manifestOf id node).isEmpty with
  | true => exact ⟨map', rfl, h.respelled, h.folders, h.faithful, h.due⟩
  | false =>
      refine ⟨_, rfl, h.respelled.setScope hinj _, fun q hq => ?_, h.faithful, h.due⟩
      rcases Dict.mem_keys_insert.1 hq with rfl | hq
      · exact ⟨id, htidy, rfl⟩
      · exact h.folders q hq

/-- **The scope of a package is written alike.** -/
theorem stepsAlike_populate (hid : p.Reachable id)
    (hnode : p.installation.graph.node id = .ok node) :
    build.StepsAlike p base fun p build => build.populate p id node := by
  intro map' h
  simp only [populate_eq]
  exact stepsAlike_awaitThen (id :: (p.dependencies node).values)
    (stepsAlike_awaitThen (p.meantPackages ((build.await p
      (id :: (p.dependencies node).values)).manifestOf id) node)
        (stepsAlike_addScope hp hhere hbase hid hnode)) map' h

/-- **A package is reached alike.** -/
theorem stepsAlike_reach (hid : p.Reachable id) :
    build.StepsAlike p base fun p build => build.reach p id := by
  intro map' h
  have hgraph : (p.atBase base).installation = p.installation := rfl
  have hdeps : ∀ node, (p.atBase base).dependencies node = p.dependencies node := fun _ => rfl
  simp only [reach, hgraph, hdeps]
  split
  · exact ⟨map', rfl, h⟩
  cases hnode : p.installation.graph.node id with
  | error error => exact ⟨map', rfl, h.respelled, h.folders, h.faithful, h.due⟩
  | ok node =>
      have hseen : ({ build with seen := build.seen ++ [id] } : Build).Mirrors p base map' :=
        ⟨h.respelled, h.folders, h.faithful, h.due⟩
      dsimp only
      split
      · exact stepsAlike_populate hp hhere hbase hid hnode map' hseen
      · refine ⟨map', rfl, h.respelled, h.folders, h.faithful, fun task htask => ?_⟩
        rcases List.mem_append.1 htask with htask | htask
        · exact h.due task htask
        · rw [List.mem_singleton.1 htask]
          exact ⟨hid, hnode⟩

theorem stepsAlike_foldl_reach {ids : List PackageId} (hids : ∀ id ∈ ids, p.Reachable id) :
    build.StepsAlike p base fun p build => ids.foldl (reach p) build := by
  induction ids generalizing build with
  | nil => exact fun map' h => ⟨map', rfl, h⟩
  | cons id ids ih =>
      intro map' h
      rw [List.forall_mem_cons] at hids
      obtain ⟨next', heq, hnext⟩ := stepsAlike_reach hp hhere hbase hids.1 map' h
      simp only [List.foldl_cons, heq]
      exact ih hids.2 next' hnext

/-- The entries for an alias are added to both maps. -/
theorem stepsAlike_addRoot (name : String) (hid : p.Reachable id) :
    build.StepsAlike p base fun p build => build.addRoot p name id := by
  intro map' h
  have hm := tidy_manifestOf hp h.faithful id
  have hentries :=
    (hp.mirrored_packageEntries hhere hbase name (hp.candidates id hid.mem_candidates) hm).eq
  have himports : map'.imports.insertMany
      ((p.atBase base).packageEntries name id (build.manifestOf id)) =
        Imports.respell (seenFrom base)
          (build.map.imports.insertMany (p.packageEntries name id (build.manifestOf id))) := by
    rw [hentries, h.respelled.imports_eq, Imports.respell, Imports.respell, Dict.map_insertMany]
  have hadded : Mirrors p base
      { build with map := ⟨build.map.imports.insertMany
        (p.packageEntries name id (build.manifestOf id)), build.map.scopes⟩ }
      ⟨map'.imports.insertMany ((p.atBase base).packageEntries name id (build.manifestOf id)),
        map'.scopes⟩ :=
    ⟨⟨himports, h.respelled.entries_scopes⟩, h.folders, h.faithful, h.due⟩
  exact stepsAlike_reach hp hhere hbase hid _ hadded

/-- **A task is done alike.** -/
theorem stepsAlike_perform {task : Project.Task} (hdue : task.Due p) :
    build.StepsAlike p base fun p build => build.perform p task := by
  cases task with
  | root name id =>
      intro map' h
      simp only [perform_root_eq]
      exact stepsAlike_awaitThen [id] (stepsAlike_addRoot hp hhere hbase name hdue) map' h
  | scope id node =>
      intro map' h
      obtain ⟨hid, hnode⟩ := hdue
      obtain ⟨next', heq, hnext⟩ := stepsAlike_populate hp hhere hbase hid hnode map' h
      simp only [perform, heq]
      exact stepsAlike_foldl_reach hp hhere hbase (fun dep => .dependency hid hnode) next' hnext

/-- **A run does the same tasks.** -/
theorem stepsAlike_run (budget : Nat) :
    build.StepsAlike p base fun p build => build.run p budget := by
  induction budget generalizing build with
  | zero => exact fun map' h => ⟨map', rfl, h⟩
  | succ budget ih =>
      intro map' h
      simp only [run]
      split
      · exact ⟨map', rfl, h⟩
      cases hagenda : build.agenda with
      | nil =>
          refine ⟨map', ?_, h⟩
          dsimp only
          rw [hagenda]
      | cons task agenda =>
          have hdue := h.due
          rw [hagenda, List.forall_mem_cons] at hdue
          have hrest : ({ build with agenda } : Build).Mirrors p base map' :=
            ⟨h.respelled, h.folders, h.faithful, hdue.2⟩
          obtain ⟨next', heq, hnext⟩ := stepsAlike_perform hp hhere hbase hdue.1 map' hrest
          simp only [heq]
          exact ih next' hnext

end Steps

theorem mirrors_start (p : Project) (base : String) : (start p).Mirrors p base ∅ where
  respelled := .empty _
  folders _ hq := absurd hq List.not_mem_nil
  faithful := ManifestReader.faithful_empty p.installation
  due task htask := by
    obtain ⟨⟨name, id⟩, hroot, rfl⟩ := List.mem_map.1 htask
    exact .root (p.perm_arrivals.mem_iff.1 hroot)

end Build

namespace Project

variable {p : Project} {base : String}

/-- A table with entries for the platform modules among some names. -/
def withShims (p : Project) (names : List String) (imports : Imports) : Imports :=
  names.foldl (fun imports name =>
    if imports.contains name then imports else imports.insert name (p.shimPath name)) imports

theorem addBuiltins_eq (p : Project) (map : ImportMap) :
    Build.addBuiltins p map = ⟨p.withShims Builtin.names map.imports, map.scopes⟩ := by
  rw [Build.addBuiltins, withShims]

/-- Platform modules are added to both maps. -/
theorem Tidy.withShims_atBase (hp : p.Tidy) (hhere : p.base = ".")
    (hbase : base.toList.head? ≠ some '/') {names : List String} (imports : Imports)
    (hnames : ∀ name ∈ names, Builtin.isBuiltin name = true) :
    (p.atBase base).withShims names (imports.respell (seenFrom base)) =
      (p.withShims names imports).respell (seenFrom base) := by
  induction names generalizing imports with
  | nil => rfl
  | cons name names ih =>
      rw [List.forall_mem_cons] at hnames
      have hfirst : (if (imports.respell (seenFrom base)).contains name
            then imports.respell (seenFrom base)
            else Dict.insert (imports.respell (seenFrom base)) name
              ((p.atBase base).shimPath name)) =
          Imports.respell (seenFrom base) (if imports.contains name then imports
            else Dict.insert imports name (p.shimPath name)) := by
        rw [Dict.contains, Imports.keys_respell, ← Dict.contains]
        split
        · rfl
        · rw [(hp.mirrored_shimPath hhere hbase hnames.1).eq]
          exact (Dict.map_insert _ imports name _).symm
      rw [withShims, List.foldl_cons, hfirst]
      exact ih _ hnames.2

/-- **The map of a build for a map elsewhere** is that of the build for a map in the directory of
the project, seen from there. The two fail alike. -/
theorem Tidy.uncleaned_atBase (hp : p.Tidy) (hhere : p.base = ".")
    (hbase : base.toList.head? ≠ some '/') :
    (p.atBase base).finalBuild.fault? = p.finalBuild.fault? ∧
      ImportMap.Respelled (seenFrom base) p.uncleaned (p.atBase base).uncleaned := by
  obtain ⟨map', heq, hmirrors⟩ :=
    Build.stepsAlike_run hp hhere hbase p.taskLimit ∅ (Build.mirrors_start p base)
  have hfinal : (p.atBase base).finalBuild = { p.finalBuild with map := map' } := heq
  have hrespelled : ImportMap.Respelled (seenFrom base) p.finalBuild.map map' :=
    hmirrors.respelled
  have hsettings : (p.atBase base).settings = p.settings := rfl
  refine ⟨by rw [hfinal], ?_⟩
  rw [uncleaned, uncleaned, hfinal, hsettings]
  split
  · rw [addBuiltins_eq, addBuiltins_eq]
    refine ⟨?_, hrespelled.entries_scopes⟩
    dsimp only
    rw [hrespelled.imports_eq, hp.withShims_atBase hhere hbase _ fun _ => isBuiltin_of_mem]
  · exact hrespelled

/-! ### The map of a tidy project -/

section Values

variable (hp : p.Tidy) (hfault : p.finalBuild.fault? = none)

theorem Tidy.tidy_manifestOf (hp : p.Tidy) (id : PackageId) : (p.manifestOf id).Tidy := by
  rw [manifestOf]
  cases hresult : p.installation.manifest id with
  | error error => exact Manifest.tidy_default
  | ok manifest => exact hp.manifests id manifest hresult

include hp hfault

/-- The scopes of the map are those of packages with tidy paths. -/
theorem Tidy.exists_folder {q : String} (hq : q ∈ p.uncleaned.scopes.keys) :
    ∃ id : PackageId, id.Tidy ∧ q = p.packageFolder id := by
  obtain ⟨entries, hentries⟩ := Dict.mem_keys_iff.1 hq
  obtain ⟨package, hpackage, -, rfl, -⟩ := exists_of_get?_scopes_uncleaned hfault hentries
  exact ⟨package.1, hp.candidates _ hpackage.reaches.reachable.mem_candidates, rfl⟩

/-- **The targets of the map are URLs or lead down**, and so do the prefixes of its scopes. -/
theorem Tidy.urlOrDownward_uncleaned (hhere : p.base = ".") :
    ∀ value ∈ p.uncleaned.values, Target.UrlOrDownward value := by
  have hhead : p.base.toList.head? ≠ some '/' := by rw [hhere]; decide
  intro value hvalue
  rcases ImportMap.mem_values.1 hvalue with htop | ⟨⟨q, entries⟩, he, hscope⟩
  · obtain ⟨⟨k, v⟩, hmem, rfl⟩ := List.mem_map.1 htop
    have hget := Dict.get?_eq_some_iff.2 hmem
    rw [get?_imports_uncleaned, Option.or_eq_some_iff] at hget
    rcases hget with hget | ⟨-, hshim⟩
    · obtain ⟨roots, packages, hc, hmap⟩ := exists_complete_of_finalBuild hfault
      rw [hmap, draft] at hget
      obtain ⟨root, hroot, hentry⟩ := List.mem_flatMap.1 (Dict.mem_of_get?_ofList hget)
      have hid : p.Reachable root.2 := .root (hc.perm_roots.mem_iff.1 hroot)
      exact (hp.mirrored_packageEntries hhere hhead root.1
        (hp.candidates _ hid.mem_candidates) (hp.tidy_manifestOf root.2)).urlOrDownward _ hentry
    · obtain ⟨⟨-, hname⟩, hshim⟩ := Option.ite_none_right_eq_some.1 hshim
      have hurl := (hp.mirrored_shimPath hhere hhead (isBuiltin_of_mem hname)).urlOrDownward
      rwa [Option.some.inj hshim] at hurl
  · obtain ⟨package, hpackage, -, rfl, rfl⟩ :=
      exists_of_get?_scopes_uncleaned hfault (Dict.get?_eq_some_iff.2 he)
    have hid := hpackage.reaches.reachable
    have htidy := hp.candidates _ hid.mem_candidates
    rcases hscope with rfl | hscope
    · exact (hp.mirrored_packageFolder hhere hhead htidy).urlOrDownward
    · obtain ⟨⟨k, v⟩, hmem, rfl⟩ := List.mem_map.1 hscope
      exact (hp.mirrored_scopeEntries hhere hhead htidy
        (hp.tidy_of_mem_resolve hpackage.node_eq) hp.tidy_manifestOf).urlOrDownward _
          (Dict.mem_of_get?_ofList (Dict.get?_eq_some_iff.2 hmem))

end Values

end Project

end ImportAtlas
