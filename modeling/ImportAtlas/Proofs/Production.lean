import ImportAtlas.Proofs.Visits

/-!
# Maps for production

A map for production is made for the aliases of a project that are not for development only. Its
build looks up packages that these aliases lead to, through aliases of packages, and reads their
manifests; it looks at nothing else of the lock file or of the files. So projects that agree on
those packages have the same builds, however they differ otherwise.

## Summary

* `DependencyGraph.Leads`: the packages that some aliases lead to, through all aliases of packages.
* `Project.withPackages` is a project with another lock file and other files.
* `Project.Alike` says that these agree on packages that contain all that aliases lead to.
* `Stage.EndsWith` is the result of a build that ends at a stage.

## Main results

* `Project.Alike.turn_iff`, `Project.Alike.steps_iff`: the same steps, in every order.
* `Project.Alike.finalBuild_eq`: the same last state of the build that runs.
* `Project.production_independent`: maps for production do not depend on packages for development.
-/

namespace ImportAtlas

open Relation

/-- The packages that some aliases lead to, through all aliases of packages. -/
inductive DependencyGraph.Leads (graph : DependencyGraph) (aliases : Dict String PackageId) :
    PackageId → Prop
  | root {name : String} {id : PackageId} (hroot : (name, id) ∈ aliases.entries) :
      Leads graph aliases id
  | dependency {id dep : PackageId} {name : String} {node : PackageNode}
      (hid : Leads graph aliases id) (hnode : graph.packages.get? id = some node)
      (hdep : (name, dep) ∈ node.resolve.entries) : Leads graph aliases dep

/-- A package is found by its name. -/
theorem DependencyGraph.node_eq_ok_iff {graph : DependencyGraph} {id : PackageId}
    {node : PackageNode} : graph.node id = .ok node ↔ graph.packages.get? id = some node := by
  rw [DependencyGraph.node]
  cases graph.packages.get? id <;> simp

/-- What ends at a stage: a build whose writers have all written, with its map, or one with a
writer that cannot go on, with the error of a manifest that it waits for or of a package that it
leads to. -/
inductive Stage.EndsWith (p : Project) (s : Stage) : Except Error ImportMap → Prop
  | finished (hfinished : s.Finished) : EndsWith p s (.ok (p.completed s.map))
  | unreadable {id : PackageId} {error : Error} (hasks : Stage.Asks p s id)
      (hresult : s.reader.result? id = some (.error error)) : EndsWith p s (.error error)
  | missing {id : PackageId} {error : Error} (hreached : id ∈ s.reached) (hseen : id ∉ s.seen)
      (hnode : p.installation.graph.node id = .error error) : EndsWith p s (.error error)

namespace Project

/-- A project with another lock file and other files. -/
def withPackages (p : Project) (graph : DependencyGraph) (files : FileTree) : Project :=
  { p with installation := { p.installation with graph, files } }

theorem manifestPath_withPackages (p : Project) (graph : DependencyGraph) (files : FileTree)
    (id : PackageId) : (p.withPackages graph files).installation.manifestPath id =
      p.installation.manifestPath id := by
  simp only [Installation.manifestPath, Installation.packageFolder, withPackages]

/-- Whether another lock file and other files agree with those of a project on some packages, which
are all that its aliases lead to. -/
structure Alike (p : Project) (graph : DependencyGraph) (files : FileTree)
    (near : Set PackageId) : Prop where
  /-- The packages of the project's aliases are among them. -/
  roots : ∀ e ∈ p.roots.entries, e.2 ∈ near
  /-- So are those of the aliases of any of them. -/
  dependencies : ∀ id ∈ near, ∀ node, p.installation.graph.packages.get? id = some node →
    ∀ e ∈ node.resolve.entries, e.2 ∈ near
  /-- They are the same packages. -/
  nodes : ∀ id ∈ near, graph.packages.get? id = p.installation.graph.packages.get? id
  /-- Their files have the same texts. -/
  texts : ∀ id ∈ near, files.readText (p.installation.manifestPath id) =
    p.installation.files.readText (p.installation.manifestPath id)

namespace Alike

variable {p : Project} {graph : DependencyGraph} {files : FileTree} {near : Set PackageId}
  {id : PackageId} {node : PackageNode} {reader : ManifestReader}

/-! ### The same packages -/

theorem symm (h : p.Alike graph files near) :
    (p.withPackages graph files).Alike p.installation.graph p.installation.files near where
  roots := h.roots
  dependencies id hid node hnode := h.dependencies id hid node ((h.nodes id hid).symm.trans hnode)
  nodes id hid := (h.nodes id hid).symm
  texts id hid := by
    rw [manifestPath_withPackages]
    exact (h.texts id hid).symm

theorem node_eq (h : p.Alike graph files near) (hid : id ∈ near) :
    graph.node id = p.installation.graph.node id := by
  rw [DependencyGraph.node, DependencyGraph.node, h.nodes id hid]

theorem needsFile_eq (h : p.Alike graph files near) (hid : id ∈ near) :
    (p.withPackages graph files).installation.needsFile id = p.installation.needsFile id := by
  rw [Installation.needsFile, Installation.needsFile, withPackages]
  simp only [h.nodes id hid]

theorem manifest_eq (h : p.Alike graph files near) (hid : id ∈ near) :
    (p.withPackages graph files).installation.manifest id = p.installation.manifest id := by
  have hfiles : (p.withPackages graph files).installation.files = files := rfl
  have htext : (p.withPackages graph files).installation.files.readText
      ((p.withPackages graph files).installation.manifestPath id) =
        p.installation.files.readText (p.installation.manifestPath id) := by
    rw [manifestPath_withPackages, hfiles, h.texts id hid]
  have hread : (p.withPackages graph files).installation.readDescription id =
      p.installation.readDescription id := by
    unfold Installation.readDescription
    rw [htext]
  rw [Installation.manifest, Installation.manifest, hread]
  simp only [withPackages, h.node_eq hid]

/-! ### The same readings -/

theorem request_eq (h : p.Alike graph files near) (hid : id ∈ near) (reader : ManifestReader) :
    reader.request (p.withPackages graph files).installation id =
      reader.request p.installation id := by
  rw [ManifestReader.request, ManifestReader.request, h.needsFile_eq hid]

theorem finish_eq (h : p.Alike graph files near) (hid : id ∈ near) (reader : ManifestReader) :
    reader.finish (p.withPackages graph files).installation id =
      reader.finish p.installation id := by
  rw [ManifestReader.finish, ManifestReader.finish, h.manifest_eq hid]

theorem getAll_eq (h : p.Alike graph files near) {ids : List PackageId}
    (hids : ∀ id ∈ ids, id ∈ near) (reader : ManifestReader) :
    reader.getAll (p.withPackages graph files).installation ids =
      reader.getAll p.installation ids := by
  have hrequest : ∀ reader : ManifestReader,
      ids.foldl (ManifestReader.request (p.withPackages graph files).installation) reader =
        ids.foldl (ManifestReader.request p.installation) reader := fun reader =>
    List.foldl_ext _ _ _ fun reader id hid => h.request_eq (hids id hid) reader
  rw [ManifestReader.getAll, ManifestReader.getAll, hrequest]
  exact List.foldl_ext _ _ _ fun reader id hid => h.finish_eq (hids id hid) reader

/-! ### Where aliases lead -/

theorem mem_of_dependencies (h : p.Alike graph files near) (hid : id ∈ near)
    (hnode : p.installation.graph.node id = .ok node) :
    ∀ dep ∈ (p.dependencies node).values, dep ∈ near := by
  intro dep hdep
  obtain ⟨e, he, rfl⟩ := List.mem_map.1 hdep
  exact h.dependencies id hid node (DependencyGraph.node_eq_ok_iff.1 hnode) e
    (Dict.mem_entries_filter.1 he).1

/-- A package that is meant is one that an alias stands for. -/
theorem mem_of_meant (h : p.Alike graph files near) (hid : id ∈ near)
    (hnode : p.installation.graph.node id = .ok node) (manifest : Manifest) :
    ∀ dep ∈ p.meantPackages manifest node, dep ∈ near := by
  intro dep hdep
  rw [meantPackages, List.mem_filterMap] at hdep
  obtain ⟨⟨specifier, target⟩, -, hpart⟩ := hdep
  cases hmeans : p.meaning node target with
  | package part =>
      simp only [hmeans, Option.some.injEq] at hpart
      subst hpart
      obtain ⟨-, halias | ⟨-, halias⟩⟩ := of_meaning_eq_package hmeans
      · obtain ⟨name, -, hget⟩ := exists_of_matchAlias? halias
        exact h.dependencies id hid node (DependencyGraph.node_eq_ok_iff.1 hnode) (name, part.id)
          (Dict.get?_eq_some_iff.1 hget)
      · obtain ⟨name, -, hget⟩ := exists_of_matchAlias? halias
        exact h.roots (name, part.id) (Dict.get?_eq_some_iff.1 hget)
  | emptyModule | ownFile _ | place _ | builtin _ | unknown => simp [hmeans] at hpart

end Alike

end Project

/-! ### The same steps -/

/-- Whether a stage is about some packages only, as the project knows them. -/
structure Stage.Within (p : Project) (near : Set PackageId) (s : Stage) : Prop where
  keys : ∀ id ∈ s.reader.readings.keys, id ∈ near
  roots : ∀ root ∈ s.roots, root.2 ∈ near
  reached : ∀ id ∈ s.reached, id ∈ near
  packages : ∀ package ∈ s.packages,
    package.1 ∈ near ∧ p.installation.graph.node package.1 = .ok package.2

namespace Project.Alike

variable {p : Project} {graph : DependencyGraph} {files : FileTree} {near : Set PackageId}
  {id : PackageId} {node : PackageNode} {s s' : Stage}

theorem within_start (h : p.Alike graph files near) : (Stage.start p).Within p near where
  keys _ hid := absurd hid List.not_mem_nil
  roots root hroot := h.roots root (Dict.mem_entries_filter.1 (Multiset.mem_coe.1 hroot)).1
  reached _ hid := absurd hid (Multiset.notMem_zero _)
  packages _ hpackage := absurd hpackage (Multiset.notMem_zero _)

theorem within_withPackages (h : p.Alike graph files near) (hs : s.Within p near) :
    s.Within (p.withPackages graph files) near :=
  { hs with
    packages := fun package hpackage => ⟨(hs.packages package hpackage).1,
      (h.node_eq (hs.packages package hpackage).1).trans (hs.packages package hpackage).2⟩ }

/-- What the writers of a stage wait for is among its packages. -/
theorem mem_of_asks (h : p.Alike graph files near) (hs : s.Within p near)
    (hasks : Stage.Asks p s id) : id ∈ near := by
  cases hasks with
  | root hroot => exact hs.roots _ hroot
  | own hpackage => exact (hs.packages _ hpackage).1
  | dependency hpackage _ hdep =>
      obtain ⟨hid, hnode⟩ := hs.packages _ hpackage
      exact h.mem_of_dependencies hid hnode _ hdep
  | meant hpackage _ hmeant =>
      obtain ⟨hid, hnode⟩ := hs.packages _ hpackage
      exact h.mem_of_meant hid hnode _ _ (hmeant ▸ List.mem_append_right _ List.mem_cons_self)

/-- Writers wait for the same manifests. -/
theorem asks_withPackages (hasks : Stage.Asks p s id) :
    Stage.Asks (p.withPackages graph files) s id := by
  cases hasks with
  | root hroot => exact .root hroot
  | own hpackage => exact .own hpackage
  | dependency hpackage hread hdep => exact .dependency hpackage hread hdep
  | meant hpackage hread hmeant => exact .meant hpackage hread hmeant

/-- A turn leads to a stage about the same packages. -/
theorem within_turn (h : p.Alike graph files near) (hs : s.Within p near)
    (ht : Stage.Turn p s s') : s'.Within p near := by
  have hkeys : ∀ id ∈ s'.reader.readings.keys, id ∈ near := by
    intro id hid
    by_cases hold : id ∈ s.reader.readings.keys
    · exact hs.keys id hold
    · exact h.mem_of_asks hs (ht.asks id hid hold)
  cases ht.step with
  | request id => exact { hs with keys := hkeys }
  | finish id => exact { hs with keys := hkeys }
  | @root name id roots hroots _ =>
      have hroot := hs.roots
      rw [hroots, Multiset.forall_mem_cons] at hroot
      refine { hs with roots := hroot.2, reached := ?_ }
      rw [Multiset.forall_mem_cons]
      exact ⟨hroot.1, hs.reached⟩
  | again hreached _ =>
      have hold := hs.reached
      rw [hreached, Multiset.forall_mem_cons] at hold
      exact { hs with reached := hold.2 }
  | @reach id reached node hreached _ hnode =>
      have hold := hs.reached
      rw [hreached, Multiset.forall_mem_cons] at hold
      refine { hs with reached := hold.2, packages := ?_ }
      rw [Multiset.forall_mem_cons]
      exact ⟨⟨hold.1, hnode⟩, hs.packages⟩
  | @scope id node packages hpackages _ =>
      have hold := hs.packages
      rw [hpackages, Multiset.forall_mem_cons] at hold
      obtain ⟨⟨hid, hnode⟩, hrest⟩ := hold
      refine { hs with reached := fun dep hdep => ?_, packages := hrest }
      rcases Multiset.mem_add.1 hdep with hdep | hdep
      · exact hs.reached dep hdep
      · exact h.mem_of_dependencies hid hnode dep (Multiset.mem_coe.1 hdep)

/-- **A turn of one build is a turn of the other.** -/
theorem turn_withPackages (h : p.Alike graph files near) (hs : s.Within p near)
    (ht : Stage.Turn p s s') : Stage.Turn (p.withPackages graph files) s s' := by
  refine ⟨?_, ht.ne, fun id hid hnew => asks_withPackages (ht.asks id hid hnew)⟩
  have hasks := ht.asks
  have hne := ht.ne
  cases ht.step with
  | request id =>
      have hid : id ∈ near := by
        by_cases hold : id ∈ s.reader.readings.keys
        · exact hs.keys id hold
        · exact h.mem_of_asks hs (hasks id (ManifestReader.mem_keys_request.2 (Or.inl rfl)) hold)
      rw [← h.request_eq hid]
      exact .request s id
  | finish id =>
      cases hreading : s.reader.readings.get? id with
      | none =>
          refine absurd ?_ hne
          rw [ManifestReader.finish, hreading]
      | some reading =>
          rw [← h.finish_eq (hs.keys id (Dict.mem_keys_of_get? hreading))]
          exact .finish s id
  | root hroots hread => exact .root hroots hread
  | again hreached hseen => exact .again hreached hseen
  | reach hreached hseen hnode =>
      have hid := hs.reached _ (hreached ▸ Multiset.mem_cons_self _ _)
      exact .reach hreached hseen ((h.node_eq hid).trans hnode)
  | scope hpackages hread => exact .scope hpackages hread

/-- **The turns of both builds are the same.** -/
theorem turn_iff (h : p.Alike graph files near) (hs : s.Within p near) :
    Stage.Turn (p.withPackages graph files) s s' ↔ Stage.Turn p s s' :=
  ⟨h.symm.turn_withPackages (h.within_withPackages hs), h.turn_withPackages hs⟩

theorem within_of_steps (h : p.Alike graph files near)
    (hsteps : ReflTransGen (Stage.Turn p) (.start p) s) : s.Within p near := by
  induction hsteps with
  | refl => exact h.within_start
  | tail _ ht ih => exact h.within_turn ih ht

theorem steps_withPackages (h : p.Alike graph files near)
    (hsteps : ReflTransGen (Stage.Turn p) (.start p) s) :
    ReflTransGen (Stage.Turn (p.withPackages graph files))
      (.start (p.withPackages graph files)) s := by
  induction hsteps with
  | refl => exact .refl
  | tail hsteps ht ih => exact ih.tail (h.turn_withPackages (h.within_of_steps hsteps) ht)

/-- **The orders of both builds are the same**, with the same stages. -/
theorem steps_iff (h : p.Alike graph files near) :
    ReflTransGen (Stage.Turn (p.withPackages graph files))
      (.start (p.withPackages graph files)) s ↔ ReflTransGen (Stage.Turn p) (.start p) s :=
  ⟨h.symm.steps_withPackages, h.steps_withPackages⟩

theorem endsWith_withPackages (h : p.Alike graph files near) (hs : s.Within p near)
    {result : Except Error ImportMap} (hends : Stage.EndsWith p s result) :
    Stage.EndsWith (p.withPackages graph files) s result := by
  cases hends with
  | finished hfinished => exact .finished hfinished
  | unreadable hasks hresult => exact .unreadable (asks_withPackages hasks) hresult
  | missing hreached hseen hnode =>
      exact .missing hreached hseen ((h.node_eq (hs.reached _ hreached)).trans hnode)

/-- **Both builds end at the same stages with the same results.** -/
theorem endsWith_iff (h : p.Alike graph files near) (hs : s.Within p near)
    {result : Except Error ImportMap} :
    Stage.EndsWith (p.withPackages graph files) s result ↔ Stage.EndsWith p s result :=
  ⟨h.symm.endsWith_withPackages (h.within_withPackages hs), h.endsWith_withPackages hs⟩

end Project.Alike

/-! ### The build that runs -/

/-- Whether a task is about some packages only, as the project knows them. -/
def Project.Task.Within (p : Project) (near : Set PackageId) : Project.Task → Prop
  | .root _ id => id ∈ near
  | .scope id node => id ∈ near ∧ p.installation.graph.node id = .ok node

namespace Build

variable {p : Project} {build : Build}

theorem run_of_agenda (h : build.agenda = []) (budget : Nat) : build.run p budget = build := by
  cases budget with
  | zero => rfl
  | succ budget => rw [run, h, ite_self]

/-- A run may be made in two parts. -/
theorem run_add (n m : Nat) : build.run p (n + m) = (build.run p n).run p m := by
  induction n generalizing build with
  | zero => rw [Nat.zero_add, run]
  | succ n ih =>
      rw [Nat.add_right_comm, run, run]
      by_cases hfault : build.fault?.isSome = true
      · rw [if_pos hfault, if_pos hfault, run_of_fault? (Option.isSome_iff_ne_none.1 hfault)]
      · rw [if_neg hfault, if_neg hfault]
        cases hagenda : build.agenda with
        | nil => exact (run_of_agenda hagenda m).symm
        | cons task agenda => exact ih

/-- **More tasks than a build can have change nothing.** -/
theorem run_add_of_tasksLeft_le {n : Nat} (h : build.tasksLeft p ≤ n) (m : Nat) :
    build.run p (n + m) = build.run p n := by
  rw [run_add]
  by_cases hfault : (build.run p n).fault? = none
  · exact run_of_agenda (agenda_run_eq_nil h hfault) m
  · exact run_of_fault? hfault m

end Build

namespace Project.Alike

variable {p : Project} {graph : DependencyGraph} {files : FileTree} {near : Set PackageId}
  {id : PackageId} {node : PackageNode} {build : Build}

theorem await_eq (h : p.Alike graph files near) {ids : List PackageId}
    (hids : ∀ id ∈ ids, id ∈ near) (build : Build) :
    build.await (p.withPackages graph files) ids = build.await p ids := by
  rw [Build.await, Build.await, h.getAll_eq hids]

/-- The scope of a package is the same. -/
theorem populate_eq (h : p.Alike graph files near) (hid : id ∈ near)
    (hnode : p.installation.graph.node id = .ok node) (build : Build) :
    build.populate (p.withPackages graph files) id node = build.populate p id node := by
  have hdeps : ∀ dep ∈ id :: (p.dependencies node).values, dep ∈ near := by
    rw [List.forall_mem_cons]
    exact ⟨hid, h.mem_of_dependencies hid hnode⟩
  have hknown : build.await (p.withPackages graph files)
      (id :: ((p.withPackages graph files).dependencies node).values) =
        build.await p (id :: (p.dependencies node).values) := h.await_eq hdeps build
  have hmeant : ∀ (build : Build) manifest, build.await (p.withPackages graph files)
      ((p.withPackages graph files).meantPackages manifest node) =
        build.await p (p.meantPackages manifest node) := fun build manifest =>
    h.await_eq (h.mem_of_meant hid hnode manifest) build
  simp only [Build.populate, hknown, hmeant]
  rfl

/-- Looking at a package is the same. -/
theorem reach_eq (h : p.Alike graph files near) (hid : id ∈ near) (build : Build) :
    build.reach (p.withPackages graph files) id = build.reach p id := by
  have hgraph : (p.withPackages graph files).installation.graph.node id =
      p.installation.graph.node id := h.node_eq hid
  rw [Build.reach, Build.reach]
  simp only [hgraph]
  cases hnode : p.installation.graph.node id with
  | error error => rfl
  | ok node =>
      simp only [h.populate_eq hid hnode]
      rfl

theorem foldl_reach_eq (h : p.Alike graph files near) {ids : List PackageId}
    (hids : ∀ id ∈ ids, id ∈ near) (build : Build) :
    ids.foldl (Build.reach (p.withPackages graph files)) build =
      ids.foldl (Build.reach p) build :=
  List.foldl_ext _ _ _ fun build id hid => h.reach_eq (hids id hid) build

/-- **A task does the same.** -/
theorem perform_eq (h : p.Alike graph files near) {task : Task} (htask : task.Within p near)
    (build : Build) : build.perform (p.withPackages graph files) task = build.perform p task := by
  cases task with
  | root name id =>
      have hid : ∀ other ∈ [id], other ∈ near := by
        rw [List.forall_mem_singleton]
        exact htask
      have hreach : ∀ build : Build, build.reach (p.withPackages graph files) id =
          build.reach p id := h.reach_eq htask
      simp only [Build.perform, h.await_eq hid, hreach]
      rfl
  | scope id node =>
      obtain ⟨hid, hnode⟩ := htask
      simp only [Build.perform, h.populate_eq hid hnode]
      exact h.foldl_reach_eq (h.mem_of_dependencies hid hnode) _

/-! ### Tasks are about packages that aliases lead to -/

theorem within_reach (hid : id ∈ near) (hagenda : ∀ task ∈ build.agenda, task.Within p near) :
    ∀ task ∈ (build.reach p id).agenda, task.Within p near := by
  rw [Build.reach]
  split
  · exact hagenda
  cases hnode : p.installation.graph.node id with
  | error error => exact hagenda
  | ok node =>
      simp only
      split
      · rw [(Build.agenda_populate p _ id node).1]
        exact hagenda
      · intro task htask
        rcases List.mem_append.1 htask with htask | htask
        · exact hagenda task htask
        · rw [List.mem_singleton.1 htask]
          exact ⟨hid, hnode⟩

theorem within_foldl_reach {ids : List PackageId} (hids : ∀ id ∈ ids, id ∈ near)
    (hagenda : ∀ task ∈ build.agenda, task.Within p near) :
    ∀ task ∈ (ids.foldl (Build.reach p) build).agenda, task.Within p near := by
  induction ids generalizing build with
  | nil => exact hagenda
  | cons id ids ih =>
      rw [List.forall_mem_cons] at hids
      exact ih hids.2 (within_reach hids.1 hagenda)

/-- A task leads to tasks about the same packages. -/
theorem within_perform (h : p.Alike graph files near) {task : Task} (htask : task.Within p near)
    (hagenda : ∀ other ∈ build.agenda, other.Within p near) :
    ∀ other ∈ (build.perform p task).agenda, other.Within p near := by
  cases task with
  | root name id =>
      simp only [Build.perform]
      split
      · exact hagenda
      · exact within_reach htask hagenda
  | scope id node =>
      obtain ⟨hid, hnode⟩ := htask
      refine within_foldl_reach (h.mem_of_dependencies hid hnode) ?_
      rw [(Build.agenda_populate p build id node).1]
      exact hagenda

/-- **A run does the same**, task by task. -/
theorem run_eq (h : p.Alike graph files near)
    (hagenda : ∀ task ∈ build.agenda, task.Within p near) (budget : Nat) :
    build.run (p.withPackages graph files) budget = build.run p budget := by
  induction budget generalizing build with
  | zero => rfl
  | succ budget ih =>
      rw [Build.run, Build.run]
      by_cases hfault : build.fault?.isSome = true
      · rw [if_pos hfault, if_pos hfault]
      · rw [if_neg hfault, if_neg hfault]
        cases htasks : build.agenda with
        | nil => rfl
        | cons task agenda =>
            rw [htasks, List.forall_mem_cons] at hagenda
            simp only
            rw [h.perform_eq hagenda.1]
            exact ih (h.within_perform hagenda.1 hagenda.2)

/-! ### The whole build -/

/-- Aliases arrive in the same order. -/
theorem arrivals_eq (h : p.Alike graph files near) :
    (p.withPackages graph files).arrivals = p.arrivals := by
  have hneeds : ∀ id ∈ ((p.mapped p.roots).entries.map Prod.snd).eraseDups,
      (p.withPackages graph files).installation.needsFile id = p.installation.needsFile id := by
    intro id hid
    obtain ⟨e, he, rfl⟩ := List.mem_map.1 (List.mem_eraseDups.1 hid)
    exact h.needsFile_eq (h.roots e (Dict.mem_entries_filter.1 he).1)
  have hroots : ((p.withPackages graph files).mapped (p.withPackages graph files).roots).entries =
      (p.mapped p.roots).entries := rfl
  rw [arrivals, arrivals, hroots, List.filter_congr hneeds,
    List.filter_congr fun id hid => congrArg not (hneeds id hid)]

theorem within_arrivals (h : p.Alike graph files near) :
    ∀ task ∈ (Build.start p).agenda, task.Within p near := by
  intro task htask
  obtain ⟨root, hroot, rfl⟩ := List.mem_map.1 htask
  exact h.roots root (Dict.mem_entries_filter.1 (p.perm_arrivals.mem_iff.1 hroot)).1

/-- **The build that runs ends in the same state**: with the same map, the same readings and the
same warnings, or with the same error. -/
theorem finalBuild_eq (h : p.Alike graph files near) :
    (p.withPackages graph files).finalBuild = p.finalBuild := by
  have hstart : Build.start (p.withPackages graph files) = Build.start p := by
    rw [Build.start, Build.start, h.arrivals_eq]
  -- Each build has a bound of its own for its tasks; both bounds together do for both.
  calc (p.withPackages graph files).finalBuild
      = (Build.start (p.withPackages graph files)).run (p.withPackages graph files)
          ((p.withPackages graph files).taskLimit + p.taskLimit) :=
        (Build.run_add_of_tasksLeft_le (tasksLeft_start _) _).symm
    _ = (Build.start p).run p (p.taskLimit + (p.withPackages graph files).taskLimit) := by
        rw [hstart, h.run_eq h.within_arrivals, Nat.add_comm]
    _ = p.finalBuild := Build.run_add_of_tasksLeft_le p.tasksLeft_start _

theorem build_eq (h : p.Alike graph files near) : (p.withPackages graph files).build = p.build := by
  rw [Project.build, Project.build, h.finalBuild_eq]
  rfl

end Project.Alike

namespace Project

/-- Packages and files are alike if they agree on all that the aliases of the project lead to. -/
theorem alike_of_leads {p : Project} {graph : DependencyGraph} {files : FileTree}
    (hnodes : ∀ id, p.installation.graph.Leads p.roots id →
      graph.packages.get? id = p.installation.graph.packages.get? id)
    (htexts : ∀ id, p.installation.graph.Leads p.roots id →
      files.readText (p.installation.manifestPath id) =
        p.installation.files.readText (p.installation.manifestPath id)) :
    p.Alike graph files {id | p.installation.graph.Leads p.roots id} where
  roots _ he := .root he
  dependencies _ hid _ hnode _ he := .dependency hid hnode he
  nodes := hnodes
  texts := htexts

/-! ### Production -/

/-- The packages and aliases of a project that has been made. -/
theorem of_make {graph : DependencyGraph} {files : FileTree} {directory : String}
    {settings : Settings} {env : Environment} {mapBase : String} {p : Project}
    (hmake : make graph files directory settings env mapBase none = .ok p) :
    p.installation = ⟨graph, files, directory, settings.packagesDir, env⟩ ∧
      p.roots = graph.rootDependencies env.includesDev := by
  obtain ⟨builtins, -, hmake⟩ := exists_of_bind_eq_ok hmake
  obtain ⟨base, -, hmake⟩ := exists_of_bind_eq_ok hmake
  obtain rfl := Except.ok.inj hmake
  exact ⟨rfl, rfl⟩

/-- Projects with the same aliases are made alike from all lock files and files. -/
theorem make_withPackages {graph graph' : DependencyGraph} {env : Environment}
    (hroots : graph.rootDependencies env.includesDev = graph'.rootDependencies env.includesDev)
    (files files' : FileTree) (directory : String) (settings : Settings) (mapBase : String) :
    make graph' files' directory settings env mapBase none =
      (make graph files directory settings env mapBase none).map fun p =>
        p.withPackages graph' files' := by
  rw [make, make, ← hroots]
  cases builtinsOf settings with
  | error error => rfl
  | ok builtins => cases basePath directory mapBase <;> rfl

/-- **Maps for production do not depend on packages for development.** Let an environment leave
development packages out, and let two lock files and file trees agree on the aliases of the project
that are not for development only, with their order, and on every package that these lead to
through aliases of packages: on its node, and on the text of its manifest file. Then a project can
be made from neither, for the same reason, or from both; and then the builds have the same steps in
every order, come to the same stages and end there with the same map or the same error. The build
that runs ends in the same state, with the same warnings and readings, and gives the same map or
the same error. -/
theorem production_independent {graph graph' : DependencyGraph} {files files' : FileTree}
    {directory : String} {settings : Settings} {env : Environment} (mapBase : String)
    (hdev : env.includesDev = false)
    (hroots : graph.rootDependencies false = graph'.rootDependencies false)
    (hnodes : ∀ id, graph.Leads (graph.rootDependencies false) id →
      graph'.packages.get? id = graph.packages.get? id)
    (htexts : ∀ id, graph.Leads (graph.rootDependencies false) id →
      files'.readText (Installation.manifestPath
        ⟨graph, files, directory, settings.packagesDir, env⟩ id) =
      files.readText (Installation.manifestPath
        ⟨graph, files, directory, settings.packagesDir, env⟩ id)) :
    (∃ error, make graph files directory settings env mapBase none = .error error ∧
      make graph' files' directory settings env mapBase none = .error error) ∨
    ∃ p p', make graph files directory settings env mapBase none = .ok p ∧
      make graph' files' directory settings env mapBase none = .ok p' ∧
      (∀ s, ReflTransGen (Stage.Turn p') (.start p') s ↔
        ReflTransGen (Stage.Turn p) (.start p) s) ∧
      (∀ s, ReflTransGen (Stage.Turn p) (.start p) s →
        (∀ s', Stage.Turn p' s s' ↔ Stage.Turn p s s') ∧
        ∀ result, Stage.EndsWith p' s result ↔ Stage.EndsWith p s result) ∧
      p'.finalBuild = p.finalBuild ∧ p'.build = p.build := by
  rw [make_withPackages (hdev ▸ hroots) files files']
  cases hmake : make graph files directory settings env mapBase none with
  | error error => exact Or.inl ⟨error, rfl, rfl⟩
  | ok p =>
      obtain ⟨hinst, hproject⟩ := of_make hmake
      rw [hdev] at hproject
      have halike : p.Alike graph' files' {id | p.installation.graph.Leads p.roots id} := by
        refine alike_of_leads ?_ ?_
        · rw [hinst, hproject]
          exact hnodes
        · rw [hinst, hproject]
          exact htexts
      refine Or.inr ⟨p, _, rfl, rfl, fun s => halike.steps_iff, fun s hsteps => ?_,
        halike.finalBuild_eq, halike.build_eq⟩
      have hwithin := halike.within_of_steps hsteps
      exact ⟨fun s' => halike.turn_iff hwithin, fun result => halike.endsWith_iff hwithin⟩

/-! ### A tool that is not installed -/

/-- The only package that a project with a tool needs at run time. -/
def runtimePackage : PackageId × PackageNode :=
  (⟨"npm", "x", "1.0.0"⟩, ⟨∅, some (.object [("name", .string "x")])⟩)

/-- A lock file with an alias for a tool, which only development needs and which is not
installed. -/
def withTool : DependencyGraph :=
  ⟨Dict.ofList [("tool", ⟨"npm", "t", "1.0.0"⟩), ("x", runtimePackage.1)],
    Dict.ofList [runtimePackage], ["tool"]⟩

/-- A lock file without the tool, with another package that nothing leads to. -/
def withoutTool : DependencyGraph :=
  ⟨Dict.ofList [("x", runtimePackage.1)],
    Dict.ofList [(⟨"npm", "u", "1.0.0"⟩, ⟨∅, none⟩), runtimePackage], []⟩

/-- The environment of a browser in production. -/
def browserInProduction : Environment := .make .null false true .null ∅

theorem eq_of_leads_withTool {id : PackageId}
    (h : withTool.Leads (withTool.rootDependencies false) id) : id = runtimePackage.1 := by
  have hroots : ∀ e ∈ (withTool.rootDependencies false).entries, e.2 = runtimePackage.1 := by
    decide +kernel
  induction h with
  | root hroot => exact hroots _ hroot
  | dependency _ hnode hdep ih =>
      have hget : withTool.packages.get? runtimePackage.1 = some runtimePackage.2 := rfl
      rw [ih, hget] at hnode
      obtain rfl := Option.some.inj hnode
      exact absurd hdep List.not_mem_nil

/-- **A tool that is not installed does no harm to a map for production**, though a map for
development cannot be made. -/
theorem production_independent_withTool :
    browserInProduction.includesDev = false ∧
    withTool.rootDependencies false = withoutTool.rootDependencies false ∧
    ∃ p p' map,
      make withTool (.ofFiles [] []) "/p" .standard browserInProduction "/p" none = .ok p ∧
      make withoutTool (.ofFiles [] []) "/p" .standard browserInProduction "/p" none = .ok p' ∧
      p.build = .ok map ∧ p'.build = .ok map ∧
      ∃ q, make withTool (.ofFiles [] []) "/p" .standard .standard "/p" none = .ok q ∧
        ∀ map, q.build ≠ .ok map := by
  have hdev : browserInProduction.includesDev = false := rfl
  have hroots : withTool.rootDependencies false = withoutTool.rootDependencies false := by
    decide +kernel
  have hnodes : ∀ id, withTool.Leads (withTool.rootDependencies false) id →
      withoutTool.packages.get? id = withTool.packages.get? id := by
    intro id hid
    rw [eq_of_leads_withTool hid]
    rfl
  have hmake : ∃ p, make withTool (.ofFiles [] []) "/p" .standard browserInProduction "/p" none =
      .ok p ∧ p.finalBuild.fault? = none :=
    ⟨_, rfl, Option.isNone_iff_eq_none.1 (by decide +kernel)⟩
  have hfails : ∃ q, make withTool (.ofFiles [] []) "/p" .standard .standard "/p" none = .ok q ∧
      q.finalBuild.fault?.isSome = true := ⟨_, rfl, by decide +kernel⟩
  obtain ⟨p, hp, hfault⟩ := hmake
  obtain ⟨q, hq, hqfault⟩ := hfails
  have hb := build_eq_ok_iff.2 ⟨hfault, rfl⟩
  refine ⟨hdev, hroots, ?_⟩
  obtain ⟨error, herror, -⟩ | ⟨p₁, p', hp₁, hp', -, -, -, hbuild⟩ :=
    @production_independent withTool withoutTool (.ofFiles [] []) (.ofFiles [] []) "/p" .standard
      browserInProduction "/p" hdev hroots hnodes fun _ _ => rfl
  · rw [hp] at herror
    exact absurd herror (by simp)
  · obtain rfl : p = p₁ := Except.ok.inj (hp.symm.trans hp₁)
    refine ⟨p, p', _, hp, hp', hb, hbuild.trans hb, q, hq, fun map hmap => ?_⟩
    rw [(build_eq_ok_iff.1 hmap).1] at hqfault
    exact absurd hqfault (by simp)

end Project

end ImportAtlas
