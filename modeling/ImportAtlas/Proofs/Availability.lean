import ImportAtlas.Proofs.Requirements
import ImportAtlas.Proofs.Simulation

/-!
# Builds and their faults

A task waits only for manifests of packages that the build requires, and comes only to packages
that are reachable. So a build fails only for a package that is required, and for each of them.

## Main results

* `Build.Accountable.perform`, `Build.Accountable.run`: what goes wrong in a task is what is wrong
  with the manifest of a package that is required.
* `Project.exists_required_of_build_eq_error`: so is what goes wrong in a build.
* `Project.build_eq_ok_iff_required`: a build succeeds exactly when everything that is required is
  available.
-/

namespace ImportAtlas

theorem ManifestReader.Faithful.getAll {inst : Installation} {reader : ManifestReader}
    (h : reader.Faithful inst) (ids : List PackageId) : (reader.getAll inst ids).Faithful inst := by
  have hrequest : ∀ (l : List PackageId) {reader : ManifestReader}, reader.Faithful inst →
      (l.foldl (ManifestReader.request inst) reader).Faithful inst := by
    intro l
    induction l with
    | nil => exact id
    | cons first l ih => exact fun hr => ih (hr.request first)
  have hfinish : ∀ (l : List PackageId) {reader : ManifestReader}, reader.Faithful inst →
      (l.foldl (ManifestReader.finish inst) reader).Faithful inst := by
    intro l
    induction l with
    | nil => exact id
    | cons first l ih => exact fun hr => ih (hr.finish first)
  exact hfinish ids (hrequest ids h)

namespace Project

variable {p : Project} {id : PackageId}

/-- A package whose manifest can be read is installed. -/
theorem exists_node_of_readable (h : p.Readable [id]) :
    ∃ node, p.installation.graph.node id = .ok node := by
  obtain ⟨manifest, hm⟩ := h id List.mem_cons_self
  rw [Installation.manifest] at hm
  cases hnode : p.installation.graph.node id with
  | ok node => exact ⟨node, rfl⟩
  | error error => exact absurd hm (by simp [hnode, bind, Except.bind])

/-- Whether everything that a build requires is available. -/
def Available (p : Project) : Prop := ∀ id, p.Required id → p.Readable [id]

/-- **When all writers have written, everything that is required is available.** -/
theorem Complete.available {roots : List (String × PackageId)}
    {packages : List (PackageId × PackageNode)} (hc : p.Complete roots packages) :
    p.Available := by
  intro id hrequired other hother
  rw [List.mem_singleton.1 hother]
  cases hrequired with
  | reachable hid =>
      obtain ⟨node, hp⟩ := hc.exists_populates id (hc.reaches hid)
      exact hp.readable id List.mem_cons_self
  | @meant owner _ node specifier target hid hnode hentry hnames =>
      obtain ⟨node', hp⟩ := hc.exists_populates owner (hc.reaches hid)
      obtain rfl := hp.node_unique hnode
      obtain ⟨part, hmeans, rfl⟩ := hnames.exists_meaning
      exact hp.readable _ (List.mem_cons_of_mem _ (List.mem_append_right _
        (mem_meantPackages hentry hmeans)))

/-- Whether a task is about a package that is reachable. -/
def Task.Due (p : Project) : Task → Prop
  | .root _ id => p.Reachable id
  | .scope id node => p.Reachable id ∧ p.installation.graph.node id = .ok node

end Project

namespace Build

variable {p : Project} {build : Build} {id : PackageId} {node : PackageNode}

/-- What holds of a build at every stage. -/
structure Accountable (p : Project) (build : Build) : Prop where
  /-- Readings have the results that the installation gives. -/
  faithful : build.reader.Faithful p.installation
  /-- The tasks on the agenda are about reachable packages. -/
  due : ∀ task ∈ build.agenda, task.Due p
  /-- What went wrong is what is wrong with the manifest of a package that is required. -/
  blamed : ∀ error, build.fault? = some error →
    ∃ id, p.Required id ∧ p.installation.manifest id = .error error

namespace Accountable

theorem await (h : build.Accountable p) (ids : List PackageId) :
    (build.await p ids).Accountable p :=
  ⟨h.faithful.getAll ids, h.due, h.blamed⟩

/-- A build that fails for one of the manifests that it waited for. -/
theorem blame {ids : List PackageId} {error : Error} (h : build.Accountable p)
    (hids : ∀ id ∈ ids, p.Required id) (hfault : (build.await p ids).faultOf ids = some error) :
    ({ build.await p ids with fault? := some error } : Build).Accountable p := by
  refine ⟨h.faithful.getAll ids, h.due, fun fault hsome => ?_⟩
  obtain rfl : error = fault := Option.some.inj hsome
  obtain ⟨id, hid, hresult⟩ := List.exists_of_findSome?_eq_some hfault
  refine ⟨id, hids id hid, ?_⟩
  split at hresult
  · rename_i error' herror
    rw [← h.faithful.getAll ids id _ herror, Option.some.inj hresult]
  · exact absurd hresult (by simp)

/-- The scope of a reachable package is added, or the fault is that of a package it needs. -/
theorem populate (h : build.Accountable p) (hid : p.Reachable id)
    (hnode : p.installation.graph.node id = .ok node) :
    (build.populate p id node).Accountable p := by
  have hneeds {dep : PackageId} (hdep : dep ∈ p.needs p.manifestOf id node) : p.Required dep :=
    Project.required_of_mem_needs hid hnode hdep
  have hknown := h.await (id :: (p.dependencies node).values)
  rw [Build.populate]
  dsimp only
  split
  · rename_i error hfault
    refine h.blame (fun dep hdep => hneeds ?_) hfault
    rcases List.mem_cons.1 hdep with rfl | hdep
    · exact List.mem_cons_self
    · exact List.mem_cons_of_mem _ (List.mem_append_left _ hdep)
  rename_i hfirst
  have hown : (build.await p (id :: (p.dependencies node).values)).manifestOf id =
      p.manifestOf id :=
    (Project.manifestOf_eq hknown.faithful (hasRead_of_faultOf hfirst)).2 id List.mem_cons_self
  rw [hown]
  split
  · rename_i error hfault
    exact hknown.blame (fun dep hdep => hneeds
      (List.mem_cons_of_mem _ (List.mem_append_right _ hdep))) hfault
  · have hread := hknown.await (p.meantPackages (p.manifestOf id) node)
    exact ⟨hread.faithful, hread.due, hread.blamed⟩

/-- A reachable package is looked at. -/
theorem reach (h : build.Accountable p) (hid : p.Reachable id) :
    (build.reach p id).Accountable p := by
  rw [Build.reach]
  split
  · exact h
  have hseen : ({ build with seen := build.seen ++ [id] } : Build).Accountable p :=
    ⟨h.faithful, h.due, h.blamed⟩
  dsimp only
  split
  · rename_i error hnode
    refine ⟨h.faithful, h.due, fun fault hsome => ⟨id, .reachable hid, ?_⟩⟩
    obtain rfl : error = fault := Option.some.inj hsome
    simp [Installation.manifest, hnode, bind, Except.bind]
  rename_i node hnode
  split
  · exact hseen.populate hid hnode
  · refine ⟨h.faithful, fun task htask => ?_, h.blamed⟩
    rcases List.mem_append.1 htask with htask | htask
    · exact h.due task htask
    · rw [List.mem_singleton.1 htask]
      exact ⟨hid, hnode⟩

theorem foldl_reach {ids : List PackageId} (h : build.Accountable p)
    (hids : ∀ id ∈ ids, p.Reachable id) : (ids.foldl (Build.reach p) build).Accountable p := by
  induction ids generalizing build with
  | nil => exact h
  | cons id ids ih =>
      exact ih (h.reach (hids id List.mem_cons_self)) fun other hother =>
        hids other (List.mem_cons_of_mem _ hother)

/-- **A task that is due fails only for a package that is required.** -/
theorem perform {task : Project.Task} (h : build.Accountable p) (hdue : task.Due p) :
    (build.perform p task).Accountable p := by
  cases task with
  | root name id =>
      have hread := h.await [id]
      rw [Build.perform]
      dsimp only
      split
      · rename_i error hfault
        refine h.blame (fun other hother => ?_) hfault
        rw [List.mem_singleton.1 hother]
        exact .reachable hdue
      · exact reach ⟨hread.faithful, hread.due, hread.blamed⟩ hdue
  | scope id node =>
      obtain ⟨hid, hnode⟩ := hdue
      exact (h.populate hid hnode).foldl_reach fun dep => .dependency hid hnode

/-- **A run fails only for a package that is required.** -/
theorem run (h : build.Accountable p) (budget : Nat) : (build.run p budget).Accountable p := by
  induction budget generalizing build with
  | zero => exact h
  | succ budget ih =>
      rw [Build.run]
      split
      · exact h
      split
      · exact h
      · rename_i task agenda hagenda
        have hdue := h.due
        rw [hagenda] at hdue
        have hrest : ({ build with agenda } : Build).Accountable p :=
          ⟨h.faithful, fun other hother => hdue other (List.mem_cons_of_mem _ hother), h.blamed⟩
        exact ih (hrest.perform (hdue task List.mem_cons_self))

end Accountable

theorem accountable_start (p : Project) : (start p).Accountable p where
  faithful := ManifestReader.faithful_empty p.installation
  due task htask := by
    obtain ⟨⟨name, id⟩, hroot, rfl⟩ := List.mem_map.1 htask
    exact .root (p.perm_arrivals.mem_iff.1 hroot)
  blamed := nofun

end Build

namespace Project

variable {p : Project}

theorem accountable_finalBuild (p : Project) : p.finalBuild.Accountable p :=
  (Build.accountable_start p).run p.taskLimit

/-- **What goes wrong in a build** is what is wrong with the manifest of a package that it
requires. -/
theorem exists_required_of_build_eq_error {error : Error} (h : p.build = .error error) :
    ∃ id, p.Required id ∧ p.installation.manifest id = .error error := by
  rw [build] at h
  cases hfault : p.finalBuild.fault? with
  | none => simp [hfault] at h
  | some fault =>
      obtain rfl : fault = error := by simpa [hfault] using h
      exact p.accountable_finalBuild.blamed fault hfault

/-- **A build succeeds exactly when everything that it requires is available.** -/
theorem build_eq_ok_iff_required : (∃ map, p.build = .ok map) ↔ p.Available := by
  constructor
  · rintro ⟨map, hb⟩
    obtain ⟨roots, packages, hc, -⟩ := exists_complete_of_outcome (outcome_of_build hb)
    exact hc.available
  · intro ha
    cases hbuild : p.build with
    | ok map => exact ⟨map, rfl⟩
    | error error =>
        obtain ⟨id, hid, herror⟩ := exists_required_of_build_eq_error hbuild
        obtain ⟨manifest, hm⟩ := ha id hid id List.mem_cons_self
        exact absurd (hm.symm.trans herror) (by simp)

end Project

end ImportAtlas
