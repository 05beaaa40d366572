import ImportAtlas.Proofs.Draft
import Mathlib.Data.Multiset.AddSub
import Mathlib.Logic.Relation

/-!
# Schedules of a build

Writers run concurrently: each waits for manifests and goes on when they have been read. A schedule
is any order in which readings are asked for and completed and in which the writers that can go on
do so. The build that runs is one of them.

## Summary

* `Stage` is a state of a build between two steps, and `Stage.Step` the steps.
* `Project.Outcome` is an import map that a schedule ends with.
* `Stage.Sound` is what holds at every stage: the map is the draft of those that have written.

## Main results

* `Stage.Sound.step`, `Stage.sound_of_steps`: soundness is kept by steps, and holds at every
  stage of every schedule.
* `Project.exists_complete_of_outcome`: an outcome comes from a draft of all writers.
-/

namespace ImportAtlas

open Relation

/-- A state of a build between two steps of its writers. -/
structure Stage where
  /-- The map so far. -/
  map : ImportMap
  /-- The manifests that were asked for. -/
  reader : ManifestReader
  /-- The packages whose writers have started. -/
  seen : List PackageId
  /-- The aliases of the project whose writers have not written. -/
  roots : Multiset (String × PackageId)
  /-- The packages that writers lead to, not looked at yet. -/
  reached : Multiset PackageId
  /-- The packages whose writers have not written. -/
  packages : Multiset (PackageId × PackageNode)

namespace Stage

/-- The first stage of a build. -/
def start (p : Project) : Stage := ⟨∅, .empty, [], (p.mapped p.roots).entries, 0, 0⟩

/-- What can happen next: a reading is asked for or completed, a writer whose manifests have been
read goes on, or a package that was reached is looked at. A fault is no step: it ends a build. -/
inductive Step (p : Project) : Stage → Stage → Prop
  | request (s : Stage) (id : PackageId) :
      Step p s { s with reader := s.reader.request p.installation id }
  | finish (s : Stage) (id : PackageId) :
      Step p s { s with reader := s.reader.finish p.installation id }
  | root {s : Stage} {name : String} {id : PackageId} {roots : Multiset (String × PackageId)}
      (hroots : s.roots = (name, id) ::ₘ roots) (hread : s.reader.HasRead [id]) :
      Step p s { s with
        map := { s.map with
          imports := s.map.imports.insertMany (p.packageEntries name id (s.reader.manifestOf id)) }
        roots
        reached := id ::ₘ s.reached }
  | again {s : Stage} {id : PackageId} {reached : Multiset PackageId}
      (hreached : s.reached = id ::ₘ reached) (hseen : id ∈ s.seen) : Step p s { s with reached }
  | reach {s : Stage} {id : PackageId} {reached : Multiset PackageId} {node : PackageNode}
      (hreached : s.reached = id ::ₘ reached) (hseen : id ∉ s.seen)
      (hnode : p.installation.graph.node id = .ok node) :
      Step p s { s with
        seen := s.seen ++ [id]
        reached
        packages := (id, node) ::ₘ s.packages }
  | scope {s : Stage} {id : PackageId} {node : PackageNode}
      {packages : Multiset (PackageId × PackageNode)}
      (hpackages : s.packages = (id, node) ::ₘ packages)
      (hread : s.reader.HasRead (p.needs s.reader.manifestOf id node)) :
      Step p s { s with
        map := p.withScope s.map id (p.scopeEntries s.reader.manifestOf id node)
        reached := s.reached + ((p.dependencies node).values : Multiset PackageId)
        packages }

/-- Whether every writer has written. -/
def Finished (s : Stage) : Prop := s.roots = 0 ∧ s.reached = 0 ∧ s.packages = 0

end Stage

namespace Project

/-- The map of a build whose writers have written `map`. -/
def completed (p : Project) (map : ImportMap) : ImportMap :=
  (if p.settings.includeBuiltins then Build.addBuiltins p map else map).clean

/-- An import map that a schedule of the build ends with. -/
def Outcome (p : Project) (map : ImportMap) : Prop :=
  ∃ s, ReflTransGen (Stage.Step p) (.start p) s ∧ s.Finished ∧ map = p.completed s.map

/-- All writers of a build, each in the order in which they wrote. -/
structure Complete (p : Project) (roots : List (String × PackageId))
    (packages : List (PackageId × PackageNode)) : Prop where
  /-- Every alias that is mapped has written once. -/
  perm_roots : roots.Perm (p.mapped p.roots).entries
  /-- Their manifests can be read. -/
  readable : ∀ root ∈ roots, p.Readable [root.2]
  /-- The packages whose scopes the build writes have written. -/
  mem_packages_iff : ∀ package, package ∈ packages ↔ p.Populates package.1 package.2
  /-- The scope of every package that is reached is written. -/
  exists_populates : ∀ id, p.Reaches id → ∃ node, p.Populates id node

end Project

namespace Stage

variable {p : Project} {s s' : Stage} {roots : List (String × PackageId)}
  {packages : List (PackageId × PackageNode)}

/-! ### What holds at every stage -/

/-- What holds when `roots` and `packages` have written, in this order. -/
structure Sound (p : Project) (s : Stage) (roots : List (String × PackageId))
    (packages : List (PackageId × PackageNode)) : Prop where
  /-- Readings have the results that the installation gives. -/
  faithful : s.reader.Faithful p.installation
  /-- The map is what has been written. -/
  map_eq : s.map = p.draft roots packages
  /-- Every alias has written or has not. -/
  roots_eq : (roots : Multiset (String × PackageId)) + s.roots = (p.mapped p.roots).entries
  /-- Those that have written could. -/
  readable : ∀ root ∈ roots, p.Readable [root.2]
  /-- So could the packages that have written. -/
  populates : ∀ package ∈ packages, p.Populates package.1 package.2
  /-- Packages whose writers have started were reached and are installed. -/
  reaches_packages : ∀ package ∈ s.packages,
    p.Reaches package.1 ∧ p.installation.graph.node package.1 = .ok package.2
  /-- Packages that writers lead to are reached. -/
  reaches_reached : ∀ id ∈ s.reached, p.Reaches id
  /-- A writer that has started has written or has not. -/
  seen_cases : ∀ id ∈ s.seen, ∃ node, (id, node) ∈ packages ∨ (id, node) ∈ s.packages
  /-- An alias that has written leads to its package. -/
  root_reached : ∀ root ∈ roots, root.2 ∈ s.seen ∨ root.2 ∈ s.reached
  /-- A package that has written leads to those of its aliases. -/
  dependency_reached : ∀ package ∈ packages, ∀ id ∈ (p.dependencies package.2).values,
    id ∈ s.seen ∨ id ∈ s.reached

theorem sound_start (p : Project) : Sound p (.start p) [] [] where
  faithful := ManifestReader.faithful_empty p.installation
  map_eq := rfl
  roots_eq := Multiset.zero_add _
  readable _ h := absurd h List.not_mem_nil
  populates _ h := absurd h List.not_mem_nil
  reaches_packages _ h := absurd h (Multiset.notMem_zero _)
  reaches_reached _ h := absurd h (Multiset.notMem_zero _)
  seen_cases _ h := absurd h List.not_mem_nil
  root_reached _ h := absurd h List.not_mem_nil
  dependency_reached _ h := absurd h List.not_mem_nil

/-- Another reader that is faithful changes nothing. -/
theorem Sound.withReader (h : Sound p s roots packages) {reader : ManifestReader}
    (hf : reader.Faithful p.installation) : Sound p { s with reader } roots packages :=
  { h with faithful := hf }

/-- The writer of an alias goes on. -/
theorem Sound.root (h : Sound p s roots packages) {name : String} {id : PackageId}
    {others : Multiset (String × PackageId)} (hroots : s.roots = (name, id) ::ₘ others)
    (hread : s.reader.HasRead [id]) :
    Sound p { s with
      map := { s.map with
        imports := s.map.imports.insertMany (p.packageEntries name id (s.reader.manifestOf id)) }
      roots := others
      reached := id ::ₘ s.reached } (roots ++ [(name, id)]) packages := by
  obtain ⟨hreadable, hmanifest⟩ := Project.manifestOf_eq h.faithful hread
  have hmem : (name, id) ∈ (p.mapped p.roots).entries := by
    rw [← Multiset.mem_coe, ← h.roots_eq, hroots]
    exact Multiset.mem_add.2 (Or.inr (Multiset.mem_cons_self _ _))
  refine { h with
    map_eq := ?_, roots_eq := ?_, readable := ?_, reaches_reached := ?_, root_reached := ?_,
    dependency_reached := ?_ }
  · rw [Project.draft_append_root, ← h.map_eq, Project.rootEntries,
      hmanifest id List.mem_cons_self]
  · rw [← h.roots_eq, hroots, ← Multiset.coe_add, Multiset.coe_singleton, ← Multiset.singleton_add]
    exact Multiset.add_assoc _ _ _
  · intro root hroot
    rcases List.mem_append.1 hroot with hroot | hroot
    · exact h.readable root hroot
    · rw [List.mem_singleton.1 hroot]
      exact hreadable
  · intro other hother
    rcases Multiset.mem_cons.1 hother with rfl | hother
    · exact .root hmem hreadable
    · exact h.reaches_reached other hother
  · intro root hroot
    rcases List.mem_append.1 hroot with hroot | hroot
    · exact (h.root_reached root hroot).imp_right (Multiset.mem_cons_of_mem)
    · rw [List.mem_singleton.1 hroot]
      exact Or.inr (Multiset.mem_cons_self _ _)
  · intro package hpackage dep hdep
    exact (h.dependency_reached package hpackage dep hdep).imp_right (Multiset.mem_cons_of_mem)

/-- A package that was reached again is left alone. -/
theorem Sound.again (h : Sound p s roots packages) {id : PackageId} {others : Multiset PackageId}
    (hreached : s.reached = id ::ₘ others) (hseen : id ∈ s.seen) :
    Sound p { s with reached := others } roots packages := by
  have hstay : ∀ other, other ∈ s.seen ∨ other ∈ s.reached → other ∈ s.seen ∨ other ∈ others := by
    rintro other (hother | hother)
    · exact Or.inl hother
    · rw [hreached, Multiset.mem_cons] at hother
      rcases hother with rfl | hother
      · exact Or.inl hseen
      · exact Or.inr hother
  refine { h with reaches_reached := ?_, root_reached := ?_, dependency_reached := ?_ }
  · intro other hother
    refine h.reaches_reached other ?_
    rw [hreached]
    exact Multiset.mem_cons_of_mem hother
  · exact fun root hroot => hstay _ (h.root_reached root hroot)
  · exact fun package hpackage dep hdep => hstay _ (h.dependency_reached package hpackage dep hdep)

/-- The writer of a package that is reached for the first time starts. -/
theorem Sound.reach (h : Sound p s roots packages) {id : PackageId} {others : Multiset PackageId}
    {node : PackageNode} (hreached : s.reached = id ::ₘ others)
    (hnode : p.installation.graph.node id = .ok node) :
    Sound p { s with
      seen := s.seen ++ [id]
      reached := others
      packages := (id, node) ::ₘ s.packages } roots packages := by
  have hreaches : ∀ other ∈ s.reached, p.Reaches other := h.reaches_reached
  have hstay : ∀ other, other ∈ s.seen ∨ other ∈ s.reached →
      other ∈ s.seen ++ [id] ∨ other ∈ others := by
    rintro other (hother | hother)
    · exact Or.inl (List.mem_append_left _ hother)
    · rw [hreached, Multiset.mem_cons] at hother
      rcases hother with rfl | hother
      · exact Or.inl (List.mem_append_right _ List.mem_cons_self)
      · exact Or.inr hother
  rw [hreached] at hreaches
  refine { h with
    reaches_packages := ?_, reaches_reached := ?_, seen_cases := ?_, root_reached := ?_,
    dependency_reached := ?_ }
  · intro package hpackage
    rcases Multiset.mem_cons.1 hpackage with rfl | hpackage
    · exact ⟨hreaches id (Multiset.mem_cons_self _ _), hnode⟩
    · exact h.reaches_packages package hpackage
  · exact fun other hother => hreaches other (Multiset.mem_cons_of_mem hother)
  · intro other hother
    rcases List.mem_append.1 hother with hother | hother
    · obtain ⟨node', hnode'⟩ := h.seen_cases other hother
      exact ⟨node', hnode'.imp_right Multiset.mem_cons_of_mem⟩
    · rw [List.mem_singleton.1 hother]
      exact ⟨node, Or.inr (Multiset.mem_cons_self _ _)⟩
  · exact fun root hroot => hstay _ (h.root_reached root hroot)
  · exact fun package hpackage dep hdep => hstay _ (h.dependency_reached package hpackage dep hdep)

/-- The writer of a package goes on. -/
theorem Sound.scope (h : Sound p s roots packages) {id : PackageId} {node : PackageNode}
    {others : Multiset (PackageId × PackageNode)} (hpackages : s.packages = (id, node) ::ₘ others)
    (hread : s.reader.HasRead (p.needs s.reader.manifestOf id node)) :
    Sound p { s with
      map := p.withScope s.map id (p.scopeEntries s.reader.manifestOf id node)
      reached := s.reached + ((p.dependencies node).values : Multiset PackageId)
      packages := others } roots (packages ++ [(id, node)]) := by
  -- All manifests that the writer needs have been read, so it sees those of the installation.
  obtain ⟨hreadable, hmanifest⟩ := Project.manifestOf_eq h.faithful hread
  have hneeds := @Project.needs_congr p _ _ id node (hmanifest id List.mem_cons_self)
  have hwriters := h.reaches_packages
  rw [hpackages] at hwriters
  obtain ⟨hid, hnode⟩ := hwriters (id, node) (Multiset.mem_cons_self _ _)
  have hwrites : p.Populates id node := ⟨hid, hnode, hneeds ▸ hreadable⟩
  refine { h with
    map_eq := ?_, populates := ?_, reaches_packages := ?_, reaches_reached := ?_,
    seen_cases := ?_, root_reached := ?_, dependency_reached := ?_ }
  · rw [Project.draft_append_package, ← h.map_eq, Project.scopeOf,
      Project.scopeEntries_congr hmanifest]
  · intro package hpackage
    rcases List.mem_append.1 hpackage with hpackage | hpackage
    · exact h.populates package hpackage
    · rw [List.mem_singleton.1 hpackage]
      exact hwrites
  · exact fun package hpackage => hwriters package (Multiset.mem_cons_of_mem hpackage)
  · intro other hother
    rcases Multiset.mem_add.1 hother with hother | hother
    · exact h.reaches_reached other hother
    · exact .dependency hid hnode hwrites.readable (Multiset.mem_coe.1 hother)
  · intro other hother
    obtain ⟨node', hnode' | hnode'⟩ := h.seen_cases other hother
    · exact ⟨node', Or.inl (List.mem_append_left _ hnode')⟩
    · rw [hpackages, Multiset.mem_cons] at hnode'
      rcases hnode' with hnode' | hnode'
      · exact ⟨node', Or.inl (List.mem_append_right _ (List.mem_singleton.2 hnode'))⟩
      · exact ⟨node', Or.inr hnode'⟩
  · exact fun root hroot => (h.root_reached root hroot).imp_right fun hother =>
      Multiset.mem_add.2 (Or.inl hother)
  · intro package hpackage dep hdep
    rcases List.mem_append.1 hpackage with hpackage | hpackage
    · exact (h.dependency_reached package hpackage dep hdep).imp_right fun hother =>
        Multiset.mem_add.2 (Or.inl hother)
    · rw [List.mem_singleton.1 hpackage] at hdep
      exact Or.inr (Multiset.mem_add.2 (Or.inr (Multiset.mem_coe.2 hdep)))

/-- **Soundness is kept by every step.** -/
theorem Sound.step (h : Sound p s roots packages) (hs : Step p s s') :
    ∃ roots packages, Sound p s' roots packages := by
  cases hs with
  | request id => exact ⟨roots, packages, h.withReader (h.faithful.request id)⟩
  | finish id => exact ⟨roots, packages, h.withReader (h.faithful.finish id)⟩
  | root hroots hread => exact ⟨_, packages, h.root hroots hread⟩
  | again hreached hseen => exact ⟨roots, packages, h.again hreached hseen⟩
  | reach hreached _ hnode => exact ⟨roots, packages, h.reach hreached hnode⟩
  | scope hpackages hread => exact ⟨roots, _, h.scope hpackages hread⟩

/-- **Every stage of every schedule is sound.** -/
theorem sound_of_steps (h : ReflTransGen (Step p) (start p) s) :
    ∃ roots packages, Sound p s roots packages := by
  induction h with
  | refl => exact ⟨[], [], sound_start p⟩
  | tail _ hs ih =>
      obtain ⟨roots, packages, hsound⟩ := ih
      exact hsound.step hs

/-! ### The last stage -/

/-- Every package that is reached has been seen when all writers have written. -/
theorem Sound.mem_seen (h : Sound p s roots packages) (hf : s.Finished) {id : PackageId}
    (hid : p.Reaches id) : id ∈ s.seen := by
  obtain ⟨hroots, hreached, hpackages⟩ := hf
  have hseen : ∀ other, other ∈ s.seen ∨ other ∈ s.reached → other ∈ s.seen := by
    rintro other (hother | hother)
    · exact hother
    · rw [hreached] at hother
      exact absurd hother (Multiset.notMem_zero _)
  induction hid with
  | root hroot _ =>
      rw [← Multiset.mem_coe, ← h.roots_eq, hroots, Multiset.add_zero] at hroot
      exact hseen _ (h.root_reached _ (Multiset.mem_coe.1 hroot))
  | @dependency id dep node _ hnode _ hdep ih =>
      obtain ⟨node', hnode' | hnode'⟩ := h.seen_cases id ih
      · have heq : node' = node := by
          have hok := (h.populates _ hnode').node_eq
          rw [hnode] at hok
          exact (Except.ok.inj hok).symm
        rw [heq] at hnode'
        exact hseen dep (h.dependency_reached _ hnode' dep hdep)
      · rw [hpackages] at hnode'
        exact absurd hnode' (Multiset.notMem_zero _)

/-- **When all writers have written, the map is a draft of all of them.** -/
theorem Sound.complete (h : Sound p s roots packages) (hf : s.Finished) :
    p.Complete roots packages := by
  have hwritten : ∀ id, p.Reaches id → ∃ node, (id, node) ∈ packages := by
    intro id hid
    obtain ⟨node, hnode | hnode⟩ := h.seen_cases id (h.mem_seen hf hid)
    · exact ⟨node, hnode⟩
    · rw [hf.2.2] at hnode
      exact absurd hnode (Multiset.notMem_zero _)
  refine ⟨?_, h.readable, fun package => ⟨h.populates package, fun hp => ?_⟩, fun id hid => ?_⟩
  · have hroots := h.roots_eq
    rw [hf.1, Multiset.add_zero] at hroots
    exact Multiset.coe_eq_coe.1 hroots
  · obtain ⟨node, hnode⟩ := hwritten package.1 hp.reaches
    have hok := (h.populates _ hnode).node_eq
    rw [hp.node_eq] at hok
    obtain rfl : package.2 = node := Except.ok.inj hok
    exact hnode
  · obtain ⟨node, hnode⟩ := hwritten id hid
    exact ⟨node, h.populates _ hnode⟩

end Stage

/-- **What a schedule ends with** is the completed draft of all writers. -/
theorem Project.exists_complete_of_outcome {p : Project} {map : ImportMap} (h : p.Outcome map) :
    ∃ roots packages, p.Complete roots packages ∧ map = p.completed (p.draft roots packages) := by
  obtain ⟨s, hsteps, hf, rfl⟩ := h
  obtain ⟨roots, packages, hsound⟩ := Stage.sound_of_steps hsteps
  exact ⟨roots, packages, hsound.complete hf, by rw [hsound.map_eq]⟩

end ImportAtlas
