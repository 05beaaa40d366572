import ImportAtlas.Proofs.Draft
import ImportAtlas.Proofs.Paths
import ImportAtlas.Proofs.Resolve

/-!
# Names from a lock file

The packages of a project are named by identifiers that were read from texts. The reader of lock
files sees to that, and it is what makes the folder of a package tell where the package is.

## Main results

* `Project.WellNamed.parsed`: every package that is reached was read from a text.
* `Project.wellNamed_of_make`: a project with the aliases of its lock file is well named.
-/

namespace ImportAtlas

namespace Project

variable {p : Project}

/-- Whether the packages that a project and its packages name were read from texts, as those of a
lock file are. -/
structure WellNamed (p : Project) : Prop where
  /-- The aliases of the project. -/
  roots : ∀ root ∈ p.roots.entries, root.2.Parsed
  /-- The aliases of installed packages. -/
  packages : ∀ package ∈ p.installation.graph.packages.entries,
    ∀ id ∈ package.2.resolve.values, id.Parsed

/-- Every package that is reached was read from a text. -/
theorem WellNamed.parsed (h : p.WellNamed) {id : PackageId} (hid : p.Reaches id) : id.Parsed := by
  cases hid with
  | root hroot _ => exact h.roots _ (List.mem_filter.1 hroot).1
  | @dependency id dep node _ hnode _ hdep =>
      obtain ⟨entry, hentry, rfl⟩ := List.mem_map.1 hdep
      rw [DependencyGraph.node] at hnode
      split at hnode
      · rename_i node' hget
        obtain rfl : node' = node := Except.ok.inj hnode
        exact h.packages _ (Dict.get?_eq_some_iff.1 hget) _
          (List.mem_map_of_mem (List.mem_filter.1 hentry).1)
      · exact absurd hnode (by simp)

/-! ### Reading a lock file -/

theorem parsed_of_packageOf {value : Value} {context : String} {id : PackageId}
    (h : DependencyGraph.packageOf value context = .ok id) : id.Parsed := by
  rw [DependencyGraph.packageOf] at h
  split at h
  · rename_i id' hparse
    obtain rfl : id' = id := Except.ok.inj h
    obtain ⟨text, -, htext⟩ := Option.bind_eq_some_iff.1 hparse
    exact ⟨text, htext⟩
  · exact absurd h (by simp)

theorem parsed_of_resolutions {value : Value} {context : String} {aliases : Dict String PackageId}
    (h : DependencyGraph.resolutions value context = .ok aliases) :
    ∀ entry ∈ aliases.entries, entry.2.Parsed := by
  unfold DependencyGraph.resolutions at h
  split at h
  · obtain rfl : ∅ = aliases := Except.ok.inj h
    exact fun entry hentry => absurd hentry List.not_mem_nil
  · split at h
    · obtain ⟨entries, hentries, hlist⟩ := exists_of_bind_eq_ok h
      obtain rfl : Dict.ofList entries = aliases := Except.ok.inj hlist
      intro entry hentry
      have hmem : entry ∈ entries := Dict.mem_of_get?_ofList (Dict.get?_eq_some_iff.2 hentry)
      obtain ⟨⟨name, target⟩, -, hfield⟩ := (mem_iff_of_mapM_eq_ok hentries).1 hmem
      obtain ⟨id, hid, hpair⟩ := exists_of_bind_eq_ok hfield
      obtain rfl : (name, id) = entry := Except.ok.inj hpair
      exact parsed_of_packageOf hid
    · exact absurd h (by simp)

theorem parsed_of_entryOf {name : String} {entry : Value} {package : PackageId × PackageNode}
    (h : DependencyGraph.entryOf name entry = .ok package) :
    ∀ id ∈ package.2.resolve.values, id.Parsed := by
  rw [DependencyGraph.entryOf] at h
  obtain ⟨id, -, h⟩ := exists_of_bind_eq_ok h
  have htail : ∃ fields description?, ∃ aliases,
      DependencyGraph.resolutions (Value.field fields "resolve") name = .ok aliases ∧
        package = (id, ⟨aliases, description?⟩) := by
    simp only at h
    split at h
    · obtain ⟨fields, -, h⟩ := exists_of_bind_eq_ok h
      obtain ⟨aliases, haliases, h⟩ := exists_of_bind_eq_ok h
      exact ⟨fields, _, aliases, haliases, (Except.ok.inj h).symm⟩
    · split at h
      · exact absurd h (by simp [bind, Except.bind])
      · obtain ⟨fields, -, h⟩ := exists_of_bind_eq_ok h
        obtain ⟨aliases, haliases, h⟩ := exists_of_bind_eq_ok h
        exact ⟨fields, _, aliases, haliases, (Except.ok.inj h).symm⟩
  obtain ⟨fields, description?, aliases, haliases, rfl⟩ := htail
  intro other hother
  obtain ⟨entry', hentry', rfl⟩ := List.mem_map.1 hother
  exact parsed_of_resolutions haliases entry' hentry'

/-- The aliases and packages of a lock file were read from texts. -/
theorem parsed_of_ofFields {fields : List (String × Value)} {dev : List String}
    {graph : DependencyGraph} (h : DependencyGraph.ofFields fields dev = .ok graph) :
    (∀ root ∈ graph.resolve.entries, root.2.Parsed) ∧
      ∀ package ∈ graph.packages.entries, ∀ id ∈ package.2.resolve.values, id.Parsed := by
  rw [DependencyGraph.ofFields] at h
  obtain ⟨resolve, hresolve, h⟩ := exists_of_bind_eq_ok h
  have htail : ∃ entries : List (String × Value), ∃ packages,
      entries.mapM (fun entry => DependencyGraph.entryOf entry.1 entry.2) = .ok packages ∧
        graph = ⟨resolve, Dict.ofList packages, dev.eraseDups⟩ := by
    simp only at h
    split at h
    · obtain ⟨entries, -, h⟩ := exists_of_bind_eq_ok h
      obtain ⟨packages, hpackages, h⟩ := exists_of_bind_eq_ok h
      exact ⟨entries, packages, hpackages, (Except.ok.inj h).symm⟩
    · split at h
      · exact absurd h (by simp [bind, Except.bind])
      · obtain ⟨entries, -, h⟩ := exists_of_bind_eq_ok h
        obtain ⟨packages, hpackages, h⟩ := exists_of_bind_eq_ok h
        exact ⟨entries, packages, hpackages, (Except.ok.inj h).symm⟩
  obtain ⟨entries, packages, hpackages, rfl⟩ := htail
  refine ⟨parsed_of_resolutions hresolve, fun package hpackage => ?_⟩
  have hmem : package ∈ packages := Dict.mem_of_get?_ofList (Dict.get?_eq_some_iff.2 hpackage)
  obtain ⟨entry, -, hentry⟩ := (mem_iff_of_mapM_eq_ok hpackages).1 hmem
  exact parsed_of_entryOf hentry

/-- **A project with the aliases of its lock file is well named.** -/
theorem wellNamed_of_make {fields : List (String × Value)} {dev : List String}
    {graph : DependencyGraph} {files : FileTree} {directory mapBase : String} {settings : Settings}
    {env : Environment} (hgraph : DependencyGraph.ofFields fields dev = .ok graph)
    (h : make graph files directory settings env mapBase none = .ok p) : p.WellNamed := by
  rw [make] at h
  obtain ⟨builtins, -, h⟩ := exists_of_bind_eq_ok h
  obtain ⟨base, -, h⟩ := exists_of_bind_eq_ok h
  obtain rfl := Except.ok.inj h
  obtain ⟨hroots, hpackages⟩ := parsed_of_ofFields hgraph
  exact ⟨fun root hroot => hroots root (List.mem_filter.1 hroot).1, hpackages⟩

end Project

end ImportAtlas
