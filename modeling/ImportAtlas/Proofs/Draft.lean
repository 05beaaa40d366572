import ImportAtlas.Project.Build
import ImportAtlas.Proofs.Reading

/-!
# What a build writes

Every alias of a project that is mapped has a writer of top-level entries, and every package that
is reached has a writer of one scope. What they write depends on manifests alone, so that the map
of a finished build is known from the order in which they wrote.

## Main results

* `Project.scopeEntries_congr`: the scope of a package depends on the manifests that it needs.
* `Project.Reaches`: the packages that a build comes to.
* `Project.get?_imports_draft`, `Project.get?_scopes_draft`: when writers keep apart, the readings
  of a draft do not depend on the order of writing.
-/

namespace ImportAtlas

namespace Project

variable {p : Project}

/-! ### Manifests -/

/-- The manifest that the installation gives for a package. -/
def manifestOf (p : Project) (id : PackageId) : Manifest :=
  ((p.installation.manifest id).toOption).getD default

/-- Whether the manifests of some packages can be read. -/
def Readable (p : Project) (ids : List PackageId) : Prop :=
  ∀ id ∈ ids, ∃ manifest, p.installation.manifest id = .ok manifest

theorem manifestOf_of_ok {id : PackageId} {manifest : Manifest}
    (h : p.installation.manifest id = .ok manifest) : p.manifestOf id = manifest := by
  rw [manifestOf, h]
  rfl

/-- What has been read faithfully is the manifest that the installation gives. -/
theorem manifestOf_eq {reader : ManifestReader} (hf : reader.Faithful p.installation)
    {ids : List PackageId} (h : reader.HasRead ids) :
    p.Readable ids ∧ ∀ id ∈ ids, reader.manifestOf id = p.manifestOf id := by
  refine ⟨fun id hid => ?_, fun id hid => ?_⟩
  · obtain ⟨manifest, hm⟩ := h id hid
    exact ⟨manifest, (hf id _ hm).symm⟩
  · obtain ⟨manifest, hm⟩ := h id hid
    rw [manifestOf_of_ok (hf id _ hm).symm, ManifestReader.manifestOf, hm]
    rfl

/-! ### Entries -/

/-- The packages whose manifests the scope of a package depends on. -/
def needs (p : Project) (manifestOf : PackageId → Manifest) (id : PackageId) (node : PackageNode) :
    List PackageId :=
  id :: ((p.dependencies node).values ++ p.meantPackages (manifestOf id) node)

/-- A target that means a part of a package makes it one of the packages that are meant. -/
theorem mem_meantPackages {manifest : Manifest} {node : PackageNode} {specifier target : String}
    {part : PackagePart} (he : (specifier, target) ∈ manifest.map.entries)
    (hm : p.meaning node target = .package part) : part.id ∈ p.meantPackages manifest node := by
  rw [meantPackages, List.mem_filterMap]
  refine ⟨(specifier, target), he, ?_⟩
  simp only [hm]

/-- **The scope of a package depends on the manifests that it needs**, and on no other. -/
theorem scopeEntries_congr {manifestOf manifestOf' : PackageId → Manifest} {id : PackageId}
    {node : PackageNode} (h : ∀ i ∈ p.needs manifestOf id node, manifestOf i = manifestOf' i) :
    p.scopeEntries manifestOf id node = p.scopeEntries manifestOf' id node := by
  have hid : manifestOf id = manifestOf' id := h id List.mem_cons_self
  have hown : p.ownEntries manifestOf id = p.ownEntries manifestOf' id := by
    rw [ownEntries, ownEntries, hid]
  have halias : p.aliasEntries manifestOf node = p.aliasEntries manifestOf' node := by
    refine List.flatMap_congr fun e he => ?_
    have hdep : manifestOf e.2 = manifestOf' e.2 :=
      h e.2 (List.mem_cons_of_mem _ (List.mem_append_left _ (List.mem_map_of_mem he)))
    simp only [hdep]
  have hmeaning : p.meaningEntries manifestOf id node = p.meaningEntries manifestOf' id node := by
    rw [meaningEntries, meaningEntries, ← hid]
    refine List.filterMap_congr fun e he => ?_
    obtain ⟨specifier, target⟩ := e
    cases hm : p.meaning node target with
    | package part =>
        have hpart : manifestOf part.id = manifestOf' part.id :=
          h part.id (List.mem_cons_of_mem _ (List.mem_append_right _ (mem_meantPackages he hm)))
        simp only [hm, meaningTarget?, hpart]
    | emptyModule | ownFile _ | place _ | builtin _ | unknown => simp only [hm, meaningTarget?]
  rw [scopeEntries, scopeEntries, hown, halias, hmeaning]

/-- The packages that a scope needs are the same for manifests that agree on the package. -/
theorem needs_congr {manifestOf manifestOf' : PackageId → Manifest} {id : PackageId}
    {node : PackageNode} (h : manifestOf id = manifestOf' id) :
    p.needs manifestOf id node = p.needs manifestOf' id node := by
  rw [needs, needs, h]

/-- The top-level entries for an alias of the project. -/
def rootEntries (p : Project) (root : String × PackageId) : List (String × String) :=
  p.packageEntries root.1 root.2 (p.manifestOf root.2)

/-- The scope of a package, by the manifests that the installation gives. -/
def scopeOf (p : Project) (id : PackageId) (node : PackageNode) : Imports :=
  p.scopeEntries p.manifestOf id node

/-- The scope that a package adds below its folder, none without entries. -/
def addedScope (p : Project) (package : PackageId × PackageNode) : List (String × Imports) :=
  if (p.scopeOf package.1 package.2).isEmpty then []
  else [(p.packageFolder package.1, p.scopeOf package.1 package.2)]

theorem mem_addedScope {package : PackageId × PackageNode} {folder : String} {entries : Imports} :
    (folder, entries) ∈ p.addedScope package ↔
      (p.scopeOf package.1 package.2).isEmpty = false ∧ folder = p.packageFolder package.1 ∧
        entries = p.scopeOf package.1 package.2 := by
  rw [addedScope]
  cases h : (p.scopeOf package.1 package.2).isEmpty <;> simp

/-- A map with the scope of a package added below its folder, none without entries. -/
def withScope (p : Project) (map : ImportMap) (id : PackageId) (entries : Imports) : ImportMap :=
  if entries.isEmpty then map else map.setScope (p.packageFolder id) entries

/-- What writers that wrote in a given order have written. -/
def draft (p : Project) (roots : List (String × PackageId))
    (packages : List (PackageId × PackageNode)) : ImportMap :=
  ⟨Dict.ofList (roots.flatMap p.rootEntries), Dict.ofList (packages.flatMap p.addedScope)⟩

/-- An alias that writes last. -/
theorem draft_append_root (roots : List (String × PackageId)) (root : String × PackageId)
    (packages : List (PackageId × PackageNode)) :
    p.draft (roots ++ [root]) packages =
      { p.draft roots packages with
        imports := (p.draft roots packages).imports.insertMany (p.rootEntries root) } := by
  rw [draft, List.flatMap_append, List.flatMap_singleton, Dict.ofList, Dict.insertMany_append]
  rfl

/-- A package that writes last. -/
theorem draft_append_package (roots : List (String × PackageId))
    (packages : List (PackageId × PackageNode)) (package : PackageId × PackageNode) :
    p.draft roots (packages ++ [package]) =
      p.withScope (p.draft roots packages) package.1 (p.scopeOf package.1 package.2) := by
  rw [draft, List.flatMap_append, List.flatMap_singleton, Dict.ofList, Dict.ofList,
    Dict.insertMany_append, addedScope, withScope]
  by_cases h : (p.scopeOf package.1 package.2).isEmpty = true
  · rw [if_pos h, if_pos h]
    rfl
  · rw [if_neg h, if_neg h]
    rfl

/-- When the writers of aliases keep apart, the top-level entries do not depend on their order. -/
theorem get?_imports_draft {roots : List (String × PackageId)} {k v : String}
    (h : ∀ a ∈ roots, ∀ b ∈ roots, k ∈ (p.rootEntries a).map Prod.fst →
      k ∈ (p.rootEntries b).map Prod.fst → a = b) (packages : List (PackageId × PackageNode)) :
    (p.draft roots packages).imports.get? k = some v ↔
      ∃ root ∈ roots, (Dict.ofList (p.rootEntries root)).get? k = some v :=
  Dict.get?_ofList_flatMap h

/-- When the writers of scopes keep apart, the scopes do not depend on their order. -/
theorem get?_scopes_draft {packages : List (PackageId × PackageNode)} {folder : String}
    {entries : Imports}
    (h : ∀ a ∈ packages, ∀ b ∈ packages, folder ∈ (p.addedScope a).map Prod.fst →
      folder ∈ (p.addedScope b).map Prod.fst → a = b) (roots : List (String × PackageId)) :
    (p.draft roots packages).scopes.get? folder = some entries ↔
      ∃ package ∈ packages, (folder, entries) ∈ p.addedScope package := by
  have hadded : ∀ package, (Dict.ofList (p.addedScope package)).get? folder = some entries ↔
      (folder, entries) ∈ p.addedScope package := by
    intro package
    refine ⟨Dict.mem_of_get?_ofList, fun hmem => Dict.get?_ofList_of_mem (fun w hw => ?_) hmem⟩
    rw [(mem_addedScope.1 hmem).2.2, (mem_addedScope.1 hw).2.2]
  rw [draft, Dict.get?_ofList_flatMap h]
  simp only [hadded]

/-! ### Platform modules -/

theorem get?_foldl_builtins (p : Project) (names : List String) (imports : Imports) (k : String) :
    (names.foldl (fun (imports : Imports) name =>
      if imports.contains name then imports else imports.insert name (p.shimPath name))
      imports).get? k =
      (imports.get? k).or (if k ∈ names then some (p.shimPath k) else none) := by
  induction names generalizing imports with
  | nil => simp
  | cons name names ih =>
      rw [List.foldl_cons, ih]
      by_cases hk : k = name
      · subst hk
        rw [Dict.contains_eq_isSome]
        cases hv : imports.get? k with
        | none => simp [Dict.get?_insert]
        | some v => simp [hv]
      · have hget : (if imports.contains name then imports
            else imports.insert name (p.shimPath name)).get? k = imports.get? k := by
          split
          · rfl
          · rw [Dict.get?_insert, if_neg hk]
        rw [hget]
        simp only [List.mem_cons, hk, false_or]

/-- Platform modules are added where there is no entry yet. -/
theorem get?_imports_addBuiltins (p : Project) (map : ImportMap) (k : String) :
    (Build.addBuiltins p map).imports.get? k =
      (map.imports.get? k).or (if k ∈ Builtin.names then some (p.shimPath k) else none) := by
  rw [← get?_foldl_builtins, Build.addBuiltins]

theorem scopes_addBuiltins (p : Project) (map : ImportMap) :
    (Build.addBuiltins p map).scopes = map.scopes := by
  rw [Build.addBuiltins]

/-! ### Packages that are reached -/

/-- The packages that a build comes to: those of mapped aliases of the project, and those of
mapped aliases of packages that it came to before. A build does not come past a manifest that
cannot be read. -/
inductive Reaches (p : Project) : PackageId → Prop
  | root {name : String} {id : PackageId} (hroot : (name, id) ∈ (p.mapped p.roots).entries)
      (hread : p.Readable [id]) : Reaches p id
  | dependency {id dep : PackageId} {node : PackageNode} (hid : Reaches p id)
      (hnode : p.installation.graph.node id = .ok node)
      (hread : p.Readable (p.needs p.manifestOf id node))
      (hdep : dep ∈ (p.dependencies node).values) : Reaches p dep

/-- The packages whose scopes a build writes. -/
structure Populates (p : Project) (id : PackageId) (node : PackageNode) : Prop where
  /-- The build comes to the package. -/
  reaches : p.Reaches id
  /-- The package is installed. -/
  node_eq : p.installation.graph.node id = .ok node
  /-- The manifests for the scope can be read. -/
  readable : p.Readable (p.needs p.manifestOf id node)

/-- A package has one node. -/
theorem Populates.node_unique {id : PackageId} {node node' : PackageNode}
    (h : p.Populates id node) (hnode : p.installation.graph.node id = .ok node') :
    node = node' := by
  have hok := h.node_eq
  rw [hnode] at hok
  exact (Except.ok.inj hok).symm

end Project

end ImportAtlas
