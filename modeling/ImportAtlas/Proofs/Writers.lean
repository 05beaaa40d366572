import ImportAtlas.Proofs.Paths
import ImportAtlas.Proofs.Reordering
import ImportAtlas.Proofs.Simulation
import ImportAtlas.Proofs.WellNamed

/-!
# When writers keep apart

The writers of a build run concurrently without a lock. This is sound when no two of them write
the same key: then every schedule ends with the same map. Whether they keep apart can be read off
the aliases of the project, the files that manifests replace, and the places of packages.

## Summary

* `Project.WritersApart`: distinct writers write disjoint sets of keys.
* `Project.BuildsAlike`: every schedule, for every order of the aliases, ends with one map.
* `Project.AliasesApart`, `Project.FoldersApart`: the same seen from aliases and packages.

## Main results

* `Project.WritersApart.buildsAlike`: writers that keep apart build one map.
* `Project.writersApart_iff`: writers keep apart and builds are alike exactly when aliases and
  folders keep apart.
-/

namespace ImportAtlas

namespace Project

variable {p : Project}

/-! ### Keys that are written -/

/-- The keys of top-level entries that the writer of an alias writes. -/
def rootKeys (p : Project) (root : String × PackageId) : List String :=
  (p.rootEntries root).map Prod.fst

/-- The keys of scopes that the writer of a package writes. -/
def scopeKeys (p : Project) (package : PackageId × PackageNode) : List String :=
  (p.addedScope package).map Prod.fst

/-- The files of a package that its manifest replaces. -/
def subpaths (p : Project) (id : PackageId) : List String := (p.manifestOf id).paths.keys

/-- **Distinct writers write disjoint sets of keys.** Only what can be read is written. -/
structure WritersApart (p : Project) : Prop where
  /-- Writers of different aliases write different top-level entries. -/
  roots : ∀ a ∈ (p.mapped p.roots).entries, ∀ b ∈ (p.mapped p.roots).entries, a ≠ b →
    p.Readable [a.2] → p.Readable [b.2] → (p.rootKeys a).Disjoint (p.rootKeys b)
  /-- Writers of different packages write different scopes. -/
  packages : ∀ a b : PackageId × PackageNode, p.Populates a.1 a.2 → p.Populates b.1 b.2 → a ≠ b →
    (p.scopeKeys a).Disjoint (p.scopeKeys b)

/-- **Builds are alike**: every schedule that ends, for any order of the aliases, ends with the
same map, and so does the build that runs. -/
structure BuildsAlike (p : Project) : Prop where
  /-- Outcomes of schedules are the same. -/
  outcome : ∀ roots : Dict String PackageId, roots.entries.Perm p.roots.entries →
    ∀ map map', p.Outcome map → (p.withRoots roots).Outcome map' → map' = map
  /-- Results of the build that runs are the same. -/
  build : ∀ roots : Dict String PackageId, roots.entries.Perm p.roots.entries →
    ∀ map map', p.build = .ok map → (p.withRoots roots).build = .ok map' → map' = map

/-- No alias stands below another where the package of that one has entries: neither at its folder,
nor at a file that its manifest replaces, nor at the folder of such a file, nor with a replaced
file of its own at one. -/
def AliasesApart (p : Project) : Prop :=
  ∀ a ∈ (p.mapped p.roots).entries, ∀ b ∈ (p.mapped p.roots).entries,
    p.Readable [a.2] → p.Readable [b.2] → ∀ rest, a.1 = b.1 ++ "/" ++ rest →
      rest ≠ "" ∧ rest ∉ p.subpaths b.2 ∧ rest ++ "/" ∉ p.subpaths b.2 ∧
        ∀ path ∈ p.subpaths a.2, rest ++ "/" ++ path ∉ p.subpaths b.2

/-- No two packages with scopes are at one place. -/
def FoldersApart (p : Project) : Prop :=
  ∀ a b : PackageId × PackageNode, p.Populates a.1 a.2 → p.Populates b.1 b.2 →
    (p.scopeOf a.1 a.2).isEmpty = false → (p.scopeOf b.1 b.2).isEmpty = false →
      p.place a.1 = p.place b.1 → a.1 = b.1

theorem mem_rootKeys {root : String × PackageId} {key : String} :
    key ∈ p.rootKeys root ↔
      key = root.1 ∨ ∃ rest, key = root.1 ++ "/" ++ rest ∧
        (rest = "" ∨ rest ∈ p.subpaths root.2) := by
  have hkeys : p.rootKeys root =
      root.1 :: (root.1 ++ "/") :: (p.subpaths root.2).map fun path => root.1 ++ "/" ++ path := by
    rw [rootKeys, rootEntries, packageEntries, List.map_cons, List.map_cons, List.map_map,
      subpaths, Dict.keys, List.map_map]
    rfl
  rw [hkeys, List.mem_cons, List.mem_cons, List.mem_map]
  constructor
  · rintro (rfl | rfl | ⟨path, hpath, rfl⟩)
    · exact Or.inl rfl
    · exact Or.inr ⟨"", by rw [String.append_empty], Or.inl rfl⟩
    · exact Or.inr ⟨path, rfl, Or.inr hpath⟩
  · rintro (rfl | ⟨rest, rfl, rfl | hrest⟩)
    · exact Or.inl rfl
    · exact Or.inr (Or.inl (by rw [String.append_empty]))
    · exact Or.inr (Or.inr ⟨rest, hrest, rfl⟩)

theorem mem_scopeKeys {package : PackageId × PackageNode} {key : String} :
    key ∈ p.scopeKeys package ↔
      (p.scopeOf package.1 package.2).isEmpty = false ∧ key = p.packageFolder package.1 := by
  rw [scopeKeys, List.mem_map]
  constructor
  · rintro ⟨⟨folder, entries⟩, hmem, rfl⟩
    obtain ⟨hne, hfolder, -⟩ := mem_addedScope.1 hmem
    exact ⟨hne, hfolder⟩
  · rintro ⟨hne, rfl⟩
    exact ⟨_, mem_addedScope.2 ⟨hne, rfl, rfl⟩, rfl⟩

/-! ### Aliases that keep apart -/

/-- Of two names before a slash in one key, the longer one stands below the shorter one. -/
theorem exists_below {name name' rest rest' : String}
    (h : name ++ "/" ++ rest = name' ++ "/" ++ rest') (hlt : name'.length < name.length) :
    ∃ below, name = name' ++ "/" ++ below ∧ rest' = below ++ "/" ++ rest := by
  have hlist := congrArg String.toList h
  simp only [String.toList_append] at hlist
  have hstart : name'.toList ++ "/".toList <+: name.toList := by
    have hlong : name.toList <+: name.toList ++ "/".toList ++ rest.toList := by
      rw [List.append_assoc]
      exact List.prefix_append _ _
    refine List.prefix_of_prefix_length_le ?_ hlong ?_
    · rw [hlist]
      exact List.prefix_append _ _
    · rw [List.length_append, String.length_toList, String.length_toList, String.length_toList]
      exact hlt
  obtain ⟨below, hbelow⟩ := hstart
  have hname : name = name' ++ "/" ++ String.ofList below := by
    refine String.toList_injective ?_
    rw [String.toList_append, String.toList_append, @String.toList_ofList below]
    exact hbelow.symm
  refine ⟨String.ofList below, hname, String.toList_injective ?_⟩
  rw [← hbelow, List.append_assoc, List.append_assoc] at hlist
  rw [String.toList_append, String.toList_append, @String.toList_ofList below,
    List.append_assoc]
  exact (List.append_cancel_left hlist).symm

/-- A name below another one, as far as the keys of the two are concerned. -/
theorem not_mem_rootKeys_of_below (h : p.AliasesApart) {a b : String × PackageId}
    (ha : a ∈ (p.mapped p.roots).entries) (hb : b ∈ (p.mapped p.roots).entries)
    (hra : p.Readable [a.2]) (hrb : p.Readable [b.2]) {key : String} (hka : key ∈ p.rootKeys a)
    (hlt : b.1.length < a.1.length) : key ∉ p.rootKeys b := by
  intro hkb
  rcases mem_rootKeys.1 hkb with hkey | ⟨rest', hkey, hrest'⟩
  · rcases mem_rootKeys.1 hka with hkey' | ⟨rest, hkey', -⟩
    · rw [← hkey', hkey] at hlt
      exact absurd hlt (Nat.lt_irrefl _)
    · rw [← hkey, hkey', String.length_append, String.length_append] at hlt
      omega
  · rcases mem_rootKeys.1 hka with rfl | ⟨rest, hkey', hrest⟩
    · obtain ⟨hempty, hfile, -, -⟩ := h a ha b hb hra hrb rest' hkey
      rcases hrest' with hrest' | hrest'
      · exact hempty hrest'
      · exact hfile hrest'
    · obtain ⟨below, hname, rfl⟩ := exists_below (hkey'.symm.trans hkey) hlt
      obtain ⟨-, -, hfolder, hpath⟩ := h a ha b hb hra hrb below hname
      rcases hrest' with hrest' | hrest'
      · have hlen := congrArg String.length hrest'
        rw [String.length_append, String.length_append] at hlen
        exact absurd hlen (by simp)
      · rcases hrest with rfl | hrest
        · rw [String.append_empty] at hrest'
          exact hfolder hrest'
        · exact hpath rest hrest hrest'

/-- **Writers of aliases keep apart exactly when the aliases do.** -/
theorem disjoint_rootKeys_iff :
    (∀ a ∈ (p.mapped p.roots).entries, ∀ b ∈ (p.mapped p.roots).entries, a ≠ b →
      p.Readable [a.2] → p.Readable [b.2] → (p.rootKeys a).Disjoint (p.rootKeys b)) ↔
      p.AliasesApart := by
  constructor
  · intro h a ha b hb hra hrb rest hname
    have hne : a ≠ b := by
      rintro rfl
      have hlen := congrArg String.length hname
      rw [String.length_append, String.length_append, show "/".length = 1 from rfl] at hlen
      omega
    have hdisjoint : ∀ key, key ∈ p.rootKeys a → key ∉ p.rootKeys b := fun key hka hkb =>
      h a ha b hb hne hra hrb hka hkb
    have hown : a.1 ∈ p.rootKeys a := mem_rootKeys.2 (Or.inl rfl)
    refine ⟨?_, fun hrest => ?_, fun hrest => ?_, fun path hpath hrest => ?_⟩
    · rintro rfl
      exact hdisjoint _ hown (mem_rootKeys.2 (Or.inr ⟨"", hname, Or.inl rfl⟩))
    · exact hdisjoint _ hown (mem_rootKeys.2 (Or.inr ⟨rest, hname, Or.inr hrest⟩))
    · refine hdisjoint (a.1 ++ "/") (mem_rootKeys.2 (Or.inr ⟨"", ?_, Or.inl rfl⟩))
        (mem_rootKeys.2 (Or.inr ⟨rest ++ "/", ?_, Or.inr hrest⟩))
      · rw [String.append_empty]
      · rw [hname, String.append_assoc]
    · refine hdisjoint (a.1 ++ "/" ++ path) (mem_rootKeys.2 (Or.inr ⟨path, rfl, Or.inr hpath⟩))
        (mem_rootKeys.2 (Or.inr ⟨rest ++ "/" ++ path, ?_, Or.inr hrest⟩))
      simp only [hname, String.append_assoc]
  · intro h a ha b hb hne hra hrb key hka hkb
    have hnames : a.1 ≠ b.1 := by
      intro heq
      have hva : (p.mapped p.roots).get? a.1 = some a.2 := Dict.get?_eq_some_iff.2 ha
      have hvb : (p.mapped p.roots).get? b.1 = some b.2 := Dict.get?_eq_some_iff.2 hb
      rw [heq, hvb] at hva
      exact hne (Prod.ext heq (Option.some.inj hva).symm)
    -- A key of both begins with both aliases, so the shorter one is a folder of the longer one.
    rcases Nat.lt_trichotomy a.1.length b.1.length with hlt | hlen | hlt
    · exact not_mem_rootKeys_of_below h hb ha hrb hra hkb hlt hka
    · have hstart : ∀ root : String × PackageId, key ∈ p.rootKeys root →
          root.1.toList <+: key.toList := by
        intro root hkey
        rcases mem_rootKeys.1 hkey with rfl | ⟨rest, rfl, -⟩
        · exact List.prefix_rfl
        · rw [String.toList_append, String.toList_append, List.append_assoc]
          exact List.prefix_append _ _
      rw [← String.length_toList, ← String.length_toList] at hlen
      exact hnames (String.toList_injective ((List.prefix_of_prefix_length_le (hstart a hka)
        (hstart b hkb) hlen.le).eq_of_length hlen))
    · exact not_mem_rootKeys_of_below h ha hb hra hrb hka hlt hkb

/-- **Writers of packages keep apart exactly when their folders do.** -/
theorem disjoint_scopeKeys_iff :
    (∀ a b : PackageId × PackageNode, p.Populates a.1 a.2 → p.Populates b.1 b.2 → a ≠ b →
      (p.scopeKeys a).Disjoint (p.scopeKeys b)) ↔ p.FoldersApart := by
  constructor
  · intro h a b ha hb hea heb hplace
    by_contra hne
    have hab : a ≠ b := fun heq => hne (congrArg Prod.fst heq)
    refine h a b ha hb hab (mem_scopeKeys.2 ⟨hea, rfl⟩) (mem_scopeKeys.2 ⟨heb, ?_⟩)
    exact packageFolder_eq_iff.2 hplace
  · intro h a b ha hb hne key hka hkb
    obtain ⟨hea, rfl⟩ := mem_scopeKeys.1 hka
    obtain ⟨heb, hfolder⟩ := mem_scopeKeys.1 hkb
    have hid : a.1 = b.1 := h a b ha hb hea heb (packageFolder_eq_iff.1 hfolder)
    have hnode : a.2 = b.2 := by
      have hok := ha.node_eq
      rw [hid, hb.node_eq] at hok
      exact (Except.ok.inj hok).symm
    exact hne (Prod.ext hid hnode)

/-! ### One map -/

/-- Completing forgets the order of insertion, if no two scopes have one normal form. -/
theorem completed_eq_of_get?_eq {map map' : ImportMap}
    (himports : ∀ k, map.imports.get? k = map'.imports.get? k)
    (hscopes : ∀ q, map.scopes.get? q = map'.scopes.get? q)
    (hforms : ∀ q ∈ map.scopes.keys, ∀ q' ∈ map.scopes.keys,
      Target.normalize q = Target.normalize q' → q = q') :
    p.completed map = p.completed map' := by
  rw [completed, completed]
  split
  · refine ImportMap.clean_eq_of_get?_eq (fun k => ?_) (fun q => ?_) ?_
    · rw [get?_imports_addBuiltins, get?_imports_addBuiltins, himports]
    · rw [scopes_addBuiltins, scopes_addBuiltins, hscopes]
    · rw [scopes_addBuiltins]
      exact hforms
  · exact ImportMap.clean_eq_of_get?_eq himports hscopes hforms

section Apart

variable {roots roots' : List (String × PackageId)}
  {packages packages' : List (PackageId × PackageNode)}

/-- The top-level entries that writers that keep apart have written. -/
theorem get?_imports_of_apart (h : p.WritersApart) (hc : p.Complete roots packages)
    {k v : String} : (p.draft roots packages).imports.get? k = some v ↔
      ∃ root ∈ (p.mapped p.roots).entries, (Dict.ofList (p.rootEntries root)).get? k = some v := by
  have happart : ∀ a ∈ roots, ∀ b ∈ roots, k ∈ (p.rootEntries a).map Prod.fst →
      k ∈ (p.rootEntries b).map Prod.fst → a = b := by
    intro a ha b hb hka hkb
    by_contra hne
    exact h.roots a (hc.perm_roots.mem_iff.1 ha) b (hc.perm_roots.mem_iff.1 hb) hne
      (hc.readable a ha) (hc.readable b hb) hka hkb
  rw [get?_imports_draft happart]
  simp only [hc.perm_roots.mem_iff]

/-- The scopes that writers that keep apart have written. -/
theorem get?_scopes_of_apart (h : p.WritersApart) (hc : p.Complete roots packages)
    {folder : String} {entries : Imports} :
    (p.draft roots packages).scopes.get? folder = some entries ↔
      ∃ package : PackageId × PackageNode, p.Populates package.1 package.2 ∧
        (folder, entries) ∈ p.addedScope package := by
  have happart : ∀ a ∈ packages, ∀ b ∈ packages, folder ∈ (p.addedScope a).map Prod.fst →
      folder ∈ (p.addedScope b).map Prod.fst → a = b := by
    intro a ha b hb hka hkb
    by_contra hne
    exact h.packages a b ((hc.mem_packages_iff a).1 ha) ((hc.mem_packages_iff b).1 hb) hne hka hkb
  rw [get?_scopes_draft happart]
  simp only [hc.mem_packages_iff]

/-- No two scopes of a draft have one normal form. -/
theorem eq_of_normalize_eq_of_complete (hp : p.WellNamed) (hc : p.Complete roots packages)
    {q q' : String} (hq : q ∈ (p.draft roots packages).scopes.keys)
    (hq' : q' ∈ (p.draft roots packages).scopes.keys)
    (hform : Target.normalize q = Target.normalize q') : q = q' := by
  have hfolder : ∀ folder ∈ (p.draft roots packages).scopes.keys,
      ∃ id : PackageId, id.Parsed ∧ folder = p.packageFolder id := by
    intro folder hmem
    obtain ⟨⟨folder', entries⟩, he, rfl⟩ := List.mem_map.1 (Dict.mem_keys_ofList.1 hmem)
    obtain ⟨package, hpackage, hadded⟩ := List.mem_flatMap.1 he
    have hreaches := ((hc.mem_packages_iff package).1 hpackage).reaches
    exact ⟨package.1, hp.parsed hreaches, (mem_addedScope.1 hadded).2.1⟩
  obtain ⟨id, hid, rfl⟩ := hfolder q hq
  obtain ⟨id', hid', rfl⟩ := hfolder q' hq'
  exact packageFolder_eq_iff.2 (place_eq_of_normalize_eq hid hid' hform)

/-- **Writers that keep apart build one map**, whatever the order in which they write. -/
theorem completed_eq_of_apart (hp : p.WellNamed) (h : p.WritersApart)
    (hc : p.Complete roots packages) (hc' : p.Complete roots' packages') :
    p.completed (p.draft roots packages) = p.completed (p.draft roots' packages') := by
  refine completed_eq_of_get?_eq (fun k => ?_) (fun q => ?_) fun q hq q' hq' hform => ?_
  · ext v
    rw [get?_imports_of_apart h hc, get?_imports_of_apart h hc']
  · ext1 entries
    rw [get?_scopes_of_apart h hc, get?_scopes_of_apart h hc']
  · exact eq_of_normalize_eq_of_complete hp hc hq hq' hform

end Apart

/-- **Builds are alike when writers keep apart.** -/
theorem WritersApart.buildsAlike (hp : p.WellNamed) (h : p.WritersApart) : p.BuildsAlike := by
  have houtcome : ∀ roots : Dict String PackageId, roots.entries.Perm p.roots.entries →
      ∀ map map', p.Outcome map → (p.withRoots roots).Outcome map' → map' = map := by
    intro roots hroots map map' ho ho'
    obtain ⟨writers, packages, hc, rfl⟩ := exists_complete_of_outcome ho
    obtain ⟨writers', packages', hc', rfl⟩ := exists_complete_of_outcome_withRoots hroots ho'
    exact completed_eq_of_apart hp h hc' hc
  exact ⟨houtcome, fun roots hroots map map' hb hb' =>
    houtcome roots hroots map map' (outcome_of_build hb) (outcome_of_build hb')⟩

/-- **Writers keep apart, and builds are alike, exactly when aliases and folders keep apart.** -/
theorem writersApart_iff (hp : p.WellNamed) :
    (p.WritersApart ∧ p.BuildsAlike) ↔ (p.AliasesApart ∧ p.FoldersApart) := by
  constructor
  · rintro ⟨h, -⟩
    exact ⟨disjoint_rootKeys_iff.1 h.roots, disjoint_scopeKeys_iff.1 h.packages⟩
  · rintro ⟨haliases, hfolders⟩
    have h : p.WritersApart :=
      ⟨disjoint_rootKeys_iff.2 haliases, disjoint_scopeKeys_iff.2 hfolders⟩
    exact ⟨h, h.buildsAlike hp⟩

/-! ### Two projects -/

/-- Packages that hold those of the aliases of a project and of all installed packages hold every
package that is reached. -/
theorem Reaches.mem_of_closed {ids : List PackageId}
    (hroots : ∀ root ∈ (p.mapped p.roots).entries, root.2 ∈ ids)
    (hpackages : ∀ package ∈ p.installation.graph.packages.entries,
      ∀ id ∈ (p.dependencies package.2).values, id ∈ ids)
    {id : PackageId} (hid : p.Reaches id) : id ∈ ids := by
  cases hid with
  | root hroot _ => exact hroots _ hroot
  | @dependency id dep node _ hnode _ hdep =>
      rw [DependencyGraph.node] at hnode
      split at hnode
      · rename_i node' hget
        obtain rfl : node' = node := Except.ok.inj hnode
        exact hpackages _ (Dict.get?_eq_some_iff.1 hget) _ hdep
      · exact absurd hnode (by simp)

/-- Names that are read from their own texts were read from texts. -/
theorem wellNamed_of_parse? (hroots : ∀ root ∈ p.roots.entries,
      PackageId.parse? root.2.text = some root.2)
    (hpackages : ∀ package ∈ p.installation.graph.packages.entries,
      ∀ id ∈ package.2.resolve.values, PackageId.parse? id.text = some id) : p.WellNamed :=
  ⟨fun root hroot => ⟨_, hroots root hroot⟩,
    fun package hpackage id hid => ⟨_, hpackages package hpackage id hid⟩⟩

/-- A project without files, with some aliases and installed packages. -/
def installed (aliases : List (String × PackageId)) (packages : List (PackageId × PackageNode)) :
    Project where
  installation := {
    graph := ⟨Dict.ofList aliases, Dict.ofList packages, []⟩
    files := ⟨fun _ => none⟩
    project := "/p"
    packagesDir := "jspm_packages"
    env := .standard }
  settings := { Settings.standard with includeBuiltins := false }
  builtins := ⟨"npm", "@jspm/node-builtins", "0.1.2"⟩
  roots := Dict.ofList aliases
  base := "."

/-- An installed package with a name, some aliases and a map. -/
def described (name : String) (aliases : List (String × PackageId)) (map : List (String × Value)) :
    PackageNode :=
  ⟨Dict.ofList aliases, some (.object [("name", .string name), ("map", .object map)])⟩

/-- Two packages, the first of which has a file in place of another and an alias for the second. -/
def twoPackages : List (PackageId × PackageNode) :=
  [(⟨"npm", "x", "1.0.0"⟩,
      described "x" [("z", ⟨"npm", "y", "1.0.0"⟩)] [("./y", .string "./lib/y.js")]),
    (⟨"npm", "y", "1.0.0"⟩, described "y" [] [])]

/-- A project whose aliases keep apart. -/
def flatAliases : Project :=
  installed [("x", ⟨"npm", "x", "1.0.0"⟩), ("y", ⟨"npm", "y", "1.0.0"⟩)] twoPackages

theorem wellNamed_flatAliases : flatAliases.WellNamed :=
  wellNamed_of_parse? (by decide +kernel) (by decide +kernel)

/-- The writers of a project without nested aliases keep apart. -/
theorem writersApart_flatAliases :
    flatAliases.WellNamed ∧ flatAliases.WritersApart ∧ flatAliases.BuildsAlike ∧
      ∃ map, flatAliases.build = .ok map := by
  have haliases : flatAliases.AliasesApart := by
    intro a ha b hb _ _ rest hname
    have hshort : ∀ root ∈ (flatAliases.mapped flatAliases.roots).entries, root.1.length = 1 := by
      decide +kernel
    have hlen := congrArg String.length hname
    rw [String.length_append, String.length_append, hshort a ha, hshort b hb,
      show "/".length = 1 from rfl] at hlen
    omega
  have hfolders : flatAliases.FoldersApart := by
    intro a b ha hb _ _ hplace
    have hids : ∀ {id}, flatAliases.Reaches id →
        id ∈ flatAliases.installation.graph.packages.keys :=
      Reaches.mem_of_closed (by decide +kernel) (by decide +kernel)
    have hplaces : ∀ id ∈ flatAliases.installation.graph.packages.keys,
        ∀ id' ∈ flatAliases.installation.graph.packages.keys,
        flatAliases.place id = flatAliases.place id' → id = id' := by decide +kernel
    exact hplaces _ (hids ha.reaches) _ (hids hb.reaches) hplace
  have hfault : flatAliases.finalBuild.fault? = none :=
    Option.isNone_iff_eq_none.1 (by decide +kernel)
  obtain ⟨hapart, halike⟩ := (writersApart_iff wellNamed_flatAliases).2 ⟨haliases, hfolders⟩
  exact ⟨wellNamed_flatAliases, hapart, halike, _, build_eq_ok_iff.2 ⟨hfault, rfl⟩⟩

/-- A project with an alias below another one, at a file that the package of that one replaces. -/
def nestedAliases : Project :=
  installed [("x/y", ⟨"npm", "y", "1.0.0"⟩), ("x", ⟨"npm", "x", "1.0.0"⟩)] twoPackages

theorem wellNamed_nestedAliases : nestedAliases.WellNamed :=
  wellNamed_of_parse? (by decide +kernel) (by decide +kernel)

/-- The same aliases in another order. -/
def otherOrder : Dict String PackageId :=
  Dict.ofList [("x", ⟨"npm", "x", "1.0.0"⟩), ("x/y", ⟨"npm", "y", "1.0.0"⟩)]

/-- **Writers may collide**: the order of two aliases decides what a specifier means. -/
theorem build_depends_on_order :
    nestedAliases.WellNamed ∧ ¬ nestedAliases.WritersApart ∧
      otherOrder.entries.Perm nestedAliases.roots.entries ∧
        ∃ map map', nestedAliases.build = .ok map ∧
          (nestedAliases.withRoots otherOrder).build = .ok map' ∧ map' ≠ map := by
  have hfault : nestedAliases.finalBuild.fault? = none :=
    Option.isNone_iff_eq_none.1 (by decide +kernel)
  have hfault' : (nestedAliases.withRoots otherOrder).finalBuild.fault? = none :=
    Option.isNone_iff_eq_none.1 (by decide +kernel)
  have hperm : otherOrder.entries.Perm nestedAliases.roots.entries := by decide +kernel
  have hread : (nestedAliases.completed nestedAliases.finalBuild.map).imports.get? "x/y" =
      some "./jspm_packages/npm/x@1.0.0/lib/y.js" :=
    (ImportMap.get?_imports_clean _ _).trans (by decide +kernel)
  have hread' : ((nestedAliases.withRoots otherOrder).completed
      (nestedAliases.withRoots otherOrder).finalBuild.map).imports.get? "x/y" =
      some "./jspm_packages/npm/y@1.0.0/index.js" :=
    (ImportMap.get?_imports_clean _ _).trans (by decide +kernel)
  have hne : (nestedAliases.withRoots otherOrder).completed
      (nestedAliases.withRoots otherOrder).finalBuild.map ≠
      nestedAliases.completed nestedAliases.finalBuild.map := by
    intro heq
    rw [heq, hread] at hread'
    exact absurd (Option.some.inj hread') (by decide)
  have hbuild := build_eq_ok_iff.2 ⟨hfault, rfl⟩
  have hbuild' := build_eq_ok_iff.2 ⟨hfault', rfl⟩
  refine ⟨wellNamed_nestedAliases, fun h => ?_, hperm, _, _, hbuild, hbuild', hne⟩
  exact hne ((h.buildsAlike wellNamed_nestedAliases).build _ hperm _ _ hbuild hbuild')

end Project

end ImportAtlas
