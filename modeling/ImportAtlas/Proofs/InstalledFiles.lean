import ImportAtlas.Proofs.Locations
import ImportAtlas.Proofs.Targets
import ImportAtlas.Proofs.Visibility

/-!
# Where the map says that packages are

The place of a package is found twice: as a path, when its manifest is read, and as a target of the
map, which a resolver takes for a reference. The two agree on a file whose target is taken as it is
written. But nothing escapes the version of a package or the path of its main file, and what a URL
cuts off of them, or reads as an escape, leads away from the installed file.

## Summary

* `Project.installedFile` is the path of a file of a package as it is installed.
* `Project.InPlace`: the map is in the directory of the project.
* `Project.Sole`: no other alias of the project writes an entry for an alias.
* `Project.Outside`: a module that is in the folder of no package.

## Main results

* `Project.url?_of_sole`: where an alias of the project leads.
* `Project.fileOf_packageFile`, `Project.fileOf_packageFile_eq_iff`: the file that the target for a
  file of a package denotes.
* `Project.resolve_installedFile`: when the path of an installed file is its place.
* `Project.alias_leads_to_installed_iff`: when an alias of the project leads to the installed file.
* `Project.alias_misses_installed_file`: a package that is not found.
-/

namespace ImportAtlas

open Path (Segment IsName here up segments joinSegments reduce weight parts absolute)

/-! ### Directories -/

namespace Path

theorem commonLength_self (names : List Segment) : commonLength names names = names.length := by
  induction names with
  | nil => rfl
  | cons name names ih => rw [commonLength, if_pos rfl, ih, List.length_cons]

/-- A directory is at no distance from itself. -/
theorem relative_self (path : String) : relative path path = "." := by
  rw [relative, steps, commonLength_self, Nat.sub_self, List.drop_length]
  rfl

theorem parts_ofNames {names : List Segment} (h : ∀ seg ∈ names, IsName seg) :
    parts (ofNames names) = names := by
  rw [parts_eq, ofNames, String.toList_ofList, filter_segments_slash,
    filter_segments_joinSegments fun seg hseg => (h seg hseg).no_slash, filter_isPart_names h]

theorem eq_of_ofNames_eq {names names' : List Segment} (h : ∀ seg ∈ names, IsName seg)
    (h' : ∀ seg ∈ names', IsName seg) (heq : ofNames names = ofNames names') : names = names' := by
  rw [← parts_ofNames h, heq, parts_ofNames h']

theorem absolute_ofNames {names : List Segment} (h : ∀ seg ∈ names, IsName seg) :
    absolute (ofNames names) = names := by
  rw [absolute_eq_reduce_parts, parts_ofNames h, reduce_names h]

/-- Resolving a path twice is resolving it once. -/
theorem resolve_ofNames {names : List Segment} (h : ∀ seg ∈ names, IsName seg) :
    resolve (ofNames names) = ofNames names := by
  rw [resolve, absolute_ofNames h]

theorem rootSlashes_le (cs : List Char) : rootSlashes cs ≤ 2 := by
  rw [rootSlashes.eq_def]
  split <;> decide

theorem rootSlashes_replicate {n : Nat} (hn : n ≤ 2) {cs : List Char} (h : cs.head? ≠ some '/') :
    rootSlashes (List.replicate n '/' ++ cs) = n :=
  match n, hn with
  | 0, _ => rootSlashes_eq_zero h
  | 1, _ => rootSlashes_eq_one h
  | 2, _ => rootSlashes_eq_two h

theorem head?_joinSegments_parts (path : String) : (joinSegments (parts path)).head? ≠ some '/' :=
  head?_joinSegments fun _ hseg => ⟨(of_mem_parts hseg).1, (of_mem_parts hseg).2.2⟩

theorem getLast?_joinSegments_parts (path : String) :
    (joinSegments (parts path)).getLast? ≠ some '/' :=
  getLast?_joinSegments fun _ hseg => ⟨(of_mem_parts hseg).1, (of_mem_parts hseg).2.2⟩

/-- Showing a path keeps its leading slashes. -/
theorem rootSlashes_squeeze (path : String) :
    rootSlashes (squeeze path).toList = rootSlashes path.toList := by
  have htext := rootSlashes_replicate (rootSlashes_le path.toList) (head?_joinSegments_parts path)
  rw [squeeze, String.toList_ofList]
  split
  · rename_i hempty
    rw [← htext, List.isEmpty_iff.1 hempty]
    rfl
  · exact htext

/-- A path with one leading slash is shown as the path through its parts. -/
theorem squeeze_eq_ofNames {path : String} (h : rootSlashes path.toList = 1) :
    squeeze path = ofNames (parts path) := by
  rw [squeeze, h]
  rfl

end Path

namespace Project

variable {p : Project} {id : PackageId} {file name : String}

/-! ### Installed files -/

/-- The path of a file of a package as it is installed. -/
def installedFile (p : Project) (id : PackageId) (file : String) : String :=
  Path.squeeze (Path.join (p.installation.packageFolder id) file)

/-- The path of the main file of a package. -/
def mainPath (p : Project) (id : PackageId) : String :=
  (Manifest.nonempty? ((p.manifestOf id).main?.getD "")).getD standardMain

theorem mainOf_eq (p : Project) (id : PackageId) : p.mainOf id = p.packageFile id (p.mainPath id) :=
  rfl

/-- The map of a project is in the directory of the project. -/
structure InPlace (p : Project) : Prop where
  /-- The project is where the map is. -/
  base_eq : p.base = "."
  /-- Packages are looked for where they are installed. -/
  packagesDir_eq : p.installation.packagesDir = p.settings.packagesDir
  /-- The directory may be one of the file tree. -/
  not_nul : '\x00' ∉ p.installation.project.toList

/-- A project that is prepared for a map in its own directory. -/
theorem inPlace_of_make {graph : DependencyGraph} {files : FileTree} {directory : String}
    {settings : Settings} {env : Environment} {roots? : Option (Dict String PackageId)}
    (h : Project.make graph files directory settings env directory roots? = .ok p) :
    p.InPlace ∧ p.installation.project = directory := by
  obtain ⟨builtins, -, h⟩ := exists_of_bind_eq_ok h
  obtain ⟨base, hbase, h⟩ := exists_of_bind_eq_ok h
  obtain rfl := Except.ok.inj h
  obtain ⟨project, hproject, hbase⟩ := exists_of_bind_eq_ok hbase
  obtain ⟨mapBase, hmapBase, hbase⟩ := exists_of_bind_eq_ok hbase
  obtain rfl := Except.ok.inj hbase
  have hself : project = mapBase := Except.ok.inj (hproject.symm.trans hmapBase)
  have hnul : '\x00' ∉ directory.toList := by
    intro hmem
    rw [rootedPath, if_pos (List.contains_iff_mem.2 hmem)] at hproject
    exact absurd hproject (by simp)
  exact ⟨⟨by rw [hself]; exact Path.relative_self mapBase, rfl, hnul⟩, rfl⟩

/-- The parts of the path to an installed file. -/
theorem parts_installedFile (hplace : p.InPlace) (hid : id.Parsed) :
    (¬ p.Elsewhere file → parts (p.installedFile id file) =
      parts p.installation.project ++ p.below id file) ∧
    (p.Elsewhere file → parts (p.installedFile id file) = p.below id file) := by
  by_cases hfile : file.toList.head? = some '/'
  · refine ⟨fun h => absurd (Or.inr hfile) h, fun _ => ?_⟩
    rw [installedFile, Path.parts_squeeze, below, Path.join_of_rooted hfile,
      Path.join_of_rooted hfile]
  · rw [installedFile, Path.parts_squeeze, Path.parts_join hfile, Installation.packageFolder,
      Path.parts_squeeze, Path.parts_join hid.head?_path, hplace.packagesDir_eq,
      below_of_relative hfile, Path.parts_join hid.head?_path]
    refine ⟨fun h => ?_, fun h => ?_⟩
    · rw [Path.parts_join (not_or.1 h).1]
      simp
    · rw [Path.join_of_rooted (h.resolve_right hfile)]

/-- The path of an installed file is its place if that of the project is and nothing leads up. -/
theorem resolve_installedFile (hplace : p.InPlace) (hid : id.Parsed)
    (hproject : Path.resolve p.installation.project = p.installation.project)
    (hin : ¬ p.Elsewhere file) (hup : up ∉ p.below id file) :
    Path.resolve (p.installedFile id file) = p.installedFile id file := by
  have hnames : ∀ seg ∈ absolute p.installation.project, IsName seg := Path.isName_of_mem_absolute
  have hfile := (not_or.1 hin).2
  have hdir : p.installation.packagesDir.toList.head? ≠ some '/' := by
    rw [hplace.packagesDir_eq]
    exact (not_or.1 hin).1
  have hroot : Path.rootSlashes p.installation.project.toList = 1 := by
    rw [← hproject, Path.resolve, Path.ofNames, String.toList_ofList]
    exact Path.rootSlashes_eq_one (Path.head?_joinSegments fun seg hseg =>
      ⟨(hnames seg hseg).ne_nil, (hnames seg hseg).no_slash⟩)
  have hslashes :
      Path.rootSlashes (Path.join (p.installation.packageFolder id) file).toList = 1 := by
    rw [Path.rootSlashes_join _ hfile, Installation.packageFolder, Path.rootSlashes_squeeze,
      Path.rootSlashes_join _ hid.head?_path, Path.rootSlashes_join _ hdir, hroot]
  have hparts : up ∉ parts (p.installedFile id file) := by
    rw [(parts_installedFile hplace hid).1 hin, List.mem_append, not_or]
    refine ⟨fun hmem => ?_, hup⟩
    rw [← hproject, Path.resolve, Path.parts_ofNames hnames] at hmem
    exact (hnames up hmem).ne_up rfl
  rw [Path.resolve, Path.absolute_eq_reduce_parts, Path.reduce_parts hparts, installedFile,
    Path.parts_squeeze, Path.squeeze_eq_ofNames hslashes]

/-! ### Where an alias leads -/

/-- A module is in the folder of no package that is reached. -/
def Outside (p : Project) (base parent : String) : Prop :=
  ∀ id, p.Reaches id → ¬ p.Inside base parent id

/-- A module outside of all packages sees what the top level has. -/
theorem Decides.of_outside {map : ImportMap} {base parent : String} {relativeFallback : Bool}
    {r : Resolver} (hr : Resolver.make map base relativeFallback = .ok r)
    (hout : p.Outside base parent) {target : String}
    (htop : p.uncleaned.imports.get? name = some target) : p.Decides r parent name name target := by
  refine .top (fun url package hs => ?_) (Imports.match?_self (Dict.mem_keys_of_get? htop)) htop
  refine absurd ⟨url, ?_, hs.around.2⟩ (hout package.1 hs.populates.reaches)
  exact (Resolver.of_get?_scopes hr hs.url_eq).2

/-- Nothing but the main file of a package is written for the alias itself. -/
theorem eq_mainFile_of_mem_packageEntries {manifest : Manifest} {target : String}
    (h : (name, target) ∈ p.packageEntries name id manifest) : target = p.mainFile id manifest := by
  have hlonger : ∀ rest, name ≠ name ++ "/" ++ rest := fun rest heq => by
    have hlength := congrArg String.length heq
    rw [String.length_append, String.length_append, show "/".length = 1 from rfl] at hlength
    omega
  rw [packageEntries, List.mem_cons, List.mem_cons, List.mem_map] at h
  rcases h with hmain | hbelow | ⟨⟨path, file⟩, -, hpath⟩
  · exact (Prod.mk.injEq .. ▸ hmain).2
  · refine absurd (congrArg Prod.fst hbelow) fun heq => hlonger "" ?_
    rwa [String.append_empty]
  · exact absurd (congrArg Prod.fst hpath).symm (hlonger path)

/-- No other alias of the project writes an entry for an alias. -/
def Sole (p : Project) (name : String) : Prop :=
  ∀ root ∈ (p.mapped p.roots).entries, name ∈ p.rootKeys root → root.1 = name

/-- The top level has the main file of the package under an alias that no other one writes. -/
theorem Sole.get?_imports (hsole : p.Sole name) (hfault : p.finalBuild.fault? = none)
    (hroot : (p.mapped p.roots).get? name = some id) :
    p.uncleaned.imports.get? name = some (p.mainOf id) := by
  refine get?_imports_of_sole hfault hroot fun root hmem target htarget => ?_
  obtain rfl := hsole root hmem (List.mem_map_of_mem htarget)
  have hid : root.2 = id := by
    have hget : (p.mapped p.roots).get? root.1 = some root.2 := Dict.get?_eq_some_iff.2 hmem
    exact Option.some.inj (hget.symm.trans hroot)
  rw [← hid]
  exact eq_mainFile_of_mem_packageEntries htarget

/-- **Where an alias of the project leads**: to the target for the main file of its package, if no
other alias writes anything for it. -/
theorem url?_of_sole {map : ImportMap} {base parent : String} {relativeFallback isEntry : Bool}
    {r : Resolver} (hb : p.build = .ok map)
    (hr : Resolver.make map base relativeFallback = .ok r) (hsole : p.Sole name)
    (hroot : (p.mapped p.roots).get? name = some id) (hbare : isBareSpecifier name = true)
    (hout : p.Outside base parent) :
    r.url? name parent isEntry = (mapUrl base (p.mainOf id)).map some := by
  have htop := hsole.get?_imports (build_eq_ok_iff_clean.1 hb).1 hroot
  have hchoice := (choice?_chain_eq_some_iff hb hr).2 (Decides.of_outside hr hout htop)
  rw [Resolver.url?_of_bare hbare, hchoice, Imports.landing_self, Resolver.base_of_make hr]
  rfl

/-- The map of a project can be resolved through in any directory. -/
theorem exists_make_of_build {names : List Segment} (hnames : ∀ seg ∈ names, IsName seg)
    {map : ImportMap} (hb : p.build = .ok map) (relativeFallback : Bool) :
    ∃ r, Resolver.make map (directoryUrl (encodeNames names)) relativeFallback = .ok r := by
  obtain ⟨hfault, hmap⟩ := build_eq_ok_iff_clean.1 hb
  refine Resolver.exists_make_iff.2 fun folder hfolder => ?_
  rw [hmap] at hfolder
  obtain ⟨entries, hentries⟩ := Dict.mem_keys_iff.1 (ImportMap.mem_keys_scopes_of_clean hfolder)
  obtain ⟨package, -, -, rfl, -⟩ := exists_of_get?_scopes_uncleaned hfault hentries
  have htarget := p.isTarget_packageFolder package.1
  obtain ⟨url, hurl, -⟩ :=
    exists_filePathOf_mapUrl hnames htarget.head? htarget.isPathSpecifier
  exact ⟨url, hurl⟩

/-! ### Where the target for a file leads -/

section Files

variable (hplace : p.InPlace) (hid : id.Parsed) (hempty : file ≠ Builtin.emptyModule)
  (hurl : Target.isUrl file = false)
include hplace hid hempty hurl

/-- **A target that is taken as it is written denotes the installed file.** -/
theorem fileOf_packageFile (hin : ¬ p.Elsewhere file)
    (hverbatim : Verbatim (p.packageFile id file)) :
    fileOf (absolute p.installation.project) (p.packageFile id file) =
      Path.resolve (p.installedFile id file) := by
  have hproject : reduce true (absolute p.installation.project ++ p.below id file) =
      reduce true (parts p.installation.project ++ p.below id file) := by
    refine Path.reduce_append_congr ?_ _
    rw [Path.reduce_names Path.isName_of_mem_absolute, Path.absolute_eq_reduce_parts]
  rw [fileOf_of_verbatim Path.isName_of_mem_absolute hverbatim,
    parts_packageFile_of_relative hplace.base_eq hid hempty hurl hin, Path.reduce_append_reduce,
    hproject, Path.resolve, Path.absolute_eq_reduce_parts, (parts_installedFile hplace hid).1 hin]

/-- A target that is not taken as it is written leads to another file: to one with a shorter
path. -/
theorem verbatim_of_fileOf_eq (hin : ¬ p.Elsewhere file)
    (h : fileOf (absolute p.installation.project) (p.packageFile id file) =
      p.installedFile id file) : Verbatim (p.packageFile id file) := by
  by_contra hverbatim
  obtain ⟨body, hbody, hhere⟩ := (@isTarget_packageFile p id file hempty hurl).segments
  have hlt := @weight_parts_fileOf_lt (absolute p.installation.project) _
    Path.isName_of_mem_absolute body hbody hhere hverbatim
  rw [h, (parts_installedFile hplace hid).1 hin, Path.weight_append,
    Path.absolute_eq_reduce_parts] at hlt
  have hproject : weight List.length (reduce true (parts p.installation.project)) ≤
      weight List.length (parts p.installation.project) :=
    Path.weight_le_of_sublist (Path.reduce_sublist _ _)
  have htarget : weight List.length (parts (p.packageFile id file)) ≤
      weight List.length (p.below id file) :=
    Path.weight_le_of_sublist (sublist_below hplace.base_eq hid hempty hurl).1
  omega

/-- **When the target for a file leads to the installed file**: when it is taken as it is written,
and the installed file is named by its place. -/
theorem fileOf_packageFile_eq_iff (hin : ¬ p.Elsewhere file) :
    fileOf (absolute p.installation.project) (p.packageFile id file) = p.installedFile id file ↔
      Path.resolve (p.installedFile id file) = p.installedFile id file ∧
        Verbatim (p.packageFile id file) := by
  constructor
  · intro h
    have hverbatim := verbatim_of_fileOf_eq hplace hid hempty hurl hin h
    exact ⟨(fileOf_packageFile hplace hid hempty hurl hin hverbatim).symm.trans h, hverbatim⟩
  · rintro ⟨hresolved, hverbatim⟩
    rw [fileOf_packageFile hplace hid hempty hurl hin hverbatim, hresolved]

/-- A file that is taken from elsewhere is looked for below the project nevertheless. -/
theorem fileOf_packageFile_eq_iff_of_elsewhere (hout : p.Elsewhere file)
    (hverbatim : Verbatim (p.packageFile id file)) :
    fileOf (absolute p.installation.project) (p.packageFile id file) = p.installedFile id file ↔
      Path.resolve (p.installedFile id file) = p.installedFile id file ∧
        absolute p.installation.project = [] := by
  have hproject : ∀ seg ∈ absolute p.installation.project, IsName seg := Path.isName_of_mem_absolute
  have hfile : ∀ {names : List Segment}, (∀ seg ∈ names, IsName seg) →
      Path.ofNames names = p.installedFile id file →
        fileOf (absolute p.installation.project) (p.packageFile id file) =
          Path.ofNames (absolute p.installation.project ++ names) := by
    intro names hnames hinstalled
    have hbelow : p.below id file = names := by
      rw [← (parts_installedFile hplace hid).2 hout, ← hinstalled, Path.parts_ofNames hnames]
    have hup : up ∉ p.below id file := fun hmem => (hnames up (hbelow ▸ hmem)).ne_up rfl
    have hparts := (sublist_below hplace.base_eq hid hempty hurl).2 hup
    rw [fileOf_of_verbatim hproject hverbatim, hparts, hbelow, Path.reduce_names]
    exact List.forall_mem_append.2 ⟨hproject, hnames⟩
  constructor
  · intro h
    have hplaceNames := fileOf_of_verbatim hproject hverbatim
    have hslash : ∀ seg ∈ absolute p.installation.project ++ parts (p.packageFile id file),
        '/' ∉ seg := List.forall_mem_append.2 ⟨fun seg hseg => (hproject seg hseg).no_slash,
      fun seg hseg => Path.not_mem_of_mem_segments (List.mem_of_mem_filter hseg)⟩
    have hnames := Path.isName_of_mem_reduce hslash
    rw [h] at hplaceNames
    have hlonger := hfile hnames hplaceNames.symm
    rw [h, hplaceNames] at hlonger
    have happend :=
      Path.eq_of_ofNames_eq hnames (List.forall_mem_append.2 ⟨hproject, hnames⟩) hlonger
    exact ⟨by rw [hplaceNames, Path.resolve_ofNames hnames], List.self_eq_append_left.1 happend⟩
  · rintro ⟨hresolved, hroot⟩
    rw [hfile Path.isName_of_mem_absolute hresolved, hroot, List.nil_append]
    exact hresolved

end Files

/-! ### Aliases and installed files -/

/-- **When an alias of the project leads to the installed file.** Through a map in the directory of
the project, an alias that no other one writes is found, and the file of its URL is that of the
target. Below the project, this is the installed file exactly when the target is taken as it is
written, and the path of the installed file is its place. -/
theorem alias_leads_to_installed_iff {graph : DependencyGraph} {files : FileTree}
    {directory : String} {settings : Settings} {env : Environment}
    {roots? : Option (Dict String PackageId)} {map : ImportMap} (relativeFallback : Bool)
    (hmake : Project.make graph files directory settings env directory roots? = .ok p)
    (hb : p.build = .ok map) (hroot : (p.mapped p.roots).get? name = some id) (hid : id.Parsed)
    (hbare : isBareSpecifier name = true) (hsole : p.Sole name)
    (hempty : p.mainPath id ≠ Builtin.emptyModule) (hurl : Target.isUrl (p.mainPath id) = false) :
    ∃ base r, folderUrl directory = .ok base ∧
      Resolver.make map base relativeFallback = .ok r ∧
      ∀ parent isEntry, p.Outside base parent → ∃ url path,
        r.url? name parent isEntry = .ok (some url) ∧ filePathOf url = .ok path ∧
        (¬ p.Elsewhere (p.mainPath id) →
          (Verbatim (p.mainOf id) → path = Path.resolve (p.installedFile id (p.mainPath id))) ∧
          (path = p.installedFile id (p.mainPath id) ↔
            Path.resolve (p.installedFile id (p.mainPath id)) =
              p.installedFile id (p.mainPath id) ∧ Verbatim (p.mainOf id))) ∧
        (p.Elsewhere (p.mainPath id) → Verbatim (p.mainOf id) →
          (path = p.installedFile id (p.mainPath id) ↔
            Path.resolve (p.installedFile id (p.mainPath id)) =
              p.installedFile id (p.mainPath id) ∧ absolute directory = [])) := by
  obtain ⟨hplace, rfl⟩ := inPlace_of_make hmake
  have hnames : ∀ seg ∈ absolute p.installation.project, IsName seg := Path.isName_of_mem_absolute
  obtain ⟨r, hr⟩ := exists_make_of_build hnames hb relativeFallback
  refine ⟨_, r, folderUrl_eq_encoded hplace.not_nul, hr, fun parent isEntry hout => ?_⟩
  have htarget := @isTarget_packageFile p id _ hempty hurl
  obtain ⟨url, hmain, hpath⟩ :=
    exists_filePathOf_mapUrl hnames htarget.head? htarget.isPathSpecifier
  refine ⟨url, _, ?_, hpath, fun hin => ⟨fun hverbatim => ?_, ?_⟩, fun helse hverbatim => ?_⟩
  · rw [url?_of_sole hb hr hsole hroot hbare hout, mainOf_eq, hmain]
    rfl
  · exact fileOf_packageFile hplace hid hempty hurl hin hverbatim
  · exact fileOf_packageFile_eq_iff hplace hid hempty hurl hin
  · exact fileOf_packageFile_eq_iff_of_elsewhere hplace hid hempty hurl helse hverbatim

/-- A module is outside of all packages if it is outside of those that hold every one that is
reached. -/
theorem outside_of_ids {base parent : String} {ids : List PackageId}
    (hids : ∀ {id}, p.Reaches id → id ∈ ids)
    (hout : ∀ id ∈ ids, ∀ url ∈ (mapUrl base (p.packageFolder id)).toOption,
      ¬ url.toList <+: parent.toList) : p.Outside base parent := by
  rintro id hid ⟨url, hurl, hstart⟩
  exact hout id (hids hid) url (by rw [hurl]; rfl) hstart

/-- **An alias leads to the installed file** of a package with a plain version. -/
theorem alias_leads_to_installed_flatAliases :
    ∃ map base r, flatAliases.build = .ok map ∧ folderUrl "/p" = .ok base ∧
      Resolver.make map base false = .ok r ∧ ∃ url,
        r.url? "x" base false = .ok (some url) ∧
          filePathOf url = .ok (flatAliases.installedFile ⟨"npm", "x", "1.0.0"⟩ "index.js") := by
  have hfault : flatAliases.finalBuild.fault? = none :=
    Option.isNone_iff_eq_none.1 (by decide +kernel)
  have hmake : Project.make flatAliases.installation.graph flatAliases.installation.files "/p"
      flatAliases.settings .standard "/p" (some flatAliases.roots) = .ok flatAliases := rfl
  have hb := build_eq_ok_iff_clean.2 ⟨hfault, rfl⟩
  have hmain : flatAliases.mainPath ⟨"npm", "x", "1.0.0"⟩ = "index.js" := by decide +kernel
  have hroot : (flatAliases.mapped flatAliases.roots).get? "x" =
      some ⟨"npm", "x", "1.0.0"⟩ := by decide +kernel
  have hsole : flatAliases.Sole "x" := by
    rw [Sole]
    decide +kernel
  obtain ⟨base, r, hbase, hr, hleads⟩ := alias_leads_to_installed_iff false hmake hb hroot
    ⟨"npm:x@1.0.0", by decide +kernel⟩ (by decide +kernel) hsole (by rw [hmain]; decide)
    (by rw [hmain]; decide)
  have hurl : folderUrl "/p" = .ok "file:///p/" := Resolver.eq_ok_of_toOption (by decide +kernel)
  obtain rfl : base = "file:///p/" := Except.ok.inj (hbase.symm.trans hurl)
  have hids : ∀ {id}, flatAliases.Reaches id → id ∈ flatAliases.installation.graph.packages.keys :=
    Reaches.mem_of_closed (by decide +kernel) (by decide +kernel)
  obtain ⟨url, path, hfound, hpath, hinside, -⟩ :=
    hleads "file:///p/" false (outside_of_ids hids (by decide +kernel))
  rw [hmain] at hinside
  have hin : ¬ flatAliases.Elsewhere "index.js" := by
    rw [Elsewhere]
    decide +kernel
  refine ⟨_, _, r, hb, hbase, hr, url, hfound, ?_⟩
  rw [hpath, (hinside hin).2.2 ⟨by decide +kernel, by decide +kernel⟩]

/-- A project with a package whose version a URL takes for a fragment. -/
def fragmentVersion : Project :=
  installed [("x", ⟨"npm", "x", "1.0.0#b"⟩)] [(⟨"npm", "x", "1.0.0#b"⟩, described "x" [] [])]

/-- **An alias may miss the installed file**: the version of a package goes into the target as it
is. -/
theorem alias_misses_installed_file :
    ∃ map r, Project.make fragmentVersion.installation.graph fragmentVersion.installation.files "/p"
        flatAliases.settings .standard "/p" (some fragmentVersion.roots) = .ok fragmentVersion ∧
      fragmentVersion.build = .ok map ∧
      (fragmentVersion.mapped fragmentVersion.roots).get? "x" = some ⟨"npm", "x", "1.0.0#b"⟩ ∧
      PackageId.parse? "npm:x@1.0.0#b" = some ⟨"npm", "x", "1.0.0#b"⟩ ∧
      isBareSpecifier "x" = true ∧ fragmentVersion.Sole "x" ∧
      fragmentVersion.mainPath ⟨"npm", "x", "1.0.0#b"⟩ = "index.js" ∧
      folderUrl "/p" = .ok "file:///p/" ∧ Resolver.make map "file:///p/" false = .ok r ∧
      ∃ url, r.url? "x" "file:///p/" false = .ok (some url) ∧
        filePathOf url = .ok "/p/jspm_packages/npm/x@1.0.0" ∧
        fragmentVersion.installedFile ⟨"npm", "x", "1.0.0#b"⟩ "index.js" =
          "/p/jspm_packages/npm/x@1.0.0#b/index.js" := by
  have hfault : fragmentVersion.finalBuild.fault? = none :=
    Option.isNone_iff_eq_none.1 (by decide +kernel)
  obtain ⟨map, r, hb, hr⟩ :=
    @exists_resolver fragmentVersion "file:///p/" hfault (by decide +kernel)
  have hroot : (fragmentVersion.mapped fragmentVersion.roots).get? "x" =
      some ⟨"npm", "x", "1.0.0#b"⟩ := by decide +kernel
  have hsole : fragmentVersion.Sole "x" := by
    rw [Sole]
    decide +kernel
  have hids : ∀ {id}, fragmentVersion.Reaches id →
      id ∈ fragmentVersion.installation.graph.packages.keys :=
    Reaches.mem_of_closed (by decide +kernel) (by decide +kernel)
  have hout : fragmentVersion.Outside "file:///p/" "file:///p/" :=
    outside_of_ids hids (by decide +kernel)
  have hurl : mapUrl "file:///p/" (fragmentVersion.mainOf ⟨"npm", "x", "1.0.0#b"⟩) =
      .ok "file:///p/jspm_packages/npm/x@1.0.0#b/index.js" :=
    Resolver.eq_ok_of_toOption (by decide +kernel)
  refine ⟨map, r, rfl, hb, hroot, by decide +kernel, by decide +kernel, hsole, by decide +kernel,
    Resolver.eq_ok_of_toOption (by decide +kernel), hr,
    "file:///p/jspm_packages/npm/x@1.0.0#b/index.js", ?_,
    Resolver.eq_ok_of_toOption (by decide +kernel), by decide +kernel⟩
  rw [url?_of_sole hb hr hsole hroot (by decide +kernel) hout, hurl]
  rfl

end Project

end ImportAtlas
