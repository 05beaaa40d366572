import ImportAtlas.Proofs.Detours
import ImportAtlas.Proofs.Visibility

/-!
# The parts of a package under a name

A package gets entries under a name: one for its main file, one for its folder, and one for each
file or folder of it that is replaced. An import of a part of the package goes through the longest
of their keys. What a manifest of another package says about the part is looked up instead: a file
that is replaced as a whole is found, a file in a folder that is replaced is not.

## Summary

* `Project.entriesAs`: the entries of a package under a name.
* `Project.specifierOf`: the specifier of a part of a package under a name.
* `Project.reached?`: where a path below the folder of a package leads through these.
* `Project.Renders`: a part of a package is what an import of it reaches.
* `Project.Ordinary`: parts whose path nothing takes elsewhere but a replacement of its own.

## Main results

* `Project.target?_entriesAs`: a specifier below the name leads where the path after it does.
* `Project.renders_of_ordinary`: ordinary parts are what an import of them reaches.
-/

namespace ImportAtlas

open Path (reduce parts)

/-! ### Keys below a name -/

section Below

variable {name rest path key specifier : String}

/-- A specifier that a name of a package or what is below it may stand for. -/
def Touches (name specifier : String) : Prop :=
  Covers name specifier ∨ Covers (name ++ "/") specifier

instance (key specifier : String) : Decidable (Covers key specifier) :=
  inferInstanceAs (Decidable (_ ∨ _ ∧ _))

instance (name specifier : String) : Decidable (Touches name specifier) :=
  inferInstanceAs (Decidable (_ ∨ _))

theorem toList_below (name rest : String) :
    (name ++ "/" ++ rest).toList = name.toList ++ '/' :: rest.toList := by
  simp

theorem below_inj : name ++ "/" ++ rest = name ++ "/" ++ path ↔ rest = path :=
  String.append_right_inj (name ++ "/")

theorem below_ne (name rest : String) : name ++ "/" ++ rest ≠ name := by
  intro h
  have hlength := congrArg (·.toList.length) h
  simp only [toList_below, List.length_append, List.length_cons] at hlength
  omega

theorem endsInSlash_below (name : String) (h : rest ≠ "") :
    Target.endsInSlash (name ++ "/" ++ rest) = Target.endsInSlash rest := by
  have hne : rest.toList ≠ [] := fun hnil => h (String.toList_eq_nil_iff.1 hnil)
  rw [Target.endsInSlash, String.toList_append, List.getLast?_append_of_ne_nil _ hne,
    Target.endsInSlash]

theorem endsInSlash_folder (name : String) : Target.endsInSlash (name ++ "/") = true :=
  Target.endsInSlash_append_slash name

/-- What is below a name is covered by its folder. -/
theorem covers_folder (name rest : String) : Covers (name ++ "/") (name ++ "/" ++ rest) := by
  refine Or.inr ⟨endsInSlash_folder name, ?_⟩
  rw [String.toList_append (s := name ++ "/")]
  exact List.prefix_append _ _

/-- Below a name the rests cover each other. -/
theorem covers_below_iff (h : rest ≠ "") :
    Covers (name ++ "/" ++ rest) (name ++ "/" ++ path) ↔ Covers rest path := by
  rw [Covers, Covers, below_inj, endsInSlash_below name h, toList_below, toList_below,
    List.prefix_append_right_inj, List.cons_prefix_cons, and_iff_right rfl]

theorem covers_empty_iff : Covers "" path ↔ path = "" := by
  constructor
  · rintro (h | ⟨hslash, -⟩)
    · exact h.symm
    · exact absurd hslash (by decide)
  · rintro rfl
    exact Covers.refl ""

theorem restAfter_below (name rest path : String) :
    restAfter (name ++ "/" ++ rest) (name ++ "/" ++ path) = restAfter rest path := by
  refine String.toList_injective ?_
  have hlength : (name ++ "/" ++ rest).length = (name ++ "/").toList.length + rest.length := by
    rw [String.length_toList, String.length_append (s := name ++ "/")]
  rw [toList_restAfter, toList_restAfter, hlength, String.toList_append (s := name ++ "/"),
    List.drop_append, List.drop_eq_nil_of_le (Nat.le_add_right _ _), Nat.add_sub_cancel_left,
    List.nil_append]

theorem restAfter_empty (path : String) : restAfter "" path = path := by
  refine String.toList_injective ?_
  rw [toList_restAfter]
  rfl

theorem length_below (name rest : String) :
    (name ++ "/" ++ rest).length = name.length + 1 + rest.length := by
  simp only [← String.length_toList, toList_below, List.length_append, List.length_cons]
  omega

end Below

/-- The form of a target is known by where it leads and whether it ends in a slash. -/
theorem Target.normalize_congr {value value' : String} (hhead : value.toList.head? = some '.')
    (hhead' : value'.toList.head? = some '.')
    (hparts : reduce false (parts value) = reduce false (parts value'))
    (hslash : Target.endsInSlash value = Target.endsInSlash value') :
    Target.normalize value = Target.normalize value' := by
  have hroot : ∀ {value : String}, value.toList.head? = some '.' →
      Path.rootSlashes value.toList = 0 := fun {value} h =>
    Path.rootSlashes_eq_zero (by rw [h]; decide)
  have hnames : ∀ {value : String}, value.toList.head? = some '.' →
      Path.reducedNames value.toList = reduce false (parts value) := by
    intro value h
    rw [Path.reducedNames, hroot h]
    exact (Path.reduce_append_filter_isPart [] _).symm
  have hpath : Path.normalize value = Path.normalize value' := by
    rw [Path.normalize, Path.normalize, Path.normalizeChars_congr
      ((hroot hhead).trans (hroot hhead').symm) (by rw [hnames hhead, hnames hhead', hparts])]
  rw [Target.normalize, Target.normalize, Target.isUrl_eq_false hhead,
    Target.isUrl_eq_false hhead', hslash, hpath, if_neg Bool.false_ne_true,
    if_neg Bool.false_ne_true]

namespace Project

variable {p : Project} {name path key specifier : String} {id : PackageId}

/-! ### The entries of a package under a name -/

/-- A key under a name stands for nothing that the name does not touch. -/
theorem touches_of_covers {manifest : Manifest}
    (hkey : key ∈ (p.packageEntries name id manifest).map Prod.fst) (h : Covers key specifier) :
    Touches name specifier := by
  rw [packageEntries, List.map_cons, List.map_cons, List.map_map] at hkey
  rcases List.mem_cons.1 hkey with rfl | hkey
  · exact Or.inl h
  · rcases List.mem_cons.1 hkey with rfl | hkey
    · exact Or.inr h
    · obtain ⟨⟨rest, file⟩, -, rfl⟩ := List.mem_map.1 hkey
      exact Or.inr ((covers_folder name rest).trans h)

/-- The entries of a package under a name. -/
def entriesAs (p : Project) (name : String) (id : PackageId) : Imports :=
  Dict.ofList (p.packageEntries name id (p.manifestOf id))

/-- What an import of the folder of a package reaches. -/
def folderTarget (p : Project) (id : PackageId) : String :=
  (((p.manifestOf id).paths.get? "").map (p.packageFile id)).getD (p.packageFolder id)

theorem get?_entriesAs_name (p : Project) (name : String) (id : PackageId) :
    (p.entriesAs name id).get? name = some (p.mainOf id) := by
  refine Dict.get?_ofList_of_mem (fun target htarget => ?_) List.mem_cons_self
  rw [packageEntries, List.mem_cons, List.mem_cons, List.mem_map] at htarget
  rcases htarget with hmain | hfolder | ⟨⟨rest, file⟩, -, hrest⟩
  · exact (Prod.mk.inj hmain).2
  · have hname := (Prod.mk.inj hfolder).1.symm
    rw [← String.append_empty (s := name ++ "/")] at hname
    exact absurd hname (below_ne name "")
  · exact absurd (Prod.mk.inj hrest).1 (below_ne name rest)

/-- The entries for what a manifest replaces, below a name. -/
theorem get?_replaced_below (p : Project) (name : String) (id : PackageId) (rest : String) :
    (Dict.ofList ((p.manifestOf id).paths.entries.map fun e =>
      (name ++ "/" ++ e.1, p.packageFile id e.2))).get? (name ++ "/" ++ rest) =
        ((p.manifestOf id).paths.get? rest).map (p.packageFile id) := by
  have hentries := @Dict.entries_ofList_map _ _ _ _ _ _ (fun rest => name ++ "/" ++ rest)
    (p.packageFile id) (p.manifestOf id).paths.entries fun _ _ _ _ heq => below_inj.1 heq
  rw [Dict.ofList_entries] at hentries
  ext target
  rw [Dict.get?_eq_some_iff, hentries, Option.map_eq_some_iff, List.mem_map]
  constructor
  · rintro ⟨e, he, heq⟩
    obtain ⟨hkey, rfl⟩ := Prod.mk.inj heq
    rw [below_inj] at hkey
    exact ⟨e.2, Dict.get?_eq_some_iff.2 (hkey ▸ he), rfl⟩
  · rintro ⟨file, hfile, rfl⟩
    exact ⟨(rest, file), Dict.get?_eq_some_iff.1 hfile, rfl⟩

/-- The entries for the main file and the folder, below a name. -/
theorem get?_folder_below (p : Project) (name : String) (id : PackageId) (rest : String) :
    (Dict.ofList [(name, p.mainOf id), (name ++ "/", p.packageFolder id)]).get?
      (name ++ "/" ++ rest) = if rest = "" then some (p.packageFolder id) else none := by
  have hkey : name ++ "/" ++ rest = name ++ "/" ↔ rest = "" := String.append_eq_left_iff
  rw [Dict.get?_ofList, List.reverse_cons, List.reverse_singleton, List.singleton_append,
    List.lookup_cons, List.lookup_cons, beq_eq_false_iff_ne.2 (below_ne name rest),
    List.lookup_nil]
  by_cases hrest : rest = ""
  · rw [if_pos hrest, beq_iff_eq.2 (hkey.2 hrest)]
  · rw [if_neg hrest, beq_eq_false_iff_ne.2 (mt hkey.1 hrest)]

theorem get?_entriesAs_below (p : Project) (name : String) (id : PackageId) (rest : String) :
    (p.entriesAs name id).get? (name ++ "/" ++ rest) =
      (((p.manifestOf id).paths.get? rest).map (p.packageFile id)).or
        (if rest = "" then some (p.packageFolder id) else none) := by
  have hsplit := Dict.get?_ofList_append
    [(name, p.mainOf id), (name ++ "/", p.packageFolder id)]
    ((p.manifestOf id).paths.entries.map fun e => (name ++ "/" ++ e.1, p.packageFile id e.2))
    (name ++ "/" ++ rest)
  rw [get?_replaced_below, get?_folder_below] at hsplit
  exact hsplit

theorem mem_keys_entriesAs : key ∈ (p.entriesAs name id).keys ↔
    key = name ∨ key = name ++ "/" ∨
      ∃ rest ∈ (p.manifestOf id).paths.keys, key = name ++ "/" ++ rest := by
  rw [entriesAs, Dict.mem_keys_ofList, packageEntries, List.map_cons, List.map_cons, List.map_map,
    List.mem_cons, List.mem_cons, Dict.keys, List.mem_map]
  simp only [List.mem_map, exists_exists_and_eq_and, Function.comp_apply]
  exact or_congr_right (or_congr_right (exists_congr fun e => and_congr_right fun _ => eq_comm))

/-- The longest key for a specifier below a name is that of the longest rest that is replaced, or
else that of the folder. -/
theorem match?_entriesAs (p : Project) (name : String) (id : PackageId) (path : String) :
    (p.entriesAs name id).match? (name ++ "/" ++ path) =
      some (name ++ "/" ++ (Imports.match? (p.manifestOf id).paths path).getD "") := by
  have hcases : ∀ key ∈ (p.entriesAs name id).keys, Covers key (name ++ "/" ++ path) →
      key.length ≤ (name ++ "/").length ∨
        ∃ rest ∈ (p.manifestOf id).paths.keys, Covers rest path ∧ key = name ++ "/" ++ rest := by
    intro key hkey hcov
    rcases mem_keys_entriesAs.1 hkey with rfl | rfl | ⟨rest, hrest, rfl⟩
    · left
      rw [String.length_append]
      omega
    · exact Or.inl le_rfl
    · by_cases hempty : rest = ""
      · rw [hempty, String.append_empty]
        exact Or.inl le_rfl
      · exact Or.inr ⟨rest, hrest, (covers_below_iff hempty).1 hcov, rfl⟩
  rw [Imports.match?_eq_some_iff]
  cases hm : Imports.match? (p.manifestOf id).paths path with
  | none =>
      rw [Option.getD_none, String.append_empty]
      refine ⟨mem_keys_entriesAs.2 (Or.inr (Or.inl rfl)), covers_folder name path, ?_⟩
      intro key hkey hcov
      rcases hcases key hkey hcov with hle | ⟨rest, hrest, hcovers, -⟩
      · exact hle
      · exact absurd hcovers (Imports.match?_eq_none_iff.1 hm rest hrest)
  | some replaced =>
      obtain ⟨hmem, hcov, hmax⟩ := Imports.match?_eq_some_iff.1 hm
      rw [Option.getD_some]
      refine ⟨mem_keys_entriesAs.2 (Or.inr (Or.inr ⟨replaced, hmem, rfl⟩)), ?_, ?_⟩
      · by_cases hempty : replaced = ""
        · rw [hempty, covers_empty_iff] at hcov
          rw [hempty, hcov]
          exact Covers.refl _
        · exact (covers_below_iff hempty).2 hcov
      · intro key hkey hcovers
        rw [length_below]
        rcases hcases key hkey hcovers with hle | ⟨rest, hrest, hrestCov, rfl⟩
        · rw [String.length_append, show "/".length = 1 from rfl] at hle
          omega
        · have := hmax rest hrest hrestCov
          rw [length_below]
          omega

/-- The specifier that names a part of a package under a name. -/
def specifierOf (name : String) : Option String → String
  | none => name
  | some path => name ++ "/" ++ path

/-- The entries of a package have a key for each of its parts. -/
theorem match?_specifierOf_ne_none (p : Project) (name : String) (id : PackageId)
    (path? : Option String) : (p.entriesAs name id).match? (specifierOf name path?) ≠ none := by
  cases path? with
  | none =>
      rw [specifierOf, Imports.match?_self (Dict.mem_keys_of_get? (get?_entriesAs_name p name id))]
      exact Option.some_ne_none _
  | some path =>
      rw [specifierOf, match?_entriesAs]
      exact Option.some_ne_none _

/-- Where a path below the folder of a package leads through its entries: through the longest
replaced file or folder around it, or else through the folder of the package. -/
def reached? (p : Project) (id : PackageId) (path : String) : Option String :=
  match Imports.match? (p.manifestOf id).paths path with
  | some replaced =>
    Imports.targetBy? path
      (replaced, p.packageFile id ((p.manifestOf id).paths.getD replaced ""))
  | none => Imports.targetBy? path ("", p.folderTarget id)

/-- **A specifier below a name of a package leads where the path after the name does.** -/
theorem target?_entriesAs (p : Project) (name : String) (id : PackageId) (path : String) :
    (p.entriesAs name id).target? (name ++ "/" ++ path) = p.reached? id path := by
  have hrest : ∀ replaced target,
      Imports.targetBy? (name ++ "/" ++ path) (name ++ "/" ++ replaced, target) =
        Imports.targetBy? path (replaced, target) := by
    intro replaced target
    rw [Imports.targetBy?, Imports.targetBy?, restAfter_below]
  have hentry : (p.entriesAs name id).target? (name ++ "/" ++ path) =
      Imports.targetBy? path ((Imports.match? (p.manifestOf id).paths path).getD "",
        (p.entriesAs name id).getD
          (name ++ "/" ++ (Imports.match? (p.manifestOf id).paths path).getD "") "") := by
    rw [← hrest, Imports.target?, match?_entriesAs]
    rfl
  rw [hentry, reached?, Dict.getD_eq, get?_entriesAs_below]
  cases hm : Imports.match? (p.manifestOf id).paths path with
  | none =>
      rw [Option.getD_none, if_pos rfl]
      cases hfolder : (p.manifestOf id).paths.get? "" <;> simp [folderTarget, hfolder]
  | some replaced =>
      obtain ⟨file, hfile⟩ := Dict.mem_keys_iff.1 (Imports.mem_keys_of_match? hm)
      simp [hfile, Dict.getD_of_get? hfile]

/-! ### Parts that are what an import of them reaches -/

/-- A part of a package is what an import of it reaches: the main file is, and a path is if it leads
to a target of the same form through the entries of the package. -/
def Renders (p : Project) (part : PackagePart) : Prop :=
  ∀ path, part.path? = some path → ∃ found, p.reached? part.id path = some found ∧
    Target.normalize found = Target.normalize (p.partTarget part (p.manifestOf part.id))

/-- The entries of a package under a name lead to a part as it is meant, if the part is what
an import of it reaches. -/
theorem renders_iff (p : Project) (name : String) (part : PackagePart) :
    (∃ found, (p.entriesAs name part.id).target? (specifierOf name part.path?) = some found ∧
        Target.normalize found = Target.normalize (p.partTarget part (p.manifestOf part.id))) ↔
      p.Renders part := by
  obtain ⟨id, path?⟩ := part
  cases path? with
  | none =>
      refine iff_of_true ⟨_, Imports.target?_of_get? (get?_entriesAs_name p name id), rfl⟩ ?_
      rintro path ⟨⟩
  | some path =>
      rw [specifierOf, target?_entriesAs]
      constructor
      · rintro hfound _ ⟨⟩
        exact hfound
      · exact fun h => h path rfl

/-- A file or folder that is replaced as a whole is what an import of it reaches. -/
theorem renders_of_replaced (hne : path ≠ "") (h : path ∈ (p.manifestOf id).paths.keys) :
    p.Renders ⟨id, some path⟩ := by
  rintro _ ⟨⟩
  refine ⟨_, ?_, rfl⟩
  have hempty : path.isEmpty = false := Bool.eq_false_iff.2 fun h => hne (String.isEmpty_iff.1 h)
  obtain ⟨file, hfile⟩ := Dict.mem_keys_iff.1 h
  rw [reached?, Imports.match?_self h, partTarget]
  simp [Imports.targetBy?, hempty, Dict.getD_of_get? hfile]

/-- The target for a file of a package, and the path below its folder as it is written, have one
form, unless the file is the directory of the map. -/
theorem normalize_packageFile (hpath : path.toList.head? ≠ some '/')
    (hurl : Target.isUrl path = false) (hempty : path ≠ Builtin.emptyModule)
    (hbase : Path.normalize (Path.join (p.packagePath id) path) ≠ ".") (hne : path ≠ "") :
    Target.normalize (p.packageFolder id ++ path) = Target.normalize (p.packageFile id path) := by
  have hfolder : (p.packagePath id).toList.head? = some '.' := by
    rw [packagePath, joinTarget, head?_targetOfPath]
  have hfolderNe : (p.packagePath id).toList.head? ≠ some '/' := by rw [hfolder]; decide
  have hjoin : Path.rootSlashes (Path.join (p.packagePath id) path).toList = 0 := by
    rw [Path.rootSlashes_join _ hpath, Path.rootSlashes_eq_zero hfolderNe]
  have hparts : parts (joinTarget (p.packagePath id) path) =
      reduce false (parts (p.packagePath id) ++ parts path) :=
    parts_joinTarget_of_relative hfolderNe hpath
  -- A file without parts would be the directory of the map.
  have hpartsNe : parts (joinTarget (p.packagePath id) path) ≠ [] := by
    rw [hparts, ← Path.parts_join hpath]
    intro hnil
    refine hbase (String.toList_injective ?_)
    have hreduced : reduce false (Path.segments (Path.join (p.packagePath id) path).toList) = [] :=
      (Path.reduce_append_filter_isPart [] _).symm.trans hnil
    rw [Path.normalize, String.toList_ofList, Path.normalizeChars, hjoin]
    simp [hreduced, Path.joinSegments, Path.here]
  have htarget := endsInSlash_joinTarget hfolderNe hpath hpartsNe
  have hfile : p.packageFile id path = if Target.endsInSlash path then
      Target.withSlash (joinTarget (p.packagePath id) path)
      else joinTarget (p.packagePath id) path := by
    rw [packageFile, if_neg (by simpa using hempty), hurl, if_neg Bool.false_ne_true]
  -- Both begin alike and are relative; their parts and their last slash remain.
  refine Target.normalize_congr ?_ ?_ ?_ ?_
  · obtain ⟨rest, hrest⟩ := List.head?_eq_some_iff.1 hfolder
    rw [packageFolder, String.toList_append, String.toList_append, hrest]
    rfl
  · rw [hfile]
    split
    · exact Target.head?_withSlash (head?_targetOfPath _)
    · exact head?_targetOfPath _
  · have hwritten : parts (p.packageFile id path) = parts (joinTarget (p.packagePath id) path) := by
      rw [hfile]
      split
      · exact parts_withSlash _
      · rfl
    rw [hwritten, hparts, Path.reduce_reduce, packageFolder,
      Target.parts_append (Or.inr (endsInSlash_folder (p.packagePath id))), parts_append_slash]
  · have hlast : path.toList ≠ [] := fun hnil => hne (String.toList_eq_nil_iff.1 hnil)
    have hwritten : Target.endsInSlash (p.packageFolder id ++ path) = Target.endsInSlash path := by
      rw [Target.endsInSlash, String.toList_append, List.getLast?_append_of_ne_nil _ hlast,
        Target.endsInSlash]
    rw [hwritten, hfile]
    cases hslash : Target.endsInSlash path with
    | true => rw [if_pos rfl, Target.endsInSlash_withSlash]
    | false => rw [if_neg Bool.false_ne_true, htarget]

/-- A path that nothing replaces is what an import of it reaches, if it is taken as one below the
folder of the package and does not lead back to the directory of the map. -/
theorem renders_of_plain (hplain : ∀ replaced ∈ (p.manifestOf id).paths.keys,
      replaced ≠ "" ∧ ¬ Covers replaced path)
    (hurl : Target.isUrlOrRooted path = false) (hempty : path ≠ Builtin.emptyModule)
    (hbase : Path.normalize (Path.join (p.packagePath id) path) ≠ ".") :
    p.Renders ⟨id, some path⟩ := by
  rintro _ ⟨⟩
  have hmatch : Imports.match? (p.manifestOf id).paths path = none :=
    Imports.match?_eq_none_iff.2 fun replaced hmem => (hplain replaced hmem).2
  have hnone : ∀ rest, (rest = "" ∨ rest = path) → (p.manifestOf id).paths.get? rest = none := by
    intro rest hrest
    refine Dict.get?_eq_none_iff.2 fun hmem => ?_
    rcases hrest with rfl | rfl
    · exact (hplain "" hmem).1 rfl
    · exact (hplain rest hmem).2 (Covers.refl rest)
  refine ⟨p.packageFolder id ++ path, ?_, ?_⟩
  · have hfolder : p.folderTarget id = p.packageFolder id := by
      rw [folderTarget, hnone "" (Or.inl rfl)]
      rfl
    rw [reached?, hmatch, hfolder]
    simp [Imports.targetBy?, restAfter_empty, packageFolder, endsInSlash_folder]
  · rw [partTarget]
    by_cases hpath : path = ""
    · rw [hpath, String.append_empty]
      rfl
    · rw [Target.isUrlOrRooted, Bool.or_eq_false_iff, Target.isRooted, beq_eq_false_iff_ne] at hurl
      rw [normalize_packageFile hurl.1 hurl.2 hempty hbase hpath]
      simp [hpath, Dict.getD_eq, hnone path (Or.inr rfl)]

/-- A part of a package whose path nothing takes elsewhere but a replacement of its own: the main
file, a file or folder that is replaced as a whole, or a path around which nothing is replaced,
neither a URL nor rooted nor the name of the empty module, and not the directory of the map. -/
inductive Ordinary (p : Project) (id : PackageId) : Option String → Prop
  | main : Ordinary p id none
  | replaced {path : String} (hne : path ≠ "") (h : path ∈ (p.manifestOf id).paths.keys) :
      Ordinary p id (some path)
  | plain {path : String} (hplain : ∀ replaced ∈ (p.manifestOf id).paths.keys,
        replaced ≠ "" ∧ ¬ Covers replaced path)
      (hurl : Target.isUrlOrRooted path = false) (hempty : path ≠ Builtin.emptyModule)
      (hbase : Path.normalize (Path.join (p.packagePath id) path) ≠ ".") :
      Ordinary p id (some path)

theorem renders_of_ordinary {path? : Option String} (h : p.Ordinary id path?) :
    p.Renders ⟨id, path?⟩ := by
  cases h with
  | main =>
      rintro path ⟨⟩
  | replaced hne h => exact renders_of_replaced hne h
  | plain hplain hurl hempty hbase => exact renders_of_plain hplain hurl hempty hbase

end Project

end ImportAtlas
