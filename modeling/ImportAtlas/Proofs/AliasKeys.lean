import ImportAtlas.Proofs.NamedParts
import ImportAtlas.Proofs.Requirements

/-!
# Aliases and the keys written for them

A specifier in a manifest is looked up among the aliases of a package; the same specifier in a
module is looked up among the keys of a table, which has two keys for an alias: the alias, and the
alias with a slash. The first lookup goes forward through the aliases and keeps the longest one,
the second goes back through the specifier. They find the same alias.

## Summary

* `Imports.HoldsAliases`: a table whose keys are those for some aliases.
* `SameAlias`: a part of a package and a key that stand for one alias.

## Main results

* `Imports.holdsAliases_packageEntries`: the entries of packages that replace no file make such a
  table.
* `Imports.HoldsAliases.sameAlias`: the two lookups find the same alias.
* `matchAlias?_agrees_match?`: what one lookup finds, said by what the other does.
-/

namespace ImportAtlas

variable {aliases : Dict String PackageId} {name path specifier : String} {id : PackageId}

/-! ### The path behind an alias -/

theorem pathBelow?_self (name : String) : pathBelow? name name = none := by
  rw [pathBelow?, if_pos rfl]

theorem pathBelow?_below (name path : String) :
    pathBelow? name (name ++ "/" ++ path) = some path := by
  have hpath := restAfter_below name "" path
  rw [restAfter_empty, restAfter, String.append_empty, String.length_append] at hpath
  rw [pathBelow?, if_neg (below_ne name path)]
  exact congrArg some hpath

/-- A specifier that starts with an alias is the alias or has a path behind it. -/
theorem StartsWith.eq_or_exists (h : StartsWith specifier name) :
    specifier = name ∨ ∃ path, specifier = name ++ "/" ++ path := by
  refine h.imp id fun ⟨rest, hrest⟩ => ⟨String.ofList rest, ?_⟩
  rw [← String.toList_inj, String.toList_append (s := name ++ "/"), String.toList_ofList, hrest]

/-! ### Tables for aliases -/

/-- A table whose keys are aliases, each also with a slash at its end. -/
def Imports.HoldsAliases (table : Imports) (aliases : Dict String PackageId) : Prop :=
  ∀ key, key ∈ table.keys ↔ ∃ name ∈ aliases.keys, key = name ∨ key = name ++ "/"

/-- The entries of packages that replace no file are those for their aliases. -/
theorem Imports.holdsAliases_packageEntries (p : Project) (manifestOf : PackageId → Manifest)
    (h : ∀ e ∈ aliases.entries, (manifestOf e.2).paths.entries = []) :
    HoldsAliases (Dict.ofList (aliases.entries.flatMap fun e =>
      p.packageEntries e.1 e.2 (manifestOf e.2))) aliases := by
  intro key
  have hkeys : ∀ e ∈ aliases.entries,
      (p.packageEntries e.1 e.2 (manifestOf e.2)).map Prod.fst = [e.1, e.1 ++ "/"] := by
    intro e he
    rw [Project.packageEntries, h e he]
    rfl
  rw [Dict.mem_keys_ofList, List.map_flatMap, List.mem_flatMap, Dict.keys]
  constructor
  · rintro ⟨e, he, hkey⟩
    rw [hkeys e he] at hkey
    exact ⟨e.1, List.mem_map_of_mem he, by simpa using hkey⟩
  · rintro ⟨name, hname, hkey⟩
    obtain ⟨e, he, rfl⟩ := List.mem_map.1 hname
    refine ⟨e, he, ?_⟩
    rw [hkeys e he]
    simpa using hkey

/-- A part of a package and a key that stand for one alias, which a specifier goes through. -/
inductive SameAlias (aliases : Dict String PackageId) (specifier : String) :
    Option PackagePart → Option String → Prop
  /-- The specifier is the alias. -/
  | main {id : PackageId} (hget : aliases.get? specifier = some id) :
      SameAlias aliases specifier (some ⟨id, none⟩) (some specifier)
  /-- The specifier has a path behind the alias. -/
  | below {name path : String} {id : PackageId} (hget : aliases.get? name = some id)
      (hspecifier : specifier = name ++ "/" ++ path) :
      SameAlias aliases specifier (some ⟨id, some path⟩) (some (name ++ "/"))
  /-- The specifier goes through no alias. -/
  | nothing : SameAlias aliases specifier none none

namespace SameAlias

variable {part? : Option PackagePart} {key? : Option String}

theorem nothing_iff (h : SameAlias aliases specifier part? key?) : part? = none ↔ key? = none := by
  cases h <;> simp

variable (hnames : ∀ name ∈ aliases.keys, Target.endsInSlash name = false)
include hnames

/-- An alias without a slash at its end is no folder. -/
theorem folder_ne (hget : aliases.get? name = some id) (folder : String) :
    folder ++ "/" ≠ name := by
  rintro rfl
  have hslash := hnames _ (Dict.mem_keys_of_get? hget)
  rw [endsInSlash_folder] at hslash
  exact absurd hslash (by decide)

theorem main_iff (h : SameAlias aliases specifier part? key?) :
    part? = some ⟨id, none⟩ ↔ ∃ name, aliases.get? name = some id ∧ key? = some name := by
  cases h with
  | main hget =>
      constructor
      · intro hpart
        obtain ⟨rfl, -⟩ := PackagePart.mk.inj (Option.some.inj hpart)
        exact ⟨specifier, hget, rfl⟩
      · rintro ⟨name, hname, hkey⟩
        obtain rfl := Option.some.inj hkey
        rw [Option.some.inj (hget.symm.trans hname)]
  | below hget hspecifier =>
      refine iff_of_false (by simp) ?_
      rintro ⟨name, hname, hkey⟩
      exact folder_ne hnames hname _ (Option.some.inj hkey)
  | nothing => simp

theorem below_iff (h : SameAlias aliases specifier part? key?) :
    part? = some ⟨id, some path⟩ ↔ ∃ name, aliases.get? name = some id ∧
      key? = some (name ++ "/") ∧ specifier = name ++ "/" ++ path := by
  cases h with
  | main hget =>
      refine iff_of_false (by simp) ?_
      rintro ⟨name, -, hkey, -⟩
      exact folder_ne hnames hget name (Option.some.inj hkey).symm
  | below hget hspecifier =>
      constructor
      · intro hpart
        obtain ⟨rfl, hpath⟩ := PackagePart.mk.inj (Option.some.inj hpart)
        obtain rfl := Option.some.inj hpath
        exact ⟨_, hget, rfl, hspecifier⟩
      · rintro ⟨name, hname, hkey, rfl⟩
        obtain rfl := (String.append_left_inj "/").1 (Option.some.inj hkey)
        rw [Option.some.inj (hget.symm.trans hname), below_inj.1 hspecifier]
  | nothing => simp

end SameAlias

namespace Imports.HoldsAliases

variable {table : Imports} (htable : table.HoldsAliases aliases)
  (hnames : ∀ name ∈ aliases.keys, Target.endsInSlash name = false)
include htable hnames

/-- A key around a specifier belongs to an alias that the specifier starts with. -/
theorem exists_startsWith {key : String} (hkey : key ∈ table.keys) (hcov : Covers key specifier) :
    ∃ name ∈ aliases.keys, StartsWith specifier name ∧ key.length ≤ (name ++ "/").length := by
  obtain ⟨name, hname, rfl | rfl⟩ := (htable key).1 hkey
  · have heq : key = specifier := by
      by_contra hne
      exact absurd (hcov.endsInSlash_of_ne hne) (by simp [hnames key hname])
    refine ⟨key, hname, Or.inl heq.symm, ?_⟩
    rw [String.length_append]
    omega
  · exact ⟨name, hname, Or.inr hcov.isPrefix, le_rfl⟩

/-- The key for a path behind the alias that its specifier goes through. -/
theorem match?_below (h : GoesThrough aliases (name ++ "/" ++ path) name) :
    table.match? (name ++ "/" ++ path) = some (name ++ "/") := by
  refine match?_eq_some_iff.2 ⟨(htable _).2 ⟨name, h.mem_keys, Or.inr rfl⟩,
    covers_folder name path, fun key hkey hcov => ?_⟩
  obtain ⟨other, hother, hstarts, hle⟩ := htable.exists_startsWith hnames hkey hcov
  have hlongest := h.longest other hother hstarts
  rw [String.length_append] at hle ⊢
  omega

/-- **A forward lookup among aliases and a backward lookup among their keys find the same
alias.** -/
theorem sameAlias (specifier : String) :
    SameAlias aliases specifier (matchAlias? specifier aliases) (table.match? specifier) := by
  by_cases hstarts : ∃ name ∈ aliases.keys, StartsWith specifier name
  · obtain ⟨first, hfirst, hstarts⟩ := hstarts
    obtain ⟨name, hname⟩ := exists_goesThrough hfirst hstarts
    obtain ⟨id, hget⟩ := Dict.mem_keys_iff.1 hname.mem_keys
    rw [hname.matchAlias?_eq hget]
    rcases hname.starts.eq_or_exists with rfl | ⟨path, rfl⟩
    · rw [pathBelow?_self, match?_self ((htable _).2 ⟨specifier, hname.mem_keys, Or.inl rfl⟩)]
      exact .main hget
    · rw [pathBelow?_below, htable.match?_below hnames hname]
      exact .below hget rfl
  · have hpart : matchAlias? specifier aliases = none := by
      rw [Option.eq_none_iff_forall_ne_some]
      intro part hpart
      obtain ⟨name, hname, -⟩ := goesThrough_of_matchAlias? hpart
      exact hstarts ⟨name, hname.mem_keys, hname.starts⟩
    have hkey : table.match? specifier = none := by
      refine match?_eq_none_iff.2 fun key hkey hcov => ?_
      obtain ⟨name, hname, hs, -⟩ := htable.exists_startsWith hnames hkey hcov
      exact hstarts ⟨name, hname, hs⟩
    rw [hpart, hkey]
    exact .nothing

end Imports.HoldsAliases

/-- **The lookup among aliases agrees with the one among their keys.** It finds the main file of a
package when the other finds an alias of it, a path behind an alias when the other finds that
alias with a slash, and nothing when the other finds nothing. The order of the aliases plays no
part. -/
theorem matchAlias?_agrees_match? {table : Imports} (htable : table.HoldsAliases aliases)
    (hnames : ∀ name ∈ aliases.keys, Target.endsInSlash name = false) (specifier : String) :
    (∀ id, matchAlias? specifier aliases = some ⟨id, none⟩ ↔
      ∃ name, aliases.get? name = some id ∧ table.match? specifier = some name) ∧
    (∀ id path, matchAlias? specifier aliases = some ⟨id, some path⟩ ↔
      ∃ name, aliases.get? name = some id ∧ table.match? specifier = some (name ++ "/") ∧
        specifier = name ++ "/" ++ path) ∧
    (matchAlias? specifier aliases = none ↔ table.match? specifier = none) ∧
    ∀ aliases' : Dict String PackageId, aliases'.entries.Perm aliases.entries →
      matchAlias? specifier aliases' = matchAlias? specifier aliases := by
  have hsame := htable.sameAlias hnames specifier
  exact ⟨fun _ => hsame.main_iff hnames, fun _ _ => hsame.below_iff hnames, hsame.nothing_iff,
    fun _ hperm => matchAlias?_congr (Dict.get?_eq_of_perm hperm) specifier⟩

/-- Aliases below others, two of which stand for one package. -/
def nestedNames : Dict String PackageId :=
  Dict.ofList [("a", ⟨"npm", "x", "1.0.0"⟩), ("@s/a", ⟨"npm", "x", "1.0.0"⟩),
    ("a/b", ⟨"npm", "y", "1.0.0"⟩)]

/-- The keys that a project writes for them. -/
def nestedTable : Imports :=
  Dict.ofList (nestedNames.entries.flatMap fun e =>
    Project.flatAliases.packageEntries e.1 e.2 default)

/-- An alias below another one, with a repeated slash behind it. -/
theorem matchAlias?_agrees_match?_nestedNames :
    nestedTable.HoldsAliases nestedNames ∧
      (∀ name ∈ nestedNames.keys, Target.endsInSlash name = false) ∧
      nestedTable.match? "a/b//c" = some "a/b/" ∧
      matchAlias? "a/b//c" nestedNames = some ⟨⟨"npm", "y", "1.0.0"⟩, some "/c"⟩ := by
  have htable : nestedTable.HoldsAliases nestedNames :=
    Imports.holdsAliases_packageEntries Project.flatAliases (fun _ => default) fun _ _ => rfl
  have hnames : ∀ name ∈ nestedNames.keys, Target.endsInSlash name = false := by decide +kernel
  have hmatch : nestedTable.match? "a/b//c" = some "a/b/" := by decide +kernel
  refine ⟨htable, hnames, hmatch, ?_⟩
  exact ((matchAlias?_agrees_match? htable hnames "a/b//c").2.1 _ "/c").2
    ⟨"a/b", by decide +kernel, hmatch, rfl⟩

end ImportAtlas
