import Mathlib.Data.Set.Finite.List
import ImportAtlas.Proofs.Reachability
import ImportAtlas.Proofs.Weight

/-!
# Projects with finitely many files

What a project holds is finite: the specifiers in its files, the entries of its map, and so the
modules that bare specifiers and URLs name. A path that can be read is short, so its names are few,
and of bounded texts there are finitely many.

## Main results

* `FileTree.FinitelyMany.specifiers`: the specifiers in finitely many files.
* `Resolver.resolve_cases`: the four ways in which a specifier names a module.
* `Resolver.finite_mapped`: finitely many specifiers go to finitely many modules through a map.
* `readNames_le_of_specifies`: a module that is read has few names in its path.
-/

namespace ImportAtlas

/-! ### Texts -/

instance finite_char : Finite Char :=
  Finite.of_injective (fun c : Char => c.val.toFin) fun _ _ h => Char.ext (UInt32.toFin_inj.1 h)

/-- There are finitely many texts of bounded length. -/
theorem finite_length_le (n : Nat) : {url : String | url.toList.length ≤ n}.Finite :=
  (List.finite_length_le Char n).preimage fun _ _ _ _ h => String.toList_inj.1 h

/-- No character is spelled by less than a byte. -/
theorem Utf8.length_le_encode (text : String) : text.toList.length ≤ (encode text).length := by
  rw [encode]
  induction text.toList with
  | nil => exact Nat.le_refl _
  | cons c cs ih =>
      have hc : 0 < (String.utf8EncodeChar c).length := by
        rw [String.length_utf8EncodeChar]
        exact c.utf8Size_pos
      rw [List.flatMap_cons, List.length_append, List.length_cons]
      omega

/-! ### Paths that can be read -/

namespace Path

/-- A path has no more names than its form in messages has characters, and one. -/
theorem length_parts_le (path : String) :
    (parts path).length ≤ (Utf8.encode (squeeze path)).length + 1 := by
  rw [← parts_squeeze]
  calc (parts (squeeze path)).length
      ≤ (segments (squeeze path).toList).length := List.length_filter_le ..
    _ ≤ (squeeze path).toList.length + 1 := Url.length_splitOn_le _
    _ ≤ (Utf8.encode (squeeze path)).length + 1 := Nat.succ_le_succ (Utf8.length_le_encode _)

end Path

namespace FileTree

variable {files : FileTree} {path : String}

/-- Only finitely many places of a tree hold files. -/
def FinitelyMany (files : FileTree) : Prop :=
  {place | ∃ bytes, files.lookup place = some (.file bytes)}.Finite

theorem finitelyMany_ofFiles (folders : List (List Path.Segment))
    (sources : List (List Path.Segment × List UInt8)) : (ofFiles folders sources).FinitelyMany := by
  refine (List.finite_toSet (sources.map Prod.fst)).subset ?_
  rintro place ⟨bytes, h⟩
  simp only [ofFiles] at h
  cases hlookup : sources.lookup place with
  | some bytes' =>
      obtain ⟨before, after, heq, -⟩ := List.lookup_eq_some_iff.1 hlookup
      exact List.mem_map.2 ⟨(place, bytes'), by simp [heq], rfl⟩
  | none =>
      rw [hlookup] at h
      simp only at h
      split at h <;> exact absurd h (by simp)

theorem exists_lookup_of_walk {segs place : List Path.Segment} {bytes : List UInt8}
    (h : files.walk place segs = .ok (.file bytes)) :
    ∃ place, files.lookup place = some (.file bytes) := by
  induction segs generalizing place with
  | nil =>
      rw [walk] at h
      cases hlookup : files.lookup place with
      | none => exact absurd h (by simp [hlookup])
      | some entry =>
          rw [hlookup] at h
          exact ⟨place, hlookup.trans (congrArg some (Except.ok.inj h))⟩
  | cons seg segs ih =>
      rw [walk] at h
      split at h
      · exact absurd h (by simp)
      · exact absurd h (by simp)
      · split at h
        · exact ih h
        · split at h
          · exact absurd h (by simp)
          · exact ih h

theorem readText_eq_ok {text : String} (h : files.readText path = .ok text) :
    (Path.parts path).length ≤ longestPath + 1 ∧ ∃ place bytes decoded,
      files.lookup place = some (.file bytes) ∧ Utf8.decode? bytes = some decoded ∧
        text = String.ofList (unifyLineBreaks decoded.toList) := by
  rw [readText] at h
  cases hread : files.read path with
  | error fault => exact absurd h (by simp [hread])
  | ok bytes =>
      rw [hread] at h
      cases hdecode : Utf8.decode? bytes with
      | none => exact absurd h (by simp [hdecode])
      | some decoded =>
          simp only [hdecode] at h
          rw [read] at hread
          split at hread
          · rename_i hfind
            rw [find] at hfind
            split at hfind
            · exact absurd hfind (by simp)
            · split at hfind
              · exact absurd hfind (by simp)
              · rename_i hlength
                obtain ⟨place, hplace⟩ := exists_lookup_of_walk hfind
                have hparts := Path.length_parts_le path
                refine ⟨by omega, place, bytes, decoded, ?_, hdecode, (Except.ok.inj h).symm⟩
                rw [hplace, Except.ok.inj hread]
          · exact absurd hread (by simp)
          · exact absurd hread (by simp)

end FileTree

/-! ### Specifiers -/

section Specifiers

variable {files : FileTree} {url : String} {found : List String}

/-- The specifiers in a text. -/
def textSpecifiers (text : String) : List String :=
  ((Source.analyze text.toList).specifiers text.toList).eraseDups

/-- **A module that is read has few names in its path.** -/
theorem readNames_le_of_specifies (h : Specifies files url found) :
    ∃ p, Url.split? [] url.toList = some p ∧ Url.readNames p.path ≤ FileTree.longestPath + 1 := by
  obtain ⟨path, text, hpath, htext, -⟩ := specifies_iff.1 h
  rw [filePathOf, Url.filePath?] at hpath
  cases hsplit : Url.split? [] url.toList with
  | none => exact absurd hpath (by simp [hsplit])
  | some p =>
      rw [hsplit] at hpath
      obtain rfl := Except.ok.inj hpath
      have hle := (FileTree.readText_eq_ok htext).1
      have hnames : Url.readNames p.path =
          (Path.parts (String.ofList (Url.decode p.path))).length := by
        rw [Path.parts, String.toList_ofList, ← List.countP_eq_length_filter]
        refine List.countP_congr fun seg _ => ?_
        by_cases hempty : seg = [] <;> by_cases hdot : seg = ['.'] <;>
          simp [Url.namesNothing, Path.here, hempty, hdot]
      rw [Path.parts_squeeze] at hle
      exact ⟨p, rfl, hnames ▸ hle⟩

/-- The specifiers that occur in the files of a tree. -/
def FileTree.specifiers (files : FileTree) : Set String :=
  {s | ∃ url found, Specifies files url found ∧ s ∈ found}

/-- **Finitely many files have finitely many specifiers.** -/
theorem FileTree.FinitelyMany.specifiers (h : files.FinitelyMany) : files.specifiers.Finite := by
  have hbytes : {bytes | ∃ place, files.lookup place = some (.file bytes)}.Finite := by
    have hone : ∀ place, {bytes | files.lookup place = some (.file bytes)}.Finite := fun place =>
      Set.Subsingleton.finite fun bytes hb bytes' hb' =>
        Entry.file.inj (Option.some.inj (hb.symm.trans hb'))
    refine (h.biUnion fun place _ => hone place).subset ?_
    rintro bytes ⟨place, hplace⟩
    exact Set.mem_biUnion ⟨bytes, hplace⟩ hplace
  refine (hbytes.biUnion fun bytes _ => List.finite_toSet
    ((Utf8.decode? bytes).elim [] fun decoded =>
      textSpecifiers (String.ofList (unifyLineBreaks decoded.toList)))).subset ?_
  rintro s ⟨url, found, hspecifies, hs⟩
  obtain ⟨path, text, -, htext, -, rfl⟩ := specifies_iff.1 hspecifies
  obtain ⟨-, place, bytes, decoded, hplace, hdecode, rfl⟩ := FileTree.readText_eq_ok htext
  refine Set.mem_biUnion ⟨place, hplace⟩ ?_
  simp only [hdecode]
  exact hs

end Specifiers

/-! ### Maps -/

/-- A map has finitely many entries. -/
theorem ImportMap.finite_has (map : ImportMap) : {entry | map.Has entry}.Finite := by
  refine ((List.finite_toSet (none :: map.scopes.keys.map some)).biUnion fun scope? _ =>
    (List.finite_toSet (map.table scope?).keys).image fun key =>
      (⟨scope?, key, (map.table scope?).getD key ""⟩ : MapEntry)).subset ?_
  rintro ⟨scope?, key, target⟩ hentry
  replace hentry : (map.table scope?).get? key = some target := hentry
  have hscope : scope? ∈ none :: map.scopes.keys.map some := by
    cases scope? with
    | none => exact List.mem_cons_self
    | some q =>
        refine List.mem_cons_of_mem _ (List.mem_map_of_mem (Dict.mem_keys_iff.2 ?_))
        cases hq : map.scopes.get? q with
        | some entries => exact ⟨entries, rfl⟩
        | none =>
            rw [table, scope, Dict.getD_eq, hq] at hentry
            exact absurd hentry (by simp)
  refine Set.mem_biUnion hscope ⟨key, Dict.mem_keys_of_get? hentry, ?_⟩
  exact congrArg (MapEntry.mk scope? key) (Dict.getD_of_get? hentry)

namespace Resolver

variable {r : Resolver} {specifier parent : String} {isEntry : Bool}

/-- The module that a specifier names through an entry of a map. -/
def mapped (r : Resolver) (entry : MapEntry) (specifier : String) : String :=
  (mapUrl r.base entry.target).toOption.getD "" ++ restAfter entry.key specifier

/-- **Finitely many specifiers go to finitely many modules through a map.** -/
theorem finite_mapped (r : Resolver) {specifiers : Set String} (h : specifiers.Finite) :
    (Set.image2 r.mapped {entry | r.map.Has entry} specifiers).Finite :=
  Set.Finite.image2 _ r.map.finite_has h

/-- What names a module by itself is a path, or the URL of the module. -/
theorem of_referenceUrl? {url : String} (h : referenceUrl? specifier parent = .ok (some url)) :
    (isPathSpecifier specifier = true ∧ joinUrl parent specifier = .ok url) ∨ url = specifier := by
  rw [referenceUrl?] at h
  split at h
  · rename_i hpath
    cases hjoin : joinUrl parent specifier with
    | error e => exact absurd h (by simp [hjoin, Except.map])
    | ok url' =>
        rw [hjoin] at h
        exact Or.inl ⟨hpath, congrArg Except.ok (Option.some.inj (Except.ok.inj h))⟩
  · split at h
    · exact Or.inr (Option.some.inj (Except.ok.inj h)).symm
    · exact absurd h (by simp)

theorem eq_of_applyEntry {entry : MapEntry} {resolution : Resolution}
    (h : r.applyEntry specifier parent entry = .ok resolution) :
    resolution = ⟨r.mapped entry specifier, some entry⟩ := by
  rw [applyEntry] at h
  split at h
  · exact absurd h (by simp)
  · cases htarget : mapUrl r.base entry.target with
    | error e => exact absurd h (by simp [htarget, bind, Except.bind])
    | ok target =>
        rw [htarget] at h
        rw [mapped, htarget]
        exact (Except.ok.inj h).symm

/-- **The ways in which a specifier names a module**: as a path from the module that it stands in,
as a URL, through an entry of the map, or as a file that an entry module is taken for. -/
theorem resolve_cases {resolution : Resolution}
    (h : r.resolve specifier parent isEntry = .ok resolution) :
    (isPathSpecifier specifier = true ∧ joinUrl parent specifier = .ok resolution.url) ∨
      resolution.url = specifier ∨
      (∃ entry, r.map.Has entry ∧ resolution.url = r.mapped entry specifier) ∨
      (isEntry = true ∧ joinUrl parent ("./" ++ specifier) = .ok resolution.url) := by
  have hoffers := @offers_of_resolve r specifier parent isEntry resolution
  rw [resolve] at h hoffers
  cases hreference : referenceUrl? specifier parent with
  | error e => exact absurd h (by simp [hreference, bind, Except.bind])
  | ok url? =>
      rw [hreference] at h hoffers
      cases url? with
      | some url =>
          obtain rfl : (⟨url, none⟩ : Resolution) = resolution := Except.ok.inj h
          exact (of_referenceUrl? hreference).elim Or.inl fun heq => Or.inr (Or.inl heq)
      | none =>
          simp only [bind, Except.bind] at h hoffers
          cases hfirst : firstEntry? specifier (r.tables parent) with
          | some entry =>
              simp only [hfirst] at h hoffers
              have heq := eq_of_applyEntry h
              exact Or.inr (Or.inr (Or.inl ⟨entry, (hoffers h (by rw [heq])).has, by rw [heq]⟩))
          | none =>
              simp only [hfirst] at h
              split at h
              · rename_i hfallback
                cases hjoin : joinUrl parent ("./" ++ specifier) with
                | error e => exact absurd h (by simp [hjoin])
                | ok url =>
                    rw [hjoin] at h
                    obtain rfl : (⟨url, none⟩ : Resolution) = resolution := Except.ok.inj h
                    exact Or.inr (Or.inr (Or.inr ⟨(Bool.and_eq_true_iff.1 hfallback).1, rfl⟩))
              · exact absurd h (by simp)

end Resolver

end ImportAtlas
