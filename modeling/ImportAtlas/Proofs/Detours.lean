import ImportAtlas.Proofs.Judgements
import ImportAtlas.Proofs.Rebasing
import ImportAtlas.Proofs.Viewpoint

/-!
# Targets without detours

Targets are compared by their forms. The form of a relative target that takes no detour is written
with its parts, so two such targets have one form in a map elsewhere exactly when they have one in
the map they are from; and neither has the form of a URL, unless a name with a colon leads to the
other map. So cleaning judges the entries of both maps alike when no key in a scope climbs.

## Summary

* `Target.Straight`: a relative target that takes no detour.

## Main results

* `Target.Straight.normalize_eq_iff`: when two such targets have one form.
* `Project.normalize_seenFrom_iff`: targets that have one form, seen from elsewhere.
* `ImportMap.judgedAlike_seenFrom`: maps whose entries are judged alike.
-/

namespace ImportAtlas

open Path (IsName Segment up segments joinSegments reduce parts)

/-! ### The front of a text -/

namespace Target

variable {value rest : String}

/-- A URL begins with a scheme. -/
theorem isUrl_iff : isUrl value = true ↔ ∃ letter scheme more,
    value.toList = letter :: scheme ++ ':' :: more ∧ letter.isAlpha = true ∧
      ∀ c ∈ scheme, isSchemeChar c = true := by
  rw [isUrl]
  constructor
  · intro h
    cases hchars : value.toList with
    | nil =>
        rw [hchars] at h
        exact absurd h (by decide)
    | cons letter chars =>
        rw [hchars, schemeChars?] at h
        split at h
        · rename_i hscheme
          rw [Bool.and_eq_true, beq_iff_eq, List.head?_eq_some_iff] at hscheme
          obtain ⟨hletter, more, hmore⟩ := hscheme
          refine ⟨letter, chars.takeWhile isSchemeChar, more, ?_, hletter,
            fun c hc => List.mem_takeWhile_imp hc⟩
          rw [List.cons_append, ← hmore, List.takeWhile_append_dropWhile]
        · exact absurd h (by decide)
  · rintro ⟨letter, scheme, more, hchars, hletter, hscheme⟩
    have hdrop : (scheme ++ ':' :: more).dropWhile isSchemeChar = ':' :: more := by
      rw [List.dropWhile_append_of_pos hscheme]
      rfl
    rw [hchars, List.cons_append, schemeChars?, hdrop, hletter, if_pos (by simp)]
    rfl

theorem isUrl_append (h : isUrl value = true) (rest : String) : isUrl (value ++ rest) = true := by
  obtain ⟨letter, scheme, more, hchars, hletter, hscheme⟩ := isUrl_iff.1 h
  refine isUrl_iff.2 ⟨letter, scheme, more ++ rest.toList, ?_, hletter, hscheme⟩
  rw [String.toList_append, hchars]
  simp

/-- There is a colon before the first slash of a URL. -/
theorem colon_mem_of_isUrl (h : isUrl value = true) :
    ':' ∈ value.toList.takeWhile (· ≠ '/') := by
  obtain ⟨letter, scheme, more, hchars, hletter, hscheme⟩ := isUrl_iff.1 h
  have hslash : ∀ c ∈ letter :: scheme ++ [':'], decide (c ≠ '/') = true := by
    intro c hc
    refine decide_eq_true ?_
    rintro rfl
    rcases List.mem_append.1 hc with hc | hc
    · rcases List.mem_cons.1 hc with rfl | hc
      · exact absurd hletter (by decide)
      · exact absurd (hscheme _ hc) (by decide)
    · exact absurd hc (by decide)
  have hsplit : letter :: scheme ++ ':' :: more = (letter :: scheme ++ [':']) ++ more := by simp
  rw [hchars, hsplit, List.takeWhile_append_of_pos hslash]
  simp

/-! ### Targets that take no detour -/

/-- A relative target that leads somewhere else and takes no detour. -/
structure Straight (value : String) : Prop where
  head? : value.toList.head? = some '.'
  parts_ne_nil : parts value ≠ []
  reduce_parts : reduce false (parts value) = parts value

theorem Downward.straight (h : Downward value) : Straight value :=
  ⟨h.head?, h.parts_ne_nil, Path.reduce_names fun seg hseg => (h.isName seg hseg).1⟩

/-- What follows a folder is followed from there. -/
theorem parts_append (h : rest = "" ∨ endsInSlash value = true) :
    parts (value ++ rest) = parts value ++ parts rest := by
  rcases h with rfl | h
  · rw [String.append_empty]
    exact (List.append_nil _).symm
  · rw [endsInSlash, beq_iff_eq] at h
    obtain ⟨front, hfront⟩ := List.getLast?_eq_some_iff.1 h
    rw [Path.parts_eq, Path.parts_eq, Path.parts_eq, String.toList_append, hfront,
      List.append_assoc, List.singleton_append, segments, segments, segments,
      List.splitOn_append_cons_self, List.splitOn_append_cons_self, List.filter_append,
      List.filter_append, List.splitOn_nil]
    simp [Path.isPart]

theorem endsInSlash_append_congr {value' : String}
    (h : endsInSlash value = endsInSlash value') (rest : String) :
    endsInSlash (value ++ rest) = endsInSlash (value' ++ rest) := by
  by_cases hrest : rest = ""
  · rw [hrest, String.append_empty, String.append_empty, h]
  · have hne : rest.toList ≠ [] := fun hnil => hrest (String.toList_eq_nil_iff.1 hnil)
    rw [endsInSlash, endsInSlash, String.toList_append, String.toList_append,
      List.getLast?_append_of_ne_nil _ hne, List.getLast?_append_of_ne_nil _ hne]

theorem normalize_of_isUrl (h : isUrl value = true) : normalize value = value := by
  rw [normalize, if_pos h]

namespace Straight

variable {value' : String}

theorem isUrl_eq_false (h : Straight value) : isUrl value = false := Target.isUrl_eq_false h.head?

/-- A target that takes no detour goes on through names. -/
theorem append (h : Straight value) (hslash : rest = "" ∨ endsInSlash value = true)
    (hrest : ∀ seg ∈ parts rest, IsName seg) : Straight (value ++ rest) := by
  refine ⟨?_, ?_, ?_⟩
  · obtain ⟨more, hmore⟩ := List.head?_eq_some_iff.1 h.head?
    rw [String.toList_append, hmore]
    rfl
  · rw [parts_append hslash]
    exact List.append_ne_nil_of_left_ne_nil h.parts_ne_nil _
  · rw [parts_append hslash, Path.reduce_append_names hrest, h.reduce_parts]

/-- **The form of a target that takes no detour.** -/
theorem toList_normalize (h : Straight value) : (Target.normalize value).toList =
    joinSegments (parts value) ++ if endsInSlash value then ['/'] else [] := by
  have hhead : value.toList.head? ≠ some '/' := by
    rw [h.head?]
    decide
  have hpath : (Path.normalize value).toList = joinSegments (parts value) := by
    have hne : reduce false (parts value) ≠ [] := by
      rw [h.reduce_parts]
      exact h.parts_ne_nil
    rw [Project.toList_normalize hhead hne, h.reduce_parts]
  have hlast : endsInSlash (Path.normalize value) = false := by
    rw [endsInSlash, beq_eq_false_iff_ne, hpath]
    exact Path.getLast?_joinSegments_parts value
  rw [Target.normalize, h.isUrl_eq_false, if_neg Bool.false_ne_true]
  cases hslash : endsInSlash value with
  | true =>
      rw [if_pos rfl, if_pos rfl, withSlash, hlast, if_neg Bool.false_ne_true,
        String.toList_append, hpath]
      rfl
  | false => rw [if_neg Bool.false_ne_true, if_neg Bool.false_ne_true, hpath, List.append_nil]

theorem endsInSlash_normalize (h : Straight value) :
    endsInSlash (Target.normalize value) = endsInSlash value := by
  rw [endsInSlash, h.toList_normalize]
  cases endsInSlash value with
  | true => rw [if_pos rfl, List.getLast?_concat, beq_self_eq_true]
  | false =>
      rw [if_neg Bool.false_ne_true, List.append_nil]
      exact beq_eq_false_iff_ne.2 (Path.getLast?_joinSegments_parts value)

/-- **Targets that take no detour have one form exactly when they have the same parts** and both end
in a slash or neither does. -/
theorem normalize_eq_iff (h : Straight value) (h' : Straight value') :
    Target.normalize value = Target.normalize value' ↔
      parts value = parts value' ∧ endsInSlash value = endsInSlash value' := by
  constructor
  · intro heq
    have hparts : ∀ {value : String}, Straight value →
        Path.names (Target.normalize value).toList = parts value := fun {value} h => by
      rw [names_normalize (by rw [h.head?]; decide), Path.names, ← h.reduce_parts]
      exact (Path.reduce_append_filter_isPart [] _).symm
    refine ⟨?_, ?_⟩
    · rw [← hparts h, ← hparts h', heq]
    · rw [← h.endsInSlash_normalize, ← h'.endsInSlash_normalize, heq]
  · rintro ⟨hparts, hslash⟩
    refine String.toList_injective ?_
    rw [h.toList_normalize, h'.toList_normalize, hparts, hslash]

/-- Without a colon in its first part no such target has the form of a URL. -/
theorem normalize_ne_of_isUrl (h : Straight value)
    (hcolon : ∀ first ∈ (parts value).head?, ':' ∉ first) {url : String}
    (hurl : isUrl url = true) : Target.normalize value ≠ url := by
  rintro rfl
  obtain ⟨first, more, hparts⟩ := List.exists_cons_of_ne_nil h.parts_ne_nil
  have hmem := colon_mem_of_isUrl hurl
  have hfirst : first ∈ parts value := hparts ▸ List.mem_cons_self
  have hslash : ∀ c ∈ first, decide (c ≠ '/') = true := fun c hc =>
    decide_eq_true fun heq => (Path.of_mem_parts hfirst).2.2 (heq ▸ hc)
  have htake : (Target.normalize value).toList.takeWhile (· ≠ '/') = first := by
    rw [h.toList_normalize, hparts]
    by_cases hmore : more = []
    · rw [hmore, Path.joinSegments_singleton, List.takeWhile_append_of_pos hslash]
      split <;> simp
    · rw [Path.joinSegments_cons hmore, List.append_assoc, List.takeWhile_append_of_pos hslash]
      simp
  rw [htake] at hmem
  exact hcolon first (by rw [hparts]; rfl) hmem

end Straight

end Target

/-! ### Seen from another directory -/

namespace Project

variable {base value target rest : String} (hbase : base.toList.head? ≠ some '/')
include hbase

/-- A target that leads down takes no detour, seen from elsewhere. -/
theorem straight_seenFrom (h : Target.Downward value) : Target.Straight (seenFrom base value) := by
  have hparts := parts_seenFrom hbase h
  refine ⟨head?_seenFrom h.isUrl_eq_false, ?_, ?_⟩
  · rw [hparts]
    exact List.append_ne_nil_of_right_ne_nil _ h.parts_ne_nil
  · rw [hparts, h.reduce_append, Path.reduce_reduce]

theorem endsInSlash_seenFrom_of_urlOrDownward (h : Target.UrlOrDownward value) :
    Target.endsInSlash (seenFrom base value) = Target.endsInSlash value := by
  rcases h with hurl | hdown
  · rw [seenFrom_of_isUrl hurl]
  · exact endsInSlash_seenFrom hbase hdown

variable (hcolon : ∀ first ∈ (reduce false (parts base)).head?, ':' ∉ first)
include hcolon

/-- A target that leads down, with names behind it, has no URL as its form, in its own map and seen
from elsewhere. -/
theorem normalize_append_ne_of_isUrl (h : Target.Downward value)
    (hslash : rest = "" ∨ Target.endsInSlash value = true)
    (hrest : ∀ seg ∈ parts rest, IsName seg) {url : String} (hurl : Target.isUrl url = true) :
    Target.normalize (value ++ rest) ≠ url ∧
      Target.normalize (seenFrom base value ++ rest) ≠ url := by
  have hslash' : rest = "" ∨ Target.endsInSlash (seenFrom base value) = true := by
    rwa [endsInSlash_seenFrom hbase h]
  have hhead : ∀ first ∈ (parts value ++ parts rest).head?, ':' ∉ first := by
    rw [List.head?_append_of_ne_nil _ h.parts_ne_nil]
    exact fun first hfirst => (h.isName first (List.mem_of_head? hfirst)).2
  refine ⟨(h.straight.append hslash hrest).normalize_ne_of_isUrl ?_ hurl,
    ((straight_seenFrom hbase h).append hslash' hrest).normalize_ne_of_isUrl ?_ hurl⟩
  · rwa [Target.parts_append hslash]
  · rw [Target.parts_append hslash', parts_seenFrom hbase h, List.append_assoc]
    cases hsegs : reduce false (parts base) with
    | nil => exact hhead
    | cons first more =>
        rw [hsegs] at hcolon
        exact hcolon

/-- **Targets have one form, seen from elsewhere, exactly when they have one form** in their own
map: a target, with some names behind it if it is a folder, and another one. -/
theorem normalize_seenFrom_iff (hvalue : Target.UrlOrDownward value)
    (htarget : Target.UrlOrDownward target)
    (hslash : rest = "" ∨ Target.endsInSlash value = true)
    (hrest : ∀ seg ∈ parts rest, IsName seg) :
    Target.normalize (value ++ rest) = Target.normalize target ↔
      Target.normalize (seenFrom base value ++ rest) =
        Target.normalize (seenFrom base target) := by
  have hslash' : rest = "" ∨ Target.endsInSlash (seenFrom base value) = true := by
    rwa [endsInSlash_seenFrom_of_urlOrDownward hbase hvalue]
  rcases hvalue with hvalue | hvalue <;> rcases htarget with htarget | htarget
  · rw [seenFrom_of_isUrl hvalue, seenFrom_of_isUrl htarget]
  · have hurl := Target.isUrl_append hvalue rest
    have hempty : ("" : String) = "" ∨ Target.endsInSlash target = true := Or.inl rfl
    obtain ⟨hne, hne'⟩ := normalize_append_ne_of_isUrl hbase hcolon htarget hempty
      (fun _ h => absurd h List.not_mem_nil) hurl
    rw [String.append_empty] at hne hne'
    rw [seenFrom_of_isUrl hvalue, Target.normalize_of_isUrl hurl]
    exact iff_of_false hne.symm hne'.symm
  · obtain ⟨hne, hne'⟩ :=
      normalize_append_ne_of_isUrl hbase hcolon hvalue hslash hrest htarget
    rw [seenFrom_of_isUrl htarget, Target.normalize_of_isUrl htarget]
    exact iff_of_false hne hne'
  · rw [(hvalue.straight.append hslash hrest).normalize_eq_iff htarget.straight,
      ((straight_seenFrom hbase hvalue).append hslash' hrest).normalize_eq_iff
        (straight_seenFrom hbase htarget),
      Target.parts_append hslash, Target.parts_append hslash', parts_seenFrom hbase hvalue,
      parts_seenFrom hbase htarget, List.append_assoc, List.append_right_inj,
      endsInSlash_seenFrom hbase htarget,
      Target.endsInSlash_append_congr (endsInSlash_seenFrom hbase hvalue)]

end Project

/-! ### Entries that are judged alike -/

namespace ImportMap

variable {map : ImportMap} {base : String}

/-- An entry that decides in the place of another one is an entry of the map. -/
theorem mem_values_of_deciding? {q k key value : String}
    (h : map.deciding? q (map.kept q) k = some (key, value)) :
    value ∈ map.values ∧ Covers key k := by
  obtain ⟨imports, himports, hget, hm⟩ := Imports.exists_of_choice? h
  refine ⟨?_, Imports.covers_of_match? hm⟩
  rcases List.mem_cons.1 himports with rfl | himports
  · refine mem_values_of_get?_scope (q := q) (map.sub_cleanScope q _ key value ?_)
    exact Imports.Sub.erase _ k key value hget
  rcases List.mem_append.1 himports with himports | himports
  · obtain ⟨form, -, rfl⟩ := List.mem_map.1 himports
    exact mem_values_of_get?_scope hget
  · rw [List.mem_singleton.1 himports] at hget
    exact mem_values_of_get?_imports hget

theorem scope_mem_values {q : String} (hq : q ∈ map.scopes.keys) :
    map.scope q ∈ map.scopes.values := by
  obtain ⟨entries, hentries⟩ := Dict.mem_keys_iff.1 hq
  rw [scope, Dict.getD_of_get? hentries]
  exact List.mem_map.2 ⟨(q, entries), Dict.get?_eq_some_iff.1 hentries, rfl⟩

/-- What follows a key in a specifier that does not climb are names. -/
theorem isName_of_mem_parts_restAfter {key k : String} (hcov : Covers key k)
    (hup : up ∉ segments k.toList) : ∀ seg ∈ parts (restAfter key k), IsName seg := by
  intro seg hseg
  have hpart := List.mem_filter.1 hseg
  obtain ⟨hempty, hhere, hslash⟩ := Path.of_mem_parts hseg
  refine ⟨hempty, hhere, ?_, hslash⟩
  rintro rfl
  refine hup ?_
  rcases hcov with rfl | ⟨hslash, more, hmore⟩
  · rw [restAfter_self] at hpart
    exact absurd hpart.1 (by decide)
  · obtain ⟨front, hfront⟩ := List.getLast?_eq_some_iff.1 (beq_iff_eq.1 hslash)
    have hrest : (restAfter key k).toList = more := by
      rw [toList_restAfter, ← hmore, ← String.length_toList, List.drop_left]
    rw [← hmore, hfront, List.append_assoc, List.singleton_append, segments,
      List.splitOn_append_cons_self]
    rw [hrest] at hpart
    exact List.mem_append_right _ hpart.1

/-- **Entries are judged alike** if the targets of a map are URLs or lead down, no key of a scope
climbs, and no name with a colon leads to the map. -/
theorem judgedAlike_seenFrom (hbase : base.toList.head? ≠ some '/')
    (hvalues : ∀ value ∈ map.values, Target.UrlOrDownward value)
    (hkeys : ∀ entries ∈ map.scopes.values, ∀ k ∈ entries.keys, up ∉ segments k.toList)
    (hcolon : ∀ first ∈ (reduce false (parts base)).head?, ':' ∉ first) :
    map.JudgedAlike (Project.seenFrom base) := by
  rintro q hq k v ⟨key, value⟩ hv - hentry
  obtain ⟨hvalue, hcov⟩ := mem_values_of_deciding? hentry
  have hup := hkeys _ (scope_mem_values hq) k (Dict.mem_keys_of_get? hv)
  have hrest := isName_of_mem_parts_restAfter hcov hup
  have hslash := Project.endsInSlash_seenFrom_of_urlOrDownward hbase (hvalues value hvalue)
  simp only [Repeats, Imports.targetBy?, hslash]
  split
  · simp
  · rename_i hfile
    have hfolder : restAfter key k = "" ∨ Target.endsInSlash value = true := by
      simpa [String.isEmpty_iff, or_iff_not_imp_left] using hfile
    simp only [Option.some.injEq, exists_eq_left']
    exact Project.normalize_seenFrom_iff hbase hcolon (hvalues value hvalue)
      (hvalues v (mem_values_of_get?_scope hv)) hfolder hrest

end ImportMap

end ImportAtlas
