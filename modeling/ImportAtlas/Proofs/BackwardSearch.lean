import ImportAtlas.Proofs.Rearranging

/-!
# Searching for keys backwards

The keys around a text can be found without listing its prefixes: a search goes back from the end
of the text, from one slash to the slash before it, and looks up the text as far as each. To find
all scopes around a place, it starts again at each scope that it has found, without the slash at
the end of that scope.

## Summary

* `lastSlash?` is the last slash in front of an index, and `through` the text as far as an index.
* `folderBefore?` searches for a known folder of a text, and `Imports.searchKey?` for the key of a
  specifier.
* `searchScope?` searches for the innermost scope around a place, and `searchScopes` for all.

## Main results

* `folderBefore?_eq_some_iff`: a search finds the longest known folder in front of an index.
* `Imports.searchKey?_eq`, `searchScope?_eq`, `searchScopes_eq`: the searches find the keys that
  apply and the scopes around a place.
* `searches_find_longest`: which keys the searches find, said without them.
-/

namespace ImportAtlas

open ImportMap (dropLastChar mem_scopeMatches_dropLastChar)

/-! ### Folders of a text -/

/-- A folder that a text lies in: a prefix that ends in a slash. -/
def IsFolder (key text : String) : Prop :=
  Target.endsInSlash key = true ∧ key.toList <+: text.toList

/-- The text as far as an index, the character there included. -/
def through (text : String) (i : Nat) : String := String.ofList (text.toList.take (i + 1))

variable {text key : String} {i j : Nat}

namespace IsFolder

theorem length_le (h : IsFolder key text) : key.length ≤ text.length := by
  rw [← String.length_toList, ← String.length_toList]
  exact h.2.length_le

/-- Folders of one text that are equally long are the same. -/
theorem eq_of_length_eq {key' : String} (h : IsFolder key text) (h' : IsFolder key' text)
    (hlen : key.length = key'.length) : key = key' :=
  Covers.eq_of_length_eq (Or.inr h) (Or.inr h') hlen

/-- A folder of a text ends at a slash of the text. -/
theorem exists_slash (h : IsFolder key text) :
    ∃ i, key.length = i + 1 ∧ text.toList[i]? = some '/' := by
  obtain ⟨hslash, rest, hrest⟩ := h
  rw [Target.endsInSlash, beq_iff_eq, List.getLast?_eq_some_iff] at hslash
  obtain ⟨init, hinit⟩ := hslash
  refine ⟨init.length, ?_, ?_⟩
  · rw [← String.length_toList, hinit, List.length_append, List.length_singleton]
  · rw [← hrest, hinit, List.append_assoc, List.getElem?_append_right le_rfl, Nat.sub_self]
    rfl

end IsFolder

/-- The text as far as a slash is a folder. -/
theorem isFolder_through (h : text.toList[i]? = some '/') :
    IsFolder (through text i) text ∧ (through text i).length = i + 1 := by
  obtain ⟨hi, -⟩ := List.getElem?_eq_some_iff.1 h
  refine ⟨⟨?_, ?_⟩, ?_⟩
  · rw [Target.endsInSlash, through, String.toList_ofList, List.take_add_one, h]
    simp
  · rw [through, String.toList_ofList]
    exact List.take_prefix _ _
  · rw [through, ← String.length_toList, String.toList_ofList, List.length_take]
    omega

theorem through_length (text : String) : through text text.length = text := by
  rw [through, ← String.length_toList, List.take_of_length_le (by omega), String.ofList_toList]

/-! ### The last slash in front of an index -/

/-- The last slash in front of an index. -/
def lastSlash? (text : String) : Nat → Option Nat
  | 0 => none
  | i + 1 => if text.toList[i]? = some '/' then some i else lastSlash? text i

theorem lastSlash?_eq_some (h : lastSlash? text i = some j) :
    j < i ∧ text.toList[j]? = some '/' ∧ ∀ n, text.toList[n]? = some '/' → n < i → n ≤ j := by
  induction i with
  | zero => exact absurd h (by simp [lastSlash?])
  | succ i ih =>
      rw [lastSlash?] at h
      split at h
      · next hslash =>
          obtain rfl := Option.some.inj h
          exact ⟨by omega, hslash, fun n _ hn => by omega⟩
      · next hother =>
          obtain ⟨hlt, hslash, hlast⟩ := ih h
          refine ⟨by omega, hslash, fun n hn hni => hlast n hn ?_⟩
          have hne : n ≠ i := by
            rintro rfl
            exact hother hn
          omega

theorem lastSlash?_eq_none (h : lastSlash? text i = none) :
    ∀ n, text.toList[n]? = some '/' → i ≤ n := by
  induction i with
  | zero => exact fun n _ => Nat.zero_le n
  | succ i ih =>
      rw [lastSlash?] at h
      split at h
      · exact absurd h (by simp)
      · next hother =>
          intro n hn
          have hle := ih h n hn
          have hne : n ≠ i := by
            rintro rfl
            exact hother hn
          omega

/-- One step back misses no folder: one that ends in front of the index ends at the last slash
there, or in front of that. -/
theorem IsFolder.length_le_of_lastSlash? (h : IsFolder key text) (hle : key.length ≤ i)
    (hj : lastSlash? text i = some j) : key = through text j ∨ key.length ≤ j := by
  obtain ⟨n, hlen, hn⟩ := h.exists_slash
  obtain ⟨-, hslash, hlast⟩ := lastSlash?_eq_some hj
  have hnj := hlast n hn (by omega)
  rcases hnj.lt_or_eq with hlt | rfl
  · exact Or.inr (by omega)
  · obtain ⟨hfolder, hthrough⟩ := isFolder_through hslash
    exact Or.inl (h.eq_of_length_eq hfolder (by omega))

/-! ### A known folder -/

/-- The known folder that ends at the last slash in front of an index at which one ends. -/
def folderBefore? (text : String) (known : String → Bool) (i : Nat) : Option String :=
  match _hj : lastSlash? text i with
  | none => none
  | some j => if known (through text j) then some (through text j) else folderBefore? text known j
termination_by i
decreasing_by exact (lastSlash?_eq_some _hj).1

theorem folderBefore?_of_lastSlash? {known : String → Bool} (hj : lastSlash? text i = some j) :
    folderBefore? text known i =
      if known (through text j) then some (through text j) else folderBefore? text known j := by
  rw [folderBefore?]
  split
  · next hnone => exact absurd (hj.symm.trans hnone) (by simp)
  · next j' hj' =>
      obtain rfl := Option.some.inj (hj.symm.trans hj')
      rfl

/-- **A search finds the longest known folder** that ends in front of its index. -/
theorem folderBefore?_eq_some_iff {known : String → Bool} :
    folderBefore? text known i = some key ↔
      IsFolder key text ∧ known key = true ∧ key.length ≤ i ∧
        ∀ k, IsFolder k text → known k = true → k.length ≤ i → k.length ≤ key.length := by
  fun_induction folderBefore? text known i with
  | case1 i hnone =>
      refine iff_of_false (by simp) fun h => ?_
      obtain ⟨n, hlen, hn⟩ := h.1.exists_slash
      have hle := lastSlash?_eq_none hnone n hn
      omega
  | case2 i j hj hknown =>
      obtain ⟨hlt, hslash, -⟩ := lastSlash?_eq_some hj
      obtain ⟨hfolder, hlen⟩ := isFolder_through hslash
      rw [Option.some.injEq]
      constructor
      · rintro rfl
        refine ⟨hfolder, hknown, by omega, fun k hk _ hle => ?_⟩
        rcases hk.length_le_of_lastSlash? hle hj with rfl | hkj <;> omega
      · rintro ⟨hkey, -, hle, hmax⟩
        have hlonger := hmax _ hfolder hknown (by omega)
        rcases hkey.length_le_of_lastSlash? hle hj with rfl | hkj
        · rfl
        · omega
  | case3 i j hj hunknown ih =>
      have hlt := (lastSlash?_eq_some hj).1
      -- the bound falls from `i` to `j`, and no known folder ends between the two
      have hbound : ∀ k, IsFolder k text → known k = true → (k.length ≤ j ↔ k.length ≤ i) := by
        intro k hk hknown
        refine ⟨fun hle => by omega, fun hle => ?_⟩
        rcases hk.length_le_of_lastSlash? hle hj with rfl | hkj
        · exact absurd hknown hunknown
        · exact hkj
      rw [ih]
      constructor
      · rintro ⟨hkey, hknown, hle, hmax⟩
        exact ⟨hkey, hknown, (hbound key hkey hknown).1 hle, fun k hk hkk hki =>
          hmax k hk hkk ((hbound k hk hkk).2 hki)⟩
      · rintro ⟨hkey, hknown, hle, hmax⟩
        exact ⟨hkey, hknown, (hbound key hkey hknown).2 hle, fun k hk hkk hkj =>
          hmax k hk hkk ((hbound k hk hkk).1 hkj)⟩

/-- A search from the end of a text looks up its folders, the longest first. -/
theorem folderBefore?_length (text : String) (known : String → Bool) :
    folderBefore? text known text.length =
      ((slashPrefixes text.toList).map String.ofList).find? known := by
  ext key
  rw [folderBefore?_eq_some_iff, find?_eq_some_iff_of_pairwise (pairwise_map_slashPrefixes text),
    mem_map_slashPrefixes]
  constructor
  · rintro ⟨hkey, hknown, -, hmax⟩
    refine ⟨hkey, hknown, fun k hk hkk => ?_⟩
    have hfolder : IsFolder k text := mem_map_slashPrefixes.1 hk
    exact hmax k hfolder hkk hfolder.length_le
  · rintro ⟨hkey, hknown, hmax⟩
    exact ⟨hkey, hknown, IsFolder.length_le hkey, fun k hk hkk _ =>
      hmax k (mem_map_slashPrefixes.2 hk) hkk⟩

/-! ### The key for a specifier -/

namespace Imports

/-- The key for a specifier, searched backwards. -/
def searchKey? (imports : Imports) (specifier : String) : Option String :=
  if imports.contains specifier then some specifier
  else folderBefore? specifier imports.contains specifier.length

/-- The search for a key finds the one that applies. -/
theorem searchKey?_eq (imports : Imports) (specifier : String) :
    imports.searchKey? specifier = imports.match? specifier := by
  rw [searchKey?, match?, folderBefore?_length]

end Imports

/-! ### The scopes around a place -/

/-- The scope that ends at an index, or else at a slash in front of it. -/
def scopeEndingBy? (path : String) (scopes : List String) (i : Nat) : Option String :=
  if Target.endsInSlash (through path i) && scopes.contains (through path i) then
    some (through path i)
  else
    match _hj : lastSlash? path i with
    | none => none
    | some j => scopeEndingBy? path scopes j
termination_by i
decreasing_by exact (lastSlash?_eq_some _hj).1

/-- The innermost scope around a place, searched backwards. -/
def searchScope? (path : String) (scopes : List String) : Option String :=
  scopeEndingBy? path scopes path.length

section Scopes

variable {path scope : String} {scopes : List String}

/-- The search for a scope looks at the place itself first, and then at the folders before it. -/
theorem scopeEndingBy?_eq (path : String) (scopes : List String) (i : Nat) :
    scopeEndingBy? path scopes i =
      if Target.endsInSlash (through path i) && scopes.contains (through path i) then
        some (through path i)
      else folderBefore? path scopes.contains i := by
  fun_induction scopeEndingBy? path scopes i with
  | case1 i hfound => rw [if_pos hfound]
  | case2 i hother hnone =>
      rw [if_neg hother, folderBefore?]
      split
      · rfl
      · next j hj => exact absurd (hnone.symm.trans hj) (by simp)
  | case3 i hother j hj ih =>
      have hslash := (lastSlash?_eq_some hj).2.1
      -- from here on the text ends at a slash, and only its being a scope is in question
      rw [if_neg hother, ih, folderBefore?_of_lastSlash? hj, (isFolder_through hslash).1.1,
        Bool.true_and]

/-- The search for a scope finds the innermost one. -/
theorem searchScope?_eq (path : String) (scopes : List String) :
    searchScope? path scopes = scopeMatch? path scopes := by
  rw [scopeMatch?, scopeMatches, List.head?_filter, ← folderBefore?_length, searchScope?,
    scopeEndingBy?_eq, through_length]
  split
  · next hfound =>
      obtain ⟨hslash, hmem⟩ := Bool.and_eq_true_iff.1 hfound
      refine (folderBefore?_eq_some_iff.2 ⟨⟨hslash, List.prefix_rfl⟩, hmem, le_rfl, ?_⟩).symm
      exact fun k hk _ _ => hk.length_le
  · rfl

theorem mem_scopeMatches_of_searchScope? (h : searchScope? path scopes = some scope) :
    scope ∈ scopeMatches path scopes := by
  rw [searchScope?_eq] at h
  exact List.mem_of_mem_head? h

/-- After a scope has been found, a shorter text is searched. -/
theorem length_dropLastChar_lt (h : searchScope? path scopes = some scope) :
    (dropLastChar scope).length < path.length := by
  have hfolder : IsFolder scope path := (mem_scopeMatches.1 (mem_scopeMatches_of_searchScope? h)).1
  obtain ⟨i, hi, -⟩ := hfolder.exists_slash
  have hle := hfolder.length_le
  rw [dropLastChar, ← String.length_toList, String.toList_ofList, List.length_dropLast,
    String.length_toList]
  omega

/-- The scopes around a place, innermost first, each searched backwards from the one before. -/
def searchScopes (path : String) (scopes : List String) : List String :=
  match _h : searchScope? path scopes with
  | none => []
  | some scope => scope :: searchScopes (dropLastChar scope) scopes
termination_by path.length
decreasing_by exact length_dropLastChar_lt _h

/-- The scopes around a place are the innermost one and those around that. -/
theorem scopeMatches_eq_cons (h : searchScope? path scopes = some scope) :
    scopeMatches path scopes = scope :: scopeMatches (dropLastChar scope) scopes := by
  rw [searchScope?_eq, scopeMatch?, List.head?_eq_some_iff] at h
  obtain ⟨outer, houter⟩ := h
  have hscope : scopeMatches scope scopes = scope :: outer :=
    scopeMatches_eq_cons_of_append (show _ = [] ++ scope :: outer from houter)
  have hfalling := pairwise_scopeMatches scope scopes
  rw [hscope, List.pairwise_cons] at hfalling
  rw [houter, List.cons.injEq]
  refine ⟨rfl, eq_of_pairwise_length hfalling.2 (pairwise_scopeMatches _ _) fun url => ?_⟩
  rw [mem_scopeMatches_dropLastChar, hscope, List.mem_cons]
  constructor
  · intro hurl
    refine ⟨Or.inr hurl, ?_⟩
    rintro rfl
    exact absurd (hfalling.1 url hurl) (lt_irrefl _)
  · rintro ⟨hurl, hne⟩
    exact hurl.resolve_left hne

/-- The repeated search finds the scopes around a place. -/
theorem searchScopes_eq (path : String) (scopes : List String) :
    searchScopes path scopes = scopeMatches path scopes := by
  fun_induction searchScopes path scopes with
  | case1 path hnone =>
      rw [searchScope?_eq, scopeMatch?, List.head?_eq_none_iff] at hnone
      exact hnone.symm
  | case2 path scope h ih => rw [ih, scopeMatches_eq_cons h]

end Scopes

/-! ### What the searches find -/

/-- What is found in a table for a specifier. -/
inductive Imports.Finds (imports : Imports) (specifier : String) : Option String → Prop
  /-- The specifier, which is a key. -/
  | itself (hkey : specifier ∈ imports.keys) : Finds imports specifier (some specifier)
  /-- The longest key that is a folder of the specifier and not the specifier, which is no key. -/
  | folder {key : String} (hno : specifier ∉ imports.keys) (hkey : key ∈ imports.keys)
      (hne : key ≠ specifier) (hfolder : IsFolder key specifier)
      (hmax : ∀ k ∈ imports.keys, k ≠ specifier → IsFolder k specifier → k.length ≤ key.length) :
      Finds imports specifier (some key)
  /-- Nothing, because there is no such key. -/
  | nothing (hno : specifier ∉ imports.keys)
      (hnone : ∀ k ∈ imports.keys, k ≠ specifier → ¬ IsFolder k specifier) :
      Finds imports specifier none

/-- What is found is one thing at most. -/
theorem Imports.Finds.unique {imports : Imports} {specifier : String} {found found' : Option String}
    (h : imports.Finds specifier found) (h' : imports.Finds specifier found') : found = found' := by
  cases h with
  | itself hkey =>
      cases h' with
      | itself => rfl
      | folder hno | nothing hno => exact absurd hkey hno
  | folder hno hkey hne hfolder hmax =>
      cases h' with
      | itself hkey => exact absurd hkey hno
      | folder _ hkey' hne' hfolder' hmax' =>
          have hlen := le_antisymm (hmax' _ hkey hne hfolder) (hmax _ hkey' hne' hfolder')
          exact congrArg some (hfolder.eq_of_length_eq hfolder' hlen)
      | nothing _ hnone => exact absurd hfolder (hnone _ hkey hne)
  | nothing hno hnone =>
      cases h' with
      | itself hkey => exact absurd hkey hno
      | folder _ hkey hne hfolder => exact absurd hfolder (hnone _ hkey hne)
      | nothing => rfl

/-- The key that applies is what is found. -/
theorem Imports.finds_match? (imports : Imports) (specifier : String) :
    imports.Finds specifier (imports.match? specifier) := by
  by_cases hkey : specifier ∈ imports.keys
  · rw [match?_self hkey]
    exact .itself hkey
  cases hmatch : imports.match? specifier with
  | none =>
      rw [match?_eq_none_iff] at hmatch
      exact .nothing hkey fun k hk _ hfolder => hmatch k hk (Or.inr hfolder)
  | some key =>
      obtain ⟨hmem, hcovers, hmax⟩ := match?_eq_some_iff.1 hmatch
      have hne : key ≠ specifier := by
        rintro rfl
        exact hkey hmem
      exact .folder hkey hmem hne (hcovers.resolve_left hne) fun k hk _ hfolder =>
        hmax k hk (Or.inr hfolder)

/-- **The searches find the longest keys.** Those for scopes find exactly the scopes that are
folders of the place, each once, the longer ones first. The one for a specifier finds the specifier
itself if it is a key, else the longest key that is another folder of it, and nothing only if there
is none. -/
theorem searches_find_longest (path specifier : String) (scopes : List String)
    (imports : Imports) :
    ((∀ scope, scope ∈ searchScopes path scopes ↔ scope ∈ scopes ∧ IsFolder scope path) ∧
      (searchScopes path scopes).Nodup ∧
      ((searchScopes path scopes).Pairwise fun inner outer => outer.length < inner.length) ∧
      searchScope? path scopes = (searchScopes path scopes).head?) ∧
    (∀ found, imports.searchKey? specifier = found ↔ imports.Finds specifier found) ∧
    searchScopes path scopes = scopeMatches path scopes ∧
    imports.searchKey? specifier = imports.match? specifier := by
  have hscopes := searchScopes_eq path scopes
  have hkey := imports.searchKey?_eq specifier
  have hfalling := pairwise_scopeMatches path scopes
  rw [hscopes, hkey]
  refine ⟨⟨fun scope => ?_, ?_, hfalling, searchScope?_eq path scopes⟩, fun found => ?_, rfl, rfl⟩
  · rw [mem_scopeMatches, and_comm]
    rfl
  · refine hfalling.imp fun hlt => ?_
    rintro rfl
    exact absurd hlt (lt_irrefl _)
  · constructor
    · rintro rfl
      exact imports.finds_match? specifier
    · exact fun hfound => (imports.finds_match? specifier).unique hfound

/-- Slashes may be repeated, and a scope may be the place itself or a single slash. -/
example : searchScopes "/a//b/" ["/a/", "b/", "/a//b/", "/", "/a//", "/a"] =
    ["/a//b/", "/a//", "/a/", "/"] := by decide +kernel

end ImportAtlas
