import ImportAtlas.ImportMap.Basic
import ImportAtlas.ImportMap.Target

/-!
# Matching keys

A key that ends in a slash stands for everything below it. Of several keys that apply, the longest
wins; a key that is the whole specifier wins over all.

## Summary

* `slashPrefixes` lists the prefixes of a text that end in a slash, longest first.
* `scopeMatches` finds the scopes around a place.
* `Imports.match?` finds the key for a specifier, and `Imports.target?` its target.
-/

namespace ImportAtlas

/-- The prefixes of a text that end in a slash, longest first. -/
def slashPrefixes : List Char → List (List Char)
  | [] => []
  | c :: rest =>
    (slashPrefixes rest).map (c :: ·) ++ if c = '/' then [['/']] else []

theorem mem_slashPrefixes {p cs : List Char} :
    p ∈ slashPrefixes cs ↔ p <+: cs ∧ p.getLast? = some '/' := by
  induction cs generalizing p with
  | nil =>
    simp only [slashPrefixes, List.not_mem_nil, List.prefix_nil, false_iff]
    rintro ⟨rfl, h⟩
    simp at h
  | cons c rest ih =>
    simp only [slashPrefixes, List.mem_append, List.mem_map, ih]
    constructor
    · rintro (⟨q, ⟨hq, hl⟩, rfl⟩ | h)
      · refine ⟨List.cons_prefix_cons.2 ⟨rfl, hq⟩, ?_⟩
        cases q with
        | nil => simp at hl
        | cons d q => simpa using hl
      · split at h
        · rename_i hc
          subst hc
          rw [List.mem_singleton.1 h]
          exact ⟨by simp, rfl⟩
        · simp at h
    · rintro ⟨hp, hl⟩
      cases p with
      | nil => simp at hl
      | cons d q =>
        obtain ⟨rfl, hq⟩ := List.cons_prefix_cons.1 hp
        cases q with
        | nil =>
          have hd : d = '/' := by simpa using hl
          exact Or.inr (by simp [hd])
        | cons e q => exact Or.inl ⟨e :: q, ⟨hq, by simpa using hl⟩, rfl⟩

/-- The scopes among `scopes` that hold a place, innermost first. -/
def scopeMatches (path : String) (scopes : List String) : List String :=
  ((slashPrefixes path.toList).map String.ofList).filter scopes.contains

/-- The innermost scope that holds a place. -/
def scopeMatch? (path : String) (scopes : List String) : Option String :=
  (scopeMatches path scopes).head?

/-- What follows a key in a specifier. -/
def restAfter (key specifier : String) : String :=
  String.ofList (specifier.toList.drop key.length)

namespace Imports

/-- The key that applies to a specifier: itself, or else the longest prefix that ends in a
slash. -/
def match? (imports : Imports) (specifier : String) : Option String :=
  if imports.contains specifier then some specifier
  else ((slashPrefixes specifier.toList).map String.ofList).find? imports.contains

/-- The target of a specifier: that of its key, and what follows the key. A target that is no
directory takes nothing after it. -/
def target? (imports : Imports) (specifier : String) : Option String :=
  match imports.match? specifier with
  | none => none
  | some key =>
    let target := imports.getD key ""
    let rest := restAfter key specifier
    if !rest.isEmpty && !Target.endsInSlash target then none else some (target ++ rest)

/-- The target of a specifier in the first of several tables that has a key for it. -/
def firstTarget? (specifier : String) : List Imports → Option String
  | [] => none
  | imports :: more =>
    if (match? imports specifier).isSome then target? imports specifier
    else firstTarget? specifier more

end Imports

end ImportAtlas
