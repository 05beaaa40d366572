import ImportAtlas.Proofs.Resolve
import ImportAtlas.Proofs.Rewriting

/-!
# Maps that move

A map that moves to another directory keeps its keys and its order; its targets and the prefixes of
its scopes are moved, one by one. If each of them denotes the same place as before, and no two
prefixes become one, a resolver in the new directory finds the same URLs as one in the old
directory.

## Summary

* `ImportMap.KeepsApart`: no two prefixes denote one directory.

## Main results

* `ImportMap.exists_rebase`: what moving a map gives.
* `ImportMap.rebase_preserves_resolution`: a map that has moved resolves all specifiers as before.
-/

namespace ImportAtlas

/-! ### Moving a map -/

namespace ImportMap

/-- The targets of a map and the prefixes of its scopes. -/
def values (map : ImportMap) : List String :=
  map.imports.values ++ map.scopes.entries.flatMap fun e => e.1 :: e.2.values

theorem mem_values {map : ImportMap} {value : String} : value ∈ map.values ↔
    value ∈ map.imports.values ∨
      ∃ e ∈ map.scopes.entries, value = e.1 ∨ value ∈ e.2.values := by
  rw [values, List.mem_append, List.mem_flatMap]
  simp only [List.mem_cons]

theorem mem_values_iff {map : ImportMap} {value : String} :
    value ∈ map.values ↔ ∃ e ∈ map.namedValues, e.2 = value := by
  rw [← List.mem_map, namedValues, List.map_append, List.map_flatMap]
  rfl

theorem mem_values_of_get?_imports {map : ImportMap} {k v : String}
    (h : map.imports.get? k = some v) : v ∈ map.values :=
  mem_values.2 (Or.inl (List.mem_map.2 ⟨(k, v), Dict.get?_eq_some_iff.1 h, rfl⟩))

theorem mem_values_of_get?_scope {map : ImportMap} {q k v : String}
    (h : (map.scope q).get? k = some v) : v ∈ map.values := by
  rw [scope, Dict.getD_eq] at h
  cases hq : map.scopes.get? q with
  | none =>
      rw [hq] at h
      exact absurd h (by simp)
  | some entries =>
      rw [hq, Option.getD_some] at h
      exact mem_values.2 (Or.inr ⟨(q, entries), Dict.get?_eq_some_iff.1 hq,
        Or.inr (List.mem_map.2 ⟨(k, v), Dict.get?_eq_some_iff.1 h, rfl⟩)⟩)

theorem mem_values_of_mem_keys {map : ImportMap} {q : String} (hq : q ∈ map.scopes.keys) :
    q ∈ map.values := by
  obtain ⟨e, he, rfl⟩ := List.mem_map.1 hq
  exact mem_values.2 (Or.inr ⟨e, he, Or.inl rfl⟩)

/-- Whether no two relative prefixes of a map in `source` denote one directory. -/
def KeepsApart (map : ImportMap) (source : String) : Prop :=
  ∀ q ∈ map.scopes.keys, ∀ q' ∈ map.scopes.keys, Target.isUrlOrRooted q = false →
    Target.isUrlOrRooted q' = false →
      Path.absolute (Path.join source q) = Path.absolute (Path.join source q') → q = q'

instance (map : ImportMap) (source : String) : Decidable (map.KeepsApart source) :=
  inferInstanceAs (Decidable (∀ q ∈ map.scopes.keys, ∀ q' ∈ map.scopes.keys, _ → _ → _ → q = q'))

variable {map moved : ImportMap} {source target : String}

theorem forwardSlashes_eq {path : String} (h : ∀ c ∈ path.toList, Url.isUnreserved c = true) :
    forwardSlashes path = path := by
  have hself : (path.toList.map fun c => if c = '\\' then '/' else c) = path.toList := by
    conv_rhs => rw [← List.map_id path.toList]
    refine List.map_congr_left fun c hc => if_neg ?_
    rintro rfl
    exact absurd (h _ hc) (by decide)
  rw [forwardSlashes, hself, String.ofList_toList]

/-- Prefixes that stay apart are moved one by one. -/
theorem exists_rebase_of_nodup {map : ImportMap} {source target : String}
    (h : (map.scopes.keys.map
      (movedValue (forwardSlashes source) (forwardSlashes target))).Nodup) :
    ∃ moved, map.rebase .relative source target = .ok moved ∧
      Respelled (movedValue (forwardSlashes source) (forwardSlashes target)) map moved :=
  ⟨_, rebase_relative_eq map source target, respelled_rewrite_self h⟩

/-- **What moving a map gives.** -/
theorem exists_rebase (hsource : source.toList.head? = some '/')
    (hsourceChars : ∀ c ∈ source.toList, Url.isUnreserved c = true)
    (htargetChars : ∀ c ∈ target.toList, Url.isUnreserved c = true)
    (hvalues : ∀ value ∈ map.values, Movable source target value)
    (hapart : map.KeepsApart source) :
    ∃ moved, map.rebase .relative source target = .ok moved ∧
      Respelled (movedValue source target) map moved := by
  have hkeys : (map.scopes.keys.map (movedValue source target)).Nodup := by
    refine List.Nodup.map_on (fun q hq q' hq' heq => ?_) map.scopes.nodup_keys
    exact (hvalues q (mem_values_of_mem_keys hq)).eq_of_movedValue_eq hsource
      (hvalues q' (mem_values_of_mem_keys hq')) (hapart q hq q' hq') heq
  have hmoved := @exists_rebase_of_nodup map source target
  rw [forwardSlashes_eq hsourceChars, forwardSlashes_eq htargetChars] at hmoved
  exact hmoved hkeys

end ImportMap

/-! ### Resolving through a map that has moved -/

namespace ImportMap

variable {map moved : ImportMap} {source target : String} {relativeFallback : Bool} {r : Resolver}

section Places

variable (hmoved : Respelled (movedValue source target) map moved)
  (hplaces : ∀ value ∈ map.values,
    mapUrl (directoryUrl (Path.absolute target)) (movedValue source target value) =
      mapUrl (directoryUrl (Path.absolute source)) value)
include hmoved hplaces

omit hmoved in
/-- The prefix of a scope is noted at the same URL when it has been moved. -/
theorem noteScope_movedValue {q : String} (hq : q ∈ map.scopes.keys) :
    Resolver.noteScope (directoryUrl (Path.absolute target)) (movedValue source target q) =
      (Resolver.noteScope (directoryUrl (Path.absolute source)) q).map fun note =>
        (note.1, movedValue source target note.2) := by
  rw [Resolver.noteScope, Resolver.noteScope, hplaces q (mem_values_of_mem_keys hq)]
  cases mapUrl (directoryUrl (Path.absolute source)) q <;> rfl

omit hmoved in
theorem mapM_noteScope_movedValue {keys : List String} (hsub : ∀ q ∈ keys, q ∈ map.scopes.keys) :
    (keys.map (movedValue source target)).mapM
        (Resolver.noteScope (directoryUrl (Path.absolute target))) =
      (keys.mapM (Resolver.noteScope (directoryUrl (Path.absolute source)))).map
        (List.map fun note => (note.1, movedValue source target note.2)) := by
  induction keys with
  | nil => rfl
  | cons q keys ih =>
      obtain ⟨hq, hrest⟩ := List.forall_mem_cons.1 hsub
      rw [List.map_cons, List.mapM_cons, List.mapM_cons, noteScope_movedValue hplaces hq, ih hrest]
      cases Resolver.noteScope (directoryUrl (Path.absolute source)) q with
      | error error => rfl
      | ok note =>
          cases keys.mapM (Resolver.noteScope (directoryUrl (Path.absolute source))) <;> rfl

/-- A resolver of the map that has moved knows the same scopes at the same URLs. -/
theorem make_moved :
    Resolver.make moved (directoryUrl (Path.absolute target)) relativeFallback =
      (Resolver.make map (directoryUrl (Path.absolute source)) relativeFallback).map fun r =>
        ⟨moved, directoryUrl (Path.absolute target), relativeFallback,
          r.scopes.map fun _ => movedValue source target⟩ := by
  rw [Resolver.make, Resolver.make, Resolver.scopeUrls_eq, Resolver.scopeUrls_eq,
    hmoved.keys_scopes, mapM_noteScope_movedValue hplaces fun _ => id]
  cases map.scopes.keys.mapM (Resolver.noteScope (directoryUrl (Path.absolute source))) with
  | error error => rfl
  | ok notes =>
      simp only [Except.map, bind, Except.bind, pure, Except.pure, Dict.map_ofList]

omit hmoved hplaces in
/-- The targets of the tables that apply in a module are targets of the map. -/
theorem mem_values_of_mem_chain
    (hr : Resolver.make map (directoryUrl (Path.absolute source)) relativeFallback = .ok r)
    {parent key value : String} {imports : Imports} (himports : imports ∈ r.chain parent)
    (hget : imports.get? key = some value) : value ∈ map.values := by
  rcases List.mem_append.1 himports with hscope | htop
  · obtain ⟨url, -, rfl⟩ := List.mem_map.1 hscope
    rw [Resolver.scopeAt, Resolver.map_of_make hr] at hget
    cases hq : r.scopes.get? url with
    | none =>
        rw [hq] at hget
        exact absurd hget (by simp)
    | some q =>
        rw [hq] at hget
        exact mem_values_of_get?_scope hget
  · rw [List.mem_singleton.1 htop, Resolver.map_of_make hr] at hget
    exact mem_values_of_get?_imports hget

omit hplaces in
/-- The tables that apply in a module are moved, too. -/
theorem chain_moved
    (hr : Resolver.make map (directoryUrl (Path.absolute source)) relativeFallback = .ok r)
    (parent : String) :
    Resolver.chain ⟨moved, directoryUrl (Path.absolute target), relativeFallback,
        r.scopes.map fun _ => movedValue source target⟩ parent =
      (r.chain parent).map (Imports.respell (movedValue source target)) := by
  rw [Resolver.chain, Resolver.chain, List.map_append, List.map_map, Dict.keys_map,
    Resolver.map_of_make hr, hmoved.imports_eq]
  refine congrArg (· ++ _) (List.map_congr_left fun url _ => ?_)
  rw [Function.comp_apply, Resolver.scopeAt, Resolver.scopeAt, Dict.get?_map,
    Resolver.map_of_make hr]
  cases hq : r.scopes.get? url with
  | none => rfl
  | some q => exact hmoved.scope_eq (Resolver.of_get?_scopes hr hq).1

/-- **Through the map that has moved every specifier leads to the same URL.** -/
theorem url?_moved
    (hslash : ∀ value ∈ map.values,
      Target.endsInSlash (movedValue source target value) = Target.endsInSlash value)
    (hr : Resolver.make map (directoryUrl (Path.absolute source)) relativeFallback = .ok r)
    (specifier parent : String) (isEntry : Bool) :
    Resolver.url? ⟨moved, directoryUrl (Path.absolute target), relativeFallback,
        r.scopes.map fun _ => movedValue source target⟩ specifier parent isEntry =
      r.url? specifier parent isEntry := by
  cases hbare : isBareSpecifier specifier with
  | false => exact Resolver.url?_of_not_bare hbare _ _ parent isEntry
  | true =>
      have hlanding : Imports.landing (directoryUrl (Path.absolute target)) specifier
          ((Imports.choice? specifier (r.chain parent)).map fun entry =>
            (entry.1, movedValue source target entry.2)) =
          Imports.landing r.base specifier (Imports.choice? specifier (r.chain parent)) := by
        cases hchoice : Imports.choice? specifier (r.chain parent) with
        | none => rfl
        | some entry =>
            obtain ⟨key, value⟩ := entry
            obtain ⟨imports, himports, hget, -⟩ := Imports.exists_of_choice? hchoice
            have hvalue := mem_values_of_mem_chain hr himports hget
            rw [Option.map_some, Imports.landing, Imports.landing, hslash value hvalue,
              hplaces value hvalue, Resolver.base_of_make hr]
      have hchain := chain_moved hmoved hr parent
      rw [Resolver.url?_of_bare hbare, Resolver.url?_of_bare hbare, hchain]
      have hchoice := Imports.choice?_respell (movedValue source target) (r.chain parent) specifier
      rw [hchoice, hlanding, Option.isNone_map,
        Resolver.relativeFallback_of_make hr]

end Places

/-- **A map that has moved resolves all specifiers as before.** Let `source` and `target` be rooted
paths of plain characters, let every target and every prefix of a scope be movable, and let no two
relative prefixes denote one directory. Then the map can be moved, and every specifier leads to the
same URL, or to none, through the two maps. -/
theorem rebase_preserves_resolution (hsource : source.toList.head? = some '/')
    (hsourceChars : ∀ c ∈ source.toList, Url.isUnreserved c = true)
    (htargetChars : ∀ c ∈ target.toList, Url.isUnreserved c = true)
    (hvalues : ∀ value ∈ map.values, Movable source target value)
    (hapart : map.KeepsApart source) :
    ∃ moved sourceUrl targetUrl, map.rebase .relative source target = .ok moved ∧
      folderUrl source = .ok sourceUrl ∧ folderUrl target = .ok targetUrl ∧
        ∀ relativeFallback specifier parent isEntry,
          ((Resolver.make moved targetUrl relativeFallback).bind fun r =>
              r.url? specifier parent isEntry) =
            (Resolver.make map sourceUrl relativeFallback).bind fun r =>
              r.url? specifier parent isEntry := by
  obtain ⟨moved, hrebase, hmoved⟩ :=
    exists_rebase hsource hsourceChars htargetChars hvalues hapart
  have hplaces := fun value hvalue =>
    (hvalues value hvalue).mapUrl_movedValue hsource hsourceChars htargetChars
  refine ⟨moved, _, _, hrebase, folderUrl_eq hsourceChars, folderUrl_eq htargetChars,
    fun relativeFallback specifier parent isEntry => ?_⟩
  rw [make_moved hmoved hplaces]
  cases hr : Resolver.make map (directoryUrl (Path.absolute source)) relativeFallback with
  | error error => rfl
  | ok r =>
      exact url?_moved hmoved hplaces
        (fun value hvalue => (hvalues value hvalue).endsInSlash_movedValue hsource) hr
          specifier parent isEntry

/-- A map with targets inside, beside and around its directory, a rooted one and a URL; the prefix
of its scope takes a detour. -/
def scatteredMap : ImportMap :=
  ⟨Dict.ofList [("a", "x.js"), ("b/", "../t/"), ("c", "//h/y"), ("d", "npm:z")],
    Dict.ofList [("r/../s/", Dict.ofList [("a", "./s/../../../p/")])]⟩

theorem rebase_preserves_resolution_scatteredMap :
    ("/p/q".toList.head? = some '/' ∧ (∀ c ∈ "/p/q".toList, Url.isUnreserved c = true) ∧
      (∀ c ∈ "/p/r/s".toList, Url.isUnreserved c = true) ∧
      (∀ value ∈ scatteredMap.values, Movable "/p/q" "/p/r/s" value) ∧
      scatteredMap.KeepsApart "/p/q") ∧
    ∃ moved sourceUrl targetUrl, scatteredMap.rebase .relative "/p/q" "/p/r/s" = .ok moved ∧
      folderUrl "/p/q" = .ok sourceUrl ∧ folderUrl "/p/r/s" = .ok targetUrl ∧
        ∀ relativeFallback specifier parent isEntry,
          ((Resolver.make moved targetUrl relativeFallback).bind fun r =>
              r.url? specifier parent isEntry) =
            (Resolver.make scatteredMap sourceUrl relativeFallback).bind fun r =>
              r.url? specifier parent isEntry := by
  have hvalues : ∀ value ∈ scatteredMap.values, Movable "/p/q" "/p/r/s" value := by decide
  have hapart : scatteredMap.KeepsApart "/p/q" := by decide
  have hsource : ∀ c ∈ "/p/q".toList, Url.isUnreserved c = true := List.all_eq_true.1 (by decide)
  have htarget : ∀ c ∈ "/p/r/s".toList, Url.isUnreserved c = true :=
    List.all_eq_true.1 (by decide)
  exact ⟨⟨by decide, hsource, htarget, hvalues, hapart⟩,
    rebase_preserves_resolution (by decide) hsource htarget hvalues hapart⟩

/-- A map that gives `a` a target. -/
def singleMap (value : String) : ImportMap := ⟨Dict.ofList [("a", value)], ∅⟩

/-- The URL of `a` through a map in the directory with a URL. -/
def singleUrl? (map : ImportMap) (base : String) : Option String :=
  ((Resolver.make map base false).bind fun r => r.url? "a" "file:///p/m.js" false).toOption.join

/-- **A file may become a directory when its map moves below it**, though it is neither the new
directory nor the one above; and the rooted value `//` denotes the directory of its map, wherever
that is. -/
theorem rebase_changes_resolution :
    (folderUrl "/p").toOption = some "file:///p/" ∧
    ((∀ c ∈ "x".toList, isPathChar c = true) ∧
      Path.absolute (Path.join "/p" "x") ≠ Path.absolute "/p/x/y/z" ∧
      Path.absolute (Path.join "/p" "x") ≠ (Path.absolute "/p/x/y/z").dropLast ∧
      (folderUrl "/p/x/y/z").toOption = some "file:///p/x/y/z/" ∧
      (singleMap "x").rebase .relative "/p" "/p/x/y/z" = .ok (singleMap "../..") ∧
      singleUrl? (singleMap "x") "file:///p/" = some "file:///p/x" ∧
      singleUrl? (singleMap "../..") "file:///p/x/y/z/" = some "file:///p/x/") ∧
    (Target.isRooted "//" = true ∧
      (folderUrl "/q").toOption = some "file:///q/" ∧
      (singleMap "//").rebase .relative "/p" "/q" = .ok (singleMap "//") ∧
      singleUrl? (singleMap "//") "file:///p/" = some "file:///p/" ∧
      singleUrl? (singleMap "//") "file:///q/" = some "file:///q/") :=
  ⟨by decide, ⟨List.all_eq_true.1 (by decide), by decide, by decide, by decide, by rfl,
      by decide +kernel, by decide +kernel⟩,
    by decide, by decide, by rfl, by decide +kernel, by decide +kernel⟩

end ImportMap

end ImportAtlas
