import ImportAtlas.Proofs.Moving
import ImportAtlas.Proofs.Respelling

/-!
# What moving a map gives

A map moves value by value, in a fixed order, and the first value that must not be moved is
reported. If there is none, all values are rewritten by one function. Prefixes that are rewritten
alike are merged, so that a map that is rewritten twice is the map that is rewritten once by both
functions, unless the second one merges what the first has kept apart.

## Summary

* `RebaseMode.relead` is what distinguishes the two modes.
* `leaves` and `valueIn` say whether a value can be moved, and to what.
* `ImportMap.namedValues` are the values of a map in the order in which they are moved.
* `ImportMap.rewrite` is a map with all its values rewritten.

## Main results

* `ImportMap.rebase_eq`: what moving a map gives, in both modes.
* `ImportMap.respelled_rewrite_self`: prefixes that stay apart are rewritten one by one.
* `ImportMap.rewrite_rewrite`: rewriting twice is rewriting once.
-/

namespace ImportAtlas

variable {mode : RebaseMode} {source target value name : String}

/-! ### One value -/

/-- A value whose leading `./`, if it has one, is `/`. -/
def rootLead (value : String) : String :=
  if "./".toList.isPrefixOf value.toList then String.ofList value.toList.tail else value

/-- What a mode makes of a value that begins with a dot. -/
def RebaseMode.relead : RebaseMode → String → String
  | .relative => id
  | .rooted => rootLead

/-- Whether a value of a map in `source` must not be moved to `target`: it would leave the
directory in which the mode has it stay. -/
def leaves (mode : RebaseMode) (source target value : String) : Bool :=
  mode == .rooted && !Target.isUrlOrRooted value && climbs (pathBetween source target value)

/-- What is reported of a named value that must not be moved. -/
def outside (source target : String) (e : String × String) : Error :=
  .map (.outsideBase e.1 (pathBetween source target e.2))

/-- A value of a map in `source` as a mode writes it in `target`. -/
def valueIn (mode : RebaseMode) (source target value : String) : String :=
  mode.relead (movedValue source target value)

theorem leaves_relative (source target value : String) :
    leaves .relative source target value = false := rfl

theorem rootLead_of_head?_ne (h : value.toList.head? ≠ some '.') : rootLead value = value := by
  rw [rootLead, if_neg]
  rw [List.isPrefixOf_iff_prefix]
  rintro ⟨rest, hrest⟩
  rw [← hrest] at h
  exact h rfl

theorem toList_rootLead_dotSlash (rest : String) :
    (rootLead ("./" ++ rest)).toList = '/' :: rest.toList := by
  have hchars : ("./" ++ rest).toList = '.' :: '/' :: rest.toList := by
    rw [String.toList_append]
    rfl
  have hlead : "./".toList.isPrefixOf ('.' :: '/' :: rest.toList) = true :=
    List.isPrefixOf_iff_prefix.2 ⟨rest.toList, rfl⟩
  rw [rootLead, hchars, if_pos hlead, String.toList_ofList]
  rfl

/-- A value that is a URL or rooted is the same in both modes. -/
theorem relead_of_isUrlOrRooted (mode : RebaseMode) (h : Target.isUrlOrRooted value = true) :
    mode.relead value = value := by
  cases mode with
  | relative => rfl
  | rooted =>
      refine rootLead_of_head?_ne fun hhead => ?_
      rw [Target.isUrlOrRooted_eq_false hhead] at h
      exact absurd h Bool.false_ne_true

/-- A path within the directory, in both modes. -/
theorem relead_leadPath (mode : RebaseMode) (path : String) :
    mode.relead (leadPath .relative path) = leadPath mode path := by
  cases mode with
  | relative => rfl
  | rooted =>
      refine String.toList_injective ?_
      rw [leadPath, leadPath, String.toList_append]
      exact toList_rootLead_dotSlash _

theorem endsInSlash_leadPath (mode : RebaseMode) (path : String) :
    Target.endsInSlash (leadPath mode path) = Target.endsInSlash (leadPath .relative path) := by
  cases mode with
  | relative => rfl
  | rooted =>
      rw [leadPath, leadPath, Target.endsInSlash, Target.endsInSlash, String.toList_append,
        String.toList_append, List.getLast?_append, List.getLast?_append]
      rfl

/-- A slash may be appended before or after. -/
theorem relead_withSlash_leadPath (mode : RebaseMode) (path : String) :
    mode.relead (Target.withSlash (leadPath .relative path)) =
      Target.withSlash (leadPath mode path) := by
  rw [Target.withSlash, Target.withSlash, endsInSlash_leadPath mode]
  split
  · exact relead_leadPath mode path
  · cases mode with
    | relative => rfl
    | rooted =>
        refine String.toList_injective ?_
        rw [leadPath, leadPath, String.append_assoc, String.append_assoc, String.toList_append]
        exact toList_rootLead_dotSlash _

/-- **What moving a value gives, in both modes.** -/
theorem rebasePath_eq (mode : RebaseMode) (source target value name : String) :
    rebasePath mode source target value name =
      if leaves mode source target value then .error (outside source target (name, value))
      else .ok (valueIn mode source target value) := by
  rw [valueIn]
  cases hurl : Target.isUrlOrRooted value with
  | true =>
      have hleaves : leaves mode source target value = false := by
        rw [leaves, hurl, Bool.not_true, Bool.and_false, Bool.false_and]
      rw [rebasePath, if_pos hurl, if_neg (Bool.eq_false_iff.1 hleaves),
        movedValue_of_isUrlOrRooted hurl, relead_of_isUrlOrRooted mode hurl]
  | false =>
      have hleaves : leaves mode source target value =
          (climbs (pathBetween source target value) && mode == .rooted) := by
        rw [leaves, hurl, Bool.not_false, Bool.and_true, Bool.and_comm]
      rw [rebasePath, if_neg (Bool.eq_false_iff.1 hurl), hleaves]
      by_cases hclimbs : climbs (pathBetween source target value) = true
      · cases mode with
        | relative =>
            rw [movedValue_eq hurl, ledPath, if_pos hclimbs]
            simp only [hclimbs]
            rfl
        | rooted =>
            simp only [hclimbs]
            rfl
      · rw [movedValue_eq hurl, ledPath, if_neg hclimbs]
        simp only [Bool.eq_false_iff.2 hclimbs, Bool.false_and, Bool.false_eq_true, if_false]
        split
        · rw [relead_withSlash_leadPath]
        · rw [relead_leadPath]

/-! ### Rewriting a map -/

namespace Imports

theorem respell_respell (f g : String → String) (imports : Imports) :
    respell g (respell f imports) = respell (g ∘ f) imports :=
  Dict.ext (List.map_map ..)

theorem respell_insertAll (f : String → String) (imports more : Imports) :
    respell f (imports.insertAll more) = (respell f imports).insertAll (respell f more) :=
  Dict.map_insertMany f imports more.entries

end Imports

namespace ImportMap

variable {f g : String → String} {map respelled respelled' : ImportMap} {q : String}

/-- The targets of a map and the prefixes of its scopes in the order in which they are moved, each
with the name that stands for it in an error. -/
def namedValues (map : ImportMap) : List (String × String) :=
  map.imports.entries ++ map.scopes.entries.flatMap fun e => (e.1, e.1) :: e.2.entries

/-- A map whose scope at a prefix has more entries, which win. -/
def addScope (map : ImportMap) (q : String) (entries : Imports) : ImportMap :=
  map.setScope q ((map.scope q).insertAll entries)

/-- A map with its targets and the prefixes of its scopes rewritten. Prefixes that become the same
are merged, later entries winning. -/
def rewrite (f : String → String) (map : ImportMap) : ImportMap :=
  map.scopes.entries.foldl (fun result e => result.addScope (f e.1) (e.2.respell f))
    ⟨map.imports.respell f, ∅⟩

theorem mem_keys_addScope {entries : Imports} {q' : String} :
    q' ∈ (map.addScope q entries).scopes.keys ↔ q' = q ∨ q' ∈ map.scopes.keys :=
  Dict.mem_keys_insert

theorem mem_keys_foldl_addScope {scopes : List (String × Imports)} {result : ImportMap}
    (h : q ∈ (scopes.foldl (fun result e =>
      result.addScope (f e.1) (e.2.respell f)) result).scopes.keys) :
    q ∈ result.scopes.keys ∨ ∃ e ∈ scopes, f e.1 = q := by
  induction scopes generalizing result with
  | nil => exact Or.inl h
  | cons e scopes ih =>
      rcases ih h with hmem | ⟨e', he', heq⟩
      · rcases mem_keys_addScope.1 hmem with heq | hmem
        · exact Or.inr ⟨e, List.mem_cons_self, heq.symm⟩
        · exact Or.inl hmem
      · exact Or.inr ⟨e', List.mem_cons_of_mem e he', heq⟩

theorem mem_keys_rewrite (h : q ∈ (map.rewrite f).scopes.keys) :
    ∃ q' ∈ map.scopes.keys, f q' = q := by
  rcases mem_keys_foldl_addScope h with hmem | ⟨e, he, heq⟩
  · exact absurd hmem List.not_mem_nil
  · exact ⟨e.1, List.mem_map_of_mem he, heq⟩

namespace Respelled

/-- There is one way in which a map is written anew. -/
theorem unique (h : Respelled f map respelled) (h' : Respelled f map respelled') :
    respelled = respelled' := by
  have himports := h.imports_eq.trans h'.imports_eq.symm
  have hscopes := Dict.ext (h.entries_scopes.trans h'.entries_scopes.symm)
  cases respelled
  cases respelled'
  exact congrArg₂ ImportMap.mk himports hscopes

/-- Entries may be added to a scope before or after a map is written anew, if no other prefix is
written as its own. -/
theorem addScope (h : Respelled f map respelled)
    (hinj : ∀ q' ∈ map.scopes.keys, f q' = f q → q' = q) (entries : Imports) :
    Respelled f (map.addScope q entries) (respelled.addScope (f q) (entries.respell f)) := by
  have hscope : respelled.scope (f q) = (map.scope q).respell f := by
    by_cases hq : q ∈ map.scopes.keys
    · exact h.scope_eq hq
    · have hq' : f q ∉ respelled.scopes.keys := by
        rw [h.keys_scopes, List.mem_map]
        rintro ⟨q', hmem, heq⟩
        exact hq (hinj q' hmem heq ▸ hmem)
      rw [scope_of_not_mem_keys hq, scope_of_not_mem_keys hq']
      rfl
  rw [ImportMap.addScope, ImportMap.addScope, hscope, ← Imports.respell_insertAll]
  exact h.setScope hinj _

end Respelled

theorem entries_foldl_addScope {scopes : List (String × Imports)} {result : ImportMap}
    (h : (result.scopes.keys ++ scopes.map fun e => f e.1).Nodup) :
    (scopes.foldl (fun result e => result.addScope (f e.1) (e.2.respell f)) result).imports =
        result.imports ∧
      (scopes.foldl (fun result e =>
          result.addScope (f e.1) (e.2.respell f)) result).scopes.entries =
        result.scopes.entries ++ scopes.map fun e => (f e.1, e.2.respell f) := by
  induction scopes generalizing result with
  | nil => exact ⟨rfl, (List.append_nil _).symm⟩
  | cons e scopes ih =>
      obtain ⟨q, entries⟩ := e
      have hmem : f q ∉ result.scopes.keys := fun hmem =>
        (List.nodup_append.1 h).2.2 _ hmem _ List.mem_cons_self rfl
      have hscope : result.addScope (f q) (entries.respell f) =
          result.setScope (f q) (entries.respell f) := by
        rw [ImportMap.addScope, scope_of_not_mem_keys hmem]
        exact congrArg _ (Dict.ofList_entries _)
      have hnodup : ((result.setScope (f q) (entries.respell f)).scopes.keys ++
          scopes.map fun e => f e.1).Nodup := by
        rw [setScope, Dict.keys_insert_of_not_mem hmem, List.append_assoc]
        exact h
      obtain ⟨himports, hscopes⟩ := ih hnodup
      rw [List.foldl_cons, hscope]
      refine ⟨himports, hscopes.trans ?_⟩
      rw [setScope, Dict.entries_insert_of_not_mem hmem, List.append_assoc]
      rfl

/-- **Prefixes that stay apart are rewritten one by one.** -/
theorem respelled_rewrite_self (h : (map.scopes.keys.map f).Nodup) :
    Respelled f map (map.rewrite f) := by
  rw [Dict.keys, List.map_map] at h
  exact (@entries_foldl_addScope f map.scopes.entries ⟨map.imports.respell f, ∅⟩ h).elim .mk

/-- Scopes are added to both maps, where the prefixes in the first one are rewritten prefixes of a
map that are kept apart. -/
theorem respelled_foldl_addScope {scopes : List (String × Imports)} {result result' : ImportMap}
    (h : ∀ q ∈ map.scopes.keys, ∀ q' ∈ map.scopes.keys, g (f q) = g (f q') → f q = f q')
    (hscopes : ∀ e ∈ scopes, e.1 ∈ map.scopes.keys)
    (hkeys : ∀ q ∈ result.scopes.keys, ∃ q' ∈ map.scopes.keys, f q' = q)
    (hresult : Respelled g result result') :
    Respelled g (scopes.foldl (fun result e => result.addScope (f e.1) (e.2.respell f)) result)
      (scopes.foldl (fun result e =>
        result.addScope ((g ∘ f) e.1) (e.2.respell (g ∘ f))) result') := by
  induction scopes generalizing result result' with
  | nil => exact hresult
  | cons e scopes ih =>
      obtain ⟨he, hscopes⟩ := List.forall_mem_cons.1 hscopes
      rw [List.foldl_cons, List.foldl_cons, ← Imports.respell_respell]
      refine ih hscopes (fun q hq => ?_) (hresult.addScope (fun q hq heq => ?_) _)
      · rcases mem_keys_addScope.1 hq with rfl | hq
        · exact ⟨e.1, he, rfl⟩
        · exact hkeys q hq
      · obtain ⟨q', hq', rfl⟩ := hkeys q hq
        exact h q' hq' e.1 he heq

/-- What is rewritten can be written anew, if that merges no prefixes that were kept apart. -/
theorem respelled_rewrite (h : ∀ q ∈ map.scopes.keys, ∀ q' ∈ map.scopes.keys,
    g (f q) = g (f q') → f q = f q') : Respelled g (map.rewrite f) (map.rewrite (g ∘ f)) :=
  respelled_foldl_addScope h (fun _ he => List.mem_map_of_mem he)
    (fun _ hq => absurd hq List.not_mem_nil)
    ⟨(Imports.respell_respell f g map.imports).symm, rfl⟩

/-- **Rewriting twice is rewriting once**, if the second function merges no prefixes that the first
has kept apart. -/
theorem rewrite_rewrite (h : ∀ q ∈ map.scopes.keys, ∀ q' ∈ map.scopes.keys,
    g (f q) = g (f q') → f q = f q') : (map.rewrite f).rewrite g = map.rewrite (g ∘ f) := by
  refine (respelled_rewrite_self ?_).unique (respelled_rewrite h)
  refine List.Nodup.map_on (fun q hq q' hq' heq => ?_) (Dict.nodup_keys _)
  obtain ⟨p, hp, rfl⟩ := mem_keys_rewrite hq
  obtain ⟨p', hp', rfl⟩ := mem_keys_rewrite hq'
  exact h p hp p' hp' heq

/-! ### Moving a map -/

/-- Values that are rewritten one by one, up to the first that must not be. -/
theorem mapM_eq_find? {α β ε : Type} (p : α → Bool) (fault : α → ε) (f : α → β) (l : List α) :
    l.mapM (fun a => if p a then (.error (fault a) : Except ε β) else .ok (f a)) =
      match l.find? p with
      | some a => .error (fault a)
      | none => .ok (l.map f) := by
  induction l with
  | nil => rfl
  | cons a l ih =>
      rw [List.mapM_cons, List.find?_cons, ih]
      cases p a with
      | true => rfl
      | false => cases l.find? p <;> rfl

/-- What moving the entries of a table gives. -/
theorem rebaseEntries_eq (mode : RebaseMode) (source target : String) (entries : Imports) :
    rebaseEntries mode source target entries =
      match entries.entries.find? fun e => leaves mode source target e.2 with
      | some e => .error (outside source target e)
      | none => .ok (entries.respell (valueIn mode source target)).entries := by
  have hentry : (fun e : String × String => do
      let value ← rebasePath mode source target e.2 e.1
      pure (e.1, value) : String × String → Except Error (String × String)) =
        fun e => if leaves mode source target e.2 then .error (outside source target e)
          else .ok (e.1, valueIn mode source target e.2) := by
    funext e
    rw [rebasePath_eq]
    cases leaves mode source target e.2 <;> rfl
  rw [rebaseEntries]
  refine (congrArg (List.mapM · entries.entries) hentry).trans ((mapM_eq_find? _ _ _ _).trans ?_)
  cases entries.entries.find? fun e => leaves mode source target e.2 <;> rfl

/-- A result to which the members of a list are added one by one, up to the first with a value that
must not be there. -/
theorem foldlM_eq_find? {α β σ ε : Type} (values : α → List β) (p : β → Bool) (fault : β → ε)
    (add : σ → α → σ) (l : List α) (s : σ) :
    l.foldlM (fun s a => ((values a).find? p).elim (.ok (add s a) : Except ε σ)
      fun b => .error (fault b)) s =
      match (l.flatMap values).find? p with
      | some b => .error (fault b)
      | none => .ok (l.foldl add s) := by
  induction l generalizing s with
  | nil => rfl
  | cons a l ih =>
      rw [List.foldlM_cons, List.flatMap_cons, List.find?_append]
      cases (values a).find? p with
      | some b => rfl
      | none => exact ih (add s a)

/-- What moving a scope adds to the map so far. -/
theorem rebaseScope_eq (mode : RebaseMode) (source target : String) (result : ImportMap)
    (e : String × Imports) :
    (do
      let scopePrefix ← rebasePath mode source target e.1 e.1
      let entries ← rebaseEntries mode source target e.2
      pure (result.setScope scopePrefix
        ((result.scope scopePrefix).insertAll (Dict.ofList entries))) : Except Error ImportMap) =
      (((e.1, e.1) :: e.2.entries).find? fun e => leaves mode source target e.2).elim
        (.ok (result.addScope (valueIn mode source target e.1)
          (e.2.respell (valueIn mode source target))))
        fun e => .error (outside source target e) := by
  obtain ⟨q, entries⟩ := e
  rw [rebasePath_eq, rebaseEntries_eq, List.find?_cons]
  cases leaves mode source target q with
  | true => rfl
  | false =>
      cases entries.entries.find? fun e => leaves mode source target e.2 with
      | some e => rfl
      | none =>
          simp only [bind, Except.bind, pure, Except.pure, Dict.ofList_entries, Bool.false_eq_true,
            if_false]
          rfl

/-- **What moving a map gives.** The first value that must not be moved is reported; if there is
none, all values are rewritten. -/
theorem rebase_eq (map : ImportMap) (mode : RebaseMode) (source target : String) :
    map.rebase mode source target =
      match map.namedValues.find? fun e =>
          leaves mode (forwardSlashes source) (forwardSlashes target) e.2 with
      | some e => .error (outside (forwardSlashes source) (forwardSlashes target) e)
      | none => .ok (map.rewrite
          (valueIn mode (forwardSlashes source) (forwardSlashes target))) := by
  rw [rebase, namedValues, rewrite]
  generalize forwardSlashes source = source
  generalize forwardSlashes target = target
  rw [rebaseEntries_eq, List.find?_append]
  simp only [rebaseScope_eq]
  cases map.imports.entries.find? fun e => leaves mode source target e.2 with
  | some e => rfl
  | none =>
      rw [Option.none_or]
      simp only [bind, Except.bind, Dict.ofList_entries]
      refine (foldlM_eq_find? _ _ _ _ _ _).trans ?_
      cases List.find? _ (map.scopes.entries.flatMap _) <;> rfl

/-- Every map can be moved to every directory. -/
theorem rebase_relative_eq (map : ImportMap) (source target : String) :
    map.rebase .relative source target = .ok (map.rewrite
      (movedValue (forwardSlashes source) (forwardSlashes target))) := by
  rw [rebase_eq, List.find?_eq_none.2 fun e _ => by rw [leaves_relative]; exact Bool.false_ne_true]
  rfl

end ImportMap

end ImportAtlas
