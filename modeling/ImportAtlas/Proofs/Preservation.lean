import Mathlib.Algebra.Order.BigOperators.Group.List
import ImportAtlas.Proofs.Resolve

/-!
# Maps that resolve alike

A map that has no scopes but those of another one finds the same URLs exactly when every one of
its scopes, put in front of what the other map has around that scope, agrees with the scope of the
other map. So scopes can be compared one at a time.

## Main results

* `Resolver.agreeAt_tablesAt`: from single scopes to all modules.
* `Resolver.sameUrls_iff`: two maps find the same URLs exactly when their scopes agree.
-/

namespace ImportAtlas

namespace Imports

variable {base specifier : String} {tables tables' tables'' more more' : List Imports}

theorem AgreeAt.symm (h : AgreeAt base tables tables' specifier) :
    AgreeAt base tables' tables specifier :=
  ⟨h.landing_eq.symm, fun hs => (h.takesMore_eq hs).symm⟩

theorem AgreeAt.trans (h : AgreeAt base tables tables' specifier)
    (h' : AgreeAt base tables' tables'' specifier) : AgreeAt base tables tables'' specifier :=
  ⟨h.landing_eq.trans h'.landing_eq, fun hs => (h.takesMore_eq hs).trans (h'.takesMore_eq hs)⟩

/-- A table in front of chains that agree leaves them in agreement. -/
theorem AgreeAt.cons (h : AgreeAt base more more' specifier) (imports : Imports) :
    AgreeAt base (imports :: more) (imports :: more') specifier := by
  cases hm : imports.match? specifier with
  | some key =>
      exact AgreeAt.of_choice?_eq
        ((choice?_cons_of_match? hm).trans (choice?_cons_of_match? hm).symm) base
  | none =>
      have hc : choice? specifier (imports :: more) = choice? specifier more :=
        choice?_cons_of_none hm
      have hc' : choice? specifier (imports :: more') = choice? specifier more' :=
        choice?_cons_of_none hm
      constructor
      · rw [hc, hc', h.landing_eq]
      · intro hs
        rw [hc, hc', h.takesMore_eq hs]

/-! ### Specifiers below a folder -/

/-- A text without slash that is longer than all keys of some tables. -/
theorem exists_long_name (tables : List Imports) :
    ∃ name : String, name ≠ "" ∧ '/' ∉ name.toList ∧
      ∀ imports ∈ tables, ∀ k ∈ imports.keys, k.length < name.length := by
  refine ⟨String.ofList (List.replicate
    (((tables.flatMap Dict.keys).map String.length).sum + 1) 'x'), ?_, ?_, ?_⟩
  · rw [← String.toList_inj.ne, String.toList_ofList, List.replicate_succ]
    exact List.cons_ne_nil _ _
  · rw [String.toList_ofList]
    intro h
    exact absurd (List.eq_of_mem_replicate h) (by decide)
  · intro imports hmem k hk
    have hle : k.length ≤ ((tables.flatMap Dict.keys).map String.length).sum :=
      List.le_sum_of_mem (List.mem_map_of_mem (List.mem_flatMap.2 ⟨imports, hmem, hk⟩))
    rw [← String.length_toList (s := String.ofList _), String.toList_ofList, List.length_replicate]
    omega

/-- A key for a long name in a folder goes no further than the folder. -/
theorem length_le_of_covers_append {folder name key : String}
    (hs : Target.endsInSlash folder = true) (hn : '/' ∉ name.toList)
    (hlen : key.length < name.length) (h : Covers key (folder ++ name)) :
    key.length ≤ folder.length := by
  by_contra hlt
  have hlt : folder.length < key.length := by omega
  have hfolder : Covers folder (folder ++ name) := Or.inr ⟨hs, by simp⟩
  have hne : key ≠ folder ++ name := by
    rintro rfl
    rw [← String.length_toList, String.toList_append, List.length_append,
      String.length_toList, String.length_toList] at hlen
    omega
  -- The key would end in a slash behind the folder, where the name has none.
  have hks := h.endsInSlash_of_ne hne
  obtain ⟨rest, hrest⟩ := (hfolder.of_length_le h hlt.le).isPrefix
  have hpre := h.isPrefix
  rw [String.toList_append, ← hrest, List.prefix_append_right_inj] at hpre
  rw [Target.endsInSlash, beq_iff_eq, ← hrest] at hks
  have hne' : rest ≠ [] := by
    rintro rfl
    rw [← String.length_toList, ← String.length_toList, ← hrest, List.append_nil] at hlt
    omega
  rw [List.getLast?_append_of_ne_nil _ hne'] at hks
  exact hn (hpre.subset (List.mem_of_getLast? hks))

/-- Behind a slash a name without slash is covered by what covers the folder, unless it is all of
a key. -/
theorem covers_append_iff {folder name key : String} (hs : Target.endsInSlash folder = true)
    (hn : '/' ∉ name.toList) (hlen : key.length < name.length) :
    Covers key (folder ++ name) ↔ Covers key folder := by
  have hfolder : Covers folder (folder ++ name) := Or.inr ⟨hs, by simp⟩
  exact ⟨fun h => h.of_length_le hfolder (length_le_of_covers_append hs hn hlen h),
    fun h => h.trans hfolder⟩

/-- What decides about a folder decides about long names in it. -/
theorem choice?_append_name {folder name : String} (hs : Target.endsInSlash folder = true)
    (hn : '/' ∉ name.toList)
    (hlen : ∀ imports ∈ tables, ∀ k ∈ imports.keys, k.length < name.length) :
    choice? (folder ++ name) tables = choice? folder tables := by
  have hfolder : Covers folder (folder ++ name) := Or.inr ⟨hs, by simp⟩
  cases hc : choice? (folder ++ name) tables with
  | none => rw [choice?_eq_none_of_covers hc hfolder]
  | some entry =>
      obtain ⟨key, target⟩ := entry
      obtain ⟨imports, hmem, hget, -⟩ := exists_of_choice? hc
      have hk : Covers key folder := (covers_append_iff hs hn
        (hlen imports hmem key (Dict.mem_keys_of_get? hget))).1 (covers_of_choice? hc)
      rw [choice?_of_covers hc hk hfolder]

/-- Something behind a folder leads nowhere exactly when the entry does not take more. -/
theorem landing_append_name_eq_none_iff {folder name : String}
    (hs : Target.endsInSlash folder = true) (hname : name ≠ "") :
    landing base (folder ++ name) (choice? folder tables) = .ok none ↔
      takesMore (choice? folder tables) = false := by
  have hfolder : Covers folder (folder ++ name) := Or.inr ⟨hs, by simp⟩
  cases hc : choice? folder tables with
  | none => simp [landing, takesMore]
  | some entry =>
      obtain ⟨key, target⟩ := entry
      have hk := covers_of_choice? hc
      cases ht : Target.endsInSlash target with
      | true =>
          rw [landing_append (Covers.refl key) (hk.trans hfolder) ht, landing_self]
          cases mapUrl base target <;> simp [Except.map, takesMore, ht]
      | false =>
          have hne : key ≠ folder ++ name := by
            rintro rfl
            have hle := hk.length_le
            rw [← String.length_toList, ← String.length_toList, String.toList_append,
              List.length_append] at hle
            have hpos : name.toList.length ≠ 0 := fun h0 =>
              hname (String.toList_eq_nil_iff.1 (List.length_eq_zero_iff.1 h0))
            omega
          rw [landing_of_not_takesMore (hk.trans hfolder) hne ht]
          simp [takesMore, ht]

end Imports

namespace Resolver

variable {r r' : Resolver}

/-! ### Scope by scope -/

/-- Two resolvers find the same URL for every specifier in every module. -/
def SameUrls (r r' : Resolver) : Prop :=
  ∀ specifier parent isEntry, r'.url? specifier parent isEntry = r.url? specifier parent isEntry

/-- A resolver at the place of another one, with the same top level and no scopes but those of the
other one. -/
structure Narrows (r' r : Resolver) : Prop where
  base_eq : r'.base = r.base
  relativeFallback_eq : r'.relativeFallback = r.relativeFallback
  get?_imports : ∀ k, r'.map.imports.get? k = r.map.imports.get? k
  mem_scopes : ∀ url ∈ r'.scopes.keys, url ∈ r.scopes.keys

/-- What a resolver has in some scopes and at the top level. -/
def tablesAt (r : Resolver) (urls : List String) : List Imports :=
  urls.map r.scopeAt ++ [r.map.imports]

theorem chain_eq (r : Resolver) (parent : String) :
    r.chain parent = r.tablesAt (scopeMatches parent r.scopes.keys) := rfl

theorem get?_scopeAt_of_not_mem {url : String} (h : url ∉ r.scopes.keys) (k : String) :
    (r.scopeAt url).get? k = none := by
  rw [scopeAt, Dict.get?_eq_none_iff.2 h]
  rfl

/-- Scopes that a resolver lacks may be added to the chain as empty ones. -/
theorem choice?_chain (h : ∀ url ∈ r'.scopes.keys, url ∈ r.scopes.keys)
    (specifier parent : String) :
    Imports.choice? specifier (r'.chain parent) =
      Imports.choice? specifier (r'.tablesAt (scopeMatches parent r.scopes.keys)) := by
  rw [chain_eq, tablesAt, tablesAt, Imports.choice?_append, Imports.choice?_append,
    scopeMatches_filter h]
  congr 1
  refine Imports.choice?_filter fun url _ hnot k => get?_scopeAt_of_not_mem ?_ k
  rwa [← List.contains_iff_mem, Bool.not_eq_true]

theorem agreeAt_tablesAt_nil (h : r'.Narrows r) (specifier : String) :
    Imports.AgreeAt r.base (r'.tablesAt []) (r.tablesAt []) specifier :=
  Imports.AgreeAt.of_choice?_eq (Imports.choice?_congr (l := [()]) (f := fun _ => r'.map.imports)
    (g := fun _ => r.map.imports) fun _ _ k _ => h.get?_imports k) r.base

/-- A scope of one resolver in front of the outer scopes of the other agrees with the scope that
the other has there. -/
def AgreesIn (r r' : Resolver) (url : String) (outer : List String) (specifier : String) : Prop :=
  Imports.AgreeAt r.base (r'.scopeAt url :: r.tablesAt outer) (r.scopeAt url :: r.tablesAt outer)
    specifier

/-- **Resolvers whose scopes agree one at a time agree in all modules.** The scopes around a module
are put in front of the top level one after the other, innermost last. -/
theorem agreeAt_tablesAt (h : r'.Narrows r) {specifier : String} {urls : List String}
    (hin : ∀ before url outer, urls = before ++ url :: outer → AgreesIn r r' url outer specifier) :
    Imports.AgreeAt r.base (r'.tablesAt urls) (r.tablesAt urls) specifier := by
  induction urls with
  | nil => exact agreeAt_tablesAt_nil h specifier
  | cons url outer ih =>
      have hrest := ih fun before v rest hsplit =>
        hin (url :: before) v rest (by rw [hsplit, List.cons_append])
      exact (hrest.cons (r'.scopeAt url)).trans (hin [] url outer rfl)

/-- What resolvers agree on in a module is found through both. -/
theorem url?_eq_of_agreeAt (h : r'.Narrows r) {specifier parent : String} {isEntry : Bool}
    (hbare : isBareSpecifier specifier = true)
    (hagree : ∀ l, Covers l specifier →
      Imports.AgreeAt r.base (r'.tablesAt (scopeMatches parent r.scopes.keys)) (r.chain parent) l) :
    r'.url? specifier parent isEntry = r.url? specifier parent isEntry := by
  have hnone := Imports.choice?_isNone_eq_of_agreeAt fun l _ hcov => hagree l hcov
  have hland := (hagree specifier (Covers.refl specifier)).landing_eq
  rw [url?_of_bare hbare, url?_of_bare hbare, choice?_chain h.mem_scopes, hnone, h.base_eq, hland,
    h.relativeFallback_eq]

/-- Resolvers that find the same URLs agree on the tables around every module. -/
theorem agreeAt_of_sameUrls (h : r'.Narrows r) (hsame : SameUrls r r') {specifier : String}
    (hbare : isBareSpecifier specifier = true) (parent : String) :
    Imports.AgreeAt r.base (r'.tablesAt (scopeMatches parent r.scopes.keys)) (r.chain parent)
      specifier := by
  have hland : ∀ {s : String}, isBareSpecifier s = true →
      Imports.landing r.base s
          (Imports.choice? s (r'.tablesAt (scopeMatches parent r.scopes.keys))) =
        Imports.landing r.base s (Imports.choice? s (r.chain parent)) := by
    intro s hs
    have heq := hsame s parent false
    rw [url?_of_bare hs, url?_of_bare hs, Bool.false_and, Bool.false_and, Bool.and_false,
      Bool.and_false, if_neg Bool.false_ne_true, if_neg Bool.false_ne_true,
      choice?_chain h.mem_scopes, h.base_eq] at heq
    exact heq
  refine ⟨hland hbare, fun hs => ?_⟩
  obtain ⟨name, hempty, hn, hlen⟩ := Imports.exists_long_name
    (r'.tablesAt (scopeMatches parent r.scopes.keys) ++ r.chain parent)
  have hname : isBareSpecifier (specifier ++ name) = true := by
    rw [← isBareSpecifier_eq_of_covers (Or.inr ⟨hs, by simp⟩), hbare]
  have heq := hland hname
  rw [Imports.choice?_append_name hs hn fun imports hmem => hlen imports
      (List.mem_append_left _ hmem),
    Imports.choice?_append_name hs hn fun imports hmem => hlen imports
      (List.mem_append_right _ hmem)] at heq
  rw [Bool.eq_iff_iff, ← Bool.not_eq_false, ← Bool.not_eq_false,
    ← Imports.landing_append_name_eq_none_iff hs hempty,
    ← Imports.landing_append_name_eq_none_iff hs hempty, heq]

/-- **Two maps find the same URLs exactly when their scopes agree one at a time.** -/
theorem sameUrls_iff (h : r'.Narrows r) :
    SameUrls r r' ↔ ∀ url outer, scopeMatches url r.scopes.keys = url :: outer →
      ∀ specifier, isBareSpecifier specifier = true → AgreesIn r r' url outer specifier := by
  constructor
  · intro hsame url outer hurl specifier hbare
    have hcons := agreeAt_of_sameUrls h hsame hbare url
    rw [chain_eq, hurl] at hcons
    have htail : Imports.AgreeAt r.base (r'.tablesAt outer) (r.tablesAt outer) specifier := by
      cases outer with
      | nil => exact agreeAt_tablesAt_nil h specifier
      | cons v rest =>
          have hv : scopeMatches v r.scopes.keys = v :: rest :=
            scopeMatches_eq_cons_of_append (show _ = [url] ++ v :: rest from hurl)
          have := agreeAt_of_sameUrls h hsame hbare v
          rwa [chain_eq, hv] at this
    exact (htail.cons (r'.scopeAt url)).symm.trans hcons
  · intro hin specifier parent isEntry
    cases hbare : isBareSpecifier specifier with
    | false => exact url?_of_not_bare hbare r r' parent isEntry
    | true =>
        refine url?_eq_of_agreeAt h hbare fun l hcov => agreeAt_tablesAt h ?_
        intro before url outer hsplit
        have hl : isBareSpecifier l = true := by rw [isBareSpecifier_eq_of_covers hcov, hbare]
        exact hin url outer (scopeMatches_eq_cons_of_append hsplit) l hl

end Resolver

end ImportAtlas
