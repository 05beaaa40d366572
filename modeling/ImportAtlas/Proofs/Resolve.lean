import ImportAtlas.Proofs.Choice
import ImportAtlas.Proofs.Outcomes

/-!
# What a resolver finds

The URL of a bare specifier is where the entry leads that decides about it, among the tables of
the scopes around the module and the top level. Any other specifier names its module by itself.

## Main results

* `Resolver.url?_of_bare`, `Resolver.url?_of_not_bare`: the URL of a specifier.
* `isBareSpecifier_eq_of_covers`: a specifier is bare when its key is.
* `scopeMatches_eq_cons_of_append`: the scopes around a scope are the outer scopes of a module
  in it.
* `Resolver.exists_make_iff`, `Resolver.mem_keys_scopes_iff`: what a resolver knows of its map.
-/

namespace ImportAtlas

/-! ### Bare specifiers -/

/-- Whether only an import map can tell what a specifier names. -/
def isBareSpecifier (specifier : String) : Bool :=
  !isPathSpecifier specifier && !Target.isLongUrl specifier

theorem referenceUrl?_of_bare {specifier : String} (h : isBareSpecifier specifier = true)
    (parent : String) : referenceUrl? specifier parent = .ok none := by
  rw [isBareSpecifier, Bool.and_eq_true, Bool.not_eq_true', Bool.not_eq_true'] at h
  rw [referenceUrl?, h.1, h.2]
  rfl

theorem referenceUrl?_ne_none {specifier : String} (h : isBareSpecifier specifier = false)
    (parent : String) : referenceUrl? specifier parent ≠ .ok none := by
  rw [referenceUrl?]
  cases hp : isPathSpecifier specifier with
  | true =>
      rw [if_pos rfl]
      cases joinUrl parent specifier <;> simp [Except.map]
  | false =>
      rw [isBareSpecifier, hp, Bool.not_false, Bool.true_and, Bool.not_eq_false'] at h
      simp [h]

theorem takeWhile_append_of_head_neg {α : Type} (p : α → Bool) {a : α} (h : p a = false)
    (l rest : List α) : (l ++ a :: rest).takeWhile p = l.takeWhile p := by
  induction l with
  | nil => simp [h]
  | cons b l ih => rw [List.cons_append, List.takeWhile_cons, List.takeWhile_cons, ih]

theorem head?_dropWhile_append_of_head_neg {α : Type} (p : α → Bool) {a : α} (h : p a = false)
    (l rest rest' : List α) :
    ((l ++ a :: rest).dropWhile p).head? = ((l ++ a :: rest').dropWhile p).head? := by
  induction l with
  | nil => simp [h]
  | cons b l ih =>
      rw [List.cons_append, List.cons_append, List.dropWhile_cons, List.dropWhile_cons]
      split
      · exact ih
      · rfl

/-- The scheme of a text stands before its first slash. -/
theorem schemeChars?_append_slash (l rest rest' : List Char) :
    Target.schemeChars? (l ++ '/' :: rest) = Target.schemeChars? (l ++ '/' :: rest') := by
  have hs : Target.isSchemeChar '/' = false := by decide
  cases l with
  | nil => simp [Target.schemeChars?, show ('/' : Char).isAlpha = false by decide]
  | cons c l =>
      rw [List.cons_append, List.cons_append, Target.schemeChars?, Target.schemeChars?,
        takeWhile_append_of_head_neg _ hs, takeWhile_append_of_head_neg _ hs,
        head?_dropWhile_append_of_head_neg _ hs l rest rest']

/-- The segment that makes a text relative ends at its first slash. -/
theorem isRelativeChars_append_slash (l rest rest' : List Char) :
    Target.isRelativeChars (l ++ '/' :: rest) = Target.isRelativeChars (l ++ '/' :: rest') := by
  rcases l with _ | ⟨a, _ | ⟨b, _ | ⟨c, l⟩⟩⟩ <;>
    simp [Target.isRelativeChars, List.isPrefixOf]

/-- **A specifier is bare exactly when the keys that cover it are.** -/
theorem isBareSpecifier_eq_of_covers {key specifier : String} (h : Covers key specifier) :
    isBareSpecifier key = isBareSpecifier specifier := by
  rcases h with rfl | ⟨hs, tail, htail⟩
  · rfl
  · rw [Target.endsInSlash, beq_iff_eq] at hs
    obtain ⟨l, hl⟩ := List.getLast?_eq_some_iff.1 hs
    have hspec : specifier.toList = l ++ '/' :: tail := by rw [← htail, hl]; simp
    have hroot : Target.isRooted key = Target.isRooted specifier := by
      rw [Target.isRooted, Target.isRooted, hl, hspec]
      cases l <;> rfl
    rw [isBareSpecifier, isBareSpecifier, isPathSpecifier, isPathSpecifier, hroot,
      Target.isRelative, Target.isRelative, Target.isLongUrl, Target.isLongUrl, hl, hspec,
      isRelativeChars_append_slash l [] tail, schemeChars?_append_slash l [] tail]

/-! ### Scopes around a place -/

theorem mem_scopeMatches {path url : String} {scopes : List String} :
    url ∈ scopeMatches path scopes ↔
      (Target.endsInSlash url = true ∧ url.toList <+: path.toList) ∧ url ∈ scopes := by
  rw [scopeMatches, List.mem_filter, mem_map_slashPrefixes, List.contains_iff_mem]

theorem pairwise_scopeMatches (path : String) (scopes : List String) :
    (scopeMatches path scopes).Pairwise fun u v => v.length < u.length :=
  (pairwise_map_slashPrefixes path).filter _

/-- Lists with falling lengths and the same members are equal. -/
theorem eq_of_pairwise_length {l l' : List String}
    (hl : l.Pairwise fun u v => v.length < u.length)
    (hl' : l'.Pairwise fun u v => v.length < u.length) (h : ∀ u, u ∈ l ↔ u ∈ l') : l = l' := by
  have hnodup : ∀ {m : List String}, m.Pairwise (fun u v => v.length < u.length) → m.Nodup :=
    fun hm => hm.imp fun huv => by rintro rfl; omega
  have hperm : l.Perm l' := (List.perm_ext_iff_of_nodup (hnodup hl) (hnodup hl')).2 h
  exact List.Perm.eq_of_pairwise (fun u v _ _ huv hvu => by omega) hl hl' hperm

/-- The scopes around a scope that holds a place are the outer scopes of the place. -/
theorem scopeMatches_eq_cons_of_append {path url : String} {scopes before after : List String}
    (h : scopeMatches path scopes = before ++ url :: after) :
    scopeMatches url scopes = url :: after := by
  have hp := pairwise_scopeMatches path scopes
  rw [h, List.pairwise_append] at hp
  obtain ⟨-, hafter, hbefore⟩ := hp
  have hurl : url ∈ scopeMatches path scopes := by rw [h]; simp
  obtain ⟨⟨hs, hpre⟩, hmem⟩ := mem_scopeMatches.1 hurl
  refine eq_of_pairwise_length (pairwise_scopeMatches url scopes) hafter fun v => ?_
  constructor
  · intro hv
    obtain ⟨⟨hvs, hvp⟩, hvm⟩ := mem_scopeMatches.1 hv
    have hmem : v ∈ scopeMatches path scopes := mem_scopeMatches.2 ⟨⟨hvs, hvp.trans hpre⟩, hvm⟩
    rw [h] at hmem
    rcases List.mem_append.1 hmem with hb | ha
    · have hlt := hbefore v hb url List.mem_cons_self
      have hle := hvp.length_le
      rw [String.length_toList, String.length_toList] at hle
      omega
    · exact ha
  · intro hv
    have hmem : v ∈ scopeMatches path scopes := by rw [h]; exact List.mem_append_right _ hv
    obtain ⟨⟨hvs, hvp⟩, hvm⟩ := mem_scopeMatches.1 hmem
    refine mem_scopeMatches.2 ⟨⟨hvs, List.prefix_of_prefix_length_le hvp hpre ?_⟩, hvm⟩
    rw [String.length_toList, String.length_toList]
    rcases List.mem_cons.1 hv with rfl | hv
    · exact le_rfl
    · exact ((List.pairwise_cons.1 hafter).1 v hv).le

/-- With fewer scopes there are fewer of them around a place. -/
theorem scopeMatches_filter {scopes scopes' : List String} (h : ∀ u ∈ scopes', u ∈ scopes)
    (path : String) :
    scopeMatches path scopes' = (scopeMatches path scopes).filter scopes'.contains := by
  rw [scopeMatches, scopeMatches, List.filter_filter]
  refine List.filter_congr fun u _ => ?_
  rw [Bool.eq_iff_iff, Bool.and_eq_true, List.contains_iff_mem, List.contains_iff_mem]
  exact ⟨fun hu => ⟨hu, h u hu⟩, fun hu => hu.1⟩

namespace Resolver

/-! ### Making a resolver -/

/-- A computation that gives a value succeeds. -/
theorem eq_ok_of_toOption {α : Type} {x : Except Error α} {a : α} (h : x.toOption = some a) :
    x = .ok a := by
  cases x with
  | error e => exact absurd h (by simp [Except.toOption])
  | ok b => exact congrArg Except.ok (Option.some.inj h)

section Make

variable {map : ImportMap} {base : String} {relativeFallback : Bool} {r : Resolver}

/-- The URL of a prefix together with the prefix, as a resolver notes them. -/
def noteScope (base scopePrefix : String) : Except Error (String × String) :=
  (mapUrl base scopePrefix).map fun url => (url, scopePrefix)

theorem noteScope_eq_ok_iff {scopePrefix : String} {note : String × String} :
    noteScope base scopePrefix = .ok note ↔
      mapUrl base scopePrefix = .ok note.1 ∧ note.2 = scopePrefix := by
  obtain ⟨url, q⟩ := note
  rw [noteScope]
  cases mapUrl base scopePrefix with
  | error e => simp [Except.map]
  | ok u => simp [Except.map, eq_comm]

theorem scopeUrls_eq (map : ImportMap) (base : String) :
    scopeUrls map base = (map.scopes.keys.mapM (noteScope base)).map Dict.ofList := by
  have hf : (fun scopePrefix => do
      let url ← mapUrl base scopePrefix
      pure (url, scopePrefix)) = noteScope base := by
    funext scopePrefix
    rw [noteScope]
    cases mapUrl base scopePrefix <;> rfl
  rw [scopeUrls, hf]
  cases map.scopes.keys.mapM (noteScope base) <;> rfl

/-- A resolver holds its map, its place, and the URLs of all prefixes. -/
theorem make_eq_ok_iff :
    make map base relativeFallback = .ok r ↔
      ∃ notes, map.scopes.keys.mapM (noteScope base) = .ok notes ∧
        r = ⟨map, base, relativeFallback, Dict.ofList notes⟩ := by
  rw [make, scopeUrls_eq]
  cases map.scopes.keys.mapM (noteScope base) with
  | error e => simp [Except.map, bind, Except.bind]
  | ok notes => simp [Except.map, bind, Except.bind, pure, Except.pure, eq_comm]

/-- **A map can be resolved through exactly when all of its prefixes denote a URL.** -/
theorem exists_make_iff :
    (∃ r, make map base relativeFallback = .ok r) ↔
      ∀ q ∈ map.scopes.keys, ∃ url, mapUrl base q = .ok url := by
  have hnote : ∀ q, (∃ note, noteScope base q = .ok note) ↔ ∃ url, mapUrl base q = .ok url := by
    intro q
    constructor
    · rintro ⟨note, h⟩
      exact ⟨note.1, (noteScope_eq_ok_iff.1 h).1⟩
    · rintro ⟨url, h⟩
      exact ⟨(url, q), noteScope_eq_ok_iff.2 ⟨h, rfl⟩⟩
  simp only [← hnote, ← exists_mapM_eq_ok_iff, make_eq_ok_iff]
  constructor
  · rintro ⟨r, notes, h, -⟩
    exact ⟨notes, h⟩
  · rintro ⟨notes, h⟩
    exact ⟨_, notes, h, rfl⟩

theorem map_of_make (h : make map base relativeFallback = .ok r) : r.map = map := by
  obtain ⟨notes, -, rfl⟩ := make_eq_ok_iff.1 h
  rfl

theorem base_of_make (h : make map base relativeFallback = .ok r) : r.base = base := by
  obtain ⟨notes, -, rfl⟩ := make_eq_ok_iff.1 h
  rfl

theorem relativeFallback_of_make (h : make map base relativeFallback = .ok r) :
    r.relativeFallback = relativeFallback := by
  obtain ⟨notes, -, rfl⟩ := make_eq_ok_iff.1 h
  rfl

/-- The URLs that a resolver knows are those of the prefixes of its map. -/
theorem mem_keys_scopes_iff (h : make map base relativeFallback = .ok r) {url : String} :
    url ∈ r.scopes.keys ↔ ∃ q ∈ map.scopes.keys, mapUrl base q = .ok url := by
  obtain ⟨notes, hnotes, rfl⟩ := make_eq_ok_iff.1 h
  rw [Dict.mem_keys_ofList, List.mem_map]
  constructor
  · rintro ⟨note, hmem, rfl⟩
    obtain ⟨q, hq, hnote⟩ := (mem_iff_of_mapM_eq_ok hnotes).1 hmem
    exact ⟨q, hq, (noteScope_eq_ok_iff.1 hnote).1⟩
  · rintro ⟨q, hq, hurl⟩
    exact ⟨(url, q), (mem_iff_of_mapM_eq_ok hnotes).2 ⟨q, hq, noteScope_eq_ok_iff.2 ⟨hurl, rfl⟩⟩,
      rfl⟩

/-- The prefix that counts at a URL is one that denotes it. -/
theorem of_get?_scopes (h : make map base relativeFallback = .ok r) {url q : String}
    (hq : r.scopes.get? url = some q) : q ∈ map.scopes.keys ∧ mapUrl base q = .ok url := by
  obtain ⟨notes, hnotes, rfl⟩ := make_eq_ok_iff.1 h
  obtain ⟨q', hq', hnote⟩ := (mem_iff_of_mapM_eq_ok hnotes).1 (Dict.mem_of_get?_ofList hq)
  obtain ⟨hurl, rfl⟩ := noteScope_eq_ok_iff.1 hnote
  exact ⟨hq', hurl⟩

end Make

/-! ### The URL that is found -/

/-- What a caller learns from a resolution: a URL, that there is none, or another fault. -/
def outcome : Except Error Resolution → Except Error (Option String)
  | .ok resolution => .ok (some resolution.url)
  | .error (.resolution _ _ _) => .ok none
  | .error error => .error error

/-- The URL of a specifier in a module, `none` if no entry leads anywhere. -/
def url? (r : Resolver) (specifier parent : String) (isEntry : Bool) :
    Except Error (Option String) :=
  outcome (r.resolve specifier parent isEntry)

theorem url?_eq_some_iff {r : Resolver} {specifier parent url : String} {isEntry : Bool} :
    r.url? specifier parent isEntry = .ok (some url) ↔
      ∃ resolution, r.resolve specifier parent isEntry = .ok resolution ∧ resolution.url = url := by
  rw [url?]
  cases r.resolve specifier parent isEntry with
  | ok resolution => simp [outcome]
  | error e => cases e <;> simp [outcome]

/-- The entries of the scope at a URL, none if there is no such scope. -/
def scopeAt (r : Resolver) (url : String) : Imports := (r.scopes.get? url).elim ∅ r.map.scope

/-- The tables that apply in a module, without the prefixes of their scopes. -/
def chain (r : Resolver) (parent : String) : List Imports :=
  (scopeMatches parent r.scopes.keys).map r.scopeAt ++ [r.map.imports]

theorem map_snd_tables (r : Resolver) (parent : String) :
    (r.tables parent).map Prod.snd = r.chain parent := by
  rw [tables, chain, List.map_append, List.map_map]
  refine congrArg (· ++ [r.map.imports]) (List.map_congr_left fun url hurl => ?_)
  obtain ⟨q, hq⟩ := Dict.mem_keys_iff.1 (mem_scopeMatches.1 hurl).2
  rw [Function.comp_apply, scopeAt, Dict.getD_eq, hq]
  rfl

theorem map_firstEntry? (specifier : String) (tables : List (Option String × Imports)) :
    ( firstEntry? specifier tables).map (fun entry => (entry.key, entry.target)) =
      Imports.choice? specifier (tables.map Prod.snd) := by
  induction tables with
  | nil => rfl
  | cons table tables ih =>
      obtain ⟨scope?, imports⟩ := table
      rw [List.map_cons, firstEntry?]
      cases hm : imports.match? specifier with
      | none => rw [Imports.choice?_cons_of_none hm, ← ih]
      | some key => rw [Imports.choice?_cons_of_match? hm]; rfl

theorem joinUrl_eq_error {base reference : String} {error : Error}
    (h : joinUrl base reference = .error error) : error = .malformedUrl := by
  rw [joinUrl] at h
  split at h
  · exact absurd h (by simp)
  · exact (Except.error.inj h).symm

theorem mapUrl_eq_error {base value : String} {error : Error}
    (h : mapUrl base value = .error error) : error = .malformedUrl := by
  rw [mapUrl, referenceUrl?] at h
  split at h
  · cases hj : joinUrl base value with
    | ok url => exact absurd h (by simp [hj, Except.map, bind, Except.bind, pure, Except.pure])
    | error e =>
        obtain rfl : e = error := by simpa [hj, Except.map, bind, Except.bind] using h
        exact joinUrl_eq_error hj
  · split at h
    · exact absurd h (by simp [bind, Except.bind, pure, Except.pure])
    · exact joinUrl_eq_error (by simpa [bind, Except.bind] using h)

/-- What is learnt from an entry is where it leads. -/
theorem outcome_applyEntry (r : Resolver) (specifier parent : String) (entry : MapEntry) :
    outcome (r.applyEntry specifier parent entry) =
      Imports.landing r.base specifier (some (entry.key, entry.target)) := by
  rw [applyEntry, Imports.landing]
  split
  · rfl
  · cases hu : mapUrl r.base entry.target with
    | ok url => rfl
    | error e =>
        obtain rfl := mapUrl_eq_error hu
        rfl

/-- **The URL of a bare specifier is where the first entry for it leads.** -/
theorem url?_of_bare {specifier : String} (h : isBareSpecifier specifier = true) (r : Resolver)
    (parent : String) (isEntry : Bool) :
    r.url? specifier parent isEntry =
      if (Imports.choice? specifier (r.chain parent)).isNone && (isEntry && r.relativeFallback) then
        (joinUrl parent ("./" ++ specifier)).map some
      else Imports.landing r.base specifier (Imports.choice? specifier (r.chain parent)) := by
  rw [url?, resolve, referenceUrl?_of_bare h, ← map_snd_tables, ← map_firstEntry?]
  simp only [bind, Except.bind]
  cases firstEntry? specifier (r.tables parent) with
  | some entry => exact outcome_applyEntry r specifier parent entry
  | none =>
      cases hf : isEntry && r.relativeFallback with
      | false => rfl
      | true =>
          simp only [if_true, Option.map_none, Option.isNone_none, Bool.and_self]
          cases hj : joinUrl parent ("./" ++ specifier) with
          | ok url => rfl
          | error e =>
              obtain rfl := joinUrl_eq_error hj
              rfl

/-- A specifier that is not bare names the same module through every map. -/
theorem url?_of_not_bare {specifier : String} (h : isBareSpecifier specifier = false)
    (r r' : Resolver) (parent : String) (isEntry : Bool) :
    r'.url? specifier parent isEntry = r.url? specifier parent isEntry := by
  rw [url?, url?, resolve, resolve]
  cases hu : referenceUrl? specifier parent with
  | error e => rfl
  | ok url? =>
      cases url? with
      | some url => rfl
      | none => exact absurd hu (referenceUrl?_ne_none h parent)

end Resolver

end ImportAtlas
