import ImportAtlas.Proofs.Moving
import ImportAtlas.Proofs.Resolve

/-!
# Targets with one normal form

Targets are compared by their normal forms, and a normal form is found without the resolver. What a
target denotes is decided by the resolver, against the URL of the map: a target is a URL, names a
host, stands for the map itself, or is a path that is followed from the map. So two targets with one
normal form need not denote one URL. They do exactly when they have the same sense, or when both are
paths and go the same way: relative paths, when both or none of them leads to a directory; rooted
paths, when nothing but dots tells them apart.

## Summary

* `Target.Sense` is what a target stands for in a map on disk, and `Target.sense` reads it off.
* `Target.Sense.urlAt` is the URL that a sense denotes in a map.
* `Target.Sense.Alike` are the senses that denote one URL in every map, for targets with one normal
  form.

## Main results

* `Url.joinPaths_congr`: relative paths with the same names are followed alike from everywhere.
* `Target.mapUrl_eq_urlAt`: a target denotes the URL of its sense.
* `Target.Sense.Indistinct.eq_or_followed`: senses that four maps do not tell apart are the same, or
  paths.
* `Target.mapUrl_eq_iff_alike`: when targets with one normal form denote one URL in every map.
-/

namespace ImportAtlas

open Path (here up push reduce segments joinSegments names)

/-! ### Following reduced segments -/

namespace Url

open Path (Settled)

/-- A segment that is pushed on a reduced stack is followed after the segments of the stack. -/
theorem foldl_pushSegment_push {stack : List Segment} {seg : Segment} (h : Settled stack)
    (hseg : seg ≠ []) (start : List Segment) :
    (push false stack seg).reverse.foldl pushSegment start =
      pushSegment (stack.reverse.foldl pushSegment start) seg := by
  have hconcat : (seg :: stack).reverse.foldl pushSegment start =
      pushSegment (stack.reverse.foldl pushSegment start) seg := by
    rw [List.reverse_cons, List.foldl_append, List.foldl_cons, List.foldl_nil]
  by_cases hhere : seg = here
  · rw [Path.push_of_skip (Or.inr hhere), hhere]
    rfl
  by_cases hup : seg = up
  · subst hup
    rw [Path.push.eq_def, if_neg (not_or.2 ⟨hseg, hhere⟩), if_pos rfl]
    cases stack with
    | nil => rfl
    | cons top below =>
        by_cases htop : top = up
        · simp only [htop, if_true] at hconcat ⊢
          exact hconcat
        · -- The name on top goes, in the URL as well.
          have hname : top ≠ here := (h.names top List.mem_cons_self).2
          have hkeep : ∀ s, pushSegment s top = top :: s := fun s => by
            rw [pushSegment, if_neg (show top ≠ ['.', '.'] from htop),
              if_neg (show top ≠ ['.'] from hname)]
          have hdrop : ∀ s, pushSegment (top :: s) up = s := fun _ => rfl
          simp only [htop, if_false]
          rw [List.reverse_cons, List.foldl_append, List.foldl_cons, List.foldl_nil, hkeep, hdrop]
  · rw [Path.push_of_name hseg hhere hup, hconcat]

/-- **Reducing segments does not change where they lead.** -/
theorem foldl_pushSegment_reduce (segs start : List Segment) :
    (segs.filter (!·.isEmpty)).foldl pushSegment start =
      (reduce false segs).foldl pushSegment start := by
  have hstack : ∀ {stack : List Segment}, Settled stack →
      (segs.filter (!·.isEmpty)).foldl pushSegment (stack.reverse.foldl pushSegment start) =
        (segs.foldl (push false) stack).reverse.foldl pushSegment start := by
    induction segs with
    | nil => exact fun _ => rfl
    | cons seg segs ih =>
        intro stack h
        by_cases hseg : seg = []
        · rw [List.filter_cons_of_neg (by simp [hseg]), List.foldl_cons,
            Path.push_of_skip (Or.inl hseg), ih h]
        · rw [List.filter_cons_of_pos (by simp [hseg]), List.foldl_cons, List.foldl_cons,
            ← foldl_pushSegment_push h hseg, ih (h.push false seg)]
  exact hstack Path.settled_nil

/-- The dots of a path are followed one segment after the other, but for an empty last one. -/
theorem removeDots_concat (front : List Segment) (last : Segment) :
    removeDots (front ++ [last]) =
      (([last].filter (!·.isEmpty)).foldl pushSegment (front.foldl pushSegment [])).reverse ++
        if leadsToFolder [last] then [[]] else [] := by
  rw [removeDots, List.getLast?_concat, List.foldl_append, List.foldl_cons, List.foldl_nil,
    leadsToFolder]
  -- A name stays the last segment. Whatever else is last, an empty segment ends the path.
  by_cases hnil : last = []
  · simp [hnil, pushSegment]
  by_cases hhere : last = here
  · simp [hhere, here]
  by_cases hup : last = up
  · simp [hup, up]
  · have hhere' : last ≠ ['.'] := hhere
    have hup' : last ≠ ['.', '.'] := hup
    simp [hnil, hhere, hup, hhere', hup']

/-- What is kept of the segments of a directory does not depend on the path that is followed from
there, if that begins with a segment that is not empty. -/
theorem exists_dropInnerEmpty_append (folder : List Segment) :
    ∃ kept, ∀ {front : List Segment} {last : Segment},
      (∀ seg ∈ (front ++ [last]).head?, seg ≠ []) →
        dropInnerEmpty (folder ++ (front ++ [last])) =
          kept ++ front.filter (!·.isEmpty) ++ [last] := by
  cases folder with
  | nil =>
      -- The path of the base is a file at the root without a slash in front: what is first now is
      -- the first segment of the reference, which is kept even if it is empty.
      refine ⟨[], fun {front last} hfirst => ?_⟩
      cases front with
      | nil => rfl
      | cons first front =>
          have hne : first ≠ [] := hfirst first rfl
          rw [List.nil_append, List.cons_append, dropInnerEmpty, List.dropLast_concat,
            List.getLast?_concat, List.filter_cons_of_pos (by simp [hne])]
          rfl
  | cons first folder =>
      refine ⟨first :: folder.filter (!·.isEmpty), fun {front last} _ => ?_⟩
      rw [List.cons_append, dropInnerEmpty, ← List.append_assoc, List.dropLast_concat,
        List.getLast?_concat, List.filter_append, Option.toList_some, List.cons_append,
        List.cons_append]

/-- **Where a relative path leads from a base**: its reduced segments are followed, and an empty one
is at the end if it leads to a directory. -/
theorem exists_removeDots_mergedSegments (base : List Char) :
    ∃ start, ∀ {path : List Char}, path.head? = some '.' →
      removeDots (mergedSegments base path) =
        ((names path).foldl pushSegment start).reverse ++
          if leadsToFolder (segments path) then [[]] else [] := by
  obtain ⟨kept, hkept⟩ := exists_dropInnerEmpty_append (directorySegments base)
  refine ⟨kept.foldl pushSegment [], fun {path} hdot => ?_⟩
  obtain ⟨front, last, hsplit⟩ : ∃ front last, path.splitOn '/' = front ++ [last] :=
    ⟨_, _, (List.dropLast_concat_getLast (List.splitOn_ne_nil '/' path)).symm⟩
  have hfirst : ∀ seg ∈ (front ++ [last]).head?, seg ≠ [] := by
    obtain ⟨rest, rfl⟩ := List.head?_eq_some_iff.1 hdot
    rw [List.splitOn_cons_eq_if_modifyHead, if_neg (by decide)] at hsplit
    rw [← hsplit]
    intro seg hseg
    cases hrest : rest.splitOn '/' with
    | nil => exact absurd hrest (List.splitOn_ne_nil '/' rest)
    | cons other more =>
        rw [hrest, List.modifyHead_cons] at hseg
        exact Option.some.inj hseg ▸ List.cons_ne_nil _ _
  have hlast : leadsToFolder [last] = leadsToFolder (front ++ [last]) := by
    rw [leadsToFolder, leadsToFolder, List.getLast?_concat]
    rfl
  rw [mergedSegments, if_neg (by rw [hdot]; decide), hsplit, hkept hfirst, removeDots_concat,
    List.foldl_append, ← List.foldl_append, ← List.filter_append, foldl_pushSegment_reduce, hlast,
    names, segments, hsplit]

/-- **Relative paths with the same names are followed alike from everywhere**, if both or none of
them leads to a directory. -/
theorem joinPaths_congr {path path' : List Char} (hpath : path.head? = some '.')
    (hpath' : path'.head? = some '.') (hnames : names path = names path')
    (hfolder : leadsToFolder (segments path) = leadsToFolder (segments path')) (base : List Char) :
    joinPaths base path = joinPaths base path' := by
  obtain ⟨start, hstart⟩ := exists_removeDots_mergedSegments base
  rw [joinPaths_eq, joinPaths_eq, hstart hpath, hstart hpath', hnames, hfolder]

/-! ### References of plain characters -/

/-- After an authority a path is written with its leading slash. -/
theorem text_hostParts {authority : List Char} (h : authority ≠ []) (path : List Char) :
    (hostParts authority path).text = "file://".toList ++ authority ++ rooted path := by
  have hannounces : (hostParts authority path).announcesAuthority = true := by
    simp [Parts.announcesAuthority, hostParts, h]
  rw [Parts.text_eq rfl rfl, Parts.reread_of_announced hannounces]
  simp [hostParts, tail, marked]

/-- A leading slash that is missing is written in any case. -/
theorem text_hostParts_rooted (authority path : List Char) :
    (hostParts authority (rooted path)).text = (hostParts authority path).text := by
  cases path with
  | nil => rfl
  | cons c path =>
      by_cases hc : c = '/'
      · subst hc
        rfl
      · have hannounces : (hostParts authority (c :: path)).announcesAuthority = true :=
          Parts.announcesAuthority_of_file rfl (by simp [hostParts, Ne.symm hc])
        have hannounces' : (hostParts authority ('/' :: c :: path)).announcesAuthority = true :=
          Parts.announcesAuthority_of_file rfl (by simp [hostParts, Ne.symm hc])
        rw [rooted_of_ne hc, Parts.text_eq rfl rfl, Parts.text_eq rfl rfl,
          Parts.reread_of_announced hannounces, Parts.reread_of_announced hannounces']
        simp only [hostParts, rooted_of_ne hc]
        rfl

/-- What is left after an authority that is empty is rooted, if the reference is. -/
theorem head?_of_splitAuthority {ref path : List Char} (hplain : ∀ c ∈ ref, IsPlain c)
    (hhead : ref.head? = some '/') (h : splitAuthority ref = ([], path)) (hne : path ≠ []) :
    path.head? = some '/' := by
  rw [splitAuthority.eq_def] at h
  split at h
  · rename_i rest
    obtain ⟨htake, hdrop⟩ := Prod.mk.inj h
    cases rest with
    | nil => exact absurd hdrop.symm hne
    | cons c rest =>
        have hc := hplain c (by simp)
        by_cases hslash : c = '/'
        · rw [← hdrop, hslash]
          rfl
        · rw [List.takeWhile_cons_of_pos (by simp [hslash, hc.1, hc.2.1])] at htake
          exact absurd htake (List.cons_ne_nil _ _)
  · exact (Prod.mk.inj h).2 ▸ hhead

/-- **What a path of plain characters is resolved to** in a document on disk. -/
theorem joinChars?_plain {base ref : List Char} (hbase : "file:".toList <+: base)
    (hhead : ref.head? = some '/' ∨ ref.head? = some '.') (hplain : ∀ c ∈ ref, IsPlain c) :
    joinChars? base ref = (split? [] base).bind fun b =>
      if isAcceptable (splitAuthority ref).1 then some (Parts.text (
        if (splitAuthority ref).1 ≠ [] then hostParts (splitAuthority ref).1 (splitAuthority ref).2
        else if (splitAuthority ref).2 = [] then { b with fragment := [] }
        else hostParts b.authority (joinPaths b.path (splitAuthority ref).2)))
      else none := by
  have hne : base ≠ [] := by
    rintro rfl
    exact absurd hbase (by decide)
  have href : ref ≠ [] := by
    rintro rfl
    exact absurd hhead (by decide)
  rw [joinChars?, if_neg (by simpa using hne), if_neg (by simpa using href)]
  cases hb : split? [] base with
  | none => rfl
  | some b =>
      have hscheme : b.scheme = "file".toList := scheme_eq_file hbase hb
      obtain ⟨_, authority, path, params, query, fragment⟩ := b
      obtain rfl := hscheme
      have hrelative : isRelativeScheme ['f', 'i', 'l', 'e'] = true := by decide
      have hauthority : isAuthorityScheme ['f', 'i', 'l', 'e'] = true := by decide
      simp only [split?_plain hhead hplain, Option.bind_some]
      generalize (splitAuthority ref).1 = host, (splitAuthority ref).2 = rest
      by_cases hacceptable : isAcceptable host = true
      · simp only [hacceptable, if_true]
        by_cases hhost : host = []
        · by_cases hrest : rest = [] <;> simp [hostParts, hrelative, hauthority, hhost, hrest]
        · simp [hostParts, hrelative, hauthority, hhost]
      · simp [hacceptable]

/-! ### The last character of a place -/

/-- The path of a place ends in a slash if it is that of a directory. -/
theorem getLast?_placePath {names : List Segment} {isFolder : Bool}
    (h : ∀ seg ∈ names, Path.IsName seg) (hfile : isFolder = false → names ≠ []) :
    (placePath names isFolder).getLast? = some '/' ↔ isFolder = true := by
  cases isFolder with
  | true =>
      refine iff_of_true ?_ rfl
      by_cases hne : names = []
      · rw [hne]
        rfl
      · rw [placePath, if_pos rfl, folderPath_eq, ← Path.joinSegments_append_slash hne,
          ← List.cons_append, List.getLast?_concat]
  | false =>
      have hlast := Path.getLast?_joinSegments fun seg hseg =>
        ⟨(h seg hseg).ne_nil, (h seg hseg).no_slash⟩
      obtain ⟨seg, names, rfl⟩ := List.exists_cons_of_ne_nil (hfile rfl)
      obtain ⟨rest, hrest⟩ := Path.exists_joinSegments_cons seg names
      have hne : joinSegments (seg :: names) ≠ [] := by
        rw [hrest]
        exact fun hnil => (h seg List.mem_cons_self).ne_nil (List.append_eq_nil_iff.1 hnil).1
      rw [placePath, if_neg Bool.false_ne_true, List.getLast?_cons_of_ne_nil hne]
      exact iff_of_false hlast Bool.false_ne_true

/-- Relative paths that lead from the root to one place both lead to a directory, or none does. -/
theorem leadsToFolder_eq_of_rooted {path path' : List Char} (hpath : path.head? ≠ some '/')
    (hpath' : path'.head? ≠ some '/')
    (h : rooted (joinPaths ['/'] path) = rooted (joinPaths ['/'] path')) :
    leadsToFolder (segments path) = leadsToFolder (segments path') := by
  have hlast : ∀ {path : List Char}, path.head? ≠ some '/' →
      ((rooted (joinPaths ['/'] path)).getLast? = some '/' ↔
        leadsToFolder (segments path) = true) := by
    intro path hpath
    have hslash := @no_slash_of_mem_append [] (by simp) path
    rw [show (['/'] : List Char) = folderPath [] from rfl, rooted_joinPaths (by simp) hpath]
    exact getLast?_placePath (Path.isName_of_mem_reduce hslash)
      (reduce_append_ne_nil hslash (List.splitOn_ne_nil '/' path))
  rw [Bool.eq_iff_iff, ← hlast hpath, ← hlast hpath', h]

end Url

/-! ### Normal forms -/

namespace Path

/-- The normal form of a path is rooted as the path is. -/
theorem head?_normalizeChars (cs : List Char) :
    (normalizeChars cs).head? = some '/' ↔ cs.head? = some '/' := by
  by_cases hroot : cs.head? = some '/'
  · refine iff_of_true ?_ hroot
    obtain ⟨n, hn⟩ := Nat.exists_eq_succ_of_ne_zero (rootSlashes_pos hroot)
    rw [normalizeChars, hn, List.replicate_succ]
    rfl
  · refine iff_of_false ?_ hroot
    rw [normalizeChars, rootSlashes_eq_zero hroot]
    split
    · decide
    · exact head?_joinSegments fun seg hseg => ⟨(ne_of_mem_reduce hseg).1,
        not_mem_of_mem_segments (mem_of_mem_reduce hseg)⟩

end Path

namespace Target

variable {value : String}

/-- The normal form of a target is rooted as the target is. -/
theorem isRooted_normalize (value : String) : isRooted (normalize value) = isRooted value := by
  have hpath : isRooted (Path.normalize value) = isRooted value := by
    rw [Bool.eq_iff_iff, isRooted, isRooted, beq_iff_eq, beq_iff_eq, Path.normalize,
      String.toList_ofList, Path.head?_normalizeChars]
  have hslash : isRooted (withSlash (Path.normalize value)) = isRooted (Path.normalize value) := by
    rw [withSlash]
    split
    · rfl
    · have hne : (Path.normalize value).toList ≠ [] := by
        rw [Path.normalize, String.toList_ofList]
        exact Path.normalizeChars_ne_nil _
      rw [isRooted, isRooted, String.toList_append, List.head?_append_of_ne_nil _ hne]
  rw [normalize]
  split
  · rfl
  · split
    · rw [hslash, hpath]
    · exact hpath

/-! ### What targets stand for -/

open Url (split? splitAuthority isAcceptable hostParts joinPaths leadsToFolder rooted IsPlain)

/-- What a target stands for in a map on disk. -/
inductive Sense where
  /-- A URL. -/
  | itself (url : List Char)
  /-- A URL on disk that names its host. -/
  | hosted (url : List Char)
  /-- The URL of the map. -/
  | document
  /-- A path that is followed from the map. -/
  | followed (path : List Char)
  /-- A host that is not acceptable. -/
  | malformed
  deriving DecidableEq

/-- The reference that a target is resolved as, unless it is a URL. -/
def referenceOf (value : String) : List Char :=
  if isPathSpecifier value then value.toList else '.' :: '/' :: value.toList

/-- The sense of a target of plain characters. -/
def sense (value : String) : Sense :=
  if isLongUrl value then .itself value.toList
  else
    let (host, path) := splitAuthority (referenceOf value)
    if !isAcceptable host then .malformed
    else if host ≠ [] then .hosted (hostParts host path).text
    else if path = [] then .document
    else .followed path

/-- The URL that a sense denotes in a map whose URL has the parts `base?`, unless the host of one of
them is not acceptable. -/
def Sense.urlAt (base? : Option Url.Parts) : Sense → Option (List Char)
  | .itself url => some url
  | .hosted url => base?.map fun _ => url
  | .document => base?.map fun base => { base with fragment := [] : Url.Parts }.text
  | .followed path =>
      base?.map fun base => (hostParts base.authority (joinPaths base.path path)).text
  | .malformed => none

/-- A URL, or the fault that there is none. -/
def outcome : Option (List Char) → Except Error String
  | some url => .ok (String.ofList url)
  | none => .error .malformedUrl

theorem outcome_injective {url? url?' : Option (List Char)} (h : outcome url? = outcome url?') :
    url? = url?' := by
  cases url? with
  | none =>
      cases url?' with
      | none => rfl
      | some url' => exact absurd h (by simp [outcome])
  | some url =>
      cases url?' with
      | none => exact absurd h (by simp [outcome])
      | some url' =>
          have htext := congrArg String.toList (Except.ok.inj h)
          rw [String.toList_ofList, String.toList_ofList] at htext
          rw [htext]

theorem joinUrl_eq_outcome (base reference : String) :
    joinUrl base reference = outcome (Url.joinChars? base.toList reference.toList) := by
  rw [joinUrl, Url.join?]
  cases Url.joinChars? base.toList reference.toList <;> rfl

variable {base : String}

theorem head?_referenceOf (value : String) :
    (referenceOf value).head? = some '/' ∧ isRooted value = true ∨
      (referenceOf value).head? = some '.' ∧ isRooted value = false := by
  rw [referenceOf, isPathSpecifier]
  cases hroot : isRooted value with
  | true =>
      rw [Bool.or_true, if_pos rfl]
      exact Or.inl ⟨by simpa [isRooted] using hroot, rfl⟩
  | false =>
      cases hrelative : isRelative value with
      | true => exact Or.inr ⟨head?_of_isRelative hrelative, rfl⟩
      | false => exact Or.inr ⟨rfl, rfl⟩

theorem isPlain_referenceOf (hplain : ∀ c ∈ value.toList, IsPlain c) :
    ∀ c ∈ referenceOf value, IsPlain c := by
  rw [referenceOf]
  split
  · exact hplain
  · exact List.forall_mem_cons.2 ⟨⟨by decide, by decide, rfl⟩,
      List.forall_mem_cons.2 ⟨Url.isPlain_slash, hplain⟩⟩

/-- The names of a target are those of the reference that it is resolved as. -/
theorem names_referenceOf (value : String) : names (referenceOf value) = names value.toList := by
  rw [referenceOf]
  split
  · rfl
  · exact Path.names_dotSlash_append _

/-- A target that is no URL is resolved as a reference. -/
theorem mapUrl_of_not_isLongUrl (h : isLongUrl value = false) :
    mapUrl base value = outcome (Url.joinChars? base.toList (referenceOf value)) := by
  cases hpath : isPathSpecifier value with
  | true => rw [mapUrl_of_isPathSpecifier hpath, joinUrl_eq_outcome, referenceOf, if_pos hpath]
  | false =>
      have htext : ("./" ++ value).toList = '.' :: '/' :: value.toList := by
        rw [String.toList_append]
        rfl
      rw [referenceOf, hpath, if_neg Bool.false_ne_true, ← htext, ← joinUrl_eq_outcome, mapUrl,
        referenceUrl?, hpath, h]
      rfl

/-- **A target of plain characters denotes the URL of its sense** in every map on disk. -/
theorem mapUrl_eq_urlAt (hbase : isFileUrl base = true) (hplain : ∀ c ∈ value.toList, IsPlain c) :
    mapUrl base value = outcome ((sense value).urlAt (split? [] base.toList)) := by
  cases hlong : isLongUrl value with
  | true =>
      rw [mapUrl_of_isLongUrl hlong, sense, if_pos hlong]
      exact congrArg Except.ok String.ofList_toList.symm
  | false =>
      have hhead : (referenceOf value).head? = some '/' ∨ (referenceOf value).head? = some '.' :=
        (head?_referenceOf value).imp And.left And.left
      rw [mapUrl_of_not_isLongUrl hlong, Url.joinChars?_plain (List.isPrefixOf_iff_prefix.1 hbase)
        hhead (isPlain_referenceOf hplain), sense, hlong, if_neg Bool.false_ne_true]
      obtain ⟨host, path⟩ := splitAuthority (referenceOf value)
      simp only
      cases hacceptable : isAcceptable host with
      | false => simp [Sense.urlAt]
      | true =>
          by_cases hhost : host = []
          · by_cases hpath : path = []
            · simp [hhost, hpath, Sense.urlAt, Option.map_eq_bind]
            · simp [hhost, hpath, Sense.urlAt, Option.map_eq_bind]
          · simp [hhost, Sense.urlAt, Option.map_eq_bind]

/-! ### Senses told apart -/

namespace Sense

variable {s s' : Sense} {url : List Char}

/-- The parts of the URL of the root of a host. -/
def rootOf (host : List Char) : Option Url.Parts := some (hostParts host ['/'])

/-- The parts of such a URL with a query. -/
def queryOf (host query : List Char) : Option Url.Parts :=
  some { hostParts host ['/'] with query := query }

theorem urlAt_followed {host : List Char} (h : host ≠ []) (path : List Char) :
    (followed path).urlAt (rootOf host) =
      some ("file://".toList ++ host ++ rooted (joinPaths ['/'] path)) :=
  congrArg some (Url.text_hostParts h _)

/-- A URL is denoted even where the base is not acceptable. -/
theorem eq_itself_iff : s.urlAt none = some url ↔ s = itself url := by
  cases s <;> simp [urlAt]

/-- A host that is not acceptable is so everywhere. -/
theorem eq_malformed_iff : s.urlAt (rootOf ['h']) = none ↔ s = malformed := by
  cases s <;> simp [urlAt, rootOf]

/-- The query of the base is kept in its own URL alone. -/
theorem eq_document_iff :
    s.urlAt (rootOf ['h']) ≠ s.urlAt (queryOf ['h'] ['q']) ↔ s = document := by
  cases s with
  | document => simp [urlAt, rootOf, queryOf]; decide
  | itself | hosted | followed | malformed => simp [urlAt, rootOf, queryOf, hostParts]

/-- A URL with a host of its own has the same host everywhere, if the base is acceptable. -/
theorem eq_hosted_iff : (s.urlAt none = none ∧ s.urlAt (rootOf ['h']) = some url ∧
    s.urlAt (rootOf ['i']) = some url) ↔ s = hosted url := by
  cases s with
  | followed path =>
      refine iff_of_false (fun ⟨_, h, h'⟩ => ?_) (by simp)
      rw [urlAt_followed (List.cons_ne_nil _ _)] at h h'
      exact absurd (h.trans h'.symm) (by simp)
  | document =>
      refine iff_of_false (fun ⟨_, h, h'⟩ => ?_) (by simp)
      exact absurd (h.trans h'.symm) (by decide)
  | itself | hosted | malformed => simp [urlAt, rootOf]

/-- Senses that four maps do not tell apart: one whose URL is not acceptable, those at the roots of
two hosts, and one whose URL has a query. -/
structure Indistinct (s s' : Sense) : Prop where
  nowhere : s.urlAt none = s'.urlAt none
  root : s.urlAt (rootOf ['h']) = s'.urlAt (rootOf ['h'])
  host : s.urlAt (rootOf ['i']) = s'.urlAt (rootOf ['i'])
  query : s.urlAt (queryOf ['h'] ['q']) = s'.urlAt (queryOf ['h'] ['q'])

theorem Indistinct.symm (h : s.Indistinct s') : s'.Indistinct s :=
  ⟨h.nowhere.symm, h.root.symm, h.host.symm, h.query.symm⟩

/-- A sense that is no path is known by its URLs. -/
theorem Indistinct.eq_of_not_followed (h : s.Indistinct s') (hs : ∀ path, s ≠ followed path) :
    s' = s := by
  cases s with
  | itself url => exact eq_itself_iff.1 (h.nowhere ▸ eq_itself_iff.2 rfl)
  | malformed => exact eq_malformed_iff.1 (h.root ▸ eq_malformed_iff.2 rfl)
  | document =>
      refine eq_document_iff.1 ?_
      rw [← h.root, ← h.query]
      exact eq_document_iff.2 rfl
  | hosted url =>
      refine eq_hosted_iff.1 ?_
      rw [← h.nowhere, ← h.root, ← h.host]
      exact eq_hosted_iff.2 rfl
  | followed path => exact absurd rfl (hs path)

/-- **Senses that are not told apart are the same, or paths.** -/
theorem Indistinct.eq_or_followed (h : s.Indistinct s') :
    s = s' ∨ ∃ path path', s = followed path ∧ s' = followed path' := by
  by_cases hs : ∃ path, s = followed path
  · by_cases hs' : ∃ path', s' = followed path'
    · obtain ⟨path, rfl⟩ := hs
      obtain ⟨path', rfl⟩ := hs'
      exact Or.inr ⟨path, path', rfl, rfl⟩
    · exact Or.inl (h.symm.eq_of_not_followed (not_exists.1 hs'))
  · exact Or.inl (h.eq_of_not_followed (not_exists.1 hs)).symm

/-! ### Senses of targets with one normal form -/

/-- Senses that denote one URL in every map, if they are those of targets with one normal form. -/
inductive Alike : Sense → Sense → Prop where
  /-- Both are the same. -/
  | refl (s : Sense) : Alike s s
  /-- Both are relative paths, which lead to directories, or both to files. -/
  | relative {path path' : List Char} (hpath : path.head? ≠ some '/')
      (hpath' : path'.head? ≠ some '/')
      (h : leadsToFolder (segments path) = leadsToFolder (segments path')) :
      Alike (followed path) (followed path')
  /-- Both are rooted paths, which are the same when dots are followed. -/
  | rooted {path path' : List Char} (hpath : path.head? = some '/')
      (hpath' : path'.head? = some '/')
      (h : rooted (joinPaths ['/'] path) = rooted (joinPaths ['/'] path')) :
      Alike (followed path) (followed path')

/-- What one normal form says of two senses that are paths: both are rooted, or both are relative
and have the same names. -/
def Matched (s s' : Sense) : Prop :=
  ∀ path path', s = followed path → s' = followed path' →
    path.head? = some '/' ∧ path'.head? = some '/' ∨
      path.head? = some '.' ∧ path'.head? = some '.' ∧ names path = names path'

/-- **Senses that are alike denote one URL** in every map. -/
theorem Alike.urlAt_eq (h : s.Alike s') (hmatched : s.Matched s') (base? : Option Url.Parts) :
    s.urlAt base? = s'.urlAt base? := by
  cases h with
  | refl => rfl
  | relative hpath hpath' hfolder =>
      rcases hmatched _ _ rfl rfl with ⟨hslash, -⟩ | ⟨hdot, hdot', hnames⟩
      · exact absurd hslash hpath
      cases base? with
      | none => rfl
      | some base =>
          rw [urlAt, urlAt, Option.map_some, Option.map_some,
            Url.joinPaths_congr hdot hdot' hnames hfolder]
  | rooted hpath hpath' hjoin =>
      cases base? with
      | none => rfl
      | some base =>
          rw [urlAt, urlAt, Option.map_some, Option.map_some, ← Url.text_hostParts_rooted,
            ← Url.text_hostParts_rooted base.authority (joinPaths _ _),
            Url.joinPaths_of_rooted hpath _ ['/'], Url.joinPaths_of_rooted hpath' _ ['/'], hjoin]

/-- **Senses that are not told apart are alike.** -/
theorem Indistinct.alike (h : s.Indistinct s') (hmatched : s.Matched s') : s.Alike s' := by
  rcases h.eq_or_followed with rfl | ⟨path, path', rfl, rfl⟩
  · exact .refl s
  have hroot := h.root
  rw [urlAt_followed (List.cons_ne_nil _ _), urlAt_followed (List.cons_ne_nil _ _)] at hroot
  have hjoin := List.append_cancel_left (Option.some.inj hroot)
  rcases hmatched _ _ rfl rfl with ⟨hslash, hslash'⟩ | ⟨hdot, hdot', -⟩
  · exact .rooted hslash hslash' hjoin
  · have hpath : path.head? ≠ some '/' := by rw [hdot]; decide
    have hpath' : path'.head? ≠ some '/' := by rw [hdot']; decide
    exact .relative hpath hpath' (Url.leadsToFolder_eq_of_rooted hpath hpath' hjoin)

end Sense

/-! ### Targets that denote one URL -/

/-- A target that is a path names no host. -/
theorem splitAuthority_of_sense {path : List Char} (h : sense value = .followed path) :
    splitAuthority (referenceOf value) = ([], path) ∧ path ≠ [] := by
  rw [sense] at h
  split at h
  · exact absurd h (by simp)
  generalize splitAuthority (referenceOf value) = parts at h
  obtain ⟨host, rest⟩ := parts
  simp only at h
  split at h
  · exact absurd h (by simp)
  split at h
  · exact absurd h (by simp)
  rename_i hhost
  split at h
  · exact absurd h (by simp)
  rename_i hrest
  obtain rfl := Sense.followed.inj h
  exact ⟨by rw [not_not.1 hhost], hrest⟩

/-- A target that is a path is rooted as the path is; a relative one has the names of the path. -/
theorem followed_cases {path : List Char} (hplain : ∀ c ∈ value.toList, IsPlain c)
    (h : sense value = .followed path) :
    isRooted value = true ∧ path.head? = some '/' ∨
      isRooted value = false ∧ path.head? = some '.' ∧ names path = names value.toList := by
  obtain ⟨hsplit, hne⟩ := splitAuthority_of_sense h
  rcases head?_referenceOf value with ⟨hhead, hroot⟩ | ⟨hhead, hroot⟩
  · exact Or.inl ⟨hroot,
      Url.head?_of_splitAuthority (isPlain_referenceOf hplain) hhead hsplit hne⟩
  · obtain ⟨rest, hrest⟩ := List.head?_eq_some_iff.1 hhead
    have hpath : referenceOf value = path := by
      rw [hrest] at hsplit ⊢
      exact (Prod.mk.inj hsplit).2
    exact Or.inr ⟨hroot, hpath ▸ hhead, hpath ▸ names_referenceOf value⟩

theorem matched_of_normalize_eq {value' : String} (hplain : ∀ c ∈ value.toList, IsPlain c)
    (hplain' : ∀ c ∈ value'.toList, IsPlain c) (h : normalize value = normalize value') :
    (sense value).Matched (sense value') := by
  have hroot : isRooted value = isRooted value' := by
    rw [← isRooted_normalize value, h, isRooted_normalize value']
  have hnames : ∀ {value : String}, isRooted value = false →
      names (normalize value).toList = names value.toList :=
    fun {value} hroot => names_normalize (by simpa [isRooted] using hroot)
  intro path path' hpath hpath'
  rcases followed_cases hplain hpath with ⟨hv, hhead⟩ | ⟨hv, hhead, heq⟩ <;>
    rcases followed_cases hplain' hpath' with ⟨hv', hhead'⟩ | ⟨hv', hhead', heq'⟩
  · exact Or.inl ⟨hhead, hhead'⟩
  · exact absurd (hv.symm.trans (hroot.trans hv')) (by decide)
  · exact absurd (hv.symm.trans (hroot.trans hv')) (by decide)
  · exact Or.inr ⟨hhead, hhead', by rw [heq, heq', ← hnames hv, h, hnames hv']⟩

/-- **When targets with one normal form denote one URL** in every map on disk: when they have the
same sense, or when both are paths that go the same way. -/
theorem mapUrl_eq_iff_alike {value' : String} (hplain : ∀ c ∈ value.toList, IsPlain c)
    (hplain' : ∀ c ∈ value'.toList, IsPlain c) (h : normalize value = normalize value') :
    (∀ base, isFileUrl base = true → mapUrl base value = mapUrl base value') ↔
      (sense value).Alike (sense value') := by
  have hmatched := matched_of_normalize_eq hplain hplain' h
  constructor
  · intro hurl
    have hparts : ∀ base, isFileUrl base = true → (sense value).urlAt (split? [] base.toList) =
        (sense value').urlAt (split? [] base.toList) := by
      intro base hbase
      have heq := hurl base hbase
      rw [mapUrl_eq_urlAt hbase hplain, mapUrl_eq_urlAt hbase hplain'] at heq
      exact outcome_injective heq
    have hnone : split? [] "file://[".toList = none := by decide
    have hroot : split? [] "file://h/".toList = Sense.rootOf ['h'] := by decide
    have hhost : split? [] "file://i/".toList = Sense.rootOf ['i'] := by decide
    have hquery : split? [] "file://h/?q".toList = Sense.queryOf ['h'] ['q'] := by decide
    have hindistinct : (sense value).Indistinct (sense value') :=
      ⟨hnone ▸ hparts "file://[" (by decide), hroot ▸ hparts "file://h/" (by decide),
        hhost ▸ hparts "file://i/" (by decide), hquery ▸ hparts "file://h/?q" (by decide)⟩
    exact hindistinct.alike hmatched
  · intro halike base hbase
    rw [mapUrl_eq_urlAt hbase hplain, mapUrl_eq_urlAt hbase hplain', halike.urlAt_eq hmatched]

/-- A target that takes a detour through another folder, and one that does not. -/
theorem mapUrl_eq_iff_alike_detour :
    normalize "lib/../m.js" = normalize "./m.js" ∧
      ∀ base, isFileUrl base = true → mapUrl base "lib/../m.js" = mapUrl base "./m.js" := by
  have hnormal : normalize "lib/../m.js" = normalize "./m.js" := by decide +kernel
  have hsense : sense "lib/../m.js" = .followed "./lib/../m.js".toList := by decide +kernel
  have hsense' : sense "./m.js" = .followed "./m.js".toList := by decide +kernel
  have halike : (sense "lib/../m.js").Alike (sense "./m.js") := by
    rw [hsense, hsense']
    exact .relative (by decide) (by decide) (by decide)
  have hplain : ∀ c ∈ "lib/../m.js".toList, IsPlain c := by simp [IsPlain, Url.isBreak]
  have hplain' : ∀ c ∈ "./m.js".toList, IsPlain c := by simp [IsPlain, Url.isBreak]
  exact ⟨hnormal, (mapUrl_eq_iff_alike hplain hplain' hnormal).2 halike⟩

/-- A dot at the end, a colon in the name of a file and a doubled slash: the normal forms are the
same, the URLs are not. -/
theorem mapUrl_ne_of_normalize_eq :
    (normalize "./lib/." = normalize "./lib" ∧
      mapUrl "file:///p/" "./lib/." = .ok "file:///p/lib/" ∧
      mapUrl "file:///p/" "./lib" = .ok "file:///p/lib") ∧
    (normalize "./ab:c" = normalize "ab:c" ∧
      mapUrl "file:///p/" "./ab:c" = .ok "file:///p/ab:c" ∧
      mapUrl "file:///p/" "ab:c" = .ok "ab:c") ∧
    normalize "/a//b" = normalize "/a/b" ∧
      mapUrl "file:///p/" "/a//b" = .ok "file:///a//b" ∧
      mapUrl "file:///p/" "/a/b" = .ok "file:///a/b" :=
  ⟨⟨by decide +kernel, Resolver.eq_ok_of_toOption (by decide +kernel),
      Resolver.eq_ok_of_toOption (by decide +kernel)⟩,
    ⟨by decide +kernel, Resolver.eq_ok_of_toOption (by decide +kernel),
      Resolver.eq_ok_of_toOption (by decide +kernel)⟩,
    by decide +kernel, Resolver.eq_ok_of_toOption (by decide +kernel),
    Resolver.eq_ok_of_toOption (by decide +kernel)⟩

end Target

end ImportAtlas
