import ImportAtlas.Proofs.Weight

/-!
# Files of mapped values

A value of a map is a reference: a URL takes of it what stands before its query and its fragment,
and the file that the URL names is found by reading escapes. So a value denotes the place that its
segments lead to if it is taken as it is written. Otherwise it denotes a path that is shorter: what
is cut off or left out is lost, and an escape is read as less than it is written with.

## Summary

* `Url.pathText` is what a URL takes for the path of a reference.
* `fileOf` is the file that a value denotes in a directory.
* `Verbatim` values are taken as they are written.

## Main results

* `exists_filePathOf_mapUrl`: where a value leads.
* `fileOf_of_verbatim`: a value that is taken as it is written denotes its place.
* `weight_parts_fileOf_lt`: any other value denotes a shorter path.
-/

namespace ImportAtlas

namespace Url

open Path (IsName here up reduce segments joinSegments weight)

variable {names : List Segment} {ref : List Char}

/-! ### References of any characters -/

/-- What a URL takes for the path of a reference: what stands before its query and its fragment,
without tabs and line breaks. -/
def pathText (ref : List Char) : List Char :=
  ((ref.filter fun c => !isBreak c).takeWhile (· ≠ '#')).takeWhile (· ≠ '?')

theorem pathText_cons {c : Char} (h : IsPlain c) (ref : List Char) :
    pathText (c :: ref) = c :: pathText ref := by
  obtain ⟨hquery, hfragment, hbreak⟩ := h
  rw [pathText, List.filter_cons_of_pos (by simpa using hbreak),
    List.takeWhile_cons_of_pos (by simpa using hfragment),
    List.takeWhile_cons_of_pos (by simpa using hquery), pathText]

/-- Plain references are paths. -/
theorem pathText_eq_self (h : ∀ c ∈ ref, IsPlain c) : pathText ref = ref := by
  induction ref with
  | nil => rfl
  | cons c ref ih =>
      obtain ⟨hc, href⟩ := List.forall_mem_cons.1 h
      rw [pathText_cons hc, ih href]

theorem isPlain_of_mem_pathText {c : Char} (h : c ∈ pathText ref) : IsPlain c := by
  have hfront := (List.takeWhile_sublist _).subset h
  have hclean := (List.takeWhile_sublist _).subset hfront
  exact ⟨by simpa using List.mem_takeWhile_imp h, by simpa using List.mem_takeWhile_imp hfront,
    by simpa using (List.mem_filter.1 hclean).2⟩

theorem pathText_sublist (ref : List Char) : (pathText ref).Sublist ref :=
  (List.takeWhile_sublist _).trans ((List.takeWhile_sublist _).trans List.filter_sublist)

/-- **A reference that is not plain loses a part of its path.** -/
theorem weight_pathText_lt (hhere : here ∉ segments ref) (h : ¬ ∀ c ∈ ref, IsPlain c) :
    weight List.length (segments (pathText ref)) < weight List.length (segments ref) := by
  have hplain : (pathText ref).Sublist (ref.filter fun c => decide (IsPlain c)) := by
    have hsub := (pathText_sublist ref).filter fun c => decide (IsPlain c)
    rwa [List.filter_eq_self.2 fun c hc => decide_eq_true (isPlain_of_mem_pathText hc)] at hsub
  obtain ⟨c, hc, hlost⟩ : ∃ c ∈ ref, ¬ IsPlain c := by simpa using h
  have hslash : c ≠ '/' := fun heq => hlost (heq ▸ isPlain_slash)
  have hrest : 0 < (ref.filter fun c => !decide (IsPlain c)).countP (· ≠ '/') :=
    List.countP_pos_iff.2 ⟨c, List.mem_filter.2 ⟨hc, by simpa using hlost⟩, by simpa using hslash⟩
  have hsum := List.countP_eq_countP_filter_add ref (fun c => decide (c ≠ '/'))
    fun c => decide (IsPlain c)
  calc weight List.length (segments (pathText ref))
      ≤ (pathText ref).countP (· ≠ '/') := Path.weight_segments_le _
    _ ≤ (ref.filter fun c => decide (IsPlain c)).countP (· ≠ '/') := hplain.countP_le
    _ < ref.countP (· ≠ '/') := by omega
    _ = weight List.length (segments ref) := (Path.weight_segments_eq hhere).symm

/-- A reference that begins with a dot has no authority. -/
theorem split?_of_dot {scheme : List Char} (hfile : scheme = "file".toList)
    (hdot : ref.head? = some '.') : ∃ r, split? scheme ref = some r ∧ r.scheme = "file".toList ∧
      r.authority = [] ∧ r.params = [] ∧ r.path = pathText ref := by
  subst hfile
  obtain ⟨rest, rfl⟩ := List.head?_eq_some_iff.1 hdot
  have hscheme : splitScheme "file".toList (cleanUrl ('.' :: rest)) =
      ("file".toList, '.' :: rest.filter fun c => !isBreak c) :=
    splitScheme_cleanUrl_path (Or.inr rfl) _
  refine ⟨_, (split?_eq_ite_of_file hscheme).trans (if_pos rfl), rfl, rfl, rfl, ?_⟩
  rw [pathText, List.filter_cons_of_pos rfl]
  rfl

/-- **A reference is followed in a directory as far as it is a path.** -/
theorem exists_joinChars?_folder (h : ∀ seg ∈ names, IsName seg)
    (hnames : ∀ seg ∈ names, ∀ c ∈ seg, IsPlain c) (hdot : ref.head? = some '.') :
    ∃ url parts, joinChars? ("file://".toList ++ folderPath names) ref = some url ∧
      split? [] url = some parts ∧
      parts.path = placePath (reduce true (names ++ segments (pathText ref)))
        (leadsToFolder (segments (pathText ref))) := by
  obtain ⟨r, hr, hscheme, hauthority, hparams, hpath⟩ := split?_of_dot rfl hdot
  obtain ⟨rest, hrest⟩ := List.head?_eq_some_iff.1 hdot
  have hhead : (pathText ref).head? = some '.' := by
    rw [hrest, pathText_cons ⟨by decide, by decide, rfl⟩]
    rfl
  have hne : r.path ≠ [] := fun hnil => by simp [← hpath, hnil] at hhead
  have hhead' : (pathText ref).head? ≠ some '/' := by rw [hhead]; decide
  have hbase : split? [] ("file://".toList ++ folderPath names) =
      some (pathParts (folderPath names)) := split?_path (isPlain_folderPath hnames) rfl []
  have hjoin := joinChars?_of_split hnames (by simp [hrest]) hr hscheme hauthority hne
  rw [hpath] at hjoin
  let p : Parts := { r with
    authority := [], path := joinPaths (folderPath names) (pathText ref) }
  have htame : p.Tame (max ("file://".toList ++ folderPath names).length ref.length) := by
    obtain ⟨hb, -⟩ := parts_of_ref hbase rfl (Nat.le_max_left _ ref.length)
    obtain ⟨hr', hsub⟩ := parts_of_ref hr hscheme (Nat.le_max_right _ ref.length)
    have hjoined : Parts.Joined (pathParts (folderPath names)) r p :=
      ⟨rfl, Or.inr rfl, Or.inr hauthority.symm, Or.inr (Or.inr (by rw [hpath]; rfl)), Or.inr rfl,
        rfl⟩
    exact hjoined.tame hb hr' (hsub.length_le.trans (Nat.le_max_right _ _))
  have hannounces : p.announcesAuthority = true :=
    Parts.announcesAuthority_of_file hscheme (not_slashes_joinPaths h hhead')
  refine ⟨p.text, { p with path := rooted p.path }, hjoin, ?_, rooted_joinPaths h hhead'⟩
  rw [split?_text htame, Parts.reread_of_announced hannounces]
  rfl

/-! ### Reading the path of a place -/

@[simp] theorem decode_nil : decode [] = [] := decode_eq_self List.not_mem_nil

theorem decode_slash_cons (cs : List Char) : decode ('/' :: cs) = '/' :: decode cs := by
  have hslash := decode_slash [] cs
  rwa [decode_nil] at hslash

/-- The path of a place is read name by name. -/
theorem decode_placePath (names : List Segment) (isFolder : Bool) :
    decode (placePath names isFolder) = placePath (names.map decode) isFolder := by
  have hjoin : ∀ segs : List Segment, decode (joinSegments segs) = joinSegments (segs.map decode) :=
    decode_intercalate
  cases isFolder with
  | true =>
      simp only [placePath, if_true, folderPath_eq, decode_slash_cons, hjoin, List.map_append,
        List.map_singleton, decode_nil]
  | false =>
      simp only [placePath, Bool.false_eq_true, if_false, decode_slash_cons, hjoin]

/-- No segment grows when it is read, so none changes if the whole path does not. -/
theorem decode_eq_of_joinSegments {segs : List Segment}
    (h : joinSegments (segs.map decode) = joinSegments segs) : ∀ seg ∈ segs, decode seg = seg := by
  induction segs with
  | nil => exact fun _ hseg => absurd hseg List.not_mem_nil
  | cons seg segs ih =>
      by_cases hne : segs = []
      · subst hne
        rw [List.map_singleton, Path.joinSegments_singleton, Path.joinSegments_singleton] at h
        exact List.forall_mem_singleton.2 h
      · rw [List.map_cons, Path.joinSegments_cons (by simpa using hne),
          Path.joinSegments_cons hne] at h
        have hfirst := length_decode_le seg
        have hrest := length_decode_le (joinSegments segs)
        have hmap : decode (joinSegments segs) = joinSegments (segs.map decode) :=
          decode_intercalate segs
        rw [hmap] at hrest
        have hlength := congrArg List.length h
        simp only [List.length_append, List.length_cons] at hlength
        obtain ⟨hseg, hslash⟩ := List.append_inj h (by omega)
        exact List.forall_mem_cons.2 ⟨hseg, ih (List.cons.inj hslash).2⟩

/-- The segments of a text without escapes are without escapes. -/
theorem decode_segment_eq_self {cs : List Char} (h : decode cs = cs) :
    ∀ seg ∈ segments cs, decode seg = seg := by
  refine decode_eq_of_joinSegments ?_
  have hmap : decode (joinSegments (segments cs)) = joinSegments ((segments cs).map decode) :=
    decode_intercalate _
  have hself : joinSegments (segments cs) = cs := List.intercalate_splitOn '/'
  rw [← hmap, hself, h]

/-- A text with an escape has one in some segment. -/
theorem exists_decode_segment_ne {cs : List Char} (h : decode cs ≠ cs) :
    ∃ seg ∈ segments cs, decode seg ≠ seg := by
  by_contra hnot
  push Not at hnot
  have hself : (segments cs).map decode = segments cs :=
    (List.map_congr_left hnot).trans (List.map_id _)
  have hjoin := decode_intercalate (segments cs)
  rw [hself, segments, List.intercalate_splitOn] at hjoin
  exact h hjoin

end Url

namespace Path

open Url (placePath folderPath decode)

/-- A function that maps a segment to one that is followed in the same way. -/
def KeepsKind (f : Segment → Segment) (seg : Segment) : Prop :=
  (f seg = [] ↔ seg = []) ∧ (f seg = here ↔ seg = here) ∧ (f seg = up ↔ seg = up)

theorem map_push {f : Segment → Segment} {rooted : Bool} {stack : List Segment} {seg : Segment}
    (hseg : KeepsKind f seg) (hstack : ∀ other ∈ stack, KeepsKind f other) :
    (push rooted stack seg).map f = push rooted (stack.map f) (f seg) := by
  obtain ⟨hnil, hhere, hup⟩ := hseg
  by_cases hskip : seg = [] ∨ seg = here
  · rw [push_of_skip hskip, push_of_skip (hskip.imp hnil.2 hhere.2)]
  have hname := not_or.1 hskip
  have hname' : f seg ≠ [] ∧ f seg ≠ here := ⟨mt hnil.1 hname.1, mt hhere.1 hname.2⟩
  by_cases heq : seg = up
  · have hf : f up = up := by rw [← heq, hup.2 heq, heq]
    rw [heq, hf, push_up, push_up]
    cases stack with
    | nil =>
        cases rooted with
        | true => rfl
        | false => exact congrArg (fun other => [other]) hf
    | cons top below =>
        simp only [List.map_cons, (hstack top List.mem_cons_self).2.2]
        split
        · rw [List.map_cons, List.map_cons, hf]
        · rfl
  · rw [push_of_name hname.1 hname.2 heq, push_of_name hname'.1 hname'.2 (mt hup.1 heq),
      List.map_cons]

theorem map_foldl_push {f : Segment → Segment} {rooted : Bool} {segs stack : List Segment}
    (h : ∀ seg ∈ segs, KeepsKind f seg) (hstack : ∀ other ∈ stack, KeepsKind f other) :
    (segs.foldl (push rooted) stack).map f = (segs.map f).foldl (push rooted) (stack.map f) := by
  induction segs generalizing stack with
  | nil => rfl
  | cons seg segs ih =>
      obtain ⟨hseg, hsegs⟩ := List.forall_mem_cons.1 h
      rw [List.foldl_cons, List.map_cons, List.foldl_cons, ← map_push hseg hstack]
      refine ih hsegs fun other hother => ?_
      rcases mem_push hother with rfl | hmem
      · exact hseg
      · exact hstack other hmem

/-- Following segments and replacing them by ones that are followed alike is the same. -/
theorem map_reduce {f : Segment → Segment} {rooted : Bool} {segs : List Segment}
    (h : ∀ seg ∈ segs, KeepsKind f seg) :
    (reduce rooted segs).map f = reduce rooted (segs.map f) := by
  rw [reduce, List.map_reverse, map_foldl_push h fun _ hmem => absurd hmem List.not_mem_nil,
    List.map_nil, reduce]

variable {names : List Segment}

/-- The path of a place has the names of the place. -/
theorem filter_segments_placePath (h : ∀ seg ∈ names, '/' ∉ seg) (isFolder : Bool) :
    (segments (placePath names isFolder)).filter isPart = names.filter isPart := by
  cases isFolder with
  | true =>
      have hslash : ∀ seg ∈ names ++ [[]], '/' ∉ seg := by
        intro seg hseg
        rcases List.mem_append.1 hseg with hseg | hseg
        · exact h seg hseg
        · rw [List.mem_singleton.1 hseg]
          exact List.not_mem_nil
      rw [placePath, if_pos rfl, Url.folderPath_eq, filter_segments_slash,
        filter_segments_joinSegments hslash, List.filter_append]
      simp [isPart]
  | false =>
      rw [placePath, if_neg Bool.false_ne_true, filter_segments_slash,
        filter_segments_joinSegments h]

theorem filter_isPart_names (h : ∀ seg ∈ names, IsName seg) : names.filter isPart = names :=
  List.filter_eq_self.2 fun seg hseg => by simp [isPart, (h seg hseg).ne_nil, (h seg hseg).ne_here]

/-- The path of a place, as messages show it. -/
theorem squeeze_placePath (h : ∀ seg ∈ names, IsName seg) (isFolder : Bool) :
    squeeze (String.ofList (placePath names isFolder)) = ofNames names := by
  have hroot : rootSlashes (placePath names isFolder) = 1 := by
    obtain ⟨rest, hrest⟩ : ∃ rest, placePath names isFolder = '/' :: rest := by
      cases isFolder <;> exact ⟨_, rfl⟩
    have hslashes := Url.not_slashes_placePath h isFolder
    rw [hrest] at hslashes ⊢
    refine rootSlashes_eq_one fun hhead => hslashes ?_
    obtain ⟨more, rfl⟩ := List.head?_eq_some_iff.1 hhead
    exact ⟨more, rfl⟩
  rw [squeeze, parts_eq, String.toList_ofList,
    filter_segments_placePath (fun seg hseg => (h seg hseg).no_slash), filter_isPart_names h, hroot,
    ofNames]
  rfl

end Path

/-! ### Files of mapped values -/

section Files

open Path (IsName here up reduce segments weight isPart)
open Url (decode placePath leadsToFolder pathText)

/-- The path of the file that a value denotes in the directory with some names on the way to it. -/
def fileOf (names : List Path.Segment) (value : String) : String :=
  Path.squeeze (String.ofList (decode (placePath
    (reduce true (encodeNames names ++ segments (pathText value.toList)))
    (leadsToFolder (segments (pathText value.toList))))))

/-- A value that a URL takes as it is written. -/
def Verbatim (value : String) : Prop :=
  (∀ c ∈ value.toList, Url.IsPlain c) ∧ decode value.toList = value.toList

instance (value : String) : Decidable (Verbatim value) :=
  decidable_of_iff ((value.toList.all fun c => decide (Url.IsPlain c)) = true ∧
    decode value.toList = value.toList) (by simp [Verbatim])

variable {names : List Path.Segment} {value : String}

/-- **Where a mapped value leads.** -/
theorem exists_filePathOf_mapUrl (h : ∀ seg ∈ names, IsName seg)
    (hdot : value.toList.head? = some '.') (hpath : isPathSpecifier value = true) :
    ∃ url, mapUrl (directoryUrl (encodeNames names)) value = .ok url ∧
      filePathOf url = .ok (fileOf names value) := by
  obtain ⟨url, parts, hjoin, hsplit, hplace⟩ := Url.exists_joinChars?_folder
    (isName_of_mem_encodeNames h) isPlain_of_mem_encodeNames hdot
  rw [← toList_directoryUrl] at hjoin
  refine ⟨String.ofList url, ?_, ?_⟩
  · rw [mapUrl_of_isPathSpecifier hpath, joinUrl, Url.join?, hjoin]
    rfl
  · rw [filePathOf, Url.filePath?, String.toList_ofList, hsplit, Option.map_some, hplace, fileOf]

/-- Names that are escaped are read back. -/
theorem map_decode_encodeNames (names : List Path.Segment) :
    (encodeNames names).map decode = names := by
  rw [encodeNames, List.map_map]
  exact (List.map_congr_left fun seg _ => Url.decode_flatMap_encodeChar seg).trans (List.map_id _)

theorem weight_decode_encodeNames (h : ∀ seg ∈ names, IsName seg) :
    weight (fun seg => (decode seg).length) (encodeNames names) = weight List.length names := by
  induction names with
  | nil => rfl
  | cons seg names ih =>
      obtain ⟨hseg, hnames⟩ := List.forall_mem_cons.1 h
      have hcons : encodeNames (seg :: names) = seg.flatMap Url.encodeChar :: encodeNames names :=
        List.map_cons
      rw [hcons, Path.weight_cons_of_ne (isName_flatMap_encodeChar hseg).ne_here,
        Path.weight_cons_of_ne hseg.ne_here, ih hnames, Url.decode_flatMap_encodeChar]

/-- **A value that is taken as it is written denotes the place that its segments lead to.** -/
theorem fileOf_of_verbatim (h : ∀ seg ∈ names, IsName seg) (hvalue : Verbatim value) :
    fileOf names value = Path.ofNames (reduce true (names ++ Path.parts value)) := by
  have hslash : ∀ seg ∈ names ++ segments value.toList, '/' ∉ seg :=
    Url.no_slash_of_mem_append h value.toList
  have hself := Url.decode_segment_eq_self hvalue.2
  have hkind : ∀ seg ∈ encodeNames names ++ segments value.toList, Path.KeepsKind decode seg := by
    intro seg hseg
    rcases List.mem_append.1 hseg with hseg | hseg
    · obtain ⟨name, hname, rfl⟩ := List.mem_map.1 hseg
      have hescaped := isName_flatMap_encodeChar (h name hname)
      rw [Path.KeepsKind, Url.decode_flatMap_encodeChar]
      exact ⟨iff_of_false (h name hname).ne_nil hescaped.ne_nil,
        iff_of_false (h name hname).ne_here hescaped.ne_here,
        iff_of_false (h name hname).ne_up hescaped.ne_up⟩
    · rw [Path.KeepsKind, hself seg hseg]
      exact ⟨Iff.rfl, Iff.rfl, Iff.rfl⟩
  have hmap : (segments value.toList).map decode = segments value.toList :=
    (List.map_congr_left hself).trans (List.map_id _)
  rw [fileOf, Url.pathText_eq_self hvalue.1, Url.decode_placePath, Path.map_reduce hkind,
    List.map_append, map_decode_encodeNames, hmap,
    Path.squeeze_placePath (Path.isName_of_mem_reduce hslash), Path.parts_eq,
    Path.reduce_append_filter_isPart]

/-- A segment that reads as several weighs no more for being split. -/
theorem weight_flatMap_decode_le (segs : List Path.Segment) :
    weight List.length (segs.flatMap fun seg => (decode seg).splitOn '/') ≤
      weight (fun seg => (decode seg).length) segs := by
  induction segs with
  | nil => exact Nat.le_refl _
  | cons seg segs ih =>
      rw [List.flatMap_cons, Path.weight_append]
      by_cases hhere : seg = here
      · have hdot : decode here = here := Url.decode_eq_self (by decide)
        rw [hhere, hdot, Path.weight_here_cons]
        exact (Nat.zero_add _).trans_le ih
      · rw [Path.weight_cons_of_ne hhere]
        refine Nat.add_le_add ?_ ih
        exact (Path.weight_segments_le (decode seg)).trans List.countP_le_length

/-- What is read of a place weighs no more than its names, read one by one. -/
theorem weight_parts_decode_le {segs : List Path.Segment} (h : ∀ seg ∈ segs, '/' ∉ seg)
    (isFolder : Bool) :
    weight List.length (Path.parts (String.ofList (decode (placePath segs isFolder)))) ≤
      weight (fun seg => (decode seg).length) segs := by
  rw [Path.parts_eq, String.toList_ofList, Path.weight_filter_isPart rfl, segments,
    Url.splitOn_decode]
  refine (weight_flatMap_decode_le _).trans (Nat.le_of_eq ?_)
  have hfilter := @Path.weight_filter_isPart (fun seg => (decode seg).length) (by simp)
  have hplace := Path.filter_segments_placePath h isFolder
  rw [segments] at hplace
  rw [← hfilter, hplace, hfilter]

/-- **What is read of a value that is not taken as it is written weighs less than the value.** -/
theorem weight_decode_pathText_lt {body : List Char}
    (hbody : value.toList = body ∨ value.toList = '.' :: '/' :: body)
    (hhere : here ∉ segments body) (hvalue : ¬ Verbatim value) :
    weight (fun seg => (decode seg).length) (segments (pathText value.toList)) <
      weight List.length (segments value.toList) := by
  by_cases hplain : ∀ c ∈ value.toList, Url.IsPlain c
  · -- Some segment has an escape.
    obtain ⟨seg, hseg, hne⟩ := Url.exists_decode_segment_ne fun hself => hvalue ⟨hplain, hself⟩
    rw [Url.pathText_eq_self hplain]
    refine Path.weight_lt_weight (fun seg _ => Url.length_decode_le seg) hseg ?_
      ((Url.decode_cases seg).resolve_left hne)
    rintro rfl
    exact hne (Url.decode_eq_self (by decide))
  · -- Something is cut off or left out.
    refine (Path.weight_le_weight fun seg _ => Url.length_decode_le seg).trans_lt ?_
    rcases hbody with hbody | hbody
    · rw [hbody] at hplain ⊢
      exact Url.weight_pathText_lt hhere hplain
    · have hdot : Url.IsPlain '.' := ⟨by decide, by decide, rfl⟩
      have hrest : ¬ ∀ c ∈ body, Url.IsPlain c := fun hall => hplain (by
        rw [hbody]
        exact List.forall_mem_cons.2 ⟨hdot, List.forall_mem_cons.2 ⟨Url.isPlain_slash, hall⟩⟩)
      rw [hbody, Url.pathText_cons hdot, Url.pathText_cons Url.isPlain_slash,
        Path.segments_dotSlash, Path.segments_dotSlash, Path.weight_here_cons,
        Path.weight_here_cons]
      exact Url.weight_pathText_lt hhere hrest

/-- **A value that is not taken as it is written denotes a shorter path.** -/
theorem weight_parts_fileOf_lt (h : ∀ seg ∈ names, IsName seg) {body : List Char}
    (hbody : value.toList = body ∨ value.toList = '.' :: '/' :: body)
    (hhere : here ∉ segments body) (hvalue : ¬ Verbatim value) :
    weight List.length (Path.parts (fileOf names value)) <
      weight List.length names + weight List.length (Path.parts value) := by
  have hslash := Url.no_slash_of_mem_append (isName_of_mem_encodeNames h) (pathText value.toList)
  have hsub := Path.reduce_sublist true
    (encodeNames names ++ segments (pathText value.toList))
  have hplace : ∀ seg ∈ reduce true (encodeNames names ++ segments (pathText value.toList)),
      '/' ∉ seg := fun seg hseg => hslash seg (hsub.subset hseg)
  rw [fileOf, Path.parts_squeeze, Path.parts_eq value, Path.weight_filter_isPart rfl]
  calc weight List.length (Path.parts (String.ofList (decode (placePath _ _))))
      ≤ weight (fun seg => (decode seg).length)
          (reduce true (encodeNames names ++ segments (pathText value.toList))) :=
        weight_parts_decode_le hplace _
    _ ≤ weight (fun seg => (decode seg).length)
          (encodeNames names ++ segments (pathText value.toList)) := Path.weight_le_of_sublist hsub
    _ < weight List.length names + weight List.length (segments value.toList) := by
        rw [Path.weight_append, weight_decode_encodeNames h]
        exact Nat.add_lt_add_left (weight_decode_pathText_lt hbody hhere hvalue) _

end Files

end ImportAtlas
