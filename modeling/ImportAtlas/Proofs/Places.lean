import ImportAtlas.Proofs.Escaping
import ImportAtlas.Proofs.FolderUrls
import ImportAtlas.Proofs.References

/-!
# Where references lead

A reference of plain characters leads from a directory to the place that its segments lead to when
they are followed through the file tree: the URL and the path calculus agree. The URL ends in a
slash exactly when the last segment of the reference names no file.

## Summary

* `Path.IsName` are the segments that reducing leaves.
* `Url.placePath` is the path of a place in a URL.

## Main results

* `Path.absolute_normalize_join`: where a path below a directory leads.
* `Url.rooted_joinPaths`: following a path in a URL and in the file tree is the same.
* `mapUrl_directoryUrl`: the URL that a plain value of a map denotes.
* `folderUrl_eq_encoded`: the URL of a directory.
-/

namespace ImportAtlas

namespace Path

/-! ### Names -/

/-- A segment that stands for itself. -/
structure IsName (seg : Segment) : Prop where
  ne_nil : seg ≠ []
  ne_here : seg ≠ here
  ne_up : seg ≠ up
  no_slash : '/' ∉ seg

/-- Names are pushed one after the other. -/
theorem foldl_push_names (rooted : Bool) {names : List Segment} (h : ∀ seg ∈ names, IsName seg)
    (stack : List Segment) : names.foldl (push rooted) stack = names.reverse ++ stack := by
  induction names generalizing stack with
  | nil => rfl
  | cons seg names ih =>
      obtain ⟨hseg, hnames⟩ := List.forall_mem_cons.1 h
      rw [List.foldl_cons, push_of_name hseg.ne_nil hseg.ne_here hseg.ne_up, ih hnames,
        List.reverse_cons, List.append_assoc, List.singleton_append]

/-- In a rooted path every segment that is left is a name. -/
theorem isName_push {stack : List Segment} {seg : Segment} (h : ∀ other ∈ stack, IsName other)
    (hslash : '/' ∉ seg) : ∀ other ∈ push true stack seg, IsName other := by
  rw [push.eq_def]
  split
  · exact h
  · rename_i hskip
    split
    · cases stack with
      | nil => exact h
      | cons top below =>
          obtain ⟨htop, hbelow⟩ := List.forall_mem_cons.1 h
          simp only [htop.ne_up, if_false]
          exact hbelow
    · rename_i hup
      rw [not_or] at hskip
      exact List.forall_mem_cons.2 ⟨⟨hskip.1, hskip.2, hup, hslash⟩, h⟩

theorem isName_foldl_push {segs stack : List Segment} (h : ∀ other ∈ stack, IsName other)
    (hslash : ∀ seg ∈ segs, '/' ∉ seg) : ∀ other ∈ segs.foldl (push true) stack, IsName other := by
  induction segs generalizing stack with
  | nil => exact h
  | cons seg segs ih =>
      obtain ⟨hseg, hsegs⟩ := List.forall_mem_cons.1 hslash
      exact ih (isName_push h hseg) hsegs

theorem isName_of_mem_reduce {segs : List Segment} (hslash : ∀ seg ∈ segs, '/' ∉ seg) :
    ∀ seg ∈ reduce true segs, IsName seg := fun _ hseg =>
  isName_foldl_push (fun _ h => absurd h List.not_mem_nil) hslash _ (List.mem_reverse.1 hseg)

/-- **A place in the file tree is given by names.** -/
theorem isName_of_mem_absolute {path : String} : ∀ seg ∈ absolute path, IsName seg :=
  isName_of_mem_reduce fun _ => not_mem_of_mem_segments

theorem reduce_names {rooted : Bool} {names : List Segment} (h : ∀ seg ∈ names, IsName seg) :
    reduce rooted names = names := by
  rw [reduce, foldl_push_names rooted h, List.append_nil, List.reverse_reverse]

/-- Names are reduced, wherever they are taken up. -/
theorem reduce_append_names {rooted : Bool} {names : List Segment} (h : ∀ seg ∈ names, IsName seg)
    (segs : List Segment) : reduce rooted (segs ++ names) = reduce rooted segs ++ names := by
  rw [reduce, List.foldl_append, foldl_push_names rooted h, List.reverse_append,
    List.reverse_reverse, reduce]

theorem push_of_skip {rooted : Bool} {stack : List Segment} {seg : Segment}
    (h : seg = [] ∨ seg = here) : push rooted stack seg = stack := by
  rw [push.eq_def, if_pos h]

/-- What is skipped between segments does not matter. -/
theorem reduce_append_cons_of_skip {rooted : Bool} {seg : Segment} (h : seg = [] ∨ seg = here)
    (segs more : List Segment) :
    reduce rooted (segs ++ seg :: more) = reduce rooted (segs ++ more) := by
  rw [reduce, reduce, List.foldl_append, List.foldl_append, List.foldl_cons, push_of_skip h]

/-- Neither does it matter whether the segments before are reduced. -/
theorem reduce_reduce_append {segs : List Segment} (hslash : ∀ seg ∈ segs, '/' ∉ seg)
    (more : List Segment) :
    reduce true (reduce true segs ++ more) = reduce true (segs ++ more) := by
  have hagain : (reduce true segs).foldl (push true) [] = segs.foldl (push true) [] := by
    rw [foldl_push_names true (isName_of_mem_reduce hslash), List.append_nil, reduce,
      List.reverse_reverse]
  rw [reduce, List.foldl_append, hagain, ← List.foldl_append, ← reduce]

/-! ### Writing segments -/

theorem joinSegments_cons {segs : List Segment} (h : segs ≠ []) (seg : Segment) :
    joinSegments (seg :: segs) = seg ++ '/' :: joinSegments segs := by
  rw [joinSegments, List.intercalate_cons_of_ne_nil h, List.append_assoc, joinSegments]
  rfl

theorem joinSegments_singleton (seg : Segment) : joinSegments [seg] = seg :=
  List.intercalate_singleton

/-- What is written begins with the first segment. -/
theorem exists_joinSegments_cons (seg : Segment) (segs : List Segment) :
    ∃ rest, joinSegments (seg :: segs) = seg ++ rest := by
  by_cases h : segs = []
  · exact ⟨[], by rw [h, joinSegments_singleton, List.append_nil]⟩
  · exact ⟨_, joinSegments_cons h seg⟩

/-- And it ends with the last one. -/
theorem exists_joinSegments_concat (segs : List Segment) (last : Segment) :
    ∃ before, joinSegments (segs ++ [last]) = before ++ last := by
  induction segs with
  | nil => exact ⟨[], joinSegments_singleton last⟩
  | cons seg segs ih =>
      obtain ⟨before, hbefore⟩ := ih
      exact ⟨seg ++ '/' :: before, by simp [joinSegments_cons, hbefore]⟩

/-- Two runs of segments are written with a slash between them. -/
theorem joinSegments_append {segs more : List Segment} (h : segs ≠ []) (hmore : more ≠ []) :
    joinSegments (segs ++ more) = joinSegments segs ++ '/' :: joinSegments more := by
  induction segs with
  | nil => exact absurd rfl h
  | cons seg segs ih =>
      rw [List.cons_append, joinSegments_cons (List.append_ne_nil_of_right_ne_nil segs hmore)]
      by_cases hsegs : segs = []
      · rw [hsegs, joinSegments_singleton, List.nil_append]
      · rw [joinSegments_cons hsegs, List.append_assoc, List.cons_append, ih hsegs]

/-- An empty segment at the end is written as a slash. -/
theorem joinSegments_append_slash {segs : List Segment} (h : segs ≠ []) :
    joinSegments segs ++ ['/'] = joinSegments (segs ++ [[]]) := by
  rw [joinSegments_append h (List.cons_ne_nil [] [])]
  rfl

/-- Segments of which none is empty are written without a slash in front. -/
theorem head?_joinSegments {segs : List Segment} (h : ∀ seg ∈ segs, seg ≠ [] ∧ '/' ∉ seg) :
    (joinSegments segs).head? ≠ some '/' := by
  cases segs with
  | nil => exact Option.some_ne_none _ ∘ Eq.symm
  | cons seg segs =>
      obtain ⟨hne, hslash⟩ := h seg List.mem_cons_self
      obtain ⟨rest, hrest⟩ := exists_joinSegments_cons seg segs
      rw [hrest, List.head?_append_of_ne_nil _ hne]
      exact fun heq => hslash (List.mem_of_head? heq)

/-- Segments of which none is empty are written without a slash at the end. -/
theorem getLast?_joinSegments {segs : List Segment} (h : ∀ seg ∈ segs, seg ≠ [] ∧ '/' ∉ seg) :
    (joinSegments segs).getLast? ≠ some '/' := by
  rcases List.eq_nil_or_concat segs with rfl | ⟨front, last, rfl⟩
  · exact Option.some_ne_none _ ∘ Eq.symm
  · rw [List.concat_eq_append] at h ⊢
    obtain ⟨hne, hslash⟩ := h last (by simp)
    obtain ⟨before, hbefore⟩ := exists_joinSegments_concat front last
    rw [hbefore, List.getLast?_append_of_ne_nil _ hne]
    exact fun heq => hslash (List.mem_of_getLast? heq)

/-- Segments of names written with slashes between them are these names. -/
theorem segments_joinSegments {segs : List Segment} (h : ∀ seg ∈ segs, '/' ∉ seg)
    (hne : segs ≠ []) :
    segments (joinSegments segs) = segs :=
  List.splitOn_intercalate '/' h hne

theorem reduce_segments_slash (cs : List Char) :
    reduce true (segments ('/' :: cs)) = reduce true (segments cs) := by
  rw [segments, Url.splitOn_slash, reduce_cons_of_skip (Or.inl rfl), segments]

theorem reduce_segments_replicate (n : Nat) (cs : List Char) :
    reduce true (segments (List.replicate n '/' ++ cs)) = reduce true (segments cs) := by
  induction n with
  | zero => rfl
  | succ n ih => rw [List.replicate_succ, List.cons_append, reduce_segments_slash, ih]

theorem reduce_segments_joinSegments {names : List Segment} (h : ∀ seg ∈ names, IsName seg) :
    reduce true (segments (joinSegments names)) = names := by
  by_cases hne : names = []
  · rw [hne]
    rfl
  · rw [segments_joinSegments (fun seg hseg => (h seg hseg).no_slash) hne, reduce_names h]

/-! ### Paths below a directory -/

variable {dir path : String}

theorem rootSlashes_pos {cs : List Char} (h : cs.head? = some '/') : rootSlashes cs ≠ 0 := by
  obtain ⟨rest, rfl⟩ := List.head?_eq_some_iff.1 h
  rw [rootSlashes.eq_def]
  split <;> simp_all

/-- **Normalization keeps the place of a rooted path.** -/
theorem absolute_normalize (h : path.toList.head? = some '/') :
    absolute (normalize path) = absolute path := by
  have hnames : ∀ seg ∈ absolute path, IsName seg := isName_of_mem_absolute
  have hroot := rootSlashes_pos h
  have htext : normalizeChars path.toList =
      List.replicate (rootSlashes path.toList) '/' ++ joinSegments (absolute path) := by
    rw [normalizeChars, if_neg, absolute]
    · simp only [ne_eq, hroot, not_false_eq_true, decide_true]
    · simp [hroot]
  rw [absolute, normalize, String.toList_ofList, htext, reduce_segments_replicate,
    reduce_segments_joinSegments hnames]

/-- A path below a directory is followed from there. -/
theorem absolute_join (h : dir.toList ≠ []) (hpath : path.toList.head? ≠ some '/') :
    absolute (join dir path) = reduce true (absolute dir ++ segments path.toList) := by
  rw [absolute, absolute, reduce_reduce_append fun _ => not_mem_of_mem_segments, join,
    String.toList_ofList, joinChars, if_neg hpath]
  split
  · rename_i hslash
    have hlast : dir.toList.getLast? = some '/' := by simpa [h] using hslash
    obtain ⟨front, hfront⟩ := List.getLast?_eq_some_iff.1 hlast
    rw [hfront, List.append_assoc, List.singleton_append, segments, segments,
      List.splitOn_append_cons_self, List.splitOn_append_cons_self, List.splitOn_nil,
      List.append_assoc, List.singleton_append, reduce_append_cons_of_skip (Or.inl rfl)]
    rfl
  · rw [segments, List.splitOn_append_cons_self]
    rfl

theorem head?_join (h : dir.toList.head? = some '/') (hpath : path.toList.head? ≠ some '/') :
    (join dir path).toList.head? = some '/' := by
  obtain ⟨rest, hrest⟩ := List.head?_eq_some_iff.1 h
  rw [join, String.toList_ofList, joinChars, if_neg hpath, hrest]
  split <;> rfl

/-- **Where a path below a rooted directory leads.** -/
theorem absolute_normalize_join (h : dir.toList.head? = some '/')
    (hpath : path.toList.head? ≠ some '/') :
    absolute (normalize (join dir path)) = reduce true (absolute dir ++ segments path.toList) := by
  rw [absolute_normalize (head?_join h hpath), absolute_join _ hpath]
  intro hnil
  rw [hnil] at h
  exact absurd h (by simp)

/-! ### The path from one directory to another -/

theorem take_commonLength (start target : List Segment) :
    target.take (commonLength start target) = start.take (commonLength start target) := by
  induction start generalizing target with
  | nil => simp [commonLength]
  | cons a start ih =>
      cases target with
      | nil => simp [commonLength]
      | cons b target =>
          rw [commonLength]
          split
          · rename_i heq
            rw [heq, List.take_succ_cons, List.take_succ_cons, ih]
          · rfl

theorem foldl_push_replicate_up {names : List Segment} (h : ∀ seg ∈ names, IsName seg) (n : Nat) :
    (List.replicate n up).foldl (push true) names.reverse =
      (names.take (names.length - n)).reverse := by
  induction n generalizing names with
  | zero => simp
  | succ n ih =>
      rw [List.replicate_succ, List.foldl_cons]
      rcases List.eq_nil_or_concat names with rfl | ⟨front, last, rfl⟩
      · have hstay : push true [].reverse up = [].reverse := rfl
        rw [hstay, ih h, List.take_nil, List.take_nil]
      · have hlast : IsName last := h last (by simp)
        have hpush : push true (front ++ [last]).reverse up = front.reverse := by
          rw [List.reverse_append, List.reverse_singleton, List.singleton_append, push.eq_def,
            if_neg (by decide), if_pos rfl]
          simp only [hlast.ne_up, if_false]
        rw [List.concat_eq_append, hpush, ih fun seg hseg => h seg (by simp [hseg])]
        congr 1
        rw [List.length_append, List.length_singleton, List.take_append_of_le_length (by omega)]
        congr 1
        omega

/-- **The steps from one place to another lead there.** -/
theorem reduce_append_steps {start target : List Segment} (hstart : ∀ seg ∈ start, IsName seg)
    (htarget : ∀ seg ∈ target, IsName seg) :
    reduce true (start ++ steps start target) = target := by
  have hshared : commonLength start target ≤ start.length := by
    induction start generalizing target with
    | nil => simp [commonLength]
    | cons a start ih =>
        cases target with
        | nil => simp [commonLength]
        | cons b target =>
            rw [commonLength]
            split
            · exact Nat.succ_le_succ (ih (List.forall_mem_cons.1 hstart).2
                (List.forall_mem_cons.1 htarget).2)
            · exact Nat.zero_le _
  rw [reduce, steps, List.foldl_append, List.foldl_append, foldl_push_names true hstart,
    List.append_nil, foldl_push_replicate_up hstart,
    foldl_push_names true fun seg hseg => htarget seg (List.mem_of_mem_drop hseg),
    Nat.sub_sub_self hshared, ← take_commonLength, ← List.reverse_append,
    List.take_append_drop, List.reverse_reverse]

end Path

namespace Url

open Path (IsName here up push reduce joinSegments exists_joinSegments_cons)

variable {names : List Segment} {ref : List Char}

/-! ### Places in URLs -/

/-- The path of a directory in a URL. -/
def folderPath (names : List Segment) : List Char := '/' :: names.flatMap (· ++ ['/'])

/-- The path of a place in a URL; that of a directory ends in a slash. -/
def placePath (names : List Segment) (isFolder : Bool) : List Char :=
  if isFolder then folderPath names else '/' :: joinSegments names

/-- Whether a reference leads to a directory: its last segment names no file. -/
def leadsToFolder (segs : List Segment) : Bool :=
  segs.getLast?.any fun seg => seg = [] || seg = here || seg = up

theorem joinSegments_concat_nil (segs : List Segment) :
    joinSegments (segs ++ [[]]) = segs.flatMap (· ++ ['/']) := by
  induction segs with
  | nil => rfl
  | cons seg segs ih =>
      rw [List.cons_append, Path.joinSegments_cons (by simp), List.flatMap_cons, ← ih,
        List.append_assoc]
      rfl

theorem folderPath_eq (names : List Segment) :
    folderPath names = '/' :: joinSegments (names ++ [[]]) := by
  rw [joinSegments_concat_nil, folderPath]

theorem splitOn_folderPath (h : ∀ seg ∈ names, IsName seg) :
    (folderPath names).splitOn '/' = [] :: (names ++ [[]]) := by
  have hslash : ∀ seg ∈ names ++ [[]], '/' ∉ seg := by
    intro seg hseg
    rcases List.mem_append.1 hseg with hseg | hseg
    · exact (h seg hseg).no_slash
    · rw [List.mem_singleton.1 hseg]
      exact List.not_mem_nil
  rw [folderPath_eq, splitOn_slash]
  exact congrArg ([] :: ·) (Path.segments_joinSegments hslash (by simp))

/-- What a name begins with is no slash. -/
theorem head?_name_append {seg : Segment} (h : IsName seg) (cs : List Char) :
    ∃ c rest, seg ++ cs = c :: rest ∧ c ≠ '/' := by
  cases seg with
  | nil => exact absurd rfl h.ne_nil
  | cons c rest =>
      exact ⟨c, rest ++ cs, rfl, fun heq => h.no_slash (heq ▸ List.mem_cons_self)⟩

/-- After its leading slash the path of a place begins with no other. -/
theorem not_slashes_placePath (h : ∀ seg ∈ names, IsName seg) (isFolder : Bool) :
    ¬ "//".toList <+: placePath names isFolder := by
  intro hprefix
  obtain ⟨rest, hrest⟩ := hprefix
  cases names with
  | nil => cases isFolder <;> exact absurd hrest (by simp [placePath, folderPath, joinSegments])
  | cons seg names =>
      have hseg := h seg List.mem_cons_self
      obtain ⟨more, hmore⟩ : ∃ more, placePath (seg :: names) isFolder = '/' :: (seg ++ more) := by
        cases isFolder with
        | true =>
            refine ⟨'/' :: names.flatMap (· ++ ['/']), ?_⟩
            simp [placePath, folderPath]
        | false =>
            obtain ⟨more, hmore⟩ := exists_joinSegments_cons seg names
            exact ⟨more, congrArg ('/' :: ·) hmore⟩
      obtain ⟨c, cs, heq, hc⟩ := head?_name_append hseg more
      rw [hmore, heq] at hrest
      exact hc (List.cons.inj (List.cons.inj hrest).2).1.symm

/-! ### Following segments -/

/-- Whether a stack of segments in a URL holds names, with the root below them, or with the root
taken away by a segment that leads above it. -/
def Holds (names stack : List Segment) : Prop := stack = names ++ [[]] ∨ stack = names

/-- **A segment moves both stacks alike.** -/
theorem Holds.push {stack : List Segment} {seg : Segment} (h : Holds names stack)
    (hnames : ∀ other ∈ names, IsName other) (hseg : seg ≠ []) :
    Holds (push true names seg) (pushSegment stack seg) := by
  by_cases hhere : seg = here
  · have hstay : pushSegment stack seg = stack := by rw [hhere]; rfl
    rw [Path.push_of_skip (Or.inr hhere), hstay]
    exact h
  by_cases hup : seg = up
  · have hdrop : pushSegment stack seg = stack.drop 1 := by rw [hup]; rfl
    have hpush : Path.push true names seg = names.drop 1 := by
      rw [Path.push.eq_def, if_neg (not_or.2 ⟨hseg, hhere⟩), if_pos hup]
      cases names with
      | nil => rfl
      | cons top below => simp [(hnames top List.mem_cons_self).ne_up]
    rw [hdrop, hpush]
    cases names with
    | nil => rcases h with rfl | rfl <;> exact Or.inr rfl
    | cons top below =>
        rcases h with rfl | rfl
        · exact Or.inl rfl
        · exact Or.inr rfl
  · have hkeep : pushSegment stack seg = seg :: stack := by
      rw [pushSegment, if_neg (show seg ≠ ['.', '.'] from hup),
        if_neg (show seg ≠ ['.'] from hhere)]
    rw [hkeep, Path.push_of_name hseg hhere hup]
    rcases h with rfl | rfl
    · exact Or.inl rfl
    · exact Or.inr rfl

theorem Holds.foldl {stack segs : List Segment} (h : Holds names stack)
    (hnames : ∀ other ∈ names, IsName other) (hsegs : ∀ seg ∈ segs, seg ≠ [] ∧ '/' ∉ seg) :
    Holds (segs.foldl (Path.push true) names) (segs.foldl pushSegment stack) := by
  induction segs generalizing names stack with
  | nil => exact h
  | cons seg segs ih =>
      obtain ⟨hseg, hsegs⟩ := List.forall_mem_cons.1 hsegs
      exact ih (h.push hnames hseg.1) (Path.isName_push hnames hseg.2) hsegs

theorem foldl_push_filter (segs stack : List Segment) :
    (segs.filter (!·.isEmpty)).foldl (push true) stack = segs.foldl (push true) stack := by
  induction segs generalizing stack with
  | nil => rfl
  | cons seg segs ih =>
      cases hempty : seg.isEmpty with
      | true =>
          rw [List.filter_cons_of_neg (by simp [hempty]), List.foldl_cons,
            Path.push_of_skip (Or.inl (List.isEmpty_iff.1 hempty)), ih]
      | false =>
          rw [List.filter_cons_of_pos (by simp [hempty]), List.foldl_cons, List.foldl_cons, ih]

theorem mergedSegments_folderPath (h : ∀ seg ∈ names, IsName seg) (href : ref.head? ≠ some '/')
    {front : List Segment} {last : Segment} (hsplit : ref.splitOn '/' = front ++ [last]) :
    mergedSegments (folderPath names) ref =
      [] :: (names ++ front.filter (!·.isEmpty) ++ [last]) := by
  have hdirectory : directorySegments (folderPath names) = [] :: (names ++ [[]]) := by
    have hlast : ([] :: (names ++ [[]]) : List Segment).getLast? = some [] := by
      rw [← List.cons_append, List.getLast?_concat]
    simp only [directorySegments, splitOn_folderPath h, hlast, if_true]
  have hnames : names.filter (!·.isEmpty) = names :=
    List.filter_eq_self.2 fun seg hseg => by simp [(h seg hseg).ne_nil]
  rw [mergedSegments, if_neg href, hdirectory, hsplit, List.cons_append, dropInnerEmpty,
    ← List.append_assoc, List.dropLast_concat, List.getLast?_concat, List.filter_append,
    List.filter_append, hnames]
  simp

theorem Holds.reverse {stack : List Segment} (h : Holds names stack) :
    stack.reverse = [] :: names.reverse ∨ stack.reverse = names.reverse := by
  rcases h with rfl | rfl
  · exact Or.inl (by simp)
  · exact Or.inr rfl

/-- The two stacks go together as far as the last segment of a reference. -/
theorem holds_foldl_front (h : ∀ seg ∈ names, IsName seg) {front : List Segment}
    (hslash : ∀ seg ∈ front, '/' ∉ seg) :
    Holds ((names ++ front).foldl (push true) [])
      ((names ++ front.filter (!·.isEmpty)).foldl pushSegment [[]]) := by
  have hbefore : ∀ seg ∈ names ++ front.filter (!·.isEmpty), seg ≠ [] ∧ '/' ∉ seg := by
    intro seg hseg
    rcases List.mem_append.1 hseg with hseg | hseg
    · exact ⟨(h seg hseg).ne_nil, (h seg hseg).no_slash⟩
    · obtain ⟨hmem, hempty⟩ := List.mem_filter.1 hseg
      exact ⟨by simpa using hempty, hslash seg hmem⟩
  have hfold := @Holds.foldl [] [[]] _ (Or.inl rfl) (by simp) hbefore
  rwa [List.foldl_append, foldl_push_filter, ← List.foldl_append] at hfold

/-- **What is left when a reference is followed**: the names of its place, and an empty segment at
the end if it leads to a directory. -/
theorem removeDots_mergedSegments (h : ∀ seg ∈ names, IsName seg) (href : ref.head? ≠ some '/') :
    ∃ kept, (kept = [] :: reduce true (names ++ ref.splitOn '/') ∨
        kept = reduce true (names ++ ref.splitOn '/')) ∧
      removeDots (mergedSegments (folderPath names) ref) =
        kept ++ if leadsToFolder (ref.splitOn '/') then [[]] else [] := by
  have hslash : ∀ seg ∈ ref.splitOn '/', '/' ∉ seg := fun seg => slash_not_mem_of_mem_splitOn
  obtain ⟨front, last, hsplit⟩ : ∃ front last, ref.splitOn '/' = front ++ [last] :=
    ⟨_, _, (List.dropLast_concat_getLast (List.splitOn_ne_nil '/' ref)).symm⟩
  rw [mergedSegments_folderPath h href hsplit]
  rw [hsplit] at hslash ⊢
  have hholds := holds_foldl_front h fun seg hseg => hslash seg (List.mem_append_left _ hseg)
  have hnames : ∀ seg ∈ (names ++ front).foldl (push true) [], IsName seg := by
    refine Path.isName_foldl_push (by simp) fun seg hseg => ?_
    rcases List.mem_append.1 hseg with hseg | hseg
    · exact (h seg hseg).no_slash
    · exact hslash seg (List.mem_append_left _ hseg)
  have hreduce : reduce true (names ++ (front ++ [last])) =
      (push true ((names ++ front).foldl (push true) []) last).reverse := by
    rw [← List.append_assoc, reduce, List.foldl_append]
    rfl
  have hroot : pushSegment [] [] = [[]] := rfl
  rw [removeDots, List.foldl_cons, hroot, List.foldl_append, List.foldl_cons, List.foldl_nil,
    ← List.cons_append, List.getLast?_concat, hreduce, leadsToFolder, List.getLast?_concat]
  by_cases hlast : last = []
  · -- An empty segment at the end is pushed in the URL and skipped in the path.
    subst hlast
    refine ⟨_, hholds.reverse, ?_⟩
    simp [pushSegment]
  · refine ⟨_, (hholds.push hnames hlast).reverse, ?_⟩
    by_cases hhere : last = here
    · simp [hhere, here]
    by_cases hup : last = up
    · simp [hup, up]
    · have hhere' : last ≠ ['.'] := hhere
      have hup' : last ≠ ['.', '.'] := hup
      simp [hlast, hhere, hup, hhere', hup']

/-! ### The path that is followed -/

theorem rooted_of_ne {c : Char} {cs : List Char} (h : c ≠ '/') :
    rooted (c :: cs) = '/' :: c :: cs := by
  simp [rooted, h]

/-- Segments that are left, written with slashes between them, are the path of a place but for its
leading slash. -/
theorem rooted_joinSegments (h : ∀ seg ∈ names, IsName seg) {isFolder : Bool}
    (hfile : isFolder = false → names ≠ []) {kept : List Segment}
    (hkept : kept = [] :: names ∨ kept = names) :
    rooted (if (joinSegments (kept ++ if isFolder then [[]] else [])).isEmpty then ['/']
      else joinSegments (kept ++ if isFolder then [[]] else [])) = placePath names isFolder := by
  rcases hkept with rfl | rfl
  · have hne : names ++ (if isFolder then [[]] else []) ≠ [] := by
      cases isFolder with
      | true => simp
      | false => simpa using hfile rfl
    have htext : joinSegments ([] :: names ++ if isFolder then [[]] else []) =
        placePath names isFolder := by
      rw [List.cons_append, joinSegments, intercalate_nil_cons hne]
      cases isFolder with
      | true => exact (folderPath_eq names).symm
      | false => simp [placePath, joinSegments]
    obtain ⟨rest, hrest⟩ : ∃ rest, placePath names isFolder = '/' :: rest := by
      cases isFolder <;> exact ⟨_, rfl⟩
    rw [htext, hrest]
    rfl
  · have htext : placePath kept isFolder =
        '/' :: joinSegments (kept ++ if isFolder then [[]] else []) := by
      cases isFolder with
      | true => exact folderPath_eq kept
      | false => simp [placePath]
    cases kept with
    | nil =>
        cases isFolder with
        | true => rfl
        | false => exact absurd rfl (hfile rfl)
    | cons seg kept =>
        obtain ⟨rest, hrest⟩ := exists_joinSegments_cons seg (kept ++ if isFolder then [[]] else [])
        obtain ⟨c, cs, heq, hc⟩ := head?_name_append (h seg List.mem_cons_self) rest
        rw [List.cons_append, hrest, heq] at htext ⊢
        rw [htext, if_neg (by simp), rooted_of_ne hc]

/-- A reference to a file leads to a place below the root. -/
theorem reduce_append_ne_nil {segs : List Segment} (hslash : ∀ seg ∈ names ++ segs, '/' ∉ seg)
    (hne : segs ≠ []) (h : leadsToFolder segs = false) : reduce true (names ++ segs) ≠ [] := by
  obtain ⟨front, last, rfl⟩ : ∃ front last, segs = front ++ [last] :=
    ⟨_, _, (List.dropLast_concat_getLast hne).symm⟩
  have hname : last ≠ [] ∧ last ≠ here ∧ last ≠ up := by
    simpa [leadsToFolder, and_assoc] using h
  rw [← List.append_assoc, reduce, List.foldl_append, List.foldl_cons, List.foldl_nil,
    Path.push_of_name hname.1 hname.2.1 hname.2.2]
  simp

theorem no_slash_of_mem_append (h : ∀ seg ∈ names, IsName seg) (ref : List Char) :
    ∀ seg ∈ names ++ ref.splitOn '/', '/' ∉ seg := by
  intro seg hseg
  rcases List.mem_append.1 hseg with hseg | hseg
  · exact (h seg hseg).no_slash
  · exact slash_not_mem_of_mem_splitOn hseg

/-- **Following a path in a URL and in the file tree is the same**, but for a leading slash that
putting the URL together adds. -/
theorem rooted_joinPaths (h : ∀ seg ∈ names, IsName seg) (href : ref.head? ≠ some '/') :
    rooted (joinPaths (folderPath names) ref) =
      placePath (reduce true (names ++ ref.splitOn '/')) (leadsToFolder (ref.splitOn '/')) := by
  have hslash := no_slash_of_mem_append h ref
  obtain ⟨kept, hkept, heq⟩ := removeDots_mergedSegments h href
  rw [joinPaths_eq, heq]
  exact rooted_joinSegments (Path.isName_of_mem_reduce hslash)
    (reduce_append_ne_nil hslash (List.splitOn_ne_nil '/' ref)) hkept

/-- A path that is followed from a directory announces no authority. -/
theorem not_slashes_joinPaths (h : ∀ seg ∈ names, IsName seg) (href : ref.head? ≠ some '/') :
    ¬ "//".toList <+: joinPaths (folderPath names) ref := by
  intro hprefix
  have hself : rooted (joinPaths (folderPath names) ref) = joinPaths (folderPath names) ref := by
    obtain ⟨rest, hrest⟩ := hprefix
    rw [← hrest]
    rfl
  rw [← hself, rooted_joinPaths h href] at hprefix
  exact not_slashes_placePath (Path.isName_of_mem_reduce (no_slash_of_mem_append h ref)) _ hprefix

/-! ### References in the URL of a directory -/

/-- A character that a URL keeps in its path. -/
def IsPlain (c : Char) : Prop := c ≠ '?' ∧ c ≠ '#' ∧ isBreak c = false

instance (c : Char) : Decidable (IsPlain c) :=
  inferInstanceAs (Decidable (c ≠ '?' ∧ c ≠ '#' ∧ isBreak c = false))

theorem isPlain_slash : IsPlain '/' := ⟨by decide, by decide, rfl⟩

theorem isPlain_of_isUnreserved {c : Char} (h : isUnreserved c = true) : IsPlain c := by
  refine ⟨?_, ?_, Bool.eq_false_iff.2 fun hbreak => ?_⟩
  · rintro rfl
    exact absurd h (by decide)
  · rintro rfl
    exact absurd h (by decide)
  · simp only [isBreak, Bool.or_eq_true, beq_iff_eq] at hbreak
    rcases hbreak with (rfl | rfl) | rfl <;> exact absurd h (by decide)

theorem isPlain_folderPath (h : ∀ seg ∈ names, ∀ c ∈ seg, IsPlain c) :
    ∀ c ∈ folderPath names, IsPlain c := by
  refine List.forall_mem_cons.2 ⟨isPlain_slash, fun c hc => ?_⟩
  obtain ⟨seg, hseg, hc⟩ := List.mem_flatMap.1 hc
  rcases List.mem_append.1 hc with hc | hc
  · exact h seg hseg c hc
  · rw [List.mem_singleton.1 hc]
    exact isPlain_slash

/-- A URL of a path put together, with the leading slash that is missing. -/
theorem text_pathParts_rooted {path : List Char} (h : ¬ "//".toList <+: path) :
    (pathParts path).text = "file://".toList ++ rooted path := by
  have hannounces : (pathParts path).announcesAuthority = true :=
    Parts.announcesAuthority_of_file rfl h
  have hreread : (pathParts path).reread = pathParts (rooted path) :=
    Parts.reread_of_announced hannounces
  rw [Parts.text_eq rfl rfl, hreread]
  simp [pathParts, tail, marked]

/-- A reference that is a path has no scheme of its own. -/
theorem splitScheme_cleanUrl_path (hhead : ref.head? = some '/' ∨ ref.head? = some '.')
    (scheme : List Char) :
    splitScheme scheme (cleanUrl ref) = (scheme, ref.filter fun c => !isBreak c) := by
  rcases hhead with hhead | hhead
  · obtain ⟨rest, rfl⟩ := List.head?_eq_some_iff.1 hhead
    rw [cleanUrl, List.dropWhile_cons_of_neg (by decide), filter_breaks,
      List.filter_cons_of_pos rfl, splitScheme_of_not_isAlpha (by decide) (by decide)]
  · obtain ⟨rest, rfl⟩ := List.head?_eq_some_iff.1 hhead
    rw [cleanUrl, List.dropWhile_cons_of_neg (by decide), filter_breaks,
      List.filter_cons_of_pos rfl, splitScheme_of_dot]

/-- The parts of a URL on disk that has no parts but an authority and a path. -/
def hostParts (authority path : List Char) : Parts := ⟨"file".toList, authority, path, [], [], []⟩

/-- A reference of plain characters that is a path has no parts but an authority and a path. -/
theorem split?_plain (hhead : ref.head? = some '/' ∨ ref.head? = some '.')
    (hplain : ∀ c ∈ ref, IsPlain c) :
    split? "file".toList ref = if isAcceptable (splitAuthority ref).1 then
      some (hostParts (splitAuthority ref).1 (splitAuthority ref).2) else none := by
  have hbreak : ref.filter (fun c => !isBreak c) = ref :=
    List.filter_eq_self.2 fun c hc => by simp [(hplain c hc).2.2]
  have hrest : ∀ c ∈ (splitAuthority ref).2, IsPlain c := fun c hc =>
    hplain c ((splitAuthority_sublist ref).2.subset hc)
  have hfragment : splitAt '#' (splitAuthority ref).2 = ((splitAuthority ref).2, []) := by
    simpa [marked] using splitAt_marked (fun c hc => (hrest c hc).2.1) []
  have hquery : splitAt '?' (splitAuthority ref).2 = ((splitAuthority ref).2, []) := by
    simpa [marked] using splitAt_marked (fun c hc => (hrest c hc).1) []
  have hparts : fileParts ref = hostParts (splitAuthority ref).1 (splitAuthority ref).2 := by
    simp only [fileParts, hfragment, hquery]
    rfl
  rw [split?_eq_ite_of_file (splitScheme_cleanUrl_path hhead _), hbreak, hparts]
  rfl

/-- A reference that begins with a dot and has no part but a path. -/
theorem split?_dot {scheme : List Char} (hfile : scheme = "file".toList)
    (hdot : ref.head? = some '.') (hplain : ∀ c ∈ ref, IsPlain c) :
    split? scheme ref = some (pathParts ref) := by
  have hauthority : splitAuthority ref = ([], ref) := by
    obtain ⟨rest, rfl⟩ := List.head?_eq_some_iff.1 hdot
    rfl
  rw [hfile, split?_plain (Or.inr hdot) hplain, hauthority]
  rfl

/-- What is joined in a directory: the parts of the reference, its path below the directory. -/
theorem joinChars?_of_split (hnames : ∀ seg ∈ names, ∀ c ∈ seg, IsPlain c) (href : ref ≠ [])
    {r : Parts} (hsplit : split? "file".toList ref = some r) (hscheme : r.scheme = "file".toList)
    (hauthority : r.authority = []) (hpath : r.path ≠ []) :
    joinChars? ("file://".toList ++ folderPath names) ref = some (Parts.text { r with
      authority := [], path := joinPaths (folderPath names) r.path }) := by
  have hbase : split? [] ("file://".toList ++ folderPath names) =
      some (pathParts (folderPath names)) := split?_path (isPlain_folderPath hnames) rfl []
  have hsplit' : split? (pathParts (folderPath names)).scheme ref = some r := hsplit
  have hsame : r.scheme = (pathParts (folderPath names)).scheme := hscheme
  have hrelative : isRelativeScheme (pathParts (folderPath names)).scheme = true := by
    show isRelativeScheme "file".toList = true
    decide
  have hauthorities : isAuthorityScheme r.scheme = true := by
    rw [hscheme]
    decide
  rw [joinChars?, if_neg (by simp), if_neg (by simp [href]), hbase]
  simp only [hsplit']
  rw [if_neg (by simp [hsame, hrelative]), if_neg (by simp [hauthority]), if_neg (by simp [hpath]),
    if_pos hauthorities]
  rfl

/-- **A reference in a directory denotes the place that its segments lead to.** -/
theorem joinChars?_folder (h : ∀ seg ∈ names, IsName seg)
    (hnames : ∀ seg ∈ names, ∀ c ∈ seg, IsPlain c) (hdot : ref.head? = some '.')
    (hplain : ∀ c ∈ ref, IsPlain c) :
    joinChars? ("file://".toList ++ folderPath names) ref = some ("file://".toList ++
      placePath (reduce true (names ++ ref.splitOn '/')) (leadsToFolder (ref.splitOn '/'))) := by
  have hhead : ref.head? ≠ some '/' := by rw [hdot]; decide
  have hne : ref ≠ [] := fun hnil => by simp [hnil] at hdot
  rw [← rooted_joinPaths h hhead, ← text_pathParts_rooted (not_slashes_joinPaths h hhead)]
  exact joinChars?_of_split hnames hne (split?_dot rfl hdot hplain) rfl rfl hne

end Url

/-! ### Values of a map in a directory -/

/-- A relative specifier begins with a dot. -/
theorem Target.head?_of_isRelative {specifier : String} (h : isRelative specifier = true) :
    specifier.toList.head? = some '.' := by
  rw [isRelative, isRelativeChars] at h
  simp only [Bool.or_eq_true, List.isPrefixOf_iff_prefix, beq_iff_eq] at h
  rcases h with ((⟨rest, hrest⟩ | ⟨rest, hrest⟩) | hrest) | hrest
  · rw [← hrest]; rfl
  · rw [← hrest]; rfl
  · rw [hrest]; rfl
  · rw [hrest]; rfl

section Values

open Url (folderPath placePath leadsToFolder)

/-- The URL of the directory with some names on the way to it. -/
def directoryUrl (names : List Path.Segment) : String :=
  String.ofList ("file://".toList ++ folderPath names)

theorem toList_directoryUrl (names : List Path.Segment) :
    (directoryUrl names).toList = "file://".toList ++ folderPath names := String.toList_ofList

/-- The URL of a place. -/
def placeUrl (names : List Path.Segment) (isFolder : Bool) : String :=
  String.ofList ("file://".toList ++ placePath names isFolder)

variable {names : List Path.Segment} {reference : String}

theorem joinUrl_directoryUrl (h : ∀ seg ∈ names, Path.IsName seg)
    (hnames : ∀ seg ∈ names, ∀ c ∈ seg, Url.IsPlain c) (hdot : reference.toList.head? = some '.')
    (hplain : ∀ c ∈ reference.toList, Url.IsPlain c) :
    joinUrl (directoryUrl names) reference = .ok (placeUrl
      (Path.reduce true (names ++ Path.segments reference.toList))
      (leadsToFolder (Path.segments reference.toList))) := by
  have hjoin := Url.joinChars?_folder h hnames hdot hplain
  rw [← toList_directoryUrl] at hjoin
  rw [joinUrl, Url.join?, hjoin]
  rfl

/-- A value that is a path is a reference. -/
theorem mapUrl_of_isPathSpecifier {base value : String} (h : isPathSpecifier value = true) :
    mapUrl base value = joinUrl base value := by
  rw [mapUrl, referenceUrl?, if_pos h]
  cases joinUrl base value <;> rfl

/-- **The URL that a plain value of a map denotes**: that of the place which its segments lead to
from the directory of the map. -/
theorem mapUrl_directoryUrl {value : String} (h : ∀ seg ∈ names, Path.IsName seg)
    (hnames : ∀ seg ∈ names, ∀ c ∈ seg, Url.IsPlain c) (hroot : Target.isRooted value = false)
    (hlong : Target.isLongUrl value = false) (hplain : ∀ c ∈ value.toList, Url.IsPlain c) :
    mapUrl (directoryUrl names) value = .ok (placeUrl
      (Path.reduce true (names ++ Path.segments value.toList))
      (leadsToFolder (Path.segments value.toList))) := by
  cases hpath : isPathSpecifier value with
  | true =>
      have hrelative : Target.isRelative value = true := by
        rwa [isPathSpecifier, hroot, Bool.or_false] at hpath
      rw [mapUrl_of_isPathSpecifier hpath,
        joinUrl_directoryUrl h hnames (Target.head?_of_isRelative hrelative) hplain]
  | false =>
      have htext : ("./" ++ value).toList = '.' :: '/' :: value.toList := by
        rw [String.toList_append]
        rfl
      have hsegments : Path.segments ("./" ++ value).toList =
          Path.here :: Path.segments value.toList := by
        rw [htext]
        exact @List.splitOn_append_cons_self_of_not_mem Char ['.'] _ _ '/' (by decide) _
      have hjoin := @joinUrl_directoryUrl names ("./" ++ value) h hnames (by rw [htext]; rfl) (by
        rw [htext]
        exact List.forall_mem_cons.2 ⟨⟨by decide, by decide, rfl⟩,
          List.forall_mem_cons.2 ⟨Url.isPlain_slash, hplain⟩⟩)
      have hlast : leadsToFolder (Path.here :: Path.segments value.toList) =
          leadsToFolder (Path.segments value.toList) := by
        have hne : Path.segments value.toList ≠ [] := List.splitOn_ne_nil '/' _
        rw [leadsToFolder, leadsToFolder, List.getLast?_cons_of_ne_nil hne]
      rw [hsegments, Path.reduce_append_cons_of_skip (Or.inr rfl), hlast] at hjoin
      rw [mapUrl, referenceUrl?, hpath, hlong]
      exact hjoin

/-! ### Directories given by paths -/

/-- What holds of all characters of a path holds of those of the names that it leads through. -/
theorem forall_mem_absolute {P : Char → Prop} (hslash : P '/') {path : String}
    (h : ∀ c ∈ path.toList, P c) : ∀ seg ∈ Path.absolute path, ∀ c ∈ seg, P c := fun seg hseg =>
  (Url.forall_mem_segments_iff hslash).2 h seg (Path.mem_of_mem_reduce hseg)

theorem forall_mem_joinSegments {P : Char → Prop} (hslash : P '/')
    (h : ∀ seg ∈ names, ∀ c ∈ seg, P c) : ∀ c ∈ Path.joinSegments names, P c := by
  induction names with
  | nil => exact fun c hc => absurd hc List.not_mem_nil
  | cons seg names ih =>
      obtain ⟨hseg, hnames⟩ := List.forall_mem_cons.1 h
      by_cases hne : names = []
      · rw [hne, Path.joinSegments_singleton]
        exact hseg
      · rw [Path.joinSegments_cons hne]
        exact List.forall_mem_append.2 ⟨hseg, List.forall_mem_cons.2 ⟨hslash, ih hnames⟩⟩

theorem flatMap_encodeChar {cs : List Char} (h : ∀ c ∈ cs, Url.isUnreserved c = true) :
    cs.flatMap Url.encodeChar = cs := by
  have hself : cs.flatMap Url.encodeChar = cs.flatMap fun c => [c] :=
    List.flatMap_congr fun c hc => by rw [Url.encodeChar, if_pos (h c hc)]
  rw [hself, List.flatMap_singleton']

/-- Names as they are escaped in a URL. -/
def encodeNames (names : List Path.Segment) : List Path.Segment :=
  names.map (List.flatMap Url.encodeChar)

/-- A name is escaped as a name. -/
theorem isName_flatMap_encodeChar {seg : Path.Segment} (h : Path.IsName seg) :
    Path.IsName (seg.flatMap Url.encodeChar) := by
  have hback : ∀ cs, '%' ∉ cs → seg.flatMap Url.encodeChar = cs → seg = cs := by
    rintro _ hpercent rfl
    exact (Url.decode_flatMap_encodeChar seg).symm.trans (Url.decode_eq_self hpercent)
  refine ⟨fun heq => h.ne_nil (hback _ (by simp) heq),
    fun heq => h.ne_here (hback _ (by decide) heq), fun heq => h.ne_up (hback _ (by decide) heq),
    fun hslash => ?_⟩
  obtain ⟨c, hc, hd⟩ := List.mem_flatMap.1 hslash
  rcases Url.of_mem_encodeChar hd with ⟨rfl, -⟩ | heq | ⟨n, hn, heq⟩
  · exact h.no_slash hc
  · exact absurd heq (by decide)
  · revert heq
    interval_cases n <;> decide

theorem isName_of_mem_encodeNames (h : ∀ seg ∈ names, Path.IsName seg) :
    ∀ seg ∈ encodeNames names, Path.IsName seg := by
  intro seg hseg
  obtain ⟨name, hname, rfl⟩ := List.mem_map.1 hseg
  exact isName_flatMap_encodeChar (h name hname)

theorem isPlain_of_mem_encodeNames :
    ∀ seg ∈ encodeNames names, ∀ c ∈ seg, Url.IsPlain c := by
  intro seg hseg c hc
  obtain ⟨name, -, rfl⟩ := List.mem_map.1 hseg
  obtain ⟨d, -, hd⟩ := List.mem_flatMap.1 hc
  rcases Url.isUnreserved_of_mem_encodeChar hd with rfl | hc
  · exact ⟨by decide, by decide, rfl⟩
  · exact Url.isPlain_of_isUnreserved hc

theorem flatMap_encodeChar_joinSegments (names : List Path.Segment) :
    (Path.joinSegments names).flatMap Url.encodeChar = Path.joinSegments (encodeNames names) := by
  induction names with
  | nil => rfl
  | cons seg names ih =>
      by_cases hne : names = []
      · rw [hne, encodeNames, List.map_singleton, Path.joinSegments_singleton,
          Path.joinSegments_singleton]
      · have hslash : Url.encodeChar '/' = ['/'] := by decide
        have hmore : encodeNames names ≠ [] := by simpa [encodeNames] using hne
        have hcons : encodeNames (seg :: names) =
            seg.flatMap Url.encodeChar :: encodeNames names := List.map_cons
        rw [Path.joinSegments_cons hne, List.flatMap_append, List.flatMap_cons, ih, hslash, hcons,
          Path.joinSegments_cons hmore, List.singleton_append]

/-- **The URL of a directory**: the names on the way to it, escaped. -/
theorem folderUrl_eq_encoded {path : String} (h : '\x00' ∉ path.toList) :
    folderUrl path = .ok (directoryUrl (encodeNames (Path.absolute path))) := by
  have hnames : ∀ seg ∈ encodeNames (Path.absolute path), Path.IsName seg :=
    isName_of_mem_encodeNames Path.isName_of_mem_absolute
  have hnul : path.toList.contains '\x00' = false :=
    Bool.eq_false_iff.2 fun hmem => h (List.contains_iff_mem.1 hmem)
  have hslash : Url.encodeChar '/' = ['/'] := by decide
  have hpath : (Path.resolve path).toList = '/' :: Path.joinSegments (Path.absolute path) :=
    String.toList_ofList
  have hurl : (Url.fileUrl (Path.resolve path)).toList =
      "file://".toList ++ '/' :: Path.joinSegments (encodeNames (Path.absolute path)) := by
    rw [Url.fileUrl, String.toList_append, hpath, List.flatMap_cons, hslash,
      flatMap_encodeChar_joinSegments]
    exact congrArg ("file://".toList ++ ·) String.toList_ofList
  rw [folderUrl, hnul, if_neg (by decide), Except.ok.injEq, ← String.toList_inj,
    toList_directoryUrl, Url.folderPath_eq, Target.withSlash, Target.endsInSlash, hurl]
  generalize encodeNames (Path.absolute path) = escaped at hnames hurl ⊢
  by_cases hne : escaped = []
  · rw [hne, if_pos (by decide), hurl, hne]
    rfl
  · have hlast : ("file://".toList ++ '/' :: Path.joinSegments escaped).getLast? ≠ some '/' := by
      have hjoined : Path.joinSegments escaped ≠ [] := fun hnil => hne (by
        rw [← Path.reduce_segments_joinSegments hnames, hnil]
        rfl)
      rw [List.getLast?_append_of_ne_nil _ (List.cons_ne_nil _ _),
        List.getLast?_cons_of_ne_nil hjoined]
      exact Path.getLast?_joinSegments fun seg hseg =>
        ⟨(hnames seg hseg).ne_nil, (hnames seg hseg).no_slash⟩
    rw [if_neg (by simpa using hlast), String.toList_append, hurl, List.append_assoc,
      List.cons_append, ← Path.joinSegments_append_slash hne]
    rfl

/-- The URL of a directory whose path needs no escapes. -/
theorem folderUrl_eq {path : String} (h : ∀ c ∈ path.toList, Url.isUnreserved c = true) :
    folderUrl path = .ok (directoryUrl (Path.absolute path)) := by
  have hself : encodeNames (Path.absolute path) = Path.absolute path := by
    conv_rhs => rw [← List.map_id (Path.absolute path)]
    refine List.map_congr_left fun seg hseg => flatMap_encodeChar ?_
    exact forall_mem_absolute (P := fun c => Url.isUnreserved c = true) rfl h seg hseg
  rw [folderUrl_eq_encoded fun hmem => absurd (h _ hmem) (by decide), hself]

end Values

end ImportAtlas
