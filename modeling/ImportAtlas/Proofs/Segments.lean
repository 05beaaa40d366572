import ImportAtlas.Proofs.Decoding
import ImportAtlas.Url.Join

/-!
# Segments of paths in URLs

A path is as long as its segments make it. Three kinds of segments are told apart: those that name
nothing as they stand, those with an escape, and all others, which are names.

## Summary

* `Segmented` bounds the length of segments.
* `loose` and `escaped` count the segments that name nothing and those with an escape.

## Main results

* `Segmented.length_le`: how long a path with short segments is.
* `length_segments_le`: how many segments a path has when those of its reading are counted.
* `mem_joinPaths`, `loose_joinPaths_le`, `escaped_joinPaths_le`: following a relative path makes up
  no segments, leaves few that name nothing, and adds no escapes.
-/

namespace ImportAtlas.Url

variable {n : Nat} {cs : List Char}

/-! ### Length -/

/-- A text has no slash, or a first one. -/
theorem slash_induction {P : List Char → Prop} (plain : ∀ cs, '/' ∉ cs → P cs)
    (slash : ∀ first rest, '/' ∉ first → P rest → P (first ++ '/' :: rest)) (cs : List Char) :
    P cs := by
  induction h : cs.length using Nat.strongRecOn generalizing cs with
  | _ n ih =>
    subst h
    by_cases hmem : '/' ∈ cs
    · obtain ⟨first, rest, rfl, hfirst⟩ := List.eq_append_cons_of_mem hmem
      refine slash first rest hfirst (ih _ ?_ rest rfl)
      rw [List.length_append, List.length_cons]
      omega
    · exact plain cs hmem

theorem splitOn_slash (rest : List Char) : ('/' :: rest).splitOn '/' = [] :: rest.splitOn '/' := by
  rw [← List.nil_append ('/' :: rest), List.splitOn_append_cons_self, List.splitOn_nil]
  rfl

theorem splitOn_first {first : List Char} (h : '/' ∉ first) (rest : List Char) :
    (first ++ '/' :: rest).splitOn '/' = first :: rest.splitOn '/' := by
  rw [List.splitOn_append_cons_self, List.splitOn_eq_singleton h]
  rfl

/-- A rooted path begins with a slash. -/
theorem intercalate_nil_cons {segs : List Segment} (h : segs ≠ []) :
    ['/'].intercalate ([] :: segs) = '/' :: ['/'].intercalate segs := by
  cases segs with
  | nil => exact absurd rfl h
  | cons seg segs => simp [List.intercalate_cons_cons]

/-- A rooted path begins with its first folder. -/
theorem exists_intercalate_eq {c : Char} {cs : List Char} {segs : List Segment} :
    ∃ rest, ['/'].intercalate ([] :: (c :: cs) :: segs) = '/' :: c :: rest := by
  rw [intercalate_nil_cons (by simp)]
  cases segs with
  | nil => exact ⟨cs, by simp⟩
  | cons seg segs => exact ⟨cs ++ '/' :: ['/'].intercalate (seg :: segs), by simp⟩

/-- Segments hold no slashes. -/
theorem slash_not_mem_of_mem_splitOn {seg : Segment} (h : seg ∈ cs.splitOn '/') : '/' ∉ seg := by
  induction cs using slash_induction with
  | plain cs hcs =>
      rw [List.splitOn_eq_singleton hcs] at h
      exact List.mem_singleton.1 h ▸ hcs
  | slash first rest hfirst ih =>
      rw [splitOn_first hfirst] at h
      rcases List.mem_cons.1 h with rfl | h
      · exact hfirst
      · exact ih h

/-- Every segment of a text has at most `n` characters. -/
def Segmented (n : Nat) (cs : List Char) : Prop := ∀ seg ∈ cs.splitOn '/', seg.length ≤ n

theorem segmented_first_iff {first rest : List Char} (h : '/' ∉ first) :
    Segmented n (first ++ '/' :: rest) ↔ first.length ≤ n ∧ Segmented n rest := by
  rw [Segmented, splitOn_first h, List.forall_mem_cons]
  rfl

theorem segmented_slash_iff : Segmented n ('/' :: cs) ↔ Segmented n cs := by
  rw [Segmented, splitOn_slash, List.forall_mem_cons]
  exact and_iff_right (Nat.zero_le n)

theorem segmented_plain_iff (h : '/' ∉ cs) : Segmented n cs ↔ cs.length ≤ n := by
  rw [Segmented, List.splitOn_eq_singleton h, List.forall_mem_singleton]

theorem segmented_of_length_le (h : cs.length ≤ n) : Segmented n cs := by
  induction cs using slash_induction with
  | plain cs hcs => exact (segmented_plain_iff hcs).2 h
  | slash first rest hfirst ih =>
      rw [List.length_append, List.length_cons] at h
      exact (segmented_first_iff hfirst).2 ⟨by omega, ih (by omega)⟩

/-- **Few short segments make a short text.** -/
theorem Segmented.length_le (h : Segmented n cs) :
    cs.length ≤ (cs.splitOn '/').length * (n + 1) := by
  induction cs using slash_induction with
  | plain cs hcs =>
      have := (segmented_plain_iff hcs).1 h
      rw [List.splitOn_eq_singleton hcs, List.length_singleton]
      omega
  | slash first rest hfirst ih =>
      obtain ⟨hlength, hrest⟩ := (segmented_first_iff hfirst).1 h
      have hle := ih hrest
      rw [splitOn_first hfirst, List.length_append, List.length_cons, List.length_cons,
        Nat.succ_mul]
      omega

/-- A text has a segment more than it has slashes, at most one more than characters. -/
theorem length_splitOn_le (cs : List Char) : (cs.splitOn '/').length ≤ cs.length + 1 := by
  induction cs using slash_induction with
  | plain cs hcs =>
      rw [List.splitOn_eq_singleton hcs, List.length_singleton]
      omega
  | slash first rest hfirst ih =>
      rw [splitOn_first hfirst, List.length_cons, List.length_append, List.length_cons]
      omega

/-- The characters of a text are slashes and those of its segments. -/
theorem forall_mem_segments_iff {P : Char → Prop} (hslash : P '/') :
    (∀ seg ∈ cs.splitOn '/', ∀ c ∈ seg, P c) ↔ ∀ c ∈ cs, P c := by
  induction cs using slash_induction with
  | plain cs hcs => rw [List.splitOn_eq_singleton hcs, List.forall_mem_singleton]
  | slash first rest hfirst ih =>
      rw [splitOn_first hfirst, List.forall_mem_cons, ih, List.forall_mem_append,
        List.forall_mem_cons]
      exact and_congr_right fun _ => ⟨fun h => ⟨hslash, h⟩, And.right⟩

/-! ### Kinds of segments -/

/-- A segment that names nothing: it is empty or a dot. -/
def namesNothing (seg : Segment) : Bool := seg.isEmpty || seg == ['.']

/-- A segment with an escape, or with a lone percent sign. -/
def hasEscape (seg : Segment) : Bool := seg.contains '%'

/-- The number of segments that name nothing as they stand. -/
def loose (cs : List Char) : Nat := (cs.splitOn '/').countP namesNothing

/-- The number of segments with an escape. -/
def escaped (cs : List Char) : Nat := (cs.splitOn '/').countP hasEscape

theorem loose_slash (cs : List Char) : loose ('/' :: cs) = loose cs + 1 := by
  rw [loose, splitOn_slash, List.countP_cons_of_pos rfl]
  rfl

theorem escaped_slash (cs : List Char) : escaped ('/' :: cs) = escaped cs := by
  rw [escaped, splitOn_slash, List.countP_cons_of_neg (by decide)]
  rfl

/-- What stands before a slash adds to the segments that name nothing. -/
theorem loose_le_first {first : List Char} (h : '/' ∉ first) (rest : List Char) :
    loose rest ≤ loose (first ++ '/' :: rest) := by
  rw [loose, loose, splitOn_first h]
  exact (List.sublist_cons_self _ _).countP_le

/-- What stands before a slash adds to the segments with an escape. -/
theorem escaped_le_first {first : List Char} (h : '/' ∉ first) (rest : List Char) :
    escaped rest ≤ escaped (first ++ '/' :: rest) := by
  rw [escaped, escaped, splitOn_first h]
  exact (List.sublist_cons_self _ _).countP_le

theorem loose_le (cs : List Char) : loose cs ≤ cs.length + 1 :=
  Nat.le_trans List.countP_le_length (length_splitOn_le cs)

theorem hasEscape_eq_false {seg : Segment} (h : '%' ∉ cs) (hseg : seg ∈ cs.splitOn '/') :
    hasEscape seg = false := by
  have hall : ∀ seg ∈ cs.splitOn '/', ∀ c ∈ seg, c ≠ '%' :=
    (forall_mem_segments_iff (by decide)).2 fun c hc heq => h (heq ▸ hc)
  exact Bool.eq_false_iff.2 fun htrue => hall seg hseg '%' (List.contains_iff_mem.1 htrue) rfl

theorem escaped_eq_zero (h : '%' ∉ cs) : escaped cs = 0 :=
  List.countP_eq_zero.2 fun seg hseg => by simp [hasEscape_eq_false h hseg]

/-- A segment that is a name is one segment of the reading of a path, a name as well. -/
theorem countP_reading {seg : Segment} (hslash : '/' ∉ seg) (hname : namesNothing seg = false)
    (hescape : hasEscape seg = false) :
    ((decode seg).splitOn '/').countP (fun seg => !namesNothing seg) = 1 := by
  have hmem : '%' ∉ seg := fun hmem => by simp [hasEscape, hmem] at hescape
  rw [decode_eq_self hmem, List.splitOn_eq_singleton hslash, List.countP_singleton, hname]
  rfl

/-- **The segments of a path**: those that name nothing as they stand, those with an escape, and no
more than there are names in what the path reads. -/
theorem length_segments_le (cs : List Char) :
    (cs.splitOn '/').length ≤ loose cs + escaped cs +
      ((decode cs).splitOn '/').countP fun seg => !namesNothing seg := by
  rw [loose, escaped, splitOn_decode, List.countP_flatMap]
  have hslash : ∀ seg ∈ cs.splitOn '/', '/' ∉ seg := fun seg => slash_not_mem_of_mem_splitOn
  generalize cs.splitOn '/' = segs at hslash
  induction segs with
  | nil => exact Nat.zero_le _
  | cons seg segs ih =>
      obtain ⟨hseg, hsegs⟩ := List.forall_mem_cons.1 hslash
      have hle := ih hsegs
      rw [List.length_cons, List.countP_cons, List.countP_cons, List.map_cons, List.sum_cons]
      cases hname : namesNothing seg with
      | true => simp; omega
      | false =>
          cases hescape : hasEscape seg with
          | true => simp; omega
          | false =>
              have := countP_reading hseg hname hescape
              simp [this]
              omega

/-! ### Following a path -/

/-- Following `.` and `..` drops segments. -/
theorem reverse_foldl_pushSegment_sublist (segs stack : List Segment) :
    (segs.foldl pushSegment stack).reverse.Sublist (stack.reverse ++ segs) := by
  induction segs generalizing stack with
  | nil => simp
  | cons seg segs ih =>
      refine (ih _).trans ?_
      rw [pushSegment]
      split
      · have hdrop : (stack.drop 1).reverse.Sublist stack.reverse :=
          (List.drop_sublist 1 stack).reverse
        exact hdrop.append (List.sublist_cons_self seg segs)
      · split
        · exact (List.Sublist.refl _).append (List.sublist_cons_self seg segs)
        · simp

theorem not_mem_foldl_pushSegment {segs stack : List Segment} (h : ['.'] ∉ stack) :
    ['.'] ∉ segs.foldl pushSegment stack := by
  induction segs generalizing stack with
  | nil => exact h
  | cons seg segs ih =>
      refine ih ?_
      rw [pushSegment]
      split
      · exact fun hmem => h (List.mem_of_mem_drop hmem)
      · split
        · exact h
        · rename_i hseg
          exact fun hmem => (List.mem_cons.1 hmem).elim (fun heq => hseg heq.symm) h

theorem removeDots_sublist (segs : List Segment) : (removeDots segs).Sublist (segs ++ [[]]) := by
  have hsub := reverse_foldl_pushSegment_sublist segs []
  rw [List.reverse_nil, List.nil_append] at hsub
  rw [removeDots]
  split
  · exact hsub.append (List.Sublist.refl _)
  · exact hsub.trans (List.sublist_append_left _ _)

theorem dot_not_mem_removeDots (segs : List Segment) : ['.'] ∉ removeDots segs := by
  have hmem : ['.'] ∉ (segs.foldl pushSegment []).reverse := fun h =>
    not_mem_foldl_pushSegment List.not_mem_nil (List.mem_reverse.1 h)
  rw [removeDots]
  split
  · exact fun h => (List.mem_append.1 h).elim hmem (by simp)
  · exact hmem

theorem dropInnerEmpty_sublist (segs : List Segment) : (dropInnerEmpty segs).Sublist segs := by
  cases segs with
  | nil => exact List.Sublist.refl _
  | cons first rest =>
      refine List.Sublist.cons_cons first ?_
      cases hlast : rest.getLast? with
      | none => simp [List.getLast?_eq_none_iff.1 hlast]
      | some last =>
          have hrest : rest.dropLast ++ [last] = rest := List.dropLast_append_getLast? last hlast
          have hsub : (rest.dropLast.filter (!·.isEmpty) ++ [last]).Sublist
              (rest.dropLast ++ [last]) := List.filter_sublist.append (List.Sublist.refl _)
          rwa [hrest] at hsub

/-- Two segments are left empty at most, the first and the last one. -/
theorem countP_isEmpty_dropInnerEmpty (segs : List Segment) :
    (dropInnerEmpty segs).countP List.isEmpty ≤ 2 := by
  cases segs with
  | nil => exact Nat.zero_le _
  | cons first rest =>
      have hinner : (rest.dropLast.filter fun seg => !seg.isEmpty).countP List.isEmpty = 0 :=
        List.countP_eq_zero.2 fun seg hseg => by simpa using (List.mem_filter.1 hseg).2
      have hfirst : (if first.isEmpty then 1 else 0) ≤ 1 := by split <;> omega
      have hlast : rest.getLast?.toList.countP List.isEmpty ≤ 1 :=
        Nat.le_trans List.countP_le_length (by cases rest.getLast? <;> simp)
      rw [dropInnerEmpty, List.countP_cons, List.countP_append, hinner]
      omega

theorem directorySegments_sublist (path : List Char) :
    (directorySegments path).Sublist (path.splitOn '/') := by
  rw [directorySegments]
  split
  · exact List.Sublist.refl _
  · exact List.dropLast_sublist _

/-- The segments that a path is followed through. -/
def mergedSegments (base path : List Char) : List Segment :=
  if path.head? = some '/' then path.splitOn '/'
  else dropInnerEmpty (directorySegments base ++ path.splitOn '/')

theorem mergedSegments_sublist (base path : List Char) :
    (mergedSegments base path).Sublist (base.splitOn '/' ++ path.splitOn '/') := by
  rw [mergedSegments]
  split
  · exact List.sublist_append_right _ _
  · exact (dropInnerEmpty_sublist _).trans
      ((directorySegments_sublist base).append (List.Sublist.refl _))

theorem joinPaths_eq (base path : List Char) :
    joinPaths base path =
      if (['/'].intercalate (removeDots (mergedSegments base path))).isEmpty then ['/']
      else ['/'].intercalate (removeDots (mergedSegments base path)) := rfl

/-- A path that has been followed has the segments that are left, or is the root. -/
theorem splitOn_joinPaths (base path : List Char) :
    (joinPaths base path).splitOn '/' = [[], []] ∨
      (joinPaths base path).splitOn '/' = removeDots (mergedSegments base path) := by
  rw [joinPaths_eq]
  split
  · exact Or.inl rfl
  · rename_i hne
    refine Or.inr (List.splitOn_intercalate '/' (fun seg hseg => ?_) fun hnil => hne ?_)
    · rcases List.mem_append.1 ((removeDots_sublist _).subset hseg) with hmem | hmem
      · rcases List.mem_append.1 ((mergedSegments_sublist base path).subset hmem) with hmem | hmem
        · exact slash_not_mem_of_mem_splitOn hmem
        · exact slash_not_mem_of_mem_splitOn hmem
      · rw [List.mem_singleton.1 hmem]
        exact List.not_mem_nil
    · rw [hnil]
      rfl

/-- **Following a path makes up no segments.** -/
theorem mem_joinPaths {base path : List Char} {seg : Segment}
    (h : seg ∈ (joinPaths base path).splitOn '/') :
    seg = [] ∨ seg ∈ base.splitOn '/' ∨ seg ∈ path.splitOn '/' := by
  rcases splitOn_joinPaths base path with heq | heq
  · rw [heq] at h
    exact Or.inl (by simpa using h)
  · rw [heq] at h
    rcases List.mem_append.1 ((removeDots_sublist _).subset h) with hmem | hmem
    · exact Or.inr (List.mem_append.1 ((mergedSegments_sublist base path).subset hmem))
    · exact Or.inl (List.mem_singleton.1 hmem)

/-- Of the merged segments few are empty. -/
theorem countP_isEmpty_mergedSegments (base path : List Char) :
    (mergedSegments base path).countP List.isEmpty ≤ path.length + 2 := by
  rw [mergedSegments]
  split
  · exact Nat.le_trans List.countP_le_length (Nat.le_succ_of_le (length_splitOn_le path))
  · exact Nat.le_trans (countP_isEmpty_dropInnerEmpty _) (Nat.le_add_left ..)

/-- **Following a path leaves few segments that name nothing**, however many the base has. -/
theorem loose_joinPaths_le (base path : List Char) :
    loose (joinPaths base path) ≤ path.length + 3 := by
  rw [loose]
  rcases splitOn_joinPaths base path with heq | heq
  · rw [heq]
    exact Nat.le_trans (by decide : _ ≤ 2) (by omega)
  · rw [heq]
    have hempty : (removeDots (mergedSegments base path)).countP namesNothing =
        (removeDots (mergedSegments base path)).countP List.isEmpty := by
      refine List.countP_congr fun seg hseg => ?_
      have hdot : seg ≠ ['.'] := fun heq => dot_not_mem_removeDots _ (heq ▸ hseg)
      simp [namesNothing, hdot]
    calc (removeDots (mergedSegments base path)).countP namesNothing
        = (removeDots (mergedSegments base path)).countP List.isEmpty := hempty
      _ ≤ (mergedSegments base path ++ [[]]).countP List.isEmpty :=
          (removeDots_sublist _).countP_le
      _ = (mergedSegments base path).countP List.isEmpty + 1 := by
          rw [List.countP_append]
          rfl
      _ ≤ path.length + 3 := Nat.succ_le_succ (countP_isEmpty_mergedSegments base path)

/-- **Following a path without escapes adds no segments with escapes.** -/
theorem escaped_joinPaths_le {base path : List Char} (h : '%' ∉ path) :
    escaped (joinPaths base path) ≤ escaped base := by
  rw [escaped]
  rcases splitOn_joinPaths base path with heq | heq
  · rw [heq]
    exact Nat.zero_le _
  · rw [heq]
    calc (removeDots (mergedSegments base path)).countP hasEscape
        ≤ (base.splitOn '/' ++ path.splitOn '/' ++ [[]]).countP hasEscape :=
          ((removeDots_sublist _).trans
            ((mergedSegments_sublist base path).append (List.Sublist.refl _))).countP_le
      _ = escaped base := by
          rw [List.countP_append, List.countP_append]
          show escaped base + escaped path + 0 = escaped base
          rw [escaped_eq_zero h]
          rfl

/-! ### Below a folder -/

/-- Following segments without `..` drops the dots. -/
theorem foldl_pushSegment_of_not_mem {segs : List Segment} (h : ['.', '.'] ∉ segs)
    (stack : List Segment) :
    segs.foldl pushSegment stack = (segs.filter (· ≠ ['.'])).reverse ++ stack := by
  induction segs generalizing stack with
  | nil => rfl
  | cons seg segs ih =>
      rw [List.mem_cons, not_or] at h
      rw [List.foldl_cons, ih h.2, pushSegment, if_neg (Ne.symm h.1)]
      by_cases hdot : seg = ['.']
      · simp [hdot]
      · simp [hdot]

/-- A segment that names something in a folder or in one below it. -/
def NamesBelow (seg : Segment) : Prop := seg ≠ [] ∧ '/' ∉ seg ∧ seg ≠ ['.', '.']

variable {folder names : List Segment} {file name : Segment}

theorem splitOn_intercalate_below (h : ∀ seg ∈ names ++ [name], NamesBelow seg) :
    (['/'].intercalate (names ++ [name])).splitOn '/' = names ++ [name] :=
  List.splitOn_intercalate '/' (fun seg hseg => (h seg hseg).2.1) (by simp)

theorem directorySegments_below (h : ∀ seg ∈ folder ++ [file], NamesBelow seg) :
    directorySegments (['/'].intercalate ([] :: (folder ++ [file]))) = [] :: folder := by
  have hfile : file ≠ [] := (h file (by simp)).1
  rw [directorySegments, intercalate_nil_cons (by simp), splitOn_slash,
    splitOn_intercalate_below h, ← List.cons_append, List.getLast?_append, List.dropLast_concat]
  simp [hfile]

theorem mergedSegments_below (hbase : ∀ seg ∈ folder ++ [file], NamesBelow seg)
    (hpath : ∀ seg ∈ names ++ [name], NamesBelow seg) :
    mergedSegments (['/'].intercalate ([] :: (folder ++ [file])))
      (['/'].intercalate (names ++ [name])) = [] :: (folder ++ names ++ [name]) := by
  have hsplit := splitOn_intercalate_below hpath
  have hrooted : (['/'].intercalate (names ++ [name])).head? ≠ some '/' := by
    intro hhead
    obtain ⟨rest, hrest⟩ := List.head?_eq_some_iff.1 hhead
    rw [hrest, splitOn_slash] at hsplit
    exact (hpath [] (hsplit ▸ List.mem_cons_self)).1 rfl
  have hnonempty : (folder ++ names).filter (fun seg => !seg.isEmpty) = folder ++ names := by
    refine List.filter_eq_self.2 fun seg hseg => ?_
    have hne : seg ≠ [] := (List.mem_append.1 hseg).elim
      (fun h => (hbase seg (List.mem_append_left _ h)).1)
      fun h => (hpath seg (List.mem_append_left _ h)).1
    simp [hne]
  rw [mergedSegments, if_neg hrooted, directorySegments_below hbase, hsplit, List.cons_append,
    dropInnerEmpty, ← List.append_assoc, List.dropLast_concat, List.getLast?_append, hnonempty]
  rfl

/-- **A path without `..` leads from a file to what it names below the folder of the file.** -/
theorem joinPaths_below (hbase : ∀ seg ∈ folder ++ [file], NamesBelow seg)
    (hdots : ['.'] ∉ folder) (hpath : ∀ seg ∈ names ++ [name], NamesBelow seg)
    (hname : name ≠ ['.']) :
    joinPaths (['/'].intercalate ([] :: (folder ++ [file]))) (['/'].intercalate (names ++ [name])) =
      ['/'].intercalate ([] :: (folder ++ names.filter (· ≠ ['.']) ++ [name])) := by
  have hup : ['.', '.'] ∉ [] :: (folder ++ names ++ [name]) := by
    intro hmem
    rw [List.mem_cons, List.append_assoc, List.mem_append] at hmem
    rcases hmem with hnil | hmem | hmem
    · exact absurd hnil (by decide)
    · exact (hbase _ (List.mem_append_left _ hmem)).2.2 rfl
    · exact (hpath _ hmem).2.2 rfl
  have hlast : ([] :: (folder ++ names ++ [name])).getLast? = some name := by
    rw [← List.cons_append, List.getLast?_append]
    rfl
  have hremoved : removeDots ([] :: (folder ++ names ++ [name])) =
      [] :: (folder ++ names.filter (· ≠ ['.']) ++ [name]) := by
    have hfolder : ∀ seg ∈ folder, seg ≠ ['.'] := fun seg hseg heq => hdots (heq ▸ hseg)
    have hname' : name ≠ ['.', '.'] := (hpath name (by simp)).2.2
    rw [removeDots, foldl_pushSegment_of_not_mem hup, hlast]
    simpa [hname, hname'] using hfolder
  rw [joinPaths_eq, mergedSegments_below hbase hpath, hremoved, intercalate_nil_cons (by simp)]
  rfl

end ImportAtlas.Url
