import ImportAtlas.Project.Basic
import Mathlib.Data.List.Basic

/-!
# Laws of paths

Reducing a path to its names is what normalization and the written forms of a path leave alone. A
target keeps the names of its path, and so does the normal form of the target.

## Main results

* `Path.reduce_reduce`: reducing reduced segments changes nothing.
* `Path.names_normalizeChars`: normalization keeps the names of a path.
* `Project.targetOfPath_injective`: different paths are different targets.
* `Project.packageFolder_eq_iff`: packages share a folder exactly when they share a place.
* `Project.place_eq_of_normalize_eq`: packages whose folders have one normal form share a place.
-/

namespace ImportAtlas

namespace Path

/-! ### Reducing -/

/-- Segments on a stack that have been reduced: each names something, and reducing them again
gives the same stack. -/
structure Settled (stack : List Segment) : Prop where
  /-- No segment is empty or a dot. -/
  names : ∀ seg ∈ stack, seg ≠ [] ∧ seg ≠ here
  /-- Reducing the segments again changes nothing. -/
  stays : stack.reverse.foldl (push false) [] = stack

theorem push_of_name {rooted : Bool} {stack : List Segment} {seg : Segment} (hempty : seg ≠ [])
    (hhere : seg ≠ here) (hup : seg ≠ up) : push rooted stack seg = seg :: stack := by
  rw [push.eq_def, if_neg (not_or.2 ⟨hempty, hhere⟩), if_neg hup]

/-- The stack below a settled stack is settled. -/
theorem Settled.tail {top : Segment} {below : List Segment} (h : Settled (top :: below))
    (hup : top ≠ up) : Settled below := by
  obtain ⟨hempty, hhere⟩ := h.names top List.mem_cons_self
  refine ⟨fun seg hseg => h.names seg (List.mem_cons_of_mem _ hseg), ?_⟩
  have hstays := h.stays
  rw [List.reverse_cons, List.foldl_append, List.foldl_cons, List.foldl_nil,
    push_of_name hempty hhere hup] at hstays
  exact (List.cons.inj hstays).2

/-- A segment on top of a settled stack leaves it settled, when pushing it does put it there. -/
theorem Settled.cons {stack : List Segment} {seg : Segment} (h : Settled stack)
    (hname : seg ≠ [] ∧ seg ≠ here) (hpush : push false stack seg = seg :: stack) :
    Settled (seg :: stack) := by
  refine ⟨?_, ?_⟩
  · intro other hother
    rcases List.mem_cons.1 hother with rfl | hother
    · exact hname
    · exact h.names other hother
  · rw [List.reverse_cons, List.foldl_append, h.stays, List.foldl_cons, List.foldl_nil, hpush]

/-- **Pushing a segment keeps a stack settled.** -/
theorem Settled.push {stack : List Segment} (h : Settled stack) (rooted : Bool) (seg : Segment) :
    Settled (Path.push rooted stack seg) := by
  by_cases hskip : seg = [] ∨ seg = here
  · rw [Path.push.eq_def, if_pos hskip]
    exact h
  · have hname : seg ≠ [] ∧ seg ≠ here := not_or.1 hskip
    by_cases hup : seg = up
    · subst hup
      rw [Path.push.eq_def, if_neg hskip, if_pos rfl]
      cases stack with
      | nil =>
          cases rooted with
          | true => exact h
          | false => exact h.cons hname rfl
      | cons top below =>
          by_cases htop : top = up
          · simp only [htop, if_true]
            rw [htop] at h
            exact h.cons hname (by simp [Path.push, hname.1, hname.2])
          · simp only [htop, if_false]
            exact h.tail htop
    · rw [push_of_name hname.1 hname.2 hup]
      exact h.cons hname (push_of_name hname.1 hname.2 hup)

theorem settled_foldl_push {rooted : Bool} {stack : List Segment} (h : Settled stack)
    (segs : List Segment) : Settled (segs.foldl (push rooted) stack) := by
  induction segs generalizing stack with
  | nil => exact h
  | cons seg segs ih => exact ih (h.push rooted seg)

theorem settled_nil : Settled [] := ⟨fun _ h => absurd h List.not_mem_nil, rfl⟩

/-- The stack of the reduced segments is settled. -/
theorem settled_reduced (rooted : Bool) (segs : List Segment) :
    Settled (segs.foldl (push rooted) []) := settled_foldl_push settled_nil segs

/-- **Reduced segments stay as they are.** -/
theorem reduce_reduce (rooted : Bool) (segs : List Segment) :
    reduce false (reduce rooted segs) = reduce rooted segs := by
  rw [reduce, reduce, (settled_reduced rooted segs).stays]

/-- Each reduced segment names something. -/
theorem ne_of_mem_reduce {rooted : Bool} {seg : Segment} {segs : List Segment}
    (h : seg ∈ reduce rooted segs) : seg ≠ [] ∧ seg ≠ here :=
  (settled_reduced rooted segs).names seg (List.mem_reverse.1 h)

theorem mem_push {rooted : Bool} {seg other : Segment} {stack : List Segment}
    (h : other ∈ push rooted stack seg) : other = seg ∨ other ∈ stack := by
  rw [push.eq_def] at h
  split at h
  · exact Or.inr h
  split at h
  · rename_i hup
    cases stack with
    | nil =>
        cases rooted with
        | true => exact Or.inr h
        | false =>
            left
            rw [hup]
            exact List.mem_singleton.1 h
    | cons top below =>
        simp only at h
        split at h
        · rw [← hup] at h
          exact List.mem_cons.1 h
        · exact Or.inr (List.mem_cons_of_mem _ h)
  · exact List.mem_cons.1 h

theorem mem_foldl_push {rooted : Bool} {seg : Segment} {segs stack : List Segment}
    (h : seg ∈ segs.foldl (push rooted) stack) : seg ∈ segs ∨ seg ∈ stack := by
  induction segs generalizing stack with
  | nil => exact Or.inr h
  | cons first segs ih =>
      rcases ih h with h | h
      · exact Or.inl (List.mem_cons_of_mem _ h)
      · rcases mem_push h with rfl | h
        · exact Or.inl List.mem_cons_self
        · exact Or.inr h

/-- Reducing makes up no segments. -/
theorem mem_of_mem_reduce {rooted : Bool} {seg : Segment} {segs : List Segment}
    (h : seg ∈ reduce rooted segs) : seg ∈ segs := by
  rcases mem_foldl_push (List.mem_reverse.1 h) with h | h
  · exact h
  · exact absurd h List.not_mem_nil

/-! ### Names of a written path -/

/-- The names of a path, as if it were not rooted. -/
def names (cs : List Char) : List Segment := reduce false (segments cs)

theorem reduce_cons_of_skip {rooted : Bool} {seg : Segment} (h : seg = [] ∨ seg = here)
    (segs : List Segment) : reduce rooted (seg :: segs) = reduce rooted segs := by
  rw [reduce, reduce, List.foldl_cons, push.eq_def, if_pos h]

/-- A leading slash is no name. -/
theorem names_slash_cons (cs : List Char) : names ('/' :: cs) = names cs := by
  have h : segments ('/' :: cs) = [] :: segments cs :=
    @List.splitOn_append_cons_self_of_not_mem Char [] _ _ '/' List.not_mem_nil cs
  rw [names, h, reduce_cons_of_skip (Or.inl rfl), names]

/-- Neither is a dot before a slash. -/
theorem names_dotSlash_append (cs : List Char) : names ('.' :: '/' :: cs) = names cs := by
  have h : segments ('.' :: '/' :: cs) = here :: segments cs :=
    @List.splitOn_append_cons_self_of_not_mem Char ['.'] _ _ '/' (by decide) cs
  rw [names, h, reduce_cons_of_skip (Or.inr rfl), names]

/-- Nor is a slash at the end. -/
theorem names_append_slash (cs : List Char) : names (cs ++ ['/']) = names cs := by
  have h : segments (cs ++ ['/']) = segments cs ++ [[]] :=
    List.splitOn_append_cons_self cs []
  rw [names, h, reduce, List.foldl_append, List.foldl_cons, List.foldl_nil, push.eq_def,
    if_pos (Or.inl rfl), names, reduce]

theorem names_replicate_append (n : Nat) (cs : List Char) :
    names (List.replicate n '/' ++ cs) = names cs := by
  induction n with
  | zero => rfl
  | succ n ih =>
      rw [List.replicate_succ, List.cons_append, names_slash_cons, ih]

/-- No segment of a path has a slash. -/
theorem not_mem_of_mem_segments {cs : List Char} {seg : Segment} (h : seg ∈ segments cs) :
    '/' ∉ seg := by
  induction cs generalizing seg with
  | nil =>
      rw [List.mem_singleton.1 h]
      exact List.not_mem_nil
  | cons c cs ih =>
      rw [segments, List.splitOn_cons_eq_if_modifyHead] at h
      split at h
      · rcases List.mem_cons.1 h with rfl | h
        · exact List.not_mem_nil
        · exact ih h
      · rename_i hc
        have hne : '/' ≠ c := fun heq => hc (beq_iff_eq.2 heq.symm)
        cases hsplit : List.splitOn '/' cs with
        | nil => exact absurd hsplit (List.splitOn_ne_nil '/' cs)
        | cons first more =>
            rw [hsplit, List.modifyHead_cons] at h
            have hall : ∀ other ∈ first :: more, '/' ∉ other := fun other hother =>
              ih (by rw [segments, hsplit]; exact hother)
            rcases List.mem_cons.1 h with rfl | h
            · exact fun hmem => (List.mem_cons.1 hmem).elim hne (hall first List.mem_cons_self)
            · exact hall seg (List.mem_cons_of_mem _ h)

/-- Segments written with slashes between them are read again, reduced. -/
theorem names_joinSegments {segs : List Segment} (h : ∀ seg ∈ segs, '/' ∉ seg) :
    names (joinSegments segs) = reduce false segs := by
  cases segs with
  | nil => rfl
  | cons seg segs =>
      rw [names, segments, joinSegments, List.splitOn_intercalate '/' h (List.cons_ne_nil _ _)]

/-- The reduced segments of a path, rooted as it is. -/
def reducedNames (cs : List Char) : List Segment := reduce (rootSlashes cs ≠ 0) (segments cs)

/-- **Normalization keeps the names of a path.** -/
theorem names_normalizeChars (cs : List Char) : names (normalizeChars cs) = reducedNames cs := by
  have htext : names (List.replicate (rootSlashes cs) '/' ++ joinSegments (reducedNames cs)) =
      reducedNames cs := by
    rw [names_replicate_append, names_joinSegments, reducedNames, reduce_reduce]
    exact fun seg hseg => not_mem_of_mem_segments (mem_of_mem_reduce hseg)
  rw [normalizeChars]
  split
  · rename_i hempty
    rw [reducedNames] at htext
    rw [List.isEmpty_iff.1 hempty] at htext
    rw [reducedNames, ← htext]
    rfl
  · exact htext

/-- **A normalized path is known by its leading slashes and its names.** -/
theorem normalizeChars_congr {cs cs' : List Char} (hroot : rootSlashes cs = rootSlashes cs')
    (h : reducedNames cs = reducedNames cs') : normalizeChars cs = normalizeChars cs' := by
  rw [reducedNames, reducedNames] at h
  rw [normalizeChars, normalizeChars, h, hroot]

theorem normalizeChars_ne_nil (cs : List Char) : normalizeChars cs ≠ [] := by
  rw [normalizeChars]
  split
  · simp [here]
  · rename_i h
    exact fun hnil => h (List.isEmpty_iff.2 hnil)

/-! ### Joining -/

theorem rootSlashes_eq_zero {cs : List Char} (h : cs.head? ≠ some '/') : rootSlashes cs = 0 := by
  cases cs with
  | nil => rfl
  | cons c cs =>
      have hc : c ≠ '/' := fun heq => h (by rw [heq]; rfl)
      simp [rootSlashes, hc]

theorem rootSlashes_eq_one {cs : List Char} (h : cs.head? ≠ some '/') :
    rootSlashes ('/' :: cs) = 1 := by
  cases cs with
  | nil => rfl
  | cons c cs =>
      have hc : c ≠ '/' := fun heq => h (by rw [heq]; rfl)
      simp [rootSlashes, hc]

theorem rootSlashes_eq_two {cs : List Char} (h : cs.head? ≠ some '/') :
    rootSlashes ('/' :: '/' :: cs) = 2 := by
  cases cs with
  | nil => rfl
  | cons c cs =>
      have hc : c ≠ '/' := fun heq => h (by rw [heq]; rfl)
      simp [rootSlashes, hc]

/-- **A path that is not rooted leaves the leading slashes to the directory.** -/
theorem rootSlashes_joinChars (dir : List Char) {path : List Char} (h : path.head? ≠ some '/') :
    rootSlashes (joinChars dir path) = rootSlashes dir := by
  rw [joinChars, if_neg h]
  cases dir with
  | nil => exact rootSlashes_eq_zero h
  | cons a dir =>
      by_cases ha : a = '/'
      · subst ha
        cases dir with
        | nil => exact rootSlashes_eq_one h
        | cons b dir =>
            by_cases hb : b = '/'
            · subst hb
              cases dir with
              | nil => exact rootSlashes_eq_two h
              | cons c dir =>
                  by_cases hc : c = '/'
                  · subst hc
                    split <;> rfl
                  · have hne : ∀ l : List Char, (c :: l).head? ≠ some '/' := fun l heq =>
                      hc (Option.some.inj heq)
                    split
                    · exact (rootSlashes_eq_two (hne _)).trans (rootSlashes_eq_two (hne dir)).symm
                    · exact (rootSlashes_eq_two (hne _)).trans (rootSlashes_eq_two (hne dir)).symm
            · have hne : ∀ l : List Char, (b :: l).head? ≠ some '/' := fun l heq =>
                hb (Option.some.inj heq)
              split
              · exact (rootSlashes_eq_one (hne _)).trans (rootSlashes_eq_one (hne dir)).symm
              · exact (rootSlashes_eq_one (hne _)).trans (rootSlashes_eq_one (hne dir)).symm
      · have hne : ∀ l : List Char, (a :: l).head? ≠ some '/' := fun l heq =>
          ha (Option.some.inj heq)
        split
        · exact (rootSlashes_eq_zero (hne _)).trans (rootSlashes_eq_zero (hne dir)).symm
        · exact (rootSlashes_eq_zero (hne _)).trans (rootSlashes_eq_zero (hne dir)).symm

end Path

/-! ### Targets of folders -/

namespace Project

theorem isPrefixOf_dotDot {cs : List Char} (h : "../".toList.isPrefixOf cs = true) :
    ∃ rest, cs = '.' :: '.' :: rest := by
  obtain ⟨rest, hrest⟩ := List.isPrefixOf_iff_prefix.1 h
  exact ⟨'/' :: rest, hrest.symm⟩

/-- The three forms of a target: that of the directory itself, that of a path that leads up, and
that of any other path. -/
theorem targetOfPath_cases (path : String) :
    (path = "." ∧ (targetOfPath path).toList = ['.', '/']) ∨
      (∃ rest, path.toList = '.' :: '.' :: rest ∧ targetOfPath path = path) ∨
        (targetOfPath path).toList = '.' :: '/' :: path.toList := by
  rw [targetOfPath]
  by_cases hhere : path = "."
  · left
    subst hhere
    exact ⟨rfl, rfl⟩
  · rw [if_neg (fun h => hhere (beq_iff_eq.1 h))]
    right
    by_cases hup : (path == ".." || "../".toList.isPrefixOf path.toList) = true
    · left
      rw [if_pos hup]
      rcases Bool.or_eq_true_iff.1 hup with hup | hup
      · rw [beq_iff_eq.1 hup]
        exact ⟨[], rfl, rfl⟩
      · obtain ⟨rest, hrest⟩ := isPrefixOf_dotDot hup
        exact ⟨rest, hrest, rfl⟩
    · right
      rw [if_neg hup, String.toList_append]
      rfl

/-- **Different paths are different targets.** -/
theorem targetOfPath_injective {path path' : String} (hpath : path ≠ "") (hpath' : path' ≠ "")
    (h : targetOfPath path = targetOfPath path') : path = path' := by
  have hnil : path.toList ≠ [] := fun heq => hpath (String.toList_eq_nil_iff.1 heq)
  have hnil' : path'.toList ≠ [] := fun heq => hpath' (String.toList_eq_nil_iff.1 heq)
  rcases targetOfPath_cases path with ⟨rfl, hp⟩ | ⟨rest, hrest, hp⟩ | hp <;>
    rcases targetOfPath_cases path' with ⟨rfl, hp'⟩ | ⟨rest', hrest', hp'⟩ | hp'
  · rfl
  · rw [h, hp', hrest'] at hp
    exact absurd hp (by simp)
  · rw [h, hp'] at hp
    exact absurd (List.cons.inj (List.cons.inj hp).2).2 hnil'
  · rw [← h, hp, hrest] at hp'
    exact absurd hp' (by simp)
  · rw [← hp, h, hp']
  · rw [← h, hp, hrest] at hp'
    exact absurd hp' (by simp)
  · rw [← h, hp] at hp'
    exact absurd (List.cons.inj (List.cons.inj hp').2).2 hnil
  · rw [h, hp', hrest'] at hp
    exact absurd hp (by simp)
  · rw [h, hp'] at hp
    exact (String.toList_injective (List.cons.inj (List.cons.inj hp).2).2).symm

/-- A target begins with a dot. -/
theorem head?_targetOfPath (path : String) : (targetOfPath path).toList.head? = some '.' := by
  rcases targetOfPath_cases path with ⟨-, hp⟩ | ⟨rest, hrest, hp⟩ | hp
  · rw [hp]
    rfl
  · rw [hp, hrest]
    rfl
  · rw [hp]
    rfl

/-- A target has the names of its path. -/
theorem names_targetOfPath (path : String) :
    Path.names (targetOfPath path).toList = Path.names path.toList := by
  rcases targetOfPath_cases path with ⟨rfl, hp⟩ | ⟨-, -, hp⟩ | hp
  · rw [hp]
    rfl
  · rw [hp]
  · rw [hp, Path.names_dotSlash_append]

/-- The path of the folder of a package, from the directory of the map. -/
def place (p : Project) (id : PackageId) : String :=
  Path.normalize (Path.join (Path.join p.base p.settings.packagesDir) id.path)

theorem place_ne_empty (p : Project) (id : PackageId) : p.place id ≠ "" := by
  intro h
  have hnil := congrArg String.toList h
  rw [place, Path.normalize, String.toList_ofList] at hnil
  exact Path.normalizeChars_ne_nil _ hnil

theorem packageFolder_eq (p : Project) (id : PackageId) :
    p.packageFolder id = targetOfPath (p.place id) ++ "/" := rfl

theorem toList_packageFolder (p : Project) (id : PackageId) :
    (p.packageFolder id).toList = (targetOfPath (p.place id)).toList ++ ['/'] := by
  rw [packageFolder_eq, String.toList_append]
  rfl

/-- **Packages share a folder exactly when they share a place.** -/
theorem packageFolder_eq_iff {p : Project} {id id' : PackageId} :
    p.packageFolder id = p.packageFolder id' ↔ p.place id = p.place id' := by
  constructor
  · intro h
    have hlist := congrArg String.toList h
    rw [toList_packageFolder, toList_packageFolder] at hlist
    exact targetOfPath_injective (p.place_ne_empty id) (p.place_ne_empty id')
      (String.toList_injective (List.append_cancel_right hlist))
  · intro h
    rw [packageFolder_eq, packageFolder_eq, h]

end Project

/-! ### Normal forms of folders -/

/-- A text that begins with a dot is no URL. -/
theorem Target.isUrl_eq_false {value : String} (h : value.toList.head? = some '.') :
    Target.isUrl value = false := by
  rw [Target.isUrl]
  cases hcs : value.toList with
  | nil =>
      rw [hcs] at h
      exact absurd h (by simp)
  | cons c rest =>
      rw [hcs] at h
      have hc : c = '.' := Option.some.inj h
      subst hc
      rfl

theorem Target.isUrlOrRooted_eq_false {value : String} (h : value.toList.head? = some '.') :
    Target.isUrlOrRooted value = false := by
  rw [Target.isUrlOrRooted, Target.isRooted, h, Target.isUrl_eq_false h]
  rfl

theorem Target.endsInSlash_append_slash (s : String) : endsInSlash (s ++ "/") = true := by
  rw [endsInSlash, String.toList_append, List.getLast?_append_of_ne_nil _ (by decide)]
  rfl

theorem Target.endsInSlash_withSlash (value : String) : endsInSlash (withSlash value) = true := by
  rw [withSlash]
  split
  · assumption
  · exact endsInSlash_append_slash value

theorem Target.names_withSlash (value : String) :
    Path.names (Target.withSlash value).toList = Path.names value.toList := by
  rw [Target.withSlash]
  split
  · rfl
  · rw [String.toList_append]
    exact Path.names_append_slash _

/-- The normal form of a target that is not rooted has the names of the target. -/
theorem Target.names_normalize {value : String} (h : value.toList.head? ≠ some '/') :
    Path.names (Target.normalize value).toList = Path.names value.toList := by
  have hpath : Path.names (Path.normalize value).toList = Path.names value.toList := by
    rw [Path.normalize, String.toList_ofList, Path.names_normalizeChars, Path.reducedNames,
      Path.rootSlashes_eq_zero h]
    rfl
  rw [Target.normalize]
  split
  · rfl
  · split
    · rw [Target.names_withSlash, hpath]
    · exact hpath

/-- An identifier that was read from a text. -/
def PackageId.Parsed (id : PackageId) : Prop := ∃ text, PackageId.parse? text = some id

/-- The path of a package that was read from a text begins with a letter. -/
theorem PackageId.Parsed.exists_path {id : PackageId} (h : id.Parsed) :
    ∃ c rest, id.path.toList = c :: rest ∧ PackageId.isRegistryChar c = true := by
  obtain ⟨text, htext⟩ := h
  rw [PackageId.parse?, Option.map_eq_some_iff] at htext
  obtain ⟨⟨registry, name, version⟩, hparts, rfl⟩ := htext
  have hregistry : registry = text.toList.takeWhile PackageId.isRegistryChar ∧ registry ≠ [] := by
    rw [PackageId.parseChars?] at hparts
    split at hparts
    · split at hparts
      · exact absurd hparts (by simp)
      · rename_i hvalid
        simp only [Option.map_eq_some_iff, Prod.mk.injEq] at hparts
        obtain ⟨-, -, rfl, -⟩ := hparts
        refine ⟨rfl, fun hnil => hvalid ?_⟩
        rw [hnil, List.isEmpty_nil, Bool.true_or]
    · exact absurd hparts (by simp)
  obtain ⟨hchars, hne⟩ := hregistry
  cases hletters : registry with
  | nil => exact absurd hletters hne
  | cons c rest =>
      have hmem : c ∈ text.toList.takeWhile PackageId.isRegistryChar := by
        rw [← hchars, hletters]
        exact List.mem_cons_self
      have hletter : PackageId.isRegistryChar c = true :=
        List.all_eq_true.1 List.all_takeWhile c hmem
      rw [PackageId.path, String.toList_append, String.toList_append, String.toList_append,
        String.toList_ofList]
      exact ⟨c, _, rfl, hletter⟩

theorem PackageId.Parsed.head?_path {id : PackageId} (h : id.Parsed) :
    id.path.toList.head? ≠ some '/' := by
  obtain ⟨c, rest, hpath, hletter⟩ := h.exists_path
  rw [hpath]
  intro heq
  obtain rfl := Option.some.inj heq
  exact absurd hletter (by decide)

namespace Project

/-- **Packages whose folders have one normal form share a place.** -/
theorem place_eq_of_normalize_eq {p : Project} {id id' : PackageId} (hid : id.Parsed)
    (hid' : id'.Parsed)
    (h : Target.normalize (p.packageFolder id) = Target.normalize (p.packageFolder id')) :
    p.place id = p.place id' := by
  have hhead : ∀ i, (p.packageFolder i).toList.head? = some '.' := by
    intro i
    rw [toList_packageFolder, List.head?_append, head?_targetOfPath]
    rfl
  have hnames : ∀ i, Path.names (Target.normalize (p.packageFolder i)).toList =
      Path.names (p.place i).toList := by
    intro i
    rw [Target.names_normalize (by rw [hhead i]; decide), toList_packageFolder, Path.names_append_slash,
      names_targetOfPath]
  have hplace : Path.names (p.place id).toList = Path.names (p.place id').toList := by
    rw [← hnames, ← hnames, h]
  rw [place, place, Path.normalize, Path.normalize, String.toList_ofList, String.toList_ofList,
    Path.names_normalizeChars, Path.names_normalizeChars] at hplace
  have hroot : ∀ (dir : String) (i : PackageId), i.Parsed →
      Path.rootSlashes (Path.join dir i.path).toList = Path.rootSlashes dir.toList := by
    intro dir i hi
    rw [Path.join, String.toList_ofList, Path.rootSlashes_joinChars _ hi.head?_path]
  rw [place, place, Path.normalize, Path.normalize,
    Path.normalizeChars_congr ((hroot _ id hid).trans (hroot _ id' hid').symm) hplace]

end Project

end ImportAtlas
