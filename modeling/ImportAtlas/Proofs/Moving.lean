import ImportAtlas.ImportMap.Rebase
import ImportAtlas.Proofs.Places

/-!
# Values that move

A relative value of a map is rewritten when the map moves to another directory. It denotes the same
place there as before, if it is written in plain characters and does not name a directory around
the new place of the map as if it were a file: the rewritten value names such a directory by `..`
segments, which denote a directory. Rooted values and URLs stay as they are, and denote the same
place in every directory; a rooted value that is `//` and nothing else names no place at all.

## Summary

* `movedValue` is a value as it is in another directory, `movedSegments` the segments of a relative
  one.
* `Movable` are the values that keep denoting the same place.

## Main results

* `endsInSlash_movedValue_iff`: when a value that has been moved ends in a slash.
* `segments_movedValue`: the segments of a value that has been moved.
* `Movable.mapUrl_movedValue`: a value denotes the same place when it has been moved.
-/

namespace ImportAtlas

open Path (IsName here up reduce segments joinSegments steps)

/-! ### Rewriting a value -/

/-- A value of a map in `source` as it is in a map in `target`. -/
def movedValue (source target value : String) : String :=
  match rebasePath .relative source target value value with
  | .ok moved => moved
  | .error _ => value

variable {source target value : String}

/-- A value that is a URL or rooted stays as it is. -/
theorem movedValue_of_isUrlOrRooted (h : Target.isUrlOrRooted value = true) :
    movedValue source target value = value := by
  rw [movedValue, rebasePath, if_pos h]

/-- The steps from the new directory of a map to the place of a value. -/
def stepsTo (source target value : String) : List Path.Segment :=
  steps (Path.absolute target) (Path.absolute (Path.normalize (Path.join source value)))

/-- A path that does not climb is begun with a dot. -/
def leadSegments (segs : List Path.Segment) : List Path.Segment :=
  if segs.head? = some up then [] else [here]

/-- The segments of a relative value that is moved. -/
def movedSegments (source target value : String) : List Path.Segment :=
  leadSegments (stepsTo source target value) ++ stepsTo source target value ++
    if Target.endsInSlash value then [[]] else []

/-- A path climbs if its first segment does. -/
theorem climbs_iff {segs : List Path.Segment} {path : String} (hslash : ∀ seg ∈ segs, '/' ∉ seg)
    (hne : segs ≠ []) (hpath : path.toList = joinSegments segs) :
    climbs path = true ↔ segs.head? = some up := by
  have hsegments : segments path.toList = segs := by
    rw [hpath, Path.segments_joinSegments hslash hne]
  rw [climbs, Bool.or_eq_true, beq_iff_eq, List.isPrefixOf_iff_prefix]
  constructor
  · rintro (rfl | ⟨rest, hrest⟩)
    · rw [← hsegments]
      rfl
    · have hsplit : segments ("../".toList ++ rest) = up :: segments rest :=
        @List.splitOn_append_cons_self_of_not_mem Char ['.', '.'] _ _ '/' (by decide) rest
      rw [← hsegments, ← hrest, hsplit]
      rfl
  · intro hhead
    obtain ⟨more, rfl⟩ := List.head?_eq_some_iff.1 hhead
    by_cases hmore : more = []
    · left
      rw [hmore, Path.joinSegments_singleton] at hpath
      exact String.toList_injective hpath
    · right
      rw [hpath, Path.joinSegments_cons hmore]
      exact ⟨_, rfl⟩

/-- The steps from one place to another are up and by names. -/
theorem mem_steps {start place : List Path.Segment} (h : ∀ seg ∈ place, IsName seg) :
    ∀ seg ∈ steps start place, seg = up ∨ IsName seg := by
  intro seg hseg
  rcases List.mem_append.1 hseg with hseg | hseg
  · exact Or.inl (List.eq_of_mem_replicate hseg)
  · exact Or.inr (h seg (List.mem_of_mem_drop hseg))

theorem mem_stepsTo {seg : Path.Segment} (h : seg ∈ stepsTo source target value) :
    seg ≠ [] ∧ seg ≠ here ∧ '/' ∉ seg := by
  rcases mem_steps Path.isName_of_mem_absolute seg h with rfl | hname
  · exact ⟨by decide, by decide, by decide⟩
  · exact ⟨hname.ne_nil, hname.ne_here, hname.no_slash⟩

/-- The path between two places, as it is written before it is begun with a dot. -/
theorem toList_pathBetween (hne : stepsTo source target value ≠ [])
    (hup : stepsTo source target value ≠ [up]) :
    (pathBetween source target value).toList = joinSegments (stepsTo source target value) := by
  have hrelative : Path.relative (Path.normalize (Path.join source value)) target =
      String.ofList (joinSegments (stepsTo source target value)) := by
    rw [Path.relative]
    split
    · rename_i heq
      exact absurd heq hne
    · rfl
  have hsegments := Path.segments_joinSegments (fun seg hseg => (mem_stepsTo hseg).2.2) hne
  rw [pathBetween, hrelative, if_neg, String.toList_ofList]
  intro heq
  have htext : joinSegments (stepsTo source target value) = up := by
    rw [← String.toList_ofList (l := joinSegments (stepsTo source target value)),
      beq_iff_eq.1 heq]
    rfl
  rw [htext] at hsegments
  exact hup hsegments.symm

/-- A path between two places, begun with a dot. -/
def ledPath (source target value : String) : String :=
  if climbs (pathBetween source target value) then pathBetween source target value
  else leadPath .relative (pathBetween source target value)

theorem movedValue_eq (h : Target.isUrlOrRooted value = false) :
    movedValue source target value =
      if Target.endsInSlash value then Target.withSlash (ledPath source target value)
      else ledPath source target value := by
  have hmode : (RebaseMode.relative == RebaseMode.rooted) = false := rfl
  simp only [movedValue, rebasePath, h, hmode, Bool.and_false, Bool.false_eq_true, if_false]
  rfl

/-- The path to another place than the directory or the one above. -/
theorem toList_ledPath (hne : stepsTo source target value ≠ [])
    (hup : stepsTo source target value ≠ [up]) :
    (ledPath source target value).toList = joinSegments
      (leadSegments (stepsTo source target value) ++ stepsTo source target value) := by
  have hpath := toList_pathBetween hne hup
  have hclimbs := climbs_iff (fun seg hseg => (mem_stepsTo hseg).2.2) hne hpath
  rw [ledPath, leadSegments]
  by_cases hhead : (stepsTo source target value).head? = some up
  · rw [if_pos (hclimbs.2 hhead), if_pos hhead, List.nil_append, hpath]
  · have hdot : (pathBetween source target value == ".") = false := by
      refine beq_eq_false_iff_ne.2 fun heq => ?_
      have hsegments := Path.segments_joinSegments (fun seg hseg => (mem_stepsTo hseg).2.2) hne
      rw [← hpath, heq] at hsegments
      have hmem : here ∈ stepsTo source target value := by
        rw [← hsegments]
        exact List.mem_cons_self
      exact (mem_stepsTo hmem).2.1 rfl
    rw [if_neg fun h => hhead (hclimbs.1 h), if_neg hhead, leadPath, hdot,
      if_neg Bool.false_ne_true, String.toList_append, hpath, List.singleton_append,
      Path.joinSegments_cons hne]
    rfl

/-- The path to the directory itself, and to the one above. -/
theorem toList_ledPath_of_near
    (h : stepsTo source target value = [] ∨ stepsTo source target value = [up]) :
    (ledPath source target value).toList = joinSegments
      (leadSegments (stepsTo source target value) ++ stepsTo source target value ++ [[]]) := by
  have hsteps : steps (Path.absolute target)
      (Path.absolute (Path.normalize (Path.join source value))) = stepsTo source target value := rfl
  rw [ledPath, pathBetween, Path.relative, hsteps]
  rcases h with h | h <;> rw [h] <;> decide

theorem head?_of_climbs {path : String} (h : climbs path = true) :
    path.toList.head? = some '.' := by
  rw [climbs, Bool.or_eq_true, beq_iff_eq, List.isPrefixOf_iff_prefix] at h
  rcases h with rfl | ⟨rest, hrest⟩
  · rfl
  · rw [← hrest]
    rfl

/-- A relative value that has been moved begins with a dot. -/
theorem head?_movedValue (h : Target.isUrlOrRooted value = false) :
    (movedValue source target value).toList.head? = some '.' := by
  have hled : (ledPath source target value).toList.head? = some '.' := by
    rw [ledPath]
    split
    · rename_i hclimbs
      exact head?_of_climbs hclimbs
    · rw [leadPath, String.toList_append]
      rfl
  rw [movedValue_eq h]
  split
  · rw [Target.withSlash]
    split
    · exact hled
    · rw [String.toList_append, List.head?_append, hled]
      rfl
  · exact hled

theorem isUrlOrRooted_movedValue (source target value : String) :
    Target.isUrlOrRooted (movedValue source target value) = Target.isUrlOrRooted value := by
  cases h : Target.isUrlOrRooted value with
  | true => rw [movedValue_of_isUrlOrRooted h, h]
  | false => exact Target.isUrlOrRooted_eq_false (head?_movedValue h)

/-- **When a value that has been moved ends in a slash**: if it did before, or if it leads to the
new directory or to the one above. -/
theorem endsInSlash_movedValue_iff (h : Target.isUrlOrRooted value = false) :
    Target.endsInSlash (movedValue source target value) = true ↔
      Target.endsInSlash value = true ∨
        stepsTo source target value = [] ∨ stepsTo source target value = [up] := by
  rw [movedValue_eq h]
  cases hslash : Target.endsInSlash value with
  | true =>
      rw [if_pos rfl]
      exact ⟨fun _ => Or.inl rfl, fun _ => Target.endsInSlash_withSlash _⟩
  | false =>
      rw [if_neg Bool.false_ne_true]
      by_cases hnear : stepsTo source target value = [] ∨ stepsTo source target value = [up]
      · refine ⟨fun _ => Or.inr hnear, fun _ => ?_⟩
        rw [Target.endsInSlash, toList_ledPath_of_near hnear]
        rcases hnear with hnear | hnear <;> rw [hnear] <;> decide
      · refine ⟨fun hends => absurd hends ?_, fun hor => absurd (hor.resolve_left ?_) hnear⟩
        · rw [not_or] at hnear
          rw [Target.endsInSlash, toList_ledPath hnear.1 hnear.2, beq_iff_eq]
          refine Path.getLast?_joinSegments fun seg hseg => ?_
          rcases List.mem_append.1 hseg with hlead | hstep
          · rw [leadSegments] at hlead
            split at hlead
            · exact absurd hlead List.not_mem_nil
            · rw [List.mem_singleton.1 hlead]
              exact ⟨by decide, by decide⟩
          · exact ⟨(mem_stepsTo hstep).1, (mem_stepsTo hstep).2.2⟩
        · exact Bool.false_ne_true

/-! ### Relative values -/

/-- A character of a plain path. -/
def isPathChar (c : Char) : Bool := Url.isUnreserved c || c == '@'

/-- A value that is taken from the directory of its map and moves with it: a path of plain
characters that ends in a slash, or in the name of a file. A directory that the map is in after it
was moved is not named as a file. -/
structure Relative (source target value : String) : Prop where
  ne_empty : value ≠ ""
  chars : ∀ c ∈ value.toList, isPathChar c = true
  ending : Target.endsInSlash value = true ∨
    (∀ last ∈ (segments value.toList).getLast?, last ≠ here ∧ last ≠ up) ∧
      ¬ Path.absolute (Path.join source value) <+: Path.absolute target

instance (source target value : String) : Decidable (Relative source target value) :=
  decidable_of_iff (value ≠ "" ∧ value.toList.all isPathChar = true ∧
      (Target.endsInSlash value = true ∨
        (∀ last ∈ (segments value.toList).getLast?, last ≠ here ∧ last ≠ up) ∧
          ¬ Path.absolute (Path.join source value) <+: Path.absolute target))
    ⟨fun ⟨hne, hchars, hending⟩ => ⟨hne, List.all_eq_true.1 hchars, hending⟩,
      fun h => ⟨h.ne_empty, List.all_eq_true.2 h.chars, h.ending⟩⟩

theorem isPlain_of_isPathChar {c : Char} (h : isPathChar c = true) : Url.IsPlain c := by
  rcases Bool.or_eq_true_iff.1 h with h | h
  · exact Url.isPlain_of_isUnreserved h
  · rw [beq_iff_eq.1 h]
    exact ⟨by decide, by decide, rfl⟩

/-- Whether a value ends in a slash is seen in its last segment. -/
theorem endsInSlash_iff (hne : value ≠ "") :
    Target.endsInSlash value = true ↔ (segments value.toList).getLast? = some [] := by
  rw [Target.endsInSlash, beq_iff_eq]
  constructor
  · intro h
    obtain ⟨front, hfront⟩ := List.getLast?_eq_some_iff.1 h
    rw [hfront, segments, List.splitOn_append_cons_self, List.splitOn_nil, List.getLast?_concat]
  · intro h
    obtain ⟨front, hfront⟩ := List.getLast?_eq_some_iff.1 h
    have htext : value.toList = joinSegments (front ++ [[]]) := by
      rw [← hfront]
      exact (List.intercalate_splitOn '/').symm
    by_cases hnil : front = []
    · rw [hnil] at htext
      exact absurd (String.toList_eq_nil_iff.1 htext) hne
    · rw [htext, ← Path.joinSegments_append_slash hnil, List.getLast?_concat]

/-- A path of plain characters is no URL. -/
theorem Relative.isUrl_eq_false (h : Relative source target value) :
    Target.isUrl value = false := by
  have hcolon : ':' ∉ value.toList := fun hmem => absurd (h.chars _ hmem) (by decide)
  rw [Target.isUrl]
  cases hchars : value.toList with
  | nil => rfl
  | cons c rest =>
      rw [hchars] at hcolon
      have hnone : ((rest.dropWhile Target.isSchemeChar).head? == some ':') = false := by
        refine beq_eq_false_iff_ne.2 fun heq => hcolon (List.mem_cons_of_mem _ ?_)
        exact (List.dropWhile_sublist _).subset (List.mem_of_head? heq)
      rw [Target.schemeChars?, hnone, Bool.and_false, if_neg Bool.false_ne_true]
      rfl

theorem Relative.isUrlOrRooted_eq_false (h : Relative source target value)
    (hroot : Target.isRooted value = false) : Target.isUrlOrRooted value = false := by
  rw [Target.isUrlOrRooted, hroot, h.isUrl_eq_false, Bool.or_self]

theorem isLongUrl_eq_false (h : Target.isUrl value = false) : Target.isLongUrl value = false := by
  rw [Target.isUrl, Option.isSome_eq_false_iff, Option.isNone_iff_eq_none] at h
  rw [Target.isLongUrl, h]
  rfl

theorem Relative.leadsToFolder (h : Relative source target value) :
    Url.leadsToFolder (segments value.toList) = Target.endsInSlash value := by
  have hiff := endsInSlash_iff h.ne_empty
  cases hslash : Target.endsInSlash value with
  | true => rw [Url.leadsToFolder, hiff.1 hslash]; rfl
  | false =>
      rcases h.ending with hends | ⟨hnames, -⟩
      · rw [hslash] at hends
        exact absurd hends Bool.false_ne_true
      · obtain ⟨last, hlast⟩ := Option.ne_none_iff_exists'.1
          (fun hnone => List.splitOn_ne_nil '/' _ (List.getLast?_eq_none_iff.1 hnone) :
            (segments value.toList).getLast? ≠ none)
        obtain ⟨hhere, hup⟩ := hnames last hlast
        have hne : last ≠ [] := by
          rintro rfl
          rw [hiff.2 hlast] at hslash
          exact absurd hslash (by decide)
        rw [Url.leadsToFolder, hlast]
        simp [hne, hhere, hup]

section Moved

variable (hsource : source.toList.head? = some '/') (h : Relative source target value)
  (hroot : Target.isRooted value = false)
include hsource h hroot

/-- The steps to a file end in its name. -/
theorem Relative.exists_last_step (hslash : Target.endsInSlash value = false) :
    ∃ before name, stepsTo source target value = before ++ [name] ∧ IsName name := by
  have hhead : value.toList.head? ≠ some '/' := by
    rw [Target.isRooted] at hroot
    simpa using hroot
  obtain ⟨-, happart⟩ := h.ending.resolve_left fun hends => by
    rw [hslash] at hends
    exact absurd hends Bool.false_ne_true
  rw [← Path.absolute_normalize (Path.head?_join hsource hhead)] at happart
  have hnames : ∀ seg ∈ Path.absolute (Path.normalize (Path.join source value)), IsName seg :=
    Path.isName_of_mem_absolute
  rw [stepsTo, steps]
  generalize Path.absolute (Path.normalize (Path.join source value)) = place at *
  generalize hshared : Path.commonLength (Path.absolute target) place = shared
  have hrest : place.drop shared ≠ [] := by
    intro hnil
    refine happart ?_
    have htake := List.take_append_drop shared place
    rw [hnil, List.append_nil, ← hshared, Path.take_commonLength] at htake
    rw [← htake]
    exact List.take_prefix _ _
  refine ⟨List.replicate ((Path.absolute target).length - shared) up ++
    (place.drop shared).dropLast, (place.drop shared).getLast hrest, ?_,
    hnames _ (List.mem_of_mem_drop (List.getLast_mem hrest))⟩
  rw [List.append_assoc, List.dropLast_concat_getLast]

/-- A value that leads to the new directory or to the one above is no file. -/
theorem Relative.endsInSlash_of_near
    (hnear : stepsTo source target value = [] ∨ stepsTo source target value = [up]) :
    Target.endsInSlash value = true := by
  by_contra hnot
  obtain ⟨before, name, heq, hname⟩ := h.exists_last_step hsource hroot (Bool.eq_false_iff.2 hnot)
  rcases hnear with hnear | hnear
  · rw [heq] at hnear
    exact absurd hnear (by simp)
  · rw [heq, ← List.nil_append [up]] at hnear
    exact hname.ne_up (List.cons.inj (List.append_inj_right' hnear rfl)).1

/-- **A value that has been moved is written with the segments that lead to its place.** -/
theorem Relative.toList_movedValue :
    (movedValue source target value).toList = joinSegments (movedSegments source target value) := by
  rw [movedValue_eq (h.isUrlOrRooted_eq_false hroot), movedSegments]
  by_cases hnear : stepsTo source target value = [] ∨ stepsTo source target value = [up]
  · have hpath := toList_ledPath_of_near hnear
    have hslash := h.endsInSlash_of_near hsource hroot hnear
    have hends : Target.endsInSlash (ledPath source target value) = true := by
      rw [Target.endsInSlash, hpath]
      rcases hnear with hnear | hnear <;> rw [hnear] <;> decide
    rw [hslash, if_pos rfl, if_pos rfl, Target.withSlash, if_pos hends, hpath]
  · rw [not_or] at hnear
    have hpath := toList_ledPath hnear.1 hnear.2
    cases hslash : Target.endsInSlash value with
    | false => simpa using hpath
    | true =>
        have hsegs : ∀ seg ∈ leadSegments (stepsTo source target value) ++
            stepsTo source target value, seg ≠ [] ∧ '/' ∉ seg := by
          intro seg hseg
          rcases List.mem_append.1 hseg with hseg | hseg
          · rw [leadSegments] at hseg
            split at hseg
            · exact absurd hseg List.not_mem_nil
            · rw [List.mem_singleton.1 hseg]
              exact ⟨by decide, by decide⟩
          · exact ⟨(mem_stepsTo hseg).1, (mem_stepsTo hseg).2.2⟩
        have hends : Target.endsInSlash (ledPath source target value) = false := by
          rw [Target.endsInSlash, hpath]
          simpa using Path.getLast?_joinSegments hsegs
        rw [if_pos rfl, if_pos rfl, Target.withSlash, hends, if_neg Bool.false_ne_true,
          String.toList_append, hpath, ← Path.joinSegments_append_slash (by simp [hnear.1])]
        rfl

end Moved

theorem not_mem_movedSegments : ∀ seg ∈ movedSegments source target value, '/' ∉ seg := by
  intro seg hseg
  rcases List.mem_append.1 hseg with hseg | hseg
  · rcases List.mem_append.1 hseg with hseg | hseg
    · rw [leadSegments] at hseg
      split at hseg
      · exact absurd hseg List.not_mem_nil
      · rw [List.mem_singleton.1 hseg]
        decide
    · exact (mem_stepsTo hseg).2.2
  · split at hseg
    · rw [List.mem_singleton.1 hseg]
      exact List.not_mem_nil
    · exact absurd hseg List.not_mem_nil

theorem movedSegments_ne_nil : movedSegments source target value ≠ [] := by
  rw [movedSegments, leadSegments]
  split
  · rename_i hup
    obtain ⟨more, hmore⟩ := List.head?_eq_some_iff.1 hup
    rw [hmore]
    exact List.cons_ne_nil _ _
  · exact List.cons_ne_nil _ _

/-- The segments of a value that has been moved lead to its place from the new directory. -/
theorem reduce_append_movedSegments (hsource : source.toList.head? = some '/')
    (hhead : value.toList.head? ≠ some '/') :
    reduce true (Path.absolute target ++ movedSegments source target value) =
      reduce true (Path.absolute source ++ segments value.toList) := by
  have hsteps : reduce true (Path.absolute target ++ stepsTo source target value) =
      Path.absolute (Path.normalize (Path.join source value)) :=
    Path.reduce_append_steps Path.isName_of_mem_absolute Path.isName_of_mem_absolute
  have hlead : reduce true (Path.absolute target ++ (leadSegments (stepsTo source target value) ++
      stepsTo source target value)) =
        reduce true (Path.absolute target ++ stepsTo source target value) := by
    rw [leadSegments]
    split
    · rfl
    · exact Path.reduce_append_cons_of_skip (Or.inr rfl) _ _
  rw [← Path.absolute_normalize_join hsource hhead, ← hsteps, ← hlead, movedSegments]
  split
  · rw [← List.append_assoc, Path.reduce_append_cons_of_skip (Or.inl rfl), List.append_nil]
  · rw [List.append_nil]

namespace Relative

variable (hsource : source.toList.head? = some '/') (h : Relative source target value)
  (hroot : Target.isRooted value = false)
include hsource h hroot

theorem segments_movedValue :
    segments (movedValue source target value).toList = movedSegments source target value := by
  rw [h.toList_movedValue hsource hroot]
  exact Path.segments_joinSegments not_mem_movedSegments movedSegments_ne_nil

theorem leadsToFolder_movedSegments :
    Url.leadsToFolder (movedSegments source target value) = Target.endsInSlash value := by
  rw [Url.leadsToFolder, movedSegments]
  cases hslash : Target.endsInSlash value with
  | true => rw [if_pos rfl, List.getLast?_concat]; rfl
  | false =>
      obtain ⟨before, name, heq, hname⟩ := h.exists_last_step hsource hroot hslash
      rw [if_neg Bool.false_ne_true, List.append_nil, heq, ← List.append_assoc,
        List.getLast?_concat]
      simp [hname.ne_nil, hname.ne_here, hname.ne_up]

/-- A value that has been moved ends in a slash if it did before. -/
theorem endsInSlash_movedValue :
    Target.endsInSlash (movedValue source target value) = Target.endsInSlash value := by
  rw [Bool.eq_iff_iff, endsInSlash_movedValue_iff (h.isUrlOrRooted_eq_false hroot)]
  exact or_iff_left_of_imp (h.endsInSlash_of_near hsource hroot)

end Relative

/-! ### Values that stay -/

namespace Url

/-- Whether a rooted text names no place: what stands for an authority is empty, and no path
follows it. -/
def namesNoPlace (cs : List Char) : Bool :=
  match cs.filter fun c => !isBreak c with
  | ['/', '/'] => true
  | '/' :: '/' :: c :: _ => c == '?' || c == '#'
  | _ => false

/-- The path of a rooted text without an authority is rooted, if the text names a place. -/
theorem head?_path_fileParts {cs : List Char} (hplace : namesNoPlace ('/' :: cs) = false)
    (hauthority : (fileParts ('/' :: cs.filter fun c => !isBreak c)).authority = []) :
    (fileParts ('/' :: cs.filter fun c => !isBreak c)).path.head? = some '/' := by
  have hpath : ∀ rest, (splitAt '?' (splitAt '#' ('/' :: rest)).1).1.head? = some '/' := by
    intro rest
    rw [splitAt, splitAt, List.takeWhile_cons_of_pos (by decide),
      List.takeWhile_cons_of_pos (by decide)]
    rfl
  have hclean : ('/' :: cs).filter (fun c => !isBreak c) = '/' :: cs.filter fun c => !isBreak c :=
    List.filter_cons_of_pos rfl
  rw [namesNoPlace, hclean] at hplace
  generalize (cs.filter fun c => !isBreak c) = rest at *
  cases rest with
  | nil => exact hpath []
  | cons d more =>
      -- Two slashes begin an authority, which has characters unless a mark or the path follows.
      by_cases hd : d = '/'
      · subst hd
        cases more with
        | nil => exact absurd hplace (by decide)
        | cons c more =>
            by_cases hslash : c = '/'
            · subst hslash
              exact hpath more
            · have hmark : c ≠ '?' ∧ c ≠ '#' := by simpa using hplace
              have hsplit : (splitAuthority ('/' :: '/' :: c :: more)).1 =
                  (c :: more).takeWhile fun c => c ≠ '/' ∧ c ≠ '?' ∧ c ≠ '#' := rfl
              rw [fileParts] at hauthority
              rw [show (splitAuthority ('/' :: '/' :: c :: more)).1 = [] from hauthority,
                List.takeWhile_cons_of_pos (by simpa using ⟨hslash, hmark⟩)] at hsplit
              exact absurd hsplit.symm (List.cons_ne_nil _ _)
      · have hsplit : splitAuthority ('/' :: d :: more) = ([], '/' :: d :: more) := by
          rw [splitAuthority]
          exact fun rest heq => hd (List.cons.inj (List.cons.inj heq).2).1
        rw [fileParts, hsplit]
        exact hpath (d :: more)

theorem joinPaths_of_rooted {path : List Char} (h : path.head? = some '/')
    (base base' : List Char) :
    joinPaths base path = joinPaths base' path := by
  rw [joinPaths, joinPaths, if_pos h, if_pos h]

/-- **A rooted reference that names a place denotes it in every directory.** -/
theorem joinChars?_rooted_congr {names names' : List Segment} {cs : List Char}
    (hnames : ∀ seg ∈ names, ∀ c ∈ seg, IsPlain c) (hnames' : ∀ seg ∈ names', ∀ c ∈ seg, IsPlain c)
    (hplace : namesNoPlace ('/' :: cs) = false) :
    joinChars? ("file://".toList ++ folderPath names) ('/' :: cs) =
      joinChars? ("file://".toList ++ folderPath names') ('/' :: cs) := by
  have hbase : ∀ {names : List Segment}, (∀ seg ∈ names, ∀ c ∈ seg, IsPlain c) →
      split? [] ("file://".toList ++ folderPath names) = some (pathParts (folderPath names)) :=
    fun h => split?_path (isPlain_folderPath h) rfl []
  have hsplit : split? "file".toList ('/' :: cs) =
      if isAcceptable (fileParts ('/' :: cs.filter fun c => !isBreak c)).authority then
        some (fileParts ('/' :: cs.filter fun c => !isBreak c)) else none :=
    split?_eq_ite_of_file (splitScheme_cleanUrl_path (Or.inl rfl) _)
  have hpath := @head?_path_fileParts cs hplace
  have hscheme : ∀ names : List Segment, (pathParts (folderPath names)).scheme = "file".toList :=
    fun _ => rfl
  have hauthority : isAuthorityScheme "file".toList = true := by decide
  have hfile : ∀ cs : List Char, (fileParts cs).scheme = "file".toList := fun _ => rfl
  rw [joinChars?, joinChars?, if_neg (by simp), if_neg (by simp), if_neg (by simp),
    if_neg (by simp), hbase hnames, hbase hnames']
  simp only [hscheme, hsplit]
  split
  · rfl
  rename_i r hr
  obtain ⟨-, hr⟩ := Option.ite_none_right_eq_some.1 hr
  obtain rfl := Option.some.inj hr
  simp only [hfile, hauthority]
  by_cases hempty : (fileParts ('/' :: cs.filter fun c => !isBreak c)).authority = []
  · have hrooted := hpath hempty
    have hne : (fileParts ('/' :: cs.filter fun c => !isBreak c)).path.isEmpty = false := by
      cases hp : (fileParts ('/' :: cs.filter fun c => !isBreak c)).path with
      | nil => rw [hp] at hrooted; exact absurd hrooted (by simp)
      | cons => rfl
    simp only [hempty, hne, joinPaths_of_rooted hrooted (pathParts (folderPath names)).path
      (pathParts (folderPath names')).path]
    rfl
  · have hne : (fileParts ('/' :: cs.filter fun c => !isBreak c)).authority.isEmpty = false := by
      simpa using hempty
    simp [hne]

end Url

/-! ### Values that denote the same place -/

/-- A value that keeps denoting the same place when its map moves from `source` to `target`: a URL,
a rooted value that names a place, or a relative value that moves. -/
structure Movable (source target value : String) : Prop where
  rooted : Target.isRooted value = true → Url.namesNoPlace value.toList = false
  relative : Target.isRooted value = false → Target.isLongUrl value = false →
    Relative source target value

instance (source target value : String) : Decidable (Movable source target value) :=
  decidable_of_iff ((Target.isRooted value = true → Url.namesNoPlace value.toList = false) ∧
      (Target.isRooted value = false → Target.isLongUrl value = false →
        Relative source target value))
    ⟨fun ⟨hrooted, hrelative⟩ => ⟨hrooted, hrelative⟩, fun h => ⟨h.rooted, h.relative⟩⟩

/-- A text that begins with a scheme is no path. -/
theorem isPathSpecifier_eq_false (h : Target.isLongUrl value = true) :
    isPathSpecifier value = false := by
  rw [Target.isLongUrl, Option.any_eq_true] at h
  obtain ⟨scheme, hscheme, -⟩ := h
  rw [isPathSpecifier, Target.isRelative, Target.isRooted]
  cases hchars : value.toList with
  | nil => rfl
  | cons c rest =>
      rw [hchars, Target.schemeChars?] at hscheme
      obtain ⟨hc, -⟩ := Option.ite_none_right_eq_some.1 hscheme
      have hdot : c ≠ '.' := by
        rintro rfl
        exact absurd hc (by simp)
      have hslash : c ≠ '/' := by
        rintro rfl
        exact absurd hc (by simp)
      simp [Target.isRelativeChars, List.isPrefixOf, Ne.symm hdot, hdot, hslash]

theorem mapUrl_of_isLongUrl {base : String} (h : Target.isLongUrl value = true) :
    mapUrl base value = .ok value := by
  rw [mapUrl, referenceUrl?, isPathSpecifier_eq_false h, h]
  rfl

theorem Movable.isUrlOrRooted_eq (h : Movable source target value) :
    Target.isUrlOrRooted value = (Target.isRooted value || Target.isLongUrl value) := by
  rw [Target.isUrlOrRooted]
  cases hroot : Target.isRooted value with
  | true => rfl
  | false =>
      cases hlong : Target.isLongUrl value with
      | false => rw [(h.relative hroot hlong).isUrl_eq_false]
      | true =>
          rw [Target.isLongUrl, Option.any_eq_true] at hlong
          obtain ⟨scheme, hscheme, -⟩ := hlong
          rw [Target.isUrl, hscheme]
          rfl

section Places

variable (hsource : source.toList.head? = some '/')
  (hsourceChars : ∀ c ∈ source.toList, Url.isUnreserved c = true)
  (htargetChars : ∀ c ∈ target.toList, Url.isUnreserved c = true)

theorem isPlain_absolute {path : String} (h : ∀ c ∈ path.toList, Url.isUnreserved c = true) :
    ∀ seg ∈ Path.absolute path, ∀ c ∈ seg, Url.IsPlain c :=
  forall_mem_absolute Url.isPlain_slash fun c hc => Url.isPlain_of_isUnreserved (h c hc)

include hsource hsourceChars in
/-- The characters of a value that has been moved are plain. -/
theorem Relative.isPlain_movedValue (h : Relative source target value)
    (hroot : Target.isRooted value = false) :
    ∀ c ∈ (movedValue source target value).toList, Url.IsPlain c := by
  have hhead : value.toList.head? ≠ some '/' := by
    rw [Target.isRooted] at hroot
    simpa using hroot
  have hplace : ∀ seg ∈ Path.absolute (Path.normalize (Path.join source value)),
      ∀ c ∈ seg, Url.IsPlain c := by
    intro seg hseg
    rw [Path.absolute_normalize_join hsource hhead] at hseg
    rcases List.mem_append.1 (Path.mem_of_mem_reduce hseg) with hseg | hseg
    · exact isPlain_absolute hsourceChars seg hseg
    · exact (Url.forall_mem_segments_iff Url.isPlain_slash).2
        (fun c hc => isPlain_of_isPathChar (h.chars c hc)) seg hseg
  have hdot : ∀ c ∈ up, Url.IsPlain c := by
    intro c hc
    have hc : c = '.' := by simpa [up] using hc
    rw [hc]
    exact ⟨by decide, by decide, rfl⟩
  rw [h.toList_movedValue hsource hroot]
  refine forall_mem_joinSegments Url.isPlain_slash fun seg hseg => ?_
  rcases List.mem_append.1 hseg with hseg | hseg
  · rcases List.mem_append.1 hseg with hseg | hseg
    · rw [leadSegments] at hseg
      split at hseg
      · exact absurd hseg List.not_mem_nil
      · rw [List.mem_singleton.1 hseg]
        exact fun c hc => hdot c (List.mem_cons_of_mem _ hc)
    · rcases List.mem_append.1 hseg with hseg | hseg
      · rw [List.eq_of_mem_replicate hseg]
        exact hdot
      · exact hplace seg (List.mem_of_mem_drop hseg)
  · split at hseg
    · rw [List.mem_singleton.1 hseg]
      exact fun c hc => absurd hc List.not_mem_nil
    · exact absurd hseg List.not_mem_nil

include hsource hsourceChars htargetChars

/-- **A relative value denotes the same place when it has been moved.** -/
theorem Relative.mapUrl_movedValue (h : Relative source target value)
    (hroot : Target.isRooted value = false) :
    mapUrl (directoryUrl (Path.absolute target)) (movedValue source target value) =
      mapUrl (directoryUrl (Path.absolute source)) value := by
  have hhead : value.toList.head? ≠ some '/' := by
    rw [Target.isRooted] at hroot
    simpa using hroot
  have hmovedHead : (movedValue source target value).toList.head? = some '.' :=
    head?_movedValue (h.isUrlOrRooted_eq_false hroot)
  have hmovedRoot : Target.isRooted (movedValue source target value) = false := by
    rw [Target.isRooted, hmovedHead]
    rfl
  rw [mapUrl_directoryUrl Path.isName_of_mem_absolute (isPlain_absolute hsourceChars) hroot
      (isLongUrl_eq_false h.isUrl_eq_false) fun c hc => isPlain_of_isPathChar (h.chars c hc),
    mapUrl_directoryUrl Path.isName_of_mem_absolute (isPlain_absolute htargetChars) hmovedRoot
      (isLongUrl_eq_false (Target.isUrl_eq_false hmovedHead))
      (h.isPlain_movedValue hsource hsourceChars hroot),
    h.segments_movedValue hsource hroot, reduce_append_movedSegments hsource hhead,
    h.leadsToFolder_movedSegments hsource hroot, h.leadsToFolder]

/-- **A value denotes the same place when it has been moved.** -/
theorem Movable.mapUrl_movedValue (h : Movable source target value) :
    mapUrl (directoryUrl (Path.absolute target)) (movedValue source target value) =
      mapUrl (directoryUrl (Path.absolute source)) value := by
  cases hroot : Target.isRooted value with
  | true =>
      have hstays : movedValue source target value = value :=
        movedValue_of_isUrlOrRooted (by rw [Target.isUrlOrRooted, hroot, Bool.true_or])
      have hplace := h.rooted hroot
      obtain ⟨cs, hcs⟩ : ∃ cs, value.toList = '/' :: cs := by
        rw [Target.isRooted, beq_iff_eq] at hroot
        exact List.head?_eq_some_iff.1 hroot
      rw [hcs] at hplace
      have hjoin := Url.joinChars?_rooted_congr (isPlain_absolute htargetChars)
        (isPlain_absolute hsourceChars) hplace
      rw [← toList_directoryUrl, ← toList_directoryUrl, ← hcs] at hjoin
      have hpath : isPathSpecifier value = true := by rw [isPathSpecifier, hroot, Bool.or_true]
      rw [hstays, mapUrl_of_isPathSpecifier hpath, mapUrl_of_isPathSpecifier hpath, joinUrl,
        joinUrl, Url.join?, Url.join?, hjoin]
  | false =>
      cases hlong : Target.isLongUrl value with
      | false =>
          exact (h.relative hroot hlong).mapUrl_movedValue hsource hsourceChars htargetChars hroot
      | true =>
          have hstays : movedValue source target value = value := by
            refine movedValue_of_isUrlOrRooted ?_
            rw [h.isUrlOrRooted_eq, hlong, Bool.or_true]
          rw [hstays, mapUrl_of_isLongUrl hlong, mapUrl_of_isLongUrl hlong]

end Places

/-- A value that has been moved ends in a slash if it did before. -/
theorem Movable.endsInSlash_movedValue (hsource : source.toList.head? = some '/')
    (h : Movable source target value) :
    Target.endsInSlash (movedValue source target value) = Target.endsInSlash value := by
  by_cases hstays : Target.isUrlOrRooted value = true
  · rw [movedValue_of_isUrlOrRooted hstays]
  · rw [h.isUrlOrRooted_eq, Bool.or_eq_true, not_or] at hstays
    have hroot := Bool.eq_false_iff.2 hstays.1
    exact (h.relative hroot (Bool.eq_false_iff.2 hstays.2)).endsInSlash_movedValue hsource hroot

/-- A relative value stays relative when it has been moved, and its place can be told from it. -/
theorem Movable.absolute_of_movedValue (hsource : source.toList.head? = some '/')
    (h : Movable source target value) (hurl : Target.isUrlOrRooted value = false) :
    Target.isUrlOrRooted (movedValue source target value) = false ∧
      Path.absolute (Path.join source value) = reduce true (Path.absolute target ++
        segments (movedValue source target value).toList) := by
  rw [h.isUrlOrRooted_eq, Bool.or_eq_false_iff] at hurl
  obtain ⟨hroot, hlong⟩ := hurl
  have hhead : value.toList.head? ≠ some '/' := by
    rw [Target.isRooted] at hroot
    simpa using hroot
  have hne : source.toList ≠ [] := fun hnil => by simp [hnil] at hsource
  have hdot : (movedValue source target value).toList.head? = some '.' :=
    head?_movedValue ((h.relative hroot hlong).isUrlOrRooted_eq_false hroot)
  rw [Target.isUrlOrRooted, Target.isUrl_eq_false hdot, Target.isRooted, hdot,
    (h.relative hroot hlong).segments_movedValue hsource hroot,
    reduce_append_movedSegments hsource hhead, Path.absolute_join hne hhead]
  exact ⟨rfl, rfl⟩

/-- **Values for different places are different when they have been moved.** -/
theorem Movable.eq_of_movedValue_eq {value' : String} (hsource : source.toList.head? = some '/')
    (h : Movable source target value) (h' : Movable source target value')
    (hplaces : Target.isUrlOrRooted value = false → Target.isUrlOrRooted value' = false →
      Path.absolute (Path.join source value) = Path.absolute (Path.join source value') →
        value = value')
    (heq : movedValue source target value = movedValue source target value') : value = value' := by
  cases hurl : Target.isUrlOrRooted value with
  | true =>
      cases hurl' : Target.isUrlOrRooted value' with
      | true => rwa [movedValue_of_isUrlOrRooted hurl, movedValue_of_isUrlOrRooted hurl'] at heq
      | false =>
          have hfalse := (h'.absolute_of_movedValue hsource hurl').1
          rw [← heq, movedValue_of_isUrlOrRooted hurl, hurl] at hfalse
          exact absurd hfalse (by decide)
  | false =>
      cases hurl' : Target.isUrlOrRooted value' with
      | true =>
          have hfalse := (h.absolute_of_movedValue hsource hurl).1
          rw [heq, movedValue_of_isUrlOrRooted hurl', hurl'] at hfalse
          exact absurd hfalse (by decide)
      | false =>
          refine hplaces hurl hurl' ?_
          rw [(h.absolute_of_movedValue hsource hurl).2,
            (h'.absolute_of_movedValue hsource hurl').2, heq]

end ImportAtlas
