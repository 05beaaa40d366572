import ImportAtlas.Proofs.Bases

/-!
# Maps that move on

A value that has been moved is written with the steps to its place, and so its place is the same.
From there it moves on as it would have moved at once, if it still says whether it denotes a
directory: the paths to the new directory and to the one above gain a slash. Prefixes of scopes
that end in slashes are merged by a move when they denote one place; a second move merges no more
of them, and so a map may be moved on, or back.

## Summary

* `placeFrom` is the place that a relative value denotes in a directory.

## Main results

* `placeFrom_movedValue`: a value that has been moved denotes the same place.
* `movedValue_movedValue`: moving a value twice is moving it once.
* `ImportMap.rebase_rebase`: moving a map twice is moving it once.
-/

namespace ImportAtlas

open Path (IsName Segment absolute joinSegments parts reduce steps up)

/-! ### Steps to the directory itself and to the one above -/

namespace Path

theorem reduce_append_up {names : List Segment} (h : ∀ seg ∈ names, IsName seg) :
    reduce true (names ++ [up]) = names.dropLast := by
  have hup := foldl_push_replicate_up h 1
  rw [List.replicate_one] at hup
  rw [reduce, List.foldl_append, foldl_push_names true h, List.append_nil, hup,
    List.reverse_reverse, List.dropLast_eq_take]

end Path

/-! ### Values -/

section Values

variable {source target third value value' : String}

/-- The place that a relative value of a map in a directory denotes. -/
def placeFrom (dir value : String) : List Segment := absolute (Path.join dir value)

theorem head?_ne_slash (h : Target.isUrlOrRooted value = false) :
    value.toList.head? ≠ some '/' := by
  rw [Target.isUrlOrRooted, Bool.or_eq_false_iff, Target.isRooted] at h
  exact beq_eq_false_iff_ne.1 h.1

theorem absolute_normalize_join_eq (hsource : source.toList.head? = some '/')
    (h : Target.isUrlOrRooted value = false) :
    absolute (Path.normalize (Path.join source value)) = placeFrom source value :=
  Path.absolute_normalize (Path.head?_join hsource (head?_ne_slash h))

theorem stepsTo_eq (hsource : source.toList.head? = some '/')
    (h : Target.isUrlOrRooted value = false) :
    stepsTo source target value = steps (absolute target) (placeFrom source value) := by
  rw [stepsTo, absolute_normalize_join_eq hsource h]

theorem isName_of_mem_placeFrom {dir : String} : ∀ seg ∈ placeFrom dir value, IsName seg :=
  Path.isName_of_mem_absolute

/-- The parts of a value that has been moved lead to the place of the value. -/
theorem reduce_append_parts_movedValue (hsource : source.toList.head? = some '/')
    (h : Target.isUrlOrRooted value = false) :
    reduce true (absolute target ++ parts (movedValue source target value)) =
      placeFrom source value := by
  rw [parts_movedValue h, stepsTo_eq hsource h]
  exact Path.reduce_append_steps Path.isName_of_mem_absolute isName_of_mem_placeFrom

/-- **A value that has been moved denotes the same place.** -/
theorem placeFrom_movedValue (hsource : source.toList.head? = some '/')
    (htarget : target.toList.head? = some '/') (h : Target.isUrlOrRooted value = false) :
    placeFrom target (movedValue source target value) = placeFrom source value := by
  have hmoved : Target.isUrlOrRooted (movedValue source target value) = false := by
    rw [isUrlOrRooted_movedValue, h]
  rw [← absolute_normalize_join_eq htarget hmoved,
    Path.absolute_normalize_join_parts htarget (head?_ne_slash hmoved),
    reduce_append_parts_movedValue hsource h]

/-- What a value denotes that leads to the new directory or to the one above. -/
theorem placeFrom_of_near (hsource : source.toList.head? = some '/')
    (h : Target.isUrlOrRooted value = false)
    (hnear : stepsTo source target value = [] ∨ stepsTo source target value = [up]) :
    placeFrom source value = absolute target ∨
      placeFrom source value = (absolute target).dropLast := by
  have hplace : reduce true (absolute target ++ stepsTo source target value) =
      placeFrom source value := by
    rw [← parts_movedValue h, reduce_append_parts_movedValue hsource h]
  rcases hnear with hnear | hnear
  · rw [hnear, List.append_nil, Path.reduce_names Path.isName_of_mem_absolute] at hplace
    exact Or.inl hplace.symm
  · rw [hnear, Path.reduce_append_up Path.isName_of_mem_absolute] at hplace
    exact Or.inr hplace.symm

/-- **Moving a value twice is moving it once**, unless the first move leads to the new directory or
to the one above by a value without a slash at the end. -/
theorem movedValue_movedValue (hsource : source.toList.head? = some '/')
    (htarget : target.toList.head? = some '/')
    (hkept : Target.isUrlOrRooted value = false → Target.endsInSlash value = false →
      placeFrom source value ≠ absolute target ∧
        placeFrom source value ≠ (absolute target).dropLast) :
    movedValue target third (movedValue source target value) = movedValue source third value := by
  cases h : Target.isUrlOrRooted value with
  | true =>
      rw [movedValue_of_isUrlOrRooted h, movedValue_of_isUrlOrRooted h,
        movedValue_of_isUrlOrRooted h]
  | false =>
      have hmoved : Target.isUrlOrRooted (movedValue source target value) = false := by
        rw [isUrlOrRooted_movedValue, h]
      refine movedValue_congr hmoved h ?_ ?_
      · rw [absolute_normalize_join_eq htarget hmoved, absolute_normalize_join_eq hsource h,
          placeFrom_movedValue hsource htarget h]
      · rw [Bool.eq_iff_iff, endsInSlash_movedValue_iff h]
        refine or_iff_left_of_imp fun hnear => ?_
        by_contra hslash
        obtain ⟨hself, habove⟩ := hkept h (Bool.eq_false_iff.2 hslash)
        rcases placeFrom_of_near hsource h hnear with hplace | hplace
        · exact hself hplace
        · exact habove hplace

/-- **Values that end in slashes move to one value wherever they do so once.** -/
theorem movedValue_eq_of_movedValue_eq (hsource : source.toList.head? = some '/')
    (hslash : Target.endsInSlash value = true) (hslash' : Target.endsInSlash value' = true)
    (heq : movedValue source third value = movedValue source third value') :
    movedValue source target value = movedValue source target value' := by
  have hkind := isUrlOrRooted_movedValue source third value
  rw [heq, isUrlOrRooted_movedValue] at hkind
  cases h : Target.isUrlOrRooted value with
  | true =>
      rw [h] at hkind
      rw [movedValue_of_isUrlOrRooted h, movedValue_of_isUrlOrRooted hkind] at heq
      rw [heq]
  | false =>
      rw [h] at hkind
      refine movedValue_congr h hkind ?_ (hslash.trans hslash'.symm)
      rw [absolute_normalize_join_eq hsource h, absolute_normalize_join_eq hsource hkind,
        ← @reduce_append_parts_movedValue source third value hsource h, heq,
        reduce_append_parts_movedValue hsource hkind]

end Values

/-! ### Maps -/

namespace ImportMap

variable {f g : String → String} {map : ImportMap} {first second : String}

/-- Only what a function makes of the values of a map matters. -/
theorem rewrite_congr (h : ∀ value ∈ map.values, f value = g value) :
    map.rewrite f = map.rewrite g := by
  have htable : ∀ entries : Imports, (∀ value ∈ entries.values, f value = g value) →
      entries.respell f = entries.respell g := fun entries hentries =>
    Dict.ext (List.map_congr_left fun e he =>
      congrArg (Prod.mk e.1) (hentries e.2 (List.mem_map_of_mem he)))
  rw [rewrite, rewrite, htable _ fun value hvalue => h value (mem_values.2 (Or.inl hvalue))]
  refine List.foldl_ext _ _ _ fun result e he => ?_
  rw [h e.1 (mem_values.2 (Or.inr ⟨e, he, Or.inl rfl⟩)),
    htable e.2 fun value hvalue => h value (mem_values.2 (Or.inr ⟨e, he, Or.inr hvalue⟩))]

/-- **Moving a map twice is moving it once.** Let `first` and `second` be rooted directories, let
the prefixes of the scopes end in slashes, and let no relative target without a slash at the end
denote the second directory or the one above it. Then the map can be moved to the second directory,
and whatever directory it is moved to from there, it is as if it had moved there at once. If that
is the first directory, the map is as a move within this directory leaves it. -/
theorem rebase_rebase (hfirst : first.toList.head? = some '/')
    (hsecond : second.toList.head? = some '/')
    (hprefixes : ∀ q ∈ map.scopes.keys, Target.endsInSlash q = true)
    (htargets : ∀ value ∈ map.values, Target.isUrlOrRooted value = false →
      Target.endsInSlash value = false →
        placeFrom (forwardSlashes first) value ≠ absolute (forwardSlashes second) ∧
          placeFrom (forwardSlashes first) value ≠ (absolute (forwardSlashes second)).dropLast) :
    ∃ moved, map.rebase .relative first second = .ok moved ∧
      ∀ third, ∃ there, moved.rebase .relative second third = .ok there ∧
        map.rebase .relative first third = .ok there := by
  refine ⟨_, rebase_relative_eq _ _ _, fun third => ⟨_, rebase_relative_eq _ _ _, ?_⟩⟩
  have htwice : ∀ value ∈ map.values,
      (movedValue (forwardSlashes second) (forwardSlashes third) ∘
        movedValue (forwardSlashes first) (forwardSlashes second)) value =
          movedValue (forwardSlashes first) (forwardSlashes third) value := fun value hvalue =>
    movedValue_movedValue (head?_forwardSlashes hfirst) (head?_forwardSlashes hsecond)
      (htargets value hvalue)
  -- The second move merges no prefixes that the first has kept apart.
  have hinj : ∀ q ∈ map.scopes.keys, ∀ q' ∈ map.scopes.keys,
      movedValue (forwardSlashes second) (forwardSlashes third)
          (movedValue (forwardSlashes first) (forwardSlashes second) q) =
        movedValue (forwardSlashes second) (forwardSlashes third)
          (movedValue (forwardSlashes first) (forwardSlashes second) q') →
      movedValue (forwardSlashes first) (forwardSlashes second) q =
        movedValue (forwardSlashes first) (forwardSlashes second) q' := by
    intro q hq q' hq' heq
    have hdirect := (htwice q (mem_values_of_mem_keys hq)).symm.trans
      (heq.trans (htwice q' (mem_values_of_mem_keys hq')))
    exact movedValue_eq_of_movedValue_eq (head?_forwardSlashes hfirst) (hprefixes q hq)
      (hprefixes q' hq') hdirect
  rw [rebase_relative_eq, ← rewrite_congr htwice, rewrite_rewrite hinj]

/-- A map with two prefixes for one directory, and with targets beside and above its own. -/
def windingMap : ImportMap :=
  ⟨Dict.ofList [("a", "x/../y.js"), ("b/", "../../../t/"), ("c", "/y"), ("d", "https://h/z")],
    Dict.ofList [("r/../s/", Dict.ofList [("a", "..x")]), ("/t/", Dict.ofList [("a", "../r/")]),
      ("./s/", Dict.ofList [("a", "../r/s/t/y.js")])]⟩

theorem rebase_rebase_windingMap :
    ("/p/q".toList.head? = some '/' ∧ "/p/r/s".toList.head? = some '/' ∧
      (∀ q ∈ windingMap.scopes.keys, Target.endsInSlash q = true) ∧
      ∀ value ∈ windingMap.values, Target.isUrlOrRooted value = false →
        Target.endsInSlash value = false →
          placeFrom (forwardSlashes "/p/q") value ≠ absolute (forwardSlashes "/p/r/s") ∧
            placeFrom (forwardSlashes "/p/q") value ≠
              (absolute (forwardSlashes "/p/r/s")).dropLast) ∧
    ∃ moved, windingMap.rebase .relative "/p/q" "/p/r/s" = .ok moved ∧
      ∀ third, ∃ there, moved.rebase .relative "/p/r/s" third = .ok there ∧
        windingMap.rebase .relative "/p/q" third = .ok there := by
  have hprefixes : ∀ q ∈ windingMap.scopes.keys, Target.endsInSlash q = true := by decide
  have htargets : ∀ value ∈ windingMap.values, Target.isUrlOrRooted value = false →
      Target.endsInSlash value = false →
        placeFrom (forwardSlashes "/p/q") value ≠ absolute (forwardSlashes "/p/r/s") ∧
          placeFrom (forwardSlashes "/p/q") value ≠
            (absolute (forwardSlashes "/p/r/s")).dropLast := by decide +kernel
  exact ⟨⟨by decide, by decide, hprefixes, htargets⟩,
    rebase_rebase (by decide) (by decide) hprefixes htargets⟩

end ImportMap

end ImportAtlas
