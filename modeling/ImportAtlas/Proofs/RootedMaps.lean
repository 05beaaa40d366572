import ImportAtlas.Proofs.RoundTrips

/-!
# Maps that stay within a directory

In the rooted mode a map must not refer to anything outside the directory it moves to. Whether a
value does is seen in how the path to it begins. This is a path of steps, which begins with a step
up exactly when the directory is not on the way to the place of the value; names that begin with
two dots are no steps up, and the directory itself is within itself.

## Main results

* `Path.head?_steps_eq_up_iff`: which paths begin with a step up.
* `leaves_rooted_iff`: which values must not be moved.
* `ImportMap.rebase_rooted_fails_iff`: which maps cannot be moved in the rooted mode, and what
  becomes of the others.
-/

namespace ImportAtlas

open Path (IsName Segment absolute commonLength steps up)

/-! ### Paths that begin with a step up -/

namespace Path

theorem commonLength_of_isPrefix {start target : List Segment} (h : start <+: target) :
    commonLength start target = start.length := by
  obtain ⟨rest, rfl⟩ := h
  induction start with
  | nil => rfl
  | cons a start ih => rw [List.cons_append, commonLength, if_pos rfl, ih, List.length_cons]

theorem isPrefix_of_length_le_commonLength {start target : List Segment}
    (h : start.length ≤ commonLength start target) : start <+: target := by
  have htake := take_commonLength start target
  rw [List.take_of_length_le h] at htake
  rw [← htake]
  exact List.take_prefix _ _

/-- **The path from a place to another begins with a step up** exactly when the first is not on the
way to the second. -/
theorem head?_steps_eq_up_iff {start target : List Segment} (htarget : ∀ seg ∈ target, IsName seg) :
    (steps start target).head? = some up ↔ ¬ start <+: target := by
  constructor
  · intro hhead hway
    rw [steps, commonLength_of_isPrefix hway, Nat.sub_self] at hhead
    have hmem : up ∈ target := List.mem_of_mem_drop (List.mem_of_head? hhead)
    exact (htarget up hmem).ne_up rfl
  · intro hway
    have hlt : 0 < start.length - commonLength start target := by
      by_contra hle
      exact hway (isPrefix_of_length_le_commonLength (by omega))
    obtain ⟨n, hn⟩ := Nat.exists_eq_add_of_lt hlt
    rw [steps, hn, List.replicate_succ]
    rfl

end Path

/-! ### Values that leave a directory -/

section Values

variable {source target value value' : String}

theorem climbs_pathBetween_iff :
    climbs (pathBetween source target value) = true ↔
      (stepsTo source target value).head? = some up := by
  by_cases hnear : stepsTo source target value = [] ∨ stepsTo source target value = [up]
  · have hsteps : steps (absolute target)
        (absolute (Path.normalize (Path.join source value))) = stepsTo source target value := rfl
    rw [pathBetween, Path.relative, hsteps]
    rcases hnear with hnear | hnear <;> rw [hnear] <;> decide
  · rw [not_or] at hnear
    exact climbs_iff (fun seg hseg => (mem_stepsTo hseg).2.2) hnear.1
      (toList_pathBetween hnear.1 hnear.2)

/-- **Which values must not be moved**: the relative ones whose places are neither the directory
nor below it. -/
theorem leaves_rooted_iff (hsource : source.toList.head? = some '/') :
    leaves .rooted source target value = true ↔ Target.isUrlOrRooted value = false ∧
      ¬ absolute target <+: placeFrom source value := by
  rw [leaves, beq_self_eq_true, Bool.true_and, Bool.and_eq_true, Bool.not_eq_true',
    climbs_pathBetween_iff]
  refine and_congr_right fun h => ?_
  rw [stepsTo_eq hsource h]
  exact Path.head?_steps_eq_up_iff isName_of_mem_placeFrom

theorem leadPath_relative (path : String) :
    leadPath .relative path = "./" ++ if path == "." then "" else path := rfl

/-- A value that stays within the directory is moved to one that begins with `./`. -/
theorem exists_movedValue_eq (h : Target.isUrlOrRooted value = false)
    (hstays : leaves .rooted source target value = false) :
    ∃ rest, movedValue source target value = "./" ++ rest := by
  have hclimbs : climbs (pathBetween source target value) = false := by
    rwa [leaves, beq_self_eq_true, Bool.true_and, h, Bool.not_false, Bool.true_and] at hstays
  rw [movedValue_eq h, ledPath, if_neg (Bool.eq_false_iff.1 hclimbs), leadPath_relative]
  generalize (if pathBetween source target value == "." then "" else _) = path
  split
  · rw [Target.withSlash]
    split
    · exact ⟨path, rfl⟩
    · exact ⟨path ++ "/", String.append_assoc ..⟩
  · exact ⟨path, rfl⟩

theorem head?_ne_dot_of_isUrlOrRooted (h : Target.isUrlOrRooted value = true) :
    value.toList.head? ≠ some '.' := fun hhead => by
  rw [Target.isUrlOrRooted_eq_false hhead] at h
  exact absurd h Bool.false_ne_true

/-- Values that are begun with a slash keep apart, if none of them is rooted already. -/
theorem eq_of_rootLead_movedValue_eq (hroot : Target.isRooted value = false)
    (hroot' : Target.isRooted value' = false)
    (hstays : leaves .rooted source target value = false)
    (hstays' : leaves .rooted source target value' = false)
    (heq : rootLead (movedValue source target value) =
      rootLead (movedValue source target value')) :
    movedValue source target value = movedValue source target value' := by
  -- A URL is not begun with a slash, and it does not begin with one.
  have hurl : ∀ {v v' : String}, Target.isUrlOrRooted v = true → Target.isRooted v = false →
      Target.isUrlOrRooted v' = false → leaves .rooted source target v' = false →
        rootLead (movedValue source target v) ≠ rootLead (movedValue source target v') := by
    intro v v' hv hrootv hv' hstaysv' heq
    obtain ⟨rest, hrest⟩ := exists_movedValue_eq hv' hstaysv'
    rw [movedValue_of_isUrlOrRooted hv, rootLead_of_head?_ne (head?_ne_dot_of_isUrlOrRooted hv),
      hrest] at heq
    rw [Target.isRooted, heq, toList_rootLead_dotSlash] at hrootv
    exact absurd hrootv (by simp)
  cases h : Target.isUrlOrRooted value with
  | true =>
      cases h' : Target.isUrlOrRooted value' with
      | true =>
          rwa [movedValue_of_isUrlOrRooted h, movedValue_of_isUrlOrRooted h',
            rootLead_of_head?_ne (head?_ne_dot_of_isUrlOrRooted h),
            rootLead_of_head?_ne (head?_ne_dot_of_isUrlOrRooted h'),
            ← @movedValue_of_isUrlOrRooted source target _ h,
            ← @movedValue_of_isUrlOrRooted source target _ h'] at heq
      | false => exact absurd heq (hurl h hroot h' hstays')
  | false =>
      cases h' : Target.isUrlOrRooted value' with
      | true => exact absurd heq.symm (hurl h' hroot' h hstays)
      | false =>
          obtain ⟨rest, hrest⟩ := exists_movedValue_eq h hstays
          obtain ⟨rest', hrest'⟩ := exists_movedValue_eq h' hstays'
          rw [hrest, hrest'] at heq ⊢
          have htail := congrArg String.toList heq
          rw [toList_rootLead_dotSlash, toList_rootLead_dotSlash] at htail
          rw [String.toList_injective (List.cons.inj htail).2]

end Values

/-! ### Maps that leave a directory -/

namespace ImportMap

variable {source target : String}

/-- **What a map that cannot be moved reports**: one of its values that leaves the directory. -/
theorem exists_of_rebase_rooted_error {map : ImportMap} {error : Error}
    (hsource : source.toList.head? = some '/')
    (h : map.rebase .rooted source target = .error error) :
    ∃ e ∈ map.namedValues, Target.isUrlOrRooted e.2 = false ∧
      ¬ absolute (forwardSlashes target) <+: placeFrom (forwardSlashes source) e.2 ∧
        error = outside (forwardSlashes source) (forwardSlashes target) e := by
  rw [rebase_eq] at h
  cases hfind : map.namedValues.find? fun e =>
      leaves .rooted (forwardSlashes source) (forwardSlashes target) e.2 with
  | none =>
      rw [hfind] at h
      exact absurd h (by simp)
  | some e =>
      rw [hfind] at h
      have hleave : leaves .rooted (forwardSlashes source) (forwardSlashes target) e.2 = true :=
        @List.find?_some _ (fun e : String × String => leaves .rooted _ _ e.2) _ _ hfind
      obtain ⟨hurl, hplace⟩ := (leaves_rooted_iff (head?_forwardSlashes hsource)).1 hleave
      exact ⟨e, List.mem_of_find?_eq_some hfind, hurl, hplace, (Except.error.inj h).symm⟩

/-- What becomes of a map no value of which leaves the directory. -/
theorem rebase_rooted_eq {map : ImportMap} (hstays : ∀ value ∈ map.values,
    leaves .rooted (forwardSlashes source) (forwardSlashes target) value = false) :
    map.rebase .rooted source target = .ok (map.rewrite
      (rootLead ∘ movedValue (forwardSlashes source) (forwardSlashes target))) := by
  rw [rebase_eq, List.find?_eq_none.2 fun e he => ?_]
  · rfl
  · exact Bool.eq_false_iff.1 (hstays e.2 (mem_values_iff.2 ⟨e, he, rfl⟩))

/-- **Which maps cannot be moved in the rooted mode, and what becomes of the others.** Moving a map
from a rooted directory fails exactly when a relative target or prefix denotes a place that is
neither the new directory nor below it, and then it reports such a value. Otherwise the map is
moved as in the relative mode; and if none of its prefixes is rooted, all that differs is that `/`
stands for a leading `./`. -/
theorem rebase_rooted_fails_iff (map : ImportMap) (hsource : source.toList.head? = some '/') :
    ((∃ cause, map.rebase .rooted source target = .error (.map cause)) ↔
      ∃ value ∈ map.values, Target.isUrlOrRooted value = false ∧
        ¬ absolute (forwardSlashes target) <+: placeFrom (forwardSlashes source) value) ∧
    (∀ error, map.rebase .rooted source target = .error error →
      ∃ e ∈ map.namedValues, Target.isUrlOrRooted e.2 = false ∧
        ¬ absolute (forwardSlashes target) <+: placeFrom (forwardSlashes source) e.2 ∧
          error = outside (forwardSlashes source) (forwardSlashes target) e) ∧
    ((∀ value ∈ map.values, Target.isUrlOrRooted value = false →
        absolute (forwardSlashes target) <+: placeFrom (forwardSlashes source) value) →
      ∃ moved rooted, map.rebase .relative source target = .ok moved ∧
        map.rebase .rooted source target = .ok rooted ∧
          ((∀ q ∈ map.scopes.keys, Target.isRooted q = false) →
            Respelled rootLead moved rooted)) := by
  have hleaves : ∀ {value}, leaves .rooted (forwardSlashes source) (forwardSlashes target) value =
      true ↔ Target.isUrlOrRooted value = false ∧
        ¬ absolute (forwardSlashes target) <+: placeFrom (forwardSlashes source) value :=
    leaves_rooted_iff (head?_forwardSlashes hsource)
  refine ⟨⟨?_, ?_⟩, fun error herror => exists_of_rebase_rooted_error hsource herror, ?_⟩
  · rintro ⟨cause, hcause⟩
    obtain ⟨e, he, hurl, hplace, -⟩ := exists_of_rebase_rooted_error hsource hcause
    exact ⟨e.2, mem_values_iff.2 ⟨e, he, rfl⟩, hurl, hplace⟩
  · rintro ⟨value, hvalue, hleave⟩
    obtain ⟨e, he, rfl⟩ := mem_values_iff.1 hvalue
    rw [rebase_eq]
    cases hfind : map.namedValues.find? fun e =>
        leaves .rooted (forwardSlashes source) (forwardSlashes target) e.2 with
    | none => exact absurd (hleaves.2 hleave) (List.find?_eq_none.1 hfind e he)
    | some e' => exact ⟨_, rfl⟩
  · intro hwithin
    have hstays : ∀ value ∈ map.values,
        leaves .rooted (forwardSlashes source) (forwardSlashes target) value = false :=
      fun value hvalue => Bool.eq_false_iff.2 fun hleave =>
        (hleaves.1 hleave).2 (hwithin value hvalue (hleaves.1 hleave).1)
    refine ⟨_, _, rebase_relative_eq _ _ _, rebase_rooted_eq hstays, fun hroots => ?_⟩
    exact respelled_rewrite fun q hq q' hq' heq =>
      eq_of_rootLead_movedValue_eq (hroots q hq) (hroots q' hq')
        (hstays q (mem_values_of_mem_keys hq)) (hstays q' (mem_values_of_mem_keys hq')) heq

/-- A map with two spellings of one prefix, with a name that begins with two dots, and with its
own directory and the one above as targets. -/
def sprawlingMap : ImportMap :=
  ⟨Dict.ofList [("a", "./"), ("b", "../..x.js"), ("c", "/y"), ("d", "https://h/z")],
    Dict.ofList [("r/../s/", Dict.ofList [("a", "..")]), ("./s/", Dict.ofList [("b", "./x")])]⟩

/-- The map above can be moved to the directory above its own, but not within its own. -/
theorem rebase_rooted_fails_iff_sprawlingMap :
    "/p/q".toList.head? = some '/' ∧
    (∃ cause, sprawlingMap.rebase .rooted "/p/q" "/p/q" = .error (.map cause)) ∧
    ∃ moved rooted, sprawlingMap.rebase .relative "/p/q" "/p" = .ok moved ∧
      sprawlingMap.rebase .rooted "/p/q" "/p" = .ok rooted ∧
        Respelled rootLead moved rooted := by
  have hwithin : ∀ value ∈ sprawlingMap.values, Target.isUrlOrRooted value = false →
      absolute (forwardSlashes "/p") <+: placeFrom (forwardSlashes "/p/q") value := by
    decide +kernel
  have habove : "../..x.js" ∈ sprawlingMap.values ∧ Target.isUrlOrRooted "../..x.js" = false ∧
      ¬ absolute (forwardSlashes "/p/q") <+: placeFrom (forwardSlashes "/p/q") "../..x.js" := by
    decide +kernel
  obtain ⟨moved, rooted, hmoved, hrooted, hrespelled⟩ :=
    (@rebase_rooted_fails_iff "/p/q" "/p" sprawlingMap (by decide)).2.2 hwithin
  exact ⟨by decide, (@rebase_rooted_fails_iff "/p/q" "/p/q" sprawlingMap (by decide)).1.2
    ⟨_, habove⟩, moved, rooted, hmoved, hrooted, hrespelled (by decide)⟩

end ImportMap

end ImportAtlas
