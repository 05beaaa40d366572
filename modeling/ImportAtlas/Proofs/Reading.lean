import ImportAtlas.Package.Reader
import ImportAtlas.Proofs.Dict

/-!
# Laws of the manifest reader

Asking for a manifest and completing its reading are separate events, and events of many readings
may be mixed in any order. A completed reading never changes, and it has the result that the
installation gives, whatever happened in between.

## Main results

* `ManifestReader.result?_request`, `ManifestReader.result?_finish_of_some`: a completed reading
  stays.
* `ManifestReader.Faithful`: completed readings have the results that the installation gives, an
  invariant of both events.
* `ManifestReader.exists_result?_getAll`: what was waited for has been read.
-/

namespace ImportAtlas.ManifestReader

variable {inst : Installation} {reader : ManifestReader}

/-! ### Single events -/

/-- A reading has a result when the dictionary says so. -/
theorem result?_eq_some_iff {id : PackageId} {result : Except Error Manifest} :
    reader.result? id = some result ↔ reader.readings.get? id = some (.finished result) := by
  rw [result?]
  cases h : reader.readings.get? id with
  | none => simp
  | some reading => cases reading <;> simp

/-- Asking completes no reading. -/
@[simp] theorem result?_request (id id' : PackageId) :
    (reader.request inst id).result? id' = reader.result? id' := by
  rw [request]
  by_cases hc : reader.readings.contains id = true
  · rw [if_pos hc]
  · rw [if_neg hc]
    have hnone : reader.readings.get? id = none :=
      Dict.get?_eq_none_iff.2 fun hk => hc (Dict.contains_eq_true.2 hk)
    by_cases hid : id' = id
    · subst hid
      simp [result?, Dict.get?_insert, hnone]
    · simp [result?, Dict.get?_insert, hid]

theorem mem_keys_request {id id' : PackageId} :
    id' ∈ (reader.request inst id).readings.keys ↔ id' = id ∨ id' ∈ reader.readings.keys := by
  rw [request]
  by_cases hc : reader.readings.contains id = true
  · rw [if_pos hc]
    refine ⟨Or.inr, ?_⟩
    rintro (rfl | h)
    · exact Dict.contains_eq_true.1 hc
    · exact h
  · rw [if_neg hc]
    exact Dict.mem_keys_insert

/-- A completed reading is not touched by the completion of any reading. -/
theorem result?_finish_of_some {id id' : PackageId} {result : Except Error Manifest}
    (h : reader.result? id' = some result) :
    (reader.finish inst id).result? id' = some result := by
  rw [finish]
  rw [result?_eq_some_iff] at h
  split
  · rename_i hu
    by_cases hid : id' = id
    · subst hid
      rw [h] at hu
      exact absurd (Option.some.inj hu) (by simp)
    · rw [result?_eq_some_iff, Dict.get?_insert, if_neg hid, h]
  · exact result?_eq_some_iff.2 h

theorem mem_keys_finish {id id' : PackageId} :
    id' ∈ (reader.finish inst id).readings.keys ↔ id' ∈ reader.readings.keys := by
  rw [finish]
  split
  · rename_i hu
    rw [Dict.mem_keys_insert]
    refine ⟨?_, Or.inr⟩
    rintro (rfl | h)
    · exact Dict.mem_keys_of_get? hu
    · exact h
  · rfl

/-- A reading that was asked for is completed by its completion. -/
theorem exists_result?_finish {id : PackageId} (h : id ∈ reader.readings.keys) :
    ∃ result, (reader.finish inst id).result? id = some result := by
  obtain ⟨reading, hr⟩ := Dict.mem_keys_iff.1 h
  cases reading with
  | underWay =>
      refine ⟨inst.manifest id, ?_⟩
      rw [finish, hr, result?_eq_some_iff, Dict.get?_insert, if_pos rfl]
  | finished result =>
      exact ⟨result, result?_finish_of_some (result?_eq_some_iff.2 hr)⟩

/-! ### Faithful readings -/

/-- Every completed reading has the result that the installation gives. -/
def Faithful (inst : Installation) (reader : ManifestReader) : Prop :=
  ∀ id result, reader.result? id = some result → result = inst.manifest id

theorem faithful_empty (inst : Installation) : Faithful inst empty := by
  intro id result h
  rw [result?_eq_some_iff] at h
  exact absurd h (by simp [empty])

theorem Faithful.request (h : Faithful inst reader) (id : PackageId) :
    Faithful inst (reader.request inst id) := by
  intro id' result hr
  rw [result?_request] at hr
  exact h id' result hr

theorem Faithful.finish (h : Faithful inst reader) (id : PackageId) :
    Faithful inst (reader.finish inst id) := by
  intro id' result hr
  rw [ManifestReader.finish] at hr
  split at hr
  · rw [result?_eq_some_iff, Dict.get?_insert] at hr
    by_cases hid : id' = id
    · rw [if_pos hid] at hr
      rw [hid]
      exact (Reading.finished.inj (Option.some.inj hr)).symm
    · rw [if_neg hid] at hr
      exact h id' result (result?_eq_some_iff.2 hr)
  · exact h id' result hr

/-! ### Asking for several manifests -/

theorem mem_keys_foldl_request {ids : List PackageId} {id : PackageId} :
    id ∈ (ids.foldl (request inst) reader).readings.keys ↔
      id ∈ ids ∨ id ∈ reader.readings.keys := by
  induction ids generalizing reader with
  | nil => simp
  | cons id' ids ih =>
      rw [List.foldl_cons, ih, mem_keys_request, List.mem_cons]
      tauto

theorem result?_foldl_finish_of_some {ids : List PackageId} {id : PackageId}
    {result : Except Error Manifest} (h : reader.result? id = some result) :
    (ids.foldl (finish inst) reader).result? id = some result := by
  induction ids generalizing reader with
  | nil => exact h
  | cons id' ids ih => exact ih (result?_finish_of_some h)

theorem exists_result?_foldl_finish {ids : List PackageId} {id : PackageId} (hid : id ∈ ids)
    (h : id ∈ reader.readings.keys) :
    ∃ result, (ids.foldl (finish inst) reader).result? id = some result := by
  induction ids generalizing reader with
  | nil => simp at hid
  | cons id' ids ih =>
      rcases List.mem_cons.1 hid with rfl | hid
      · obtain ⟨result, hr⟩ := @exists_result?_finish inst _ _ h
        refine ⟨result, ?_⟩
        rw [List.foldl_cons]
        exact result?_foldl_finish_of_some hr
      · exact ih hid (mem_keys_finish.2 h)

/-- **What was waited for has been read.** -/
theorem exists_result?_getAll (inst : Installation) (reader : ManifestReader) {ids : List PackageId}
    {id : PackageId} (hid : id ∈ ids) :
    ∃ result, (reader.getAll inst ids).result? id = some result :=
  exists_result?_foldl_finish hid (mem_keys_foldl_request.2 (Or.inl hid))

/-- What had been read before is still there. -/
theorem result?_getAll_of_some {ids : List PackageId} {id : PackageId}
    {result : Except Error Manifest} (h : reader.result? id = some result) :
    (reader.getAll inst ids).result? id = some result := by
  refine result?_foldl_finish_of_some ?_
  induction ids generalizing reader with
  | nil => exact h
  | cons id' ids ih => exact ih (by rw [result?_request]; exact h)

/-! ### The manifests that have been read -/

/-- The manifest of a package that has been read. -/
def manifestOf (reader : ManifestReader) (id : PackageId) : Manifest :=
  ((reader.result? id).bind Except.toOption).getD default

/-- Whether the manifests of some packages have been read without fault. -/
def HasRead (reader : ManifestReader) (ids : List PackageId) : Prop :=
  ∀ id ∈ ids, ∃ manifest, reader.result? id = some (.ok manifest)

end ImportAtlas.ManifestReader
