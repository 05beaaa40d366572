import ImportAtlas.Proofs.Visits
import Mathlib.Algebra.Order.BigOperators.Group.Finset

/-!
# Calls on one reader

Several callers ask one reader for manifests, some of them for the same package. A call that begins
is entered at once, and it starts a reading if no call for its package did; a reading that has been
started is completed at some time; and a call is answered at some time after that. Calls begin,
readings are completed and answers are given in any order, and the files may change in between.

## Summary

* `Inquiry` is a state of several calls on one reader, and `Inquiry.Step` is what can happen next.
* `Inquiry.Sound` is what holds at every stage: each call is coming, waiting or answered, and what
  was answered is what the reader holds.

## Main results

* `Inquiry.Sound.step`, `Inquiry.sound_of_steps`: soundness is kept by steps, and holds at every
  stage.
* `Inquiry.steps_getAll`: asking for several manifests and then waiting for them is one of the
  orders.
* `Inquiry.read_once_and_shared`: a file is opened once, and all who ask for it get one answer.
-/

namespace ImportAtlas

open Relation

/-- A package's manifest stands in a file exactly when the package is installed and is not described
in the lock file. -/
theorem Installation.needsFile_eq (inst : Installation) (id : PackageId) :
    inst.needsFile id = (inst.graph.packages.get? id).any (·.description?.isNone) := by
  rw [needsFile]
  cases inst.graph.packages.get? id <;> rfl

namespace ManifestReader

variable {inst : Installation} {reader : ManifestReader} {id : PackageId}

/-- Asking opens the file of a package that nobody has asked for, if its manifest stands in one. -/
theorem opened_request (h : reader.opened = reader.readings.keys.filter inst.needsFile)
    (id : PackageId) : (reader.request inst id).opened =
      (reader.request inst id).readings.keys.filter inst.needsFile := by
  rw [request]
  split
  · exact h
  · rename_i hnew
    have hkeys : (reader.readings.insert id .underWay).keys = reader.readings.keys ++ [id] :=
      Dict.keys_insert_of_not_mem fun hkey => hnew (Dict.contains_eq_true.2 hkey)
    rw [hkeys, List.filter_append, ← h]
    cases hneeds : inst.needsFile id <;> simp [hneeds]

/-- Completing a reading opens no file. -/
@[simp] theorem opened_finish : (reader.finish inst id).opened = reader.opened := by
  rw [finish]
  split <;> rfl

/-- Completing a reading starts none. -/
@[simp] theorem keys_finish : (reader.finish inst id).readings.keys = reader.readings.keys := by
  rw [finish]
  split
  · rename_i hunderWay
    exact Dict.keys_insert_of_mem (Dict.mem_keys_of_get? hunderWay)
  · rfl

/-- A reading that is under way gets its result when it is completed, and no other one does. -/
theorem result?_finish_of_underWay (h : reader.readings.get? id = some .underWay)
    (other : PackageId) : (reader.finish inst id).result? other =
      if other = id then some (inst.manifest id) else reader.result? other := by
  rw [finish, h, result?, Dict.get?_insert]
  by_cases hother : other = id
  · rw [if_pos hother, if_pos hother]
  · rw [if_neg hother, if_neg hother, result?]

/-- A reading that is not under way cannot be completed. -/
theorem finish_of_ne (h : reader.readings.get? id ≠ some .underWay) :
    reader.finish inst id = reader := by
  rw [finish]
  split
  · exact absurd ‹_› h
  · rfl

end ManifestReader

/-- A state of several calls on one reader, each for the manifest of a package. -/
structure Inquiry where
  /-- The manifests that were asked for. -/
  reader : ManifestReader
  /-- The calls that have not begun. -/
  coming : Multiset PackageId
  /-- The calls that have begun and have no answer. -/
  waiting : Multiset PackageId
  /-- The calls that have been answered, with their answers. -/
  answered : Multiset (PackageId × Except Error Manifest)

namespace Inquiry

/-- Calls for some packages on a reader that nobody has asked yet. -/
def start (ids : Multiset PackageId) : Inquiry := ⟨.empty, ids, 0, 0⟩

/-- What can happen next: a call begins, a reading that has been started is completed, or a call is
answered. The files may be others than those of the installation, out of `changes`, when a reading
is completed. -/
inductive Step (inst : Installation) (changes : Set FileTree) : Inquiry → Inquiry → Prop
  | ask {q : Inquiry} {id : PackageId} {coming : Multiset PackageId}
      (hcoming : q.coming = id ::ₘ coming) : Step inst changes q { q with
        reader := q.reader.request inst id
        coming
        waiting := id ::ₘ q.waiting }
  | load {q : Inquiry} {id : PackageId} {files : FileTree}
      (hunderWay : q.reader.readings.get? id = some .underWay)
      (hfiles : files ∈ insert inst.files changes) : Step inst changes q { q with
        reader := q.reader.finish { inst with files } id }
  | answer {q : Inquiry} {id : PackageId} {result : Except Error Manifest}
      {waiting : Multiset PackageId} (hwaiting : q.waiting = id ::ₘ waiting)
      (hresult : q.reader.result? id = some result) : Step inst changes q { q with
        waiting
        answered := (id, result) ::ₘ q.answered }

/-- Whether every call has been answered. -/
def Finished (q : Inquiry) : Prop := q.coming = 0 ∧ q.waiting = 0

variable {inst : Installation} {changes : Set FileTree} {ids : Multiset PackageId} {q q' : Inquiry}
  {id : PackageId}

/-! ### What holds at every stage -/

/-- What holds at every stage of calls for some packages. -/
structure Sound (inst : Installation) (changes : Set FileTree) (ids : Multiset PackageId)
    (q : Inquiry) : Prop where
  /-- Every call is coming, waiting or answered. -/
  calls_eq : q.coming + q.waiting + q.answered.map Prod.fst = ids
  /-- A reading has been started for those who have called, and for nobody else. -/
  mem_keys_iff : ∀ id,
    id ∈ q.reader.readings.keys ↔ id ∈ q.waiting ∨ id ∈ q.answered.map Prod.fst
  /-- A file has been opened for each reading that needs one. -/
  opened_eq : q.reader.opened = q.reader.readings.keys.filter inst.needsFile
  /-- An answer is what the reader holds. -/
  result_of_answered : ∀ e ∈ q.answered, q.reader.result? e.1 = some e.2
  /-- A reading that has been completed gave what the files said at that time. -/
  exists_files : ∀ id result, q.reader.result? id = some result →
    ∃ files ∈ insert inst.files changes, result = Installation.manifest { inst with files } id

theorem sound_start (inst : Installation) (changes : Set FileTree) (ids : Multiset PackageId) :
    Sound inst changes ids (start ids) where
  calls_eq := by simp [start]
  mem_keys_iff _ := by
    rw [start, Multiset.map_zero]
    simp only [Multiset.notMem_zero, or_self, iff_false]
    exact List.not_mem_nil
  opened_eq := rfl
  result_of_answered _ h := absurd h (Multiset.notMem_zero _)
  exists_files id result h := by
    rw [ManifestReader.result?_eq_some_iff] at h
    exact absurd h (by simp [start, ManifestReader.empty])

/-- A call begins. -/
theorem Sound.ask (h : Sound inst changes ids q) {coming : Multiset PackageId}
    (hcoming : q.coming = id ::ₘ coming) : Sound inst changes ids { q with
      reader := q.reader.request inst id
      coming
      waiting := id ::ₘ q.waiting } where
  calls_eq := by
    rw [← h.calls_eq, hcoming, Multiset.cons_add, Multiset.add_cons]
  mem_keys_iff other := by
    rw [ManifestReader.mem_keys_request, h.mem_keys_iff, Multiset.mem_cons, or_assoc]
  opened_eq := ManifestReader.opened_request h.opened_eq id
  result_of_answered e he := by
    rw [ManifestReader.result?_request]
    exact h.result_of_answered e he
  exists_files other result hresult := by
    rw [ManifestReader.result?_request] at hresult
    exact h.exists_files other result hresult

/-- A reading is completed. -/
theorem Sound.load (h : Sound inst changes ids q) {files : FileTree}
    (hunderWay : q.reader.readings.get? id = some .underWay)
    (hfiles : files ∈ insert inst.files changes) : Sound inst changes ids { q with
      reader := q.reader.finish { inst with files } id } where
  calls_eq := h.calls_eq
  mem_keys_iff other := by rw [ManifestReader.mem_keys_finish, h.mem_keys_iff]
  opened_eq := by
    rw [ManifestReader.opened_finish, ManifestReader.keys_finish, h.opened_eq]
  result_of_answered e he := ManifestReader.result?_finish_of_some (h.result_of_answered e he)
  exists_files other result hresult := by
    rw [ManifestReader.result?_finish_of_underWay hunderWay] at hresult
    by_cases hother : other = id
    · rw [if_pos hother] at hresult
      exact ⟨files, hfiles, hother ▸ (Option.some.inj hresult).symm⟩
    · rw [if_neg hother] at hresult
      exact h.exists_files other result hresult

/-- A call is answered. -/
theorem Sound.answer (h : Sound inst changes ids q) {result : Except Error Manifest}
    {waiting : Multiset PackageId} (hwaiting : q.waiting = id ::ₘ waiting)
    (hresult : q.reader.result? id = some result) : Sound inst changes ids { q with
      waiting
      answered := (id, result) ::ₘ q.answered } where
  calls_eq := by
    rw [← h.calls_eq, hwaiting, Multiset.map_cons, Multiset.add_cons, Multiset.add_cons,
      Multiset.cons_add]
  mem_keys_iff other := by
    rw [h.mem_keys_iff, hwaiting, Multiset.mem_cons, Multiset.map_cons, Multiset.mem_cons]
    tauto
  opened_eq := h.opened_eq
  result_of_answered e he := by
    rcases Multiset.mem_cons.1 he with rfl | he
    · exact hresult
    · exact h.result_of_answered e he
  exists_files := h.exists_files

/-- **Soundness is kept by every step.** -/
theorem Sound.step (h : Sound inst changes ids q) (hs : Step inst changes q q') :
    Sound inst changes ids q' := by
  cases hs with
  | ask hcoming => exact h.ask hcoming
  | load hunderWay hfiles => exact h.load hunderWay hfiles
  | answer hwaiting hresult => exact h.answer hwaiting hresult

/-- **Every stage is sound**, whatever happened before. -/
theorem sound_of_steps (h : ReflTransGen (Step inst changes) (start ids) q) :
    Sound inst changes ids q := by
  induction h with
  | refl => exact sound_start inst changes ids
  | tail _ hs ih => exact ih.step hs

/-! ### What soundness says -/

/-- No file is opened twice. -/
theorem Sound.nodup_opened (h : Sound inst changes ids q) : q.reader.opened.Nodup := by
  rw [h.opened_eq]
  exact q.reader.readings.nodup_keys.filter _

/-- Two answers for one package are the same. -/
theorem Sound.result_unique (h : Sound inst changes ids q) {result result' : Except Error Manifest}
    (hresult : (id, result) ∈ q.answered) (hresult' : (id, result') ∈ q.answered) :
    result = result' := by
  have heq := h.result_of_answered _ hresult
  rw [h.result_of_answered _ hresult'] at heq
  exact (Option.some.inj heq).symm

/-- Every call has its answer at the end. -/
theorem Sound.map_answered (h : Sound inst changes ids q) (hf : q.Finished) :
    q.answered.map Prod.fst = ids := by
  rw [← h.calls_eq, hf.1, hf.2, Multiset.zero_add, Multiset.zero_add]

/-- The files that have been opened at the end are those of the packages that were asked for. -/
theorem Sound.toFinset_opened (h : Sound inst changes ids q) (hf : q.Finished) :
    q.reader.opened.toFinset = ids.toFinset.filter fun id => inst.needsFile id = true := by
  ext id
  rw [List.mem_toFinset, h.opened_eq, List.mem_filter, h.mem_keys_iff, hf.2, h.map_answered hf,
    Finset.mem_filter, Multiset.mem_toFinset]
  simp

/-- As many files have been opened at the end as packages that need one were asked for. -/
theorem Sound.readCount_eq (h : Sound inst changes ids q) (hf : q.Finished) :
    q.reader.readCount = (ids.toFinset.filter fun id => inst.needsFile id = true).card := by
  rw [← h.toFinset_opened hf, List.toFinset_card_of_nodup h.nodup_opened, ManifestReader.readCount]

/-- **There is a step until every call has been answered.** -/
theorem Sound.exists_step (h : Sound inst changes ids q) (hf : ¬ q.Finished) :
    ∃ q', Step inst changes q q' := by
  by_cases hcoming : q.coming = 0
  · have hwaiting : q.waiting ≠ 0 := fun hw => hf ⟨hcoming, hw⟩
    obtain ⟨id, hid⟩ := Multiset.exists_mem_of_ne_zero hwaiting
    obtain ⟨reading, hreading⟩ := Dict.mem_keys_iff.1 ((h.mem_keys_iff id).2 (Or.inl hid))
    cases reading with
    | underWay => exact ⟨_, .load hreading (Set.mem_insert _ _)⟩
    | finished result =>
        obtain ⟨waiting, hothers⟩ := Multiset.exists_cons_of_mem hid
        exact ⟨_, .answer hothers (ManifestReader.result?_eq_some_iff.2 hreading)⟩
  · obtain ⟨id, hid⟩ := Multiset.exists_mem_of_ne_zero hcoming
    obtain ⟨coming, hothers⟩ := Multiset.exists_cons_of_mem hid
    exact ⟨_, .ask hothers⟩

/-! ### How many steps there are -/

/-- The steps that are left: every call begins and is answered, and every reading is started and
completed. -/
def left (ids : Multiset PackageId) (q : Inquiry) : Nat :=
  2 * q.coming.card + q.waiting.card + ∑ id ∈ ids.toFinset, Stage.unread q.reader id

/-- Asking leaves no more readings to be started and completed. -/
theorem unread_request_le (inst : Installation) (reader : ManifestReader) (id other : PackageId) :
    Stage.unread (reader.request inst id) other ≤ Stage.unread reader other := by
  rw [ManifestReader.request]
  split
  · exact le_rfl
  · rename_i hnew
    by_cases hother : other = id
    · have hnone : reader.readings.get? id = none :=
        Dict.get?_eq_none_iff.2 fun hkey => hnew (Dict.contains_eq_true.2 hkey)
      rw [hother, Stage.unread, Stage.unread, Dict.get?_insert, if_pos rfl, hnone]
      decide
    · rw [Stage.unread, Stage.unread, Dict.get?_insert, if_neg hother]

/-- **Every step leaves less to be done.** -/
theorem Sound.left_lt (h : Sound inst changes ids q) (hs : Step inst changes q q') :
    left ids q' < left ids q := by
  cases hs with
  | @ask id coming hcoming =>
      have hle := Finset.sum_le_sum fun other (_ : other ∈ ids.toFinset) =>
        unread_request_le inst q.reader id other
      simp only [left, hcoming, Multiset.card_cons]
      omega
  | @load id files hunderWay hfiles =>
      have hid : id ∈ ids.toFinset := by
        rw [Multiset.mem_toFinset, ← h.calls_eq, Multiset.mem_add, Multiset.mem_add, or_assoc]
        exact Or.inr ((h.mem_keys_iff id).1 (Dict.mem_keys_of_get? hunderWay))
      have hle : ∑ other ∈ ids.toFinset,
          Stage.unread (q.reader.finish { inst with files } id) other + 1 ≤
            ∑ other ∈ ids.toFinset, Stage.unread q.reader other := by
        rw [ManifestReader.finish, hunderWay]
        refine Stage.sum_add_le hid ?_ fun other hother => ?_
        · simp only [Stage.unread, Dict.get?_insert, if_true, hunderWay]
          omega
        · simp only [Stage.unread, Dict.get?_insert, if_neg hother]
      simp only [left]
      omega
  | @answer id result waiting hwaiting hresult =>
      simp only [left, hwaiting, Multiset.card_cons]
      omega

/-- As many steps are left at the beginning as there are calls and packages, twice each. -/
theorem left_start (ids : Multiset PackageId) :
    left ids (start ids) = 2 * ids.card + 2 * ids.toFinset.card := by
  have hunread : ∀ id, Stage.unread ManifestReader.empty id = 2 := fun _ => rfl
  simp only [left, start, hunread, Multiset.card_zero,
    Finset.sum_const_nat fun _ _ => rfl]
  omega

/-- A run has no more steps than are left at its beginning. -/
theorem length_le {stages : Nat → Inquiry} {n : Nat} (hstart : stages 0 = start ids)
    (hstep : ∀ i < n, Step inst changes (stages i) (stages (i + 1))) :
    n ≤ 2 * ids.card + 2 * ids.toFinset.card := by
  have hsound : Sound inst changes ids (stages 0) := hstart ▸ sound_start inst changes ids
  rw [← left_start, ← hstart]
  exact length_le_of_measure_lt hsound Sound.step Sound.left_lt hstep

/-! ### Asking for several manifests at once -/

/-- All that are asked for are entered, one after the other. -/
theorem steps_foldl_request (ids : List PackageId) (reader : ManifestReader)
    (waiting : Multiset PackageId) (answered : Multiset (PackageId × Except Error Manifest)) :
    ReflTransGen (Step inst changes) ⟨reader, ids, waiting, answered⟩
      ⟨ids.foldl (ManifestReader.request inst) reader, 0, (ids : Multiset PackageId) + waiting,
        answered⟩ := by
  induction ids generalizing reader waiting with
  | nil => rw [Multiset.coe_nil, Multiset.zero_add]; exact .refl
  | cons id ids ih =>
      refine .head (.ask (Multiset.cons_coe id ids).symm) ?_
      rw [← Multiset.cons_coe, Multiset.cons_add, ← Multiset.add_cons]
      exact ih (reader.request inst id) (id ::ₘ waiting)

/-- All readings are completed, one after the other, if they have not been. -/
theorem steps_foldl_finish (ids : List PackageId) (q : Inquiry) :
    ReflTransGen (Step inst changes) q
      { q with reader := ids.foldl (ManifestReader.finish inst) q.reader } := by
  induction ids generalizing q with
  | nil => exact .refl
  | cons id ids ih =>
      refine .trans ?_ (ih { q with reader := q.reader.finish inst id })
      by_cases hunderWay : q.reader.readings.get? id = some .underWay
      · exact .single (.load hunderWay (Set.mem_insert _ _))
      · rw [ManifestReader.finish_of_ne hunderWay]

/-- All calls are answered, one after the other, when their readings have been completed. -/
theorem steps_answer (ids : List PackageId) (reader : ManifestReader)
    (answered : Multiset (PackageId × Except Error Manifest))
    (hread : ∀ id ∈ ids, ∃ result, reader.result? id = some result) :
    ∃ answered', ReflTransGen (Step inst changes) ⟨reader, 0, ids, answered⟩
      ⟨reader, 0, 0, answered'⟩ := by
  induction ids generalizing answered with
  | nil => exact ⟨answered, .refl⟩
  | cons id ids ih =>
      rw [List.forall_mem_cons] at hread
      obtain ⟨⟨result, hresult⟩, hread⟩ := hread
      obtain ⟨answered', hsteps⟩ := ih ((id, result) ::ₘ answered) hread
      exact ⟨answered', .head (.answer (Multiset.cons_coe id ids).symm hresult) hsteps⟩

/-- **Asking for several manifests and then waiting for them** is one of the orders in which the
calls can be answered. -/
theorem steps_getAll (inst : Installation) (changes : Set FileTree) (ids : List PackageId) :
    ∃ q, ReflTransGen (Step inst changes) (start ids) q ∧ q.Finished ∧
      q.reader = ManifestReader.empty.getAll inst ids := by
  obtain ⟨answered, hanswer⟩ := @steps_answer inst changes ids
    (ManifestReader.empty.getAll inst ids) 0 fun id hid =>
      ManifestReader.exists_result?_getAll inst .empty hid
  refine ⟨⟨_, 0, 0, answered⟩, ?_, ⟨rfl, rfl⟩, rfl⟩
  refine .trans (steps_foldl_request ids .empty 0 0) (.trans (steps_foldl_finish ids _) ?_)
  rw [Multiset.add_zero]
  exact hanswer

/-- **A manifest is read once, and shared.** Whatever calls there are on one reader, in whatever
order they begin, readings are completed and answers are given, and even if the files change
meanwhile: no file is opened twice, and all calls for one package get the same manifest or the same
error, which is that of the files at one moment, and hence that of the installation if the files do
not change. There is a step until all calls have been answered, and there are at most two for each
call and two for each package. At the end every call has an answer, and as many files were opened
as different packages were asked for that are installed and not described in the lock file. Asking
for all and then waiting for all is one of these orders. -/
theorem read_once_and_shared (inst : Installation) (ids : Multiset PackageId) :
    (∀ changes q, ReflTransGen (Step inst changes) (start ids) q →
      q.reader.opened.Nodup ∧
      (∀ id result result', (id, result) ∈ q.answered → (id, result') ∈ q.answered →
        result = result') ∧
      (∀ id result, (id, result) ∈ q.answered → ∃ files ∈ insert inst.files changes,
        result = Installation.manifest { inst with files } id) ∧
      (q.Finished ∨ ∃ q', Step inst changes q q') ∧
      (q.Finished → q.answered.map Prod.fst = ids ∧
        q.reader.readCount = (ids.toFinset.filter fun id =>
          (inst.graph.packages.get? id).any (·.description?.isNone) = true).card)) ∧
    (∀ q, ReflTransGen (Step inst ∅) (start ids) q →
      ∀ id result, (id, result) ∈ q.answered → result = inst.manifest id) ∧
    (∀ changes (stages : Nat → Inquiry) (n : Nat), stages 0 = start ids →
      (∀ i < n, Step inst changes (stages i) (stages (i + 1))) →
        n ≤ 2 * ids.card + 2 * ids.toFinset.card) ∧
    ∀ changes (calls : List PackageId), (calls : Multiset PackageId) = ids →
      ∃ q, ReflTransGen (Step inst changes) (start ids) q ∧ q.Finished ∧
        q.reader = ManifestReader.empty.getAll inst calls := by
  have hfiles : ∀ changes q, ReflTransGen (Step inst changes) (start ids) q →
      ∀ id result, (id, result) ∈ q.answered → ∃ files ∈ insert inst.files changes,
        result = Installation.manifest { inst with files } id := fun changes q hsteps id result h =>
    (sound_of_steps hsteps).exists_files id result ((sound_of_steps hsteps).result_of_answered _ h)
  refine ⟨fun changes q hsteps => ?_, fun q hsteps id result h => ?_,
    fun changes stages n => length_le, ?_⟩
  · have hsound := sound_of_steps hsteps
    refine ⟨hsound.nodup_opened, fun id result result' => hsound.result_unique,
      hfiles changes q hsteps, ?_, fun hf => ⟨hsound.map_answered hf, ?_⟩⟩
    · by_cases hf : q.Finished
      · exact Or.inl hf
      · exact Or.inr (hsound.exists_step hf)
    · simp only [hsound.readCount_eq hf, Installation.needsFile_eq]
  · obtain ⟨files, hmem, rfl⟩ := hfiles ∅ q hsteps id result h
    obtain rfl : files = inst.files := hmem.resolve_right (Set.notMem_empty files)
    rfl
  · rintro changes calls rfl
    exact steps_getAll inst changes calls

end Inquiry

end ImportAtlas
