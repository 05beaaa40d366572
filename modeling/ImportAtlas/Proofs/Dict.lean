import ImportAtlas.Data.Dict
import Mathlib.Data.List.Sort
import Mathlib.Data.String.Basic

/-!
# Laws of dictionaries

What each operation on a dictionary does to the values that are read back. Reading is the view
through which all later proofs look at a dictionary: two dictionaries with the same readings have
the same entries, and become equal when they are sorted.

## Main results

* `Dict.get?_filter`, `Dict.get?_map`, `Dict.get?_erase`, `Dict.get?_sorted`: one law for each
  operation.
* `Dict.get?_insertMany`: of the values that a list gives to a key, the last one is read back.
* `Dict.get?_ofList_flatMap`: lists that keep apart may be written in any order.
* `Dict.ofList_entries`: the entries of a dictionary make it again, in their order.
* `Dict.sorted_eq_of_get?_eq`: sorting forgets everything but the readings.
-/

namespace ImportAtlas.Dict

variable {α β γ : Type}

section Reading

variable [DecidableEq α]

@[simp] theorem get?_empty (k : α) : (∅ : Dict α β).get? k = none := rfl

theorem mem_keys_iff {d : Dict α β} {k : α} : k ∈ d.keys ↔ ∃ v, d.get? k = some v := by
  constructor
  · intro h
    obtain ⟨⟨k', v⟩, hv, rfl⟩ := List.mem_map.1 h
    exact ⟨v, get?_eq_some_iff.2 hv⟩
  · rintro ⟨v, hv⟩
    exact List.mem_map.2 ⟨(k, v), get?_eq_some_iff.1 hv, rfl⟩

theorem mem_keys_of_get? {d : Dict α β} {k : α} {v : β} (h : d.get? k = some v) : k ∈ d.keys :=
  mem_keys_iff.2 ⟨v, h⟩

theorem contains_iff {d : Dict α β} {k : α} : d.contains k = true ↔ ∃ v, d.get? k = some v := by
  rw [contains_eq_true, mem_keys_iff]

/-- Whether a key is present can be read off its value. -/
theorem contains_eq_isSome (d : Dict α β) (k : α) : d.contains k = (d.get? k).isSome := by
  rw [Bool.eq_iff_iff, contains_iff, Option.isSome_iff_exists]

theorem getD_eq (d : Dict α β) (k : α) (v : β) : d.getD k v = (d.get? k).getD v := rfl

theorem getD_of_get? {d : Dict α β} {k : α} {v w : β} (h : d.get? k = some v) : d.getD k w = v := by
  rw [getD_eq, h, Option.getD_some]

theorem isEmpty_iff {d : Dict α β} : d.isEmpty = true ↔ ∀ k, d.get? k = none := by
  constructor
  · intro h k
    have hnil : d.entries = [] := List.isEmpty_iff.1 h
    simp [get?, hnil]
  · intro h
    refine List.isEmpty_iff.2 (List.eq_nil_iff_forall_not_mem.2 fun e he => ?_)
    have hv : d.get? e.1 = some e.2 := get?_eq_some_iff.2 he
    rw [h] at hv
    exact absurd hv (by simp)

/-- Dictionaries with the same entries have the same readings. -/
theorem get?_eq_of_perm {d e : Dict α β} (h : d.entries.Perm e.entries) (k : α) :
    d.get? k = e.get? k := by
  ext v
  rw [get?_eq_some_iff, get?_eq_some_iff]
  exact h.mem_iff

/-! ### Selecting and mapping -/

theorem get?_filter (p : α → β → Bool) (d : Dict α β) (k : α) :
    (d.filter p).get? k = (d.get? k).filter (p k) := by
  ext v
  rw [get?_eq_some_iff, mem_entries_filter, Option.filter_eq_some_iff, get?_eq_some_iff]

theorem get?_erase (d : Dict α β) (k k' : α) :
    (d.erase k).get? k' = if k' = k then none else d.get? k' := by
  rw [erase, get?_filter]
  split
  · rename_i h
    cases d.get? k' <;> simp [h]
  · rename_i h
    cases d.get? k' <;> simp [h]

theorem get?_map (f : α → β → γ) (d : Dict α β) (k : α) :
    (d.map f).get? k = (d.get? k).map (f k) := by
  ext w
  rw [get?_eq_some_iff, Option.map_eq_some_iff]
  constructor
  · intro h
    obtain ⟨⟨k', v⟩, hv, he⟩ := List.mem_map.1 h
    obtain ⟨rfl, rfl⟩ := Prod.mk.inj he
    exact ⟨v, get?_eq_some_iff.2 hv, rfl⟩
  · rintro ⟨v, hv, rfl⟩
    exact List.mem_map.2 ⟨(k, v), get?_eq_some_iff.1 hv, rfl⟩

/-! ### Writing many entries -/

@[simp] theorem insertMany_nil (d : Dict α β) : d.insertMany [] = d := rfl

@[simp] theorem insertMany_cons (d : Dict α β) (e : α × β) (l : List (α × β)) :
    d.insertMany (e :: l) = (d.insert e.1 e.2).insertMany l := rfl

theorem insertMany_append (d : Dict α β) (l l' : List (α × β)) :
    d.insertMany (l ++ l') = (d.insertMany l).insertMany l' :=
  List.foldl_append

/-- The last value that a list gives to a key is read back; a key that the list does not name
keeps its value. -/
theorem get?_insertMany (d : Dict α β) (l : List (α × β)) (k : α) :
    (d.insertMany l).get? k = (l.reverse.lookup k).or (d.get? k) := by
  induction l generalizing d with
  | nil => rfl
  | cons e l ih =>
      obtain ⟨key, v⟩ := e
      rw [insertMany_cons, ih, get?_insert, List.reverse_cons, List.lookup_append]
      by_cases hk : k = key
      · subst hk
        cases l.reverse.lookup k <;> simp
      · have hb : (k == key) = false := beq_eq_false_iff_ne.2 hk
        cases l.reverse.lookup k <;> simp [List.lookup_cons, hb, hk]

theorem get?_ofList (l : List (α × β)) (k : α) : (ofList l).get? k = l.reverse.lookup k := by
  have h := get?_insertMany (empty : Dict α β) l k
  rw [show (empty : Dict α β).get? k = none from rfl, Option.or_none] at h
  exact h

theorem get?_ofList_append (l l' : List (α × β)) (k : α) :
    (ofList (l ++ l')).get? k = ((ofList l').get? k).or ((ofList l).get? k) := by
  rw [get?_ofList, List.reverse_append, List.lookup_append, get?_ofList, get?_ofList]

theorem get?_ofList_eq_none {l : List (α × β)} {k : α} (h : k ∉ l.map Prod.fst) :
    (ofList l).get? k = none := by
  rw [get?_ofList, List.lookup_eq_none_iff]
  intro e he
  exact bne_iff_ne.2 fun hk => h (List.mem_map.2 ⟨e, List.mem_reverse.1 he, hk.symm⟩)

theorem mem_of_get?_ofList {l : List (α × β)} {k : α} {v : β} (h : (ofList l).get? k = some v) :
    (k, v) ∈ l := by
  rw [get?_ofList, List.lookup_eq_some_iff] at h
  obtain ⟨l₁, l₂, hl, -⟩ := h
  exact List.mem_reverse.1 (hl ▸ by simp)

/-- A list that gives every key one value is read back as it stands. -/
theorem get?_ofList_of_mem {l : List (α × β)} {k : α} {v : β}
    (hl : ∀ w, (k, w) ∈ l → w = v) (h : (k, v) ∈ l) : (ofList l).get? k = some v := by
  cases hw : (ofList l).get? k with
  | some w => rw [hl w (mem_of_get?_ofList hw)]
  | none =>
      rw [get?_ofList, List.lookup_eq_none_iff] at hw
      exact absurd (hw (k, v) (List.mem_reverse.2 h)) (by simp)

/-- Of the members of a list that have one key the last stands for it. -/
theorem get?_ofList_map_eq_some_iff {l : List β} {f : β → α} {k : α} {b : β} :
    (ofList (l.map fun a => (f a, a))).get? k = some b ↔
      (∃ before after, l = before ++ b :: after ∧ ∀ later ∈ after, f later ≠ f b) ∧ f b = k := by
  rw [get?_ofList, List.lookup_eq_some_iff]
  constructor
  · rintro ⟨later, earlier, hsplit, hlater⟩
    rw [List.reverse_eq_iff, List.reverse_append, List.reverse_cons, List.append_assoc,
      List.singleton_append, List.map_eq_append_iff] at hsplit
    obtain ⟨before, rest, hl, -, hrest⟩ := hsplit
    obtain ⟨a, after, rfl, ha, hafter⟩ := List.map_eq_cons_iff.1 hrest
    obtain ⟨rfl, rfl⟩ := Prod.mk.inj ha
    refine ⟨⟨before, after, hl, fun a' ha' heq => ?_⟩, rfl⟩
    have hmem : (f a', a') ∈ later := by
      rw [← List.mem_reverse, ← hafter]
      exact List.mem_map_of_mem ha'
    exact bne_iff_ne.1 (hlater _ hmem) heq.symm
  · rintro ⟨⟨before, after, rfl, hafter⟩, rfl⟩
    refine ⟨(after.map fun a => (f a, a)).reverse, (before.map fun a => (f a, a)).reverse,
      by simp, fun e he => ?_⟩
    obtain ⟨a, ha, rfl⟩ := List.mem_map.1 (List.mem_reverse.1 he)
    exact bne_iff_ne.2 (hafter a ha).symm

theorem mem_keys_insertMany {d : Dict α β} {l : List (α × β)} {k : α} :
    k ∈ (d.insertMany l).keys ↔ k ∈ l.map Prod.fst ∨ k ∈ d.keys := by
  induction l generalizing d with
  | nil => simp
  | cons e l ih =>
      rw [insertMany_cons, ih, mem_keys_insert, List.map_cons, List.mem_cons]
      tauto

theorem mem_keys_ofList {l : List (α × β)} {k : α} : k ∈ (ofList l).keys ↔ k ∈ l.map Prod.fst :=
  mem_keys_insertMany.trans (or_iff_left List.not_mem_nil)

/-- **Lists that keep apart may be written in any order**: a key that at most one of them names has
the value that this one gives it. -/
theorem get?_ofList_flatMap {ι : Type} {l : List ι} {f : ι → List (α × β)} {k : α} {v : β}
    (h : ∀ a ∈ l, ∀ b ∈ l, k ∈ (f a).map Prod.fst → k ∈ (f b).map Prod.fst → a = b) :
    (ofList (l.flatMap f)).get? k = some v ↔ ∃ a ∈ l, (ofList (f a)).get? k = some v := by
  induction l generalizing v with
  | nil => simp [get?_ofList]
  | cons a l ih =>
      have hl : ∀ w, (ofList (l.flatMap f)).get? k = some w ↔
          ∃ b ∈ l, (ofList (f b)).get? k = some w := fun w =>
        ih fun b hb c hc => h b (List.mem_cons_of_mem a hb) c (List.mem_cons_of_mem a hc)
      have hkey : ∀ b w, (ofList (f b)).get? k = some w → k ∈ (f b).map Prod.fst := fun b w hw =>
        mem_keys_ofList.1 (mem_keys_of_get? hw)
      rw [List.flatMap_cons, get?_ofList_append]
      cases hw : (ofList (l.flatMap f)).get? k with
      | some w =>
          obtain ⟨b, hb, hbw⟩ := (hl w).1 hw
          rw [Option.some_or]
          constructor
          · intro hv
            exact ⟨b, List.mem_cons_of_mem a hb, hbw.trans hv⟩
          · rintro ⟨c, hc, hcv⟩
            have hbc : b = c :=
              h b (List.mem_cons_of_mem a hb) c hc (hkey b w hbw) (hkey c v hcv)
            rw [← hbw, hbc, hcv]
      | none =>
          rw [Option.none_or]
          constructor
          · intro hv
            exact ⟨a, List.mem_cons_self, hv⟩
          · rintro ⟨c, hc, hcv⟩
            rcases List.mem_cons.1 hc with rfl | hc
            · exact hcv
            · have hsome := (hl v).2 ⟨c, hc, hcv⟩
              rw [hw] at hsome
              exact absurd hsome (by simp)

end Reading

/-! ### Entries in order -/

section Entries

variable [DecidableEq α]

theorem entries_insert (d : Dict α β) (k : α) (v : β) :
    (d.insert k v).entries = insertEntry k v d.entries := rfl

theorem entries_insert_of_not_mem {d : Dict α β} {k : α} {v : β} (h : k ∉ d.keys) :
    (d.insert k v).entries = d.entries ++ [(k, v)] := by
  have hentries : ∀ l : List (α × β), k ∉ l.map Prod.fst → insertEntry k v l = l ++ [(k, v)] := by
    intro l
    induction l with
    | nil => exact fun _ => rfl
    | cons e l ih =>
        intro hl
        rw [List.map_cons, List.mem_cons, not_or] at hl
        rw [insertEntry, if_neg fun heq => hl.1 heq.symm, ih hl.2, List.cons_append]
  exact hentries d.entries h

theorem entries_insertMany {d : Dict α β} {l : List (α × β)}
    (h : (d.keys ++ l.map Prod.fst).Nodup) : (d.insertMany l).entries = d.entries ++ l := by
  induction l generalizing d with
  | nil => simp
  | cons e l ih =>
      have hmem : e.1 ∉ d.keys := fun hmem =>
        (List.nodup_append.1 h).2.2 e.1 hmem e.1 List.mem_cons_self rfl
      have hkeys : (d.insert e.1 e.2).keys = d.keys ++ [e.1] := keys_insert_of_not_mem hmem
      rw [insertMany_cons, ih, entries_insert_of_not_mem hmem, List.append_assoc]
      · rfl
      · rw [hkeys, List.append_assoc]
        exact h

/-- Entries without a repeated key stand in a dictionary as they are. -/
theorem entries_ofList {l : List (α × β)} (h : (l.map Prod.fst).Nodup) :
    (ofList l).entries = l := by
  rw [ofList, entries_insertMany (by simpa [keys, empty] using h)]
  rfl

/-- The entries of a dictionary make it. -/
theorem ofList_entries (d : Dict α β) : ofList d.entries = d := ext (entries_ofList d.nodup_keys)

/-- Keys and values may be replaced before or after an entry is written, if no other key is replaced
by the same one. -/
theorem insertEntry_map {δ : Type} [DecidableEq δ] {g : α → δ} (f : β → γ) {k : α} (v : β)
    {l : List (α × β)} (h : ∀ e ∈ l, g e.1 = g k → e.1 = k) :
    insertEntry (g k) (f v) (l.map fun e => (g e.1, f e.2)) =
      (insertEntry k v l).map fun e => (g e.1, f e.2) := by
  induction l with
  | nil => rfl
  | cons e l ih =>
      rw [List.forall_mem_cons] at h
      rw [List.map_cons, insertEntry, insertEntry]
      by_cases heq : e.1 = k
      · rw [if_pos heq, if_pos (by rw [heq]), List.map_cons]
      · rw [if_neg heq, if_neg fun hg => heq (h.1 hg), ih h.2, List.map_cons]

/-- Values may be replaced before or after an entry is written. -/
theorem map_insert (f : β → γ) (d : Dict α β) (k : α) (v : β) :
    (d.insert k v).map (fun _ => f) = (d.map fun _ => f).insert k (f v) :=
  ext (@insertEntry_map _ _ _ _ _ _ id f k v d.entries fun _ _ heq => heq).symm

/-- Keys may be replaced before or after entries of a list are written, if no two keys of the list
are replaced by the same one. -/
theorem entries_insertMany_map {δ : Type} [DecidableEq δ] {g : α → δ} (f : β → γ)
    {l more : List (α × β)} {d : Dict α β} {d' : Dict δ γ}
    (h : ∀ a ∈ l, ∀ b ∈ l, g a.1 = g b.1 → a.1 = b.1) (hmore : more ⊆ l)
    (hd : ∀ k ∈ d.keys, k ∈ l.map Prod.fst)
    (heq : d'.entries = d.entries.map fun e => (g e.1, f e.2)) :
    (d'.insertMany (more.map fun e => (g e.1, f e.2))).entries =
      (d.insertMany more).entries.map fun e => (g e.1, f e.2) := by
  induction more generalizing d d' with
  | nil => exact heq
  | cons e more ih =>
      have he : e ∈ l := hmore List.mem_cons_self
      rw [List.map_cons, insertMany_cons, insertMany_cons]
      refine @ih (d.insert e.1 e.2) _ (fun a ha => hmore (List.mem_cons_of_mem e ha)) ?_ ?_
      · intro k hk
        rcases mem_keys_insert.1 hk with rfl | hk
        · exact List.mem_map_of_mem he
        · exact hd k hk
      · rw [entries_insert, entries_insert, heq]
        refine @insertEntry_map _ _ _ _ _ _ g f e.1 e.2 d.entries ?_
        intro a ha hg
        obtain ⟨b, hb, hba⟩ := List.mem_map.1 (hd a.1 (List.mem_map_of_mem ha))
        rw [← hba] at hg ⊢
        exact h b hb e he hg

/-- Keys may be replaced before or after a dictionary is made of entries, if no two are replaced by
the same one. -/
theorem entries_ofList_map {δ : Type} [DecidableEq δ] {g : α → δ} (f : β → γ)
    {l : List (α × β)} (h : ∀ a ∈ l, ∀ b ∈ l, g a.1 = g b.1 → a.1 = b.1) :
    (ofList (l.map fun e => (g e.1, f e.2))).entries =
      (ofList l).entries.map fun e => (g e.1, f e.2) :=
  @entries_insertMany_map _ _ _ _ _ _ g f l l ∅ ∅ h (List.Subset.refl l)
    (fun _ hk => absurd hk List.not_mem_nil) rfl

/-- Values may be replaced before or after entries are written. -/
theorem map_insertMany (f : β → γ) (d : Dict α β) (l : List (α × β)) :
    (d.insertMany l).map (fun _ => f) =
      (d.map fun _ => f).insertMany (l.map fun e => (e.1, f e.2)) := by
  induction l generalizing d with
  | nil => rfl
  | cons e l ih =>
      rw [insertMany_cons, ih, map_insert]
      rfl

theorem map_ofList (f : β → γ) (l : List (α × β)) :
    (ofList l).map (fun _ => f) = ofList (l.map fun e => (e.1, f e.2)) := map_insertMany f ∅ l

end Entries

/-! ### Sorting -/

section Sorting

theorem get?_sorted (d : Dict String β) (k : String) : d.sorted.get? k = d.get? k := by
  ext v
  rw [get?_eq_some_iff, get?_eq_some_iff]
  exact (perm_sorted d).mem_iff

theorem mem_keys_sorted {d : Dict String β} {k : String} : k ∈ d.sorted.keys ↔ k ∈ d.keys := by
  rw [mem_keys_iff, mem_keys_iff]
  simp only [get?_sorted]

theorem entries_perm_of_get?_eq {d e : Dict String β} (h : ∀ k, d.get? k = e.get? k) :
    d.entries.Perm e.entries := by
  refine (List.perm_ext_iff_of_nodup ?_ ?_).2 fun a => ?_
  · exact List.Nodup.of_map _ d.nodup_keys
  · exact List.Nodup.of_map _ e.nodup_keys
  · rw [← Prod.mk.eta (p := a), ← get?_eq_some_iff, ← get?_eq_some_iff, h]

/-- The entries of a sorted dictionary stand in the order of their keys. -/
theorem pairwise_sorted (d : Dict String β) :
    d.sorted.entries.Pairwise fun a b => a.1 ≤ b.1 := by
  have h := @List.pairwise_mergeSort _ (fun a b : String × β => decide (a.1 ≤ b.1))
    (fun a b c hab hbc => by
      simp only [decide_eq_true_eq] at *
      exact le_trans hab hbc)
    (fun a b => by
      simp only [Bool.or_eq_true, decide_eq_true_eq]
      exact le_total _ _) d.entries
  exact h.imp fun hab => by simpa using hab

/-- **Sorting forgets the order of insertion**: dictionaries with the same readings are equal when
sorted. -/
theorem sorted_eq_of_get?_eq {d e : Dict String β} (h : ∀ k, d.get? k = e.get? k) :
    d.sorted = e.sorted := by
  apply Dict.ext
  have hperm : d.sorted.entries.Perm e.sorted.entries :=
    entries_perm_of_get?_eq fun k => by rw [get?_sorted, get?_sorted, h]
  refine List.Perm.eq_of_pairwise ?_ (pairwise_sorted d) (pairwise_sorted e) hperm
  rintro ⟨k, v⟩ ⟨k', v'⟩ ha hb hab hba
  obtain rfl : k = k' := le_antisymm hab hba
  have hv : d.sorted.get? k = some v := get?_eq_some_iff.2 ha
  have hv' : e.sorted.get? k = some v' := get?_eq_some_iff.2 hb
  rw [get?_sorted, h, ← get?_sorted, hv'] at hv
  rw [Option.some.inj hv]

/-- A dictionary whose keys are in order stays as it is. -/
theorem sorted_of_pairwise {d : Dict String β} (h : d.entries.Pairwise fun a b => a.1 ≤ b.1) :
    d.sorted = d := by
  apply Dict.ext
  exact List.mergeSort_of_pairwise (h.imp fun hab => by simpa using hab)

end Sorting

end ImportAtlas.Dict
