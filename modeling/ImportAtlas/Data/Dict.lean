/-!
# Insertion-ordered dictionaries

A `Dict α β` is a finite map that remembers the order in which its keys first appeared.
Import maps, lock files and traces are such maps: their order is part of what a reader of
the written file sees.

## Summary

* `Dict` holds the entries and the fact that no key occurs twice.
* `Dict.insert` replaces a value in place when the key is present and appends it otherwise.
* `Dict.sorted` lists the entries by key.

## Main results

* `Dict.keys_insert_of_mem` and `Dict.keys_insert_of_not_mem`: how insertion orders keys.
* `Dict.get?_insert`: the last value given to a key is the one that is read back.
* `Dict.get?_eq_some_iff`: reading a key and membership of the entry are the same.
-/

namespace ImportAtlas

/-- A finite map with its keys in order of first appearance. -/
structure Dict (α β : Type) where
  /-- The keys with their values, oldest key first. -/
  entries : List (α × β)
  /-- No key occurs twice. -/
  nodup_keys : (entries.map Prod.fst).Nodup

namespace Dict

variable {α β γ : Type}

@[ext] theorem ext {d e : Dict α β} (h : d.entries = e.entries) : d = e := by
  cases d; cases e; cases h; rfl

instance [DecidableEq α] [DecidableEq β] : DecidableEq (Dict α β) := fun d e =>
  if h : d.entries = e.entries then isTrue (ext h) else isFalse fun hd => h (hd ▸ rfl)

/-- The dictionary without entries. -/
def empty : Dict α β := ⟨[], List.nodup_nil⟩

instance : EmptyCollection (Dict α β) := ⟨empty⟩

instance : Inhabited (Dict α β) := ⟨empty⟩

/-- The keys, oldest first. -/
def keys (d : Dict α β) : List α := d.entries.map Prod.fst

/-- The values, in the order of their keys. -/
def values (d : Dict α β) : List β := d.entries.map Prod.snd

/-- The number of entries. -/
def size (d : Dict α β) : Nat := d.entries.length

/-- No entry at all. -/
def isEmpty (d : Dict α β) : Bool := d.entries.isEmpty

/-! ### Reading -/

section Reading

variable [DecidableEq α]

/-- The value stored under a key. -/
def get? (d : Dict α β) (k : α) : Option β := d.entries.lookup k

/-- The value stored under a key, or `v` when there is none. -/
def getD (d : Dict α β) (k : α) (v : β) : β := (d.get? k).getD v

/-- Whether a key is present. -/
def contains (d : Dict α β) (k : α) : Bool := d.keys.contains k

@[simp] theorem contains_eq_true {d : Dict α β} {k : α} : d.contains k = true ↔ k ∈ d.keys := by
  simp [contains]

theorem lookup_eq_some_iff {l : List (α × β)} (h : (l.map Prod.fst).Nodup) {k : α} {v : β} :
    l.lookup k = some v ↔ (k, v) ∈ l := by
  induction l with
  | nil => simp
  | cons e r ih =>
    obtain ⟨k', v'⟩ := e
    simp only [List.map_cons, List.nodup_cons] at h
    by_cases hk : k = k'
    · subst hk
      simp only [List.lookup_cons_self, Option.some.injEq, List.mem_cons, Prod.mk.injEq, true_and]
      constructor
      · exact fun hv => Or.inl hv.symm
      · rintro (hv | hv)
        · exact hv.symm
        · exact absurd (List.mem_map.2 ⟨_, hv, rfl⟩) h.1
    · have hb : (k == k') = false := by simp [hk]
      simp [List.lookup_cons, hb, hk, ih h.2]

theorem get?_eq_some_iff {d : Dict α β} {k : α} {v : β} :
    d.get? k = some v ↔ (k, v) ∈ d.entries :=
  lookup_eq_some_iff d.nodup_keys

theorem get?_eq_none_iff {d : Dict α β} {k : α} : d.get? k = none ↔ k ∉ d.keys := by
  constructor
  · intro h hk
    obtain ⟨⟨k', v⟩, hv, rfl⟩ := List.mem_map.1 hk
    rw [get?_eq_some_iff.2 hv] at h
    exact absurd h (by simp)
  · intro h
    cases hv : d.get? k with
    | none => rfl
    | some v => exact absurd (List.mem_map.2 ⟨_, get?_eq_some_iff.1 hv, rfl⟩) h

end Reading

/-! ### Writing -/

section Writing

variable [DecidableEq α]

/-- Entries with `k` set to `v`: in place when `k` is there, else at the end. -/
def insertEntry (k : α) (v : β) : List (α × β) → List (α × β)
  | [] => [(k, v)]
  | e :: r => if e.1 = k then (k, v) :: r else e :: insertEntry k v r

theorem map_fst_insertEntry (k : α) (v : β) (l : List (α × β)) :
    (insertEntry k v l).map Prod.fst =
      if k ∈ l.map Prod.fst then l.map Prod.fst else l.map Prod.fst ++ [k] := by
  induction l with
  | nil => simp [insertEntry]
  | cons e r ih =>
    by_cases h : e.1 = k
    · simp [insertEntry, h]
    · have h' : ¬ k = e.1 := fun hk => h hk.symm
      by_cases hr : k ∈ r.map Prod.fst <;> simp_all [insertEntry]

theorem nodup_insertEntry {k : α} {v : β} {l : List (α × β)} (h : (l.map Prod.fst).Nodup) :
    ((insertEntry k v l).map Prod.fst).Nodup := by
  rw [map_fst_insertEntry]
  split
  · exact h
  · rename_i hk
    refine List.nodup_append.2 ⟨h, by simp, fun a ha b hb => ?_⟩
    rintro rfl
    exact hk (List.mem_singleton.1 hb ▸ ha)

theorem lookup_insertEntry (k k' : α) (v : β) (l : List (α × β)) :
    (insertEntry k v l).lookup k' = if k' = k then some v else l.lookup k' := by
  induction l with
  | nil =>
    by_cases h : k' = k
    · simp [insertEntry, h]
    · simp [insertEntry, List.lookup_cons, beq_eq_false_iff_ne.2 h, h]
  | cons e r ih =>
    obtain ⟨a, b⟩ := e
    by_cases ha : a = k
    · subst ha
      by_cases h : k' = a
      · simp [insertEntry, h]
      · simp [insertEntry, List.lookup_cons, beq_eq_false_iff_ne.2 h, h]
    · simp only [insertEntry, ha, if_false, List.lookup_cons]
      by_cases h : k' = a
      · subst h; simp [ha]
      · have hb : (k' == a) = false := by simp [h]
        simp [hb, ih]

/-- Sets the value of a key: a new key goes to the end, a known one keeps its place. -/
def insert (d : Dict α β) (k : α) (v : β) : Dict α β :=
  ⟨insertEntry k v d.entries, nodup_insertEntry d.nodup_keys⟩

theorem keys_insert_of_mem {d : Dict α β} {k : α} {v : β} (h : k ∈ d.keys) :
    (d.insert k v).keys = d.keys := by
  simpa [keys, insert, map_fst_insertEntry] using h

theorem keys_insert_of_not_mem {d : Dict α β} {k : α} {v : β} (h : k ∉ d.keys) :
    (d.insert k v).keys = d.keys ++ [k] := by
  have h' : ¬ k ∈ d.entries.map Prod.fst := h
  simp only [keys, insert, map_fst_insertEntry, h', if_false]

@[simp] theorem mem_keys_insert {d : Dict α β} {k k' : α} {v : β} :
    k' ∈ (d.insert k v).keys ↔ k' = k ∨ k' ∈ d.keys := by
  by_cases h : k ∈ d.keys
  · rw [keys_insert_of_mem h]
    exact ⟨Or.inr, fun h' => h'.elim (fun e => e ▸ h) id⟩
  · rw [keys_insert_of_not_mem h]
    simp [or_comm]

theorem get?_insert (d : Dict α β) (k k' : α) (v : β) :
    (d.insert k v).get? k' = if k' = k then some v else d.get? k' :=
  lookup_insertEntry k k' v d.entries

/-- Every entry of a list set, in order. -/
def insertMany (d : Dict α β) (l : List (α × β)) : Dict α β :=
  l.foldl (fun d e => d.insert e.1 e.2) d

/-- The dictionary of a list of entries, the last value of a repeated key winning. -/
def ofList (l : List (α × β)) : Dict α β := empty.insertMany l

/-- Every entry of `e` set in `d`, in the order of `e`. -/
def insertAll (d e : Dict α β) : Dict α β := d.insertMany e.entries

end Writing

/-! ### Selecting and mapping -/

/-- The entries that satisfy a test on key and value. -/
def filter (p : α → β → Bool) (d : Dict α β) : Dict α β :=
  ⟨d.entries.filter fun e => p e.1 e.2,
    (List.filter_sublist.map _).nodup d.nodup_keys⟩

/-- The dictionary without a key. -/
def erase [DecidableEq α] (d : Dict α β) (k : α) : Dict α β := d.filter fun k' _ => k' ≠ k

/-- Every value replaced by a function of its key and itself. -/
def map (f : α → β → γ) (d : Dict α β) : Dict α γ :=
  ⟨d.entries.map fun e => (e.1, f e.1 e.2), by
    rw [List.map_map]; exact d.nodup_keys⟩

@[simp] theorem keys_map (f : α → β → γ) (d : Dict α β) : (d.map f).keys = d.keys := by
  simp [keys, map]

theorem mem_entries_filter {p : α → β → Bool} {d : Dict α β} {e : α × β} :
    e ∈ (d.filter p).entries ↔ e ∈ d.entries ∧ p e.1 e.2 = true := by
  simp [filter]

/-! ### Sorting -/

/-- The entries by increasing key. -/
def sorted (d : Dict String β) : Dict String β :=
  ⟨d.entries.mergeSort fun a b => decide (a.1 ≤ b.1),
    (((List.mergeSort_perm d.entries _).map Prod.fst).nodup_iff).2 d.nodup_keys⟩

theorem perm_sorted (d : Dict String β) : d.sorted.entries.Perm d.entries :=
  List.mergeSort_perm d.entries _

end Dict

end ImportAtlas
