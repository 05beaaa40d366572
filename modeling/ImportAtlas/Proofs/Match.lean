import ImportAtlas.ImportMap.Match
import ImportAtlas.Proofs.Dict

/-!
# Keys around a specifier

A key covers a specifier when it is the specifier, or ends in a slash and begins it. The keys that
cover one specifier lie below each other, so they are told apart by their length, and the key that
applies is the longest of them.

## Main results

* `Covers.trans`, `Covers.of_length_le`: the keys around one specifier form a chain.
* `Imports.match?_eq_some_iff`: the key that applies is the longest one that covers.
* `Imports.match?_eq_some_of_covers`: a key that applies below a longer one applies to it, too.
-/

namespace ImportAtlas

/-- A key that stands for a specifier: the specifier itself, or a folder that it lies in. -/
def Covers (key specifier : String) : Prop :=
  key = specifier ∨ (Target.endsInSlash key = true ∧ key.toList <+: specifier.toList)

namespace Covers

variable {key key' specifier : String}

theorem refl (specifier : String) : Covers specifier specifier := Or.inl rfl

theorem isPrefix (h : Covers key specifier) : key.toList <+: specifier.toList := by
  rcases h with rfl | ⟨-, hp⟩
  · exact List.prefix_rfl
  · exact hp

theorem length_le (h : Covers key specifier) : key.length ≤ specifier.length := by
  rw [← String.length_toList, ← String.length_toList]
  exact h.isPrefix.length_le

theorem trans (h : Covers key key') (h' : Covers key' specifier) : Covers key specifier := by
  rcases h with rfl | ⟨hs, hp⟩
  · exact h'
  · exact Or.inr ⟨hs, hp.trans h'.isPrefix⟩

/-- Two keys around a specifier that are equally long are the same. -/
theorem eq_of_length_eq (h : Covers key specifier) (h' : Covers key' specifier)
    (hl : key.length = key'.length) : key = key' := by
  rw [← String.length_toList, ← String.length_toList] at hl
  have hp : key.toList <+: key'.toList :=
    List.prefix_of_prefix_length_le h.isPrefix h'.isPrefix hl.le
  exact String.toList_inj.1 (hp.eq_of_length hl)

/-- Of two keys around a specifier the shorter one covers the longer one. -/
theorem of_length_le (h : Covers key specifier) (h' : Covers key' specifier)
    (hl : key.length ≤ key'.length) : Covers key key' := by
  rcases hl.lt_or_eq with hlt | heq
  · rcases h with rfl | ⟨hs, hp⟩
    · exact absurd h'.length_le (by omega)
    · refine Or.inr ⟨hs, List.prefix_of_prefix_length_le hp h'.isPrefix ?_⟩
      rw [String.length_toList, String.length_toList]
      exact hl
  · exact Or.inl (h.eq_of_length_eq h' heq)

/-- A key that is not the specifier itself ends in a slash. -/
theorem endsInSlash_of_ne (h : Covers key specifier) (hne : key ≠ specifier) :
    Target.endsInSlash key = true :=
  (h.resolve_left hne).1

end Covers

/-! ### What follows a key -/

theorem toList_restAfter (key specifier : String) :
    (restAfter key specifier).toList = specifier.toList.drop key.length := by
  rw [restAfter, String.toList_ofList]

@[simp] theorem restAfter_self (specifier : String) : restAfter specifier specifier = "" := by
  rw [← String.toList_inj, toList_restAfter, ← String.length_toList, List.drop_length]
  rfl

theorem isEmpty_restAfter_iff {key specifier : String} (h : Covers key specifier) :
    (restAfter key specifier).isEmpty = true ↔ key = specifier := by
  constructor
  · intro he
    have hnil : specifier.toList.drop key.length = [] := by
      rw [← toList_restAfter, String.isEmpty_iff.1 he]
      rfl
    refine h.eq_of_length_eq (Covers.refl specifier) (le_antisymm h.length_le ?_)
    rw [← String.length_toList (s := specifier)]
    exact List.drop_eq_nil_iff.1 hnil
  · rintro rfl
    rw [restAfter_self]
    rfl

/-- What follows a key is what leads to a longer key, and then what follows that one. -/
theorem restAfter_append {key key' specifier : String} (h : Covers key key')
    (h' : Covers key' specifier) :
    restAfter key key' ++ restAfter key' specifier = restAfter key specifier := by
  rw [← String.toList_inj, String.toList_append]
  simp only [toList_restAfter]
  obtain ⟨rest, hrest⟩ := h'.isPrefix
  have hlen : key.length ≤ key'.toList.length := by
    rw [String.length_toList]
    exact h.length_le
  rw [← hrest, List.drop_append_of_le_length hlen, ← String.length_toList (s := key'),
    List.drop_left]

/-! ### The prefixes that end in a slash -/

theorem pairwise_slashPrefixes (cs : List Char) :
    (slashPrefixes cs).Pairwise fun p q => q.length < p.length := by
  induction cs with
  | nil => exact List.Pairwise.nil
  | cons c rest ih =>
      rw [slashPrefixes, List.pairwise_append, List.pairwise_map]
      refine ⟨ih.imp fun h => by simpa using h, ?_, ?_⟩
      · split
        · exact List.pairwise_singleton _ _
        · exact List.Pairwise.nil
      · intro p hp q hq
        obtain ⟨p', hp', rfl⟩ := List.mem_map.1 hp
        split at hq
        · rw [List.mem_singleton.1 hq, List.length_singleton, List.length_cons]
          have hne : p' ≠ [] := by
            rintro rfl
            exact absurd (mem_slashPrefixes.1 hp').2 (by simp)
          have := List.length_pos_iff.2 hne
          omega
        · exact absurd hq List.not_mem_nil

theorem mem_map_slashPrefixes {key specifier : String} :
    key ∈ (slashPrefixes specifier.toList).map String.ofList ↔
      Target.endsInSlash key = true ∧ key.toList <+: specifier.toList := by
  constructor
  · intro h
    obtain ⟨p, hp, rfl⟩ := List.mem_map.1 h
    obtain ⟨hpre, hlast⟩ := mem_slashPrefixes.1 hp
    refine ⟨?_, by rwa [String.toList_ofList]⟩
    rw [Target.endsInSlash, String.toList_ofList, hlast]
    rfl
  · rintro ⟨hs, hp⟩
    refine List.mem_map.2 ⟨key.toList, mem_slashPrefixes.2 ⟨hp, ?_⟩, String.ofList_toList⟩
    simpa [Target.endsInSlash] using hs

/-- The prefixes that end in a slash, as texts, longest first. -/
theorem pairwise_map_slashPrefixes (specifier : String) :
    ((slashPrefixes specifier.toList).map String.ofList).Pairwise fun p q =>
      q.length < p.length := by
  rw [List.pairwise_map]
  exact (pairwise_slashPrefixes _).imp fun h => by
    rwa [← String.length_toList, ← String.length_toList, String.toList_ofList,
      String.toList_ofList]

/-- The first text of a list with falling lengths that passes a test is the longest one. -/
theorem find?_eq_some_iff_of_pairwise {l : List String} {test : String → Bool} {a : String}
    (hl : l.Pairwise fun p q => q.length < p.length) :
    l.find? test = some a ↔
      a ∈ l ∧ test a = true ∧ ∀ b ∈ l, test b = true → b.length ≤ a.length := by
  induction l with
  | nil => simp
  | cons c l ih =>
      rw [List.pairwise_cons] at hl
      obtain ⟨hc, hl⟩ := hl
      by_cases ht : test c = true
      · rw [List.find?_cons_of_pos ht, Option.some.injEq]
        constructor
        · rintro rfl
          refine ⟨List.mem_cons_self, ht, fun b hb _ => ?_⟩
          rcases List.mem_cons.1 hb with rfl | hb
          · exact le_rfl
          · exact (hc b hb).le
        · rintro ⟨ha, -, hmax⟩
          rcases List.mem_cons.1 ha with rfl | ha
          · rfl
          · exact absurd (hmax c List.mem_cons_self ht) (by have := hc a ha; omega)
      · rw [List.find?_cons_of_neg ht, ih hl]
        constructor
        · rintro ⟨ha, hta, hmax⟩
          refine ⟨List.mem_cons_of_mem _ ha, hta, fun b hb htb => ?_⟩
          rcases List.mem_cons.1 hb with rfl | hb
          · exact absurd htb ht
          · exact hmax b hb htb
        · rintro ⟨ha, hta, hmax⟩
          rcases List.mem_cons.1 ha with rfl | ha
          · exact absurd hta ht
          · exact ⟨ha, hta, fun b hb => hmax b (List.mem_cons_of_mem _ hb)⟩

/-! ### The key that applies -/

namespace Imports

variable {imports imports' : Imports} {key key' specifier : String}

/-- **The key that applies is the longest one that covers the specifier.** -/
theorem match?_eq_some_iff :
    imports.match? specifier = some key ↔
      key ∈ imports.keys ∧ Covers key specifier ∧
        ∀ k ∈ imports.keys, Covers k specifier → k.length ≤ key.length := by
  rw [match?]
  by_cases hc : imports.contains specifier = true
  · rw [if_pos hc, Option.some.injEq]
    constructor
    · rintro rfl
      exact ⟨Dict.contains_eq_true.1 hc, Covers.refl _, fun k _ hk => hk.length_le⟩
    · rintro ⟨-, hcov, hmax⟩
      have hle := hmax specifier (Dict.contains_eq_true.1 hc) (Covers.refl _)
      exact (Covers.refl specifier).eq_of_length_eq hcov (le_antisymm hle hcov.length_le)
  · rw [if_neg hc, find?_eq_some_iff_of_pairwise (pairwise_map_slashPrefixes _),
      mem_map_slashPrefixes, Dict.contains_eq_true]
    have hne : ∀ k ∈ imports.keys, k ≠ specifier := by
      rintro k hk rfl
      exact hc (Dict.contains_eq_true.2 hk)
    constructor
    · rintro ⟨hcov, hk, hmax⟩
      refine ⟨hk, Or.inr hcov, fun k hk hkc => ?_⟩
      exact hmax k (mem_map_slashPrefixes.2 (hkc.resolve_left (hne k hk)))
        (Dict.contains_eq_true.2 hk)
    · rintro ⟨hk, hcov, hmax⟩
      refine ⟨hcov.resolve_left (hne key hk), hk, fun k hk hkc => ?_⟩
      exact hmax k (Dict.contains_eq_true.1 hkc) (Or.inr (mem_map_slashPrefixes.1 hk))

theorem match?_eq_none_iff :
    imports.match? specifier = none ↔ ∀ k ∈ imports.keys, ¬ Covers k specifier := by
  constructor
  · intro h k hk hcov
    rw [match?] at h
    by_cases hc : imports.contains specifier = true
    · rw [if_pos hc] at h
      exact absurd h (by simp)
    · rw [if_neg hc, List.find?_eq_none] at h
      have hne : k ≠ specifier := by
        rintro rfl
        exact hc (Dict.contains_eq_true.2 hk)
      exact h k (mem_map_slashPrefixes.2 (hcov.resolve_left hne)) (Dict.contains_eq_true.2 hk)
  · intro h
    cases hm : imports.match? specifier with
    | none => rfl
    | some k =>
        obtain ⟨hk, hcov, -⟩ := match?_eq_some_iff.1 hm
        exact absurd hcov (h k hk)

theorem mem_keys_of_match? (h : imports.match? specifier = some key) : key ∈ imports.keys :=
  (match?_eq_some_iff.1 h).1

theorem covers_of_match? (h : imports.match? specifier = some key) : Covers key specifier :=
  (match?_eq_some_iff.1 h).2.1

theorem length_le_of_match? (h : imports.match? specifier = some key) (hk : key' ∈ imports.keys)
    (hcov : Covers key' specifier) : key'.length ≤ key.length :=
  (match?_eq_some_iff.1 h).2.2 key' hk hcov

/-- A key of the table is the key that applies to it. -/
theorem match?_self (h : specifier ∈ imports.keys) : imports.match? specifier = some specifier := by
  rw [match?, if_pos (Dict.contains_eq_true.2 h)]

/-- The key that applies to a specifier applies to every text between the two. -/
theorem match?_eq_some_of_covers (h : imports.match? specifier = some key)
    (hk : Covers key key') (hcov : Covers key' specifier) : imports.match? key' = some key := by
  refine match?_eq_some_iff.2 ⟨mem_keys_of_match? h, hk, fun k hkk hkc => ?_⟩
  exact length_le_of_match? h hkk (hkc.trans hcov)

/-- A table without a key for a specifier has none for what covers it. -/
theorem match?_eq_none_of_covers (h : imports.match? specifier = none)
    (hcov : Covers key' specifier) : imports.match? key' = none :=
  match?_eq_none_iff.2 fun k hk hkc => match?_eq_none_iff.1 h k hk (hkc.trans hcov)

/-- Only the keys around a specifier decide which key applies to it. -/
theorem match?_congr (h : ∀ k, Covers k specifier → (k ∈ imports.keys ↔ k ∈ imports'.keys)) :
    imports.match? specifier = imports'.match? specifier := by
  cases hm : imports'.match? specifier with
  | none =>
      rw [match?_eq_none_iff] at hm ⊢
      exact fun k hk hcov => hm k ((h k hcov).1 hk) hcov
  | some key =>
      rw [match?_eq_some_iff] at hm ⊢
      obtain ⟨hk, hcov, hmax⟩ := hm
      exact ⟨(h key hcov).2 hk, hcov, fun k hk' hcov' => hmax k ((h k hcov').1 hk') hcov'⟩

theorem match?_congr_get? (h : ∀ k, Covers k specifier → imports.get? k = imports'.get? k) :
    imports.match? specifier = imports'.match? specifier :=
  match?_congr fun k hcov => by rw [Dict.mem_keys_iff, Dict.mem_keys_iff, h k hcov]

/-- Only the entries around a specifier decide its target. -/
theorem target?_congr (h : ∀ k, Covers k specifier → imports.get? k = imports'.get? k) :
    imports.target? specifier = imports'.target? specifier := by
  rw [target?, target?, match?_congr_get? h]
  cases hk : imports'.match? specifier with
  | none => rfl
  | some key =>
      have hget : imports.getD key "" = imports'.getD key "" := by
        rw [Dict.getD_eq, Dict.getD_eq, h key (covers_of_match? hk)]
      simp only [hget]

/-- A key of the table has its own target. -/
theorem target?_of_get? {target : String} (h : imports.get? specifier = some target) :
    imports.target? specifier = some target := by
  rw [target?, match?_self (Dict.mem_keys_of_get? h)]
  simp [Dict.getD_of_get? h]

/-- A table that loses keys, but not the one that applies, keeps the key that applies. -/
theorem match?_of_subset (h : imports.match? specifier = some key)
    (hsub : ∀ k ∈ imports'.keys, k ∈ imports.keys) (hk : key ∈ imports'.keys) :
    imports'.match? specifier = some key :=
  match?_eq_some_iff.2 ⟨hk, covers_of_match? h, fun _ hk' =>
    length_le_of_match? h (hsub _ hk')⟩

theorem match?_eq_none_of_subset (h : imports.match? specifier = none)
    (hsub : ∀ k ∈ imports'.keys, k ∈ imports.keys) : imports'.match? specifier = none :=
  match?_eq_none_iff.2 fun k hk => match?_eq_none_iff.1 h k (hsub k hk)

end Imports

end ImportAtlas
