import ImportAtlas.Resolver.Basic
import ImportAtlas.Proofs.Match

/-!
# The entry that decides

Of several tables the first one that has a key for a specifier decides where it leads. What it
decides for a specifier it has decided for every key below the specifier as well; so two chains of
tables that lead the keys to the same places lead all specifiers there.

## Main results

* `Imports.choice?_of_covers`: the entry for a specifier is the entry for the keys below it.
* `Imports.landing_append`: what follows a key is passed on.
* `Imports.agreeAt_of_keys`: chains that agree on their keys agree everywhere.
-/

namespace ImportAtlas.Imports

/-! ### The first table with a key -/

/-- The key and the target for a specifier in the first of several tables that has a key for
it. -/
def choice? (specifier : String) : List Imports → Option (String × String)
  | [] => none
  | imports :: more =>
    match imports.match? specifier with
    | some key => some (key, imports.getD key "")
    | none => choice? specifier more

variable {imports : Imports} {tables tables' more : List Imports}
  {key target specifier specifier' : String}

theorem choice?_cons_of_match? (h : imports.match? specifier = some key) :
    choice? specifier (imports :: more) = some (key, imports.getD key "") := by
  rw [choice?, h]

theorem choice?_cons_of_none (h : imports.match? specifier = none) :
    choice? specifier (imports :: more) = choice? specifier more := by
  rw [choice?, h]

theorem choice?_append (specifier : String) (tables tables' : List Imports) :
    choice? specifier (tables ++ tables') =
      (choice? specifier tables).or (choice? specifier tables') := by
  induction tables with
  | nil => rfl
  | cons imports tables ih =>
      rw [List.cons_append]
      cases h : imports.match? specifier with
      | some key => rw [choice?_cons_of_match? h, choice?_cons_of_match? h, Option.some_or]
      | none => rw [choice?_cons_of_none h, choice?_cons_of_none h, ih]

/-- An entry that decides is an entry of one of the tables, and its key covers the specifier. -/
theorem exists_of_choice? (h : choice? specifier tables = some (key, target)) :
    ∃ imports ∈ tables, imports.get? key = some target ∧
      imports.match? specifier = some key := by
  induction tables with
  | nil => exact absurd h (by simp [choice?])
  | cons imports tables ih =>
      cases hm : imports.match? specifier with
      | none =>
          rw [choice?_cons_of_none hm] at h
          obtain ⟨imports', hmem, hget⟩ := ih h
          exact ⟨imports', List.mem_cons_of_mem _ hmem, hget⟩
      | some key' =>
          rw [choice?_cons_of_match? hm, Option.some.injEq, Prod.mk.injEq] at h
          obtain ⟨rfl, rfl⟩ := h
          obtain ⟨v, hv⟩ := Dict.mem_keys_iff.1 (mem_keys_of_match? hm)
          exact ⟨imports, List.mem_cons_self, by rw [hv, Dict.getD_of_get? hv], hm⟩

theorem covers_of_choice? (h : choice? specifier tables = some (key, target)) :
    Covers key specifier := by
  obtain ⟨imports, -, -, hm⟩ := exists_of_choice? h
  exact covers_of_match? hm

theorem choice?_eq_none_iff :
    choice? specifier tables = none ↔ ∀ imports ∈ tables, imports.match? specifier = none := by
  induction tables with
  | nil => simp [choice?]
  | cons imports tables ih =>
      rw [List.forall_mem_cons]
      cases hm : imports.match? specifier with
      | none => rw [choice?_cons_of_none hm, ih]; simp
      | some key => rw [choice?_cons_of_match? hm]; simp

/-- **The entry for a specifier decides for every text between its key and the specifier.** -/
theorem choice?_of_covers (h : choice? specifier tables = some (key, target))
    (hk : Covers key specifier') (hcov : Covers specifier' specifier) :
    choice? specifier' tables = some (key, target) := by
  induction tables with
  | nil => exact absurd h (by simp [choice?])
  | cons imports tables ih =>
      cases hm : imports.match? specifier with
      | none =>
          rw [choice?_cons_of_none hm] at h
          rw [choice?_cons_of_none (match?_eq_none_of_covers hm hcov), ih h]
      | some key' =>
          rw [choice?_cons_of_match? hm] at h
          obtain rfl : key' = key := (Prod.mk.inj (Option.some.inj h)).1
          rw [choice?_cons_of_match? (match?_eq_some_of_covers hm hk hcov), h]

theorem choice?_eq_none_of_covers (h : choice? specifier tables = none)
    (hcov : Covers specifier' specifier) : choice? specifier' tables = none :=
  choice?_eq_none_iff.2 fun imports hmem =>
    match?_eq_none_of_covers (choice?_eq_none_iff.1 h imports hmem) hcov

/-- Tables with the same readings around a specifier decide alike. -/
theorem choice?_congr {α : Type} {f g : α → Imports} {l : List α}
    (h : ∀ a ∈ l, ∀ k, Covers k specifier → (f a).get? k = (g a).get? k) :
    choice? specifier (l.map f) = choice? specifier (l.map g) := by
  induction l with
  | nil => rfl
  | cons a l ih =>
      rw [List.forall_mem_cons] at h
      have hm := match?_congr_get? h.1
      rw [List.map_cons, List.map_cons]
      cases hk : (g a).match? specifier with
      | none => rw [choice?_cons_of_none (hm.trans hk), choice?_cons_of_none hk, ih h.2]
      | some key =>
          rw [choice?_cons_of_match? (hm.trans hk), choice?_cons_of_match? hk, Dict.getD_eq,
            Dict.getD_eq, h.1 key (covers_of_match? hk)]

/-- Tables without entries decide nothing. -/
theorem choice?_filter {α : Type} {f : α → Imports} {l : List α} {keep : α → Bool}
    (h : ∀ a ∈ l, keep a = false → ∀ k, (f a).get? k = none) :
    choice? specifier ((l.filter keep).map f) = choice? specifier (l.map f) := by
  induction l with
  | nil => rfl
  | cons a l ih =>
      rw [List.forall_mem_cons] at h
      rw [List.map_cons]
      cases hk : keep a with
      | false =>
          have hm : (f a).match? specifier = none := match?_eq_none_iff.2 fun k hmem => by
            rw [← Dict.contains_eq_true, Dict.contains_eq_isSome, h.1 hk k] at hmem
            exact absurd hmem (by simp)
          rw [List.filter_cons_of_neg (by simp [hk]), choice?_cons_of_none hm, ih h.2]
      | true =>
          rw [List.filter_cons_of_pos hk, List.map_cons]
          cases hm : (f a).match? specifier with
          | none => rw [choice?_cons_of_none hm, choice?_cons_of_none hm, ih h.2]
          | some key => rw [choice?_cons_of_match? hm, choice?_cons_of_match? hm]

/-! ### Where an entry leads -/

/-- Where a specifier leads through an entry, `none` if nowhere. -/
def landing (base specifier : String) : Option (String × String) → Except Error (Option String)
  | none => .ok none
  | some (key, target) =>
    if !(restAfter key specifier).isEmpty && !Target.endsInSlash target then .ok none
    else (mapUrl base target).map fun url => some (url ++ restAfter key specifier)

/-- Whether an entry has a place for what follows its key. -/
def takesMore (choice : Option (String × String)) : Bool :=
  choice.any fun entry => Target.endsInSlash entry.2

/-- The landing at the key of an entry is where its target is. -/
theorem landing_self (base key target : String) :
    landing base key (some (key, target)) = (mapUrl base target).map some := by
  rw [landing, restAfter_self]
  cases mapUrl base target <;> simp [Except.map]

theorem landing_self_ne_none (base key target : String) :
    landing base key (some (key, target)) ≠ .ok none := by
  rw [landing_self]
  cases mapUrl base target <;> simp [Except.map]

/-- Behind a key an entry leads nowhere unless its target is a directory. -/
theorem landing_of_not_takesMore (hcov : Covers key specifier) (hne : key ≠ specifier)
    (ht : Target.endsInSlash target = false) (base : String) :
    landing base specifier (some (key, target)) = .ok none := by
  have hrest : (restAfter key specifier).isEmpty = false :=
    Bool.eq_false_iff.2 fun h => hne ((isEmpty_restAfter_iff hcov).1 h)
  rw [landing, hrest, ht]
  rfl

/-- What follows a text that a key covers is passed on to the landing. -/
theorem landing_append (hk : Covers key specifier') (hcov : Covers specifier' specifier)
    (ht : Target.endsInSlash target = true) (base : String) :
    landing base specifier (some (key, target)) =
      (landing base specifier' (some (key, target))).map
        (Option.map (· ++ restAfter specifier' specifier)) := by
  rw [landing, landing, ht, ← restAfter_append hk hcov]
  cases mapUrl base target with
  | error e => simp [Except.map]
  | ok url => simp [Except.map, String.append_assoc]

/-! ### Chains that agree -/

/-- Two chains of tables agree on a text: it leads to the same place, and so does what follows
it. -/
structure AgreeAt (base : String) (tables tables' : List Imports) (specifier : String) : Prop where
  /-- The text itself leads to one place. -/
  landing_eq : landing base specifier (choice? specifier tables) =
    landing base specifier (choice? specifier tables')
  /-- What follows the text is passed on by both or by neither. -/
  takesMore_eq : Target.endsInSlash specifier = true →
    takesMore (choice? specifier tables) = takesMore (choice? specifier tables')

theorem AgreeAt.refl (base : String) (tables : List Imports) (specifier : String) :
    AgreeAt base tables tables specifier := ⟨rfl, fun _ => rfl⟩

theorem AgreeAt.of_choice?_eq (h : choice? specifier tables = choice? specifier tables')
    (base : String) : AgreeAt base tables tables' specifier := by
  constructor
  · rw [h]
  · intro _
    rw [h]

/-- What is agreed on a text is agreed on what follows it, if both entries lie around the text. -/
theorem AgreeAt.extend {base key' target' : String} (h : AgreeAt base tables tables' specifier')
    (hcov : Covers specifier' specifier)
    (hc : choice? specifier tables = some (key, target)) (hk : Covers key specifier')
    (hc' : choice? specifier tables' = some (key', target')) (hk' : Covers key' specifier') :
    AgreeAt base tables tables' specifier := by
  by_cases hne : specifier' = specifier
  · exact hne ▸ h
  have hl := choice?_of_covers hc hk hcov
  have hl' := choice?_of_covers hc' hk' hcov
  have hnot : ∀ {k : String}, Covers k specifier' → k ≠ specifier := by
    rintro k hks rfl
    exact hne (hcov.eq_of_length_eq (Covers.refl k) (le_antisymm hcov.length_le hks.length_le))
  have ht := h.takesMore_eq (hcov.endsInSlash_of_ne hne)
  have heq := h.landing_eq
  rw [hl, hl'] at ht heq
  replace ht : Target.endsInSlash target = Target.endsInSlash target' := ht
  constructor
  · rw [hc, hc']
    cases hs : Target.endsInSlash target' with
    | true =>
        rw [landing_append hk hcov (ht.trans hs), landing_append hk' hcov hs, heq]
    | false =>
        rw [landing_of_not_takesMore (covers_of_choice? hc) (hnot hk) (ht.trans hs),
          landing_of_not_takesMore (covers_of_choice? hc') (hnot hk') hs]
  · intro _
    rw [hc, hc']
    exact ht

section Keys

variable {base : String}
  (h : ∀ l, (∃ imports ∈ tables ++ tables', l ∈ imports.keys) → Covers l specifier →
    AgreeAt base tables tables' l)
include h

/-- Chains that agree on their keys decide about the same specifiers. -/
theorem choice?_isNone_eq_of_agreeAt :
    (choice? specifier tables).isNone = (choice? specifier tables').isNone := by
  have hkey : ∀ {k t : String} {ts : List Imports}, choice? specifier ts = some (k, t) →
      (∀ imports ∈ ts, imports ∈ tables ++ tables') → AgreeAt base tables tables' k := by
    intro k t ts hc hsub
    obtain ⟨imports, hmem, hget, -⟩ := exists_of_choice? hc
    exact h k ⟨imports, hsub imports hmem, Dict.mem_keys_of_get? hget⟩ (covers_of_choice? hc)
  cases hc : choice? specifier tables with
  | none =>
      cases hc' : choice? specifier tables' with
      | none => rfl
      | some entry' =>
          obtain ⟨k, t⟩ := entry'
          have heq := (hkey hc' fun _ => List.mem_append_right _).landing_eq
          have hcov := covers_of_choice? hc'
          rw [choice?_eq_none_of_covers hc hcov, choice?_of_covers hc' (Covers.refl k) hcov] at heq
          exact absurd heq.symm (landing_self_ne_none base k t)
  | some entry =>
      obtain ⟨k, t⟩ := entry
      cases hc' : choice? specifier tables' with
      | some entry' => rfl
      | none =>
          have heq := (hkey hc fun _ => List.mem_append_left _).landing_eq
          have hcov := covers_of_choice? hc
          rw [choice?_eq_none_of_covers hc' hcov, choice?_of_covers hc (Covers.refl k) hcov] at heq
          exact absurd heq (landing_self_ne_none base k t)

/-- **Chains of tables that agree on their keys agree everywhere.** -/
theorem agreeAt_of_keys : AgreeAt base tables tables' specifier := by
  have hnone := choice?_isNone_eq_of_agreeAt h
  cases hc : choice? specifier tables with
  | none =>
      rw [hc, Option.isNone_none, eq_comm, Option.isNone_iff_eq_none] at hnone
      exact AgreeAt.of_choice?_eq (hc.trans hnone.symm) base
  | some entry =>
      obtain ⟨k, t⟩ := entry
      cases hc' : choice? specifier tables' with
      | none =>
          rw [hc, hc'] at hnone
          exact absurd hnone (by simp)
      | some entry' =>
          obtain ⟨k', t'⟩ := entry'
          have hcov := covers_of_choice? hc
          have hcov' := covers_of_choice? hc'
          obtain ⟨imports, hmem, hget, -⟩ := exists_of_choice? hc
          obtain ⟨imports', hmem', hget', -⟩ := exists_of_choice? hc'
          rcases le_total k.length k'.length with hle | hle
          · have hk' := h k' ⟨imports', List.mem_append_right _ hmem',
              Dict.mem_keys_of_get? hget'⟩ hcov'
            exact hk'.extend hcov' hc (hcov.of_length_le hcov' hle) hc' (Covers.refl k')
          · have hk := h k ⟨imports, List.mem_append_left _ hmem,
              Dict.mem_keys_of_get? hget⟩ hcov
            exact hk.extend hcov hc (Covers.refl k) hc' (hcov'.of_length_le hcov hle)

end Keys

end ImportAtlas.Imports
