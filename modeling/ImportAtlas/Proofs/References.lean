import ImportAtlas.Proofs.FileParts

/-!
# References on disk

References lead from one URL on disk to the next. Each takes some parts from the document and some
from the reference. So the URLs that short references lead to, one from another, have parts that are
bounded by those of the first, but for the number of segments of their paths. Of these, the ones
that name nothing as they stand are few, too: only segments with escapes may be many without being
names.

## Summary

* `Tame` bounds the parts of a URL on disk, `escapes` counts its segments with escapes.
* `Parts.Joined` tells where the parts of a reference come from.

## Main results

* `joinChars?_cases`: what a reference is resolved to.
* `Tame.joinChars?`: short references lead from tame URLs to tame URLs.
* `escapes_joinChars?_le`: references without percent signs add no segments with escapes.
* `Tame.length_le`: how long a tame URL is.
-/

namespace ImportAtlas.Url

variable {n : Nat}

/-! ### References -/

/-- A URL on disk with bounded parts, or a short one. -/
def Tame (n : Nat) (url : List Char) : Prop :=
  url.length ≤ n ∨ ∃ p : Parts, p.Tame n ∧ url = p.text

/-- The parts of a tame URL on disk are bounded. -/
theorem Tame.parts {url scheme : List Char} {p : Parts} (h : Tame n url)
    (hfile : "file:".toList <+: url) (hsplit : split? scheme url = some p) : p.Tame n := by
  rcases h with hlength | ⟨p', hp', rfl⟩
  · obtain ⟨rest, hrest, hbreak, rfl⟩ := exists_eq_fileParts hsplit (scheme_eq_file hfile hsplit)
    exact tame_fileParts hbreak (Nat.le_trans hrest.length_le hlength)
  · rw [split?_text hp'] at hsplit
    obtain ⟨-, hreread⟩ := Option.ite_none_right_eq_some.1 hsplit
    exact Option.some.inj hreread ▸ hp'.reread

/-- Where the parts come from that a reference has in a document on disk: they are its own, or the
document's for what it does not have, and its path is followed from the document's. -/
structure Parts.Joined (b r p : Parts) : Prop where
  scheme_eq : p.scheme = r.scheme
  params : p.params = b.params ∨ p.params = r.params
  authority : p.authority = b.authority ∨ p.authority = r.authority
  path : p.path = b.path ∨ p.path = r.path ∨ p.path = joinPaths b.path r.path
  query : p.query = b.query ∨ p.query = r.query
  fragment_eq : p.fragment = r.fragment

/-- **What a reference is resolved to**: the document, the reference, or parts of the two. -/
theorem joinChars?_cases {base ref url : List Char} (h : joinChars? base ref = some url) :
    url = base ∨ url = ref ∨ ∃ b r p, split? [] base = some b ∧ split? b.scheme ref = some r ∧
      r.scheme = b.scheme ∧ Parts.Joined b r p ∧ url = p.text := by
  rw [joinChars?] at h
  split at h
  · exact Or.inr (Or.inl (Option.some.inj h).symm)
  · split at h
    · exact Or.inl (Option.some.inj h).symm
    · split at h
      · exact absurd h (by simp)
      · rename_i b hb
        split at h
        · exact absurd h (by simp)
        · rename_i r hr
          split at h
          · exact Or.inr (Or.inl (Option.some.inj h).symm)
          · rename_i hscheme
            rw [Bool.or_eq_true, not_or, decide_eq_true_eq, not_not] at hscheme
            refine Or.inr (Or.inr ⟨b, r, ?_⟩)
            split at h
            · exact ⟨r, hb, hr, hscheme.1,
                ⟨rfl, Or.inr rfl, Or.inr rfl, Or.inr (Or.inl rfl), Or.inr rfl, rfl⟩,
                (Option.some.inj h).symm⟩
            · obtain ⟨authority, hauthority, heq⟩ : ∃ authority,
                  (authority = b.authority ∨ authority = r.authority) ∧
                    (if isAuthorityScheme r.scheme then b.authority else r.authority) =
                      authority := by
                by_cases hauthority : isAuthorityScheme r.scheme = true
                · exact ⟨_, Or.inl rfl, if_pos hauthority⟩
                · exact ⟨_, Or.inr rfl, if_neg hauthority⟩
              dsimp only at h
              rw [heq] at h
              split at h
              · refine ⟨_, hb, hr, hscheme.1, ?_, (Option.some.inj h).symm⟩
                refine ⟨rfl, Or.inl rfl, hauthority, Or.inl rfl, ?_, rfl⟩
                by_cases hquery : r.query.isEmpty = true
                · exact Or.inl (if_pos hquery)
                · exact Or.inr (if_neg hquery)
              · refine ⟨_, hb, hr, hscheme.1, ?_, (Option.some.inj h).symm⟩
                exact ⟨rfl, Or.inr rfl, hauthority, Or.inr (Or.inr rfl), Or.inr rfl, rfl⟩

/-- Parts of a document and a reference are bounded if those of the two are. -/
theorem Parts.Joined.tame {b r p : Parts} (h : Joined b r p) (hb : b.Tame n) (hr : r.Tame n)
    (hpath : r.path.length ≤ n) : p.Tame n where
  scheme_eq := h.scheme_eq.trans hr.scheme_eq
  params_eq := h.params.elim (·.trans hb.params_eq) (·.trans hr.params_eq)
  authority := by
    rcases h.authority with heq | heq <;> rw [heq]
    exacts [hb.authority, hr.authority]
  path := by
    rcases h.path with heq | heq | heq <;> rw [heq]
    · exact hb.path
    · exact hr.path
    · -- The segments of joined paths are segments of the two paths, or empty.
      refine (forall_mem_segments_iff (by decide)).1 fun seg hseg => ?_
      rcases mem_joinPaths hseg with rfl | hseg | hseg
      · simp
      · exact (forall_mem_segments_iff (by decide)).2 hb.path seg hseg
      · exact (forall_mem_segments_iff (by decide)).2 hr.path seg hseg
  query := by
    rcases h.query with heq | heq <;> rw [heq]
    exacts [hb.query, hr.query]
  fragment := by
    rw [h.fragment_eq]
    exact hr.fragment
  length_authority := by
    rcases h.authority with heq | heq <;> rw [heq]
    exacts [hb.length_authority, hr.length_authority]
  length_query := by
    rcases h.query with heq | heq <;> rw [heq]
    exacts [hb.length_query, hr.length_query]
  length_fragment := by
    rw [h.fragment_eq]
    exact hr.length_fragment
  segmented := by
    rcases h.path with heq | heq | heq <;> rw [heq]
    · exact hb.segmented
    · exact hr.segmented
    · intro seg hseg
      rcases mem_joinPaths hseg with rfl | hseg | hseg
      · exact Nat.zero_le n
      · exact hb.segmented seg hseg
      · exact hr.segmented seg hseg
  loose_le := by
    rcases h.path with heq | heq | heq <;> rw [heq]
    · exact hb.loose_le
    · exact hr.loose_le
    · have := loose_unrooted_le (joinPaths b.path r.path)
      have := loose_joinPaths_le b.path r.path
      omega

variable {base ref url : List Char}

/-- The parts of a short reference on disk. -/
theorem parts_of_ref {scheme : List Char} {r : Parts} (hsplit : split? scheme ref = some r)
    (hscheme : r.scheme = "file".toList) (href : ref.length ≤ n) :
    r.Tame n ∧ r.path.Sublist ref := by
  obtain ⟨rest, hrest, hbreak, rfl⟩ := exists_eq_fileParts hsplit hscheme
  exact ⟨tame_fileParts hbreak (Nat.le_trans hrest.length_le href),
    (path_fileParts_sublist rest).trans hrest⟩

/-- **Short references on disk lead from tame URLs to tame URLs.** -/
theorem Tame.joinChars? (h : Tame n base) (hfile : "file:".toList <+: base)
    (href : ref.length ≤ n) (hjoin : joinChars? base ref = some url) : Tame n url := by
  rcases joinChars?_cases hjoin with rfl | rfl | ⟨b, r, p, hb, hr, hscheme, hjoined, rfl⟩
  · exact h
  · exact Or.inl href
  · obtain ⟨hr, hpath⟩ := parts_of_ref hr (hscheme.trans (scheme_eq_file hfile hb)) href
    exact Or.inr ⟨p, hjoined.tame (h.parts hfile hb) hr (Nat.le_trans hpath.length_le href), rfl⟩

/-! ### Escapes -/

/-- The number of segments with an escape in the path of a URL. -/
def escapes (url : List Char) : Nat := (split? [] url).elim 0 fun p => escaped p.path

/-- A URL on disk without percent signs has no segment with an escape. -/
theorem escapes_eq_zero (hfile : "file:".toList <+: url) (h : '%' ∉ url) : escapes url = 0 := by
  rw [escapes]
  cases hsplit : split? [] url with
  | none => rfl
  | some p =>
      obtain ⟨-, hpath⟩ := parts_of_ref hsplit (scheme_eq_file hfile hsplit) (Nat.le_refl _)
      exact escaped_eq_zero fun hmem => h (hpath.subset hmem)

/-- A URL on disk has no more segments with an escape than characters, and one. -/
theorem escapes_le (hfile : "file:".toList <+: url) : escapes url ≤ url.length + 1 := by
  rw [escapes]
  cases hsplit : split? [] url with
  | none => exact Nat.zero_le _
  | some p =>
      obtain ⟨-, hpath⟩ := parts_of_ref hsplit (scheme_eq_file hfile hsplit) (Nat.le_refl _)
      calc escaped p.path
          ≤ (p.path.splitOn '/').length := List.countP_le_length
        _ ≤ p.path.length + 1 := length_splitOn_le p.path
        _ ≤ url.length + 1 := Nat.succ_le_succ hpath.length_le

/-- **References without percent signs add no segments with escapes.** -/
theorem escapes_joinChars?_le (h : Tame n base) (hfile : "file:".toList <+: base)
    (href : ref.length ≤ n) (hpercent : '%' ∉ ref) (hjoin : joinChars? base ref = some url)
    (hurl : "file:".toList <+: url) : escapes url ≤ escapes base := by
  rcases joinChars?_cases hjoin with rfl | rfl | ⟨b, r, p, hb, hr, hscheme, hjoined, rfl⟩
  · exact Nat.le_refl _
  · rw [escapes_eq_zero hurl hpercent]
    exact Nat.zero_le _
  · obtain ⟨hr, hpath⟩ := parts_of_ref hr (hscheme.trans (scheme_eq_file hfile hb)) href
    have hp := hjoined.tame (h.parts hfile hb) hr (Nat.le_trans hpath.length_le href)
    have hescape : '%' ∉ r.path := fun hmem => hpercent (hpath.subset hmem)
    have hle : escaped p.path ≤ escaped b.path := by
      rcases hjoined.path with heq | heq | heq <;> rw [heq]
      · rw [escaped_eq_zero hescape]
        exact Nat.zero_le _
      · exact escaped_joinPaths_le hescape
    rw [escapes, escapes, split?_text hp, hb]
    split
    · exact Nat.le_trans (Parts.escaped_path_reread_le hp.scheme_eq) hle
    · exact Nat.zero_le _

/-! ### Paths -/

/-- A reference without parts but its path leads from a path to the path that is followed. -/
theorem joinChars?_path {path : List Char}
    (hpath : ∀ c ∈ path, c ≠ '?' ∧ c ≠ '#' ∧ isBreak c = false) (hrooted : path.head? = some '/')
    (hempty : ref ≠ []) (href : split? "file".toList ref = some (pathParts ref))
    (hjoined : (joinPaths path ref).head? = some '/')
    (hannounced : ¬ "//".toList <+: joinPaths path ref) :
    joinChars? ("file://".toList ++ path) ref =
      some ("file://".toList ++ joinPaths path ref) := by
  have hsplit : split? (pathParts path).scheme ref = some (pathParts ref) := href
  have hscheme : (pathParts ref).scheme = (pathParts path).scheme := rfl
  have hrelative : isRelativeScheme (pathParts path).scheme = true := by
    show isRelativeScheme "file".toList = true
    decide
  have hauthority : isAuthorityScheme (pathParts ref).scheme = true := by
    show isAuthorityScheme "file".toList = true
    decide
  rw [← text_pathParts hjoined hannounced, joinChars?, if_neg (by simp), if_neg (by simp [hempty]),
    split?_path hpath hrooted]
  simp only [hsplit]
  rw [if_neg (by simp [hscheme, hrelative]), if_neg (by simp [pathParts]),
    if_neg (by simp [pathParts, hempty]), if_pos hauthority]
  rfl

/-! ### Length -/

/-- The number of names in what a path reads. -/
def readNames (path : List Char) : Nat :=
  ((decode path).splitOn '/').countP fun seg => !namesNothing seg

/-- The number of segments of a path is bounded by its names and its segments with escapes. -/
theorem Parts.Tame.length_segments_le {p : Parts} (h : p.Tame n) :
    (p.path.splitOn '/').length ≤ n + 4 + escaped p.path + readNames p.path := by
  have hsegments := Url.length_segments_le p.path
  have hloose : loose p.path ≤ loose (unrooted p.path) + 1 := loose_le_unrooted p.path
  have := h.loose_le
  rw [readNames]
  omega

/-- **How long a tame URL is**, given the numbers of names and of segments with escapes. -/
theorem Tame.length_le {p : Parts} (h : Tame n url) (hfile : "file:".toList <+: url)
    (hsplit : split? [] url = some p) :
    url.length ≤ 3 * n + 9 + (n + 4 + escapes url + readNames p.path) * (n + 1) := by
  have hescapes : escapes url = escaped p.path := by rw [escapes, hsplit]; rfl
  rw [hescapes]
  have hpath := (h.parts hfile hsplit).segmented.length_le
  have hsegments := Nat.mul_le_mul_right (n + 1) (h.parts hfile hsplit).length_segments_le
  rcases h with hlength | ⟨p', hp', rfl⟩
  · omega
  · rw [split?_text hp'] at hsplit
    obtain ⟨-, hreread⟩ := Option.ite_none_right_eq_some.1 hsplit
    obtain rfl := Option.some.inj hreread
    have hauthority := hp'.reread.length_authority
    have hquery := length_marked_le '?' p'.query
    have hfragment := length_marked_le '#' p'.fragment
    have := hp'.length_query
    have := hp'.length_fragment
    have hfile : "file:".toList.length = 5 := rfl
    rw [Parts.text_eq hp'.scheme_eq hp'.params_eq, tail]
    simp only [List.length_append, List.length_cons, hfile]
    omega

end ImportAtlas.Url
