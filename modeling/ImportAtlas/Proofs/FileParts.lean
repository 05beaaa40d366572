import ImportAtlas.Proofs.Segments

/-!
# The parts of URLs on disk

A URL on disk that is put together from parts is taken apart into nearly the same parts: what stands
between two slashes at the front of its path is read as an authority, and a path that follows an
authority begins with a slash.

## Summary

* `Parts.Tame` bounds the parts of a URL on disk, but for the number of segments of its path.
* `Parts.reread` are the parts that are read when parts have been put together.

## Main results

* `exists_eq_fileParts`, `tame_fileParts`: the parts of a URL on disk.
* `Parts.text_eq`, `split?_text`: putting parts together and taking them apart again.
* `Parts.Tame.reread`: what is read is bounded as what was put together.
-/

namespace ImportAtlas.Url

variable {n : Nat} {cs : List Char}

/-! ### Taking URLs apart -/

/-- What stands before and after the first character that fails a test. -/
theorem span_of_stops {p : Char → Bool} {front rest : List Char} (hfront : ∀ c ∈ front, p c = true)
    (hrest : ∀ c ∈ rest.head?, p c = false) :
    (front ++ rest).takeWhile p = front ∧ (front ++ rest).dropWhile p = rest := by
  rw [List.takeWhile_append_of_pos hfront, List.dropWhile_append_of_pos hfront]
  cases rest with
  | nil => simp
  | cons c rest =>
      have hc : p c = false := hrest c rfl
      simp [hc]

/-- The characters that are left out of URLs. -/
def isBreak (c : Char) : Bool := c == '\t' || c == '\r' || c == '\n'

theorem cleanUrl_sublist (cs : List Char) : (cleanUrl cs).Sublist cs :=
  List.filter_sublist.trans (List.dropWhile_sublist _)

theorem isBreak_of_mem_cleanUrl {c : Char} (h : c ∈ cleanUrl cs) : isBreak c = false := by
  have := (List.mem_filter.1 h).2
  simp only [decide_eq_true_eq] at this
  simp [isBreak, this]

/-- The parts of a URL on disk after its scheme. -/
def fileParts (cs : List Char) : Parts :=
  let (authority, rest) := splitAuthority cs
  let (rest, fragment) := splitAt '#' rest
  let (path, query) := splitAt '?' rest
  ⟨"file".toList, authority, path, [], query, fragment⟩

theorem split?_eq_ite_of_file {scheme url rest : List Char}
    (h : splitScheme scheme (cleanUrl url) = ("file".toList, rest)) :
    split? scheme url =
      if isAcceptable (fileParts rest).authority then some (fileParts rest) else none := by
  have hparam : isParamScheme "file".toList = false := by decide
  rw [split?, h]
  simp only [hparam, Bool.false_eq_true, if_false]
  rfl

theorem snd_splitScheme_suffix (scheme cs : List Char) : (splitScheme scheme cs).2 <:+ cs := by
  rw [splitScheme]
  split
  · rename_i rest heq
    split
    · exact (List.suffix_cons ':' rest).trans (heq ▸ List.dropWhile_suffix _)
    · exact List.suffix_refl _
  · exact List.suffix_refl _

theorem scheme_of_split? {scheme url : List Char} {p : Parts} (h : split? scheme url = some p) :
    (splitScheme scheme (cleanUrl url)).1 = p.scheme := by
  rw [split?] at h
  obtain ⟨-, hp⟩ := Option.ite_none_right_eq_some.1 h
  exact congrArg Parts.scheme (Option.some.inj hp)

/-- A URL of the scheme `file` is taken apart after its scheme. -/
theorem exists_eq_fileParts {scheme url : List Char} {p : Parts} (h : split? scheme url = some p)
    (hscheme : p.scheme = "file".toList) :
    ∃ rest, rest.Sublist url ∧ (∀ c ∈ rest, isBreak c = false) ∧ p = fileParts rest := by
  have hsuffix := snd_splitScheme_suffix scheme (cleanUrl url)
  have hsplit : splitScheme scheme (cleanUrl url) =
      ("file".toList, (splitScheme scheme (cleanUrl url)).2) :=
    Prod.ext ((scheme_of_split? h).trans hscheme) rfl
  rw [split?_eq_ite_of_file hsplit] at h
  obtain ⟨-, hp⟩ := Option.ite_none_right_eq_some.1 h
  refine ⟨_, hsuffix.sublist.trans (cleanUrl_sublist url), fun c hc => ?_,
    (Option.some.inj hp).symm⟩
  exact isBreak_of_mem_cleanUrl (hsuffix.subset hc)

theorem filter_breaks (cs : List Char) :
    (cs.filter fun c => decide (c ≠ '\t' ∧ c ≠ '\r' ∧ c ≠ '\n')) =
      cs.filter fun c => !isBreak c := by
  refine List.filter_congr fun c _ => ?_
  by_cases htab : c = '\t' <;> by_cases hreturn : c = '\r' <;> by_cases hline : c = '\n' <;>
    simp [isBreak, htab, hreturn, hline]

/-- The scheme at the front of a URL on disk. -/
theorem splitScheme_cleanUrl_file (scheme : List Char) (cs : List Char) :
    splitScheme scheme (cleanUrl ("file:".toList ++ cs)) =
      ("file".toList, cs.filter fun c => !isBreak c) := by
  rw [← filter_breaks]
  rfl

theorem scheme_eq_file {scheme : List Char} {p : Parts} (hfile : "file:".toList <+: cs)
    (h : split? scheme cs = some p) : p.scheme = "file".toList := by
  obtain ⟨rest, rfl⟩ := hfile
  rw [← scheme_of_split? h, splitScheme_cleanUrl_file]

/-! ### Bounds on parts -/

/-- A path without its leading slash. -/
def unrooted : List Char → List Char
  | '/' :: rest => rest
  | path => path

theorem unrooted_suffix (path : List Char) : unrooted path <:+ path := by
  rw [unrooted.eq_def]
  split
  · exact List.suffix_cons _ _
  · exact List.suffix_refl _

/-- A path with a leading slash, unless it is empty. -/
def rooted (path : List Char) : List Char :=
  if path.isEmpty || path.head? = some '/' then path else '/' :: path

/-- Whether a leading slash is missing from a path. -/
theorem rooted_cases (path : List Char) :
    rooted path = path ∧ (path = [] ∨ ∃ rest, path = '/' :: rest) ∨
      rooted path = '/' :: path ∧ unrooted path = path := by
  cases path with
  | nil => exact Or.inl ⟨rfl, Or.inl rfl⟩
  | cons c rest =>
      by_cases hc : c = '/'
      · subst hc
        exact Or.inl ⟨rfl, Or.inr ⟨rest, rfl⟩⟩
      · refine Or.inr ⟨?_, ?_⟩
        · simp [rooted, hc]
        · rw [unrooted]
          exact fun _ heq => absurd (List.cons.inj heq).1 hc

theorem unrooted_rooted (path : List Char) : unrooted (rooted path) = unrooted path := by
  rcases rooted_cases path with ⟨heq, -⟩ | ⟨heq, hpath⟩
  · rw [heq]
  · rw [heq, hpath]
    rfl

theorem segmented_rooted {path : List Char} (h : Segmented n path) : Segmented n (rooted path) := by
  rcases rooted_cases path with ⟨heq, -⟩ | ⟨heq, -⟩
  · rwa [heq]
  · rw [heq]
    exact segmented_slash_iff.2 h

theorem escaped_rooted (path : List Char) : escaped (rooted path) = escaped path := by
  rcases rooted_cases path with ⟨heq, -⟩ | ⟨heq, -⟩
  · rw [heq]
  · rw [heq, escaped_slash]

theorem forall_mem_rooted {P : Char → Prop} (hslash : P '/') {path : List Char}
    (h : ∀ c ∈ path, P c) : ∀ c ∈ rooted path, P c := by
  rcases rooted_cases path with ⟨heq, -⟩ | ⟨heq, -⟩
  · rwa [heq]
  · rw [heq]
    exact List.forall_mem_cons.2 ⟨hslash, h⟩

theorem loose_unrooted_le (path : List Char) : loose (unrooted path) ≤ loose path := by
  rw [unrooted.eq_def]
  split
  · rw [loose_slash]
    exact Nat.le_succ _
  · exact Nat.le_refl _

theorem loose_le_unrooted (path : List Char) : loose path ≤ loose (unrooted path) + 1 := by
  rw [unrooted.eq_def]
  split
  · rw [loose_slash]
  · exact Nat.le_succ _

namespace Parts

/-- The parts of a URL on disk, bounded but for the number of segments of the path. -/
structure Tame (n : Nat) (p : Parts) : Prop where
  scheme_eq : p.scheme = "file".toList
  params_eq : p.params = []
  authority : ∀ c ∈ p.authority, c ≠ '/' ∧ c ≠ '?' ∧ c ≠ '#' ∧ isBreak c = false
  path : ∀ c ∈ p.path, c ≠ '?' ∧ c ≠ '#' ∧ isBreak c = false
  query : ∀ c ∈ p.query, c ≠ '#' ∧ isBreak c = false
  fragment : ∀ c ∈ p.fragment, isBreak c = false
  length_authority : p.authority.length ≤ n
  length_query : p.query.length ≤ n
  length_fragment : p.fragment.length ≤ n
  segmented : Segmented n p.path
  loose_le : loose (unrooted p.path) ≤ n + 3

end Parts

theorem splitAuthority_sublist (cs : List Char) :
    (splitAuthority cs).1.Sublist cs ∧ (splitAuthority cs).2.Sublist cs := by
  rw [splitAuthority.eq_def]
  split
  · rename_i rest
    have hrest : rest.Sublist ('/' :: '/' :: rest) :=
      (List.sublist_cons_self _ _).trans (List.sublist_cons_self _ _)
    exact ⟨(List.takeWhile_sublist _).trans hrest, (List.dropWhile_sublist _).trans hrest⟩
  · exact ⟨List.nil_sublist _, List.Sublist.refl _⟩

theorem of_mem_authority {c : Char} (h : c ∈ (splitAuthority cs).1) :
    c ≠ '/' ∧ c ≠ '?' ∧ c ≠ '#' := by
  rw [splitAuthority.eq_def] at h
  split at h
  · simpa using List.mem_takeWhile_imp h
  · exact absurd h List.not_mem_nil

theorem splitAt_sublist (delimiter : Char) (cs : List Char) :
    (splitAt delimiter cs).1.Sublist cs ∧ (splitAt delimiter cs).2.Sublist cs :=
  ⟨List.takeWhile_sublist _, (List.drop_sublist _ _).trans (List.dropWhile_sublist _)⟩

theorem ne_of_mem_splitAt {delimiter c : Char} (h : c ∈ (splitAt delimiter cs).1) :
    c ≠ delimiter := by
  simpa using List.mem_takeWhile_imp h

theorem path_fileParts_sublist (cs : List Char) : (fileParts cs).path.Sublist cs :=
  (splitAt_sublist '?' _).1.trans ((splitAt_sublist '#' _).1.trans (splitAuthority_sublist cs).2)

/-- The parts of a short URL on disk are bounded by its length. -/
theorem tame_fileParts (hbreak : ∀ c ∈ cs, isBreak c = false) (hlength : cs.length ≤ n) :
    (fileParts cs).Tame n := by
  obtain ⟨hauthority, hrest⟩ := splitAuthority_sublist cs
  obtain ⟨hfront, hfragment⟩ := splitAt_sublist '#' (splitAuthority cs).2
  obtain ⟨hpath, hquery⟩ := splitAt_sublist '?' (splitAt '#' (splitAuthority cs).2).1
  replace hfragment := hfragment.trans hrest
  have hpath' := path_fileParts_sublist cs
  have hquery' := hquery.trans (hfront.trans hrest)
  have hle : (fileParts cs).path.length ≤ n := Nat.le_trans hpath'.length_le hlength
  exact {
    scheme_eq := rfl
    params_eq := rfl
    authority := fun c hc =>
      have ⟨hslash, hmark, hsign⟩ := of_mem_authority hc
      ⟨hslash, hmark, hsign, hbreak c (hauthority.subset hc)⟩
    path := fun c hc =>
      ⟨ne_of_mem_splitAt hc, ne_of_mem_splitAt (hpath.subset hc), hbreak c (hpath'.subset hc)⟩
    query := fun c hc =>
      ⟨ne_of_mem_splitAt (hquery.subset hc), hbreak c (hquery'.subset hc)⟩
    fragment := fun c hc => hbreak c (hfragment.subset hc)
    length_authority := Nat.le_trans hauthority.length_le hlength
    length_query := Nat.le_trans hquery'.length_le hlength
    length_fragment := Nat.le_trans hfragment.length_le hlength
    segmented := segmented_of_length_le hle
    loose_le := by
      have := loose_le (unrooted (fileParts cs).path)
      have := (unrooted_suffix (fileParts cs).path).length_le
      omega }

/-! ### Putting parts together -/

/-- A part of a URL after its delimiter, which is left out with an empty part. -/
def marked (delimiter : Char) (part : List Char) : List Char :=
  if part.isEmpty then [] else delimiter :: part

/-- A query and a fragment with their delimiters. -/
def tail (query fragment : List Char) : List Char := marked '?' query ++ marked '#' fragment

theorem head?_marked {delimiter : Char} {part : List Char} :
    ∀ c ∈ (marked delimiter part).head?, c = delimiter := by
  cases part with
  | nil => exact fun c hc => absurd hc (by simp [marked])
  | cons => exact fun c hc => (Option.some.inj hc).symm

theorem forall_mem_marked {P : Char → Prop} {delimiter : Char} {part : List Char}
    (hdelimiter : P delimiter) (h : ∀ c ∈ part, P c) : ∀ c ∈ marked delimiter part, P c := by
  cases part with
  | nil => exact h
  | cons => exact List.forall_mem_cons.2 ⟨hdelimiter, h⟩

theorem length_marked_le (delimiter : Char) (part : List Char) :
    (marked delimiter part).length ≤ part.length + 1 := by
  cases part with
  | nil => exact Nat.zero_le _
  | cons => exact Nat.le_refl _

/-- A part is found again after its delimiter. -/
theorem splitAt_marked {delimiter : Char} {front : List Char} (h : ∀ c ∈ front, c ≠ delimiter)
    (part : List Char) : splitAt delimiter (front ++ marked delimiter part) = (front, part) := by
  obtain ⟨htake, hdrop⟩ := @span_of_stops (· ≠ delimiter) front (marked delimiter part)
    (fun c hc => by simpa using h c hc) (fun c hc => by simpa using head?_marked c hc)
  rw [splitAt, htake, hdrop]
  cases part <;> rfl

namespace Parts

variable {p : Parts}

/-- The parts that are read when some parts have been put together. -/
def reread (p : Parts) : Parts :=
  if p.announcesAuthority then
    { p with path := rooted p.path }
  else
    { p with
      authority := (p.path.drop 2).takeWhile (· ≠ '/')
      path := (p.path.drop 2).dropWhile (· ≠ '/') }

/-- What names a file shows an authority, though it has none. -/
theorem announcesAuthority_of_file (hscheme : p.scheme = "file".toList)
    (hpath : ¬ "//".toList <+: p.path) : p.announcesAuthority = true := by
  have hprefix : "//".toList.isPrefixOf p.path = false :=
    Bool.eq_false_iff.2 fun hp => hpath (List.isPrefixOf_iff_prefix.1 hp)
  rw [announcesAuthority, hprefix, hscheme]
  cases p.authority <;> rfl

theorem path_eq_of_not_announced (hscheme : p.scheme = "file".toList)
    (h : p.announcesAuthority = false) : p.path = '/' :: '/' :: p.path.drop 2 := by
  have hauthority : isAuthorityScheme "file".toList = true := by decide
  rw [announcesAuthority, hscheme, hauthority] at h
  simp only [Bool.or_eq_false_iff] at h
  have hprefix : "//".toList <+: p.path := by simpa using h.2
  obtain ⟨rest, hrest⟩ := hprefix
  rw [← hrest]
  rfl

/-- **A URL on disk put together**, as it is read. -/
theorem text_eq (hscheme : p.scheme = "file".toList) (hparams : p.params = []) :
    p.text = "file:".toList ++
      '/' :: '/' :: (p.reread.authority ++ (p.reread.path ++ tail p.query p.fragment)) := by
  have hplace : (if p.announcesAuthority then '/' :: '/' :: p.authority ++
        if p.path.isEmpty || p.path.head? = some '/' then p.path else '/' :: p.path
      else p.path) = '/' :: '/' :: (p.reread.authority ++ p.reread.path) := by
    rw [reread]
    cases hannounced : p.announcesAuthority with
    | true => rfl
    | false =>
        simp only [Bool.false_eq_true, if_false, List.takeWhile_append_dropWhile]
        exact path_eq_of_not_announced hscheme hannounced
  rw [text]
  simp only [hparams, hscheme, List.isEmpty_nil, if_true, hplace]
  rw [tail, marked, marked]
  by_cases hquery : p.query.isEmpty <;> by_cases hfragment : p.fragment.isEmpty <;>
    simp [hquery, hfragment]

@[simp] theorem query_reread (p : Parts) : p.reread.query = p.query := by
  rw [reread]
  split <;> rfl

@[simp] theorem fragment_reread (p : Parts) : p.reread.fragment = p.fragment := by
  rw [reread]
  split <;> rfl

theorem reread_of_announced (h : p.announcesAuthority = true) :
    p.reread = { p with path := rooted p.path } := by
  rw [reread, if_pos h]

/-- A path that announces an authority itself is read without what stands before its third
slash. -/
theorem exists_path_of_not_announced (hscheme : p.scheme = "file".toList)
    (h : p.announcesAuthority = false) : ∃ first rest, '/' ∉ first ∧
      ((p.path = '/' :: '/' :: first ∧ p.reread = { p with authority := first, path := [] }) ∨
        p.path = '/' :: '/' :: (first ++ '/' :: rest) ∧
          p.reread = { p with authority := first, path := '/' :: rest }) := by
  have hpath := path_eq_of_not_announced hscheme h
  have hreread : p.reread = { p with
      authority := (p.path.drop 2).takeWhile (· ≠ '/')
      path := (p.path.drop 2).dropWhile (· ≠ '/') } := by
    rw [reread, h]
    rfl
  generalize p.path.drop 2 = place at hpath hreread
  by_cases hslash : '/' ∈ place
  · obtain ⟨first, rest, rfl, hfirst⟩ := List.eq_append_cons_of_mem hslash
    obtain ⟨htake, hdrop⟩ := @span_of_stops (· ≠ '/') first ('/' :: rest)
      (fun c hc => by simpa using fun heq : c = '/' => hfirst (heq ▸ hc)) (by simp)
    rw [htake, hdrop] at hreread
    exact ⟨first, rest, hfirst, Or.inr ⟨hpath, hreread⟩⟩
  · obtain ⟨htake, hdrop⟩ := @span_of_stops (· ≠ '/') place []
      (fun c hc => by simpa using fun heq : c = '/' => hslash (heq ▸ hc)) (by simp)
    rw [List.append_nil] at htake hdrop
    rw [htake, hdrop] at hreread
    exact ⟨place, [], hslash, Or.inl ⟨hpath, hreread⟩⟩

/-- A path that is read is rooted or empty. -/
theorem head?_path_reread (hscheme : p.scheme = "file".toList) :
    ∀ c ∈ p.reread.path.head?, c = '/' := by
  intro c hc
  cases hannounced : p.announcesAuthority with
  | true =>
      rw [reread_of_announced hannounced] at hc
      rcases rooted_cases p.path with ⟨heq, hpath | ⟨rest, hpath⟩⟩ | ⟨heq, -⟩
      · rw [heq, hpath] at hc
        exact absurd hc (by simp)
      · rw [heq, hpath] at hc
        exact (Option.some.inj hc).symm
      · rw [heq] at hc
        exact (Option.some.inj hc).symm
  | false =>
      obtain ⟨first, rest, -, ⟨-, heq⟩ | ⟨-, heq⟩⟩ :=
        exists_path_of_not_announced hscheme hannounced
      · rw [heq] at hc
        exact absurd hc (by simp)
      · rw [heq] at hc
        exact (Option.some.inj hc).symm

/-- What is read as an authority is a segment of the path. -/
theorem authority_of_first {first : List Char} (hfirst : '/' ∉ first)
    (h : ∀ c ∈ first, c ≠ '?' ∧ c ≠ '#' ∧ isBreak c = false) :
    ∀ c ∈ first, c ≠ '/' ∧ c ≠ '?' ∧ c ≠ '#' ∧ isBreak c = false :=
  fun c hc => ⟨fun heq => hfirst (heq ▸ hc), h c hc⟩

/-- **The parts that are read are bounded as those put together.** -/
theorem Tame.reread (h : p.Tame n) : p.reread.Tame n := by
  cases hannounced : p.announcesAuthority with
  | true =>
      rw [reread_of_announced hannounced]
      exact { h with
        path := forall_mem_rooted (by decide) h.path
        segmented := segmented_rooted h.segmented
        loose_le := by
          rw [unrooted_rooted]
          exact h.loose_le }
  | false =>
      have hchars := h.path
      have hsegmented := h.segmented
      have hloose := h.loose_le
      -- Behind two slashes the first segment of the path is read as an authority.
      obtain ⟨first, rest, hfirst, ⟨hpath, heq⟩ | ⟨hpath, heq⟩⟩ :=
        exists_path_of_not_announced h.scheme_eq hannounced
      · rw [hpath] at hchars hsegmented
        rw [List.forall_mem_cons, List.forall_mem_cons] at hchars
        rw [segmented_slash_iff, segmented_slash_iff, segmented_plain_iff hfirst] at hsegmented
        rw [heq]
        exact { h with
          authority := authority_of_first hfirst hchars.2.2
          path := by simp
          length_authority := hsegmented
          segmented := segmented_of_length_le (Nat.zero_le n)
          loose_le := Nat.le_add_left 1 (n + 2) }
      · rw [hpath] at hchars hsegmented hloose
        rw [List.forall_mem_cons, List.forall_mem_cons, List.forall_mem_append] at hchars
        rw [segmented_slash_iff, segmented_slash_iff, segmented_first_iff hfirst] at hsegmented
        rw [heq]
        exact { h with
          authority := authority_of_first hfirst hchars.2.2.1
          path := hchars.2.2.2
          length_authority := hsegmented.1
          segmented := segmented_slash_iff.2 hsegmented.2
          loose_le := by
            have hle : loose rest ≤ loose ('/' :: (first ++ '/' :: rest)) := by
              rw [loose_slash]
              exact Nat.le_succ_of_le (loose_le_first hfirst rest)
            exact Nat.le_trans hle hloose }

theorem escaped_path_reread_le (hscheme : p.scheme = "file".toList) :
    escaped p.reread.path ≤ escaped p.path := by
  cases hannounced : p.announcesAuthority with
  | true =>
      rw [reread_of_announced hannounced]
      exact Nat.le_of_eq (escaped_rooted p.path)
  | false =>
      obtain ⟨first, rest, hfirst, ⟨hpath, heq⟩ | ⟨hpath, heq⟩⟩ :=
        exists_path_of_not_announced hscheme hannounced
      · rw [heq]
        exact Nat.zero_le _
      · rw [heq, hpath, escaped_slash, escaped_slash, escaped_slash]
        exact escaped_le_first hfirst rest

end Parts

/-- An authority ends where a path, a query or a fragment begins. -/
theorem splitAuthority_append {authority rest : List Char}
    (hauthority : ∀ c ∈ authority, c ≠ '/' ∧ c ≠ '?' ∧ c ≠ '#')
    (hrest : ∀ c ∈ rest.head?, c = '/' ∨ c = '?' ∨ c = '#') :
    splitAuthority ('/' :: '/' :: (authority ++ rest)) = (authority, rest) := by
  obtain ⟨htake, hdrop⟩ := @span_of_stops (fun c => c ≠ '/' ∧ c ≠ '?' ∧ c ≠ '#') authority rest
    (fun c hc => by simpa using hauthority c hc)
    (fun c hc => by rcases hrest c hc with rfl | rfl | rfl <;> rfl)
  rw [splitAuthority, htake, hdrop]

/-- What follows an authority begins with a delimiter. -/
theorem head?_append_tail {path query fragment : List Char} (hpath : ∀ c ∈ path.head?, c = '/') :
    ∀ c ∈ (path ++ tail query fragment).head?, c = '/' ∨ c = '?' ∨ c = '#' := by
  cases path with
  | cons => exact fun c hc => Or.inl (hpath c hc)
  | nil =>
      cases query with
      | cons => exact fun c hc => Or.inr (Or.inl (Option.some.inj hc).symm)
      | nil => exact fun c hc => Or.inr (Or.inr (head?_marked c hc))

/-- **Parts that have been put together are taken apart** into those that are read. -/
theorem split?_text {p : Parts} (h : p.Tame n) (scheme : List Char) :
    split? scheme p.text = if isAcceptable p.reread.authority then some p.reread else none := by
  have hreread := h.reread
  have hbreak : ∀ c ∈ '/' :: '/' ::
      (p.reread.authority ++ (p.reread.path ++ tail p.query p.fragment)), !isBreak c := by
    simp only [List.forall_mem_cons, List.forall_mem_append, tail, Bool.not_eq_true']
    exact ⟨rfl, rfl, fun c hc => (hreread.authority c hc).2.2.2,
      fun c hc => (hreread.path c hc).2.2,
      forall_mem_marked rfl fun c hc => (h.query c hc).2, forall_mem_marked rfl h.fragment⟩
  have hauthority : splitAuthority ('/' :: '/' ::
      (p.reread.authority ++ (p.reread.path ++ tail p.query p.fragment))) =
        (p.reread.authority, p.reread.path ++ tail p.query p.fragment) :=
    splitAuthority_append (fun c hc => ⟨(hreread.authority c hc).1, (hreread.authority c hc).2.1,
      (hreread.authority c hc).2.2.1⟩) (head?_append_tail (Parts.head?_path_reread h.scheme_eq))
  have hfragment : splitAt '#' (p.reread.path ++ tail p.query p.fragment) =
      (p.reread.path ++ marked '?' p.query, p.fragment) := by
    rw [tail, ← List.append_assoc]
    refine splitAt_marked (List.forall_mem_append.2 ⟨fun c hc => (hreread.path c hc).2.1, ?_⟩) _
    exact forall_mem_marked (by decide) fun c hc => (h.query c hc).1
  have hquery : splitAt '?' (p.reread.path ++ marked '?' p.query) = (p.reread.path, p.query) :=
    splitAt_marked (fun c hc => (hreread.path c hc).1) _
  have hparts : fileParts ('/' :: '/' ::
      (p.reread.authority ++ (p.reread.path ++ tail p.query p.fragment))) = p.reread := by
    simp only [fileParts, hauthority, hfragment, hquery]
    rw [← p.query_reread, ← p.fragment_reread, ← hreread.params_eq, ← hreread.scheme_eq]
  rw [Parts.text_eq h.scheme_eq h.params_eq,
    split?_eq_ite_of_file (splitScheme_cleanUrl_file scheme _), List.filter_eq_self.2 hbreak,
    hparts]

/-! ### Paths -/

/-- The parts of the URL of a rooted path. -/
def pathParts (path : List Char) : Parts := ⟨"file".toList, [], path, [], [], []⟩

/-- The URL of a rooted path is taken apart into the path alone. -/
theorem split?_path {path : List Char} (hpath : ∀ c ∈ path, c ≠ '?' ∧ c ≠ '#' ∧ isBreak c = false)
    (hrooted : path.head? = some '/') (scheme : List Char) :
    split? scheme ("file://".toList ++ path) = some (pathParts path) := by
  have hbreak : ∀ c ∈ '/' :: '/' :: path, !isBreak c := by
    simp only [List.forall_mem_cons, Bool.not_eq_true']
    exact ⟨rfl, rfl, fun c hc => (hpath c hc).2.2⟩
  have hauthority : splitAuthority ('/' :: '/' :: path) = ([], path) :=
    @splitAuthority_append [] path (by simp)
      fun c hc => Or.inl (Option.some.inj (hrooted.symm.trans hc)).symm
  have hfragment : splitAt '#' path = (path, []) := by
    simpa [marked] using splitAt_marked (fun c hc => (hpath c hc).2.1) []
  have hquery : splitAt '?' path = (path, []) := by
    simpa [marked] using splitAt_marked (fun c hc => (hpath c hc).1) []
  have hparts : fileParts ('/' :: '/' :: path) = pathParts path := by
    simp only [fileParts, hauthority, hfragment, hquery]
    rfl
  have htext : "file://".toList ++ path = "file:".toList ++ '/' :: '/' :: path := rfl
  rw [htext, split?_eq_ite_of_file (splitScheme_cleanUrl_file scheme _),
    List.filter_eq_self.2 hbreak, hparts]
  rfl

/-- The URL of a rooted path put together. -/
theorem text_pathParts {path : List Char} (hrooted : path.head? = some '/')
    (hannounced : ¬ "//".toList <+: path) : (pathParts path).text = "file://".toList ++ path := by
  have hannounces : (pathParts path).announcesAuthority = true :=
    Parts.announcesAuthority_of_file rfl hannounced
  rw [Parts.text]
  simp only [hannounces, if_true]
  simp [pathParts, hrooted]

end ImportAtlas.Url
