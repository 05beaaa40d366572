import ImportAtlas.Proofs.Paths
import ImportAtlas.Resolver.Reference
import Mathlib.Data.List.TakeWhile

/-!
# URLs of folders

A relative reference to a folder ends in a slash, and so does the URL that it denotes, whatever the
document that it stands in: so a scope below a folder holds the modules in the folder.

## Main results

* `Url.getLast?_joinPaths`: a path that ends in a slash is joined to one.
* `Url.Parts.getLast?_text`: the last part of a URL is its end.
* `Project.endsInSlash_of_mapUrl_packageFolder`: the URL of the folder of a package ends in a slash.
-/

namespace ImportAtlas

namespace Url

/-! ### Joined paths -/

theorem getLast?_append_of_getLast? {cs cs' : List Char} {c : Char} (h : cs'.getLast? = some c) :
    (cs ++ cs').getLast? = some c := by
  rw [List.getLast?_append, h, Option.some_or]

/-- Segments of which the last is empty are written with a slash at the end. -/
theorem getLast?_intercalate_concat {segs : List Segment} (h : segs ≠ []) :
    (['/'].intercalate (segs ++ [[]])).getLast? = some '/' := by
  induction segs with
  | nil => exact absurd rfl h
  | cons seg segs ih =>
      cases segs with
      | nil =>
          rw [List.singleton_append, List.intercalate_cons_cons, List.intercalate_singleton,
            List.append_nil]
          exact getLast?_append_of_getLast? rfl
      | cons next more =>
          rw [List.cons_append, List.intercalate_cons_of_ne_nil (by simp)]
          exact getLast?_append_of_getLast? (ih (List.cons_ne_nil _ _))

theorem exists_dropInnerEmpty_concat {segs : List Segment} (h : segs ≠ []) :
    ∃ kept, dropInnerEmpty (segs ++ [[]]) = kept ++ [[]] := by
  cases segs with
  | nil => exact absurd rfl h
  | cons first rest =>
      refine ⟨first :: rest.filter (!·.isEmpty), ?_⟩
      rw [List.cons_append, dropInnerEmpty, List.dropLast_concat, List.getLast?_concat]
      rfl

/-- An empty segment at the end stays there when dots are followed. -/
theorem exists_removeDots_concat (segs : List Segment) :
    ∃ kept, removeDots (segs ++ [[]]) = kept ++ [[]] := by
  refine ⟨(segs.foldl pushSegment []).reverse, ?_⟩
  have hpush : ∀ stack : List Segment, pushSegment stack [] = [] :: stack := fun _ => rfl
  simp only [removeDots, List.foldl_append, List.foldl_cons, List.foldl_nil, hpush,
    List.reverse_cons, List.getLast?_concat]
  rfl

/-- **A path that ends in a slash is joined to one.** -/
theorem getLast?_joinPaths (base path : List Char) :
    (joinPaths base (path ++ ['/'])).getLast? = some '/' := by
  have hsplit : (path ++ ['/']).splitOn '/' = path.splitOn '/' ++ [[]] :=
    List.splitOn_append_cons_self path []
  have hsegs : ∃ segs, (if (path ++ ['/']).head? = some '/' then (path ++ ['/']).splitOn '/'
      else dropInnerEmpty (directorySegments base ++ (path ++ ['/']).splitOn '/')) =
        segs ++ [[]] := by
    rw [hsplit]
    split
    · exact ⟨_, rfl⟩
    · rw [← List.append_assoc]
      exact exists_dropInnerEmpty_concat
        (List.append_ne_nil_of_right_ne_nil _ (List.splitOn_ne_nil _ _))
  obtain ⟨segs, hsegs⟩ := hsegs
  obtain ⟨kept, hkept⟩ := exists_removeDots_concat segs
  simp only [joinPaths, hsegs, hkept]
  cases kept with
  | nil => rfl
  | cons seg more =>
      have hlast := getLast?_intercalate_concat (List.cons_ne_nil seg more)
      rw [if_neg]
      · exact hlast
      · intro hempty
        rw [List.isEmpty_iff.1 hempty] at hlast
        exact absurd hlast (by simp)

/-! ### The end of a URL -/

namespace Parts

/-- **The last part of a URL is its end**: the fragment, or else the query, or else the path. -/
theorem getLast?_text {parts : Parts} {c : Char}
    (h : parts.fragment.getLast? = some c ∨ parts.fragment = [] ∧
      (parts.query.getLast? = some c ∨ parts.query = [] ∧
        (parts.params = [] ∧ parts.path.getLast? = some c))) : parts.text.getLast? = some c := by
  have hpart : ∀ {part : List Char}, part.getLast? = some c → part.isEmpty = false := by
    intro part hlast
    cases part with
    | nil => exact absurd hlast (by simp)
    | cons d ds => rfl
  have hcons : ∀ {part : List Char} (d : Char), part.getLast? = some c →
      (d :: part).getLast? = some c := fun d hlast =>
    @getLast?_append_of_getLast? [d] _ c hlast
  rcases h with hfragment | ⟨hfragment, hquery | ⟨hquery, hparams, hpath⟩⟩
  · simp only [text, hpart hfragment, Bool.false_eq_true, if_false]
    exact getLast?_append_of_getLast? (hcons '#' hfragment)
  · simp only [text, hfragment, List.isEmpty_nil, if_true, hpart hquery, Bool.false_eq_true,
      if_false]
    exact getLast?_append_of_getLast? (hcons '?' hquery)
  · have hrooted : (if parts.path.isEmpty || parts.path.head? = some '/' then parts.path
        else '/' :: parts.path).getLast? = some c := by
      split
      · exact hpath
      · exact hcons '/' hpath
    have hplaced : (if parts.announcesAuthority then
        '/' :: '/' :: parts.authority ++
          (if parts.path.isEmpty || parts.path.head? = some '/' then parts.path
            else '/' :: parts.path)
        else parts.path).getLast? = some c := by
      split
      · exact getLast?_append_of_getLast? hrooted
      · exact hpath
    simp only [text, hfragment, hquery, hparams, List.isEmpty_nil, if_true]
    split
    · exact hplaced
    · exact getLast?_append_of_getLast? (hcons ':' hplaced)

end Parts

/-! ### References to folders -/

/-- A delimiter leaves the slash at the end of a text to what follows it, or does not occur. -/
theorem splitAt_concat_slash {delimiter : Char} (hd : delimiter ≠ '/') (cs : List Char) :
    (splitAt delimiter (cs ++ ['/'])).2.getLast? = some '/' ∨
      splitAt delimiter (cs ++ ['/']) = (cs ++ ['/'], []) := by
  by_cases hmem : delimiter ∈ cs
  · left
    obtain ⟨before, after, rfl, hbefore⟩ := List.eq_append_cons_of_mem hmem
    have hall : ∀ c ∈ before, decide (c ≠ delimiter) = true := fun c hc =>
      decide_eq_true fun heq => hbefore (heq ▸ hc)
    rw [splitAt, List.append_assoc, List.dropWhile_append_of_pos hall, List.cons_append,
      List.dropWhile_cons_of_neg (by simp), List.drop_one, List.tail_cons, List.getLast?_concat]
  · right
    have hall : ∀ c ∈ cs ++ ['/'], decide (c ≠ delimiter) = true := by
      intro c hc
      rcases List.mem_append.1 hc with hc | hc
      · exact decide_eq_true fun heq => hmem (heq ▸ hc)
      · exact decide_eq_true fun heq => hd (heq.symm.trans (List.mem_singleton.1 hc))
    rw [splitAt, List.takeWhile_eq_self_iff.2 hall, List.dropWhile_eq_nil_iff.2 hall, List.drop_nil]

/-- A path that ends in a slash has no parameters. -/
theorem splitParams_concat_slash (path : List Char) :
    splitParams (path ++ ['/']) = (path ++ ['/'], []) := by
  have hlast : ((path ++ ['/']).reverse.takeWhile (· ≠ '/')).reverse = [] := by
    rw [List.reverse_append, List.reverse_singleton, List.singleton_append,
      List.takeWhile_cons_of_neg (by decide), List.reverse_nil]
  simp only [splitParams, hlast, List.length_nil, Nat.sub_zero, List.take_length]
  rw [splitAt]
  simp

/-- A text that begins with no letter has no scheme of its own. -/
theorem splitScheme_of_not_isAlpha {c : Char} (h : c.isAlpha = false) (hcolon : c ≠ ':')
    (scheme cs : List Char) : splitScheme scheme (c :: cs) = (scheme, c :: cs) := by
  have hhead : (((c :: cs).takeWhile (· ≠ ':')).head?.any Char.isAlpha) = false := by
    rw [List.takeWhile_cons_of_pos (by simpa using hcolon)]
    exact h
  rw [splitScheme]
  split
  · rw [hhead, Bool.false_and, if_neg (by decide)]
  · rfl

theorem splitScheme_of_dot (scheme cs : List Char) :
    splitScheme scheme ('.' :: cs) = (scheme, '.' :: cs) :=
  splitScheme_of_not_isAlpha (by decide) (by decide) scheme cs

theorem cleanUrl_folder (cs : List Char) :
    ∃ kept, cleanUrl ('.' :: (cs ++ ['/'])) = '.' :: (kept ++ ['/']) := by
  refine ⟨cs.filter fun c => c ≠ '\t' ∧ c ≠ '\r' ∧ c ≠ '\n', ?_⟩
  rw [cleanUrl, List.dropWhile_cons_of_neg (by decide), List.filter_cons_of_pos (by decide),
    List.filter_append]
  rfl

/-- **A reference to a folder ends in a slash in its last part**: in its fragment, its query or
its path. -/
theorem split?_folder {scheme cs : List Char} {parts : Parts}
    (h : split? scheme ('.' :: (cs ++ ['/'])) = some parts) :
    parts.authority = [] ∧ (parts.fragment.getLast? = some '/' ∨ parts.fragment = [] ∧
      (parts.query.getLast? = some '/' ∨ parts.query = [] ∧
        (parts.params = [] ∧ ∃ path, parts.path = '.' :: (path ++ ['/'])))) := by
  obtain ⟨kept, hkept⟩ := cleanUrl_folder cs
  have hauthority : splitAuthority ('.' :: (kept ++ ['/'])) = ([], '.' :: (kept ++ ['/'])) := rfl
  have hfragment := splitAt_concat_slash (show '#' ≠ '/' by decide) ('.' :: kept)
  have hquery := splitAt_concat_slash (show '?' ≠ '/' by decide) ('.' :: kept)
  have hparams := splitParams_concat_slash ('.' :: kept)
  rw [List.cons_append] at hfragment hquery hparams
  cases hf : splitAt '#' ('.' :: (kept ++ ['/'])) with
  | mk rest fragment =>
      cases hq : splitAt '?' rest with
      | mk path query =>
          simp only [split?, hkept, splitScheme_of_dot, hauthority, hf, hq] at h
          obtain ⟨-, hparts⟩ := Option.ite_none_right_eq_some.1 h
          obtain rfl := Option.some.inj hparts
          refine ⟨rfl, ?_⟩
          rw [hf] at hfragment
          rcases hfragment with hlast | hnone
          · exact Or.inl hlast
          · obtain ⟨rfl, rfl⟩ := Prod.mk.inj hnone
            rw [hq] at hquery
            refine Or.inr ⟨rfl, ?_⟩
            rcases hquery with hlast | hnone
            · exact Or.inl hlast
            · obtain ⟨rfl, rfl⟩ := Prod.mk.inj hnone
              refine Or.inr ⟨rfl, ?_⟩
              split
              · rw [hparams]
                exact ⟨rfl, kept, rfl⟩
              · exact ⟨rfl, kept, rfl⟩

/-- **The URL of a folder ends in a slash**, whatever the document that refers to it. -/
theorem getLast?_joinChars? {base cs url : List Char}
    (h : joinChars? base ('.' :: (cs ++ ['/'])) = some url) : url.getLast? = some '/' := by
  have hself : ('.' :: (cs ++ ['/'])).getLast? = some '/' := by
    rw [← List.cons_append, List.getLast?_concat]
  rw [joinChars?] at h
  split at h
  · exact Option.some.inj h ▸ hself
  · split at h
    · rename_i hempty
      exact absurd hempty (by simp)
    · split at h
      · exact absurd h (by simp)
      · rename_i b hb
        cases hparts : split? b.scheme ('.' :: (cs ++ ['/'])) with
        | none => exact absurd h (by simp [hparts])
        | some parts =>
            obtain ⟨hauthority, hend⟩ := split?_folder hparts
            simp only [hparts, hauthority, List.isEmpty_nil, Bool.not_true, Bool.and_false,
              Bool.false_eq_true, if_false] at h
            split at h
            · exact Option.some.inj h ▸ hself
            · split at h
              · rename_i hempty
                obtain rfl := Option.some.inj h
                refine Parts.getLast?_text ?_
                rcases hend with hlast | ⟨hfragment, hlast | ⟨-, -, path, hpath⟩⟩
                · exact Or.inl hlast
                · refine Or.inr ⟨hfragment, Or.inl ?_⟩
                  show (if parts.query.isEmpty then b.query else parts.query).getLast? = some '/'
                  cases hquery : parts.query with
                  | nil => exact absurd hlast (by simp [hquery])
                  | cons c cs => rwa [hquery] at hlast
                · rw [hpath] at hempty
                  exact absurd hempty (by simp)
              · obtain rfl := Option.some.inj h
                refine Parts.getLast?_text ?_
                rcases hend with hlast | ⟨hfragment, hlast | ⟨hquery, hparams, path, hpath⟩⟩
                · exact Or.inl hlast
                · exact Or.inr ⟨hfragment, Or.inl hlast⟩
                · refine Or.inr ⟨hfragment, Or.inr ⟨hquery, hparams, ?_⟩⟩
                  rw [hpath, ← List.cons_append]
                  exact getLast?_joinPaths b.path ('.' :: path)

end Url

/-- A relative reference to a folder denotes a URL that ends in a slash. -/
theorem endsInSlash_of_joinUrl {base reference url : String} {cs : List Char}
    (hreference : reference.toList = '.' :: (cs ++ ['/'])) (h : joinUrl base reference = .ok url) :
    Target.endsInSlash url = true := by
  rw [joinUrl, Url.join?, hreference] at h
  cases hjoin : Url.joinChars? base.toList ('.' :: (cs ++ ['/'])) with
  | none => exact absurd h (by simp [hjoin])
  | some chars =>
      rw [hjoin, Option.map_some] at h
      obtain rfl := Except.ok.inj h
      rw [Target.endsInSlash, String.toList_ofList, Url.getLast?_joinChars? hjoin]
      rfl

namespace Project

/-- **The URL of the folder of a package ends in a slash.** -/
theorem endsInSlash_of_mapUrl_packageFolder {p : Project} {id : PackageId} {base url : String}
    (h : mapUrl base (p.packageFolder id) = .ok url) : Target.endsInSlash url = true := by
  have hhead := head?_targetOfPath (p.place id)
  obtain ⟨cs, hcs⟩ := List.head?_eq_some_iff.1 hhead
  have hfolder : (p.packageFolder id).toList = '.' :: (cs ++ ['/']) := by
    rw [toList_packageFolder, hcs, List.cons_append]
  have hscheme : Target.isLongUrl (p.packageFolder id) = false := by
    rw [Target.isLongUrl, hfolder]
    rfl
  rw [mapUrl, referenceUrl?, hscheme] at h
  cases hpath : isPathSpecifier (p.packageFolder id) with
  | true =>
      cases hjoin : joinUrl base (p.packageFolder id) with
      | error e => exact absurd h (by simp [hpath, hjoin, Except.map, bind, Except.bind])
      | ok joined =>
          obtain rfl : joined = url := by
            simpa [hpath, hjoin, Except.map, bind, Except.bind, pure, Except.pure] using h
          exact endsInSlash_of_joinUrl hfolder hjoin
  | false =>
      have hjoin : joinUrl base ("./" ++ p.packageFolder id) = .ok url := by
        simpa [hpath, bind, Except.bind] using h
      refine @endsInSlash_of_joinUrl base _ url ('/' :: '.' :: cs) ?_ hjoin
      rw [String.toList_append, hfolder]
      rfl

end Project

end ImportAtlas
