import ImportAtlas.Proofs.FileParts
import ImportAtlas.Package.Id

/-!
# The form of package identifiers

An identifier is a registry, a colon and a name, and perhaps an at sign and a version. A name may
begin with an at sign and a version may hold slashes, colons and line feeds; still a text can be
taken apart in one way only, since a name holds no second at sign and a version none at all. A
line feed at the end belongs to the version if there is one; otherwise it is no part of the
identifier.

## Summary

* `PackageId.IsName`, `PackageId.IsRegistry`, `PackageId.IsVersion` are the forms of the parts.
* `PackageId.Names` relates a text to the package that it identifies.

## Main results

* `PackageId.spanName_append`, `PackageId.spanName_spec`: the longest name at the front of a text.
* `PackageId.parseChars?_eq_some_iff`: how a text is taken apart.
* `PackageId.parse?_iff_names_and_text`: which texts are read, and that they are written again.
-/

namespace ImportAtlas.PackageId

variable {cs name rest registry version tail : List Char} {c : Char} {text : String}
  {id : PackageId}

/-! ### Parts of identifiers -/

/-- A registry: one or more small letters. -/
def IsRegistry (cs : List Char) : Prop := cs ≠ [] ∧ ∀ c ∈ cs, 'a' ≤ c ∧ c ≤ 'z'

/-- What may follow the first character of a name: name characters in parts between slashes, every
part after the first not empty. -/
def IsNameRest (cs : List Char) : Prop :=
  (∀ part ∈ cs.splitOn '/', ∀ c ∈ part, isNameChar c = true) ∧ [] ∉ (cs.splitOn '/').tail

/-- A name: it may begin with an at sign. -/
def IsName (cs : List Char) : Prop :=
  ∃ first rest, cs = first :: rest ∧ (first = '@' ∨ isNameChar first = true) ∧ IsNameRest rest

/-- A version: one or more characters other than the at sign. -/
def IsVersion (cs : List Char) : Prop := cs ≠ [] ∧ '@' ∉ cs

/-- The texts that identify a package: without version, with a line feed behind that, and with a
version. -/
inductive Names : String → PackageId → Prop
  | plain {registry name : String} (hregistry : IsRegistry registry.toList)
      (hname : IsName name.toList) : Names (registry ++ ":" ++ name) ⟨registry, name, ""⟩
  | line {registry name : String} (hregistry : IsRegistry registry.toList)
      (hname : IsName name.toList) : Names (registry ++ ":" ++ name ++ "\n") ⟨registry, name, ""⟩
  | versioned {registry name version : String} (hregistry : IsRegistry registry.toList)
      (hname : IsName name.toList) (hversion : IsVersion version.toList) :
      Names (registry ++ ":" ++ name ++ "@" ++ version) ⟨registry, name, version⟩

/-! ### Names -/

theorem isNameRest_nil : IsNameRest [] := by
  rw [IsNameRest, List.splitOn_nil]
  exact ⟨fun part hpart c hc => absurd (List.mem_singleton.1 hpart ▸ hc) List.not_mem_nil,
    List.not_mem_nil⟩

theorem ne_slash_of_isNameChar (h : isNameChar c = true) : c ≠ '/' := by
  rintro rfl
  exact absurd h (by decide)

/-- A character other than a slash goes into the first part. -/
theorem exists_splitOn_cons (hc : c ≠ '/') (rest : List Char) :
    ∃ first parts, rest.splitOn '/' = first :: parts ∧
      (c :: rest).splitOn '/' = (c :: first) :: parts := by
  obtain ⟨first, parts, hsplit⟩ := List.exists_cons_of_ne_nil (List.splitOn_ne_nil '/' rest)
  refine ⟨first, parts, hsplit, ?_⟩
  rw [List.splitOn_cons_eq_if_modifyHead, if_neg (by simpa using hc), hsplit, List.modifyHead_cons]

theorem isNameRest_cons (hc : c ≠ '/') :
    IsNameRest (c :: rest) ↔ isNameChar c = true ∧ IsNameRest rest := by
  obtain ⟨first, parts, hrest, hcons⟩ := exists_splitOn_cons hc rest
  rw [IsNameRest, IsNameRest, hcons, hrest, List.tail_cons, List.tail_cons, List.forall_mem_cons,
    List.forall_mem_cons, List.forall_mem_cons]
  tauto

/-- A slash begins another part, which is not empty. -/
theorem isNameRest_slash :
    IsNameRest ('/' :: rest) ↔
      ∃ c more, rest = c :: more ∧ isNameChar c = true ∧ IsNameRest more := by
  have hparts : IsNameRest ('/' :: rest) ↔
      (∀ part ∈ rest.splitOn '/', ∀ c ∈ part, isNameChar c = true) ∧ [] ∉ rest.splitOn '/' := by
    rw [IsNameRest, Url.splitOn_slash, List.tail_cons, List.forall_mem_cons]
    simp
  rw [hparts]
  constructor
  · rintro ⟨hchars, hempty⟩
    cases rest with
    | nil => exact absurd (by simp) hempty
    | cons c more =>
        have hc : c ≠ '/' := by
          rintro rfl
          exact hempty (by simp [Url.splitOn_slash])
        exact ⟨c, more, rfl, (isNameRest_cons hc).1
          ⟨hchars, fun hmem => hempty (List.mem_of_mem_tail hmem)⟩⟩
  · rintro ⟨c, more, rfl, hc, hmore⟩
    have hslash := ne_slash_of_isNameChar hc
    obtain ⟨hchars, hempty⟩ := (isNameRest_cons hslash).2 ⟨hc, hmore⟩
    obtain ⟨first, parts, -, hcons⟩ := exists_splitOn_cons hslash more
    rw [hcons, List.tail_cons] at hempty
    refine ⟨hchars, fun hmem => ?_⟩
    rw [hcons] at hmem
    exact hempty ((List.mem_cons.1 hmem).resolve_left (by simp))

/-! ### The longest name -/

theorem spanName_cons (hc : c ≠ '/') (rest : List Char) :
    spanName (c :: rest) =
      if isNameChar c then (c :: (spanName rest).1, (spanName rest).2) else ([], c :: rest) := by
  rw [spanName]
  exact fun _ _ heq => absurd heq hc

theorem spanName_slash_cons (c : Char) (rest : List Char) :
    spanName ('/' :: c :: rest) =
      if isNameChar c then ('/' :: c :: (spanName rest).1, (spanName rest).2)
      else ([], '/' :: c :: rest) := by
  rw [spanName]

/-- **The longest name at the front of a text** is one, and nothing is lost. -/
theorem spanName_spec (cs : List Char) :
    IsNameRest (spanName cs).1 ∧ (spanName cs).1 ++ (spanName cs).2 = cs := by
  fun_induction spanName cs with
  | case1 c rest hc name rest' hspan ih =>
      rw [hspan] at ih
      exact ⟨isNameRest_slash.2 ⟨c, name, rfl, hc, ih.1⟩, by rw [← ih.2]; rfl⟩
  | case2 c rest hc => exact ⟨isNameRest_nil, rfl⟩
  | case3 c rest hslash hc name rest' hspan ih =>
      rw [hspan] at ih
      exact ⟨(isNameRest_cons (ne_slash_of_isNameChar hc)).2 ⟨hc, ih.1⟩, by rw [← ih.2]; rfl⟩
  | case4 c rest hslash hc => exact ⟨isNameRest_nil, rfl⟩
  | case5 => exact ⟨isNameRest_nil, rfl⟩

/-- A name is passed over as far as something stands that cannot go on with it. -/
theorem spanName_append (hname : IsNameRest name)
    (htail : ∀ c ∈ tail.head?, c ≠ '/' ∧ isNameChar c = false) :
    spanName (name ++ tail) = (name, tail) := by
  have hslash : ∀ {c}, isNameChar c = true → c ≠ '/' := ne_slash_of_isNameChar
  induction name using spanName.induct with
  | case1 c rest hc name rest' hspan ih =>
      obtain ⟨_, _, heq, -, hrest⟩ := isNameRest_slash.1 hname
      obtain ⟨rfl, rfl⟩ := List.cons.inj heq
      rw [List.cons_append, List.cons_append, spanName_slash_cons, if_pos hc, ih hrest]
  | case2 c rest hc =>
      obtain ⟨_, _, heq, hc', -⟩ := isNameRest_slash.1 hname
      exact absurd ((List.cons.inj heq).1 ▸ hc') hc
  | case3 c rest _ hc name rest' hspan ih =>
      rw [List.cons_append, spanName_cons (hslash hc), if_pos hc,
        ih ((isNameRest_cons (hslash hc)).1 hname).2]
  | case4 c rest hc hnot =>
      by_cases heq : c = '/'
      · subst heq
        obtain ⟨d, more, rfl, -⟩ := isNameRest_slash.1 hname
        exact absurd rfl (hc d more rfl)
      · exact absurd ((isNameRest_cons heq).1 hname).1 hnot
  | case5 =>
      rw [List.nil_append]
      cases tail with
      | nil => rfl
      | cons c rest =>
          obtain ⟨hc, hnot⟩ := htail c rfl
          rw [spanName_cons hc, hnot, if_neg Bool.false_ne_true]

/-! ### Taking an identifier apart -/

/-- What may stand behind a name, with the version that it gives. -/
theorem versionOf?_eq_some_iff :
    versionOf? tail = some version ↔
      version = [] ∧ (tail = [] ∨ tail = ['\n']) ∨ IsVersion version ∧ tail = '@' :: version := by
  fun_cases versionOf? tail with
  | case1 => simp [eq_comm]
  | case2 => simp [eq_comm]
  | case3 more hbad =>
      rw [Bool.or_eq_true, List.isEmpty_iff, List.contains_iff_mem] at hbad
      refine iff_of_false (by simp) ?_
      rintro (⟨-, heq | heq⟩ | ⟨hversion, heq⟩)
      · exact absurd heq (by simp)
      · exact absurd heq (by simp)
      · obtain rfl := (List.cons.inj heq).2
        exact hbad.elim hversion.1 hversion.2
  | case4 more hgood =>
      rw [Bool.or_eq_true, List.isEmpty_iff, List.contains_iff_mem, not_or] at hgood
      constructor
      · intro heq
        obtain rfl := Option.some.inj heq
        exact Or.inr ⟨hgood, rfl⟩
      · rintro (⟨-, heq | heq⟩ | ⟨-, heq⟩)
        · exact absurd heq (by simp)
        · exact absurd heq (by simp)
        · rw [(List.cons.inj heq).2]
  | case5 _ hnil hline hmark =>
      refine iff_of_false (by simp) ?_
      rintro (⟨-, heq | heq⟩ | ⟨-, heq⟩)
      · exact hnil heq
      · exact hline heq
      · exact hmark _ heq

/-- Behind a name stands nothing that could go on with it. -/
theorem stops_of_versionOf? (h : versionOf? tail = some version) :
    ∀ c ∈ tail.head?, c ≠ '/' ∧ isNameChar c = false := by
  intro c hc
  rcases versionOf?_eq_some_iff.1 h with ⟨-, rfl | rfl⟩ | ⟨-, rfl⟩
  · exact absurd hc (by simp)
  · obtain rfl := Option.some.inj hc
    decide +kernel
  · obtain rfl := Option.some.inj hc
    decide +kernel

theorem isRegistryChar_iff : isRegistryChar c = true ↔ 'a' ≤ c ∧ c ≤ 'z' := by
  rw [isRegistryChar, Bool.and_eq_true, decide_eq_true_eq, decide_eq_true_eq]

/-- **How a text is taken apart**: into a registry as far as the colon, the longest name behind it,
and what gives the version. -/
theorem parseChars?_eq_some_iff :
    parseChars? cs = some (registry, name, version) ↔
      IsRegistry registry ∧ IsName name ∧
        ∃ tail, versionOf? tail = some version ∧ cs = registry ++ ':' :: (name ++ tail) := by
  constructor
  · intro h
    rw [parseChars?] at h
    split at h
    · rename_i first rest hrest
      split at h
      · exact absurd h (by simp)
      · rename_i hform
        rw [Bool.or_eq_true, not_or, Bool.not_eq_true, Bool.not_eq_true, List.isEmpty_eq_false_iff,
          Bool.not_eq_false', Bool.or_eq_true, beq_iff_eq] at hform
        obtain ⟨version', hversion, heq⟩ := Option.map_eq_some_iff.1 h
        obtain ⟨rfl, rfl, rfl⟩ : _ ∧ _ ∧ _ := by simpa using heq
        obtain ⟨hname, hspan⟩ := spanName_spec rest
        refine ⟨⟨hform.1, fun c hc => isRegistryChar_iff.1 (List.mem_takeWhile_imp hc)⟩,
          ⟨first, _, rfl, hform.2, hname⟩, _, hversion, ?_⟩
        rw [List.cons_append, hspan, ← hrest, List.takeWhile_append_dropWhile]
    · exact absurd h (by simp)
  · rintro ⟨⟨hne, hchars⟩, ⟨first, rest, rfl, hfirst, hrest⟩, tail, hversion, rfl⟩
    have hcolon : ∀ c ∈ (':' :: first :: (rest ++ tail)).head?, isRegistryChar c = false := by
      intro c hc
      obtain rfl := Option.some.inj hc
      decide
    obtain ⟨hbefore, hbehind⟩ := Url.span_of_stops
      (fun c hc => isRegistryChar_iff.2 (hchars c hc)) hcolon
    have hform : (registry.isEmpty || !(first == '@' || isNameChar first)) = false := by
      rw [Bool.or_eq_false_iff, List.isEmpty_eq_false_iff, Bool.not_eq_false', Bool.or_eq_true,
        beq_iff_eq]
      exact ⟨hne, hfirst⟩
    simp only [parseChars?, List.cons_append, hbefore, hbehind, hform, Bool.false_eq_true, if_false,
      spanName_append hrest (stops_of_versionOf? hversion), hversion, Option.map_some]

/-! ### Reading and writing -/

theorem parse?_eq_some_mk_iff {registry name version : String} :
    parse? text = some ⟨registry, name, version⟩ ↔ IsRegistry registry.toList ∧
      IsName name.toList ∧ ∃ tail, versionOf? tail = some version.toList ∧
        text = registry ++ ":" ++ name ++ String.ofList tail := by
  have htext : ∀ tail, text = registry ++ ":" ++ name ++ String.ofList tail ↔
      text.toList = registry.toList ++ ':' :: (name.toList ++ tail) := fun tail => by
    rw [← String.toList_inj]
    simp
  simp only [htext]
  rw [← parseChars?_eq_some_iff, parse?, Option.map_eq_some_iff]
  constructor
  · rintro ⟨⟨registry', name', version'⟩, hparts, heq⟩
    obtain ⟨rfl, rfl, rfl⟩ : _ ∧ _ ∧ _ := by simpa using heq
    simpa using hparts
  · exact fun hparts => ⟨_, hparts, by simp⟩

/-- **A text is read as a package exactly if it names it.** -/
theorem parse?_eq_some_iff : parse? text = some id ↔ Names text id := by
  constructor
  · obtain ⟨registry, name, version⟩ := id
    intro h
    obtain ⟨hregistry, hname, tail, hversion, rfl⟩ := parse?_eq_some_mk_iff.1 h
    rcases versionOf?_eq_some_iff.1 hversion with ⟨hnone, rfl | rfl⟩ | ⟨hform, rfl⟩
    · obtain rfl := String.toList_eq_nil_iff.1 hnone
      rw [String.ofList_nil, String.append_empty]
      exact .plain hregistry hname
    · obtain rfl := String.toList_eq_nil_iff.1 hnone
      exact .line hregistry hname
    · rw [String.ofList_cons, String.ofList_toList, ← String.append_assoc]
      exact .versioned hregistry hname hform
  · intro h
    cases h with
    | plain hregistry hname =>
        exact parse?_eq_some_mk_iff.2 ⟨hregistry, hname, [], rfl, by simp⟩
    | line hregistry hname =>
        exact parse?_eq_some_mk_iff.2 ⟨hregistry, hname, ['\n'], rfl, rfl⟩
    | @versioned registry name version hregistry hname hversion =>
        refine parse?_eq_some_mk_iff.2 ⟨hregistry, hname, '@' :: version.toList,
          versionOf?_eq_some_iff.2 (Or.inr ⟨hversion, rfl⟩), ?_⟩
        rw [String.ofList_cons, String.ofList_toList, ← String.append_assoc]
        rfl

theorem text_of_plain (registry name : String) :
    PackageId.text ⟨registry, name, ""⟩ = registry ++ ":" ++ name := by
  simp [PackageId.text, versionSuffix]

theorem text_of_versioned (registry name : String) {version : String}
    (h : IsVersion version.toList) :
    PackageId.text ⟨registry, name, version⟩ = registry ++ ":" ++ name ++ "@" ++ version := by
  have hne : version.isEmpty = false := by
    rw [Bool.eq_false_iff, Ne, String.isEmpty_iff]
    exact fun hempty => h.1 (by rw [hempty]; rfl)
  simp [PackageId.text, versionSuffix, hne, String.append_assoc]

/-- **What is written for a package that a text names** names it again. It is the text, but for a
line feed behind a name without version. -/
theorem Names.written (h : Names text id) :
    Names id.text id ∧ (text = id.text ∨ id.version = "" ∧ text = id.text ++ "\n") := by
  cases h with
  | plain hregistry hname =>
      rw [text_of_plain]
      exact ⟨.plain hregistry hname, Or.inl rfl⟩
  | line hregistry hname =>
      rw [text_of_plain]
      exact ⟨.plain hregistry hname, Or.inr ⟨rfl, rfl⟩⟩
  | versioned hregistry hname hversion =>
      rw [text_of_versioned _ _ hversion]
      exact ⟨.versioned hregistry hname hversion, Or.inl rfl⟩

/-- **Identifiers are read and written alike.** A text is read exactly if it is a registry, a colon
and a name, and either a line feed or an at sign with a version may follow; and the package that is
read is written as the text, without that line feed, and read from what is written. -/
theorem parse?_iff_names_and_text (text : String) :
    (∀ id, parse? text = some id ↔ Names text id) ∧
      ∀ id, parse? text = some id → parse? id.text = some id ∧
        (text = id.text ∨ id.version = "" ∧ text = id.text ++ "\n") := by
  refine ⟨fun id => parse?_eq_some_iff, fun id h => ?_⟩
  obtain ⟨hnames, htext⟩ := (parse?_eq_some_iff.1 h).written
  exact ⟨parse?_eq_some_iff.2 hnames, htext⟩

/-- A version takes a line feed, a slash and a colon with it; a line feed behind a name is
dropped. -/
theorem parse?_iff_names_and_text_lineFeed :
    (parse? "npm:@s/a@x:/1\n" = some ⟨"npm", "@s/a", "x:/1\n"⟩ ∧
      parse? (PackageId.text ⟨"npm", "@s/a", "x:/1\n"⟩) = some ⟨"npm", "@s/a", "x:/1\n"⟩) ∧
    (parse? "npm:a\n" = some ⟨"npm", "a", ""⟩ ∧
      parse? (PackageId.text ⟨"npm", "a", ""⟩) = some ⟨"npm", "a", ""⟩ ∧
      PackageId.text ⟨"npm", "a", ""⟩ = "npm:a") := by
  have hversioned : parse? "npm:@s/a@x:/1\n" = some ⟨"npm", "@s/a", "x:/1\n"⟩ := by decide +kernel
  have hplain : parse? "npm:a\n" = some ⟨"npm", "a", ""⟩ := by decide +kernel
  exact ⟨⟨hversioned, ((parse?_iff_names_and_text _).2 _ hversioned).1⟩,
    hplain, ((parse?_iff_names_and_text _).2 _ hplain).1, by decide +kernel⟩

end ImportAtlas.PackageId
