import ImportAtlas.Proofs.Declarations
import ImportAtlas.Proofs.Lookahead

/-!
# Exports of declarations

What the analysis of a module exports on account of one declaration, compared with the scan that
takes no names from declarations.

## Summary

* `Declaration.place` is the place behind the keyword of a declaration.
* `unread` takes no names, and `exceptAt` those of the look ahead except at one place.

## Main results

* `Declaration.exports_in_module`: in a module that the scan accepts when it takes no names from
  declarations, a declaration adds the names that the search for commas finds, and no fault.
* `Declaration.misses_and_invents_names`: not all declared names are found.
-/

namespace ImportAtlas.Source

open Scan

namespace Declaration

/-- The place behind the keyword of a declaration. -/
def place (d : Declaration) (past : Past) (rest : List Char) : Cursor :=
  ⟨d.head.reverse ++ past, d.tail ++ rest⟩

variable {past : Past} {rest : List Char}

theorem identifier_kind (d : Declaration) (past : Past) (rest : List Char) :
    (⟨past, d.kind.word.chars ++ (d.tail ++ rest)⟩ : Cursor).identifier = d.kind.word.chars := by
  have hend : EndsWord (d.tail ++ rest) := by
    simp only [tail, Declarator.text, List.append_assoc]
    exact Gap.endsWord_append fun h => absurd h d.first_gap_ne_nil
  exact takeWhile_append_of_endsWord d.kind.word.isIdentifierChar_eq hend

theorem behindKind?_eq (d : Declaration) (past : Past) (rest : List Char) :
    behindKind? ⟨past, d.kind.word.chars ++ (d.tail ++ rest)⟩ =
      some ⟨d.kind.word.chars.reverse ++ past, d.tail ++ rest⟩ := by
  have hkind : (decide (d.kind.word.chars = "var".toList) ||
      decide (d.kind.word.chars = "let".toList) ||
      decide (d.kind.word.chars = "const".toList)) = true := by
    cases d.kind <;> decide
  simp only [behindKind?, identifier_kind, hkind, if_true, Cursor.advance_append]

/-- Where an exported declaration is written and its keyword counts, it is found. -/
theorem declarationPlace?_eq (d : Declaration) (hbounded : Bounded past) :
    declarationPlace? ⟨past, d.text ++ rest⟩ = some (d.place past rest) := by
  have hend : EndsWord (d.gap.text ++ (d.kind.word.chars ++ (d.tail ++ rest))) :=
    Gap.endsWord_append fun h => absurd h d.gap_ne_nil
  have htext : d.text ++ rest =
      exportWord.chars ++ (d.gap.text ++ (d.kind.word.chars ++ (d.tail ++ rest))) := by
    simp [text, head]
  have hkey : (⟨past, d.text ++ rest⟩ : Cursor).atKeyword "export".toList = true :=
    htext ▸ atKeyword_word hbounded exportWord hend
  have hskip : ((⟨past, d.text ++ rest⟩ : Cursor).advance 6).skipTrivia =
      .ok ⟨d.gap.text.reverse ++ (exportWord.chars.reverse ++ past),
        d.kind.word.chars ++ (d.tail ++ rest)⟩ := by
    have hadvance := Cursor.advance_append past exportWord.chars
      (d.gap.text ++ (d.kind.word.chars ++ (d.tail ++ rest)))
    rw [htext]
    exact (congrArg Cursor.skipTrivia hadvance).trans
      (Cursor.skipTrivia_gap d.gap (begins_word d.kind.word))
  have hdefault : d.kind.word.chars ≠ "default".toList := by cases d.kind <;> decide
  have hasync : d.kind.word.chars ≠ "async".toList := by cases d.kind <;> decide
  rw [declarationPlace?, if_pos hkey, hskip]
  simp only [identifier_kind, if_neg hdefault, if_neg hasync, behindKind?_eq]
  simp [place, head]

/-- Outside of brackets it is found by the scan. -/
theorem declaration?_eq (d : Declaration) {s : Scan} (htop : s.openers = [])
    (hbounded : Bounded s.cursor.past) (htext : s.cursor.rest = d.text ++ rest) :
    s.declaration? = some (d.place s.cursor.past rest) := by
  rw [declaration?, if_pos htop, ← d.declarationPlace?_eq hbounded, ← htext]

end Declaration

/-! ### Modules -/

/-- No names are taken from declarations. -/
def unread : Cursor → List String × Option SyntaxFault := fun _ => ([], none)

/-- The names of the look ahead, except at one place. -/
def exceptAt (place : Cursor) : Cursor → List String × Option SyntaxFault :=
  Function.update declaredNames place ([], none)

@[simp] theorem exceptAt_self (place : Cursor) : exceptAt place place = ([], none) :=
  Function.update_self ..

theorem exceptAt_of_ne {place c : Cursor} (h : c ≠ place) : exceptAt place c = declaredNames c :=
  Function.update_of_ne h _ _

variable {source : List Char} {s t : Scan} {place : Cursor} {imports : List ImportRecord}
  {exports : List String}

/-- In front of a declaration the scan goes on behind its keyword. -/
theorem exists_stepWith_unread (h : s.declaration? = some place) :
    ∃ t, s.stepWith unread = .ok t ∧ t.cursor = place := by
  refine ⟨_, by simp only [stepWith, h]; rfl, rfl⟩

/-- A declaration lies behind the place that the scan goes on from. -/
theorem ne_of_reaches {u : Scan} {c : Cursor} (ht : t.cursor = place) (hu : Reaches unread t u)
    (hc : u.declaration? = some c) : c ≠ place := by
  rintro rfl
  have h1 := size_declaration?_lt hc
  have h2 := hu.size_le
  rw [ht] at h2
  omega

/-- In a module that the scan accepts when it takes no names from declarations, one declaration adds
the names that the look ahead finds there, and nothing else. -/
theorem exists_exports (hplace : s.declaration? = some place)
    (hfaultless : (declaredNames place).2 = none)
    (haccepted : Ends unread (start source) ⟨imports, exports, none⟩)
    (hreaches : Reaches unread (start source) s)
    (hothers : ∀ t c, Reaches unread (start source) t → t.declaration? = some c → c ≠ place →
      (declaredNames c).2 = none) :
    ∃ before after,
      Ends (exceptAt place) (start source) ⟨imports, before ++ after, none⟩ ∧
      analyze source = ⟨imports, before ++ ((declaredNames place).1 ++ after), none⟩ := by
  obtain ⟨t, hstep, ht⟩ := exists_stepWith_unread hplace
  have hreaches' : Reaches unread (start source) t := hreaches.tail hstep
  have hfault (u : Scan) (c : Cursor) (hu : Reaches unread (start source) u)
      (hc : u.declaration? = some c) : (exceptAt place c).2 = none := by
    by_cases hne : c = place
    · rw [hne, exceptAt_self]
    · rw [exceptAt_of_ne hne]
      exact hothers u c hu hc hne
  -- behind the declaration both runs add the same
  obtain ⟨after, hafter⟩ := (haccepted.of_reaches hreaches').exists_finishes rfl
    fun u c hu => hfault u c (hreaches'.trans hu)
  have hexcept := hafter _ fun _ _ _ _ => rfl
  have hdeclared := hafter declaredNames fun u c hu hc =>
    (exceptAt_of_ne (ne_of_reaches ht hu hc)).symm
  -- and in front of it as well
  have hbefore (u : Scan) (hus : Reaches unread u s) (hu : Reaches unread (start source) u) :
      ∃ before, Finishes (exceptAt place) u imports (before ++ after) ∧
        Finishes declaredNames u imports (before ++ ((declaredNames place).1 ++ after)) := by
    induction hus using Relation.ReflTransGen.head_induction_on with
    | refl =>
        refine ⟨[], ?_, hdeclared.of_declaration hstep hplace hfaultless⟩
        simpa using hexcept.of_declaration hstep hplace (by rw [exceptAt_self])
    | @head u v huv hvs ih =>
        obtain ⟨before, h1, h2⟩ := ih (hu.tail huv)
        obtain ⟨new, hnew⟩ := exists_added_of_stepWith huv fun c hc => hfault u c hu hc
        have hne (c : Cursor) (hc : u.declaration? = some c) : c ≠ place := by
          obtain ⟨w, hw, hcursor⟩ := exists_stepWith_unread hc
          obtain rfl := Except.ok.inj (huv.symm.trans hw)
          exact fun h => ne_of_reaches (hcursor.trans h) hvs hplace rfl
        refine ⟨new ++ before, ?_, ?_⟩
        · simpa using hnew _ (fun _ _ => rfl) h1
        · simpa using hnew _ (fun c hc => (exceptAt_of_ne (hne c hc)).symm) h2
  obtain ⟨before, h1, h2⟩ := hbefore _ hreaches .refl
  exact ⟨before, after, h1.ends, h2.ends.run_eq⟩

/-! ### Examples -/

/-- A gap of one space. -/
def oneSpace : Gap := [.space ' ' rfl]

/-- A declared name with a value. -/
def valued (name : Word) (items : List Item) (h : legible [] 0 none items = true) : Declarator :=
  ⟨oneSpace, name, oneSpace, some ⟨items, [], h⟩⟩

/-- The name `a`. -/
def wordA : Word := ⟨['a'], by decide, List.all_eq_true.1 rfl⟩

/-- The name `b`. -/
def wordB : Word := ⟨['b'], by decide, List.all_eq_true.1 rfl⟩

/-- The number 1. -/
def wordOne : Word := ⟨['1'], by decide, List.all_eq_true.1 rfl⟩

/-- The regular expression `/[,/]/`. -/
def commaRegex : Element :=
  .regex "[,/]".toList
    (.openClass (.char (by decide) rfl (by decide)
      (.char (by decide) rfl (by decide) (.closeClass .nil)))) (by decide) (by decide)

/-- `export let a = /[,/]/, b = [1, 1];` -/
def regexDeclaration : Declaration where
  gap := oneSpace
  kind := .block
  first := valued wordA [⟨oneSpace, commaRegex⟩] rfl
  more := [valued wordB
    [⟨oneSpace, .opener '[' (by decide)⟩, ⟨[], .word wordOne⟩, ⟨[], .separator ',' (by decide)⟩,
      ⟨oneSpace, .word wordOne⟩, ⟨[], .closer ']' (by decide)⟩] rfl]
  gap_ne_nil := by decide
  first_gap_ne_nil := by decide

/-- `b = 1` -/
def plainB : Declarator := valued wordB [⟨oneSpace, .word wordOne⟩] rfl

/-- `export const a = 1 +`, and on the next line `1, b = 1;` -/
def brokenDeclaration : Declaration where
  gap := oneSpace
  kind := .constant
  first := valued wordA
    [⟨oneSpace, .word wordOne⟩, ⟨oneSpace, .operator '+' (by decide)⟩,
      ⟨.space '\n' rfl :: oneSpace, .word wordOne⟩] rfl
  more := [plainB]
  gap_ne_nil := by decide
  first_gap_ne_nil := by decide

/-- A declaration of `a` by a template with a substitution, and of `b`. -/
def templateDeclaration : Declaration where
  gap := oneSpace
  kind := .constant
  first := valued wordA [⟨oneSpace, .substituted ['x']
    (.char (by decide) (by decide) (by decide) .nil) "1\x7d\x60".toList⟩] rfl
  more := [plainB]
  gap_ne_nil := by decide
  first_gap_ne_nil := by decide

/-! ### The exports of a module -/

/-- Let the scan accept a module when it takes no names from declarations, and let it come to an
exported declaration outside of brackets. If no other declaration's look ahead meets a fault, then
the analysis meets none, and on account of this declaration it exports the first of the declared
names: all of them exactly when the search for the comma gives up in no value but the last. -/
theorem Declaration.exports_in_module (d : Declaration) {rest : List Char}
    (haccepted : Ends unread (start source) ⟨imports, exports, none⟩)
    (hreaches : Reaches unread (start source) s) (htop : s.openers = [])
    (hbounded : Bounded s.cursor.past) (htext : s.cursor.rest = d.text ++ rest)
    (hothers : ∀ t c, Reaches unread (start source) t → t.declaration? = some c →
      c ≠ d.place s.cursor.past rest → (declaredNames c).2 = none) :
    ∃ before after,
      Ends (exceptAt (d.place s.cursor.past rest)) (start source)
        ⟨imports, before ++ after, none⟩ ∧
      analyze source = ⟨imports, before ++ (d.recorded ++ after), none⟩ ∧
      d.recorded <+: d.names ∧ (d.recorded = d.names ↔ d.Searched) := by
  have hplace := d.declaration?_eq htop hbounded htext
  have hnames : declaredNames (d.place s.cursor.past rest) = (d.recorded, none) :=
    d.declaredNames_tail
  obtain ⟨before, after, hexcept, hanalyze⟩ :=
    exists_exports hplace (by rw [hnames]) haccepted hreaches hothers
  rw [hnames] at hanalyze
  exact ⟨before, after, hexcept, hanalyze, recorded_prefix _, d.recorded_eq_names_iff⟩

/-- `export let a = /[,/]/, b = [1, 1];` exports both names. -/
theorem Declaration.exports_in_module_regex :
    regexDeclaration.text = "export let a = /[,/]/, b = [1, 1];".toList ∧
      analyze regexDeclaration.text = ⟨[], ["a", "b"], none⟩ := by
  have haccepted : Ends unread (start regexDeclaration.text) ⟨[], [], none⟩ :=
    @Ends.of_outcome _ _ _ 35 rfl
  have honly : ∀ t ∈ trail unread 35 (start regexDeclaration.text), ∀ c ∈ t.declaration?,
      c = regexDeclaration.place [] [] := by decide
  obtain ⟨before, after, hexcept, hanalyze, -, -⟩ := regexDeclaration.exports_in_module haccepted
    .refl rfl (by simp [start, Bounded]) (List.append_nil _).symm
    fun t c ht hc hne => absurd (honly t (ht.mem_trail (by decide)) c hc) hne
  have hnil := congrArg Analysis.exports (hexcept.unique (@Ends.of_outcome _ _ _ 35 rfl))
  obtain ⟨rfl, rfl⟩ := List.append_eq_nil_iff.1 hnil
  exact ⟨by decide, hanalyze⟩

/-- The only declaration of a source adds what the look ahead finds. -/
theorem analyze_of_only {n : Nat} (hn : source.length ≤ n)
    (hplace : (start source).declaration? = some place)
    (hfaultless : (declaredNames place).2 = none)
    (hends : outcome unread n (start source) = .error ⟨[], [], none⟩)
    (hends' : outcome (exceptAt place) n (start source) = .error ⟨[], [], none⟩)
    (honly : ∀ t ∈ trail unread n (start source), ∀ c ∈ t.declaration?, c = place) :
    analyze source = ⟨[], (declaredNames place).1, none⟩ := by
  obtain ⟨before, after, hexcept, hanalyze⟩ :=
    exists_exports hplace hfaultless (.of_outcome hends) .refl
      fun t c ht hc hne => absurd (honly t (ht.mem_trail hn) c hc) hne
  have hnil := congrArg Analysis.exports (hexcept.unique (.of_outcome hends'))
  obtain ⟨rfl, rfl⟩ := List.append_eq_nil_iff.1 hnil
  simpa using hanalyze

/-- What begins a list of a function with a regular expression behind a condition, read as the
search reads it: the slashes divide, and the bracket between them closes the list. -/
def misreadDeclarator : Declarator :=
  valued wordA
    [⟨oneSpace, .opener '[' (by decide)⟩,
      ⟨[], .word functionWord⟩,
      ⟨oneSpace, .opener '(' (by decide)⟩, ⟨[], .closer ')' (by decide)⟩,
      ⟨oneSpace, .opener '\x7b' (by decide)⟩,
      ⟨oneSpace, .word ⟨"if".toList, by decide, List.all_eq_true.1 rfl⟩⟩,
      ⟨oneSpace, .opener '(' (by decide)⟩, ⟨[], .word wordA⟩, ⟨[], .closer ')' (by decide)⟩,
      ⟨oneSpace, .divide⟩, ⟨[], .closer ']' (by decide)⟩, ⟨[], .divide⟩,
      ⟨[], .operator '.' (by decide)⟩, ⟨[], .word wordB⟩, ⟨[], .separator ';' (by decide)⟩,
      ⟨oneSpace, .closer '\x7d' (by decide)⟩] rfl

/-- A declaration of `a` by a list of a function and of `b`. -/
def listSource : List Char :=
  "export let a = [function () \x7b if (a) /]/.b; \x7d, b];".toList

/-- The look ahead takes the second element of the list for a declared name. -/
theorem declaredNames_listSource :
    declaredNames ⟨"export let".toList.reverse, listSource.drop 10⟩ = (["a", "b"], none) := by
  have htext : listSource.drop 10 = misreadDeclarator.text ++ ',' :: " b];".toList := by decide
  rw [htext, declaredNames_declarator misreadDeclarator (by decide), if_pos (by decide),
    @declaredNames_of_skipTrivia _ ⟨_, "b];".toList⟩ ⟨_, "];".toList⟩ rfl (by decide) rfl]
  rfl

/-- The search for the comma gives up at a line end behind an operator and at a template with a
substitution, so that the names behind the comma are not exported; and it divides where a regular
expression stands behind a condition, so that an element of a list is exported. -/
theorem Declaration.misses_and_invents_names :
    brokenDeclaration.text = "export const a = 1 +\n 1, b = 1;".toList ∧
    templateDeclaration.text = "export const a = \x60x$\x7b1\x7d\x60, b = 1;".toList ∧
    (∀ d ∈ [brokenDeclaration, templateDeclaration], d.names = ["a", "b"] ∧
      Ends unread (start d.text) ⟨[], [], none⟩ ∧ analyze d.text = ⟨[], ["a"], none⟩) ∧
    Ends unread (start listSource) ⟨[], [], none⟩ ∧
    analyze listSource = ⟨[], ["a", "b"], none⟩ := by
  have hanalyze (d : Declaration) (hn : d.text.length ≤ 32)
      (hends : outcome unread 32 (start d.text) = .error ⟨[], [], none⟩)
      (hends' : outcome (exceptAt (d.place [] [])) 32 (start d.text) = .error ⟨[], [], none⟩)
      (honly : ∀ t ∈ trail unread 32 (start d.text), ∀ c ∈ t.declaration?, c = d.place [] []) :
      analyze d.text = ⟨[], d.recorded, none⟩ := by
    have hnames : declaredNames (d.place [] []) = (d.recorded, none) := d.declaredNames_tail
    have hplace : (start d.text).declaration? = some (d.place [] []) :=
      d.declaration?_eq rfl (by simp [start, Bounded]) (List.append_nil _).symm
    simpa [hnames] using analyze_of_only hn hplace (by rw [hnames]) hends hends' honly
  have hbroken := hanalyze brokenDeclaration (by decide) rfl rfl (by decide)
  have htemplate := hanalyze templateDeclaration (by decide) rfl rfl (by decide)
  have hlist := @analyze_of_only listSource ⟨"export let".toList.reverse, listSource.drop 10⟩ 60
    (by decide) (by decide) (by rw [declaredNames_listSource]) rfl rfl (by decide)
  rw [declaredNames_listSource] at hlist
  refine ⟨by decide, by decide, List.forall_mem_cons.2 ⟨⟨by decide, ?_, hbroken⟩,
    List.forall_mem_singleton.2 ⟨by decide, ?_, htemplate⟩⟩, ?_, hlist⟩
  · exact @Ends.of_outcome _ _ _ 32 rfl
  · exact @Ends.of_outcome _ _ _ 32 rfl
  · exact @Ends.of_outcome _ _ _ 60 rfl

end ImportAtlas.Source
