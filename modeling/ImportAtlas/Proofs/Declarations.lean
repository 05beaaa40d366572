import ImportAtlas.Proofs.ExportStatements
import ImportAtlas.Proofs.Initializers

/-!
# Exported declarations

The names that are recorded of a declaration, by its text.

## Summary

* `Declarator` is a declared name with its value, if it has one, and `Declaration` an exported
  declaration of some names.
* `recorded` are the names that are recorded: those as far as the first one, of those with another
  name behind them, in whose value the search for the comma gives up.

## Main results

* `declaredNames_declarators`: the look ahead records these names and meets no fault.
* `recorded_eq_iff`: they are all names exactly when the search gives up in no value but the last.
-/

namespace ImportAtlas.Source

variable {past : Past} {rest : List Char}

/-! ### Declarators -/

/-- The value of a declared name, behind the equals sign. -/
structure Value where
  /-- The items of the expression. -/
  items : List Item
  /-- What stands behind the expression. -/
  last : Gap
  /-- The items are read one by one. -/
  legible_eq : legible last 0 none items = true

/-- Whether the search for the comma behind a value gives up within it. -/
def Value.givesUp (v : Value) : Bool := Source.givesUp 0 v.items

/-- The characters of a value and of the equals sign. -/
def Value.text (v : Value) : List Char := '=' :: itemsText v.items v.last

/-- A declared name. -/
structure Declarator where
  /-- What stands in front of the name. -/
  gap : Gap
  /-- The name. -/
  name : Word
  /-- What stands behind the name. -/
  after : Gap
  /-- The value, if it has one. -/
  value? : Option Value

namespace Declarator

/-- The characters of a declared name and its value. -/
def text (d : Declarator) : List Char :=
  d.gap.text ++ (d.name.chars ++ (d.after.text ++ d.value?.elim [] Value.text))

/-- Whether the search for the comma behind the declared name gives up. -/
def givesUp (d : Declarator) : Bool := d.value?.any Value.givesUp

end Declarator

/-- The names that are recorded of declared names. -/
def recorded : List Declarator → List String
  | [] => []
  | d :: ds => d.name.name :: if d.givesUp then [] else recorded ds

/-- All names are recorded exactly when the search gives up behind none but the last. -/
theorem recorded_eq_iff (ds : List Declarator) :
    recorded ds = ds.map (fun d => d.name.name) ↔ ∀ d ∈ ds.dropLast, d.givesUp = false := by
  induction ds with
  | nil => simp [recorded]
  | cons d ds ih =>
      cases ds with
      | nil => simp [recorded]
      | cons e ds =>
          rw [List.dropLast_cons_cons, List.forall_mem_cons, ← ih, recorded]
          cases d.givesUp <;> simp [recorded]

/-- What is recorded are the first names. -/
theorem recorded_prefix (ds : List Declarator) :
    recorded ds <+: ds.map fun d => d.name.name := by
  induction ds with
  | nil => exact List.prefix_refl _
  | cons d ds ih =>
      rw [recorded, List.map_cons, List.prefix_cons_inj]
      cases d.givesUp
      · exact ih
      · exact List.nil_prefix

/-! ### The look ahead -/

/-- The first character behind a declared name and the gap behind it. -/
theorem Declarator.exists_tail_eq_cons (d : Declarator) {stop : Char} (hstop : stop ∈ [',', ';'])
    (rest : List Char) : ∃ c cs, d.value?.elim [] Value.text ++ stop :: rest = c :: cs ∧
      isIdentifierChar c = false ∧ Begins (c :: cs) := by
  have hstops : ∀ c ∈ [',', ';'],
      isIdentifierChar c = false ∧ isSpace c = false ∧ c ≠ '/' :=
    List.all_iff_forall_prop.1 (by decide)
  obtain ⟨h1, h2, h3⟩ := hstops stop hstop
  cases d.value? with
  | none => exact ⟨stop, rest, rfl, h1, begins_cons h2 h3⟩
  | some v => exact ⟨'=', _, rfl, by decide, begins_cons (by decide) (by decide)⟩

theorem begins_word (w : Word) : Begins (w.chars ++ rest) := by
  obtain ⟨c, cs, hcs⟩ := List.exists_cons_of_ne_nil w.chars_ne_nil
  have hc := w.isIdentifierChar_eq c (hcs ▸ List.mem_cons_self ..)
  rw [hcs]
  refine begins_cons (isSpace_of_isIdentifierChar hc) ?_
  rintro rfl
  exact absurd hc (by decide)

/-- Behind the equals sign an operand comes next. -/
theorem Behind.of_equals (past : Past) : Behind none ('=' :: past) where
  expectsOperand_eq := rfl
  boundary _ := by
    have : isPunctuator '=' = true := by decide
    simp [this]

/-- Where the search for the comma behind a name ends. -/
def commaFrom (e : Cursor) : Option Cursor :=
  if e.peek? = some '=' then initializerEnd? 0 (e.advance 1).past (e.advance 1) else some e

/-- The declared names from a name on, when the search for the comma behind it has ended. -/
def namesFrom (name : String) : Option Cursor → List String × Option SyntaxFault
  | none => ([name], none)
  | some comma =>
    if comma.peek? = some ',' then
      (name :: (declaredNames (comma.advance 1)).1, (declaredNames (comma.advance 1)).2)
    else ([name], none)

/-- Where a name stands, and no comment around it is left open, it is recorded. -/
theorem declaredNames_of_skipTrivia {c d e : Cursor} (hd : c.skipTrivia = .ok d)
    (hid : d.identifier ≠ []) (he : (d.advance d.identifier.length).skipTrivia = .ok e) :
    declaredNames c = namesFrom (String.ofList d.identifier) (commaFrom e) := by
  rw [declaredNames, commaFrom]
  split
  · rename_i f hf
    cases hd.symm.trans hf
  rename_i d' hd'
  obtain rfl := Except.ok.inj (hd.symm.trans hd')
  rw [dif_neg hid]
  dsimp only
  split
  · rename_i f hf
    cases he.symm.trans hf
  rename_i e' he'
  obtain rfl := Except.ok.inj (he.symm.trans he')
  split <;> rename_i h <;> rw [h, namesFrom]

/-- What has been read behind the name of a declarator and the gap behind it. -/
def Declarator.pastName (d : Declarator) (past : Past) : Past :=
  d.after.text.reverse ++ (d.name.chars.reverse ++ (d.gap.text.reverse ++ past))

/-- The look ahead records the name of a declarator and goes on behind it. -/
theorem declaredNames_eq_namesFrom (d : Declarator) {stop : Char} (hstop : stop ∈ [',', ';']) :
    declaredNames ⟨past, d.text ++ stop :: rest⟩ = namesFrom d.name.name
      (commaFrom ⟨d.pastName past, d.value?.elim [] Value.text ++ stop :: rest⟩) := by
  obtain ⟨c, cs, hcs, hend, hbegins⟩ := d.exists_tail_eq_cons hstop rest
  have htext : d.text ++ stop :: rest =
      d.gap.text ++ (d.name.chars ++ (d.after.text ++ c :: cs)) := by
    rw [← hcs]
    simp [Declarator.text]
  have hid : identifierAhead (d.name.chars ++ (d.after.text ++ c :: cs)) = d.name.chars :=
    takeWhile_append_of_endsWord d.name.isIdentifierChar_eq
      (Gap.endsWord_append fun _ => by simpa [EndsWord] using hend)
  have hskip : (⟨past, d.text ++ stop :: rest⟩ : Cursor).skipTrivia = .ok _ :=
    htext ▸ Cursor.skipTrivia_gap d.gap (begins_word d.name)
  have hskip' : (Cursor.advance
      ⟨d.gap.text.reverse ++ past, d.name.chars ++ (d.after.text ++ c :: cs)⟩
      d.name.chars.length).skipTrivia = .ok ⟨d.pastName past, c :: cs⟩ := by
    rw [Cursor.advance_append]
    exact Cursor.skipTrivia_gap d.after hbegins
  rw [hcs, declaredNames_of_skipTrivia hskip
    (by rw [Cursor.identifier, hid]; exact d.name.chars_ne_nil)
    (by rw [Cursor.identifier, hid]; exact hskip'), Cursor.identifier, hid]
  rfl

/-- Without a value, what stops a declarator is where the comma is looked for. -/
theorem commaFrom_stop {stop : Char} (hstop : stop ∈ [',', ';']) :
    commaFrom ⟨past, stop :: rest⟩ = some ⟨past, stop :: rest⟩ := by
  have hne : stop ≠ '=' := by
    rintro rfl
    exact absurd hstop (by decide)
  simp [commaFrom, Cursor.peek?, hne]

/-- Behind the equals sign the comma is searched for behind the value. -/
theorem commaFrom_value (v : Value) {stop : Char} (hstop : stop ∈ [',', ';']) :
    commaFrom ⟨past, v.text ++ stop :: rest⟩ = if v.givesUp = false ∧ stop = ',' then
      some ⟨v.text.reverse ++ past, stop :: rest⟩ else none := by
  have hend := @initializerEnd?_items 0 ('=' :: past) rest v.items v.last none v.legible_eq
    (.of_equals past) stop hstop
  have hpast : v.text.reverse ++ past = (itemsText v.items v.last).reverse ++ '=' :: past := by
    simp [Value.text]
  rw [hpast, Value.givesUp, ← hend]
  rfl

/-- The look ahead reads one declared name and goes on behind the comma. -/
theorem declaredNames_declarator (d : Declarator) {stop : Char} (hstop : stop ∈ [',', ';']) :
    declaredNames ⟨past, d.text ++ stop :: rest⟩ =
      if d.givesUp = false ∧ stop = ',' then
        (d.name.name :: (declaredNames ⟨stop :: (d.text.reverse ++ past), rest⟩).1,
          (declaredNames ⟨stop :: (d.text.reverse ++ past), rest⟩).2)
      else ([d.name.name], none) := by
  have hadvance (here : Past) : (⟨here, stop :: rest⟩ : Cursor).advance 1 = ⟨stop :: here, rest⟩ :=
    rfl
  rw [declaredNames_eq_namesFrom d hstop]
  cases hvalue : d.value? with
  | none =>
      have hpast : d.text.reverse ++ past = d.pastName past := by
        simp [Declarator.text, Declarator.pastName, hvalue]
      simp [commaFrom_stop hstop, namesFrom, Cursor.peek?, hadvance, hpast, Declarator.givesUp,
        hvalue]
  | some v =>
      have hpast : d.text.reverse ++ past = v.text.reverse ++ d.pastName past := by
        simp [Declarator.text, Declarator.pastName, hvalue]
      have hgives : d.givesUp = v.givesUp := by simp [Declarator.givesUp, hvalue]
      rw [Option.elim_some, commaFrom_value v hstop, hpast, hgives]
      by_cases hfound : v.givesUp = false ∧ stop = ','
      · rw [if_pos hfound, if_pos hfound, namesFrom, hadvance, if_pos]
        rw [hfound.2]
        rfl
      · rw [if_neg hfound, if_neg hfound, namesFrom]

/-- The characters of declared names with a comma in front of each. -/
def moreText (ds : List Declarator) : List Char := ds.flatMap fun d => ',' :: d.text

/-- The look ahead records names without fault. -/
theorem declaredNames_declarators (d : Declarator) (ds : List Declarator) :
    declaredNames ⟨past, d.text ++ (moreText ds ++ ';' :: rest)⟩ = (recorded (d :: ds), none) := by
  induction ds generalizing d past with
  | nil =>
      have hnames := @declaredNames_declarator past rest d ';' (by simp)
      rw [if_neg (by simp)] at hnames
      simpa [moreText, recorded] using hnames
  | cons e ds ih =>
      have htext : moreText (e :: ds) ++ ';' :: rest =
          ',' :: (e.text ++ (moreText ds ++ ';' :: rest)) := by simp [moreText]
      rw [htext, declaredNames_declarator d (by simp), ih]
      cases hgives : d.givesUp <;> simp [recorded, hgives]

/-! ### Declarations -/

/-- An exported declaration. -/
structure Declaration where
  /-- What stands between the word `export` and the keyword. -/
  gap : Gap
  /-- How the names are declared. -/
  kind : VariableKind
  /-- The first name. -/
  first : Declarator
  /-- The other names. -/
  more : List Declarator
  /-- The words do not run together. -/
  gap_ne_nil : gap ≠ []
  /-- The words do not run together. -/
  first_gap_ne_nil : first.gap ≠ []

namespace Declaration

/-- The characters of a declaration as far as its keyword. -/
def head (d : Declaration) : List Char := exportWord.chars ++ (d.gap.text ++ d.kind.word.chars)

/-- The characters of the names and their values. -/
def tail (d : Declaration) : List Char := d.first.text ++ (moreText d.more ++ [';'])

/-- The characters of a declaration. -/
def text (d : Declaration) : List Char := d.head ++ d.tail

/-- The declared names. -/
def names (d : Declaration) : List String := (d.first :: d.more).map fun e => e.name.name

/-- The names that are recorded. -/
def recorded (d : Declaration) : List String := Source.recorded (d.first :: d.more)

/-- The search for a comma gives up in no value but the last. -/
def Searched (d : Declaration) : Prop := ∀ e ∈ (d.first :: d.more).dropLast, e.givesUp = false

/-- The declared names are recorded exactly when the search gives up in no value but the last. -/
theorem recorded_eq_names_iff (d : Declaration) : d.recorded = d.names ↔ d.Searched :=
  recorded_eq_iff _

/-- The look ahead records names without fault. -/
theorem declaredNames_tail (d : Declaration) :
    declaredNames ⟨past, d.tail ++ rest⟩ = (d.recorded, none) := by
  have h := @declaredNames_declarators past rest d.first d.more
  simpa [tail, recorded] using h

end Declaration

end ImportAtlas.Source
