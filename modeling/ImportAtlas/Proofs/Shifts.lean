import ImportAtlas.Proofs.Records
import ImportAtlas.Proofs.Lookahead

/-!
# Statements behind other text

What stands in front of a source moves the places of everything that is read in it. What is read
is the same as long as the text in front ends where a word may begin: the functions that look
behind see that no word goes on from it.

## Summary

* `Cursor.later` is a place with some text in front of the source, `Statement.later` a statement.
* `lateOutcome` moves an outcome and its fault.

## Main results

* `Cursor.later_atKeyword`, `wordBehind_append`: looking behind stops at the text in front.
* `importStatement_later`: imports are read alike.
-/

namespace ImportAtlas.Source

/-! ### Later places -/

/-- How a module is named, further on in the text. -/
def ImportKind.later (k : Nat) : ImportKind → ImportKind
  | .dynamic argument literal => .dynamic (argument + k) literal
  | kind => kind

/-- A record, further on in the text. -/
def ImportRecord.later (k : Nat) (r : ImportRecord) : ImportRecord :=
  ⟨r.start + k, r.stop + k, r.kind.later k⟩

/-- The same place with some text in front of the source, latest character first. -/
def Cursor.later (w : Past) (c : Cursor) : Cursor := ⟨c.past ++ w, c.rest⟩

/-- An outcome, or its fault, with some text in front of the source. -/
def lateOutcome {α : Type} (w : Past) (g : α → α) : Except SyntaxFault α → Except SyntaxFault α
  | .ok a => .ok (g a)
  | .error f => .error (f.later w.length)

/-- A statement with some text in front of the source. -/
def Statement.later (w : Past) (statement : Statement) : Statement :=
  ⟨statement.imports.map (.later w.length), statement.exports, statement.opener?.map (· ++ w),
    lateOutcome w (.later w) statement.next⟩

variable {w : Past} {c d : Cursor}

@[simp] theorem lateOutcome_ok {α : Type} (g : α → α) (a : α) :
    lateOutcome w g (.ok a) = .ok (g a) := rfl

@[simp] theorem lateOutcome_error {α : Type} (g : α → α) (f : SyntaxFault) :
    lateOutcome w g (.error f) = .error (f.later w.length) := rfl

namespace Cursor

@[simp] theorem later_rest : (c.later w).rest = c.rest := rfl

@[simp] theorem later_past : (c.later w).past = c.past ++ w := rfl

@[simp] theorem later_peek? : (c.later w).peek? = c.peek? := rfl

@[simp] theorem later_atQuote : (c.later w).atQuote = c.atQuote := rfl

@[simp] theorem later_identifier : (c.later w).identifier = c.identifier := rfl

@[simp] theorem later_offset : (c.later w).offset = c.offset + w.length := by
  simp [offset]

@[simp] theorem later_advance (n : Nat) : (c.later w).advance n = (c.advance n).later w := by
  simp [advance, later]

@[simp] theorem later_fault (cause : SyntaxCause) :
    (c.later w).fault cause = (c.fault cause).later w.length := by
  simp [fault, SyntaxFault.later]

theorem later_faultFrom (f : SyntaxFault) :
    (c.later w).faultFrom f = (c.faultFrom f).later w.length := by
  simp [faultFrom, SyntaxFault.later, Nat.add_right_comm]

@[simp] theorem later_skipTrivia :
    (c.later w).skipTrivia = lateOutcome w (.later w) c.skipTrivia := by
  unfold skipTrivia
  rw [later_rest]
  cases triviaLength c.rest <;> simp [later_faultFrom]

@[simp] theorem later_skipString :
    (c.later w).skipString = lateOutcome w (.later w) c.skipString := by
  unfold skipString
  rw [later_rest]
  cases c.rest with
  | nil => simp
  | cons quote body =>
      dsimp only
      cases stringLength? quote body <;> simp

@[simp] theorem later_skipPlainTemplate? :
    (c.later w).skipPlainTemplate? = c.skipPlainTemplate?.map (.later w) := by
  simp [skipPlainTemplate?, Function.comp_def]

@[simp] theorem later_skipRegex :
    (c.later w).skipRegex = lateOutcome w (.later w) c.skipRegex := by
  unfold skipRegex
  rw [later_rest]
  cases regexLength (c.rest.drop 1) <;> simp [later_faultFrom]

/-- The text in front ends where a keyword may begin. -/
theorem later_atKeyword (hw : Bounded w) (keyword : List Char) :
    (c.later w).atKeyword keyword = c.atKeyword keyword := by
  unfold atKeyword
  simp only [later_rest, later_past, later_advance, later_identifier]
  cases hpast : c.past with
  | cons b past => simp
  | nil =>
      cases w with
      | nil => rfl
      | cons b w =>
          obtain ⟨hb, hdot⟩ := hw b rfl
          rw [← Bool.or_eq_true] at hb
          simp [hb, hdot]

end Cursor

/-! ### Looking behind -/

/-- A word behind a place does not reach into the text in front. -/
theorem wordBehind_append (hw : Bounded w) (past : Past) :
    wordBehind (past ++ w) = wordBehind past := by
  have hhead : ∀ b ∈ w.head?, (isSpace b || isPunctuator b) = true := fun b hb =>
    Bool.or_eq_true _ _ ▸ (hw b hb).1
  have htake : w.takeWhile isKeywordChar = [] := by
    cases w with
    | nil => rfl
    | cons b w => simp [isKeywordChar_eq_false (hhead b rfl)]
  have hdrop : w.dropWhile isKeywordChar = w := by
    cases w with
    | nil => rfl
    | cons b w => simp [isKeywordChar_eq_false (hhead b rfl)]
  unfold wordBehind
  rw [List.dropWhile_append, List.takeWhile_append, htake, hdrop, List.append_nil]
  cases hpast : past.dropWhile isKeywordChar with
  | nil =>
      -- the word reaches as far as the text in front
      have hall : past.takeWhile isKeywordChar = past := by
        simpa [hpast] using List.takeWhile_append_dropWhile (p := isKeywordChar) (l := past)
      rw [hall]
      cases hw' : w.head? with
      | none => simp [hw']
      | some b => simp [hw', hhead b hw']
  | cons b more =>
      have hne : (past.takeWhile isKeywordChar).length ≠ past.length := fun hlength => by
        have := congrArg List.length
          (List.takeWhile_append_dropWhile (p := isKeywordChar) (l := past))
        simp [hpast, hlength] at this
      simp [if_neg hne]

theorem expectsOperand_append (hw : Bounded w) {past : Past} (hpast : past ≠ []) :
    expectsOperand (past ++ w) = expectsOperand past := by
  obtain ⟨b, past, rfl⟩ := List.exists_cons_of_ne_nil hpast
  unfold expectsOperand
  rw [wordBehind_append hw]
  rfl

/-! ### Imports -/

/-- A record and the place behind it, with some text in front of the source. -/
def laterFound (w : Past) (found : ImportRecord × Cursor) : ImportRecord × Cursor :=
  (found.1.later w.length, found.2.later w)

theorem staticImport_later :
    staticImport (c.later w) = lateOutcome w (laterFound w) (staticImport c) := by
  unfold staticImport
  rw [Cursor.later_skipString]
  cases hd : c.skipString with
  | error f => rfl
  | ok d =>
      obtain ⟨quote, content, -, hbetween⟩ := Cursor.exists_of_skipString hd
      have hoffset := hbetween.offset_eq
      simp only [lateOutcome, Except.map, laterFound, ImportRecord.later, ImportKind.later,
        Cursor.later_offset]
      rw [Nat.sub_add_comm (by simp at hoffset; omega), Nat.add_right_comm]

theorem sourceString_later :
    sourceString (c.later w) = lateOutcome w (laterFound w) (sourceString c) := by
  fun_induction sourceString c with
  | case1 c hc => rw [sourceString, Cursor.later_rest, if_pos hc, Cursor.later_fault]; rfl
  | case2 c hc hquote =>
      rw [sourceString, Cursor.later_rest, if_neg hc, Cursor.later_atQuote, if_pos hquote,
        staticImport_later]
  | case3 c hc hquote hcomment d hd ih =>
      rw [sourceString_of_skipTrivia, Cursor.later_skipTrivia, hd]
      exact ih
  | case4 c hc hquote hcomment f hf =>
      rw [sourceString_of_skipTrivia, Cursor.later_skipTrivia, hf]
      rfl
  | case5 c hc hquote hcomment ih =>
      rw [sourceString, Cursor.later_rest, if_neg hc, Cursor.later_atQuote, if_neg hquote,
        if_neg hcomment, Cursor.later_advance, ih]

/-- The search for the end of a clause, one sign or word on. -/
theorem importClause_eq (c : Cursor) : importClause c =
    if c.rest = [] then .error (c.fault .expectedSpecifier)
    else match c.skipTrivia with
      | .error f => .error f
      | .ok d =>
        if d.rest = [] then .error ⟨d.offset + 1, .expectedSpecifier⟩
        else if d.atQuote then
          match d.skipString with
          | .error f => .error f
          | .ok e => importClause e
        else if d.identifier = [] then importClause (d.advance 1)
        else if d.identifier = "from".toList then
          match (d.advance d.identifier.length).skipTrivia with
          | .error f => .error f
          | .ok specifier =>
            if specifier.atQuote then .ok specifier
            else importClause (d.advance d.identifier.length)
        else importClause (d.advance d.identifier.length) := by
  rw [importClause]
  split
  · rfl
  split
  · rename_i f hf
    rw [hf]
  rename_i d hd
  rw [hd]
  dsimp only
  split
  · rfl
  split
  · split
    · rename_i f hf
      rw [hf]
    · rename_i e he
      rw [he]
  · rfl

theorem importClause_later :
    importClause (c.later w) = lateOutcome w (.later w) (importClause c) := by
  induction hn : c.size using Nat.strong_induction_on generalizing c with
  | _ n ih =>
      have hrec {d : Cursor} (h : d.size < c.size) :
          importClause (d.later w) = lateOutcome w (.later w) (importClause d) :=
        ih _ (hn ▸ h) rfl
      rw [importClause_eq (c.later w), importClause_eq c, Cursor.later_skipTrivia]
      refine Scan.ite_eq_apply _ (by simp) ?_
      cases hd : c.skipTrivia with
      | error f => rfl
      | ok d =>
          have hle := Cursor.size_skipTrivia_le hd
          simp only [lateOutcome_ok, Cursor.later_rest, Cursor.later_atQuote,
            Cursor.later_skipString, Cursor.later_advance, Cursor.later_identifier,
            Cursor.later_skipTrivia]
          by_cases hrest : d.rest = []
          · simp [if_pos hrest, SyntaxFault.later, Nat.add_right_comm]
          simp only [if_neg hrest]
          by_cases hquote : d.atQuote = true
          · simp only [if_pos hquote]
            cases hs : d.skipString with
            | error f => rfl
            | ok e => exact hrec (Nat.lt_of_lt_of_le (Cursor.size_skipString_lt hs) hle)
          simp only [if_neg hquote]
          by_cases hword : d.identifier = []
          · simp only [if_pos hword]
            exact hrec (Nat.lt_of_lt_of_le (Cursor.size_advance_lt Nat.one_pos hrest) hle)
          simp only [if_neg hword]
          have hnext := hrec (Nat.lt_of_lt_of_le (Cursor.size_advance_identifier_lt hword) hle)
          refine Scan.ite_eq_apply _ ?_ hnext
          cases (d.advance d.identifier.length).skipTrivia with
          | error f => rfl
          | ok specifier => exact Scan.ite_eq_apply _ rfl hnext

/-- The places before and after a literal, with some text in front of the source. -/
def laterPair (w : Past) (places : Cursor × Cursor) : Cursor × Cursor :=
  (places.1.later w, places.2.later w)

theorem plainArgument?_later :
    plainArgument? (c.later w) = (plainArgument? c).map (laterPair w) := by
  unfold plainArgument?
  rw [Cursor.later_skipTrivia]
  cases c.skipTrivia with
  | error f => rfl
  | ok first =>
      have hafter : (if (first.later w).atQuote then (first.later w).skipString.toOption
          else if (first.later w).peek? = some '\x60' then (first.later w).skipPlainTemplate?
          else none) = Option.map (Cursor.later w) (if first.atQuote then first.skipString.toOption
            else if first.peek? = some '\x60' then first.skipPlainTemplate? else none) := by
        refine Scan.ite_eq_apply _ ?_ (Scan.ite_eq_apply _ ?_ rfl)
        · rw [Cursor.later_skipString]
          cases first.skipString <;> rfl
        · rw [Cursor.later_skipPlainTemplate?]
      dsimp only [lateOutcome_ok]
      rw [hafter]
      cases (if first.atQuote then first.skipString.toOption
        else if first.peek? = some '\x60' then first.skipPlainTemplate? else none) with
      | none => rfl
      | some after =>
          simp only [Option.map_some, Cursor.later_skipTrivia]
          cases after.skipTrivia with
          | error f => rfl
          | ok close => exact Scan.ite_eq_apply _ rfl rfl

theorem dynamicImport_later (start argument : Cursor) :
    dynamicImport (start.later w) (argument.later w) =
      (dynamicImport start argument).later w.length := by
  unfold dynamicImport
  rw [plainArgument?_later]
  cases h : plainArgument? argument with
  | none => simp [ImportRecord.later, ImportKind.later, Nat.add_right_comm]
  | some places =>
      obtain ⟨first, after⟩ := places
      obtain ⟨-, hliteral, -⟩ := Cursor.plainArgument?_eq_some.1 h
      obtain ⟨l, hbetween⟩ := hliteral.exists_between
      have hpos : 1 ≤ after.offset := by
        simp only [hbetween.offset_eq, PlainLiteral.text, List.cons_append, List.length_cons]
        omega
      simp only [Option.map_some, laterPair, ImportRecord.later, ImportKind.later,
        Cursor.later_offset]
      rw [Nat.sub_add_comm hpos, Nat.add_right_comm]

theorem importStatement_later (hw : Bounded w) (bracketed : Bool) :
    importStatement bracketed (c.later w) = (importStatement bracketed c).later w := by
  unfold importStatement
  rw [Cursor.later_atKeyword hw]
  refine Scan.ite_eq_apply _ (by simp [Statement.plain, Statement.later]) ?_
  rw [Cursor.later_advance, Cursor.later_skipTrivia]
  cases hd : (c.advance 6).skipTrivia with
  | error f => rfl
  | ok d =>
      simp only [lateOutcome_ok, Cursor.later_advance, Cursor.later_peek?,
        Cursor.later_skipTrivia, Cursor.later_atQuote, importClause_later]
      refine Scan.ite_eq_apply _ ?_ (Scan.ite_eq_apply _ ?_ (Scan.ite_eq_apply _ ?_ ?_))
      · simp [Statement.later, dynamicImport_later]
      · cases (d.advance 1).skipTrivia with
        | error f => rfl
        | ok e =>
            refine Scan.ite_eq_apply _ ?_ rfl
            simp [Statement.later, ImportRecord.later, ImportKind.later, Nat.add_right_comm]
      · rfl
      · have hspecifier : (if d.atQuote then .ok (d.later w)
            else lateOutcome w (.later w) (importClause d)) =
            lateOutcome w (.later w) (if d.atQuote then .ok d else importClause d) :=
          Scan.ite_eq_apply _ rfl rfl
        rw [hspecifier]
        cases (if d.atQuote then .ok d else importClause d) with
        | error f => rfl
        | ok specifier =>
            simp only [lateOutcome_ok, sourceString_later]
            rcases sourceString specifier with f | ⟨record, e⟩ <;> rfl

end ImportAtlas.Source
