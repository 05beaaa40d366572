import Mathlib.Logic.Relation
import ImportAtlas.Proofs.Passages
import ImportAtlas.Proofs.Additions

/-!
# The moves of the scan

Every step of the scan reads one sign, or a statement of several. What a step can do is said once
here; invariants of the scan go through the moves.

## Summary

* `ImportRead` lists what an import statement can be, `Cursor.EndsInClause` is the one that is at
  fault behind the text.
* `Scan.Leads` is the run from one state to another.
* `Scan.Move` lists what one step can do.

## Main results

* `Scan.move_of_step`: a step is a move.
* `Scan.exists_leads_error`: every run comes to a state at which the analysis ends.
-/

namespace ImportAtlas.Source

/-! ### Imports -/

section Imports

variable {bracketed : Bool} {c d e : Cursor} {f : SyntaxFault}

/-- What an import statement is that is read without fault, and where the scan goes on. -/
inductive ImportRead (bracketed : Bool) (c : Cursor) : Statement → Cursor → Prop where
  | call {d : Cursor} (skip : (c.advance 6).skipTrivia = .ok d) (peek : d.peek? = some '(') :
      ImportRead bracketed c ⟨[dynamicImport c (d.advance 1)], [], some (c.advance 6).past,
        .ok (d.advance 1)⟩ (d.advance 1)
  | itself {d e : Cursor} (skip : (c.advance 6).skipTrivia = .ok d) (peek : d.peek? = some '.')
      (skip' : (d.advance 1).skipTrivia = .ok e) (word : e.identifier = "meta".toList) :
      ImportRead bracketed c ⟨[⟨c.offset, e.offset + 4, .itself⟩], [], none, .ok (e.advance 4)⟩
        (e.advance 4)
  /-- A property of `import` that means nothing. -/
  | property {d : Cursor} (skip : (c.advance 6).skipTrivia = .ok d) (peek : d.peek? = some '.') :
      ImportRead bracketed c (.plain (.ok (d.advance 1))) (d.advance 1)
  /-- The keyword within brackets. -/
  | word (hbracketed : bracketed = true) :
      ImportRead bracketed c (.plain (.ok (c.advance 6))) (c.advance 6)
  | declaration {quote next : Cursor} {record : ImportRecord} (top : bracketed = false)
      (onward : (c.advance 6).Onward quote) (atQuote : quote.atQuote = true)
      (static : staticImport quote = .ok (record, next)) :
      ImportRead bracketed c ⟨[record], [], none, .ok next⟩ next

theorem onward_of_clause (h : (if d.atQuote then .ok d else importClause d) = .ok e) :
    d.Onward e := by
  have hclause := clauseYields_importClause d
  split at h
  · exact Except.ok.inj h ▸ .refl d
  · rwa [h] at hclause

theorem importRead_of_next (hkey : c.atKeyword "import".toList = true)
    (h : (importStatement bracketed c).next = .ok d) :
    ImportRead bracketed c (importStatement bracketed c) d := by
  unfold importStatement at h ⊢
  simp only [hkey, Bool.not_true, Bool.false_eq_true, if_false] at h ⊢
  split at h
  · cases h
  rename_i e he
  split at h
  · rename_i hpeek
    obtain rfl := Except.ok.inj h
    simpa only [if_pos hpeek] using ImportRead.call he hpeek
  rename_i hparen
  rw [if_neg hparen]
  split at h
  · rename_i hpeek
    rw [if_pos hpeek]
    split at h
    · cases h
    rename_i g hg
    split at h
    · rename_i hmeta
      obtain rfl := Except.ok.inj h
      simpa only [if_pos hmeta] using ImportRead.itself he hpeek hg hmeta
    · rename_i hmeta
      obtain rfl := Except.ok.inj h
      simpa only [if_neg hmeta] using ImportRead.property he hpeek
  rename_i hdot
  rw [if_neg hdot]
  split at h
  · rename_i hbracketed
    obtain rfl := Except.ok.inj h
    simpa only [if_pos hbracketed] using ImportRead.word hbracketed
  rename_i hbracketed
  rw [if_neg hbracketed]
  split at h
  · cases h
  rename_i specifier hspecifier
  -- The specifier of a declaration is the first string behind what has been read.
  have hfinds := finds_sourceString specifier
  split at h
  · cases h
  rename_i record next hfound
  rw [hfound] at hfinds
  obtain ⟨quote, hquote, hat, hstatic⟩ := hfinds
  obtain rfl := Except.ok.inj h
  exact .declaration (Bool.eq_false_iff.2 hbracketed)
    (((Cursor.onward_skipTrivia he).trans (onward_of_clause hspecifier)).trans hquote) hat hstatic

theorem Cursor.onward_of_atKeyword (hkey : c.atKeyword "import".toList = true) :
    c.Onward (c.advance 6) :=
  ⟨_, passes_of_atKeyword hkey (List.all_eq_true.1 rfl)⟩

theorem ImportRead.onward {statement : Statement}
    (hkey : c.atKeyword "import".toList = true) (h : ImportRead bracketed c statement d) :
    c.Onward d := by
  have hword := Cursor.onward_of_atKeyword hkey
  cases h with
  | call skip peek =>
      exact (hword.trans (Cursor.onward_skipTrivia skip)).trans
        (Cursor.onward_char peek (by decide) (by decide) (by decide))
  | itself skip peek skip' word =>
      exact (((hword.trans (Cursor.onward_skipTrivia skip)).trans
        (Cursor.onward_char peek (by decide) (by decide) (by decide))).trans
        (Cursor.onward_skipTrivia skip')).trans (Cursor.onward_word word rfl)
  | property skip peek =>
      exact (hword.trans (Cursor.onward_skipTrivia skip)).trans
        (Cursor.onward_char peek (by decide) (by decide) (by decide))
  | word => exact hword
  | declaration top onward atQuote static =>
      exact (hword.trans onward).trans (onward_staticImport atQuote static)

/-- The clause of the import that comes next holds no specifier, and white space or a comment is
the last sign of the text. -/
def Cursor.EndsInClause (c : Cursor) : Prop :=
  ∃ d f signs e, (c.advance 6).skipTrivia = .ok d ∧ d.peek? ≠ some '(' ∧ d.peek? ≠ some '.' ∧
    d.atQuote = false ∧ importClause d = .error f ∧ f.cause = .expectedSpecifier ∧
    d.Passes (.gap :: signs) e ∧ e.rest = []

/-- The fault of a clause lies in the text, or the clause holds no specifier and a gap is the last
sign of the text. -/
theorem Cursor.position_of_clause {g : SyntaxFault} (hc : c.Onward d)
    (hd : (c.advance 6).skipTrivia = .ok d) (hparen : d.peek? ≠ some '(')
    (hdot : d.peek? ≠ some '.') (hquote : d.atQuote = false) (hg : importClause d = .error g) :
    g.position ≤ c.text.length ∨
      c.EndsInClause ∧ g = ⟨c.text.length + 1, .expectedSpecifier⟩ := by
  have hclause := clauseYields_importClause d
  rw [hg, Cursor.ClauseYields, hc.text_eq] at hclause
  rcases hclause with ⟨-, hposition⟩ | ⟨signs, last, hsigns, hend, rfl⟩
  · exact .inl hposition
  -- Only a gap in front of the end puts the fault behind the text.
  by_cases hgap : signs.head? = some .gap
  · obtain ⟨more, rfl⟩ := List.head?_eq_some_iff.1 hgap
    exact .inr ⟨⟨d, _, more, last, hd, hparen, hdot, hquote, hg, rfl, hsigns, hend⟩, rfl⟩
  · rw [if_neg hgap]
    exact .inl (Nat.le_refl _)

/-- The fault of an import statement lies in the text, but for one kind of clause. -/
theorem position_importStatement (hkey : c.atKeyword "import".toList = true)
    (h : (importStatement bracketed c).next = .error f) :
    (importStatement bracketed c).imports = [] ∧ (f.position ≤ c.text.length ∨
      bracketed = false ∧ c.EndsInClause ∧ f = ⟨c.text.length + 1, .expectedSpecifier⟩) := by
  have hword := Cursor.onward_of_atKeyword hkey
  unfold importStatement at h ⊢
  simp only [hkey, Bool.not_true, Bool.false_eq_true, if_false] at h ⊢
  split at h
  · rename_i g hg
    obtain rfl := Except.error.inj h
    exact ⟨rfl, .inl (hword.position_of_skipTrivia hg)⟩
  rename_i e he
  have hce := hword.trans (Cursor.onward_skipTrivia he)
  split at h
  · cases h
  rename_i hparen
  rw [if_neg hparen]
  split at h
  · rename_i hdot
    rw [if_pos hdot]
    split at h
    · rename_i g hg
      have hone := Cursor.onward_char hdot (by decide) (by decide) (by decide)
      obtain rfl := Except.error.inj h
      exact ⟨rfl, .inl ((hce.trans hone).position_of_skipTrivia hg)⟩
    · split at h <;> cases h
  rename_i hdot
  rw [if_neg hdot]
  split at h
  · cases h
  rename_i hbracketed
  rw [if_neg hbracketed]
  split at h
  · rename_i g hg
    obtain rfl := Except.error.inj h
    split at hg
    · cases hg
    rename_i hquote
    have hclause :=
      Cursor.position_of_clause hce he hparen hdot (Bool.eq_false_iff.2 hquote) hg
    exact ⟨rfl, hclause.imp_right fun hends => ⟨Bool.eq_false_iff.2 hbracketed, hends⟩⟩
  rename_i specifier hspecifier
  split at h
  · rename_i g hg
    have hfinds := finds_sourceString specifier
    rw [hg] at hfinds
    obtain rfl := Except.error.inj h
    exact ⟨rfl, .inl ((hce.trans (onward_of_clause hspecifier)).text_eq ▸ hfinds)⟩
  · cases h

theorem importStatement_of_endsInClause (hkey : c.atKeyword "import".toList = true)
    (h : c.EndsInClause) : (importStatement false c).next =
      .error ⟨c.text.length + 1, .expectedSpecifier⟩ := by
  obtain ⟨d, f, signs, last, hd, hparen, hdot, hquote, hf, hcause, hsigns, hend⟩ := h
  have hcd := (Cursor.onward_of_atKeyword hkey).trans (Cursor.onward_skipTrivia hd)
  have hfault : f = ⟨c.text.length + 1, .expectedSpecifier⟩ := by
    have hclause := clauseYields_importClause d
    rw [hf, Cursor.ClauseYields, hcd.text_eq] at hclause
    rcases hclause with ⟨hne, -⟩ | ⟨signs', last', hsigns', hend', hf'⟩
    · exact absurd hcause hne
    · rw [← hsigns.eq_of_end hend hsigns' hend'] at hf'
      exact hf'
  rw [importStatement, hkey]
  simp [hd, hparen, hdot, hquote, hf, hfault, Statement.plain]

end Imports

namespace Scan

variable {s t : Scan} {a : Analysis}

/-! ### Runs -/

/-- One state leads to another by some steps. -/
def Leads : Scan → Scan → Prop := Relation.ReflTransGen fun s t => s.step = .ok t

theorem Leads.run_eq (h : Leads s t) : s.run = t.run := by
  induction h with
  | refl => rfl
  | tail _ hstep ih => exact ih.trans (run_of_step hstep)

theorem run_of_step_error (h : s.step = .error a) : s.run = a := by
  rw [run]
  split
  · rename_i t ht
    cases h.symm.trans ht
  · rename_i a' ha
    exact (Except.error.inj (h.symm.trans ha)).symm

/-- Every run comes to its end. -/
theorem exists_leads_error (s : Scan) : ∃ t, Leads s t ∧ t.step = .error s.run := by
  induction hn : s.cursor.size using Nat.strong_induction_on generalizing s with
  | _ n ih =>
      cases hstep : s.step with
      | error a => exact ⟨s, .refl, hstep.trans (congrArg _ (run_of_step_error hstep).symm)⟩
      | ok t =>
          obtain ⟨u, hlead, hend⟩ := ih _ (hn ▸ size_step_lt hstep) t rfl
          exact ⟨u, .head hstep hlead, hend.trans (congrArg _ (run_of_step hstep).symm)⟩

/-- Of two states on one run, one leads to the other. -/
theorem Leads.total {u : Scan} (ht : Leads s t) (hu : Leads s u) : Leads t u ∨ Leads u t :=
  Relation.ReflTransGen.total_of_right_unique
    (fun _ _ _ h h' => Except.ok.inj (h.symm.trans h')) ht hu

theorem Leads.size_le (h : Leads s t) : t.cursor.size ≤ s.cursor.size := by
  induction h with
  | refl => exact Nat.le_refl _
  | tail _ hstep ih => exact Nat.le_trans (Nat.le_of_lt (size_step_lt hstep)) ih

theorem Leads.antisymm (h : Leads s t) (h' : Leads t s) : s = t := by
  rcases h.cases_head with rfl | ⟨next, hnext, hlead⟩
  · rfl
  · have := size_step_lt hnext
    have := Leads.size_le hlead
    have := h'.size_le
    omega

/-! ### Moves -/

/-- The state behind a statement. -/
def behind (s : Scan) (statement : Statement) (d : Cursor) : Scan :=
  { s with
    imports := s.imports ++ statement.imports
    exports := s.exports ++ statement.exports
    openers := statement.opener?.toList ++ s.openers }.token d

theorem take_eq_ok {statement : Statement} (h : s.take statement = .ok t) :
    ∃ d, statement.next = .ok d ∧ t = s.behind statement d := by
  unfold take at h
  dsimp only at h
  split at h
  · rename_i d hd
    exact ⟨d, hd, (Except.ok.inj h).symm⟩
  · cases h

/-- The state behind a piece of a template. -/
def pastChunk (s : Scan) (e : ChunkEnd) (d : Cursor) : Scan :=
  match e with
  | .closed => s.token d
  | .substitution => { s with
      braces := s.braces + 1, templates := (s.braces + 1) :: s.templates }.token d

theorem templateChunk_eq_ok (h : s.templateChunk = .ok t) :
    ∃ e n, chunkLength? (s.cursor.rest.drop 1) = some (e, n) ∧
      t = s.pastChunk e (s.cursor.advance (n + 1)) := by
  unfold templateChunk at h
  split at h
  · cases h
  · rename_i n hn
    exact ⟨.closed, n, hn, (Except.ok.inj h).symm⟩
  · rename_i n hn
    exact ⟨.substitution, n, hn, (Except.ok.inj h).symm⟩

/-- The characters that do not begin a token of another kind. -/
def Plain (ch : Char) : Prop := ch ∉ ['(', ')', '\x7b', '\x7d', '\x60']

/-- What one step can do. -/
inductive Move (s : Scan) : Scan → Prop where
  /-- White space and comments are passed over. -/
  | gap {d : Cursor} (read : s.cursor.Reads .gap d) : Move s { s with cursor := d }
  /-- A character is read. A slash divides. -/
  | char {ch : Char} {d : Cursor} (read : s.cursor.Reads (.char ch) d) (plain : Plain ch)
      (divides : ch = '/' → s.regexAllowed = false) : Move s (s.token d)
  | string {d : Cursor} (read : s.cursor.Reads .literal d) : Move s (s.token d)
  | regex {d : Cursor} (slash : s.cursor.peek? = some '/') (begins : Begins s.cursor.rest)
      (allowed : s.regexAllowed = true) (skip : s.cursor.skipRegex = .ok d) : Move s (s.token d)
  | openParen (peek : s.cursor.peek? = some '(') : Move s s.openBracket
  | openBrace (peek : s.cursor.peek? = some '\x7b') :
      Move s { s with braces := s.braces + 1 }.openBracket
  | closeParen (peek : s.cursor.peek? = some ')') {opener : Past} {openers : List Past}
      (openers_eq : s.openers = opener :: openers) :
      Move s ({ s with openers, lastOpener := opener }.token (s.cursor.advance 1))
  | closeBrace (peek : s.cursor.peek? = some '\x7d') {opener : Past} {openers : List Past}
      (openers_eq : s.openers = opener :: openers) (braces : s.braces ≠ 0)
      (templates : ∀ b ∈ s.templates.head?, b < s.braces) :
      Move s ({ s with openers, lastOpener := opener, braces := s.braces - 1 }.token
        (s.cursor.advance 1))
  /-- A template begins. -/
  | template {e : ChunkEnd} {n : Nat} (peek : s.cursor.peek? = some '\x60')
      (chunk : chunkLength? (s.cursor.rest.drop 1) = some (e, n)) :
      Move s (s.pastChunk e (s.cursor.advance (n + 1)))
  /-- The substitution of a template ends. -/
  | resume {e : ChunkEnd} {n : Nat} (peek : s.cursor.peek? = some '\x7d')
      (templates : s.templates.head? = some s.braces)
      (chunk : chunkLength? (s.cursor.rest.drop 1) = some (e, n)) :
      Move s ({ s with braces := s.braces - 1, templates := s.templates.tail }.pastChunk e
        (s.cursor.advance (n + 1)))
  | imports {statement : Statement} {d : Cursor}
      (keyword : s.cursor.atKeyword "import".toList = true)
      (read : ImportRead (s.openers ≠ []) s.cursor statement d) : Move s (s.behind statement d)
  /-- An export statement counts outside of brackets only. -/
  | exports (keyword : s.cursor.atKeyword "export".toList = true) (top : s.openers = [])
      {d : Cursor} (next : (exportStatement false s.cursor).next = .ok d) :
      Move s (s.behind (exportStatement false s.cursor) d)

theorem moveTo_eq_ok {next : Except SyntaxFault Cursor} (h : s.moveTo next = .ok t) :
    ∃ d, next = .ok d ∧ t = s.token d := by
  unfold moveTo at h
  split at h
  · exact ⟨_, rfl, (Except.ok.inj h).symm⟩
  · cases h

theorem closeBracket_eq_ok {ch : Char} (h : s.closeBracket ch = .ok t) :
    ∃ opener openers, s.openers = opener :: openers ∧
      t = { s with openers, lastOpener := opener }.token (s.cursor.advance 1) := by
  unfold closeBracket at h
  split at h
  · cases h
  · exact ⟨_, _, ‹_›, (Except.ok.inj h).symm⟩

/-- A closing brace ends a substitution, or closes a bracket. -/
theorem move_of_closeBrace (peek : s.cursor.peek? = some '\x7d') (h : s.closeBrace = .ok t) :
    Move s t := by
  unfold closeBrace at h
  split at h
  · rename_i htemplates
    obtain ⟨e, n, hchunk, rfl⟩ := templateChunk_eq_ok h
    exact .resume peek htemplates hchunk
  rename_i hne
  split at h
  · cases h
  rename_i hbraces
  simp only [Bool.or_eq_true, decide_eq_true_eq, Option.any_eq_true_iff_get, not_or] at hbraces
  obtain ⟨opener, openers, hopeners, rfl⟩ := closeBracket_eq_ok h
  refine .closeBrace peek hopeners hbraces.1 fun b hb => ?_
  have hle : ¬ s.braces - 1 < b := by
    simpa [show s.templates.head? = some b from hb] using hbraces.2
  have : b ≠ s.braces := fun heq => hne (heq ▸ hb)
  omega

theorem AtToken.begins {c : Char} (h : s.AtToken c) : Begins s.cursor.rest := by
  obtain ⟨rest, hrest⟩ : ∃ rest, s.cursor.rest = c :: rest := List.head?_eq_some_iff.1 h.peek
  have hsolid := h.solid
  simpa [Begins, hrest] using hsolid

theorem AtToken.reads {c : Char} (h : s.AtToken c) (hquote : isQuote c = false) :
    s.cursor.Reads (.char c) (s.cursor.advance 1) := by
  obtain ⟨rest, hrest⟩ : ∃ rest, s.cursor.rest = c :: rest := List.head?_eq_some_iff.1 h.peek
  exact .char hrest h.begins hquote

/-- A character without meaning of its own is passed over. -/
theorem AtToken.move_char {c : Char} (h : s.AtToken c) (hplain : Plain c)
    (hquote : isQuote c = false) (hslash : c ≠ '/') : Move s (s.token (s.cursor.advance 1)) :=
  .char (h.reads hquote) hplain fun hc => absurd hc hslash

/-- White space and comments that come next are not empty. -/
theorem reads_gap {c : Char} {d : Cursor} (hpeek : s.cursor.peek? = some c)
    (hgap : (isSpace c || startsComment s.cursor.rest) = true)
    (hskip : s.cursor.skipTrivia = .ok d) : s.cursor.Reads .gap d := by
  obtain ⟨rest, hrest⟩ : ∃ rest, s.cursor.rest = c :: rest := List.head?_eq_some_iff.1 hpeek
  refine .gap hskip ?_
  rintro rfl
  have hbegins := Cursor.begins_of_skipTrivia hskip
  simp [hrest, Begins] at hbegins hgap
  simp [hbegins] at hgap

/-- An `i` begins an import, or it is a character like others. -/
theorem move_of_import (token : s.AtToken 'i')
    (h : s.take (importStatement (s.openers ≠ []) s.cursor) = .ok t) : Move s t := by
  obtain ⟨d, hd, rfl⟩ := take_eq_ok h
  by_cases hkey : s.cursor.atKeyword "import".toList = true
  · exact .imports hkey (importRead_of_next hkey hd)
  · simp only [importStatement, Bool.not_eq_true _ ▸ hkey, Bool.not_false, if_true,
      Statement.plain] at hd ⊢
    obtain rfl := Except.ok.inj hd
    simpa [behind] using token.move_char (by simp [Plain]) rfl (by decide)

/-- Outside of brackets an `e` begins an export; else it is a character like others. -/
theorem move_of_export (token : s.AtToken 'e')
    (h : s.take (exportStatement (s.openers ≠ []) s.cursor) = .ok t) : Move s t := by
  obtain ⟨d, hd, rfl⟩ := take_eq_ok h
  by_cases hkey : s.cursor.atKeyword "export".toList = true ∧ s.openers = []
  · simp only [hkey.2, ne_eq, not_true_eq_false, decide_false] at hd ⊢
    exact .exports hkey.1 hkey.2 hd
  · have hcond : (decide (s.openers ≠ []) || !s.cursor.atKeyword "export".toList) = true := by
      rcases not_and_or.1 hkey with hkey | hkey
      · rw [Bool.eq_false_iff.2 hkey, Bool.not_false, Bool.or_true]
      · rw [decide_eq_true hkey, Bool.true_or]
    simp only [exportStatement, hcond, if_true, Statement.plain] at hd ⊢
    obtain rfl := Except.ok.inj hd
    simpa [behind] using token.move_char (by simp [Plain]) rfl (by decide)

theorem move_of_step (h : s.step = .ok t) : Move s t := by
  have hreading := s.reading_step
  generalize s.step = next at h hreading
  cases hreading with
  | finish | unclosedGap => cases h
  | gap peek isGap skip => exact Except.ok.inj h ▸ .gap (reads_gap peek isGap skip)
  | regex token allowed =>
      obtain ⟨d, hd, rfl⟩ := moveTo_eq_ok h
      exact .regex token.peek token.begins allowed hd
  | division token allowed =>
      obtain ⟨d, hd, rfl⟩ := moveTo_eq_ok h
      obtain rfl := Except.ok.inj hd
      exact .char (token.reads rfl) (by simp [Plain]) fun _ => allowed
  | openBrace token => exact Except.ok.inj h ▸ .openBrace token.peek
  | openParen token => exact Except.ok.inj h ▸ .openParen token.peek
  | closeBrace token => exact move_of_closeBrace token.peek h
  | closeParen token =>
      obtain ⟨opener, openers, hopeners, rfl⟩ := closeBracket_eq_ok h
      exact .closeParen token.peek hopeners
  | string token isQuote_eq =>
      obtain ⟨d, hd, rfl⟩ := moveTo_eq_ok h
      exact .string (.string (by simpa [Cursor.atQuote, token.peek] using isQuote_eq) hd)
  | template token =>
      obtain ⟨e, n, hchunk, rfl⟩ := templateChunk_eq_ok h
      exact .template token.peek hchunk
  | imports token => exact move_of_import token h
  | exports token => exact move_of_export token h
  | char token ordinary =>
      obtain ⟨d, hd, rfl⟩ := moveTo_eq_ok h
      obtain rfl := Except.ok.inj hd
      obtain ⟨hnot, hquote⟩ := ordinary
      simp only [List.mem_cons, not_or] at hnot
      exact token.move_char (by simp [Plain, hnot]) hquote hnot.1

/-- A step passes over some text. -/
theorem Move.exists_between (h : Move s t) : ∃ taken, s.cursor.Between taken t.cursor := by
  cases h with
  | gap read => exact read.exists_between
  | char read _ _ => exact read.exists_between
  | string read => exact read.exists_between
  | regex slash begins allowed skip =>
      obtain ⟨n, rfl⟩ := Cursor.skipRegex_eq_advance skip
      exact ⟨_, s.cursor.between_advance (n + 1)⟩
  | openParen | openBrace | closeParen | closeBrace => exact ⟨_, s.cursor.between_advance 1⟩
  | @template e n | @resume e n => cases e <;> exact ⟨_, s.cursor.between_advance (n + 1)⟩
  | imports keyword read => exact (read.onward keyword).exists_between
  | exports keyword top next =>
      exact ((gives_exportStatement false keyword).yields.ok next).exists_between

theorem Leads.exists_between (h : Leads s t) : ∃ taken, s.cursor.Between taken t.cursor := by
  induction h with
  | refl => exact ⟨[], .refl _⟩
  | tail _ hstep ih =>
      obtain ⟨taken, htaken⟩ := ih
      obtain ⟨more, hmore⟩ := (move_of_step hstep).exists_between
      exact ⟨_, htaken.trans hmore⟩

theorem Leads.text_eq (h : Leads s t) : t.cursor.text = s.cursor.text := by
  obtain ⟨taken, htaken⟩ := h.exists_between
  exact htaken.text_eq

/-! ### Steps that are known -/

theorem step_of_gap {d : Cursor} (h : s.cursor.Reads .gap d) :
    s.step = .ok { s with cursor := d } := by
  obtain ⟨ch, rest, hrest⟩ := List.exists_cons_of_ne_nil h.rest_ne_nil
  obtain ⟨skip, ne⟩ | _ := h
  have hgap : (isSpace ch || startsComment s.cursor.rest) = true := by
    by_contra hgap
    have hbegins : Begins s.cursor.rest := by simpa [Begins, hrest] using hgap
    rw [Cursor.skipTrivia_of_begins hbegins] at skip
    exact ne (Except.ok.inj skip).symm
  rw [step_of_rest hrest, stepAt, if_pos hgap, skip]

/-- White space and comments that come next may be passed over first. -/
theorem run_of_skipTrivia {d : Cursor} (h : s.cursor.skipTrivia = .ok d) :
    s.run = { s with cursor := d }.run := by
  by_cases hne : d = s.cursor
  · subst hne
    rfl
  · exact run_of_step (step_of_gap (.gap h hne))

theorem step_of_gap_error {f : SyntaxFault} (h : s.cursor.skipTrivia = .error f) :
    s.step = .error (s.stop f) := by
  have hne {b : Prop} (hbegins : Begins s.cursor.rest) : b := by
    rw [Cursor.skipTrivia_of_begins hbegins] at h
    cases h
  cases hrest : s.cursor.rest with
  | nil => exact hne (hrest ▸ ⟨by simp, rfl⟩)
  | cons ch rest =>
      have hgap : (isSpace ch || startsComment s.cursor.rest) = true := by
        by_contra hgap
        exact hne (by simpa [Begins, hrest] using hgap)
      rw [step_of_rest hrest, stepAt, if_pos hgap, h]

theorem step_of_closeParen {opener : Past} {openers : List Past}
    (hpeek : s.cursor.peek? = some ')') (h : s.openers = opener :: openers) :
    s.step = .ok ({ s with openers, lastOpener := opener }.token (s.cursor.advance 1)) := by
  obtain ⟨rest, hrest⟩ : ∃ rest, s.cursor.rest = ')' :: rest := List.head?_eq_some_iff.1 hpeek
  rw [step_of_rest hrest, stepAt, hrest]
  simp [isSpace, startsComment, closeBracket, h]

theorem step_of_import (hkey : s.cursor.atKeyword "import".toList = true) :
    s.step = s.take (importStatement (s.openers ≠ []) s.cursor) := by
  obtain ⟨rest, hrest⟩ : ∃ rest, s.cursor.rest = 'i' :: rest :=
    List.head?_eq_some_iff.1 (Cursor.peek?_of_atKeyword hkey)
  rw [step_of_rest hrest, stepAt, hrest]
  rfl

theorem step_of_export (hkey : s.cursor.atKeyword "export".toList = true) :
    s.step = s.take (exportStatement (s.openers ≠ []) s.cursor) := by
  obtain ⟨rest, hrest⟩ : ∃ rest, s.cursor.rest = 'e' :: rest :=
    List.head?_eq_some_iff.1 (Cursor.peek?_of_atKeyword hkey)
  rw [step_of_rest hrest, stepAt, hrest]
  rfl

/-! ### The end of a run -/

/-- The analysis ends at a state. -/
structure Halts (s : Scan) (a : Analysis) : Prop where
  /-- What has been found stays. -/
  imports_eq : a.imports = s.imports
  /-- A fault lies in the text. -/
  position_le : ∀ f ∈ a.fault?, f.position ≤ s.cursor.text.length
  /-- Without fault, every bracket is closed. -/
  closed : a.fault? = none → s.openers = []

theorem halts_stop {f : SyntaxFault} (h : f.position ≤ s.cursor.text.length) :
    s.Halts (s.stop f) :=
  ⟨rfl, fun _ hg => Option.some.inj hg ▸ h, fun hnone => by cases hnone⟩

theorem halts_finish (s : Scan) : s.Halts s.finish := by
  unfold finish
  split
  · exact halts_stop s.cursor.offset_le
  · rename_i hclosed
    simp only [not_or, not_not] at hclosed
    exact ⟨rfl, by simp, fun _ => hclosed.2.2⟩

theorem halts_moveTo {next : Except SyntaxFault Cursor}
    (hnext : ∀ f, next = .error f → f.position ≤ s.cursor.text.length)
    (h : s.moveTo next = .error a) : s.Halts a := by
  unfold moveTo at h
  split at h
  · cases h
  · exact Except.error.inj h ▸ halts_stop (hnext _ rfl)

theorem halts_closeBracket {ch : Char} (h : s.closeBracket ch = .error a) : s.Halts a := by
  unfold closeBracket at h
  split at h
  · exact Except.error.inj h ▸ halts_stop s.cursor.offset_le
  · cases h

theorem halts_templateChunk (h : s.templateChunk = .error a) : s.Halts a := by
  unfold templateChunk at h
  split at h
  · exact Except.error.inj h ▸ halts_stop s.cursor.offset_le
  · cases h
  · cases h

theorem halts_closeBrace (h : s.closeBrace = .error a) : s.Halts a := by
  unfold closeBrace at h
  split at h
  · have hhalts := halts_templateChunk
      (s := { s with braces := s.braces - 1, templates := s.templates.tail }) h
    exact ⟨hhalts.imports_eq, hhalts.position_le, hhalts.closed⟩
  split at h
  · exact Except.error.inj h ▸ halts_stop s.cursor.offset_le
  · have hhalts := halts_closeBracket (s := { s with braces := s.braces - 1 }) h
    exact ⟨hhalts.imports_eq, hhalts.position_le, hhalts.closed⟩

theorem take_eq_error {statement : Statement} (h : s.take statement = .error a) :
    ∃ f, statement.next = .error f ∧ a.imports = s.imports ++ statement.imports ∧
      a.fault? = some f := by
  unfold take at h
  dsimp only at h
  split at h
  · cases h
  · rename_i f hf
    exact Except.error.inj h ▸ ⟨f, hf, rfl, rfl⟩

theorem Halts.of_take {statement : Statement} {f : SyntaxFault}
    (himports : a.imports = s.imports ++ statement.imports) (hnone : statement.imports = [])
    (hfault : a.fault? = some f) (hposition : f.position ≤ s.cursor.text.length) : s.Halts a := by
  refine ⟨by rw [himports, hnone, List.append_nil], fun g hg => ?_, fun hg => ?_⟩
  · obtain rfl := Option.some.inj (hfault.symm.trans hg)
    exact hposition
  · cases hfault.symm.trans hg

/-- The clause of the import that comes next, outside of brackets, holds no specifier, and white
space or a comment is the last sign of the text. -/
def EndsInClause (s : Scan) : Prop :=
  s.openers = [] ∧ s.cursor.atKeyword "import".toList = true ∧ s.cursor.EndsInClause

/-- A fault in an import lies in the text, but for one kind of clause. -/
theorem halts_of_import_error
    (h : s.take (importStatement (s.openers ≠ []) s.cursor) = .error a) :
    s.Halts a ∨ s.EndsInClause ∧ a.imports = s.imports ∧
      a.fault? = some ⟨s.cursor.text.length + 1, .expectedSpecifier⟩ := by
  obtain ⟨f, hf, himports, hfault⟩ := take_eq_error h
  by_cases hkey : s.cursor.atKeyword "import".toList = true
  · obtain ⟨hnone, hposition | ⟨htop, hends, rfl⟩⟩ := position_importStatement hkey hf
    · exact .inl (.of_take himports hnone hfault hposition)
    · exact .inr ⟨⟨by simpa using htop, hkey, hends⟩, by rw [himports, hnone, List.append_nil],
        hfault⟩
  · simp only [importStatement, Bool.eq_false_iff.2 hkey, Bool.not_false, if_true,
      Statement.plain] at hf
    cases hf

/-- A fault in an export lies in the text. -/
theorem halts_of_export_error
    (h : s.take (exportStatement (s.openers ≠ []) s.cursor) = .error a) : s.Halts a := by
  obtain ⟨f, hf, himports, hfault⟩ := take_eq_error h
  by_cases hkey : s.cursor.atKeyword "export".toList = true
  · obtain ⟨hyields, -, hstatement⟩ := gives_exportStatement (s.openers ≠ []) hkey
    rcases hstatement with hnone | ⟨_, _, next, _, _, _, _, hnext⟩
    · exact .of_take himports hnone hfault (hyields.error hf)
    · cases hf.symm.trans hnext
  · simp only [exportStatement, Bool.eq_false_iff.2 hkey, Bool.not_false, Bool.or_true, if_true,
      Statement.plain] at hf
    cases hf

/-- A fault at which the analysis ends lies in the text, but for one kind of clause. -/
theorem halts_of_step_error (h : s.step = .error a) : s.Halts a ∨ s.EndsInClause ∧
    a.imports = s.imports ∧ a.fault? = some ⟨s.cursor.text.length + 1, .expectedSpecifier⟩ := by
  have hreading := s.reading_step
  generalize s.step = next at h hreading
  cases hreading with
  | finish => exact .inl (Except.error.inj h ▸ s.halts_finish)
  | gap | openBrace | openParen => cases h
  | unclosedGap skip =>
      exact .inl (Except.error.inj h ▸ halts_stop (Cursor.position_of_skipTrivia skip))
  | regex token allowed =>
      exact .inl (halts_moveTo (fun f hf =>
        Cursor.position_of_skipRegex hf token.rest_ne_nil) h)
  | division | char => exact .inl (halts_moveTo (by simp) h)
  | closeBrace token => exact .inl (halts_closeBrace h)
  | closeParen token => exact .inl (halts_closeBracket h)
  | string token isQuote_eq =>
      exact .inl (halts_moveTo (fun f hf => Cursor.position_of_skipString hf) h)
  | template token => exact .inl (halts_templateChunk h)
  | imports token => exact halts_of_import_error h
  | exports token => exact .inl (halts_of_export_error h)

theorem step_of_endsInClause (h : s.EndsInClause) : ∃ a, s.step = .error a ∧
    a.fault? = some ⟨s.cursor.text.length + 1, .expectedSpecifier⟩ := by
  obtain ⟨htop, hkey, hends⟩ := h
  rw [step_of_import hkey, htop, take]
  simp only [ne_eq, not_true_eq_false, decide_false, importStatement_of_endsInClause hkey hends]
  exact ⟨_, rfl, rfl⟩

end Scan

end ImportAtlas.Source
