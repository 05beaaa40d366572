import ImportAtlas.Source.Progress

/-!
# The analysis of module source

One pass over a source finds the modules that it names and the names that it exports, without a
syntax tree. Strings, comments, templates and regular expressions are skipped; to tell a regular
expression from a division the scan remembers what stood before each open bracket.

## Summary

* `Scan` is the state of the pass between two tokens.
* `Scan.step` reads one token, `Scan.Reading` tells which kind; `Scan.run` reads as many tokens as
  there are.
* `analyze` is the analysis of a whole source.

## Main results

* `Scan.reading_step`: every step is one reading.
* `Scan.size_step_lt`: every step moves on, so the scan of a source ends.
-/

namespace ImportAtlas.Source

/-- The state of the scan between two tokens. -/
structure Scan where
  /-- Where the scan is. -/
  cursor : Cursor
  /-- The text up to the end of the last token. -/
  lastToken : Past
  /-- The text up to the token before the bracket that was closed last. -/
  lastOpener : Past
  /-- The text up to the token before each open bracket, innermost first. -/
  openers : List Past
  /-- The number of open braces. -/
  braces : Nat
  /-- The number of open braces within each open substitution of a template, innermost first. -/
  templates : List Nat
  /-- The imports found so far. -/
  imports : List ImportRecord
  /-- The exported names found so far. -/
  exports : List String
  deriving DecidableEq, Inhabited

namespace Scan

/-- The scan at the start of a source. -/
def start (source : List Char) : Scan := ⟨⟨[], source⟩, [], [], [], 0, [], [], []⟩

/-- The analysis that ends at a fault. -/
def stop (s : Scan) (fault : SyntaxFault) : Analysis := ⟨s.imports, s.exports, some fault⟩

/-- The analysis at the end of the source: every bracket and template must be closed. -/
def finish (s : Scan) : Analysis :=
  if s.braces ≠ 0 ∨ s.templates ≠ [] ∨ s.openers ≠ [] then s.stop (s.cursor.fault .unbalanced)
  else ⟨s.imports, s.exports, none⟩

/-- The state after a token that ends at a place. -/
def token (s : Scan) (c : Cursor) : Scan := { s with cursor := c, lastToken := c.past }

/-! ### Regular expressions -/

/-- Whether a brace that was opened after some text held statements rather than an object. -/
def heldStatements (opener : Past) : Bool :=
  match opener.head? with
  | none => true
  | some c => c == ';' || c == ')' || (c == 'y' && wordBehind opener == "finally".toList)

/-- Whether a slash opens a regular expression here. It divides after a name, a closing bracket
or a closing parenthesis, unless that of a condition, and after the brace of an object. -/
def regexAllowed (s : Scan) : Bool :=
  match s.lastToken.head? with
  | none => true
  | some c =>
    if isPunctuator c then
      if c == ')' then conditionKeywords.contains (wordBehind s.lastOpener)
      else if c == '\x7d' then heldStatements s.lastOpener
      else c != ']'
    else expressionKeywords.contains (wordBehind s.lastToken)

/-! ### Tokens -/

/-- Opens a bracket, which comes next. -/
def openBracket (s : Scan) : Scan :=
  { s with openers := s.lastToken :: s.openers }.token (s.cursor.advance 1)

/-- Closes the innermost bracket by `c`, which comes next. -/
def closeBracket (s : Scan) (c : Char) : Except Analysis Scan :=
  match s.openers with
  | [] => .error (s.stop (s.cursor.fault (.unexpectedCloser c)))
  | opener :: openers =>
    .ok ({ s with openers, lastOpener := opener }.token (s.cursor.advance 1))

/-- Reads a piece of a template after its first character, which comes next. -/
def templateChunk (s : Scan) : Except Analysis Scan :=
  match chunkLength? (s.cursor.rest.drop 1) with
  | none => .error (s.stop (s.cursor.fault .unterminatedTemplate))
  | some (.closed, n) => .ok (s.token (s.cursor.advance (n + 1)))
  | some (.substitution, n) =>
    .ok ({ s with braces := s.braces + 1, templates := (s.braces + 1) :: s.templates }.token
      (s.cursor.advance (n + 1)))

/-- Closes a brace or a substitution, whose closing brace comes next. -/
def closeBrace (s : Scan) : Except Analysis Scan :=
  if s.templates.head? = some s.braces then
    { s with braces := s.braces - 1, templates := s.templates.tail }.templateChunk
  else if s.braces = 0 || s.templates.head?.any (s.braces - 1 < ·) then
    .error (s.stop (s.cursor.fault (.unexpectedCloser '\x7d')))
  else { s with braces := s.braces - 1 }.closeBracket '\x7d'

/-- Takes over what a statement adds. -/
def take (s : Scan) (statement : Statement) : Except Analysis Scan :=
  let s' := { s with
    imports := s.imports ++ statement.imports
    exports := s.exports ++ statement.exports
    openers := statement.opener?.toList ++ s.openers }
  match statement.next with
  | .ok c => .ok (s'.token c)
  | .error fault => .error (s'.stop fault)

/-- Moves to a place behind the next token, or stops at the fault in it. -/
def moveTo (s : Scan) (next : Except SyntaxFault Cursor) : Except Analysis Scan :=
  match next with
  | .ok c => .ok (s.token c)
  | .error fault => .error (s.stop fault)

/-- Reads the next token, whose first character is `c`. White space and comments change nothing
but the place. -/
def stepAt (s : Scan) (c : Char) : Except Analysis Scan :=
  if isSpace c || startsComment s.cursor.rest then
    match s.cursor.skipTrivia with
    | .ok d => .ok { s with cursor := d }
    | .error fault => .error (s.stop fault)
  else if c = '/' then
    if s.regexAllowed then s.moveTo s.cursor.skipRegex else s.moveTo (.ok (s.cursor.advance 1))
  else if c = '\x7b' then .ok { s with braces := s.braces + 1 }.openBracket
  else if c = '(' then .ok s.openBracket
  else if c = '\x7d' then s.closeBrace
  else if c = ')' then s.closeBracket ')'
  else if isQuote c then s.moveTo s.cursor.skipString
  else if c = '\x60' then s.templateChunk
  else if c = 'i' then s.take (importStatement (s.openers ≠ []) s.cursor)
  else if c = 'e' then s.take (exportStatement (s.openers ≠ []) s.cursor)
  else s.moveTo (.ok (s.cursor.advance 1))

/-- Reads the next token; at the end of the source the analysis is complete. -/
def step (s : Scan) : Except Analysis Scan :=
  match s.cursor.rest with
  | [] => .error s.finish
  | c :: _ => s.stepAt c

/-! ### What a step reads -/

/-- A token that begins with `c` comes next: neither white space nor a comment does. -/
structure AtToken (s : Scan) (c : Char) : Prop where
  peek : s.cursor.peek? = some c
  solid : ¬ (isSpace c || startsComment s.cursor.rest) = true

theorem AtToken.rest_ne_nil {s : Scan} {c : Char} (h : s.AtToken c) : s.cursor.rest ≠ [] := by
  rintro hnil
  have hpeek := h.peek
  simp [Cursor.peek?, hnil] at hpeek

/-- The characters that begin no token of a kind of its own. -/
def Ordinary (c : Char) : Prop :=
  c ∉ ['/', '\x7b', '(', '\x7d', ')', '\x60', 'i', 'e'] ∧ isQuote c = false

/-- What a step reads, with what comes of it. -/
inductive Reading (s : Scan) : Except Analysis Scan → Prop where
  | finish (rest_eq : s.cursor.rest = []) : Reading s (.error s.finish)
  | gap {c : Char} {d : Cursor} (peek : s.cursor.peek? = some c)
      (isGap : (isSpace c || startsComment s.cursor.rest) = true)
      (skip : s.cursor.skipTrivia = .ok d) : Reading s (.ok { s with cursor := d })
  | unclosedGap {fault : SyntaxFault} (skip : s.cursor.skipTrivia = .error fault) :
      Reading s (.error (s.stop fault))
  | regex (token : s.AtToken '/') (allowed : s.regexAllowed = true) :
      Reading s (s.moveTo s.cursor.skipRegex)
  | division (token : s.AtToken '/') (allowed : s.regexAllowed = false) :
      Reading s (s.moveTo (.ok (s.cursor.advance 1)))
  | openBrace (token : s.AtToken '\x7b') :
      Reading s (.ok { s with braces := s.braces + 1 }.openBracket)
  | openParen (token : s.AtToken '(') : Reading s (.ok s.openBracket)
  | closeBrace (token : s.AtToken '\x7d') : Reading s s.closeBrace
  | closeParen (token : s.AtToken ')') : Reading s (s.closeBracket ')')
  | string {c : Char} (token : s.AtToken c) (isQuote_eq : isQuote c = true) :
      Reading s (s.moveTo s.cursor.skipString)
  | template (token : s.AtToken '\x60') : Reading s s.templateChunk
  | imports (token : s.AtToken 'i') :
      Reading s (s.take (importStatement (s.openers ≠ []) s.cursor))
  | exports (token : s.AtToken 'e') :
      Reading s (s.take (exportStatement (s.openers ≠ []) s.cursor))
  | char {c : Char} (token : s.AtToken c) (ordinary : Ordinary c) :
      Reading s (s.moveTo (.ok (s.cursor.advance 1)))

theorem reading_stepAt {s : Scan} {c : Char} (hpeek : s.cursor.peek? = some c) :
    Reading s (s.stepAt c) := by
  unfold stepAt
  split
  · rename_i hgap
    split
    · rename_i d hskip
      exact .gap hpeek hgap hskip
    · rename_i fault hskip
      exact .unclosedGap hskip
  rename_i hsolid
  have token : s.AtToken c := ⟨hpeek, hsolid⟩
  split
  · rename_i hslash
    split
    · rename_i hallowed
      exact .regex (hslash ▸ token) hallowed
    · rename_i hallowed
      exact .division (hslash ▸ token) (Bool.eq_false_iff.2 hallowed)
  rename_i hslash
  split
  · rename_i hc
    exact .openBrace (hc ▸ token)
  rename_i hopenBrace
  split
  · rename_i hc
    exact .openParen (hc ▸ token)
  rename_i hopenParen
  split
  · rename_i hc
    exact .closeBrace (hc ▸ token)
  rename_i hcloseBrace
  split
  · rename_i hc
    exact .closeParen (hc ▸ token)
  rename_i hcloseParen
  split
  · rename_i hquote
    exact .string token hquote
  rename_i hquote
  split
  · rename_i hc
    exact .template (hc ▸ token)
  rename_i htick
  split
  · rename_i hc
    exact .imports (hc ▸ token)
  rename_i hi
  split
  · rename_i hc
    exact .exports (hc ▸ token)
  rename_i he
  exact .char token ⟨by simp [*], Bool.eq_false_iff.2 hquote⟩

/-- **A step is one reading.** Invariants of the scan are shown reading by reading. -/
theorem reading_step (s : Scan) : Reading s s.step := by
  unfold step
  split
  · rename_i hrest
    exact .finish hrest
  · rename_i c rest hrest
    exact reading_stepAt (by simp [Cursor.peek?, hrest])

/-! ### Progress -/

theorem one_le_triviaLength {c : Char} {rest : List Char} {n : Nat} (hc : isSpace c = true)
    (hn : triviaLength (c :: rest) = .ok n) : 1 ≤ n := by
  unfold triviaLength triviaLengthIn at hn
  split at hn
  · simp_all [isSpace]
  · simp_all [isSpace]
  · rename_i h
    obtain ⟨rfl, rfl⟩ := List.cons.inj h
    simp only [hc, if_true] at hn
    obtain ⟨m, _, rfl⟩ := exists_of_map_eq_ok hn
    omega
  all_goals simp_all

theorem size_skipTrivia_gap_lt {c d : Cursor} {ch : Char} (hpeek : c.peek? = some ch)
    (hgap : (isSpace ch || startsComment c.rest) = true) (hskip : c.skipTrivia = .ok d) :
    d.size < c.size := by
  obtain ⟨rest, hrest⟩ : ∃ rest, c.rest = ch :: rest := List.head?_eq_some_iff.1 hpeek
  rcases Bool.or_eq_true _ _ ▸ hgap with hspace | hcomment
  · obtain ⟨n, hn, rfl⟩ := Cursor.skipTrivia_eq_advance hskip
    rw [hrest] at hn
    exact Cursor.size_advance_lt (one_le_triviaLength hspace hn) (by simp [hrest])
  · exact Cursor.size_skipTrivia_lt hcomment hskip

theorem size_closeBracket_lt {s t : Scan} {c : Char} (hs : s.cursor.rest ≠ [])
    (h : s.closeBracket c = .ok t) : t.cursor.size < s.cursor.size := by
  unfold closeBracket at h
  split at h
  · simp at h
  · have := Except.ok.inj h
    exact this ▸ Cursor.size_advance_lt Nat.one_pos hs

theorem size_templateChunk_lt {s t : Scan} (hs : s.cursor.rest ≠ [])
    (h : s.templateChunk = .ok t) : t.cursor.size < s.cursor.size := by
  unfold templateChunk at h
  split at h
  · simp at h
  · have := Except.ok.inj h
    exact this ▸ Cursor.size_advance_lt (by omega) hs
  · have := Except.ok.inj h
    exact this ▸ Cursor.size_advance_lt (by omega) hs

theorem size_closeBrace_lt {s t : Scan} (hs : s.cursor.rest ≠ [])
    (h : s.closeBrace = .ok t) : t.cursor.size < s.cursor.size := by
  unfold closeBrace at h
  split at h
  · exact size_templateChunk_lt
      (s := { s with braces := s.braces - 1, templates := s.templates.tail }) hs h
  split at h
  · simp at h
  · exact size_closeBracket_lt (s := { s with braces := s.braces - 1 }) hs h

theorem size_take_lt {s t : Scan} {statement : Statement}
    (hn : ∀ d, statement.next = .ok d → d.size < s.cursor.size)
    (h : s.take statement = .ok t) : t.cursor.size < s.cursor.size := by
  unfold take at h
  simp only at h
  split at h
  · rename_i d hd
    have := Except.ok.inj h
    exact this ▸ hn d hd
  · simp at h

theorem size_moveTo_lt {s t : Scan} {next : Except SyntaxFault Cursor}
    (hn : ∀ d, next = .ok d → d.size < s.cursor.size)
    (h : s.moveTo next = .ok t) : t.cursor.size < s.cursor.size := by
  unfold moveTo at h
  split at h
  · have := Except.ok.inj h
    exact this ▸ hn _ rfl
  · simp at h

theorem size_step_lt {s t : Scan} (h : s.step = .ok t) : t.cursor.size < s.cursor.size := by
  have hreading := s.reading_step
  generalize s.step = next at h hreading
  have hone {c : Char} (token : s.AtToken c) (d : Cursor)
      (hd : Except.ok (s.cursor.advance 1) = (.ok d : Except SyntaxFault Cursor)) :
      d.size < s.cursor.size :=
    Except.ok.inj hd ▸ Cursor.size_advance_lt Nat.one_pos token.rest_ne_nil
  cases hreading with
  | finish | unclosedGap => cases h
  | gap hpeek hgap hskip => exact Except.ok.inj h ▸ size_skipTrivia_gap_lt hpeek hgap hskip
  | regex token allowed =>
      refine size_moveTo_lt (fun d hd => ?_) h
      obtain ⟨n, rfl⟩ := Cursor.skipRegex_eq_advance hd
      exact Cursor.size_advance_lt (by omega) token.rest_ne_nil
  | division token allowed => exact size_moveTo_lt (hone token) h
  | openBrace token | openParen token =>
      exact Except.ok.inj h ▸ Cursor.size_advance_lt Nat.one_pos token.rest_ne_nil
  | closeBrace token => exact size_closeBrace_lt token.rest_ne_nil h
  | closeParen token => exact size_closeBracket_lt token.rest_ne_nil h
  | string token => exact size_moveTo_lt (fun d hd => Cursor.size_skipString_lt hd) h
  | template token => exact size_templateChunk_lt token.rest_ne_nil h
  | imports token =>
      exact size_take_lt (fun d hd => size_importStatement_lt token.rest_ne_nil hd) h
  | exports token =>
      exact size_take_lt (fun d hd => size_exportStatement_lt token.rest_ne_nil hd) h
  | char token => exact size_moveTo_lt (hone token) h

/-! ### The whole scan -/

/-- Reads tokens until the source ends or a fault is met. -/
def run (s : Scan) : Analysis :=
  match _h : s.step with
  | .ok t => t.run
  | .error analysis => analysis
termination_by s.cursor.size
decreasing_by exact size_step_lt _h

end Scan

/-- The imports and exports of a source. -/
def analyze (source : List Char) : Analysis := (Scan.start source).run

end ImportAtlas.Source
