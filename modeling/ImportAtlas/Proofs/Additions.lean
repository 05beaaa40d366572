import ImportAtlas.Source.Scan
import ImportAtlas.Proofs.ExportStatements

/-!
# The scan over tokens

What the rest of the analysis adds to what has been found, one token of a spelling at a time. The
rules go backwards: what the analysis adds from a place on follows from what it adds from the place
behind the next token on.

## Summary

* `Adds` says what the analysis adds from a place on, with some brackets open.
* `Token.Inert` are the tokens that the scan only passes over.

## Main results

* `Adds.of_inerts`, `Adds.of_parens`, `Adds.of_braces`: tokens and pairs that add nothing.
* `Adds.of_import`, `Adds.of_export`: a statement adds what it holds.
* `recordsFrom_append`: records of pieces are read off one after the other.
-/

namespace ImportAtlas.Source

variable {past : Past} {pieces more : List Piece} {last : Gap} {imports : List ImportRecord}
  {exports : List String} {parens braces : Nat}

/-- From a place on, with some brackets open, the analysis adds imports and exports to what has
been found, and meets no fault. -/
def Adds (parens braces : Nat) (c : Cursor) (imports : List ImportRecord)
    (exports : List String) : Prop :=
  ∀ s : Scan, s.cursor = c → s.openers.length = parens + braces → s.braces = braces →
    s.templates = [] → s.run = ⟨s.imports ++ imports, s.exports ++ exports, none⟩

/-- A token that begins no statement and opens and closes nothing. -/
def Token.Inert : Token → Prop
  | .word w => w.chars ≠ "import".toList ∧ w.chars ≠ "export".toList
  | .mark m => m = .star ∨ m = .comma ∨ m = .equals ∨ m = .semicolon
  | _ => True

namespace Scan

theorem run_of_step {s t : Scan} (h : s.step = .ok t) : s.run = t.run := by
  rw [run]
  split
  · rename_i t' h'
    rw [Except.ok.inj (h.symm.trans h')]
  · rename_i a h'
    cases h.symm.trans h'

theorem step_of_rest {s : Scan} {c : Char} {rest : List Char} (h : s.cursor.rest = c :: rest) :
    s.step = s.stepAt c := by
  rw [step, h]

end Scan

namespace Adds

/-! ### Steps -/

theorem nil : Adds 0 0 ⟨past, []⟩ [] [] := by
  intro s hc hopeners hbraces htemplates
  have hstep : s.step = .error s.finish := by rw [Scan.step, hc]
  rw [Scan.run]
  split
  · rename_i t h
    cases hstep.symm.trans h
  · rename_i a h
    obtain rfl := Except.error.inj (hstep.symm.trans h)
    have : s.openers = [] := List.length_eq_zero_iff.1 hopeners
    simp [Scan.finish, this, hbraces, htemplates]

/-- A step that only moves on. -/
theorem of_token {c d : Cursor} (h : Adds parens braces d imports exports)
    (hstep : ∀ s : Scan, s.cursor = c → s.step = .ok (s.token d)) :
    Adds parens braces c imports exports := by
  intro s hc hopeners hbraces htemplates
  rw [Scan.run_of_step (hstep s hc)]
  exact h (s.token d) rfl hopeners hbraces htemplates

/-- A statement outside of brackets. -/
theorem of_statement {c d : Cursor} {statement : Statement}
    (h : Adds statement.opener?.toList.length 0 d imports exports) (hd : statement.next = .ok d)
    (hstep : ∀ s : Scan, s.cursor = c → s.openers = [] → s.step = s.take statement) :
    Adds 0 0 c (statement.imports ++ imports) (statement.exports ++ exports) := by
  intro s hc hopeners hbraces htemplates
  have hopeners' : s.openers = [] := List.length_eq_zero_iff.1 hopeners
  let t : Scan := { s with
    cursor := d
    lastToken := d.past
    openers := statement.opener?.toList ++ s.openers
    imports := s.imports ++ statement.imports
    exports := s.exports ++ statement.exports }
  have htake : s.step = .ok t := by
    rw [hstep s hc hopeners']
    simp only [Scan.take, hd]
    rfl
  rw [Scan.run_of_step htake, h t rfl (by simp [t, hopeners']) hbraces htemplates]
  simp [t]

theorem of_gap {gap : Gap} {rest : List Char} (hrest : Solid rest)
    (h : Adds parens braces ⟨gap.text.reverse ++ past, rest⟩ imports exports) :
    Adds parens braces ⟨past, gap.text ++ rest⟩ imports exports := by
  rcases gap with _ | ⟨f, gap⟩
  · exact h
  obtain ⟨c, cs, hcs, hstart⟩ : ∃ c cs, Gap.text (f :: gap) ++ rest = c :: cs ∧
      (isSpace c || startsComment (c :: cs)) = true := by
    cases f with
    | space c hc => exact ⟨c, Gap.text gap ++ rest, rfl, by simp [hc]⟩
    | line content stop hc hs => exact ⟨'/', _, rfl, rfl⟩
    | block content hc => exact ⟨'/', _, rfl, rfl⟩
  intro s hc hopeners hbraces htemplates
  have hskip : s.cursor.skipTrivia = .ok ⟨(Gap.text (f :: gap)).reverse ++ past, rest⟩ := by
    rw [hc, Cursor.skipTrivia, triviaLength_gap _ hrest]
    exact congrArg Except.ok (Cursor.advance_append ..)
  have hrest' : s.cursor.rest = c :: cs := by rw [hc]; exact hcs
  have hstep : s.step =
      .ok { s with cursor := ⟨(Gap.text (f :: gap)).reverse ++ past, rest⟩ } := by
    rw [Scan.step_of_rest hrest', Scan.stepAt, hrest', if_pos hstart, hskip]
  rw [Scan.run_of_step hstep]
  exact h _ rfl hopeners hbraces htemplates

theorem of_atToken (h : Adds parens braces (.atToken past pieces last) imports exports) :
    Adds parens braces (.inFront past pieces last) imports exports := by
  cases pieces with
  | nil =>
      have : Adds parens braces ⟨past, last.text ++ []⟩ imports exports :=
        of_gap (by simp [Solid]) h
      simpa [Cursor.inFront, spelled] using this
  | cons p pieces =>
      have := of_gap (p.token.solid (spelled pieces last)) h
      simpa [Cursor.inFront, spelled, Piece.text] using this

/-! ### Tokens that change nothing -/

/-- At a character of a word that is no keyword the scan moves on. -/
theorem step_identifierChar {s : Scan} {c : Char} {cs : List Char} (hc : isIdentifierChar c = true)
    (hrest : s.cursor.rest = c :: cs)
    (himport : s.cursor.atKeyword "import".toList = false)
    (hexport : s.cursor.atKeyword "export".toList = false) :
    s.step = .ok (s.token (s.cursor.advance 1)) := by
  have hs := isSpace_of_isIdentifierChar hc
  have hq := isQuote_of_isIdentifierChar hc
  have hne {d : Char} (hd : isIdentifierChar d = false) : c ≠ d := by
    rintro rfl
    rw [hc] at hd
    cases hd
  have hcomment : startsComment (c :: cs) = false := by
    unfold startsComment
    split
    · rename_i h
      exact absurd (List.cons.inj h).1 (hne (by decide))
    · rename_i h
      exact absurd (List.cons.inj h).1 (hne (by decide))
    · rfl
  have htake : s.take (.plain (.ok (s.cursor.advance 1))) = .ok (s.token (s.cursor.advance 1)) := by
    simp [Scan.take, Statement.plain]
  rw [Scan.step_of_rest hrest, Scan.stepAt, hrest]
  simp only [hs, hcomment, hq, Bool.or_self, Bool.false_eq_true, if_false,
    if_neg (hne (d := '/') (by decide)), if_neg (hne (d := '\x7b') (by decide)),
    if_neg (hne (d := '(') (by decide)), if_neg (hne (d := '\x7d') (by decide)),
    if_neg (hne (d := ')') (by decide)), if_neg (hne (d := '\x60') (by decide)),
    importStatement, exportStatement, himport, hexport, Bool.not_false, Bool.or_true, if_true,
    htake, Scan.moveTo, ite_self]

theorem atKeyword_of_identifierChar {b : Char} {rest keyword : List Char}
    (hb : isIdentifierChar b = true) :
    (⟨b :: past, rest⟩ : Cursor).atKeyword keyword = false := by
  simp [Cursor.atKeyword, isSpace_of_isIdentifierChar hb, isPunctuator_of_isIdentifierChar hb]

/-- The rest of a word. -/
theorem of_word_tail {chars rest : List Char} {b : Char} (hb : isIdentifierChar b = true)
    (hw : ∀ c ∈ chars, isIdentifierChar c = true)
    (h : Adds parens braces ⟨chars.reverse ++ b :: past, rest⟩ imports exports) :
    Adds parens braces ⟨b :: past, chars ++ rest⟩ imports exports := by
  induction chars generalizing b past with
  | nil => exact h
  | cons c chars ih =>
      rw [List.forall_mem_cons] at hw
      have hnext : Adds parens braces ⟨c :: b :: past, chars ++ rest⟩ imports exports :=
        ih hw.1 hw.2 (by simpa using h)
      refine of_token hnext fun s hc => ?_
      have hrest : s.cursor.rest = c :: (chars ++ rest) := by rw [hc]; rfl
      have hstep := step_identifierChar hw.1 hrest
        (by rw [hc]; exact atKeyword_of_identifierChar hb)
        (by rw [hc]; exact atKeyword_of_identifierChar hb)
      rw [hstep, hc]
      rfl

/-- A word that is no keyword. -/
theorem of_identifier (name : Identifier) {rest : List Char} (hend : EndsWord rest)
    (h : Adds parens braces ⟨name.chars.reverse ++ past, rest⟩ imports exports) :
    Adds parens braces ⟨past, name.chars ++ rest⟩ imports exports := by
  have hword {keyword : List Char} (hk : ∀ c ∈ keyword, isIdentifierChar c = true)
      (hne : name.chars ≠ keyword) :
      (⟨past, name.chars ++ rest⟩ : Cursor).atKeyword keyword = false :=
    Bool.eq_false_iff.2 fun hkey => hne (eq_of_atKeyword name.isIdentifierChar_eq hk hend hkey)
  have himport := hword (List.all_eq_true.1 rfl) name.ne_import
  have hexport := hword (List.all_eq_true.1 rfl) name.ne_export
  obtain ⟨c, chars, hchars⟩ := List.exists_cons_of_ne_nil name.chars_ne_nil
  have hw := name.isIdentifierChar_eq
  rw [hchars] at h hw himport hexport ⊢
  rw [List.forall_mem_cons] at hw
  refine of_token (d := ⟨c :: past, chars ++ rest⟩)
    (of_word_tail hw.1 hw.2 (by simpa using h)) fun s hc => ?_
  have hrest : s.cursor.rest = c :: (chars ++ rest) := by rw [hc]; rfl
  rw [step_identifierChar hw.1 hrest (by rw [hc]; exact himport) (by rw [hc]; exact hexport), hc]
  rfl

/-- Punctuation that opens and closes nothing. -/
theorem of_mark {m : Mark} {rest : List Char}
    (hm : m = .star ∨ m = .comma ∨ m = .equals ∨ m = .semicolon)
    (h : Adds parens braces ⟨m.char :: past, rest⟩ imports exports) :
    Adds parens braces ⟨past, m.char :: rest⟩ imports exports := by
  refine of_token h fun s hc => ?_
  have hrest : s.cursor.rest = m.char :: rest := by rw [hc]
  rw [Scan.step_of_rest hrest, Scan.stepAt, hc]
  rcases hm with rfl | rfl | rfl | rfl <;> rfl

/-- A string. -/
theorem of_quoted {q : Quoted} {rest : List Char}
    (h : Adds parens braces ⟨q.text.reverse ++ past, rest⟩ imports exports) :
    Adds parens braces ⟨past, q.text ++ rest⟩ imports exports := by
  refine of_token h fun s hc => ?_
  have hskip := Cursor.skipString_quoted past q rest
  rw [← hc] at hskip
  have hmove : s.moveTo s.cursor.skipString = .ok (s.token ⟨q.text.reverse ++ past, rest⟩) := by
    rw [hskip]
    rfl
  have hrest : s.cursor.rest = q.quote :: (q.content ++ q.quote :: rest) := by
    rw [hc]
    simp [Quoted.text]
  have hq := q.isQuote_eq
  rw [← hmove, Scan.step_of_rest hrest, Scan.stepAt, hrest]
  simp only [isQuote, Bool.or_eq_true, beq_iff_eq] at hq
  rcases hq with hq | hq <;> rw [hq] <;> rfl

/-- A template. -/
theorem of_template {t : Template} {rest : List Char}
    (h : Adds parens braces ⟨t.text.reverse ++ past, rest⟩ imports exports) :
    Adds parens braces ⟨past, t.text ++ rest⟩ imports exports := by
  refine of_token h fun s hc => ?_
  have hrest : s.cursor.rest = '\x60' :: (t.content ++ '\x60' :: rest) := by
    rw [hc]
    simp [Template.text]
  have hstep : s.step = s.templateChunk := by
    rw [Scan.step_of_rest hrest, Scan.stepAt, hrest]
    rfl
  have hadv : s.cursor.advance (t.content.length + 1 + 1) = ⟨t.text.reverse ++ past, rest⟩ := by
    have := Cursor.advance_append past t.text rest
    rw [hc, ← this]
    congr 1
    simp [Template.text]
  rw [hstep, Scan.templateChunk, hrest]
  simp only [List.drop_one, List.tail_cons, chunkLength?_template t.isTemplateContent, hadv]

/-! ### Brackets -/

theorem of_openParen {rest : List Char}
    (h : Adds (parens + 1) braces ⟨'(' :: past, rest⟩ imports exports) :
    Adds parens braces ⟨past, '(' :: rest⟩ imports exports := by
  intro s hc hopeners hbraces htemplates
  have hstep : s.step = .ok s.openBracket := by
    have hrest : s.cursor.rest = '(' :: rest := by rw [hc]
    rw [Scan.step_of_rest hrest, Scan.stepAt, hc]
    rfl
  rw [Scan.run_of_step hstep]
  refine h s.openBracket ?_ ?_ hbraces htemplates
  · simp [Scan.openBracket, Scan.token, hc, Cursor.advance]
  · simp only [Scan.openBracket, Scan.token, List.length_cons, hopeners]
    omega

theorem of_closeParen {rest : List Char}
    (h : Adds parens braces ⟨')' :: past, rest⟩ imports exports) :
    Adds (parens + 1) braces ⟨past, ')' :: rest⟩ imports exports := by
  intro s hc hopeners hbraces htemplates
  obtain ⟨opener, openers, hs⟩ := List.exists_cons_of_length_eq_add_one
    (hopeners.trans (Nat.add_right_comm parens 1 braces))
  have hstep : s.step = .ok ({ s with openers, lastOpener := opener }.token
      (s.cursor.advance 1)) := by
    have hclose : s.step = s.closeBracket ')' := by
      have hrest : s.cursor.rest = ')' :: rest := by rw [hc]
      rw [Scan.step_of_rest hrest, Scan.stepAt, hc]
      rfl
    rw [hclose, Scan.closeBracket, hs]
  rw [Scan.run_of_step hstep]
  refine h _ ?_ ?_ hbraces htemplates
  · simp [Scan.token, hc, Cursor.advance]
  · rw [hs, List.length_cons] at hopeners
    simp only [Scan.token]
    omega

theorem of_openBrace {rest : List Char}
    (h : Adds parens (braces + 1) ⟨'\x7b' :: past, rest⟩ imports exports) :
    Adds parens braces ⟨past, '\x7b' :: rest⟩ imports exports := by
  intro s hc hopeners hbraces htemplates
  have hstep : s.step = .ok { s with braces := s.braces + 1 }.openBracket := by
    have hrest : s.cursor.rest = '\x7b' :: rest := by rw [hc]
    rw [Scan.step_of_rest hrest, Scan.stepAt, hc]
    rfl
  rw [Scan.run_of_step hstep]
  refine h _ ?_ ?_ (congrArg (· + 1) hbraces) htemplates
  · simp [Scan.openBracket, Scan.token, hc, Cursor.advance]
  · simp only [Scan.openBracket, Scan.token, List.length_cons, hopeners]
    omega

theorem of_closeBrace {rest : List Char}
    (h : Adds parens braces ⟨'\x7d' :: past, rest⟩ imports exports) :
    Adds parens (braces + 1) ⟨past, '\x7d' :: rest⟩ imports exports := by
  intro s hc hopeners hbraces htemplates
  obtain ⟨opener, openers, hs⟩ := List.exists_cons_of_length_eq_add_one hopeners
  have hstep : s.step = .ok ({ s with
      openers, lastOpener := opener, braces := s.braces - 1 }.token (s.cursor.advance 1)) := by
    have hclose : s.step = s.closeBrace := by
      have hrest : s.cursor.rest = '\x7d' :: rest := by rw [hc]
      rw [Scan.step_of_rest hrest, Scan.stepAt, hc]
      rfl
    rw [hclose, Scan.closeBrace, htemplates, hbraces]
    simp [Scan.closeBracket, hs]
  rw [Scan.run_of_step hstep]
  refine h _ ?_ ?_ ?_ htemplates
  · simp [Scan.token, hc, Cursor.advance]
  · rw [hs, List.length_cons] at hopeners
    simp only [Scan.token]
    omega
  · simp [Scan.token, hbraces]

/-! ### Pieces -/

theorem behind_singleton (past : Past) (p : Piece) :
    behind past [p] = p.token.text.reverse ++ (p.gap.text.reverse ++ past) := by
  simp [behind, Piece.text]

theorem of_inert {p : Piece} (hp : p.token.Inert) (hs : Separated (p :: pieces))
    (h : Adds parens braces (.inFront (behind past [p]) pieces last) imports exports) :
    Adds parens braces (.inFront past (p :: pieces) last) imports exports := by
  refine of_atToken ?_
  rw [behind_singleton] at h
  obtain ⟨g, t⟩ := p
  cases t with
  | word w =>
      exact of_identifier ⟨w, hp.1, hp.2⟩ (hs.endsWord rfl last) h
  | mark m => exact of_mark hp h
  | literal l =>
      cases l with
      | string q => exact of_quoted h
      | template t => exact of_template h
  | source q => exact of_quoted h
  | argument q => exact of_quoted h

theorem of_inerts (hp : ∀ p ∈ pieces, p.token.Inert) (hs : Separated (pieces ++ more))
    (h : Adds parens braces (.inFront (behind past pieces) more last) imports exports) :
    Adds parens braces (.inFront past (pieces ++ more) last) imports exports := by
  induction pieces generalizing past with
  | nil => exact h
  | cons p pieces ih =>
      rw [List.forall_mem_cons] at hp
      exact of_inert hp.1 hs (ih hp.2 hs.tail h)

theorem of_bracket {g : Gap} {m : Mark} {parens' braces' : Nat}
    (hm : ∀ {past : Past} {rest : List Char},
      Adds parens' braces' ⟨m.char :: past, rest⟩ imports exports →
        Adds parens braces ⟨past, m.char :: rest⟩ imports exports)
    (h : Adds parens' braces' (.inFront (behind past [⟨g, .mark m⟩]) pieces last) imports exports) :
    Adds parens braces (.inFront past (⟨g, .mark m⟩ :: pieces) last) imports exports := by
  rw [behind_singleton] at h
  exact of_atToken (hm h)

/-- Parentheses without content. -/
theorem of_parens {g g' : Gap}
    (h : Adds parens braces (.inFront (behind past [⟨g, .mark .openParen⟩, ⟨g', .mark .closeParen⟩])
      more last) imports exports) :
    Adds parens braces (.inFront past (⟨g, .mark .openParen⟩ :: ⟨g', .mark .closeParen⟩ :: more)
      last) imports exports :=
  of_bracket of_openParen (of_bracket of_closeParen h)

/-- Braces without content. -/
theorem of_braces {g g' : Gap}
    (h : Adds parens braces (.inFront (behind past [⟨g, .mark .openBrace⟩, ⟨g', .mark .closeBrace⟩])
      more last) imports exports) :
    Adds parens braces (.inFront past (⟨g, .mark .openBrace⟩ :: ⟨g', .mark .closeBrace⟩ :: more)
      last) imports exports :=
  of_bracket of_openBrace (of_bracket of_closeBrace h)

/-! ### Statements -/

theorem of_import {g : Gap} {statement : Statement} {d : Cursor}
    (hstatement : importStatement false
      (.atToken past (⟨g, .word importWord⟩ :: pieces) last) = statement)
    (hd : statement.next = .ok d)
    (h : Adds statement.opener?.toList.length 0 d imports exports) :
    Adds 0 0 (.inFront past (⟨g, .word importWord⟩ :: pieces) last)
      (statement.imports ++ imports) (statement.exports ++ exports) := by
  refine of_atToken (of_statement h hd fun s hc hopeners => ?_)
  have hrest : s.cursor.rest = 'i' :: ("mport".toList ++ spelled pieces last) := by rw [hc]; rfl
  have hstep : s.step = s.take (importStatement (s.openers ≠ []) s.cursor) := by
    rw [Scan.step_of_rest hrest, Scan.stepAt, hrest]
    rfl
  rw [hstep, hc, ← hstatement, hopeners]
  rfl

theorem of_export {g : Gap} {statement : Statement} {d : Cursor}
    (hstatement : exportStatement false
      (.atToken past (⟨g, .word exportWord⟩ :: pieces) last) = statement)
    (hd : statement.next = .ok d)
    (h : Adds statement.opener?.toList.length 0 d imports exports) :
    Adds 0 0 (.inFront past (⟨g, .word exportWord⟩ :: pieces) last)
      (statement.imports ++ imports) (statement.exports ++ exports) := by
  refine of_atToken (of_statement h hd fun s hc hopeners => ?_)
  have hrest : s.cursor.rest = 'e' :: ("xport".toList ++ spelled pieces last) := by rw [hc]; rfl
  have hstep : s.step = s.take (exportStatement (s.openers ≠ []) s.cursor) := by
    rw [Scan.step_of_rest hrest, Scan.stepAt, hrest]
    rfl
  rw [hstep, hc, ← hstatement, hopeners]
  rfl

end Adds

/-! ### Records -/

theorem recordsFrom_cons (past : Past) (p : Piece) (pieces : List Piece) :
    recordsFrom past.length (p :: pieces) =
      p.records past.length ++ recordsFrom (behind past [p]).length pieces := by
  rw [recordsFrom, length_behind]
  simp

theorem recordsFrom_append (past : Past) (pieces more : List Piece) :
    recordsFrom past.length (pieces ++ more) =
      recordsFrom past.length pieces ++ recordsFrom (behind past pieces).length more := by
  induction pieces generalizing past with
  | nil => rfl
  | cons p pieces ih =>
      rw [List.cons_append, recordsFrom_cons, recordsFrom_cons, ih, List.append_assoc]
      rfl

/-- Tokens that name no module leave no records. -/
theorem recordsFrom_eq_nil {pieces : List Piece} (h : ∀ p ∈ pieces, p.token.specifier? = none)
    (offset : Nat) : recordsFrom offset pieces = [] := by
  induction pieces generalizing offset with
  | nil => rfl
  | cons p pieces ih =>
      rw [List.forall_mem_cons] at h
      rw [recordsFrom, ih h.2, List.append_nil, Piece.records]
      obtain ⟨g, t⟩ := p
      cases t <;> simp_all [Token.specifier?]

/-- Only the pieces behind tokens that name no module leave records. -/
theorem recordsFrom_append_of_silent (past : Past) (before after : List Piece)
    (hbefore : ∀ p ∈ before, p.token.specifier? = none) :
    recordsFrom past.length (before ++ after) = recordsFrom (behind past before).length after := by
  rw [recordsFrom_append, recordsFrom_eq_nil hbefore, List.nil_append]

/-- The record of the one specifier among some pieces. -/
theorem recordsFrom_single (past : Past) (before : List Piece) (p : Piece) (after : List Piece)
    (hbefore : ∀ p ∈ before, p.token.specifier? = none)
    (hafter : ∀ p ∈ after, p.token.specifier? = none) :
    recordsFrom past.length (before ++ p :: after) = p.records (behind past before).length := by
  rw [recordsFrom_append_of_silent past before _ hbefore, recordsFrom_cons,
    recordsFrom_eq_nil hafter, List.append_nil]

end ImportAtlas.Source
