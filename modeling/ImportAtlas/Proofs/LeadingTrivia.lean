import ImportAtlas.Proofs.ExportShifts

/-!
# White space and comments in front of a source

The analysis of a source with white space and complete comments in front of it is the analysis of
the source, further on in the text. The scan of the one is followed step by step in the scan of the
other; only the places where no token has been read yet are the same in both.

## Summary

* `Scan.later` is a state of the scan with some text in front of the source, `Analysis.later` the
  analysis further on.

## Main results

* `Scan.step_later`, `Scan.run_later`: a step and a run with text in front.
* `analyze_gap_append`: white space and comments in front only move what is found.
-/

namespace ImportAtlas.Source

variable {w : Past}

/-- An analysis, further on in the text. -/
def Analysis.later (k : Nat) (a : Analysis) : Analysis :=
  ⟨a.imports.map (.later k), a.exports, a.fault?.map (.later k)⟩

/-- What has been read as far as a token, with some text in front of the source: where no token has
been read, none has been read with the text either. -/
def laterToken (w past : Past) : Past := if past = [] then [] else past ++ w

theorem laterToken_of_ne_nil {past : Past} (h : past ≠ []) : laterToken w past = past ++ w :=
  if_neg h

namespace Scan

variable {s t : Scan}

/-- A state with some text in front of the source. -/
def later (w : Past) (s : Scan) : Scan where
  cursor := s.cursor.later w
  lastToken := laterToken w s.lastToken
  lastOpener := laterToken w s.lastOpener
  openers := s.openers.map (laterToken w)
  braces := s.braces
  templates := s.templates
  imports := s.imports.map (.later w.length)
  exports := s.exports

/-- How a step goes on, with some text in front of the source. -/
def laterStep (w : Past) : Except Analysis Scan → Except Analysis Scan
  | .ok t => .ok (t.later w)
  | .error a => .error (a.later w.length)

/-! ### Single steps -/

theorem finish_later : (s.later w).finish = s.finish.later w.length := by
  unfold finish
  simp only [later, ne_eq, List.map_eq_nil_iff]
  refine ite_eq_apply _ ?_ rfl
  rw [Cursor.later_fault]
  rfl

theorem token_later {c : Cursor} (hc : c.past ≠ []) :
    (s.later w).token (c.later w) = (s.token c).later w := by
  simp [token, later, laterToken_of_ne_nil hc]

theorem wordBehind_laterToken (hw : Bounded w) (past : Past) :
    wordBehind (laterToken w past) = wordBehind past := by
  unfold laterToken
  split
  · rename_i h
    rw [h]
  · exact wordBehind_append hw past

theorem head?_laterToken (past : Past) : (laterToken w past).head? = past.head? := by
  cases past <;> simp [laterToken]

theorem heldStatements_later (hw : Bounded w) (opener : Past) :
    heldStatements (laterToken w opener) = heldStatements opener := by
  simp only [heldStatements, head?_laterToken, wordBehind_laterToken hw]

theorem regexAllowed_later (hw : Bounded w) : (s.later w).regexAllowed = s.regexAllowed := by
  simp only [regexAllowed, later, head?_laterToken, wordBehind_laterToken hw,
    heldStatements_later hw]

/-! ### Steps -/

theorem openBracket_later (hs : s.cursor.rest ≠ []) :
    (s.later w).openBracket = s.openBracket.later w := by
  have htoken := token_later (s := { s with openers := s.lastToken :: s.openers }) (w := w)
    (past_advance_ne_nil (n := 0) hs)
  rw [← Cursor.later_advance] at htoken
  exact htoken

theorem closeBracket_later (ch : Char) (hs : s.cursor.rest ≠ []) :
    (s.later w).closeBracket ch = laterStep w (s.closeBracket ch) := by
  unfold closeBracket
  cases hopeners : s.openers with
  | nil =>
      simp only [later, hopeners, List.map_nil, Cursor.later_fault]
      rfl
  | cons opener openers =>
      have htoken := token_later (s := { s with openers, lastOpener := opener }) (w := w)
        (past_advance_ne_nil (n := 0) hs)
      rw [← Cursor.later_advance] at htoken
      simp only [later, hopeners, List.map_cons]
      exact congrArg Except.ok htoken

theorem templateChunk_later (hs : s.cursor.rest ≠ []) :
    (s.later w).templateChunk = laterStep w s.templateChunk := by
  unfold templateChunk
  rw [show (s.later w).cursor.rest = s.cursor.rest from rfl]
  rcases chunkLength? (s.cursor.rest.drop 1) with _ | ⟨_ | _, n⟩
  · have hfault : (s.later w).cursor.fault .unterminatedTemplate =
        (s.cursor.fault .unterminatedTemplate).later w.length := Cursor.later_fault _
    simp only [hfault]
    rfl
  · have htoken := token_later (s := s) (w := w) (past_advance_ne_nil (n := n) hs)
    rw [← Cursor.later_advance] at htoken
    exact congrArg Except.ok htoken
  · have htoken := token_later (s := { s with
        braces := s.braces + 1, templates := (s.braces + 1) :: s.templates }) (w := w)
      (past_advance_ne_nil (n := n) hs)
    rw [← Cursor.later_advance] at htoken
    exact congrArg Except.ok htoken

theorem closeBrace_later (hs : s.cursor.rest ≠ []) :
    (s.later w).closeBrace = laterStep w s.closeBrace := by
  unfold closeBrace
  refine ite_eq_apply _ ?_ (ite_eq_apply _ ?_ ?_)
  · exact templateChunk_later
      (s := { s with braces := s.braces - 1, templates := s.templates.tail }) hs
  · have hfault : (s.later w).cursor.fault (.unexpectedCloser '\x7d') =
        (s.cursor.fault (.unexpectedCloser '\x7d')).later w.length := Cursor.later_fault _
    rw [hfault]
    rfl
  · exact closeBracket_later (s := { s with braces := s.braces - 1 }) '\x7d' hs

theorem moveTo_later {next : Except SyntaxFault Cursor}
    (hnext : ∀ d, next = .ok d → d.past ≠ []) :
    (s.later w).moveTo (lateOutcome w (.later w) next) = laterStep w (s.moveTo next) := by
  cases next with
  | error f => rfl
  | ok d => exact congrArg Except.ok (token_later (hnext d rfl))

theorem take_later {statement : Statement} (hopener : ∀ past ∈ statement.opener?, past ≠ [])
    (hnext : ∀ d, statement.next = .ok d → d.past ≠ []) :
    (s.later w).take (statement.later w) = laterStep w (s.take statement) := by
  have hopeners : (statement.opener?.map (· ++ w)).toList ++ s.openers.map (laterToken w) =
      (statement.opener?.toList ++ s.openers).map (laterToken w) := by
    cases hpast : statement.opener? with
    | none => rfl
    | some past => simp [laterToken_of_ne_nil (hopener past hpast)]
  unfold take
  simp only [Statement.later, later]
  cases hd : statement.next with
  | error f => simp [laterStep, stop, Analysis.later]
  | ok d =>
      simp [laterStep, token, later, hopeners, laterToken_of_ne_nil (hnext d hd)]

end Scan

/-! ### Where statements go on -/

variable {c d : Cursor} {bracketed : Bool}

theorem past_ne_nil_of_onward (h : c.Onward d) (hlt : d.size < c.size) : d.past ≠ [] := by
  obtain ⟨taken, hbetween⟩ := h.exists_between
  have htaken : taken ≠ [] := by
    rintro rfl
    obtain rfl : d = c := by simpa using hbetween.eq_advance
    exact absurd hlt (Nat.lt_irrefl _)
  simp [hbetween.past_eq, htaken]

theorem past_importStatement (hc : c.rest ≠ [])
    (h : (importStatement bracketed c).next = .ok d) : d.past ≠ [] := by
  by_cases hkey : c.atKeyword "import".toList = true
  · exact past_ne_nil_of_onward ((importRead_of_next hkey h).onward hkey)
      (size_importStatement_lt hc h)
  · rw [importStatement, Bool.eq_false_iff.2 hkey] at h
    exact Except.ok.inj h ▸ past_advance_ne_nil hc

theorem past_exportStatement (hc : c.rest ≠ [])
    (h : (exportStatement bracketed c).next = .ok d) : d.past ≠ [] := by
  by_cases hkey : c.atKeyword "export".toList = true
  · exact past_ne_nil_of_onward ((gives_exportStatement bracketed hkey).yields.ok h)
      (size_exportStatement_lt hc h)
  · rw [exportStatement, Bool.eq_false_iff.2 hkey, Bool.not_false, Bool.or_true, if_pos rfl] at h
    exact Except.ok.inj h ▸ past_advance_ne_nil hc

/-- A statement that opens a bracket does so behind its keyword. -/
theorem opener?_importStatement (hc : c.rest ≠ []) :
    ∀ past ∈ (importStatement bracketed c).opener?, past ≠ [] := by
  intro past hpast
  unfold importStatement at hpast
  split at hpast
  · cases hpast
  split at hpast
  · cases hpast
  split at hpast
  · exact Option.some.inj hpast ▸ past_advance_ne_nil hc
  split at hpast
  · split at hpast
    · cases hpast
    · split at hpast <;> cases hpast
  split at hpast
  · cases hpast
  split at hpast
  · cases hpast
  · split at hpast <;> cases hpast

theorem opener?_exportStatement : (exportStatement bracketed c).opener? = none := by
  by_cases hkey : c.atKeyword "export".toList = true
  · exact (gives_exportStatement bracketed hkey).opener?_eq
  · rw [exportStatement, Bool.eq_false_iff.2 hkey, Bool.not_false, Bool.or_true, if_pos rfl]
    rfl

namespace Scan

variable {s t : Scan}

theorem stepAt_later (hw : Bounded w) (ch : Char) (hs : s.cursor.rest ≠ []) :
    (s.later w).stepAt ch = laterStep w (s.stepAt ch) := by
  have hcursor : (s.later w).cursor = s.cursor.later w := rfl
  have hbracketed : decide ((s.later w).openers ≠ []) = decide (s.openers ≠ []) := by
    simp [later]
  have hmove {next : Except SyntaxFault Cursor} (hnext : ∀ d, next = .ok d → d.past ≠ []) :=
    moveTo_later (s := s) (w := w) hnext
  have hone : ∀ d, Except.ok (s.cursor.advance 1) = (.ok d : Except SyntaxFault Cursor) →
      d.past ≠ [] := fun d hd => Except.ok.inj hd ▸ past_advance_ne_nil hs
  unfold stepAt
  rw [hcursor, hbracketed, regexAllowed_later hw, Cursor.later_skipTrivia, Cursor.later_skipRegex,
    Cursor.later_skipString, Cursor.later_advance, importStatement_later hw,
    exportStatement_later hw, Cursor.later_rest]
  refine ite_eq_apply _ ?gap (ite_eq_apply _ (ite_eq_apply _ ?regex (hmove hone))
    (ite_eq_apply _ ?brace (ite_eq_apply _ ?paren (ite_eq_apply _ (closeBrace_later hs)
    (ite_eq_apply _ (closeBracket_later ')' hs) (ite_eq_apply _ ?string
    (ite_eq_apply _ (templateChunk_later hs) (ite_eq_apply _ ?imports
    (ite_eq_apply _ ?exports (hmove hone))))))))))
  case gap => cases s.cursor.skipTrivia <;> rfl
  case regex =>
    refine hmove fun d hd => ?_
    obtain ⟨n, rfl⟩ := Cursor.skipRegex_eq_advance hd
    exact past_advance_ne_nil hs
  case brace =>
    exact congrArg Except.ok (openBracket_later (s := { s with braces := s.braces + 1 }) hs)
  case paren => exact congrArg Except.ok (openBracket_later hs)
  case string =>
    refine hmove fun d hd => ?_
    obtain ⟨n, rfl, -⟩ := Cursor.skipString_eq_advance hd
    exact past_advance_ne_nil hs
  case imports =>
    exact take_later (opener?_importStatement hs) fun d hd => past_importStatement hs hd
  case exports =>
    exact take_later (by simp [opener?_exportStatement]) fun d hd => past_exportStatement hs hd

/-- A step with some text in front of the source. -/
theorem step_later (hw : Bounded w) : (s.later w).step = laterStep w s.step := by
  cases hrest : s.cursor.rest with
  | nil =>
      have hrest' : (s.later w).cursor.rest = [] := hrest
      rw [step, step, hrest, hrest', finish_later]
      rfl
  | cons ch rest =>
      have hs : s.cursor.rest ≠ [] := by simp [hrest]
      rw [step_of_rest hrest, step_of_rest (show (s.later w).cursor.rest = ch :: rest from hrest),
        stepAt_later hw ch hs]

/-- A run with some text in front of the source. -/
theorem run_later (hw : Bounded w) : (s.later w).run = s.run.later w.length := by
  induction hn : s.cursor.size using Nat.strong_induction_on generalizing s with
  | _ n ih =>
      have hstep := step_later (s := s) hw
      cases h : s.step with
      | error a =>
          rw [h] at hstep
          rw [run_of_step_error h, run_of_step_error hstep]
      | ok t =>
          rw [h] at hstep
          rw [run_of_step h, run_of_step hstep, ih _ (hn ▸ size_step_lt h) rfl]

end Scan

open Scan

/-! ### The whole analysis -/

/-- White space and complete comments are passed over, whatever comes behind them. -/
theorem Cursor.skipTrivia_gap_append (gap : Gap) (past : Past) (rest : List Char) :
    (⟨past, gap.text ++ rest⟩ : Cursor).skipTrivia =
      (⟨gap.text.reverse ++ past, rest⟩ : Cursor).skipTrivia := by
  have hlater : triviaLengthIn (0 + gap.text.length) .space rest =
      (triviaLength rest).mapError (.later gap.text.length) := triviaLengthIn_later _ .space 0 rest
  unfold skipTrivia
  rw [triviaLength, triviaLengthIn_fillers, hlater]
  cases triviaLength rest with
  | ok n =>
      have hadvance := advance_append past gap.text rest
      simp [Except.mapError, Except.map, Nat.add_comm n, Cursor.advance_add, hadvance]
  | error f =>
      simp [Except.mapError, Except.map, SyntaxFault.later, faultFrom, offset]
      omega

/-- White space and complete comments in front of a source only move what is found, and the fault
if there is one. -/
theorem analyze_gap_append (gap : Gap) (source : List Char) :
    analyze (gap.text ++ source) = (analyze source).later gap.text.length := by
  have hbounded : Bounded gap.text.reverse := by
    simpa using @Bounded.gap [] (by simp [Bounded]) gap
  have hrun := run_later (s := start source) hbounded
  rw [List.length_reverse] at hrun
  have hskip := Cursor.skipTrivia_gap_append gap [] source
  rw [List.append_nil] at hskip
  refine Eq.trans ?_ hrun
  cases h : (⟨[], gap.text ++ source⟩ : Cursor).skipTrivia with
  | error f =>
      rw [h] at hskip
      rw [analyze, run_of_step_error (step_of_gap_error (s := start (gap.text ++ source)) h),
        run_of_step_error
          (step_of_gap_error (s := (start source).later gap.text.reverse) hskip.symm)]
      rfl
  | ok d =>
      rw [h] at hskip
      rw [analyze, run_of_skipTrivia (s := start (gap.text ++ source)) h,
        run_of_skipTrivia (s := (start source).later gap.text.reverse) hskip.symm]
      rfl

end ImportAtlas.Source
