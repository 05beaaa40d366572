import ImportAtlas.Proofs.Records
import ImportAtlas.Proofs.Lookahead

/-!
# The arguments of calls

The look ahead at the argument of a call and the scan, which reads the same text again, agree: a
call is resolvable exactly if the scan pairs its parenthesis with one behind a single literal, and a
fault that the look ahead keeps to itself ends the scan.

## Summary

* `Scan.Calls` is the step that records a call.
* `Scan.Pairs` says which step closes the bracket that was opened last.
* `readArgument` is the look ahead with its faults.

## Main results

* `Scan.Pairs.unique`, `Scan.exists_pairs`: in an accepted source every bracket is paired once.
* `plainArgument?_of_encloses`, `encloses_of_plainArgument?`: what the look ahead finds, by the text.
* `dynamic_imports_paired`: the look ahead agrees with the scan, and hides no fault.
-/

namespace ImportAtlas.Source

/-! ### The look ahead -/

variable {c d first after close : Cursor} {l : PlainLiteral} {f : SyntaxFault}

/-- The place behind a template that comes next, if it has no substitution. -/
def Cursor.readTemplate (c : Cursor) : Except SyntaxFault (Option Cursor) :=
  match chunkLength? (c.rest.drop 1) with
  | none => .error (c.fault .unterminatedTemplate)
  | some (.closed, n) => .ok (some (c.advance (n + 1)))
  | some (.substitution, _) => .ok none

/-- The places before and after the literal at the start of an argument, if there is one. -/
def Cursor.readLiteral (c : Cursor) : Except SyntaxFault (Option Cursor) :=
  if c.atQuote then c.skipString.map some
  else if c.peek? = some '\x60' then c.readTemplate
  else .ok none

/-- The look ahead at an argument, with the fault that ends it. -/
def readArgument (c : Cursor) : Except SyntaxFault (Option (Cursor × Cursor)) :=
  match c.skipTrivia with
  | .error f => .error f
  | .ok first =>
    match first.readLiteral with
    | .error f => .error f
    | .ok none => .ok none
    | .ok (some after) =>
      after.skipTrivia.map fun close =>
        if close.peek? = some ')' then some (first, after) else none

theorem Cursor.readTemplate_eq_some :
    c.readTemplate = .ok (some d) ↔ c.skipPlainTemplate? = some d := by
  unfold readTemplate skipPlainTemplate? plainTemplateLength?
  split
  · rename_i hchunk
    simp only [hchunk]
    simp
  · rename_i n hchunk
    obtain ⟨content, rest, -, -, rfl⟩ := exists_of_chunkLength? hchunk
    simp only [hchunk]
    simp [ChunkEnd.mark]
  · rename_i n hchunk
    simp only [hchunk]
    simp

theorem Cursor.readLiteral_eq_some : c.readLiteral = .ok (some d) ↔ c.PlainText d := by
  unfold readLiteral
  constructor
  · intro h
    split at h
    · rename_i hquote
      obtain ⟨e, he, heq⟩ := exists_of_map_eq_ok h
      obtain rfl := Option.some.inj heq
      exact .string hquote he
    split at h
    · exact .template ‹_› (readTemplate_eq_some.1 h)
    · cases h
  · rintro (⟨hquote, hskip⟩ | ⟨hpeek, hskip⟩)
    · rw [if_pos hquote, hskip]
      rfl
    · have hquote : ¬ c.atQuote = true := by simp [atQuote, hpeek, isQuote]
      rw [if_neg hquote, if_pos hpeek, readTemplate_eq_some.2 hskip]

theorem readArgument_eq_some : readArgument c = .ok (some (first, after)) ↔
    c.skipTrivia = .ok first ∧ first.PlainText after ∧
      ∃ close, after.skipTrivia = .ok close ∧ close.peek? = some ')' := by
  unfold readArgument
  constructor
  · intro h
    split at h
    · cases h
    rename_i first' hfirst
    split at h
    · cases h
    · cases h
    rename_i after' hafter
    obtain ⟨close, hclose, heq⟩ := exists_of_map_eq_ok h
    split at heq
    · rename_i hparen
      obtain ⟨rfl, rfl⟩ := Prod.mk.inj (Option.some.inj heq)
      exact ⟨hfirst, Cursor.readLiteral_eq_some.1 hafter, close, hclose, hparen⟩
    · cases heq
  · rintro ⟨hfirst, hliteral, close, hclose, hparen⟩
    simp [hfirst, Cursor.readLiteral_eq_some.2 hliteral, hclose, Except.map, hparen]

/-- The look ahead gives nothing where it meets a fault. -/
theorem plainArgument?_eq_readArgument (c : Cursor) :
    plainArgument? c = (readArgument c).toOption.join := by
  ext ⟨first, after⟩
  rw [Cursor.plainArgument?_eq_some, ← readArgument_eq_some]
  cases readArgument c <;> simp [Except.toOption]

/-! ### What the look ahead finds -/

/-- Between two places nothing stands but one literal, with white space and comments around it. -/
def Cursor.Encloses (c : Cursor) (l : PlainLiteral) (d : Cursor) : Prop :=
  ∃ before after : Gap, c.Between (before.text ++ l.text ++ after.text) d

theorem Cursor.skipTrivia_of_between {gap : Gap} (h : c.Between gap.text d)
    (hd : Begins d.rest) : c.skipTrivia = .ok d := by
  obtain ⟨past, rest⟩ := c
  obtain ⟨past', rest'⟩ := d
  obtain ⟨hrest, hpast⟩ := h
  dsimp only at hrest hpast
  subst hrest hpast
  exact skipTrivia_gap gap hd

theorem Cursor.plainText_of_between (h : c.Between l.text d) : c.PlainText d := by
  obtain ⟨past, rest⟩ := c
  obtain ⟨past', rest'⟩ := d
  obtain ⟨hrest, hpast⟩ := h
  dsimp only at hrest hpast
  subst hrest hpast
  obtain ⟨quote, content, ⟨hquote, hcontent⟩ | ⟨rfl, hcontent⟩⟩ := l
  · exact .string (by simpa [atQuote, peek?, PlainLiteral.text] using hquote)
      (skipString_escaped hquote hcontent past rest')
  · exact .template rfl (skipPlainTemplate?_template ⟨content, hcontent⟩ past rest')

theorem Cursor.begins_of_peek? {ch : Char} (h : c.peek? = some ch) (hspace : isSpace ch = false)
    (hslash : ch ≠ '/') : Begins c.rest := by
  obtain ⟨rest, hrest⟩ : ∃ rest, c.rest = ch :: rest := List.head?_eq_some_iff.1 h
  exact hrest ▸ begins_cons hspace hslash

/-- A gap ends where the next thing begins. -/
theorem Cursor.Between.split {taken more : List Char} (h : c.Between (taken ++ more) d) :
    ∃ e, c.Between taken e ∧ e.Between more d := by
  have hrest : c.rest = taken ++ (more ++ d.rest) := by simpa using h.rest_eq
  have hfirst := Between.of_advance hrest
  refine ⟨_, hfirst, ?_, ?_⟩
  · exact List.append_cancel_left (hfirst.rest_eq.symm.trans hrest)
  · simp [h.past_eq, hfirst.past_eq]

theorem plainArgument?_of_encloses (h : c.Encloses l close) (hclose : close.peek? = some ')') :
    ∃ first after, plainArgument? c = some (first, after) ∧ first.Between l.text after := by
  obtain ⟨before, gap, hbetween⟩ := h
  obtain ⟨after, hbefore, hafter⟩ := hbetween.split
  obtain ⟨first, hfirst, hliteral⟩ := hbefore.split
  have hplain := Cursor.plainText_of_between hliteral
  refine ⟨first, after, Cursor.plainArgument?_eq_some.2 ⟨?_, hplain, close, ?_, hclose⟩, hliteral⟩
  · exact Cursor.skipTrivia_of_between hfirst hplain.begins
  · exact Cursor.skipTrivia_of_between hafter
      (Cursor.begins_of_peek? hclose (by decide) (by decide))

theorem encloses_of_plainArgument? (h : plainArgument? c = some (first, after)) :
    ∃ l close, c.Encloses l close ∧ close.peek? = some ')' ∧ after.skipTrivia = .ok close ∧
      first.Between l.text after := by
  obtain ⟨hfirst, hplain, close, hclose, hparen⟩ := Cursor.plainArgument?_eq_some.1 h
  obtain ⟨l, hliteral⟩ := hplain.exists_between
  have hne {e : Cursor} {ch : Char} (he : e.peek? = some ch) : e.rest ≠ [] := by
    rintro hrest
    simp [Cursor.peek?, hrest] at he
  obtain ⟨before, hbefore, -⟩ := Cursor.exists_of_skipTrivia hfirst (by
    rw [hliteral.rest_eq]
    simp [PlainLiteral.text])
  obtain ⟨gap, hgap, -⟩ := Cursor.exists_of_skipTrivia hclose (hne hparen)
  exact ⟨l, close, ⟨before, gap, (hbefore.trans hliteral).trans hgap⟩, hparen, hclose, hliteral⟩

theorem Cursor.Between.span_content (h : first.Between l.text after) (kind : ImportKind) :
    (ImportRecord.mk (first.offset + 1) (after.offset - 1) kind).span first.text = l.content := by
  have hoffset := h.offset_eq
  simp only [PlainLiteral.text, List.cons_append, List.length_cons, List.length_append,
    List.length_nil] at hoffset
  have hlength : after.offset - 1 - (first.offset + 1) = l.content.length := by omega
  have hdrop := congrArg (List.drop 1) h.drop_text
  rw [List.drop_drop] at hdrop
  simp [ImportRecord.span, hlength, hdrop, PlainLiteral.text]

namespace Scan

variable {s t u v : Scan} {r : ImportRecord}

/-! ### Pairs of brackets -/

/-- A state that the scan comes to while all the brackets stay open that are open at another. -/
inductive Within (t : Scan) : Scan → Prop where
  | refl : Within t t
  | tail {u v : Scan} (h : Within t u) (step : u.step = .ok v)
      (depth : t.openers.length ≤ v.openers.length) : Within t v

/-- The step of a state closes the bracket that is the innermost open one at another. -/
def Pairs (t u : Scan) : Prop :=
  Within t u ∧ ∃ v, u.step = .ok v ∧ v.openers.length < t.openers.length

theorem Within.leads (h : Within t u) : Leads t u := by
  induction h with
  | refl => exact .refl
  | tail _ hstep _ ih => exact ih.tail hstep

theorem Within.depth_le (h : Within t u) : t.openers.length ≤ u.openers.length := by
  cases h with
  | refl => exact Nat.le_refl _
  | tail _ _ depth => exact depth

/-- No state behind the closing of the bracket is within it. -/
theorem Pairs.leads_of_within (hu : Pairs t u) (h : Within t v) : Leads v u := by
  obtain ⟨hwithin, after, hafter, hdepth⟩ := hu
  induction h with
  | refl => exact hwithin.leads
  | @tail v w hv hstep depth ih =>
      rcases ih.cases_head with rfl | ⟨next, hnext, hlead⟩
      · obtain rfl := Except.ok.inj (hafter.symm.trans hstep)
        exact absurd hdepth (Nat.not_lt.2 depth)
      · obtain rfl := Except.ok.inj (hstep.symm.trans hnext)
        exact hlead

theorem Pairs.unique (hu : Pairs t u) (hv : Pairs t v) : u = v :=
  (hv.leads_of_within hu.1).antisymm (hu.leads_of_within hv.1)

/-- A scan within a bracket comes to where the bracket is closed, in an accepted source. -/
theorem exists_pairs_of_within (hopen : t.openers ≠ []) (hok : t.run.fault? = none)
    (hu : Within t u) : ∃ v, Pairs t v := by
  induction hn : u.cursor.size using Nat.strong_induction_on generalizing u with
  | _ n ih =>
      cases hstep : u.step with
      | error a =>
          have hrun : t.run = a := hu.leads.run_eq.trans (run_of_step_error hstep)
          rw [hrun] at hok
          rcases halts_of_step_error hstep with hhalts | ⟨-, -, hfault⟩
          · have hdepth := hu.depth_le
            rw [hhalts.closed hok] at hdepth
            exact absurd (List.length_pos_iff.2 hopen) (Nat.not_lt.2 hdepth)
          · cases hok.symm.trans hfault
      | ok v =>
          by_cases hdepth : t.openers.length ≤ v.openers.length
          · exact ih _ (hn ▸ size_step_lt hstep) (hu.tail hstep hdepth) rfl
          · exact ⟨u, hu, v, hstep, Nat.lt_of_not_le hdepth⟩

/-- In an accepted source every bracket is closed. -/
theorem exists_pairs (hopen : t.openers ≠ []) (hok : t.run.fault? = none) : ∃ u, Pairs t u :=
  exists_pairs_of_within hopen hok .refl

/-- White space and comments change nothing but the place. -/
theorem Within.skipTrivia (h : Within t u) (hd : u.cursor.skipTrivia = .ok d) :
    Within t { u with cursor := d } := by
  by_cases hne : d = u.cursor
  · subst hne
    exact h
  · exact h.tail (step_of_gap (.gap hd hne)) h.depth_le

theorem Within.plainText (h : Within t u) (hd : u.cursor.PlainText d) : Within t (u.token d) :=
  h.tail (step_of_plainText hd) h.depth_le

/-! ### Calls -/

/-- The step of a state reads the keyword and the parenthesis of a call, and records it. -/
structure Calls (s t : Scan) (r : ImportRecord) : Prop where
  keyword : s.cursor.atKeyword "import".toList = true
  step : s.step = .ok t
  paren : ∃ d, (s.cursor.advance 6).skipTrivia = .ok d ∧ d.peek? = some '(' ∧
    t.cursor = d.advance 1
  record : r = dynamicImport s.cursor t.cursor

theorem Calls.openers_eq (h : Calls s t r) :
    t.openers = (s.cursor.advance 6).past :: s.openers := by
  obtain ⟨d, hskip, hpeek, -⟩ := h.paren
  have hstep := step_of_import h.keyword
  rw [h.step, importStatement, h.keyword] at hstep
  simp only [Bool.not_true, Bool.false_eq_true, if_false, hskip, if_pos hpeek, take] at hstep
  rw [Except.ok.inj hstep]
  rfl

theorem kind_staticImport (h : staticImport c = .ok (r, d)) : r.kind = .static := by
  obtain ⟨e, he, heq⟩ := exists_of_map_eq_ok h
  rw [← (Prod.mk.inj heq).1]

/-- A step that adds the record of a call reads it. -/
theorem calls_of_step {argument : Nat} {literal : Bool} (hstep : s.step = .ok t)
    (hr : r ∈ t.imports) (hnew : r ∉ s.imports) (hkind : r.kind = .dynamic argument literal) :
    Calls s t r := by
  cases move_of_step hstep with
  | imports keyword read =>
      have hmem := (List.mem_append.1 hr).resolve_left hnew
      cases read with
      | call skip peek =>
          exact ⟨keyword, hstep, ⟨_, skip, peek, rfl⟩, List.mem_singleton.1 hmem⟩
      | itself =>
          obtain rfl := List.mem_singleton.1 hmem
          cases hkind
      | property | word => cases hmem
      | declaration top onward atQuote static =>
          obtain rfl := List.mem_singleton.1 hmem
          cases (kind_staticImport static).symm.trans hkind
  | exports keyword top next =>
      have hmem := (List.mem_append.1 hr).resolve_left hnew
      rcases (gives_exportStatement false keyword).imports with
        hempty | ⟨quote, record, _, -, -, static, himports, -⟩
      · simp [hempty] at hmem
      · rw [himports] at hmem
        obtain rfl := List.mem_singleton.1 hmem
        cases (kind_staticImport static).symm.trans hkind
  | @template e n | @resume e n => cases e <;> exact absurd hr hnew
  | _ => exact absurd hr hnew

/-- Every record of a call comes from a step that reads it. -/
theorem exists_calls (hlead : Leads s u) (hnone : s.imports = []) (hr : r ∈ u.imports)
    {argument : Nat} {literal : Bool} (hkind : r.kind = .dynamic argument literal) :
    ∃ v t, Leads s v ∧ Calls v t r ∧ Leads t u := by
  induction hlead with
  | refl => simp [hnone] at hr
  | @tail u w hlead hstep ih =>
      by_cases hold : r ∈ u.imports
      · obtain ⟨v, t, hv, hcalls, ht⟩ := ih hold
        exact ⟨v, t, hv, hcalls, ht.tail hstep⟩
      · exact ⟨u, w, hlead, calls_of_step hstep hr hold hkind, .refl⟩

/-- The parenthesis of a call with one literal is paired behind it. -/
theorem pairs_of_plainArgument? (hopen : t.openers ≠ [])
    (h : plainArgument? t.cursor = some (first, after)) :
    ∃ l u, Pairs t u ∧ u.cursor.peek? = some ')' ∧ t.cursor.Encloses l u.cursor ∧
      first.Between l.text after := by
  obtain ⟨hfirst, hplain, -⟩ := Cursor.plainArgument?_eq_some.1 h
  obtain ⟨l, close, hencloses, hparen, hclose, hbetween⟩ := encloses_of_plainArgument? h
  have hliteral : Within t ({ t with cursor := first }.token after) :=
    (Within.refl.skipTrivia hfirst).plainText hplain
  have hwithin := hliteral.skipTrivia hclose
  obtain ⟨opener, openers, hopeners⟩ := List.exists_cons_of_ne_nil hopen
  refine ⟨l, _, ⟨hwithin, _, step_of_closeParen hparen hopeners, ?_⟩, hparen, hencloses, hbetween⟩
  simp [hopeners, token]

/-! ### Faults -/

theorem fault_of_skipTrivia (h : s.cursor.skipTrivia = .error f) : s.run.fault? = some f := by
  rw [run_of_step_error (step_of_gap_error h)]
  rfl

theorem fault_of_readLiteral (h : s.cursor.readLiteral = .error f) : s.run.fault? = some f := by
  suffices hstep : s.step = .error (s.stop f) by
    rw [run_of_step_error hstep]
    rfl
  unfold Cursor.readLiteral at h
  split at h
  · rename_i hquote
    have hskip := exists_of_map_eq_error h
    obtain ⟨ch, hpeek, hch⟩ := (Option.any_eq_true ..).1 hquote
    obtain ⟨rest, hrest⟩ : ∃ rest, s.cursor.rest = ch :: rest := List.head?_eq_some_iff.1 hpeek
    rw [step_of_rest hrest, stepAt, hrest]
    simp only [isQuote, Bool.or_eq_true, beq_iff_eq] at hch
    rcases hch with rfl | rfl <;> simp [isSpace, isQuote, startsComment, moveTo, hskip]
  split at h
  · rename_i hpeek
    obtain ⟨rest, hrest⟩ : ∃ rest, s.cursor.rest = '\x60' :: rest := List.head?_eq_some_iff.1 hpeek
    unfold Cursor.readTemplate at h
    split at h
    · rename_i hchunk
      obtain rfl := Except.error.inj h
      have htemplate :
          s.templateChunk = .error (s.stop (s.cursor.fault .unterminatedTemplate)) := by
        rw [templateChunk, hchunk]
      rw [step_of_rest hrest, stepAt, hrest]
      simpa [isSpace, isQuote, startsComment] using htemplate
    · cases h
    · cases h
  · cases h

/-- A fault of the look ahead is met by the scan. -/
theorem fault_of_readArgument (h : readArgument t.cursor = .error f) : t.run.fault? = some f := by
  unfold readArgument at h
  split at h
  · rename_i g hg
    exact Except.error.inj h ▸ fault_of_skipTrivia hg
  rename_i first hfirst
  rw [run_of_skipTrivia hfirst]
  split at h
  · rename_i g hg
    exact Except.error.inj h ▸ fault_of_readLiteral (s := { t with cursor := first }) hg
  · cases h
  · rename_i after hafter
    rw [run_of_step (step_of_plainText (Cursor.readLiteral_eq_some.1 hafter))]
    exact fault_of_skipTrivia (exists_of_map_eq_error h)

end Scan

open Scan

/-- In an accepted source, the parenthesis of every recorded call is paired with one closing
bracket. The call is resolvable exactly if that is a parenthesis and one literal stands between them
with white space and comments around it, and then it spans the content of the literal. In any
source, a fault that the look ahead at an argument meets is the fault of the analysis. -/
theorem dynamic_imports_paired (source : List Char) :
    ((analyze source).fault? = none → ∀ r ∈ (analyze source).imports, ∀ argument literal,
      r.kind = .dynamic argument literal → ∃ s t u, Leads (start source) s ∧ Calls s t r ∧
        t.cursor.offset = argument ∧ Pairs t u ∧ (∀ v, Pairs t v → v = u) ∧
        (literal = true ↔ u.cursor.peek? = some ')' ∧ ∃ l, t.cursor.Encloses l u.cursor) ∧
        ∀ l, u.cursor.peek? = some ')' → t.cursor.Encloses l u.cursor →
          r.span source = l.content) ∧
    ∀ s t r fault, Leads (start source) s → Calls s t r →
      readArgument t.cursor = .error fault → (analyze source).fault? = some fault := by
  refine ⟨fun hok r hr argument literal hkind => ?_, fun s t r fault hlead hcalls hfault => ?_⟩
  · obtain ⟨last, hlead, himports⟩ := imports_analyze source
    obtain ⟨s, t, hs, hcalls, ht⟩ := exists_calls hlead rfl (himports ▸ hr) hkind
    have hlead : Leads (start source) t := hs.tail hcalls.step
    have htext : t.cursor.text = source := hlead.text_eq
    have hopen : t.openers ≠ [] := by simp [hcalls.openers_eq]
    obtain ⟨u, hu⟩ := exists_pairs hopen (hlead.run_eq ▸ hok)
    have hrecord := hcalls.record
    have hargument : t.cursor.offset = argument := by
      rw [hrecord, dynamicImport] at hkind
      split at hkind <;> exact (ImportKind.dynamic.inj hkind).1
    have hliteral : literal = (plainArgument? t.cursor).isSome := by
      rw [hrecord, dynamicImport] at hkind
      split at hkind <;> rename_i hplain <;> simp [hplain, (ImportKind.dynamic.inj hkind).2.symm]
    refine ⟨s, t, u, hs, hcalls, hargument, hu, fun v hv => hv.unique hu, ⟨?_, ?_⟩, ?_⟩
    · intro htrue
      obtain ⟨⟨first, after⟩, hplain⟩ := Option.isSome_iff_exists.1 (hliteral ▸ htrue)
      obtain ⟨l, v, hv, hparen, hencloses, -⟩ := pairs_of_plainArgument? hopen hplain
      obtain rfl := hv.unique hu
      exact ⟨hparen, l, hencloses⟩
    · rintro ⟨hparen, l, hencloses⟩
      obtain ⟨first, after, hplain, -⟩ := plainArgument?_of_encloses hencloses hparen
      simp [hliteral, hplain]
    · intro l hparen hencloses
      obtain ⟨first, after, hplain, hbetween⟩ := plainArgument?_of_encloses hencloses hparen
      have hfirst := Cursor.onward_skipTrivia (Cursor.plainArgument?_eq_some.1 hplain).1
      have hspan := hbetween.span_content (.dynamic t.cursor.offset true)
      rw [hfirst.text_eq, htext] at hspan
      rw [hrecord, dynamicImport, hplain]
      exact hspan
  · exact (congrArg Analysis.fault? (Leads.run_eq (hlead.tail hcalls.step))).trans
      (fault_of_readArgument hfault)

/-- A call with a comment in front of its literal. -/
theorem dynamic_imports_paired_comment :
    (analyze "import(/*c*/'a')".toList).fault? = none ∧
    ∃ s t u, Leads (start "import(/*c*/'a')".toList) s ∧ Calls s t ⟨13, 14, .dynamic 7 true⟩ ∧
      t.cursor.offset = 7 ∧ Pairs t u ∧ u.cursor.peek? = some ')' ∧
      ∃ l, t.cursor.Encloses l u.cursor := by
  have hanalysis : analyze "import(/*c*/'a')".toList = ⟨[⟨13, 14, .dynamic 7 true⟩], [], none⟩ :=
    (@Ends.of_outcome _ declaredNames _ 8 rfl).run_eq
  have hok : (analyze "import(/*c*/'a')".toList).fault? = none := by rw [hanalysis]
  obtain ⟨s, t, u, hs, hcalls, hargument, hpairs, -, hliteral, -⟩ :=
    (dynamic_imports_paired _).1 hok ⟨13, 14, .dynamic 7 true⟩
      (hanalysis ▸ List.mem_singleton_self _) 7 true rfl
  exact ⟨hok, s, t, u, hs, hcalls, hargument, hpairs, hliteral.1 rfl⟩

end ImportAtlas.Source
