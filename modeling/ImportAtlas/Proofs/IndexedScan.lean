import ImportAtlas.Proofs.Moves
import ImportAtlas.Proofs.LeadingTrivia
import ImportAtlas.Proofs.IndexedStatements

/-!
# The scan by its indices

A round of the reading by indices does what a step of the scan does, so that the analysis never
breaks down. A state of the scan says which indices are remembered; they lie in the text that has
been read as long as the state is sound, and every move keeps it so.

A round differs from a step in one way: it passes over one character of white space or one comment,
where a step passes over all that come next. Rounds and steps are therefore not compared one by one;
what a round leaves unchanged is the analysis that the scan comes to.

## Summary

* `Scan.Sound` holds of the states whose tokens lie behind and whose substitutions are in order.
* `State.of` is the state of the indices at a state of the scan.
* `Reads` relates what is done at a token to a step, and `Turns` a round to the run.
* `Reached` holds of the states between two rounds.

## Main results

* `Scan.Sound.of_move`: a move leads from a sound state to a sound one.
* `turns`: a round goes on at a sound state that comes to the same analysis.
* `analyze_eq`: the analysis by indices is the analysis.
* `never_breaks_down`: no round breaks down, and between two rounds the braces are in order.
-/

namespace ImportAtlas.Source

/-! ### What the scan remembers -/

namespace Scan

variable {s s' : Scan} {d : Cursor} {taken : List Char}

/-- What a state of the scan remembers belongs to the text that has been read, and the open
substitutions hold more and more of the open braces. -/
structure Sound (s : Scan) : Prop where
  lastToken : s.lastToken <:+ s.cursor.past
  lastOpener : s.lastOpener <:+ s.cursor.past
  openers : ∀ opener ∈ s.openers, opener <:+ s.cursor.past
  pos : ∀ b ∈ s.templates, 0 < b
  le : ∀ b ∈ s.templates, b ≤ s.braces
  decreasing : s.templates.Pairwise (· > ·)

theorem sound_start (source : List Char) : (start source).Sound :=
  ⟨List.suffix_rfl, List.suffix_rfl, by simp [start], by simp [start], by simp [start],
    List.Pairwise.nil⟩

namespace Sound

theorem moved (h : s.Sound) (hd : s.cursor.Between taken d) : Sound { s with cursor := d } where
  lastToken := hd.past_eq ▸ List.suffix_append_of_suffix h.lastToken
  lastOpener := hd.past_eq ▸ List.suffix_append_of_suffix h.lastOpener
  openers opener hopener := hd.past_eq ▸ List.suffix_append_of_suffix (h.openers opener hopener)
  pos := h.pos
  le := h.le
  decreasing := h.decreasing

theorem token (h : s.Sound) (hd : s.cursor.Between taken d) : (s.token d).Sound :=
  { h.moved hd with lastToken := List.suffix_rfl }

/-- A bracket is opened behind the last token. -/
theorem opened (h : s.Sound) : Sound { s with openers := s.lastToken :: s.openers } :=
  { h with openers := List.forall_mem_cons.2 ⟨h.lastToken, h.openers⟩ }

/-- The innermost bracket is closed. -/
theorem closed {opener : Past} {openers : List Past} (h : s.Sound)
    (hopeners : s.openers = opener :: openers) :
    Sound { s with openers, lastOpener := opener } := by
  obtain ⟨hfirst, hrest⟩ := List.forall_mem_cons.1 (hopeners ▸ h.openers)
  exact { h with lastOpener := hfirst, openers := hrest }

/-- A brace is opened. -/
theorem brace (h : s.Sound) : Sound { s with braces := s.braces + 1 } :=
  { h with le := fun b hb => Nat.le_succ_of_le (h.le b hb) }

/-- A brace within the innermost substitution is closed. -/
theorem unbrace (h : s.Sound) (hlt : ∀ b ∈ s.templates.head?, b < s.braces) :
    Sound { s with braces := s.braces - 1 } := by
  refine { h with le := fun b hb => Nat.le_sub_one_of_lt ?_ }
  obtain ⟨first, rest, heq⟩ := List.exists_cons_of_ne_nil (List.ne_nil_of_mem hb)
  have hfirst : first < s.braces := hlt first (by rw [heq]; rfl)
  have hdecreasing := h.decreasing
  rw [heq] at hb hdecreasing
  rcases List.mem_cons.1 hb with rfl | hmem
  · exact hfirst
  · exact Nat.lt_trans ((List.pairwise_cons.1 hdecreasing).1 b hmem) hfirst

/-- The innermost substitution is closed. -/
theorem resumed (h : s.Sound) (hhead : s.templates.head? = some s.braces) :
    Sound { s with braces := s.braces - 1, templates := s.templates.tail } := by
  obtain ⟨rest, heq⟩ := List.head?_eq_some_iff.1 hhead
  obtain ⟨hfirst, hrest⟩ := List.pairwise_cons.1 (heq ▸ h.decreasing)
  have htail : s.templates.tail = rest := by rw [heq, List.tail_cons]
  rw [htail]
  exact { h with
    pos := fun b hb => h.pos b (heq ▸ List.mem_cons_of_mem _ hb)
    le := fun b hb => Nat.le_sub_one_of_lt (hfirst b hb)
    decreasing := hrest }

/-- A piece of a template is read. -/
theorem pastChunk (h : s.Sound) (e : ChunkEnd) (hd : s.cursor.Between taken d) :
    (s.pastChunk e d).Sound := by
  cases e with
  | closed => exact h.token hd
  | substitution =>
      refine Sound.token (s := { s with
        braces := s.braces + 1, templates := (s.braces + 1) :: s.templates }) ?_ hd
      exact { h with
        pos := List.forall_mem_cons.2 ⟨Nat.succ_pos _, h.pos⟩
        le := List.forall_mem_cons.2 ⟨Nat.le_refl _, h.brace.le⟩
        decreasing := List.pairwise_cons.2 ⟨fun b hb => Nat.lt_succ_of_le (h.le b hb),
          h.decreasing⟩ }

/-- A statement is read. It may open a bracket. -/
theorem behind {statement : Statement} (h : s.Sound) (hd : s.cursor.Between taken d)
    (hopener : ∀ opener ∈ statement.opener?, opener <:+ d.past) :
    (s.behind statement d).Sound := by
  refine { h.token hd with openers := fun opener hmem => ?_ }
  rcases List.mem_append.1 hmem with hmem | hmem
  · exact hopener opener (Option.mem_toList.1 hmem)
  · exact (h.token hd).openers opener hmem

end Sound

theorem suffix_of_importRead {bracketed : Bool} {c : Cursor} {statement : Statement}
    (h : ImportRead bracketed c statement d) :
    ∀ opener ∈ statement.opener?, opener <:+ d.past := by
  cases h with
  | call skip peek =>
      rintro _ ⟨⟩
      obtain ⟨n, -, rfl⟩ := Cursor.skipTrivia_eq_advance skip
      rw [← Cursor.advance_add]
      exact List.suffix_append _ _
  | itself | property | word | declaration => rintro _ ⟨⟩

/-- A move leads from a sound state to a sound one. -/
theorem Sound.of_move (h : s.Sound) (hmove : Move s s') : s'.Sound := by
  obtain ⟨taken, hbetween⟩ := hmove.exists_between
  cases hmove with
  | gap => exact h.moved hbetween
  | char | string | regex => exact h.token hbetween
  | openParen => exact h.opened.token hbetween
  | openBrace => exact h.brace.opened.token hbetween
  | closeParen peek openers_eq => exact (h.closed openers_eq).token hbetween
  | closeBrace peek openers_eq braces templates =>
      exact ((h.closed openers_eq).unbrace templates).token hbetween
  | @template e => exact h.pastChunk e (s.cursor.between_advance _)
  | @resume e _ peek templates =>
      exact (h.resumed templates).pastChunk e (s.cursor.between_advance _)
  | imports keyword read => exact h.behind hbetween (suffix_of_importRead read)
  | exports => exact h.behind hbetween (by rw [opener?_exportStatement]; rintro _ ⟨⟩)

end Scan

namespace Indexed

open Scan

variable {t : List Char} {i : Int} {c : Cursor} {s s' : Scan} {st st' : State} {a : Analysis}

/-! ### States -/

/-- The number of open braces within each open substitution, innermost first, and `-1` for the
source around them. -/
def counts (s : Scan) : List Int := s.templates.map (fun b : Nat => (b : Int)) ++ [-1]

/-- The state of the indices at a state of the scan. -/
def State.of (s : Scan) : State where
  index := s.cursor.offset - 1
  lastToken := s.lastToken.length - 1
  lastOpener := s.lastOpener.length - 1
  openers := s.openers.map fun past => (past.length : Int) - 1
  braces := s.braces
  template := (counts s).headD (-1)
  templates := (counts s).tail
  imports := s.imports
  exports := s.exports

/-- The state within a round, when the index of the next character has been taken. -/
def State.within (s : Scan) : State := { State.of s with index := s.cursor.offset }

theorem template_cons_templates (s : Scan) :
    (State.of s).template :: (State.of s).templates = counts s := by
  simp only [State.of, counts]
  cases s.templates <;> rfl

theorem braces_eq_template_iff :
    (State.within s).braces = (State.within s).template ↔ s.templates.head? = some s.braces := by
  simp only [State.within, State.of, counts]
  cases s.templates with
  | nil => simp
  | cons b templates =>
      simp only [List.map_cons, List.cons_append, List.headD_cons, List.head?_cons,
        Option.some.injEq, Int.natCast_inj]
      exact eq_comm

theorem openers_eq_nil_iff : (State.within s).openers = [] ↔ s.openers = [] :=
  List.map_eq_nil_iff

theorem at_of_text (ht : s.cursor.text = t) : At t (State.within s).index s.cursor := ⟨ht, rfl⟩

theorem endsAt_of_suffix {past : Past} (ht : c.text = t) (h : past <:+ c.past) :
    EndsAt t (past.length - 1) past := by
  obtain ⟨front, hfront⟩ := h
  refine ⟨front.reverse ++ c.rest, ?_, Int.sub_add_cancel ..⟩
  rw [← ht, Cursor.text, ← hfront, List.reverse_append, List.append_assoc]

/-! ### Regular expressions -/

theorem heldStatements_eq {past : Past} (h : EndsAt t i past) :
    heldStatements t i = .ok (Scan.heldStatements past) := by
  cases past with
  | nil => exact if_pos h.neg
  | cons ch past =>
      rw [heldStatements, if_neg (Int.not_lt.2 h.nonneg), h.access_eq, ok_bind, h.wordEndingAt_eq,
        Scan.heldStatements, List.head?_cons]
      by_cases hends : ch = ';' ∨ ch = ')'
      · rcases hends with rfl | rfl <;> rfl
      · obtain ⟨hsemicolon, hparen⟩ := not_or.1 hends
        by_cases hy : ch = 'y' <;> simp [hsemicolon, hparen, hy]

theorem regexAllowed_eq (htoken : EndsAt t st.lastToken s.lastToken)
    (hopener : EndsAt t st.lastOpener s.lastOpener) : regexAllowed t st = .ok s.regexAllowed := by
  rw [regexAllowed, Scan.regexAllowed]
  cases hlast : s.lastToken with
  | nil =>
      rw [hlast] at htoken
      exact if_pos htoken.neg
  | cons ch past =>
      rw [hlast] at htoken
      rw [if_neg (Int.not_lt.2 htoken.nonneg), htoken.access_eq, ok_bind, hopener.wordEndingAt_eq,
        heldStatements_eq hopener, htoken.wordEndingAt_eq, List.head?_cons]
      simp only [ok_bind, pure_eq_ok, apply_ite Except.ok, beq_iff_eq]

/-! ### Tokens -/

/-- A computation comes to a state of the scan, or ends at the fault of an analysis. -/
def Answers (m : Lexer Unit) (st : State) : Except Analysis Scan → Prop
  | .ok s => perform m st = (.ok (), State.of s)
  | .error a => ∃ f st', perform m st = (.error (.fault f), st') ∧
      a = ⟨st'.imports, st'.exports, some f⟩

/-- A computation reads a token. -/
def Reads (m : Lexer Unit) (st : State) (outcome : Except Analysis Scan) : Prop :=
  Answers (m >>= fun _ => markToken) st outcome

section
variable {α : Type} {x : Lexer α} {b : α} {k : α → Lexer Unit} {m : Lexer Unit} {u : State}
  {f : SyntaxFault} {outcome : Except Analysis Scan}

theorem answers_bind (h : perform x st = (.ok b, u)) (hk : Answers (k b) u outcome) :
    Answers (x >>= k) st outcome := by
  cases outcome with
  | ok s => exact (perform_bind_ok h).trans hk
  | error a =>
      obtain ⟨f, st₁, hm, ha⟩ := hk
      exact ⟨f, st₁, (perform_bind_ok h).trans hm, ha⟩

theorem reads_bind (h : perform x st = (.ok b, u)) (hk : Reads (k b) u outcome) :
    Reads (x >>= k) st outcome := by
  rw [Reads, bind_assoc]
  exact answers_bind h hk

theorem reads_fault (h : perform m st = (.error (.fault f), u))
    (ha : a = ⟨u.imports, u.exports, some f⟩) : Reads m st (.error a) :=
  ⟨f, u, perform_bind_error h, ha⟩

theorem reads_of_perform (h : perform m st = (.ok (), u))
    (hmark : { u with lastToken := u.index } = State.of s) : Reads m st (.ok s) := by
  rw [Reads, Answers, perform_bind_ok h]
  rw [← hmark]
  rfl

end

/-- The state behind a token. -/
theorem of_token {d : Cursor} (h : i = d.offset - 1) :
    { State.within s with index := i, lastToken := i } = State.of (s.token d) := h ▸ rfl

theorem offset_advance_one (hrest : c.rest ≠ []) :
    (c.offset : Int) = (c.advance 1).offset - 1 := by
  rw [offset_advance (List.length_pos_iff.2 hrest)]
  omega

/-- A token is passed over. -/
theorem reads_moveTo {x : Checked Int} {next : Except SyntaxFault Cursor} (h : x = lastIndex next) :
    Reads (liftM x >>= moveTo) (State.within s) (s.moveTo next) := by
  subst h
  cases next with
  | ok d => exact reads_of_perform rfl (of_token rfl)
  | error f => exact reads_fault rfl rfl

/-- A character is passed over. -/
theorem reads_char (hrest : s.cursor.rest ≠ []) :
    Reads (pure ()) (State.within s) (s.moveTo (.ok (s.cursor.advance 1))) :=
  reads_of_perform rfl (of_token (offset_advance_one hrest))

theorem reads_openBracket (hrest : s.cursor.rest ≠ []) :
    Reads openBracket (State.within s) (.ok s.openBracket) :=
  reads_of_perform rfl (of_token (s := { s with openers := s.lastToken :: s.openers })
    (offset_advance_one hrest))

theorem perform_fail {α : Type} (h : At t i c) (cause : SyntaxCause) :
    perform (liftM (fail i cause : Checked α)) st = (.error (.fault (c.fault cause)), st) :=
  congrArg (·, st) (h.fail_eq cause)

theorem reads_closeBracket {ch : Char} {rest : List Char} (ht : s.cursor.text = t)
    (hrest : s.cursor.rest = ch :: rest) :
    Reads (closeBracket t) (State.within s) (s.closeBracket ch) := by
  have hat := at_of_text ht
  have ha := hat.ahead
  rw [hrest] at ha
  refine reads_bind perform_get ?_
  rw [Scan.closeBracket]
  cases hopeners : s.openers with
  | nil =>
      rw [if_pos (openers_eq_nil_iff.2 hopeners), ha.access_eq]
      exact reads_fault (perform_fail hat _) rfl
  | cons opener openers =>
      have hne : s.openers ≠ [] := by simp [hopeners]
      have hpop : pop (State.within s).openers = .ok ((opener.length : Int) - 1,
          openers.map fun past => (past.length : Int) - 1) := by
        simp [State.within, State.of, hopeners, pop]
      rw [if_neg (mt openers_eq_nil_iff.1 hne), hpop]
      exact reads_of_perform rfl (of_token (s := { s with openers, lastOpener := opener })
        (offset_advance_one (by simp [hrest])))

theorem size_of_chunk {e : ChunkEnd} {n : Nat} {ch : Char} {body : List Char}
    (hrest : c.rest = ch :: body) (h : chunkLength? body = some (e, n)) : n + 1 ≤ c.size := by
  obtain ⟨content, rest, -, rfl, rfl⟩ := exists_of_chunkLength? h
  rw [Cursor.size, hrest]
  simp

theorem reads_template (ht : s.cursor.text = t) (hrest : s.cursor.rest ≠ []) :
    Reads (template t) (State.within s) s.templateChunk := by
  have hat := at_of_text ht
  obtain ⟨ch, body, hcons⟩ := List.exists_cons_of_ne_nil hrest
  have ha := hat.ahead
  rw [hcons] at ha
  refine reads_bind perform_get ?_
  rw [chunk_eq ha, Scan.templateChunk, hcons, List.drop_one, List.tail_cons]
  cases hlength : chunkLength? body with
  | none => exact reads_fault (perform_bind_error (perform_fail hat _)) rfl
  | some chunk =>
      obtain ⟨e, n⟩ := chunk
      have hle := size_of_chunk hcons hlength
      have hindex : (State.within s).index + n = ((s.cursor.advance (n + 1)).offset : Int) - 1 := by
        rw [offset_advance hle, hat.index_eq]
        push_cast
        omega
      refine reads_bind (b := (e, (State.within s).index + n)) rfl ?_
      cases e with
      | closed => exact reads_of_perform rfl (of_token hindex)
      | substitution =>
          have hopen : { State.within s with
              templates := (State.of s).template :: (State.of s).templates
              braces := (s.braces : Int) + 1
              template := (s.braces : Int) + 1 } = State.within { s with
                braces := s.braces + 1, templates := (s.braces + 1) :: s.templates } := by
            rw [template_cons_templates]
            rfl
          refine reads_bind (u := State.within { s with
            braces := s.braces + 1, templates := (s.braces + 1) :: s.templates })
            (by rw [perform_modify, ← hopen]; rfl) ?_
          exact reads_of_perform rfl (of_token hindex)

/-- The check behind a closing brace, on the number of braces that stay open. -/
theorem unexpected_iff : ((State.within s).braces - 1 < 0 ∨
    (State.within s).braces - 1 < (State.within s).template) ↔
      (s.braces = 0 || s.templates.head?.any (s.braces - 1 < ·)) = true := by
  simp only [State.within, State.of, counts]
  cases s.templates with
  | nil => simp; omega
  | cons b templates => simp; omega

theorem reads_closeBrace {rest : List Char} (ht : s.cursor.text = t) (hs : s.Sound)
    (hrest : s.cursor.rest = '\x7d' :: rest) :
    Reads (closeBrace t) (State.within s) s.closeBrace := by
  refine reads_bind perform_get ?_
  rw [Scan.closeBrace]
  by_cases hresumes : s.templates.head? = some s.braces
  · rw [if_pos (braces_eq_template_iff.2 hresumes), if_pos hresumes]
    obtain ⟨outer, htemplates⟩ := List.head?_eq_some_iff.1 hresumes
    let resumed : Scan := { s with braces := s.braces - 1, templates := s.templates.tail }
    have hpop : pop (State.within s).templates =
        .ok ((State.of resumed).template, (State.of resumed).templates) := by
      have htail : (State.within s).templates = counts resumed := by
        simp [State.within, State.of, counts, resumed, htemplates]
      rw [htail, ← template_cons_templates]
      rfl
    have hset : { State.within s with
        braces := (s.braces : Int) - 1
        template := (State.of resumed).template
        templates := (State.of resumed).templates } = State.within resumed := by
      have hpos : 0 < s.braces := hs.pos s.braces (by simp [htemplates])
      have hbraces : (s.braces : Int) - 1 = ((s.braces - 1 : Nat) : Int) := by omega
      rw [hbraces]
      rfl
    rw [hpop]
    refine reads_bind (perform_lift _) (reads_bind (perform_set _) ?_)
    exact hset ▸ reads_template (s := resumed) ht (by simp [resumed, hrest])
  · rw [if_neg (mt braces_eq_template_iff.1 hresumes), if_neg hresumes]
    refine reads_bind (perform_modify _) ?_
    by_cases hunexpected : (s.braces = 0 || s.templates.head?.any (s.braces - 1 < ·)) = true
    · rw [if_pos (unexpected_iff.2 hunexpected), if_pos hunexpected]
      exact reads_fault (perform_fail (at_of_text ht) _) rfl
    · rw [if_neg (mt unexpected_iff.1 hunexpected), if_neg hunexpected]
      have hpos : s.braces ≠ 0 := fun hzero => hunexpected (by simp [hzero])
      have hbraces : (s.braces : Int) - 1 = ((s.braces - 1 : Nat) : Int) := by omega
      have hstate : { State.within s with braces := (s.braces : Int) - 1 } =
          State.within { s with braces := s.braces - 1 } := by
        rw [hbraces]
        rfl
      exact hstate ▸ reads_closeBracket (s := { s with braces := s.braces - 1 }) ht hrest

theorem within_add (s : Scan) (statement : Statement) :
    (State.within s).add statement = State.within { s with
      imports := s.imports ++ statement.imports
      exports := s.exports ++ statement.exports
      openers := statement.opener?.toList ++ s.openers } := by
  simp [State.within, State.of, State.add, counts, Option.toList_map]

theorem reads_of_performs {m : Lexer Unit} {statement : Statement}
    (h : Performs m (State.within s) statement) : Reads m (State.within s) (s.take statement) := by
  rw [Performs, within_add] at h
  rw [Scan.take]
  cases hnext : statement.next with
  | ok d =>
      rw [hnext] at h
      exact reads_of_perform h (of_token rfl)
  | error f =>
      rw [hnext] at h
      exact reads_fault h rfl

/-- The token that begins with a character is read as a step of the scan reads it. -/
theorem reads_readToken {ch : Char} {rest : List Char} (ht : s.cursor.text = t) (hs : s.Sound)
    (hrest : s.cursor.rest = ch :: rest) (hspace : isSpace ch = false) (hslash : ch ≠ '/') :
    Reads (readToken t ch) (State.within s) s.step := by
  have hat := at_of_text ht
  have hne : s.cursor.rest ≠ [] := by simp [hrest]
  have hgap : ¬ (isSpace ch || startsComment s.cursor.rest) = true := by
    rw [hrest, Bool.or_eq_true, startsComment_cons]
    simp [hspace, hslash]
  rw [step_of_rest hrest, stepAt, if_neg hgap, if_neg hslash, readToken]
  by_cases hbrace : ch = '\x7b'
  · rw [if_pos hbrace, if_pos hbrace]
    exact reads_bind (u := State.within { s with braces := s.braces + 1 }) rfl
      (reads_openBracket (s := { s with braces := s.braces + 1 }) hne)
  rw [if_neg hbrace, if_neg hbrace]
  by_cases hparen : ch = '('
  · rw [if_pos hparen, if_pos hparen]
    exact reads_openBracket hne
  rw [if_neg hparen, if_neg hparen]
  by_cases hcloseBrace : ch = '\x7d'
  · rw [if_pos hcloseBrace, if_pos hcloseBrace]
    exact reads_closeBrace ht hs (hcloseBrace ▸ hrest)
  rw [if_neg hcloseBrace, if_neg hcloseBrace]
  by_cases hcloseParen : ch = ')'
  · rw [if_pos hcloseParen, if_pos hcloseParen]
    exact reads_closeBracket ht (hcloseParen ▸ hrest)
  rw [if_neg hcloseParen, if_neg hcloseParen]
  by_cases hquote : isQuote ch = true
  · rw [if_pos hquote, if_pos hquote]
    have hatQuote : s.cursor.atQuote = true := by
      rwa [Cursor.atQuote, Cursor.peek?, hrest, List.head?_cons, Option.any_some]
    exact reads_bind perform_get (reads_moveTo (string_eq hat hatQuote))
  rw [if_neg hquote, if_neg hquote]
  by_cases htick : ch = '\x60'
  · rw [if_pos htick, if_pos htick]
    exact reads_template ht hne
  rw [if_neg htick, if_neg htick]
  have hbracketed : decide ((State.within s).openers ≠ []) = decide (s.openers ≠ []) := by
    simp [openers_eq_nil_iff]
  by_cases hi : ch = 'i'
  · rw [if_pos hi, if_pos hi, ← hbracketed]
    exact reads_of_performs (performs_importStatement hat hne)
  rw [if_neg hi, if_neg hi]
  by_cases he : ch = 'e'
  · rw [if_pos he, if_pos he, ← hbracketed]
    exact reads_of_performs (performs_exportStatement hat hne)
  rw [if_neg he, if_neg he]
  exact reads_char hne

/-! ### Rounds -/

/-- What a round of the scan does at a state: it finds the end of the source, goes on at a state
that is further on and comes to the same analysis, or ends at the fault of the analysis. -/
inductive Turns (s : Scan) : Checked (Round Int Unit) × State → Prop
  | finished (hend : s.cursor.rest = []) : Turns s (.ok (.done ()), State.within s)
  | again {s' : Scan} (sound : s'.Sound) (text_eq : s'.cursor.text = s.cursor.text)
      (size_lt : s'.cursor.size < s.cursor.size) (run_eq : s.run = s'.run) :
      Turns s (.ok (.again (State.of s').index), State.of s')
  | fault {f : SyntaxFault} {st' : State} (run_eq : s.run = ⟨st'.imports, st'.exports, some f⟩) :
      Turns s (.error (.fault f), st')

/-- White space or a comment is passed over. -/
theorem turns_of_skipTrivia {n : Nat} (hs : s.Sound) (hpos : 0 < n) (hle : n ≤ s.cursor.size)
    (hskip : s.cursor.skipTrivia = (s.cursor.advance n).skipTrivia)
    (hi : i = s.cursor.offset + n - 1) :
    Turns s (.ok (.again i), { State.within s with index := i }) := by
  have hrun : s.run = Scan.run { s with cursor := s.cursor.advance n } := by
    cases hd : s.cursor.skipTrivia with
    | ok d =>
        rw [run_of_skipTrivia hd, run_of_skipTrivia (d := d)
          (s := { s with cursor := s.cursor.advance n }) (hskip ▸ hd)]
    | error f =>
        rw [run_of_step_error (step_of_gap_error hd), run_of_step_error (step_of_gap_error
          (s := { s with cursor := s.cursor.advance n }) (hskip ▸ hd))]
        rfl
  have hindex : i = (State.of { s with cursor := s.cursor.advance n }).index := by
    rw [hi, State.of, offset_advance hle, Int.natCast_add]
  rw [hindex]
  exact .again (hs.moved (s.cursor.between_advance n)) (Cursor.text_advance ..)
    (by rw [Cursor.size_advance]; omega) hrun

/-- A token is read, and the scan goes on. -/
theorem turns_of_step {m : Lexer Unit} (hs : s.Sound) (h : Answers m (State.within s) s.step) :
    Turns s (perform (m >>= fun _ => do return .again (← get).index) (State.within s)) := by
  cases hstep : s.step with
  | ok s' =>
      rw [hstep] at h
      rw [perform_bind_ok h]
      have hmove := move_of_step hstep
      obtain ⟨taken, hbetween⟩ := hmove.exists_between
      exact .again (hs.of_move hmove) hbetween.text_eq (size_step_lt hstep) (run_of_step hstep)
  | error a =>
      rw [hstep] at h
      obtain ⟨f, st', hm, rfl⟩ := h
      rw [perform_bind_error hm]
      exact .fault (run_of_step_error hstep)

theorem turns_of_slash {rest : List Char} (ht : s.cursor.text = t) (hs : s.Sound)
    (hrest : s.cursor.rest = '/' :: rest) :
    Turns s (perform (readSlash t s.cursor.offset >>= fun _ => do return .again (← get).index)
      (State.within s)) := by
  have hat : At t s.cursor.offset s.cursor := at_of_text ht
  have ha := hat.ahead
  rw [hrest] at ha
  have hnext : charAt? t ((s.cursor.offset : Int) + 1) = rest.head? := ha.charAt?_succ
  have hsize : s.cursor.size = rest.length + 1 := by rw [Cursor.size, hrest, List.length_cons]
  rw [readSlash, hnext]
  by_cases hline : rest.head? = some '/'
  · obtain ⟨cs, rfl⟩ := List.head?_eq_some_iff.1 hline
    have hcomment : lineComment t (s.cursor.offset + 1) = _ :=
      lineComment_eq ((ha.tail rfl).tail rfl)
    have hle := lineLength_le cs
    rw [List.length_cons] at hsize
    rw [if_pos hline, hcomment]
    exact turns_of_skipTrivia (n := lineLength cs + 2) hs (by omega) (by omega)
      (skipTrivia_of_line hrest) (by push_cast; omega)
  rw [if_neg hline]
  by_cases hblock : rest.head? = some '*'
  · obtain ⟨cs, rfl⟩ := List.head?_eq_some_iff.1 hblock
    have hcomment : blockComment t (s.cursor.offset + 1) = _ :=
      blockComment_eq ((ha.tail rfl).tail rfl)
    rw [List.length_cons] at hsize
    rw [if_pos hblock, hcomment]
    cases hclose : lengthBefore? "*/".toList cs with
    | none =>
        dsimp only
        rw [Int.add_sub_cancel, perform_bind_error (perform_bind_error (perform_fail hat _))]
        exact .fault (run_of_step_error (step_of_gap_error (skipTrivia_of_unclosed hrest hclose)))
    | some n =>
        have hle := add_two_le_of_lengthBefore? hclose
        exact turns_of_skipTrivia (n := n + 4) hs (by omega) (by omega)
          (skipTrivia_of_block hrest hclose) (by push_cast; omega)
  rw [if_neg hblock]
  -- Neither comment has begun, so the step reads an expression or a single sign.
  have hgap : ¬ (isSpace '/' || startsComment s.cursor.rest) = true := by
    rw [hrest, Bool.or_eq_true, startsComment_cons]
    simp [hline, hblock, isSpace]
  have hallowed : regexAllowed t (State.within s) = .ok s.regexAllowed :=
    regexAllowed_eq (endsAt_of_suffix ht hs.lastToken) (endsAt_of_suffix ht hs.lastOpener)
  refine turns_of_step hs (answers_bind perform_get ?_)
  rw [hallowed, step_of_rest hrest, stepAt, if_neg hgap, if_pos rfl]
  refine answers_bind (perform_lift _) ?_
  by_cases hregex : s.regexAllowed = true
  · rw [if_pos hregex, if_pos hregex]
    have hpeek : s.cursor.peek? = some '/' := by rw [Cursor.peek?, hrest, List.head?_cons]
    have hreads : Reads _ _ _ := reads_moveTo (s := s) (regex_eq hat hpeek)
    rwa [Reads, bind_assoc] at hreads
  · rw [if_neg hregex, if_neg hregex]
    exact reads_char (by simp [hrest])

theorem perform_turn (s : Scan) :
    perform (turn t) (State.of s) = perform (readAt t s.cursor.offset) (State.within s) := by
  have hindex : (State.of s).index + 1 = s.cursor.offset := Int.sub_add_cancel ..
  change perform (readAt t ((State.of s).index + 1))
    { State.of s with index := (State.of s).index + 1 } = _
  rw [hindex]
  rfl

/-- A round of the scan does what a step does. -/
theorem turns (ht : s.cursor.text = t) (hs : s.Sound) :
    Turns s (perform (turn t) (State.of s)) := by
  have ha : Ahead t s.cursor.offset s.cursor.rest := (at_of_text ht).ahead
  rw [perform_turn, readAt]
  cases hrest : s.cursor.rest with
  | nil =>
      rw [hrest] at ha
      rw [if_pos ha.length_le]
      exact .finished hrest
  | cons ch rest =>
      rw [hrest] at ha
      rw [if_neg ha.not_length_le, ha.access_eq, perform_bind_ok (perform_lift _)]
      by_cases hspace : isSpace ch = true
      · have hsize : 1 ≤ s.cursor.size := by simp [Cursor.size, hrest]
        rw [if_pos hspace]
        exact turns_of_skipTrivia hs Nat.one_pos hsize (Cursor.skipTrivia_of_isSpace hrest hspace)
          (Int.add_sub_cancel ..).symm
      rw [if_neg hspace]
      by_cases hslash : ch = '/'
      · subst hslash
        rw [if_pos rfl]
        exact turns_of_slash ht hs hrest
      · rw [if_neg hslash]
        have hreads := reads_readToken ht hs hrest (Bool.eq_false_iff.2 hspace) hslash
        have hturn := turns_of_step hs hreads
        rwa [bind_assoc] at hturn

/-! ### The whole scan -/

theorem start_eq (source : List Char) : State.start = State.of (Scan.start source) := rfl

theorem left_of (ht : s.cursor.text = t) : left t (State.of s).index = s.cursor.size + 1 := by
  have hlength : (s.cursor.offset : Int) + s.cursor.size = t.length :=
    (at_of_text ht).ahead.add_length_eq
  simp only [left, State.of]
  omega

/-- The rounds from a state on come to the end of the source or to a fault, as the steps do. -/
theorem perform_rounds (ht : s.cursor.text = t) (hs : s.Sound) :
    (∃ s', s'.cursor.text = t ∧ s'.cursor.rest = [] ∧ s.run = s'.run ∧
      perform (loop (left t) (fun _ => turn t) (State.of s).index) (State.of s) =
        (.ok (), State.within s')) ∨
    ∃ f st', s.run = ⟨st'.imports, st'.exports, some f⟩ ∧
      perform (loop (left t) (fun _ => turn t) (State.of s).index) (State.of s) =
        (.error (.fault f), st') := by
  induction hsize : s.cursor.size using Nat.strong_induction_on generalizing s with
  | _ size ih =>
  have hturn := turns ht hs
  generalize hresult : perform (turn t) (State.of s) = result at hturn
  cases hturn with
  | finished hend => exact .inl ⟨s, ht, hend, rfl, perform_loop_done hresult⟩
  | fault run_eq => exact .inr ⟨_, _, run_eq, perform_loop_error hresult⟩
  | @again s' sound text_eq size_lt run_eq =>
      have ht' : s'.cursor.text = t := text_eq.trans ht
      have hrank : left t (State.of s').index < left t (State.of s).index := by
        rw [left_of ht, left_of ht']
        exact Nat.succ_lt_succ size_lt
      rw [perform_loop_again hresult hrank, run_eq]
      exact ih _ (hsize ▸ size_lt) ht' sound rfl

theorem unbalanced_iff : ((State.within s).braces ≠ 0 ∨ (State.within s).template ≠ -1 ∨
    (State.within s).openers ≠ []) ↔ (s.braces ≠ 0 ∨ s.templates ≠ [] ∨ s.openers ≠ []) := by
  rw [Ne, Ne, Ne, Ne, openers_eq_nil_iff]
  simp only [State.within, State.of, counts]
  cases s.templates <;> simp

/-- The analysis by indices does not break down, and it is the analysis. -/
theorem analyze_eq (source : List Char) : analyze source = .ok (Source.analyze source) := by
  rw [analyze, run, start_eq, Source.analyze]
  obtain ⟨s, ht, hend, hrun, hperform⟩ | ⟨f, st, hrun, hperform⟩ :=
    perform_rounds (s := Scan.start source) rfl (sound_start source)
  · have hstep : s.run = s.finish := run_of_step_error (by rw [step, hend])
    have hrounds : perform (loop (left source) (fun _ => turn source) (-1)) _ = _ := hperform
    have hat : At source source.length s.cursor := by
      have hlength := (at_of_text ht).ahead.add_length_eq
      rw [hend] at hlength
      exact ⟨ht, hlength.symm.trans (Int.add_zero _)⟩
    rw [hrun, hstep, Scan.finish, perform_bind_ok hrounds, perform_bind_ok perform_get]
    split
    · rw [if_pos (unbalanced_iff.1 ‹_›), perform_fail hat]
      rfl
    · rw [if_neg (mt unbalanced_iff.2 ‹_›)]
      rfl
  · rw [hrun]
    have hrounds : perform (loop (left source) (fun _ => turn source) (-1)) _ = _ := hperform
    rw [perform_bind_error hrounds]
    rfl

/-! ### Between two rounds -/

/-- The states between two rounds. -/
def Reached (t : List Char) : State → Prop :=
  Relation.ReflTransGen (fun st st' => ∃ i, perform (turn t) st = (.ok (.again i), st')) .start

/-- What is reached by rounds is a sound state of the scan. -/
theorem Reached.exists_scan (h : Reached t st) :
    ∃ s : Scan, s.Sound ∧ s.cursor.text = t ∧ st = State.of s := by
  induction h with
  | refl => exact ⟨Scan.start t, sound_start t, rfl, start_eq t⟩
  | tail _ hround ih =>
      obtain ⟨s, hs, ht, rfl⟩ := ih
      obtain ⟨i, hi⟩ := hround
      have hturn := turns ht hs
      rw [hi] at hturn
      cases hturn with
      | @again s' sound text_eq => exact ⟨s', sound, text_eq.trans ht, rfl⟩

/-- The saved numbers of braces, outermost first, and the innermost one. -/
def State.levels (st : State) : List Int := st.templates.reverse ++ [st.template]

/-- The numbers of open braces of a state are in order. -/
structure State.Ordered (st : State) : Prop where
  nonneg : 0 ≤ st.braces
  outermost : st.levels.head? = some (-1)
  increasing : st.levels.Pairwise (· < ·)
  le : ∀ level ∈ st.levels, level ≤ st.braces

theorem levels_eq (s : Scan) : (State.of s).levels = (counts s).reverse := by
  rw [State.levels, ← template_cons_templates, List.reverse_cons]

theorem ordered_of_sound (hs : s.Sound) : (State.of s).Ordered := by
  refine ⟨Int.natCast_nonneg _, ?_, ?_, ?_⟩
  · rw [levels_eq, List.head?_reverse, counts, List.getLast?_concat]
  · rw [levels_eq, List.pairwise_reverse, counts, List.pairwise_append]
    refine ⟨List.pairwise_map.2 (hs.decreasing.imp fun h => Int.ofNat_lt.2 h),
      List.pairwise_singleton .., ?_⟩
    simp only [List.mem_map, List.mem_singleton]
    rintro _ ⟨b, -, rfl⟩ _ rfl
    omega
  · simp only [levels_eq, List.mem_reverse, counts, List.mem_append, List.mem_map,
      List.mem_singleton]
    rintro _ (⟨b, hb, rfl⟩ | rfl)
    · exact Int.ofNat_le.2 (hs.le b hb)
    · exact Int.le_trans (by decide) (Int.natCast_nonneg s.braces)

theorem Turns.ne_crash {result : Checked (Round Int Unit) × State} (h : Turns s result)
    (crash : Crash) : result.1 ≠ .error (.crash crash) := by
  cases h <;> rintro ⟨⟩

theorem Turns.index_lt {st' : State} (h : Turns s (.ok (.again i), st')) :
    (State.of s).index < st'.index := by
  cases h with
  | @again s' sound text_eq size_lt =>
      have hlength : (s.cursor.offset : Int) + s.cursor.size = s.cursor.text.length :=
        (at_of_text rfl).ahead.add_length_eq
      have hlength' : (s'.cursor.offset : Int) + s'.cursor.size = s.cursor.text.length :=
        (at_of_text text_eq).ahead.add_length_eq
      simp only [State.of]
      omega

/-- The analysis never breaks down: it fetches no character and pops no stack where there is none,
and every round of every loop moves on. Between two rounds the numbers of open braces are in order,
so that a closing brace never leaves fewer of them than the innermost substitution has. -/
theorem never_breaks_down (source : List Char) :
    analyze source = .ok (Source.analyze source) ∧
    ∀ st, Reached source st → st.Ordered ∧
      (st.braces ≠ st.template → ¬ st.braces - 1 < st.template) ∧
      (∀ crash, (perform (turn source) st).1 ≠ .error (.crash crash)) ∧
      ∀ i st', perform (turn source) st = (.ok (.again i), st') → st.index < st'.index := by
  refine ⟨analyze_eq source, fun st hst => ?_⟩
  obtain ⟨s, hs, ht, rfl⟩ := hst.exists_scan
  have hordered := ordered_of_sound hs
  have hturn := turns ht hs
  refine ⟨hordered, fun hne => ?_, fun crash hcrash => ?_, fun i st' hround => ?_⟩
  · have hle := hordered.le (State.of s).template (by simp [State.levels])
    omega
  · exact hturn.ne_crash crash hcrash
  · exact Turns.index_lt (hround ▸ hturn)

/-- An object in the substitution of a template. -/
def objectInTemplate : List Char := "\x60$\x7b\x7b\x7d\x7d\x60".toList

/-- The state in that substitution. -/
def inSubstitution : State := { State.start with
  index := 2, lastToken := 2, braces := 1, template := 1, templates := [-1] }

/-- The state in that object. -/
def inObject : State := { inSubstitution with
  index := 3, lastToken := 3, openers := [2], braces := 2 }

/-- The state behind that object. -/
def behindObject : State := { inSubstitution with
  index := 4, lastToken := 4, lastOpener := 2 }

theorem turn_objectInTemplate :
    perform (turn objectInTemplate) State.start = (.ok (.again 2), inSubstitution) := by
  have hchunk : chunk objectInTemplate 0 = .ok (.substitution, 2) :=
    chunk_eq (show Ahead objectInTemplate 0 ('\x60' :: _) from ⟨[], rfl, rfl⟩)
  have htemplate : perform (template objectInTemplate) { State.start with index := 0 } =
      (.ok (), { inSubstitution with lastToken := -1 }) := by
    rw [template, perform_bind_ok perform_get, hchunk]
    rfl
  have hturn : perform (turn objectInTemplate) State.start = perform (do
      template objectInTemplate
      markToken
      return .again (← get).index) { State.start with index := 0 } := rfl
  rw [hturn, perform_bind_ok htemplate]
  rfl

theorem never_breaks_down_inObject :
    Reached objectInTemplate inObject ∧ inObject.Ordered ∧ inObject.braces ≠ inObject.template ∧
    ¬ inObject.braces - 1 < inObject.template ∧
    perform (turn objectInTemplate) inObject = (.ok (.again 4), behindObject) ∧
    inObject.index < behindObject.index := by
  have hreached : Reached objectInTemplate inObject :=
    .tail (.single ⟨2, turn_objectInTemplate⟩) ⟨3, rfl⟩
  have hne : inObject.braces ≠ inObject.template := by decide
  have hclose : perform (turn objectInTemplate) inObject = (.ok (.again 4), behindObject) := rfl
  obtain ⟨hordered, hcheck, -, hindex⟩ := (never_breaks_down objectInTemplate).2 inObject hreached
  exact ⟨hreached, hordered, hne, hcheck hne, hclose, hindex 4 behindObject hclose⟩

/-- From a state that is out of order a round may break down. -/
example : (perform (turn "\x7d".toList) { State.start with braces := -1 }).1 =
    .error (.crash .emptyStack) := rfl

end Indexed

end ImportAtlas.Source
