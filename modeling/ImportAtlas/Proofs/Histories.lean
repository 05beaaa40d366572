import ImportAtlas.Proofs.Moves

/-!
# What a scan has read

The state of a scan remembers two places of the text behind it and a place for each open bracket.
Its history is all that has been read. The documented rule for slashes is a function of the
history: which token was read last, and in front of which token its own bracket was opened.

## Summary

* `History` lists the signs that have been read, and `HistoryOf` says which ones lie behind a state.
* `History.openBrackets` are the brackets of a history that are still open.
* `History.awaitsRegex` is the rule.

## Main results

* `exists_historyOf`, `HistoryOf.unique`: every state of a scan has exactly one history.
* `openBrackets_of_balanced`: the bracket that a closing one closes is its own.
-/

namespace ImportAtlas.Source

/-! ### Histories -/

/-- A sign that has been read. -/
structure Entry where
  sign : Sign
  /-- Whether an export statement ends with it. -/
  exported : Bool
  deriving DecidableEq

/-- What has been read, latest sign first. -/
abbrev History := List Entry

/-- Signs with which no export statement ends. -/
def entries (signs : List Sign) : History := signs.map (⟨·, false⟩)

theorem map_sign_entries (signs : List Sign) : (entries signs).map Entry.sign = signs := by
  rw [entries, List.map_map]
  exact List.map_id signs

theorem entries_append (signs more : List Sign) :
    entries (signs ++ more) = entries signs ++ entries more := List.map_append

theorem forall_mem_entries {p : Entry → Prop} {signs : List Sign} :
    (∀ e ∈ entries signs, p e) ↔ ∀ sign ∈ signs, p ⟨sign, false⟩ := List.forall_mem_map

/-- The sign that the text of a token is. -/
def signOf (text : List Char) : Sign :=
  match text with
  | [] => .gap
  | c :: more =>
    if isSpace c || startsComment text then .gap
    else if isQuote c then .literal
    else if c = '\x60' || (c = '\x7d' && more ≠ []) then
      -- a piece of a template
      if text.getLast? = some '\x60' then .literal else .substitution
    else if more = [] then .char c
    else .regex

/-- A statement is read as a whole here. -/
def Scan.AtStatement (s : Scan) : Prop :=
  s.cursor.atKeyword "import".toList = true ∨
    s.cursor.atKeyword "export".toList = true ∧ s.openers = []

instance (s : Scan) : Decidable s.AtStatement :=
  inferInstanceAs (Decidable (_ = _ ∨ _ = _ ∧ _ = _))

/-- What lies between two states of a scan, if one step leads from one to the other: one token, or
the signs of a statement. -/
inductive Scan.Reads (s t : Scan) : History → Prop where
  | token {text : List Char} (noStatement : ¬ s.AtStatement)
      (between : s.cursor.Between text t.cursor) : Reads s t [⟨signOf text, false⟩]
  | imports {signs : List Sign} (keyword : s.cursor.atKeyword "import".toList = true)
      (passes : s.cursor.Passes signs t.cursor) : Reads s t (entries signs)
  | exports {sign : Sign} {signs : List Sign} (keyword : s.cursor.atKeyword "export".toList = true)
      (top : s.openers = []) (passes : s.cursor.Passes (sign :: signs) t.cursor) :
      Reads s t (⟨sign, true⟩ :: entries signs)

/-- The history of a state that the scan of a source comes to. -/
inductive HistoryOf (source : List Char) : Scan → History → Prop where
  | start : HistoryOf source (Scan.start source) []
  | step {s t : Scan} {h more : History} (before : HistoryOf source s h) (step : s.step = .ok t)
      (reads : s.Reads t more) : HistoryOf source t (more ++ h)

section Existence

variable {source : List Char} {s t : Scan} {h h' : History}

namespace Scan

theorem exists_reads (hstep : s.step = .ok t) : ∃ more, s.Reads t more := by
  by_cases himport : s.cursor.atKeyword "import".toList = true
  · obtain ⟨d, hd, rfl⟩ := take_eq_ok ((step_of_import himport).symm.trans hstep)
    obtain ⟨signs, hsigns⟩ := (importRead_of_next himport hd).onward himport
    exact ⟨_, .imports himport hsigns⟩
  by_cases hexport : s.cursor.atKeyword "export".toList = true ∧ s.openers = []
  · have hsize := size_step_lt hstep
    obtain ⟨d, hd, rfl⟩ := take_eq_ok ((step_of_export hexport.1).symm.trans hstep)
    obtain ⟨signs, hsigns⟩ := (gives_exportStatement _ hexport.1).yields.ok hd
    cases signs with
    | nil =>
        cases hsigns
        exact absurd hsize (Nat.lt_irrefl _)
    | cons sign signs => exact ⟨_, .exports hexport.1 hexport.2 hsigns⟩
  · obtain ⟨text, htext⟩ := (move_of_step hstep).exists_between
    exact ⟨_, .token (not_or.2 ⟨himport, hexport⟩) htext⟩

/-- No two statements begin at one place. -/
theorem not_import_and_export (himport : s.cursor.atKeyword "import".toList = true)
    (hexport : s.cursor.atKeyword "export".toList = true) : False := by
  have hi := Cursor.peek?_of_atKeyword himport
  cases hi.symm.trans (Cursor.peek?_of_atKeyword hexport)

theorem Reads.unique (hr : s.Reads t h) (hr' : s.Reads t h') : h = h' := by
  cases hr with
  | token noStatement between =>
      cases hr' with
      | token _ between' => rw [between.unique between']
      | imports keyword _ => exact absurd (.inl keyword) noStatement
      | exports keyword top _ => exact absurd (.inr ⟨keyword, top⟩) noStatement
  | imports keyword passes =>
      cases hr' with
      | token noStatement _ => exact absurd (.inl keyword) noStatement
      | imports _ passes' => rw [passes.unique passes']
      | exports keyword' _ _ => exact (not_import_and_export keyword keyword').elim
  | exports keyword top passes =>
      cases hr' with
      | token noStatement _ => exact absurd (.inr ⟨keyword, top⟩) noStatement
      | imports keyword' _ => exact (not_import_and_export keyword' keyword).elim
      | exports _ _ passes' =>
          obtain ⟨rfl, rfl⟩ := List.cons.inj (passes.unique passes')
          rfl

end Scan

theorem HistoryOf.token (hs : HistoryOf source s h) (text : List Char) (hstep : s.step = .ok t)
    (hno : ¬ s.AtStatement) (hbetween : s.cursor.Between text t.cursor) :
    HistoryOf source t (⟨signOf text, false⟩ :: h) :=
  .step hs hstep (.token hno hbetween)

theorem HistoryOf.leads (hs : HistoryOf source s h) : (Scan.start source).Leads s := by
  induction hs with
  | start => exact .refl
  | step _ hstep _ ih => exact ih.tail hstep

theorem exists_historyOf (hlead : (Scan.start source).Leads s) : ∃ h, HistoryOf source s h := by
  induction hlead with
  | refl => exact ⟨[], .start⟩
  | tail _ hstep ih =>
      obtain ⟨h, hs⟩ := ih
      obtain ⟨more, hmore⟩ := Scan.exists_reads hstep
      exact ⟨more ++ h, .step hs hstep hmore⟩

/-- A run comes to a state by one step only. -/
theorem Scan.Leads.step_unique {u s' : Scan} (hlead : Leads u s) (hlead' : Leads u s')
    (hstep : s.step = .ok t) (hstep' : s'.step = .ok t) : s = s' := by
  have hbehind {u v : Scan} (huv : Leads u v) (hu : u.step = .ok t) (hv : v.step = .ok t) :
      u = v := by
    rcases huv.cases_head with rfl | ⟨next, hnext, hlead⟩
    · rfl
    · obtain rfl := Except.ok.inj (hu.symm.trans hnext)
      exact absurd (size_step_lt hv) (Nat.not_lt.2 (Leads.size_le hlead))
  rcases hlead.total hlead' with h | h
  · exact hbehind h hstep hstep'
  · exact (hbehind h hstep' hstep).symm

theorem HistoryOf.unique (hs : HistoryOf source s h) (hs' : HistoryOf source s h') : h = h' := by
  have hstart {u : Scan} (hlead : (Scan.start source).Leads u)
      (hstep : u.step = .ok (Scan.start source)) : False :=
    absurd (Scan.size_step_lt hstep) (Nat.not_lt.2 hlead.size_le)
  induction hs generalizing h' with
  | start =>
      generalize hu : Scan.start source = u at hs'
      cases hs' with
      | start => rfl
      | step before hstep _ => exact (hstart before.leads (hu.symm ▸ hstep)).elim
  | step before hstep hreads ih =>
      cases hs' with
      | start => exact (hstart before.leads hstep).elim
      | step before' hstep' hreads' =>
          obtain rfl := before.leads.step_unique before'.leads hstep hstep'
          rw [ih before', hreads.unique hreads']

end Existence

section Texts

variable {c d : Cursor} {text : List Char}

/-! ### Texts of tokens -/

/-- White space and comments are passed over, if something else follows. -/
theorem Cursor.Reads.exists_gap (hread : c.Reads .gap d) (hd : d.rest ≠ []) :
    ∃ gap : Gap, gap ≠ [] ∧ c.Between gap.text d := by
  cases hread with
  | gap skip ne =>
      obtain ⟨gap, hgap, -⟩ := exists_of_skipTrivia skip hd
      refine ⟨gap, ?_, hgap⟩
      rintro rfl
      exact ne (by simpa [Gap.text] using hgap.eq_advance)

theorem Cursor.Reads.exists_literal (hread : c.Reads .literal d) :
    ∃ quote content, isQuote quote = true ∧ c.Between (quote :: content ++ [quote]) d := by
  cases hread with
  | string hquote skip =>
      obtain ⟨quote, content, -, hbetween⟩ := exists_of_skipString skip
      exact ⟨quote, content, by simpa [atQuote, peek?, hbetween.rest_eq] using hquote, hbetween⟩

theorem signOf_gap (hread : c.Reads .gap d) (hbetween : c.Between text d) (hd : d.rest ≠ []) :
    signOf text = .gap := by
  obtain ⟨gap, hne, hgap⟩ := hread.exists_gap hd
  obtain rfl := hbetween.unique hgap
  obtain ⟨f, gap, rfl⟩ := List.exists_cons_of_ne_nil hne
  cases f with
  | space ch hspace => simp [Gap.text, Filler.text, signOf, hspace]
  | line | block => simp [Gap.text, Filler.text, signOf, startsComment]

theorem signOf_char {ch : Char} (hspace : isSpace ch = false) (hquote : isQuote ch = false)
    (htick : ch ≠ '\x60') : signOf [ch] = .char ch := by
  simp [signOf, startsComment, hspace, hquote, htick]

theorem signOf_literal (hread : c.Reads .literal d) (hbetween : c.Between text d) :
    signOf text = .literal := by
  obtain ⟨quote, content, hquote, hstring⟩ := hread.exists_literal
  obtain rfl := hbetween.unique hstring
  have hne : quote ≠ '/' := by rintro rfl; exact absurd hquote (by decide)
  simp [signOf, isSpace_of_isQuote hquote, startsComment_eq_false hne, hquote]

/-- Two characters tell whether a comment begins. -/
theorem startsComment_congr (a b : Char) (rest rest' : List Char) :
    startsComment (a :: b :: rest) = startsComment (a :: b :: rest') := by
  by_cases ha : a = '/'
  · subst ha
    by_cases hb : b = '/' ∨ b = '*'
    · rcases hb with rfl | rfl <;> rfl
    · rw [not_or] at hb
      simp [startsComment, hb]
  · rw [startsComment_eq_false ha, startsComment_eq_false ha]

theorem signOf_regex {body : List Char} (hbegins : Begins c.rest)
    (hbetween : c.Between ('/' :: body ++ ['/']) d) : signOf ('/' :: body ++ ['/']) = .regex := by
  have hcomment : startsComment ('/' :: body ++ ['/']) = false := by
    have hrest := hbegins.2
    rw [hbetween.rest_eq] at hrest
    cases body with
    | nil => exact (startsComment_congr ..).trans hrest
    | cons ch body => exact (startsComment_congr ..).trans hrest
  simp only [List.cons_append] at hcomment ⊢
  simp [signOf, hcomment, isSpace, isQuote]

/-- The sign that a piece of a template is, and its last character. -/
def ChunkEnd.sign : ChunkEnd → Sign × Char
  | .closed => (.literal, '\x60')
  | .substitution => (.substitution, '\x7b')

/-- A piece of a template is one sign. -/
theorem exists_of_chunk {e : ChunkEnd} {n : Nat} {first : Char} (hpeek : c.peek? = some first)
    (hfirst : first = '\x60' ∨ first = '\x7d')
    (hchunk : chunkLength? (c.rest.drop 1) = some (e, n)) :
    ∃ cs, c.Between (cs ++ [e.sign.2]) (c.advance (n + 1)) ∧
      signOf (cs ++ [e.sign.2]) = e.sign.1 := by
  obtain ⟨body, hbody⟩ : ∃ body, c.rest = first :: body := List.head?_eq_some_iff.1 hpeek
  rw [hbody, List.drop_one, List.tail_cons] at hchunk
  obtain ⟨content, rest, -, rfl, rfl⟩ := exists_of_chunkLength? hchunk
  have htext : c.rest = (first :: (content ++ e.mark)) ++ rest := by simp [hbody]
  have hbetween := Cursor.Between.of_advance htext
  have hcomment : startsComment (first :: (content ++ e.mark)) = false :=
    startsComment_eq_false (by rcases hfirst with rfl | rfl <;> decide)
  have hspace : isSpace first = false := by rcases hfirst with rfl | rfl <;> decide
  have hquote : isQuote first = false := by rcases hfirst with rfl | rfl <;> decide
  have hmark : e.mark = e.mark.dropLast ++ [e.sign.2] := by cases e <;> rfl
  have hsplit : first :: (content ++ e.mark) =
      (first :: (content ++ e.mark.dropLast)) ++ [e.sign.2] := by
    conv_lhs => rw [hmark]
    simp
  refine ⟨first :: (content ++ e.mark.dropLast), ?_, ?_⟩
  · rw [← hsplit]
    simpa using hbetween
  · rw [← hsplit]
    have hlast : (first :: (content ++ e.mark)).getLast? = some e.sign.2 := by
      rw [hsplit, List.getLast?_concat]
    have hne : content ++ e.mark ≠ [] := by cases e <;> simp [ChunkEnd.mark]
    have hpiece : (decide (first = '\x60') || decide (first = '\x7d') &&
        decide (content ++ e.mark ≠ [])) = true := by
      rw [decide_eq_true hne, Bool.and_true]
      simpa using hfirst
    simp only [signOf, hspace, hcomment, Bool.or_self, Bool.false_eq_true, if_false, hquote, hlast,
      hpiece, if_true]
    cases e <;> rfl

end Texts

/-! ### Tokens -/

/-- The character that a sign is, if it is one. -/
def Sign.char? : Sign → Option Char
  | .char c => some c
  | _ => none

namespace Entry

/-- Whether a word goes on with this sign. -/
def inWord (e : Entry) : Bool := e.sign.char?.any isIdentifierChar

/-- Whether this sign ends with a quote. The clause of an import is read one character at a time,
so that a single quote of a template may be met there. -/
def quotes (e : Entry) : Bool :=
  e.sign = .literal || e.sign.char?.any fun c => isQuote c || c == '\x60'

end Entry

namespace History

/-- A history as far as its last token. -/
def settled (h : History) : History := h.dropWhile (·.sign = .gap)

/-- The word that a history ends with, empty if there is none. -/
def word (h : History) : List Char := ((h.takeWhile Entry.inWord).filterMap (·.sign.char?)).reverse

/-- The brackets that are open at the end of a history, innermost first, each with what was read
before it. A bracket that closes closes the innermost one. -/
def openBrackets : History → List (Char × History)
  | [] => []
  | e :: h =>
    match e.sign with
    | .char '(' => ('(', h) :: openBrackets h
    | .char '\x7b' => ('\x7b', h) :: openBrackets h
    | .char ')' => (openBrackets h).tail
    | .char '\x7d' => (openBrackets h).tail
    | _ => openBrackets h

/-! ### The rule -/

/-- A parenthesis that is opened here holds a condition. -/
def opensCondition (h : History) : Bool := conditionKeywords.contains h.settled.word

/-- A brace that is opened here holds statements. -/
def opensBlock (h : History) : Bool :=
  match h.settled with
  | [] => true
  | e :: before => e.sign = .char ';' || e.sign = .char ')' ||
      word (e :: before) = "finally".toList

/-- The bracket that a closing one belongs to, and what has to be true of the history before it for
a regular expression to follow. -/
def ownBracket? : Sign → Option (Char × (History → Bool))
  | .char ')' => some ('(', opensCondition)
  | .char '\x7d' => some ('\x7b', opensBlock)
  | _ => none

/-- Whether a slash opens a regular expression, by the last token: there is none, or it is a keyword
of expressions, or punctuation but no closing bracket; or it is a parenthesis or a brace whose own
bracket was opened where a condition, or where statements, begin. A regular expression counts as
punctuation, which its last slash is. -/
def awaitsRegex (h : History) : Bool :=
  match h.settled with
  | [] => true
  | e :: before =>
    match ownBracket? e.sign with
    | some (opener, opens) =>
      (openBrackets before).head?.any fun (c, outer) => c = opener && opens outer
    | none =>
      match e.sign with
      | .gap | .literal => false
      | .substitution | .regex => true
      | .char c => isPunctuator c && c ≠ ']' || expressionKeywords.contains (word (e :: before))

end History

/-! ### Own brackets -/

/-- A sign that is no bracket of a kind that the scan remembers. -/
def Sign.NoBracket (sign : Sign) : Prop := ∀ c ∈ sign.char?, c ∉ ['(', ')', '\x7b', '\x7d']

theorem noBracket_of_char?_eq_none {sign : Sign} (h : sign.char? = none) : sign.NoBracket := by
  intro c hc
  cases h.symm.trans hc

/-- Signs among which every bracket is closed, by one of its kind. -/
inductive Balanced : History → Prop where
  | nil : Balanced []
  | other {e : Entry} {h : History} (noBracket : e.sign.NoBracket) (rest : Balanced h) :
      Balanced (e :: h)
  | group {opening closing : Entry} {opener : Char} {opens : History → Bool} {inner outer : History}
      (opens_eq : opening.sign = .char opener)
      (own : History.ownBracket? closing.sign = some (opener, opens)) (inside : Balanced inner)
      (rest : Balanced outer) : Balanced (closing :: (inner ++ opening :: outer))

open History

theorem balanced_of_noBracket {h : History} (hh : ∀ e ∈ h, e.sign.NoBracket) : Balanced h := by
  induction h with
  | nil => exact .nil
  | cons e h ih =>
      rw [List.forall_mem_cons] at hh
      exact .other hh.1 (ih hh.2)

theorem openBrackets_opener {opener : Char} (h : opener = '(' ∨ opener = '\x7b') (exported : Bool)
    (before : History) : openBrackets (⟨.char opener, exported⟩ :: before) =
      (opener, before) :: openBrackets before := by
  rcases h with rfl | rfl <;> rfl

theorem openBrackets_closer {closer : Char} (h : closer = ')' ∨ closer = '\x7d') (exported : Bool)
    (before : History) : openBrackets (⟨.char closer, exported⟩ :: before) =
      (openBrackets before).tail := by
  rcases h with rfl | rfl <;> rfl

theorem openBrackets_of_noBracket {e : Entry} (he : e.sign.NoBracket) (h : History) :
    openBrackets (e :: h) = openBrackets h := by
  rcases e with ⟨_ | c | _ | _ | _, exported⟩
  case char =>
    have hc := he c rfl
    simp only [List.mem_cons, List.not_mem_nil, or_false, not_or] at hc
    rw [openBrackets]
    split <;> simp_all
  all_goals rfl

/-- The two kinds of brackets that close. -/
theorem ownBracket?_eq_some {sign : Sign} {opener : Char} {opens : History → Bool} :
    ownBracket? sign = some (opener, opens) ↔
      sign = .char ')' ∧ opener = '(' ∧ opens = opensCondition ∨
        sign = .char '\x7d' ∧ opener = '\x7b' ∧ opens = opensBlock := by
  unfold ownBracket?
  split <;> simp [eq_comm]
  simp_all

theorem ownBracket?_of_noBracket {sign : Sign} (hs : sign.NoBracket) : ownBracket? sign = none := by
  unfold ownBracket?
  split
  · exact absurd (hs _ rfl) (by decide)
  · exact absurd (hs _ rfl) (by decide)
  · rfl

/-- What is balanced leaves the open brackets as they are. -/
theorem openBrackets_append_of_balanced {h : History} (hb : Balanced h) (before : History) :
    openBrackets (h ++ before) = openBrackets before := by
  induction hb generalizing before with
  | nil => rfl
  | other noBracket _ ih =>
      rw [List.cons_append, openBrackets_of_noBracket noBracket, ih]
  | @group opening closing opener opens inner outer opens_eq own _ _ ihInside ihRest =>
      obtain ⟨opened, exported⟩ := opening
      obtain ⟨closed, exported'⟩ := closing
      obtain rfl : opened = .char opener := opens_eq
      rw [List.cons_append, List.append_assoc, List.cons_append]
      rcases ownBracket?_eq_some.1 own with ⟨hclosed, rfl, -⟩ | ⟨hclosed, rfl, -⟩ <;>
        obtain rfl : closed = _ := hclosed <;>
        simp only [openBrackets, ihInside, List.tail_cons, ihRest]

/-- With balanced signs between two brackets, the one that the second closes is the first. -/
theorem openBrackets_of_balanced {inner : History} (hb : Balanced inner) {opening : Entry}
    {opener : Char} {opens : History → Bool} {closing : Sign} (hopen : opening.sign = .char opener)
    (hown : ownBracket? closing = some (opener, opens)) (before : History) :
    (openBrackets (inner ++ opening :: before)).head? = some (opener, before) := by
  obtain ⟨opened, exported⟩ := opening
  obtain rfl : opened = .char opener := hopen
  rw [openBrackets_append_of_balanced hb]
  rcases ownBracket?_eq_some.1 hown with ⟨-, rfl, -⟩ | ⟨-, rfl, -⟩ <;> rfl

end ImportAtlas.Source
