import ImportAtlas.Proofs.Moves

/-!
# Where the recorded imports lie

A record spans what stands between two quotes, or a call or reference as a whole. The records do
not overlap and stand in the order of the text, whether or not the source is accepted: what the scan
has not read yet it will read as the look ahead at an argument has.

## Summary

* `ImportRecord.Delimited` says what stands where a record begins and ends.
* `Cursor.PlainText` is a literal that comes next; `Cursor.Awaits` says that one is still to be
  read.

## Main results

* `Scan.step_of_plainText`: the scan reads a literal as the look ahead does.
* `Scan.Ordered.step`: every step keeps the records delimited and ordered.
* `records_delimited_ordered`: so they are in every analysis, and its fault lies in the text or, for
  one kind of clause, one place behind it.
-/

namespace ImportAtlas.Source

/-! ### Literals -/

/-- A string or a template without substitution, as it is written. -/
structure PlainLiteral where
  /-- The character in front of it and behind it. -/
  quote : Char
  /-- The characters between the quotes. -/
  content : List Char
  /-- It ends with its last quote, and no substitution begins in it. -/
  isContent : isQuote quote = true ∧ IsStringContent quote content ∨
    quote = '\x60' ∧ IsTemplateContent content

/-- The characters of a literal. -/
def PlainLiteral.text (l : PlainLiteral) : List Char := l.quote :: l.content ++ [l.quote]

theorem PlainLiteral.isQuote_or (l : PlainLiteral) : isQuote l.quote = true ∨ l.quote = '\x60' :=
  l.isContent.imp And.left And.left

namespace Cursor

variable {c d first after : Cursor}

/-- A literal comes next, a string or a template without substitution, and a place lies behind
it. -/
inductive PlainText (c : Cursor) : Cursor → Prop where
  | string {d : Cursor} (atQuote : c.atQuote = true) (skip : c.skipString = .ok d) : PlainText c d
  | template {d : Cursor} (peek : c.peek? = some '\x60') (skip : c.skipPlainTemplate? = some d) :
      PlainText c d

theorem PlainText.begins (h : c.PlainText d) : Begins c.rest := by
  cases h with
  | string atQuote _ => exact begins_of_atQuote atQuote
  | template peek _ =>
      obtain ⟨rest, hrest⟩ : ∃ rest, c.rest = '\x60' :: rest := List.head?_eq_some_iff.1 peek
      exact hrest ▸ begins_cons (by decide) (by decide)

theorem PlainText.exists_between (h : c.PlainText d) : ∃ l : PlainLiteral, c.Between l.text d := by
  cases h with
  | string atQuote skip =>
      obtain ⟨quote, content, hcontent, hbetween⟩ := exists_of_skipString skip
      have hquote : isQuote quote = true := by
        simpa [Cursor.atQuote, peek?, hbetween.rest_eq] using atQuote
      exact ⟨⟨quote, content, .inl ⟨hquote, hcontent⟩⟩, hbetween⟩
  | template peek skip =>
      obtain ⟨t, hbetween⟩ := exists_of_skipPlainTemplate? skip peek
      exact ⟨⟨'\x60', t.content, .inr ⟨rfl, t.isTemplateContent⟩⟩, hbetween⟩

theorem plainText_iff : (if c.atQuote then c.skipString.toOption
    else if c.peek? = some '\x60' then c.skipPlainTemplate? else none) = some d ↔
      c.PlainText d := by
  constructor
  · intro h
    split at h
    · rename_i hquote
      cases hs : c.skipString with
      | error f => simp [hs, Except.toOption] at h
      | ok e => exact .string hquote (by simpa [hs, Except.toOption] using h)
    · split at h
      · exact .template ‹_› h
      · cases h
  · rintro (⟨hquote, hskip⟩ | ⟨hpeek, hskip⟩)
    · simp [hquote, hskip, Except.toOption]
    · have hquote : ¬ c.atQuote = true := by simp [atQuote, hpeek, isQuote]
      rw [if_neg hquote, if_pos hpeek, hskip]

/-- The look ahead at an argument finds a literal with nothing but white space and comments
between it and the parentheses. -/
theorem plainArgument?_eq_some : plainArgument? c = some (first, after) ↔
    c.skipTrivia = .ok first ∧ first.PlainText after ∧
      ∃ close, after.skipTrivia = .ok close ∧ close.peek? = some ')' := by
  unfold plainArgument?
  cases hfirst : c.skipTrivia with
  | error f => simp
  | ok e =>
      constructor
      · intro h
        dsimp only at h
        split at h
        · cases h
        rename_i after' heq
        split at h
        · rename_i close hclose
          split at h
          · rename_i hparen
            obtain ⟨rfl, rfl⟩ := Prod.mk.inj (Option.some.inj h)
            exact ⟨rfl, plainText_iff.1 heq, close, hclose, hparen⟩
          · cases h
        · cases h
      · rintro ⟨heq, hplain, close, hclose, hparen⟩
        obtain rfl := Except.ok.inj heq
        simp only [plainText_iff.2 hplain, hclose, if_pos hparen]

/-! ### What stands between two places -/

theorem Between.drop_text {taken : List Char} (h : c.Between taken d) :
    c.text.drop c.offset = taken ++ d.rest := by
  simp [text, offset, h.rest_eq]

theorem Between.getElem?_text {ch : Char} {taken : List Char} (h : c.Between (ch :: taken) d) :
    c.text[c.offset]? = some ch := by
  simp [text, offset, h.rest_eq]

theorem Between.span_eq {taken : List Char} (h : c.Between taken d) (kind : ImportKind) :
    (ImportRecord.mk c.offset d.offset kind).span c.text = taken := by
  simp [ImportRecord.span, h.drop_text, h.offset_eq]

end Cursor

namespace ImportRecord

/-- What a record spans stands between two equal quotes of some kind. -/
def InQuotes (source : List Char) (quote : Char → Prop) (r : ImportRecord) : Prop :=
  1 ≤ r.start ∧ r.start ≤ r.stop ∧ r.stop < source.length ∧
    ∃ q, quote q ∧ source[r.start - 1]? = some q ∧ source[r.stop]? = some q

/-- What stands where a record begins and ends, by its kind. -/
def Delimited (source : List Char) (r : ImportRecord) : Prop :=
  match r.kind with
  | .static => r.InQuotes source (isQuote · = true)
  | .dynamic argument true => 1 ≤ argument ∧ source[argument - 1]? = some '(' ∧
      r.InQuotes source fun q => isQuote q = true ∨ q = '\x60'
  | .dynamic argument false => 1 ≤ argument ∧ source[argument - 1]? = some '(' ∧
      r.stop = r.start + 6 ∧ r.span source = "import".toList
  | .itself => r.start ≤ r.stop ∧ r.stop ≤ source.length ∧
      "import".toList <+: r.span source ∧ "meta".toList <:+ r.span source

end ImportRecord

namespace Cursor

variable {c d : Cursor}

theorem Between.inQuotes {q : Char} {content : List Char} {quote : Char → Prop}
    (h : c.Between (q :: content ++ [q]) d) (hq : quote q) (kind : ImportKind) :
    (ImportRecord.mk (c.offset + 1) (d.offset - 1) kind).InQuotes c.text quote := by
  have hoffset := h.offset_eq
  have hlength := d.offset_le
  rw [h.text_eq] at hlength
  simp only [List.cons_append, List.length_cons, List.length_append, List.length_nil] at hoffset
  have hstop : d.offset - 1 = c.offset + (content.length + 1) := by omega
  refine ⟨by simp, ?_, ?_, q, hq, ?_, ?_⟩
  · dsimp only
    omega
  · dsimp only
    omega
  · exact h.getElem?_text
  · dsimp only
    rw [hstop]
    simp [text, offset, h.rest_eq]

end Cursor

/-! ### What single statements record -/

namespace Cursor

variable {c d : Cursor}

/-- A literal is still to be read, perhaps behind white space and comments, and a place lies in
it or in front of it. -/
def Awaits (c : Cursor) (stop : Nat) : Prop :=
  ∃ first after, c.skipTrivia = .ok first ∧ first.PlainText after ∧ stop ≤ after.offset

/-- A place has been passed, or lies in a literal that is still to be read. -/
def Settles (c : Cursor) (stop : Nat) : Prop := stop ≤ c.offset ∨ c.Awaits stop

/-- The one record of a statement that ends at a place, if it holds one. -/
def Records (c d : Cursor) (imports : List ImportRecord) : Prop :=
  ∀ r ∈ imports, imports = [r] ∧ r.Delimited c.text ∧ c.offset ≤ r.start ∧ d.Settles r.stop

end Cursor

variable {c d : Cursor} {record : ImportRecord}

theorem records_staticImport {quote next : Cursor} (h : c.Onward quote)
    (hquote : quote.atQuote = true) (hfound : staticImport quote = .ok (record, next)) :
    c.Records next [record] := by
  obtain ⟨e, he, heq⟩ := exists_of_map_eq_ok hfound
  obtain ⟨rfl, rfl⟩ := Prod.mk.inj heq
  intro r hr
  obtain rfl := List.mem_singleton.1 hr
  obtain ⟨q, content, -, hbetween⟩ := Cursor.exists_of_skipString he
  have hq : isQuote q = true := by
    simpa [Cursor.atQuote, Cursor.peek?, hbetween.rest_eq] using hquote
  refine ⟨rfl, ?_, Nat.le_succ_of_le h.offset_le, .inl (Nat.sub_le ..)⟩
  rw [← h.text_eq]
  exact hbetween.inQuotes hq .static

theorem records_dynamicImport (hkey : c.atKeyword "import".toList = true)
    (hd : (c.advance 6).Onward d) (hpeek : d.peek? = some '(') :
    c.Records (d.advance 1) [dynamicImport c (d.advance 1)] := by
  have hword : c.Between "import".toList (c.advance 6) := Cursor.between_of_atKeyword hkey
  have hsix : (c.advance 6).offset = c.offset + 6 := hword.offset_eq
  have htext : d.text = c.text := hd.text_eq.trans hword.text_eq
  have hle := hd.offset_le
  obtain ⟨rest, hrest⟩ : ∃ rest, d.rest = '(' :: rest := List.head?_eq_some_iff.1 hpeek
  have hparen : d.Between ['('] (d.advance 1) := .of_advance hrest
  have hargument : (d.advance 1).offset = d.offset + 1 := hparen.offset_eq
  have hopen : c.text[d.offset]? = some '(' := by
    rw [← htext]
    exact hparen.getElem?_text
  intro r hr
  obtain rfl := List.mem_singleton.1 hr
  refine ⟨rfl, ?_⟩
  unfold dynamicImport
  split
  · rename_i first after hplain
    obtain ⟨hfirst, hliteral, -⟩ := Cursor.plainArgument?_eq_some.1 hplain
    obtain ⟨l, hbetween⟩ := hliteral.exists_between
    have hskip := Cursor.onward_skipTrivia hfirst
    have hfirstText : first.text = c.text := by rw [hskip.text_eq, hparen.text_eq, htext]
    refine ⟨⟨hargument ▸ Nat.le_add_left .., ?_, ?_⟩, ?_, .inr ⟨first, after, hfirst, hliteral, ?_⟩⟩
    · simpa [hargument] using hopen
    · rw [← hfirstText]
      exact hbetween.inQuotes l.isQuote_or _
    · have := hskip.offset_le
      dsimp only
      omega
    · exact Nat.sub_le ..
  · refine ⟨⟨hargument ▸ Nat.le_add_left .., ?_, rfl, ?_⟩, Nat.le_refl _, .inl ?_⟩
    · simpa [hargument] using hopen
    · simpa [hsix] using hword.span_eq (.dynamic (d.advance 1).offset false)
    · dsimp only
      omega

theorem ImportRead.records {bracketed : Bool} {statement : Statement}
    (hkey : c.atKeyword "import".toList = true) (h : ImportRead bracketed c statement d) :
    c.Records d statement.imports := by
  have hword : c.Between "import".toList (c.advance 6) := Cursor.between_of_atKeyword hkey
  cases h with
  | call skip peek => exact records_dynamicImport hkey (Cursor.onward_skipTrivia skip) peek
  | @itself d e skip peek skip' word =>
      have hone := Cursor.onward_char peek (by decide) (by decide) (by decide)
      obtain ⟨taken, htaken⟩ := (((Cursor.onward_skipTrivia skip).trans hone).trans
        (Cursor.onward_skipTrivia skip')).exists_between
      have hmeta : e.Between "meta".toList (e.advance 4) := by
        have := e.between_identifier
        rwa [word] at this
      have hwhole := hword.trans (htaken.trans hmeta)
      have hstop : (e.advance 4).offset = e.offset + 4 := hmeta.offset_eq
      have hspan := hwhole.span_eq .itself
      rw [hstop] at hspan
      have hle : e.offset + 4 ≤ c.text.length := by
        rw [← hstop, ← hwhole.text_eq]
        exact (e.advance 4).offset_le
      have hoffset := hwhole.offset_eq
      intro r hr
      obtain rfl := List.mem_singleton.1 hr
      refine ⟨rfl, ⟨by dsimp only; omega, hle, ?_, ?_⟩, Nat.le_refl _,
        .inl (Nat.le_of_eq hstop.symm)⟩
      · exact hspan ▸ List.prefix_append ..
      · rw [hspan, ← List.append_assoc]
        exact List.suffix_append ..
  | property | word => exact fun r hr => absurd hr (by simp [Statement.plain])
  | declaration top onward atQuote static =>
      exact records_staticImport
        ((Cursor.onward_of_atKeyword hkey).trans onward) atQuote static

theorem Cursor.Gives.records {statement : Statement} (h : c.Gives statement)
    (hd : statement.next = .ok d) : c.Records d statement.imports := by
  obtain ⟨-, -, hnone | ⟨quote, record, next, honward, hat, hstatic, himports, hnext⟩⟩ := h
  · exact fun r hr => absurd hr (by simp [hnone])
  · obtain rfl := Except.ok.inj (hd.symm.trans hnext)
    exact himports ▸ records_staticImport honward hat hstatic

/-! ### What the scan records -/

namespace Scan

variable {s t : Scan} {source : List Char}

/-- The scan reads a literal as the look ahead does. -/
theorem step_of_plainText (h : s.cursor.PlainText d) : s.step = .ok (s.token d) := by
  cases h with
  | string atQuote skip =>
      obtain ⟨ch, hpeek, hch⟩ := (Option.any_eq_true ..).1 atQuote
      obtain ⟨rest, hrest⟩ : ∃ rest, s.cursor.rest = ch :: rest := List.head?_eq_some_iff.1 hpeek
      rw [step_of_rest hrest, stepAt, hrest]
      simp only [isQuote, Bool.or_eq_true, beq_iff_eq] at hch
      rcases hch with rfl | rfl <;>
        simp [isSpace, isQuote, startsComment, moveTo, skip]
  | template peek skip =>
      obtain ⟨n, hn, rfl⟩ := Option.map_eq_some_iff.1 skip
      obtain ⟨rest, hrest⟩ : ∃ rest, s.cursor.rest = '\x60' :: rest :=
        List.head?_eq_some_iff.1 peek
      unfold plainTemplateLength? at hn
      split at hn
      · rename_i m hm
        obtain rfl := Option.some.inj hn
        obtain ⟨content, tail, -, -, rfl⟩ := exists_of_chunkLength? hm
        have hchunk : s.templateChunk = .ok (s.token (s.cursor.advance (content.length + 2))) := by
          rw [templateChunk, hm]
          rfl
        rw [step_of_rest hrest, stepAt, hrest]
        simpa [isSpace, isQuote, startsComment, ChunkEnd.mark] using hchunk
      · cases hn

/-- A literal is read, or white space and comments in front of it are. -/
theorem settles_of_step {stop : Nat} (h : s.step = .ok t) (hs : s.cursor.Settles stop) :
    t.cursor.Settles stop := by
  obtain ⟨taken, htaken⟩ := (move_of_step h).exists_between
  rcases hs with hle | ⟨first, after, hskip, hliteral, hle⟩
  · exact .inl (Nat.le_trans hle (htaken.offset_eq ▸ Nat.le_add_right ..))
  · by_cases hfirst : first = s.cursor
    · subst hfirst
      obtain rfl := Except.ok.inj (h.symm.trans (step_of_plainText hliteral))
      exact .inl hle
    · obtain rfl := Except.ok.inj (h.symm.trans (step_of_gap (.gap hskip hfirst)))
      exact .inr ⟨first, after, Cursor.skipTrivia_of_begins hliteral.begins, hliteral, hle⟩

/-- No literal is still to be read where a word comes next. -/
theorem le_of_settles {stop : Nat} {ch : Char} {word : List Char}
    (hkey : c.atKeyword (ch :: word) = true) (hch : isIdentifierChar ch = true)
    (h : c.Settles stop) : stop ≤ c.offset := by
  rcases h with hle | ⟨first, after, hskip, hliteral, -⟩
  · exact hle
  · have hpeek := Cursor.peek?_of_atKeyword hkey
    obtain ⟨rest, hrest⟩ : ∃ rest, c.rest = ch :: rest := List.head?_eq_some_iff.1 hpeek
    rw [Cursor.skipTrivia_of_begins (hrest ▸ Cursor.begins_of_identifierChar hch)] at hskip
    obtain rfl := Except.ok.inj hskip
    cases hliteral with
    | string hquote _ =>
        have hno : isQuote ch = false := isQuote_of_isIdentifierChar hch
        simp [Cursor.atQuote, hpeek, hno] at hquote
    | template htick _ =>
        obtain rfl := Option.some.inj (hpeek.symm.trans htick)
        exact absurd hch (by decide)

/-- The records are delimited and ordered, and the scan has passed all of them, or will. -/
structure Ordered (source : List Char) (s : Scan) : Prop where
  text_eq : s.cursor.text = source
  delimited : ∀ r ∈ s.imports, r.Delimited source
  pairwise : s.imports.Pairwise fun r r' => r.stop ≤ r'.start
  settles : ∀ r ∈ s.imports, s.cursor.Settles r.stop

theorem ordered_start (source : List Char) : Ordered source (start source) :=
  ⟨rfl, by simp [start], by simp [start], by simp [start]⟩

/-- What a statement records lies behind all that has been recorded. -/
theorem Ordered.behind {statement : Statement} {ch : Char} {word : List Char}
    (h : Ordered source s) (hkey : s.cursor.atKeyword (ch :: word) = true)
    (hch : isIdentifierChar ch = true) (hd : s.cursor.Onward d)
    (hrecords : s.cursor.Records d statement.imports) (ht : s.step = .ok (s.behind statement d)) :
    Ordered source (s.behind statement d) := by
  have himports : (s.behind statement d).imports = s.imports ++ statement.imports := rfl
  refine ⟨hd.text_eq.trans h.text_eq, ?_, ?_, ?_⟩
  · rw [himports, List.forall_mem_append]
    exact ⟨h.delimited, fun r hr => h.text_eq ▸ (hrecords r hr).2.1⟩
  · rw [himports, List.pairwise_append]
    refine ⟨h.pairwise, ?_, fun r hr r' hr' => ?_⟩
    · rcases statement.imports.eq_nil_or_concat with hnone | ⟨more, r, hmore⟩
      · simp [hnone]
      · rw [(hrecords r (by simp [hmore])).1]
        exact List.pairwise_singleton ..
    · exact Nat.le_trans (le_of_settles hkey hch (h.settles r hr)) (hrecords r' hr').2.2.1
  · rw [himports, List.forall_mem_append]
    exact ⟨fun r hr => settles_of_step ht (h.settles r hr), fun r hr => (hrecords r hr).2.2.2⟩

/-- A step that records nothing. -/
theorem Ordered.same (h : Ordered source s) (hstep : s.step = .ok t)
    (himports : t.imports = s.imports) : Ordered source t := by
  obtain ⟨taken, htaken⟩ := (move_of_step hstep).exists_between
  exact ⟨htaken.text_eq.trans h.text_eq, himports ▸ h.delimited, himports ▸ h.pairwise,
    himports ▸ fun r hr => settles_of_step hstep (h.settles r hr)⟩

theorem Ordered.step (h : Ordered source s) (hstep : s.step = .ok t) : Ordered source t := by
  cases move_of_step hstep with
  | imports keyword read =>
      exact h.behind keyword (by decide) (read.onward keyword) (read.records keyword) hstep
  | exports keyword top next =>
      have hgives := gives_exportStatement false keyword
      exact h.behind keyword (by decide) (hgives.yields.ok next) (hgives.records next) hstep
  | @template e n | @resume e n => cases e <;> exact h.same hstep rfl
  | _ => exact h.same hstep rfl

theorem Ordered.leads (h : Ordered source s) (hlead : Leads s t) : Ordered source t := by
  induction hlead with
  | refl => exact h
  | tail _ hstep ih => exact ih.step hstep

end Scan

open Scan

/-- The scan of a source comes to a clause without specifier whose last sign is white space or a
comment. -/
def EndsInClause (source : List Char) : Prop := ∃ s, Leads (start source) s ∧ s.EndsInClause

theorem fault_of_endsInClause {source : List Char} (h : EndsInClause source) :
    (analyze source).fault? = some ⟨source.length + 1, .expectedSpecifier⟩ := by
  obtain ⟨s, hlead, hends⟩ := h
  obtain ⟨a, ha, hfault⟩ := step_of_endsInClause hends
  have htext : s.cursor.text = source := hlead.text_eq
  rw [analyze, hlead.run_eq, run_of_step_error ha, hfault, htext]

/-- A fault lies in the text unless the source ends in such a clause. -/
theorem position_of_not_endsInClause {source : List Char} (h : ¬ EndsInClause source)
    {fault : SyntaxFault} (hfault : (analyze source).fault? = some fault) :
    fault.position ≤ source.length := by
  obtain ⟨s, hlead, hend⟩ := exists_leads_error (start source)
  have htext : s.cursor.text = source := hlead.text_eq
  rcases halts_of_step_error hend with hhalts | ⟨hends, -⟩
  · exact htext ▸ hhalts.position_le fault hfault
  · exact absurd ⟨s, hlead, hends⟩ h

theorem imports_analyze (source : List Char) :
    ∃ s, Leads (start source) s ∧ (analyze source).imports = s.imports := by
  obtain ⟨s, hlead, hend⟩ := exists_leads_error (start source)
  rcases halts_of_step_error hend with hhalts | ⟨-, himports, -⟩
  · exact ⟨s, hlead, hhalts.imports_eq⟩
  · exact ⟨s, hlead, himports⟩

/-- Every record is delimited as its kind asks for, and the records stand in the order of the text
without overlap. A fault lies in the text, but for one: where white space or a comment is the last
sign of a clause without specifier, it lies one place behind the text. -/
theorem records_delimited_ordered (source : List Char) :
    (∀ r ∈ (analyze source).imports, r.Delimited source) ∧
    ((analyze source).imports.Pairwise fun r r' => r.stop ≤ r'.start) ∧
    ((∀ fault ∈ (analyze source).fault?, fault.position ≤ source.length) ↔
      ¬ EndsInClause source) ∧
    ((analyze source).fault? = some ⟨source.length + 1, .expectedSpecifier⟩ ↔
      EndsInClause source) := by
  obtain ⟨s, hlead, himports⟩ := imports_analyze source
  have hordered := (ordered_start source).leads hlead
  refine ⟨himports ▸ hordered.delimited, himports ▸ hordered.pairwise, ⟨fun h hends => ?_, ?_⟩,
    fun h => ?_, fault_of_endsInClause⟩
  · exact absurd (h _ (fault_of_endsInClause hends)) (Nat.not_succ_le_self _)
  · exact fun h fault hfault => position_of_not_endsInClause h hfault
  · by_contra hends
    exact absurd (position_of_not_endsInClause hends h) (Nat.not_succ_le_self _)

/-- The fault of a clause that ends in a space lies behind the text. -/
theorem fault_behind_text :
    (analyze "import a ".toList).fault? = some ⟨10, .expectedSpecifier⟩ ∧
    ¬ ∀ fault ∈ (analyze "import a ".toList).fault?,
      fault.position ≤ "import a ".toList.length := by
  have hname : importClause ⟨" tropmi".toList, "a ".toList⟩ =
      importClause ⟨"a tropmi".toList, " ".toList⟩ := by
    rw [importClause]
    rfl
  have hspace : importClause ⟨"a tropmi".toList, " ".toList⟩ =
      .error ⟨10, .expectedSpecifier⟩ := by
    rw [importClause]
    rfl
  have hread : (⟨"a tropmi".toList, " ".toList⟩ : Cursor).Reads .gap ⟨" a tropmi".toList, []⟩ :=
    .gap rfl (by decide)
  have hword : (⟨" tropmi".toList, "a ".toList⟩ : Cursor).Reads (.char 'a')
      ⟨"a tropmi".toList, " ".toList⟩ :=
    .char rfl (Cursor.begins_of_identifierChar (by decide)) (by decide)
  have hfault : (analyze "import a ".toList).fault? = some ⟨10, .expectedSpecifier⟩ :=
    fault_of_endsInClause ⟨start "import a ".toList, .refl, rfl, by decide,
      ⟨" tropmi".toList, "a ".toList⟩, _, [.char 'a'], ⟨" a tropmi".toList, []⟩, rfl, by decide,
      by decide, rfl, hname.trans hspace, rfl, hword.passes.tail hread, rfl⟩
  refine ⟨hfault, fun h => ?_⟩
  exact absurd (h _ hfault) (by decide)

end ImportAtlas.Source
