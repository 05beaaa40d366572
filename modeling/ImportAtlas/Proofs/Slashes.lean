import ImportAtlas.Proofs.Spellings

/-!
# Slashes

Whether a slash divides or opens a regular expression, the scan decides by the text behind two
remembered places. These places are where the last token, and the token in front of its own
bracket, end, so that the decision is the one that the rule makes of the history. The exceptions
are tokens that the scan does not see: a keyword directly behind a quote, and what an export
statement ends with if that is the brace of its list, or white space.

## Summary

* `Scan.Tracks` is what the state of a scan knows of its history.
* `History.Regular` rules out the tokens that the scan does not see.
* `Scan.FollowsRule` says that the next step is the one that the rule asks for.

## Main results

* `tracks_of_historyOf`: every state tracks its history.
* `slashes_follow_rule`: behind a regular history, the scan follows the rule at every slash.
* `slashes_misread`: behind others it does not.
-/

namespace ImportAtlas.Source

open History

/-! ### What a state knows of its history -/

/-- The remembered places are those of the history. -/
structure Scan.Tracks (s : Scan) (h : History) : Prop where
  past : Spells h s.cursor.past
  lastToken : Spells h.noted s.lastToken
  /-- Statements are read outside of brackets, so that brackets which one leaves open do not
  matter. -/
  openers : ∃ live, live <+: openBrackets h ∧
    List.Forall₂ (fun opener (bracket : Char × History) => Spells bracket.2.noted opener) s.openers
      live
  lastOpener : ∀ e before, h.noted = e :: before → e.exported = false →
    (ownBracket? e.sign).isSome = true → ∃ bracket ∈ (openBrackets before).head?,
      Spells bracket.2.noted s.lastOpener

section Steps

variable {s t : Scan} {h : History} {c d : Cursor} {text : List Char} {signs : List Sign}

/-! ### One step -/

theorem noted_cons {e : Entry} (he : e.sign ≠ .gap ∨ e.exported = true) :
    noted (e :: h) = e :: h := by
  have : (decide (e.sign = .gap) && !e.exported) = false := by
    rcases he with he | he <;> simp [he]
  simp [noted, this]

namespace Scan

/-- A token that is no bracket. -/
theorem Tracks.token {sign : Sign} (ht : Tracks s h) (hgap : sign ≠ .gap) (hsign : sign.NoBracket)
    (hopeners : t.openers = s.openers) (hlast : t.lastToken = t.cursor.past)
    (hspells : Spells (⟨sign, false⟩ :: h) t.cursor.past) : Tracks t (⟨sign, false⟩ :: h) where
  past := hspells
  lastToken := by
    rw [noted_cons (.inl hgap), hlast]
    exact hspells
  openers := by
    rw [openBrackets_of_noBracket hsign, hopeners]
    exact ht.openers
  lastOpener e before hnoted _ hown := by
    rw [noted_cons (.inl hgap)] at hnoted
    obtain ⟨rfl, -⟩ := List.cons.inj hnoted
    rw [ownBracket?_of_noBracket hsign] at hown
    cases hown

/-- An opening bracket. -/
theorem Tracks.opened {opener : Char} {before : History} (ht : Tracks s h)
    (hopener : opener = '(' ∨ opener = '\x7b') (hbefore : openBrackets before = openBrackets h)
    {past : Past} (hnoted : Spells before.noted past) (hopeners : t.openers = past :: s.openers)
    (hlast : t.lastToken = t.cursor.past)
    (hspells : Spells (⟨.char opener, false⟩ :: before) t.cursor.past) :
    Tracks t (⟨.char opener, false⟩ :: before) where
  past := hspells
  lastToken := by
    rw [noted_cons (.inl (by simp)), hlast]
    exact hspells
  openers := by
    obtain ⟨live, hlive, hall⟩ := ht.openers
    refine ⟨(opener, before) :: live, ?_, ?_⟩
    · rw [openBrackets_opener hopener, hbefore]
      exact List.prefix_cons_inj _ |>.2 hlive
    · rw [hopeners]
      exact .cons hnoted hall
  lastOpener e outer houter _ hown := by
    rw [noted_cons (.inl (by simp))] at houter
    obtain ⟨rfl, -⟩ := List.cons.inj houter
    rcases hopener with rfl | rfl <;> cases hown

/-- A closing bracket. -/
theorem Tracks.closed {closer : Char} (ht : Tracks s h)
    (hcloser : closer = ')' ∨ closer = '\x7d') {past : Past} {openers : List Past}
    (hs : s.openers = past :: openers) (hopeners : t.openers = openers)
    (hpast : t.lastOpener = past) (hlast : t.lastToken = t.cursor.past)
    (hspells : Spells (⟨.char closer, false⟩ :: h) t.cursor.past) :
    Tracks t (⟨.char closer, false⟩ :: h) := by
  obtain ⟨live, hlive, hall⟩ := ht.openers
  rw [hs] at hall
  obtain ⟨bracket, live, hbracket, hrest, rfl⟩ := List.forall₂_cons_left_iff.1 hall
  obtain ⟨more, hmore⟩ := hlive
  have hopen : openBrackets (⟨.char closer, false⟩ :: h) = live ++ more := by
    rw [openBrackets_closer hcloser, ← hmore]
    rfl
  exact {
    past := hspells
    lastToken := by
      rw [noted_cons (.inl (by simp)), hlast]
      exact hspells
    openers := ⟨live, hopen ▸ List.prefix_append live more, hopeners ▸ hrest⟩
    lastOpener := fun e before hnoted _ _ => by
      rw [noted_cons (.inl (by simp))] at hnoted
      obtain ⟨-, rfl⟩ := List.cons.inj hnoted
      exact ⟨bracket, by simp [← hmore], hpast ▸ hbracket⟩ }

theorem Tracks.gap (ht : Tracks s h) (hread : s.cursor.Reads .gap d) (hd : d.rest ≠ []) :
    Tracks { s with cursor := d } (⟨.gap, false⟩ :: h) where
  past := ht.past.gap hread hd
  lastToken := ht.lastToken
  openers := ht.openers
  lastOpener := ht.lastOpener

/-- What the character that comes next adds to the text. -/
theorem between_of_peek? {ch : Char} (hpeek : c.peek? = some ch) :
    c.Between [ch] (c.advance 1) := by
  obtain ⟨rest, hrest⟩ : ∃ rest, c.rest = ch :: rest := List.head?_eq_some_iff.1 hpeek
  simpa [hrest] using c.between_advance 1

theorem spells_of_peek? {ch : Char} (hs : Spells h c.past) (hpeek : c.peek? = some ch) :
    Spells (⟨.char ch, false⟩ :: h) (c.advance 1).past := by
  rw [(between_of_peek? hpeek).past_eq]
  exact .char hs

/-- The text of one character that comes next. -/
theorem signOf_of_peek? {ch : Char} (hpeek : c.peek? = some ch)
    (hbetween : c.Between text (c.advance 1)) (hspace : isSpace ch = false)
    (hquote : isQuote ch = false) (htick : ch ≠ '\x60') : signOf text = .char ch := by
  rw [hbetween.unique (between_of_peek? hpeek), signOf_char hspace hquote htick]

/-- A piece of a template. -/
theorem Tracks.chunk {e : ChunkEnd} {n : Nat} {first : Char} (ht : Tracks s h)
    (hpeek : s.cursor.peek? = some first) (hfirst : first = '\x60' ∨ first = '\x7d')
    (hchunk : chunkLength? (s.cursor.rest.drop 1) = some (e, n))
    (hcursor : t.cursor = s.cursor.advance (n + 1)) (hopeners : t.openers = s.openers)
    (hlast : t.lastToken = t.cursor.past) (hbetween : s.cursor.Between text t.cursor) :
    Tracks t (⟨signOf text, false⟩ :: h) := by
  obtain ⟨cs, hcs, hsign⟩ := exists_of_chunk hpeek hfirst hchunk
  rw [← hcursor] at hcs
  rw [hbetween.unique hcs, hsign]
  have hgap : e.sign.1 ≠ .gap := by cases e <;> simp [ChunkEnd.sign]
  exact ht.token hgap (noBracket_of_char?_eq_none e.endsWith.char?_eq) hopeners hlast
    (ht.past.longer_of_between e.endsWith hcs)

/-- A statement that opens no bracket. -/
theorem Tracks.statement {e : Entry} {marks : History} (ht : Tracks s h)
    (he : e.sign ≠ .gap ∨ e.exported = true)
    (hclosed : e.exported = false → ownBracket? e.sign = none)
    (hsigns : s.openers = [] ∨ ∀ e' ∈ e :: marks, e'.sign.NoBracket)
    (hopeners : t.openers = s.openers) (hlast : t.lastToken = t.cursor.past)
    (hspells : Spells (e :: marks ++ h) t.cursor.past) : Tracks t (e :: marks ++ h) where
  past := hspells
  lastToken := by
    rw [List.cons_append, noted_cons he, hlast]
    exact hspells
  openers := by
    rw [hopeners]
    rcases hsigns with htop | hsigns
    · -- no bracket is remembered, whichever ones the statement holds
      exact ⟨[], List.nil_prefix, htop ▸ .nil⟩
    · rw [openBrackets_append_of_balanced (balanced_of_noBracket hsigns)]
      exact ht.openers
  lastOpener e' before hnoted hexported hown := by
    rw [List.cons_append, noted_cons he] at hnoted
    obtain ⟨rfl, -⟩ := List.cons.inj hnoted
    rw [hclosed hexported] at hown
    cases hown

/-- One token. -/
theorem Tracks.step_token (ht : Tracks s h) (hstep : s.step = .ok t) (hno : ¬ s.AtStatement)
    (hbetween : s.cursor.Between text t.cursor) (ht' : t.cursor.rest ≠ []) :
    Tracks t (⟨signOf text, false⟩ :: h) := by
  cases move_of_step hstep with
  | gap read =>
      rw [signOf_gap read hbetween ht']
      exact ht.gap read ht'
  | @char ch d read plain divides =>
      obtain _ | _ | ⟨hrest, begins, noQuote⟩ := read
      have hpeek : s.cursor.peek? = some ch := by simp [Cursor.peek?, hrest]
      simp only [Plain, List.mem_cons, List.not_mem_nil, or_false, not_or] at plain
      have hspace : isSpace ch = false := begins.1 ch hpeek
      rw [signOf_of_peek? hpeek hbetween hspace noQuote plain.2.2.2.2]
      refine ht.token (by simp) ?_ rfl rfl (spells_of_peek? ht.past hpeek)
      rintro c hc
      obtain rfl := Option.some.inj hc
      simp [plain]
  | string read =>
      rw [signOf_literal read hbetween]
      exact ht.token (by simp) (noBracket_of_char?_eq_none rfl) rfl rfl (ht.past.literal read)
  | regex slash begins allowed skip =>
      obtain ⟨body, hbody⟩ := Cursor.exists_of_skipRegex skip slash
      rw [hbetween.unique hbody, signOf_regex begins hbody]
      exact ht.token (by simp) (noBracket_of_char?_eq_none rfl) rfl rfl
        (ht.past.longer_of_between rfl hbody)
  | openParen peek =>
      rw [signOf_of_peek? peek hbetween (by decide) (by decide) (by decide)]
      exact ht.opened (.inl rfl) rfl ht.lastToken rfl rfl (spells_of_peek? ht.past peek)
  | openBrace peek =>
      rw [signOf_of_peek? peek hbetween (by decide) (by decide) (by decide)]
      exact ht.opened (.inr rfl) rfl ht.lastToken rfl rfl (spells_of_peek? ht.past peek)
  | closeParen peek openers_eq =>
      rw [signOf_of_peek? peek hbetween (by decide) (by decide) (by decide)]
      exact ht.closed (.inl rfl) openers_eq rfl rfl rfl (spells_of_peek? ht.past peek)
  | closeBrace peek openers_eq =>
      rw [signOf_of_peek? peek hbetween (by decide) (by decide) (by decide)]
      exact ht.closed (.inr rfl) openers_eq rfl rfl rfl (spells_of_peek? ht.past peek)
  | @template e n peek chunk =>
      cases e <;> exact ht.chunk peek (.inl rfl) chunk rfl rfl rfl hbetween
  | @resume e n peek templates chunk =>
      cases e <;> exact ht.chunk peek (.inr rfl) chunk rfl rfl rfl hbetween
  | imports keyword => exact absurd (.inl keyword) hno
  | exports keyword top => exact absurd (.inr ⟨keyword, top⟩) hno

end Scan

/-! ### Imports -/

/-- The signs of the keyword, latest first. -/
def importSigns : List Sign := ("import".toList.map Sign.char).reverse

theorem passes_import (hkey : c.atKeyword "import".toList = true) :
    c.Passes importSigns (c.advance 6) :=
  Cursor.passes_of_atKeyword hkey (List.all_eq_true.1 rfl)

theorem passes_gap (hskip : c.skipTrivia = .ok d) :
    ∃ gaps, (∀ sign ∈ gaps, sign = .gap) ∧ c.Passes gaps d :=
  ⟨_, by split <;> simp, Cursor.passes_skipTrivia hskip⟩

theorem noBracket_of_isIdentifierChar {word : List Char}
    (hword : ∀ ch ∈ word, isIdentifierChar ch = true) :
    ∀ sign ∈ (word.map Sign.char).reverse, sign.NoBracket := by
  have hbrackets : ∀ ch ∈ ['(', ')', '\x7b', '\x7d'], isIdentifierChar ch = false :=
    List.all_iff_forall_prop.1 (by decide)
  intro sign hsign ch hch hbracket
  obtain ⟨ch', hmem, rfl⟩ := List.mem_map.1 (List.mem_reverse.1 hsign)
  obtain rfl := Option.some.inj hch
  exact absurd (hbrackets ch' hbracket) (by simp [hword ch' hmem])

theorem noBracket_importSigns : ∀ sign ∈ importSigns, sign.NoBracket :=
  noBracket_of_isIdentifierChar (List.all_eq_true.1 rfl)

theorem noBracket_of_gaps {gaps : List Sign} (hgaps : ∀ sign ∈ gaps, sign = .gap) :
    ∀ sign ∈ gaps, sign.NoBracket := by
  intro sign hsign
  rw [hgaps sign hsign]
  exact noBracket_of_char?_eq_none rfl

/-- A call opens a bracket behind the keyword. Nothing else that an import statement reads within
brackets does, and it ends with a sign that the scan sees. -/
theorem ImportRead.exists_signs {bracketed : Bool} {statement : Statement}
    (hkey : c.atKeyword "import".toList = true) (hread : ImportRead bracketed c statement d) :
    (∃ gaps, (∀ sign ∈ gaps, sign = .gap) ∧ statement.opener? = some (c.advance 6).past ∧
        (c.advance 6).rest ≠ [] ∧ c.Passes (.char '(' :: (gaps ++ importSigns)) d) ∨
      ∃ signs, statement.opener? = none ∧ c.Passes signs d ∧
        (∃ sign ∈ signs.head?, sign ≠ .gap ∧ ownBracket? sign = none) ∧
        (bracketed = false ∨ ∀ sign ∈ signs, sign.NoBracket) := by
  have hword := passes_import hkey
  have hdot : (Sign.char '.').NoBracket := by
    rintro ch hch
    obtain rfl := Option.some.inj hch
    decide
  cases hread with
  | @call e skip peek =>
      obtain ⟨gaps, hgaps, hpasses⟩ := passes_gap skip
      refine .inl ⟨gaps, hgaps, rfl, fun hend => ?_, (hword.trans hpasses).tail
        (Cursor.reads_char peek (by decide) (by decide) (by decide))⟩
      -- At the end of the text nothing would be skipped, and no parenthesis would follow.
      rw [Cursor.skipTrivia_of_begins (hend ▸ ⟨by simp, rfl⟩)] at skip
      obtain rfl := Except.ok.inj skip
      simp [Cursor.peek?, hend] at peek
  | @itself e f skip peek skip' word =>
      obtain ⟨gaps, hgaps, hpasses⟩ := passes_gap skip
      obtain ⟨gaps', hgaps', hpasses'⟩ := passes_gap skip'
      have hmeta := f.passes_identifier
      rw [word] at hmeta
      refine .inr ⟨_, rfl, (((hword.trans hpasses).tail
        (Cursor.reads_char peek (by decide) (by decide) (by decide))).trans hpasses').trans hmeta,
        ⟨.char 'a', rfl, by simp, rfl⟩, .inr ?_⟩
      have hletters := @noBracket_of_isIdentifierChar "meta".toList (List.all_eq_true.1 rfl)
      simp only [List.forall_mem_append, List.forall_mem_cons]
      exact ⟨hletters, noBracket_of_gaps hgaps', hdot, noBracket_of_gaps hgaps,
        noBracket_importSigns⟩
  | @property e skip peek =>
      obtain ⟨gaps, hgaps, hpasses⟩ := passes_gap skip
      refine .inr ⟨_, rfl, (hword.trans hpasses).tail
        (Cursor.reads_char peek (by decide) (by decide) (by decide)),
        ⟨.char '.', rfl, by simp, rfl⟩, .inr ?_⟩
      simp only [List.forall_mem_append, List.forall_mem_cons]
      exact ⟨hdot, noBracket_of_gaps hgaps, noBracket_importSigns⟩
  | word => exact .inr ⟨_, rfl, hword, ⟨.char 't', rfl, by simp, rfl⟩,
      .inr noBracket_importSigns⟩
  | declaration top onward atQuote static =>
      obtain ⟨signs, hsigns⟩ := onward
      obtain ⟨next, hskip, heq⟩ := exists_of_map_eq_ok static
      obtain rfl := (Prod.mk.inj heq).2
      exact .inr ⟨_, rfl, (hword.trans hsigns).tail (.string atQuote hskip),
        ⟨.literal, rfl, by simp, rfl⟩, .inl top⟩

namespace Scan

/-- An import statement. -/
theorem Tracks.step_imports (ht : Tracks s h) (hstep : s.step = .ok t)
    (hkey : s.cursor.atKeyword "import".toList = true) (hpasses : s.cursor.Passes signs t.cursor)
    (ht' : t.cursor.rest ≠ []) : Tracks t (entries signs ++ h) := by
  obtain ⟨d, hd, rfl⟩ := take_eq_ok ((step_of_import hkey).symm.trans hstep)
  have hspells : Spells (entries signs ++ h) d.past :=
    ht.past.passes hpasses ht' (map_sign_entries signs)
  rcases (importRead_of_next hkey hd).exists_signs hkey with
    ⟨gaps, hgaps, hopener, hrest, hcall⟩ | ⟨signs', hopener, hother, ⟨sign, hhead, hsign⟩, hplain⟩
  · obtain rfl := hpasses.unique hcall
    have hbefore : openBrackets (entries (gaps ++ importSigns) ++ h) = openBrackets h := by
      refine openBrackets_append_of_balanced (balanced_of_noBracket ?_) h
      rw [forall_mem_entries, List.forall_mem_append]
      exact ⟨noBracket_of_gaps hgaps, noBracket_importSigns⟩
    -- the keyword stands in front of the bracket, whatever white space lies between
    have hnoted : Spells (noted (entries (gaps ++ importSigns) ++ h))
        (s.cursor.advance 6).past := by
      rw [entries_append, List.append_assoc, noted, List.dropWhile_append_of_pos]
      · exact ht.past.passes (passes_import hkey) hrest (map_sign_entries importSigns)
      · rw [forall_mem_entries]
        intro sign hsign
        simp [hgaps sign hsign]
    have hopeners : (s.behind (importStatement (s.openers ≠ []) s.cursor) d).openers =
        (s.cursor.advance 6).past :: s.openers := by
      rw [behind, hopener]
      rfl
    exact ht.opened (.inl rfl) hbefore hnoted hopeners rfl hspells
  · obtain rfl := hpasses.unique hother
    obtain ⟨more, rfl⟩ := List.head?_eq_some_iff.1 hhead
    have hopeners : (s.behind (importStatement (s.openers ≠ []) s.cursor) d).openers =
        s.openers := by
      rw [behind, hopener]
      rfl
    have hsigns : s.openers = [] ∨ ∀ e ∈ entries (sign :: more), e.sign.NoBracket :=
      hplain.imp (by simp) forall_mem_entries.2
    exact ht.statement (.inl hsign.1) (fun _ => hsign.2) hsigns hopeners rfl hspells

/-- An export statement. -/
theorem Tracks.step_exports {sign : Sign} (ht : Tracks s h) (hstep : s.step = .ok t)
    (hkey : s.cursor.atKeyword "export".toList = true) (htop : s.openers = [])
    (hpasses : s.cursor.Passes (sign :: signs) t.cursor) (ht' : t.cursor.rest ≠ []) :
    Tracks t (⟨sign, true⟩ :: entries signs ++ h) := by
  obtain ⟨d, hd, rfl⟩ := take_eq_ok ((step_of_export hkey).symm.trans hstep)
  have hopeners : (s.behind (exportStatement (s.openers ≠ []) s.cursor) d).openers =
      s.openers := by
    rw [behind, (gives_exportStatement (s.openers ≠ []) hkey).opener?_eq]
    rfl
  exact ht.statement (.inr rfl) (by simp) (.inl htop) hopeners rfl
    (ht.past.passes hpasses ht' (congrArg (sign :: ·) (map_sign_entries signs)))

theorem tracks_start (source : List Char) : Tracks (start source) [] :=
  ⟨.nil, .nil, ⟨[], List.nil_prefix, .nil⟩, fun _ _ hnoted => by cases hnoted⟩

/-- What one step reads, its state knows. -/
theorem Tracks.step {more : History} (ht : Tracks s h) (hstep : s.step = .ok t)
    (hreads : s.Reads t more) (ht' : t.cursor.rest ≠ []) : Tracks t (more ++ h) := by
  cases hreads with
  | token noStatement between => exact ht.step_token hstep noStatement between ht'
  | imports keyword passes => exact ht.step_imports hstep keyword passes ht'
  | exports keyword top passes => exact ht.step_exports hstep keyword top passes ht'

theorem rest_ne_nil_of_step (hstep : s.step = .ok t) : s.cursor.rest ≠ [] := by
  intro hend
  rw [Scan.step, hend] at hstep
  cases hstep

end Scan

/-- Every state that a scan comes to, as long as the source goes on, tracks its history. -/
theorem tracks_of_historyOf {source : List Char} (hs : HistoryOf source s h)
    (hrest : s.cursor.rest ≠ []) : s.Tracks h := by
  induction hs with
  | start => exact Scan.tracks_start source
  | step _ hstep hreads ih => exact (ih (Scan.rest_ne_nil_of_step hstep)).step hstep hreads hrest

end Steps

/-! ### The decision -/

/-- The scan sees the tokens on which a slash behind a history depends. -/
structure History.Regular (h : History) : Prop where
  /-- No export statement ends with the white space behind the last token. -/
  apart : h.overread = false
  /-- No quote stands directly in front of a keyword of expressions. -/
  keyword : h.settled.behindQuote = true → h.settled.word ∉ expressionKeywords
  /-- A closing bracket closes one of its own kind. It does not end the list of an export statement,
  and the token in front of its own bracket is seen if a condition or statements begin there. -/
  bracket : ∀ e before opener opens, h.settled = e :: before →
    ownBracket? e.sign = some (opener, opens) → e.exported = false ∧
      ∃ outer, (openBrackets before).head? = some (opener, outer) ∧
        (opens outer = true → outer.unseen = false)

section Decision

variable {s : Scan} {h : History} {source : List Char}

/-- Behind a closing bracket of its own, the scan decides by the token in front of its bracket. -/
theorem regexAllowed_of_ownBracket? {e : Entry} {before outer : History} {opener : Char}
    {opens : History → Bool} (ht : s.Tracks h) (hnoted : h.noted = e :: before)
    (hown : ownBracket? e.sign = some (opener, opens)) (hexported : e.exported = false)
    (houter : (openBrackets before).head? = some (opener, outer))
    (hseen : opens outer = true → outer.unseen = false) : s.regexAllowed = opens outer := by
  obtain ⟨bracket, hbracket, hopener⟩ := ht.lastOpener e before hnoted hexported (by simp [hown])
  obtain rfl := Option.some.inj (hbracket.symm.trans houter)
  have hopens : (opens outer && !outer.unseen) = opens outer := by
    cases ho : opens outer with
    | false => rfl
    | true => rw [hseen ho]; rfl
  have hlast := ht.lastToken
  rw [hnoted] at hlast
  rw [← hopens, Scan.regexAllowed]
  generalize s.lastToken = past at hlast
  cases hlast with
  | char rest =>
      rcases ownBracket?_eq_some.1 hown with ⟨hc, -, rfl⟩ | ⟨hc, -, rfl⟩ <;>
        rw [Sign.char.injEq] at hc <;> subst hc
      · exact opensCondition_eq hopener
      · exact heldStatements_eq hopener
  | longer rest ends =>
      rcases ownBracket?_eq_some.1 hown with ⟨rfl, -⟩ | ⟨rfl, -⟩ <;> exact ends.elim

/-- Behind anything else, the scan decides by the last token. -/
theorem regexAllowed_of_spells {e : Entry} {before : History}
    (hlast : Spells (e :: before) s.lastToken) (hgap : e.sign ≠ .gap)
    (hown : ownBracket? e.sign = none)
    (hquote : behindQuote (e :: before) = true → word (e :: before) ∉ expressionKeywords) :
    s.regexAllowed = match e.sign with
      | .gap | .literal => false
      | .substitution | .regex => true
      | .char c => isPunctuator c && c ≠ ']' ||
          expressionKeywords.contains (word (e :: before)) := by
  have hkeywords : expressionKeywords.contains (wordBehind s.lastToken) =
      expressionKeywords.contains (word (e :: before)) := by
    rw [hlast.contains_wordBehind (by decide)]
    cases hq : behindQuote (e :: before) with
    | false => simp
    | true => simp [hquote hq]
  rw [Scan.regexAllowed]
  -- From here on the last token counts only as the text that the signs spell.
  generalize s.lastToken = past at hlast hkeywords
  cases hlast with
  | @char c exported h past rest =>
      have hparen : c ≠ ')' := by rintro rfl; cases hown
      have hbrace : c ≠ '\x7d' := by rintro rfl; cases hown
      dsimp only [List.head?_cons]
      rw [hkeywords]
      cases hc : isPunctuator c with
      | false => simp
      | true =>
          have hin : Entry.inWord ⟨.char c, exported⟩ = false := by
            simp [Entry.inWord, Sign.char?, isIdentifierChar, hc]
          have hnil : expressionKeywords.contains [] = false := by decide
          rw [word_of_not_inWord hin, hnil]
          simp [hparen, hbrace, bne, Bool.beq_eq_decide_eq]
  | @longer sign exported h past last more rest ends =>
      have hin : Entry.inWord ⟨sign, exported⟩ = false := by simp [Entry.inWord, ends.char?_eq]
      have hnil : expressionKeywords.contains [] = false := by decide
      dsimp only [List.head?_cons]
      rw [hkeywords, word_of_not_inWord hin, hnil]
      cases sign with
      | gap => exact absurd rfl hgap
      | char => exact ends.elim
      | literal =>
          have hmark : isPunctuator last = false := by
            rcases ends with hq | rfl
            · simp only [isQuote, Bool.or_eq_true, beq_iff_eq] at hq
              rcases hq with rfl | rfl <;> decide
            · decide
          simp [hmark]
      | substitution | regex =>
          obtain rfl : last = _ := ends
          rfl

theorem regexAllowed_eq (ht : s.Tracks h) (hr : h.Regular) : s.regexAllowed = h.awaitsRegex := by
  have hnoted := noted_eq_settled hr.apart
  have hlast := ht.lastToken
  rw [hnoted] at hlast
  rw [awaitsRegex]
  cases hh : h.settled with
  | nil =>
      rw [hh] at hlast
      rw [Scan.regexAllowed, hlast.eq_nil]
      rfl
  | cons e before =>
      rw [hh] at hlast
      dsimp only
      cases hown : ownBracket? e.sign with
      | some own =>
          obtain ⟨opener, opens⟩ := own
          obtain ⟨hexported, outer, houter, hseen⟩ := hr.bracket e before opener opens hh hown
          rw [regexAllowed_of_ownBracket? ht (hnoted.trans hh) hown hexported houter hseen]
          simp [houter]
      | none =>
          have hgap : e.sign ≠ .gap := by
            intro hgap
            have := List.head?_dropWhile_not (fun e : Entry => decide (e.sign = .gap)) h
            rw [← settled, hh] at this
            simp [hgap] at this
          exact regexAllowed_of_spells hlast hgap hown (hh ▸ hr.keyword)

/-- At a slash, the next step is the one that the rule asks for. -/
def Scan.FollowsRule (s : Scan) (h : History) : Prop :=
  s.step = if h.awaitsRegex then s.moveTo s.cursor.skipRegex
    else s.moveTo (.ok (s.cursor.advance 1))

theorem followsRule_of_tracks (ht : s.Tracks h) (hr : h.Regular)
    (hslash : s.cursor.peek? = some '/') (hcomment : startsComment s.cursor.rest = false) : s.FollowsRule h := by
  obtain ⟨rest, hrest⟩ : ∃ rest, s.cursor.rest = '/' :: rest := List.head?_eq_some_iff.1 hslash
  have hgap : (isSpace '/' || startsComment s.cursor.rest) = false := by
    rw [hcomment]
    decide
  rw [Scan.FollowsRule, ← regexAllowed_eq ht hr, Scan.step_of_rest hrest, Scan.stepAt, hgap]
  simp only [Bool.false_eq_true, if_false, if_true]

/-- At every slash outside of comments, behind a regular history, the scan opens a regular
expression exactly where the rule has one. -/
theorem slashes_follow_rule (source : List Char) (s : Scan) (hlead : (Scan.start source).Leads s)
    (hslash : s.cursor.peek? = some '/') (hcomment : startsComment s.cursor.rest = false) :
    (∃! h, HistoryOf source s h) ∧ ∀ h, HistoryOf source s h → h.Regular → s.FollowsRule h := by
  obtain ⟨h, hs⟩ := exists_historyOf hlead
  refine ⟨⟨h, hs, fun _ hs' => hs'.unique hs⟩, fun h hs hr => ?_⟩
  have hrest : s.cursor.rest ≠ [] := by
    rintro hend
    simp [Cursor.peek?, hend] at hslash
  exact followsRule_of_tracks (tracks_of_historyOf hs hrest) hr hslash hcomment

/-- Behind a condition, a slash opens a regular expression. -/
theorem slash_behind_condition : ∃ s h, HistoryOf "if(a)/b/".toList s h ∧
    h.awaitsRegex = true ∧ s.FollowsRule h := by
  have hs := (((((@HistoryOf.start "if(a)/b/".toList).token ['i'] rfl (by decide)
    ⟨rfl, rfl⟩).token ['f'] rfl (by decide) ⟨rfl, rfl⟩).token ['('] rfl (by decide)
    ⟨rfl, rfl⟩).token ['a'] rfl (by decide) ⟨rfl, rfl⟩).token [')'] rfl (by decide) ⟨rfl, rfl⟩
  refine ⟨_, _, hs, rfl, (slashes_follow_rule _ _ hs.leads rfl rfl).2 _ hs ⟨rfl, by decide, ?_⟩⟩
  intro e before opener opens hsettled hown
  obtain ⟨rfl, rfl⟩ := List.cons.inj hsettled
  obtain ⟨rfl, rfl⟩ := Prod.mk.inj (Option.some.inj hown)
  exact ⟨rfl, _, rfl, fun _ => rfl⟩

/-! ### Misread slashes -/

/-- The list of an export statement in front of a division. -/
def bracedSource : List Char := "export \x7ba\x7d / b".toList

/-- A place in this source. -/
def bracedPlace (n : Nat) : Cursor := (Scan.start bracedSource).cursor.advance n

/-- Behind the list, the scan remembers no bracket of it. -/
theorem step_bracedSource : (Scan.start bracedSource).step =
    .ok { (Scan.start bracedSource).token (bracedPlace 10) with exports := ["a"] } := by
  have hnames : exportedNames (bracedPlace 8) = (["a"], .ok (bracedPlace 9)) := by
    rw [exportedNames]
    rfl
  have hskip : ((bracedPlace 7).advance 1).skipTrivia = .ok (bracedPlace 8) := rfl
  have hlist : exportList (bracedPlace 7) = ⟨[], ["a"], none, .ok (bracedPlace 10)⟩ := by
    rw [exportList, hskip]
    dsimp only
    rw [hnames]
    rfl
  have hstatement : exportStatement ((Scan.start bracedSource).openers ≠ [])
      (Scan.start bracedSource).cursor = _ := hlist
  rw [Scan.step_of_export (by decide), Scan.take, hstatement]
  rfl

theorem passes_bracedSource : (Scan.start bracedSource).cursor.Passes
    (.char '\x7d' :: .char 'a' :: .char '\x7b' :: .gap :: ("export".toList.map Sign.char).reverse)
    (bracedPlace 10) := by
  have hgap : (bracedPlace 6).Reads .gap (bracedPlace 7) := .gap rfl (by decide)
  have hopen : (bracedPlace 7).Reads (.char '\x7b') (bracedPlace 8) :=
    Cursor.reads_char rfl rfl (by decide) rfl
  have hname : (bracedPlace 8).Reads (.char 'a') (bracedPlace 9) :=
    Cursor.reads_char rfl rfl (by decide) rfl
  have hclose : (bracedPlace 9).Reads (.char '\x7d') (bracedPlace 10) :=
    Cursor.reads_char rfl rfl (by decide) rfl
  have hword := Cursor.passes_of_atKeyword (c := (Scan.start bracedSource).cursor)
    (by decide : _ = true) (List.all_eq_true.1 (rfl : "export".toList.all isIdentifierChar = true))
  exact (((hword.tail hgap).tail hopen).tail hname).tail hclose

/-- A slash behind a keyword that a quote stands in front of is taken for a division, and one behind
the list of an export statement for the beginning of a regular expression. -/
theorem slashes_misread :
    (∃ s h, HistoryOf "\"a\"in/'/".toList s h ∧ s.cursor.peek? = some '/' ∧
      startsComment s.cursor.rest = false ∧ h.awaitsRegex = true ∧ ¬ s.FollowsRule h) ∧
    ∃ s h, HistoryOf bracedSource s h ∧ s.cursor.peek? = some '/' ∧
      startsComment s.cursor.rest = false ∧ h.awaitsRegex = false ∧ ¬ s.FollowsRule h := by
  constructor
  · have hs := (((@HistoryOf.start "\"a\"in/'/".toList).token "\"a\"".toList rfl (by decide)
      ⟨rfl, rfl⟩).token ['i'] rfl (by decide) ⟨rfl, rfl⟩).token ['n'] rfl (by decide) ⟨rfl, rfl⟩
    exact ⟨_, _, hs, rfl, rfl, rfl, fun h => by cases h⟩
  · have hs := (HistoryOf.start.step step_bracedSource
      (.exports (by decide) rfl passes_bracedSource)).token [' '] rfl (by decide) ⟨rfl, rfl⟩
    exact ⟨_, _, hs, rfl, rfl, rfl, fun h => by cases h⟩

end Decision

end ImportAtlas.Source
