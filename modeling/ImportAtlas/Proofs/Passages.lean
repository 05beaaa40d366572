import ImportAtlas.Source.Scan
import ImportAtlas.Proofs.Delimiters

/-!
# What the look aheads pass over

The look aheads at imports and exports read no tokens, but they move from one sign to the next: over
white space and comments as a whole, over strings as a whole, and over single characters. So the
place that they return is one that a reader of signs comes to as well.

## Summary

* `Sign` is a character, or what counts as one.
* `Cursor.Passes` says which signs stand between two places, and `Cursor.Onward` that only signs do.
* `Cursor.Yields` says that a look ahead moves onward or meets a fault in the text; `Cursor.Finds`
  and `Cursor.Gives` say the same of a search for a specifier and of a statement.

## Main results

* `finds_sourceString`, `gives_exportStatement`: every look ahead does.
* `clauseYields_importClause`: so does the one for the end of a clause, but it may place its fault
  behind the end of the text.
-/

namespace ImportAtlas.Source

/-- What stands in a text: a character, or what counts as one. -/
inductive Sign where
  /-- White space and comments. -/
  | gap
  /-- A character of a word or of punctuation. -/
  | char (c : Char)
  /-- A string, or the last piece of a template. -/
  | literal
  /-- A piece of a template in front of a substitution. -/
  | substitution
  /-- A regular expression. -/
  | regex
  deriving DecidableEq

namespace Cursor

/-- The sign that comes next, and the place behind it. -/
inductive Reads (c : Cursor) : Sign → Cursor → Prop where
  | gap {d : Cursor} (skip : c.skipTrivia = .ok d) (ne : d ≠ c) : Reads c .gap d
  | string {d : Cursor} (atQuote : c.atQuote = true) (skip : c.skipString = .ok d) :
      Reads c .literal d
  | char {ch : Char} {rest : List Char} (rest_eq : c.rest = ch :: rest) (begins : Begins c.rest)
      (noQuote : isQuote ch = false) : Reads c (.char ch) (c.advance 1)

/-- The signs between two places, latest first. -/
inductive Passes (c : Cursor) : List Sign → Cursor → Prop where
  | refl : Passes c [] c
  | tail {sign : Sign} {signs : List Sign} {d e : Cursor} (h : Passes c signs d)
      (hsign : d.Reads sign e) : Passes c (sign :: signs) e

/-- Only signs stand between two places. -/
def Onward (c d : Cursor) : Prop := ∃ signs, c.Passes signs d

variable {c d e : Cursor} {sign : Sign} {signs more : List Sign}

theorem Reads.passes (h : c.Reads sign d) : c.Passes [sign] d := .tail .refl h

theorem Reads.onward (h : c.Reads sign d) : c.Onward d := ⟨[sign], h.passes⟩

theorem Reads.exists_between (h : c.Reads sign d) : ∃ taken, c.Between taken d := by
  cases h with
  | gap skip _ =>
      obtain ⟨n, _, rfl⟩ := skipTrivia_eq_advance skip
      exact ⟨_, between_advance _ n⟩
  | string _ skip =>
      obtain ⟨n, rfl, _⟩ := skipString_eq_advance skip
      exact ⟨_, between_advance _ (n + 2)⟩
  | char => exact ⟨_, between_advance _ 1⟩

/-- There is no gap where a sign begins. -/
theorem begins_of_atQuote (h : c.atQuote = true) : Begins c.rest := by
  obtain ⟨past, _ | ⟨ch, rest⟩⟩ := c
  · cases h
  have hch : isQuote ch = true := h
  refine begins_cons (isSpace_of_isQuote hch) ?_
  rintro rfl
  exact absurd hch (by decide)

theorem Reads.not_gap (h : Begins c.rest) : ¬ c.Reads .gap d := by
  rintro (⟨skip, ne⟩ | _)
  rw [skipTrivia_of_begins h] at skip
  exact ne (Except.ok.inj skip).symm

/-- The sign that comes next is one. -/
theorem Reads.unique {sign' : Sign} (h : c.Reads sign d) (h' : c.Reads sign' e) :
    sign = sign' ∧ d = e := by
  cases h with
  | gap skip ne =>
      cases h' with
      | gap skip' _ => exact ⟨rfl, Except.ok.inj (skip.symm.trans skip')⟩
      | string atQuote _ => exact absurd (.gap skip ne) (not_gap (begins_of_atQuote atQuote))
      | char _ begins _ => exact absurd (.gap skip ne) (not_gap begins)
  | string atQuote skip =>
      cases h' with
      | gap skip' ne => exact absurd (.gap skip' ne) (not_gap (begins_of_atQuote atQuote))
      | string _ skip' => exact ⟨rfl, Except.ok.inj (skip.symm.trans skip')⟩
      | char rest_eq _ noQuote => simp [Cursor.atQuote, peek?, rest_eq, noQuote] at atQuote
  | char rest_eq begins noQuote =>
      cases h' with
      | gap skip' ne => exact absurd (.gap skip' ne) (not_gap begins)
      | string atQuote _ => simp [Cursor.atQuote, peek?, rest_eq, noQuote] at atQuote
      | char rest_eq' _ _ =>
          rw [(List.cons.inj (rest_eq.symm.trans rest_eq')).1]
          exact ⟨rfl, rfl⟩

theorem Passes.trans (h : c.Passes signs d) (h' : d.Passes more e) :
    c.Passes (more ++ signs) e := by
  induction h' with
  | refl => exact h
  | tail _ hsign ih => exact .tail ih hsign

theorem Passes.exists_between (h : c.Passes signs d) : ∃ taken, c.Between taken d := by
  induction h with
  | refl => exact ⟨[], .refl c⟩
  | tail _ hsign ih =>
      obtain ⟨taken, htaken⟩ := ih
      obtain ⟨more, hmore⟩ := hsign.exists_between
      exact ⟨_, htaken.trans hmore⟩

/-- The first sign. -/
theorem Passes.cases_head (h : c.Passes signs d) : signs = [] ∧ d = c ∨
    ∃ sign next more, c.Reads sign next ∧ next.Passes more d ∧ signs = more ++ [sign] := by
  induction h with
  | refl => exact .inl ⟨rfl, rfl⟩
  | tail h hsign ih =>
      rename_i last signs d e
      rcases ih with ⟨rfl, rfl⟩ | ⟨sign, next, more, hfirst, hnext, rfl⟩
      · exact .inr ⟨last, e, [], hsign, .refl, rfl⟩
      · exact .inr ⟨sign, next, last :: more, hfirst, hnext.tail hsign, rfl⟩

/-- Of two places that a reader of signs comes to, one lies behind the other. -/
theorem Passes.linear (h : c.Passes signs d) (h' : c.Passes more e) :
    (∃ rest, d.Passes rest e ∧ more = rest ++ signs) ∨
      ∃ rest, e.Passes rest d ∧ signs = rest ++ more := by
  induction h with
  | refl => exact .inl ⟨more, h', (List.append_nil _).symm⟩
  | tail _ hsign ih =>
      rcases ih with ⟨rest, hrest, rfl⟩ | ⟨rest, hrest, rfl⟩
      · rcases hrest.cases_head with ⟨rfl, rfl⟩ | ⟨first, next, rest, hfirst, hnext, rfl⟩
        · exact .inr ⟨_, hsign.passes, rfl⟩
        · obtain ⟨rfl, rfl⟩ := hsign.unique hfirst
          exact .inl ⟨rest, hnext, by simp⟩
      · exact .inr ⟨_, hrest.tail hsign, rfl⟩

theorem Reads.rest_ne_nil (h : c.Reads sign d) : c.rest ≠ [] := by
  intro hc
  cases h with
  | gap skip ne =>
      rw [skipTrivia_of_begins (hc ▸ ⟨by simp, rfl⟩)] at skip
      exact ne (Except.ok.inj skip).symm
  | string hquote _ => simp [Cursor.atQuote, peek?, hc] at hquote
  | char rest_eq _ _ => exact absurd (hc.symm.trans rest_eq) (by simp)

/-- The signs as far as the end of the text. -/
theorem Passes.eq_of_end (h : c.Passes signs d) (hd : d.rest = []) (h' : c.Passes more e)
    (he : e.rest = []) : signs = more := by
  rcases h.linear h' with ⟨rest, hrest, rfl⟩ | ⟨rest, hrest, rfl⟩ <;>
    rcases hrest.cases_head with ⟨rfl, -⟩ | ⟨sign, next, rest, hfirst, -, -⟩
  · rfl
  · exact absurd hd hfirst.rest_ne_nil
  · rfl
  · exact absurd he hfirst.rest_ne_nil

/-- A sign takes some text. -/
theorem Reads.size_lt (h : c.Reads sign d) : d.size < c.size := by
  have hrest := h.rest_ne_nil
  cases h with
  | gap skip ne =>
      obtain ⟨n, _, rfl⟩ := skipTrivia_eq_advance skip
      refine size_advance_lt (Nat.pos_of_ne_zero ?_) hrest
      rintro rfl
      exact ne (advance_zero c)
  | string _ skip => exact size_skipString_lt skip
  | char => exact size_advance_lt Nat.one_pos hrest

theorem Passes.size_le (h : c.Passes signs d) : d.size ≤ c.size := by
  induction h with
  | refl => exact Nat.le_refl _
  | tail _ hsign ih => exact Nat.le_trans (Nat.le_of_lt hsign.size_lt) ih

theorem Passes.eq_nil (h : c.Passes signs c) : signs = [] := by
  rcases h.cases_head with ⟨rfl, -⟩ | ⟨sign, next, more, hfirst, hnext, -⟩
  · rfl
  · exact absurd hnext.size_le (Nat.not_le.2 hfirst.size_lt)

/-- The signs between two places are the same for every reader. -/
theorem Passes.unique (h : c.Passes signs d) (h' : c.Passes more d) : signs = more := by
  rcases h.linear h' with ⟨rest, hrest, rfl⟩ | ⟨rest, hrest, rfl⟩ <;> rw [hrest.eq_nil] <;> rfl

namespace Onward

theorem refl (c : Cursor) : c.Onward c := ⟨[], .refl⟩

theorem trans (h : c.Onward d) (h' : d.Onward e) : c.Onward e := by
  obtain ⟨signs, h⟩ := h
  obtain ⟨more, h'⟩ := h'
  exact ⟨more ++ signs, h.trans h'⟩

theorem exists_between (h : c.Onward d) : ∃ taken, c.Between taken d := by
  obtain ⟨signs, h⟩ := h
  exact h.exists_between

theorem text_eq (h : c.Onward d) : d.text = c.text := by
  obtain ⟨taken, htaken⟩ := h.exists_between
  exact htaken.text_eq

theorem offset_le (h : c.Onward d) : c.offset ≤ d.offset := by
  obtain ⟨taken, htaken⟩ := h.exists_between
  rw [htaken.offset_eq]
  omega

end Onward

/-! ### Single movements -/

/-- White space and comments are one sign, if there are any. -/
theorem passes_skipTrivia (h : c.skipTrivia = .ok d) :
    c.Passes (if d = c then [] else [.gap]) d := by
  split
  · rename_i heq
    exact heq ▸ .refl
  · rename_i hne
    exact (Reads.gap h hne).passes

theorem onward_skipTrivia (h : c.skipTrivia = .ok d) : c.Onward d := ⟨_, passes_skipTrivia h⟩

theorem onward_skipString (hc : c.atQuote = true) (h : c.skipString = .ok d) : c.Onward d :=
  (Reads.string hc h).onward

theorem begins_of_identifierChar {ch : Char} {rest : List Char} (hch : isIdentifierChar ch = true) :
    Begins (ch :: rest) := by
  refine begins_cons (isSpace_of_isIdentifierChar hch) ?_
  rintro rfl
  exact absurd hch (by decide)

/-- A run of identifier characters. -/
theorem Between.passes_word {chars : List Char} (h : c.Between chars d)
    (hchars : ∀ ch ∈ chars, isIdentifierChar ch = true) :
    c.Passes (chars.map Sign.char).reverse d := by
  induction chars generalizing c with
  | nil =>
      obtain rfl := h.eq_advance
      simpa using Passes.refl
  | cons ch chars ih =>
      rw [List.forall_mem_cons] at hchars
      have hrest : c.rest = ch :: (chars ++ d.rest) := h.rest_eq
      have hfirst : c.Passes [.char ch] (c.advance 1) :=
        (Reads.char hrest (hrest ▸ begins_of_identifierChar hchars.1)
          (isQuote_of_isIdentifierChar hchars.1)).passes
      have htail : (c.advance 1).Between chars d :=
        ⟨by simp [advance, hrest], by simp [advance, hrest, h.past_eq]⟩
      simpa using hfirst.trans (ih htail hchars.2)

theorem between_identifier (c : Cursor) :
    c.Between c.identifier (c.advance c.identifier.length) := by
  obtain ⟨more, hmore⟩ := List.takeWhile_prefix isIdentifierChar (l := c.rest)
  exact .of_advance hmore.symm

theorem peek?_of_identifier {ch : Char} {chars : List Char} (h : c.identifier = ch :: chars) :
    c.peek? = some ch := by
  have := c.between_identifier.rest_eq
  simp [peek?, this, h]

theorem passes_identifier (c : Cursor) :
    c.Passes (c.identifier.map Sign.char).reverse (c.advance c.identifier.length) :=
  c.between_identifier.passes_word fun _ hch => List.mem_takeWhile_imp hch

theorem onward_identifier (c : Cursor) : c.Onward (c.advance c.identifier.length) :=
  ⟨_, c.passes_identifier⟩

/-- A word that comes next as a whole. -/
theorem onward_word {word : List Char} (h : c.identifier = word) {n : Nat}
    (hn : word.length = n) : c.Onward (c.advance n) := by
  subst h hn
  exact c.onward_identifier

theorem reads_char {ch : Char} (h : c.peek? = some ch) (hspace : isSpace ch = false)
    (hslash : ch ≠ '/') (hquote : isQuote ch = false) : c.Reads (.char ch) (c.advance 1) := by
  obtain ⟨rest, hrest⟩ : ∃ rest, c.rest = ch :: rest := List.head?_eq_some_iff.1 h
  exact .char hrest (hrest ▸ begins_cons hspace hslash) hquote

theorem onward_char {ch : Char} (h : c.peek? = some ch) (hspace : isSpace ch = false)
    (hslash : ch ≠ '/') (hquote : isQuote ch = false) : c.Onward (c.advance 1) :=
  (reads_char h hspace hslash hquote).onward

/-! ### Look aheads -/

/-- A look ahead moves onward, or meets a fault in the text. -/
def Yields (c : Cursor) : Except SyntaxFault Cursor → Prop
  | .ok d => c.Onward d
  | .error f => f.position ≤ c.text.length

theorem Onward.yields {outcome : Except SyntaxFault Cursor} (h : c.Onward d)
    (h' : d.Yields outcome) : c.Yields outcome := by
  cases outcome with
  | ok e => exact Onward.trans h h'
  | error f => exact (h.text_eq ▸ h' : f.position ≤ c.text.length)

theorem yields_skipTrivia (c : Cursor) : c.Yields c.skipTrivia := by
  cases h : c.skipTrivia with
  | ok d => exact onward_skipTrivia h
  | error f => exact position_of_skipTrivia h

theorem Onward.position_of_skipTrivia {f : SyntaxFault} (h : c.Onward d)
    (hf : d.skipTrivia = .error f) : f.position ≤ c.text.length :=
  h.text_eq ▸ Cursor.position_of_skipTrivia hf

theorem yields_skipString (hc : c.atQuote = true) : c.Yields c.skipString := by
  cases h : c.skipString with
  | ok d => exact onward_skipString hc h
  | error f => exact position_of_skipString h

theorem yields_fault (c : Cursor) (cause : SyntaxCause) : c.Yields (.error (c.fault cause)) :=
  c.offset_le

/-- A look ahead whose outcome is known. -/
theorem Yields.error {outcome : Except SyntaxFault Cursor} {f : SyntaxFault}
    (h : c.Yields outcome) (hf : outcome = .error f) : f.position ≤ c.text.length := by
  rw [hf] at h
  exact h

theorem Yields.ok {outcome : Except SyntaxFault Cursor} (h : c.Yields outcome)
    (hd : outcome = .ok d) : c.Onward d := by
  rw [hd] at h
  exact h

theorem begins_of_skipTrivia (h : c.skipTrivia = .ok d) : Begins d.rest := by
  by_cases hd : d.rest = []
  · rw [hd]
    exact ⟨by simp, rfl⟩
  · obtain ⟨_, _, hbegins⟩ := exists_of_skipTrivia h hd
    exact hbegins

end Cursor

variable {c d e : Cursor}

/-! ### Imports -/

/-- The first string ahead may be looked for behind white space and comments. -/
theorem sourceString_of_skipTrivia (c : Cursor) :
    sourceString c = match c.skipTrivia with
      | .ok d => sourceString d
      | .error f => .error f := by
  fun_induction sourceString c with
  | case1 c hc =>
      have hskip : c.skipTrivia = .ok c := Cursor.skipTrivia_of_begins (hc ▸ ⟨by simp, rfl⟩)
      simp only [hskip]
      rw [sourceString, if_pos hc]
  | case2 c hc hquote =>
      obtain ⟨ch, rest, hrest⟩ := List.exists_cons_of_ne_nil hc
      have hch : isQuote ch = true := by simpa [Cursor.atQuote, Cursor.peek?, hrest] using hquote
      have hskip : c.skipTrivia = .ok c := Cursor.skipTrivia_of_begins <| hrest ▸
        begins_cons (isSpace_of_isQuote hch) (by rintro rfl; exact absurd hch (by decide))
      simp only [hskip]
      rw [sourceString, if_neg hc, if_pos hquote]
  | case3 c hc hquote hcomment d hd ih => rw [hd]
  | case4 c hc hquote hcomment f hf => rw [hf]
  | case5 c hc hquote hcomment ih =>
      obtain ⟨ch, rest, hrest⟩ := List.exists_cons_of_ne_nil hc
      by_cases hch : isSpace ch = true
      · rw [Cursor.skipTrivia_of_isSpace hrest hch]
        exact ih
      · have hskip : c.skipTrivia = .ok c := Cursor.skipTrivia_of_begins
          ⟨by simpa [hrest] using hch, by simpa using hcomment⟩
        simp only [hskip]
        conv_rhs => rw [sourceString, if_neg hc, if_neg hquote, if_neg hcomment]

/-- The look ahead for a specifier comes to a string onward, or meets a fault in the text. -/
def Cursor.Finds (c : Cursor) : Except SyntaxFault (ImportRecord × Cursor) → Prop
  | .ok found => ∃ quote, c.Onward quote ∧ quote.atQuote = true ∧ staticImport quote = .ok found
  | .error f => f.position ≤ c.text.length

theorem Cursor.Onward.finds {outcome : Except SyntaxFault (ImportRecord × Cursor)}
    (h : c.Onward d) (h' : d.Finds outcome) : c.Finds outcome := by
  cases outcome with
  | ok found =>
      obtain ⟨quote, hquote, hfound⟩ := h'
      exact ⟨quote, h.trans hquote, hfound⟩
  | error f => exact (h.text_eq ▸ h' : f.position ≤ c.text.length)

theorem Cursor.finds_staticImport (hc : c.atQuote = true) : c.Finds (staticImport c) := by
  cases hfound : staticImport c with
  | ok found => exact ⟨c, .refl c, hc, hfound⟩
  | error f => exact Cursor.position_of_skipString (exists_of_map_eq_error hfound)

theorem finds_sourceString (c : Cursor) : c.Finds (sourceString c) := by
  induction hn : c.size using Nat.strong_induction_on generalizing c with
  | _ n ih =>
      rw [sourceString_of_skipTrivia]
      cases hd : c.skipTrivia with
      | error f => exact c.yields_skipTrivia.error hd
      | ok d =>
          have hbegins := Cursor.begins_of_skipTrivia hd
          refine (Cursor.onward_skipTrivia hd).finds ?_
          dsimp only
          rw [sourceString]
          split
          · exact d.offset_le
          rename_i hrest
          split
          · exact Cursor.finds_staticImport ‹_›
          rename_i hquote
          split
          · rename_i hcomment
            simp [hbegins.2] at hcomment
          · obtain ⟨ch, rest, hch⟩ := List.exists_cons_of_ne_nil hrest
            have hone : d.Onward (d.advance 1) := (Cursor.Reads.char hch hbegins (by
              simpa [Cursor.atQuote, Cursor.peek?, hch] using hquote)).onward
            have hle := Cursor.size_skipTrivia_le hd
            have hlt := Cursor.size_advance_lt Nat.one_pos hrest
            exact hone.finds (ih _ (by omega) _ rfl)

theorem onward_staticImport {record : ImportRecord} (hc : c.atQuote = true)
    (h : staticImport c = .ok (record, d)) : c.Onward d := by
  obtain ⟨e, he, heq⟩ := exists_of_map_eq_ok h
  obtain rfl : e = d := congrArg Prod.snd heq
  exact Cursor.onward_skipString hc he

/-- The clause of an import ends onward. If no specifier follows, the fault lies at the end of the
text, or one place behind it if white space or a comment is last. -/
def Cursor.ClauseYields (c : Cursor) : Except SyntaxFault Cursor → Prop
  | .ok d => c.Onward d
  | .error f => f.cause ≠ .expectedSpecifier ∧ f.position ≤ c.text.length ∨
    ∃ signs d, c.Passes signs d ∧ d.rest = [] ∧
      f = ⟨c.text.length + if signs.head? = some .gap then 1 else 0, .expectedSpecifier⟩

/-- A clause goes on behind a sign. -/
theorem Cursor.Passes.clauseYields {sign : Sign} {signs : List Sign}
    {outcome : Except SyntaxFault Cursor} (h : c.Passes (sign :: signs) d) (hsign : sign ≠ .gap)
    (h' : d.ClauseYields outcome) : c.ClauseYields outcome := by
  have hcd : c.Onward d := ⟨_, h⟩
  cases outcome with
  | ok e => exact Cursor.Onward.trans hcd h'
  | error f =>
      rw [Cursor.ClauseYields, hcd.text_eq] at h'
      rcases h' with h' | ⟨more, e, hmore, hend, hf⟩
      · exact .inl h'
      · refine .inr ⟨more ++ sign :: signs, e, h.trans hmore, hend, ?_⟩
        cases more with
        | nil => simpa [hsign] using hf
        | cons x more => exact hf

theorem Cursor.clauseYields_of_skipTrivia {f : SyntaxFault} (hcd : c.Onward d)
    (h : d.skipTrivia = .error f) : c.ClauseYields (.error f) := by
  refine .inl ⟨?_, hcd.position_of_skipTrivia h⟩
  rw [Cursor.cause_of_skipTrivia h]
  decide

theorem Cursor.clauseYields_of_word {outcome : Except SyntaxFault Cursor}
    (hd : c.skipTrivia = .ok d) (hword : d.identifier ≠ [])
    (h : (d.advance d.identifier.length).ClauseYields outcome) : c.ClauseYields outcome := by
  have hpasses := (Cursor.passes_skipTrivia hd).trans d.passes_identifier
  obtain ⟨ch, chars, hchars⟩ := List.exists_cons_of_ne_nil (List.reverse_ne_nil_iff.2 hword)
  rw [← List.map_reverse, hchars, List.map_cons, List.cons_append] at hpasses
  exact hpasses.clauseYields (by simp) h

theorem clauseYields_importClause (c : Cursor) : c.ClauseYields (importClause c) := by
  fun_induction importClause c with
  | case1 c hc =>
      have hlength : c.text.length = c.offset := by simp [Cursor.text, Cursor.offset, hc]
      exact .inr ⟨[], c, .refl, hc, by simp [hlength, Cursor.fault]⟩
  | case2 c hc f hf => exact Cursor.clauseYields_of_skipTrivia (.refl c) hf
  | case3 c hc d hd hrest =>
      have hne : d ≠ c := by
        rintro rfl
        exact hc hrest
      -- The gap in front of the end is what puts the fault behind the text.
      have hread : c.Reads .gap d := .gap hd hne
      have hlength : c.text.length = d.offset := by
        rw [← hread.onward.text_eq]
        simp [Cursor.text, Cursor.offset, hrest]
      exact .inr ⟨[.gap], d, hread.passes, hrest, by simp [hlength]⟩
  | case4 c hc d hd hrest hquote f hf =>
      have hcd := Cursor.onward_skipTrivia hd
      have hfault := Cursor.eq_fault_of_skipString hf
      refine .inl ⟨by simp [hfault, Cursor.fault], ?_⟩
      rw [← hcd.text_eq]
      exact Cursor.position_of_skipString hf
  | case5 c hc d hd hrest hquote e he ih =>
      have hstring := (Cursor.Reads.string hquote he).passes
      exact ((Cursor.passes_skipTrivia hd).trans hstring).clauseYields (by simp) ih
  | case6 c hc d hd hrest hquote hword ih =>
      obtain ⟨ch, rest, hch⟩ := List.exists_cons_of_ne_nil hrest
      have hread : d.Reads (.char ch) (d.advance 1) :=
        .char hch (Cursor.begins_of_skipTrivia hd) (by
          simpa [Cursor.atQuote, Cursor.peek?, hch] using hquote)
      exact ((Cursor.passes_skipTrivia hd).trans hread.passes).clauseYields (by simp) ih
  | case7 c hc d hd hrest hquote hword e hfrom f hf =>
      exact Cursor.clauseYields_of_skipTrivia
        ((Cursor.onward_skipTrivia hd).trans d.onward_identifier) hf
  | case8 c hc d hd hrest hquote hword e hfrom specifier hs hatQuote =>
      exact ((Cursor.onward_skipTrivia hd).trans d.onward_identifier).trans
        (Cursor.onward_skipTrivia hs)
  | case9 c hc d hd hrest hquote hword e hfrom specifier hs hatQuote ih =>
      exact Cursor.clauseYields_of_word hd hword ih
  | case10 c hc d hd hrest hquote hword e hfrom ih => exact Cursor.clauseYields_of_word hd hword ih

/-! ### Exports -/

/-- A look ahead for a name. -/
theorem yields_exportName (c : Cursor) : c.Yields ((exportName c).map Prod.snd) := by
  unfold exportName
  split
  · rename_i hquote
    have := Cursor.yields_skipString hquote
    cases hd : c.skipString <;> simpa [hd, Except.map] using this
  split
  · exact c.yields_fault _
  · exact c.onward_identifier

theorem onward_exportName {name : String} (h : exportName c = .ok (name, d)) : c.Onward d := by
  simpa [h, Except.map, Cursor.Yields] using yields_exportName c

theorem position_exportName {f : SyntaxFault} (h : exportName c = .error f) :
    f.position ≤ c.text.length := by
  simpa [h, Except.map, Cursor.Yields] using yields_exportName c

theorem yields_renamedExport (c : Cursor) : c.Yields ((renamedExport c).map Prod.snd) := by
  unfold renamedExport
  split
  · rename_i f hf
    exact position_exportName hf
  rename_i name d hd
  refine (onward_exportName hd).yields ?_
  split
  · rename_i f hf
    exact Cursor.position_of_skipTrivia hf
  rename_i e he
  refine (Cursor.onward_skipTrivia he).yields ?_
  split
  · rename_i has
    refine (Cursor.onward_word has rfl).yields ?_
    split
    · rename_i f hf
      exact Cursor.position_of_skipTrivia hf
    rename_i e' he'
    refine (Cursor.onward_skipTrivia he').yields ?_
    split
    · rename_i f hf
      exact position_exportName hf
    rename_i renamed g hg
    refine (onward_exportName hg).yields ?_
    have := g.yields_skipTrivia
    cases hk : g.skipTrivia <;> simpa [hk, Except.map] using this
  · exact .refl e

theorem onward_renamedExport {name : String} (h : renamedExport c = .ok (name, d)) :
    c.Onward d := by
  simpa [h, Except.map, Cursor.Yields] using yields_renamedExport c

theorem yields_exportedNames (c : Cursor) : c.Yields (exportedNames c).2 := by
  fun_induction exportedNames c with
  | case1 c _ => exact .refl c
  | case2 c _ f hf => simpa [hf, Except.map, Cursor.Yields] using yields_renamedExport c
  | case3 c _ name d hd hcomma f hf =>
      have hone := Cursor.onward_char hcomma (by decide) (by decide) (by decide)
      exact ((onward_renamedExport hd).trans hone).yields ((Cursor.yields_skipTrivia _).error hf)
  | case4 c _ name d hd hcomma e he names close hn ih =>
      have hone := Cursor.onward_char hcomma (by decide) (by decide) (by decide)
      rw [hn] at ih
      exact (((onward_renamedExport hd).trans hone).trans (Cursor.onward_skipTrivia he)).yields ih
  | case5 c _ name d hd _ _ => exact onward_renamedExport hd
  | case6 c _ name d hd _ _ => exact (onward_renamedExport hd).yields (d.yields_fault _)

theorem peek?_of_exportedNames (h : (exportedNames c).2 = .ok d) : d.peek? = some '\x7d' := by
  fun_induction exportedNames c with
  | case1 c hc => exact Except.ok.inj h ▸ hc
  | case2 | case3 => cases h
  | case4 c _ name d hd hcomma e he names close hn ih => exact ih (by rw [hn]; exact h)
  | case5 c _ name d hd _ hclose => exact Except.ok.inj h ▸ hclose
  | case6 => cases h

/-- A statement of names goes on onward, or behind the one specifier that it holds. -/
structure Cursor.Gives (c : Cursor) (statement : Statement) : Prop where
  yields : c.Yields statement.next
  opener?_eq : statement.opener? = none
  /-- Only a statement that is read to its end holds a specifier. -/
  imports : statement.imports = [] ∨ ∃ quote record next, c.Onward quote ∧ quote.atQuote = true ∧
    staticImport quote = .ok (record, next) ∧ statement.imports = [record] ∧
    statement.next = .ok next

theorem Cursor.Gives.names {names : List String} {next : Except SyntaxFault Cursor}
    (h : c.Yields next) : c.Gives ⟨[], names, none, next⟩ := ⟨h, rfl, .inl rfl⟩

theorem Cursor.Onward.gives {statement : Statement} (h : c.Onward d) (h' : d.Gives statement) :
    c.Gives statement := by
  refine ⟨h.yields h'.yields, h'.opener?_eq, ?_⟩
  rcases h'.imports with himports | ⟨quote, record, next, hquote, himports⟩
  · exact .inl himports
  · exact .inr ⟨quote, record, next, h.trans hquote, himports⟩

theorem Cursor.Onward.gives_skipTrivia {names : List String} {f : SyntaxFault} (h : c.Onward d)
    (hf : d.skipTrivia = .error f) : c.Gives ⟨[], names, none, .error f⟩ :=
  .names (h.position_of_skipTrivia hf)

/-- Exports go on at a place that is onward, or behind the specifier. -/
theorem gives_exportsFrom {start next : Cursor} (names : List String) (hnext : start.Onward next)
    (h : start.Onward c) : start.Gives (exportsFrom names next c) := by
  unfold exportsFrom
  split
  · rename_i hfrom
    have hword := h.trans (Cursor.onward_word hfrom rfl)
    split
    · exact hword.gives_skipTrivia ‹_›
    rename_i d hd
    have hfinds := (hword.trans (Cursor.onward_skipTrivia hd)).finds (finds_sourceString d)
    split
    · rename_i f hf
      rw [hf] at hfinds
      exact .names hfinds
    · rename_i record e he
      rw [he] at hfinds
      obtain ⟨quote, hquote, hat, hfound⟩ := hfinds
      exact ⟨hquote.trans (onward_staticImport hat hfound), rfl,
        .inr ⟨quote, record, e, hquote, hat, hfound, rfl, rfl⟩⟩
  · exact .names hnext

theorem gives_exportList (hc : c.peek? = some '\x7b') : c.Gives (exportList c) := by
  unfold exportList
  have hopen := Cursor.onward_char hc (by decide) (by decide) (by decide)
  split
  · exact hopen.gives_skipTrivia ‹_›
  rename_i d hd
  refine (hopen.trans (Cursor.onward_skipTrivia hd)).gives ?_
  have hnames := yields_exportedNames d
  split
  · rename_i names f hn
    rw [hn] at hnames
    exact .names hnames
  rename_i names close hn
  rw [hn] at hnames
  have hclose := peek?_of_exportedNames (c := d) (d := close) (by rw [hn])
  refine (hnames.ok rfl).gives ?_
  have hone := Cursor.onward_char hclose (by decide) (by decide) (by decide)
  split
  · exact hone.gives_skipTrivia ‹_›
  · rename_i e he
    exact gives_exportsFrom names hone (hone.trans (Cursor.onward_skipTrivia he))

theorem gives_exportStar (hc : c.peek? = some '*') : c.Gives (exportStar c) := by
  unfold exportStar
  have hstar := Cursor.onward_char hc (by decide) (by decide) (by decide)
  split
  · exact hstar.gives_skipTrivia ‹_›
  rename_i d hd
  refine (hstar.trans (Cursor.onward_skipTrivia hd)).gives ?_
  split
  · rename_i has
    have hword := Cursor.onward_word has (n := 2) rfl
    split
    · exact hword.gives_skipTrivia ‹_›
    rename_i e he
    refine (hword.trans (Cursor.onward_skipTrivia he)).gives ?_
    split
    · rename_i f hf
      exact .names (position_exportName hf)
    rename_i name g hg
    have hname := onward_exportName hg
    split
    · exact hname.gives_skipTrivia ‹_›
    · rename_i k hk
      exact (hname.trans (Cursor.onward_skipTrivia hk)).gives
        (gives_exportsFrom _ (.refl _) (.refl _))
  · exact gives_exportsFrom _ (.refl _) (.refl _)

theorem gives_exportDeclared (c : Cursor) : c.Gives (exportDeclared c) := by
  unfold exportDeclared
  split
  · exact .names (.refl c)
  · exact .names c.onward_identifier

/-- The look for a comma behind an initializer stays in the text. -/
theorem text_of_initializerEnd? {depth : Nat} {last : Past}
    (h : initializerEnd? depth last c = some d) : d.text = c.text := by
  fun_induction initializerEnd? depth last c with
  | case1 => cases h
  | case2 depth last c hc ch e _ ih => exact (ih h).trans (by simp [e])
  | case3 => cases h
  | case4 depth last c hc ch e _ _ _ ih => exact (ih h).trans (by simp [e])
  | case5 depth last c hc ch _ _ _ f hf ih =>
      obtain ⟨n, rfl, -⟩ := Cursor.skipString_eq_advance hf
      exact (ih h).trans (by simp)
  | case6 => cases h
  | case7 depth last c hc ch _ _ _ _ f hf ih =>
      obtain ⟨n, rfl⟩ := Cursor.skipPlainTemplate?_eq_advance hf
      exact (ih h).trans (by simp)
  | case8 => cases h
  | case9 depth last c hc ch _ _ _ _ _ f hf ih =>
      exact (ih h).trans (Cursor.onward_skipTrivia hf).text_eq
  | case10 => cases h
  | case11 depth last c hc ch _ _ _ _ _ _ f hf ih =>
      obtain ⟨n, rfl⟩ := Cursor.skipRegex_eq_advance hf
      exact (ih h).trans (by simp)
  | case12 => cases h
  | case13 => simp_all
  | case14 => cases h
  | case15 depth last c hc ch e _ _ _ _ _ _ _ _ _ f _ _ ih => exact (ih h).trans (by simp [e])
  | case16 => cases h
  | case17 => cases h
  | case18 depth last c hc ch e _ _ _ _ _ _ _ _ _ ih => exact (ih h).trans (by simp [e])

/-- The look ahead for declared names meets faults in the text only. -/
theorem position_declaredNames {f : SyntaxFault} (h : (declaredNames c).2 = some f) :
    f.position ≤ c.text.length := by
  fun_induction declaredNames c with
  | case1 c f' hf => exact Option.some.inj h ▸ Cursor.position_of_skipTrivia hf
  | case2 => cases h
  | case3 c d hd _ _ f' hf =>
      have hcd := (Cursor.onward_skipTrivia hd).trans d.onward_identifier
      rw [← Option.some.inj h, ← hcd.text_eq]
      exact Cursor.position_of_skipTrivia hf
  | case4 => cases h
  | case5 c d hd hne _ e he comma? comma hcomma? hcomma names fault? hn ih =>
      have hce := ((Cursor.onward_skipTrivia hd).trans d.onward_identifier).trans
        (Cursor.onward_skipTrivia he)
      have htext : comma.text = e.text := by
        simp only [comma?] at hcomma?
        split at hcomma?
        · simpa using text_of_initializerEnd? hcomma?
        · rw [Option.some.inj hcomma?]
      rw [hn] at ih
      simpa [htext, hce.text_eq] using ih h
  | case6 => cases h

/-- What is exported comes next behind `export` and, perhaps, `async`. -/
theorem gives_exportedItem {start first : Cursor} (hstart : start.Onward (start.advance 6))
    (hc : start.Onward c) (hfirst : first = c ∨ first.peek? = some 'a') :
    start.Gives (exportedItem start first c) := by
  -- A mark that the first sign is cannot be the letter that `async` begins with.
  have hmark {ch : Char} (hne : ch ≠ 'a') (h : first.peek? = some ch) : c.peek? = some ch := by
    rcases hfirst with rfl | hfirst
    · exact h
    · exact absurd (Option.some.inj (h.symm.trans hfirst)) hne
  unfold exportedItem
  dsimp only
  split
  · rename_i hfunction
    have hword := hc.trans (Cursor.onward_word hfunction (n := 8) rfl)
    split
    · exact hword.gives_skipTrivia ‹_›
    rename_i d hd
    refine (hword.trans (Cursor.onward_skipTrivia hd)).gives ?_
    split
    · rename_i hstar
      have hone := Cursor.onward_char hstar (by decide) (by decide) (by decide)
      split
      · exact hone.gives_skipTrivia ‹_›
      · rename_i e he
        exact (hone.trans (Cursor.onward_skipTrivia he)).gives (gives_exportDeclared e)
    · exact gives_exportDeclared d
  split
  · rename_i hclass
    have hword := hc.trans (Cursor.onward_word hclass (n := 5) rfl)
    split
    · exact hword.gives_skipTrivia ‹_›
    · rename_i d hd
      exact (hword.trans (Cursor.onward_skipTrivia hd)).gives (gives_exportDeclared d)
  split
  · have hword := hc.trans c.onward_identifier
    split
    · rename_i names f hn
      exact hword.gives (.names (position_declaredNames (by rw [hn])))
    · exact .names hword
  split
  · rename_i hbrace
    exact hc.gives (gives_exportList (hmark (by decide) hbrace))
  split
  · rename_i hstar
    exact hc.gives (gives_exportStar (hmark (by decide) hstar))
  · exact .names hstart

/-- A keyword that comes next. -/
theorem Cursor.between_of_atKeyword {word : List Char} (h : c.atKeyword word = true) :
    c.Between word (c.advance word.length) := by
  simp only [Cursor.atKeyword, Bool.and_eq_true] at h
  obtain ⟨more, hmore⟩ := List.isPrefixOf_iff_prefix.1 h.1.1
  exact .of_advance hmore.symm

theorem Cursor.passes_of_atKeyword {word : List Char} (h : c.atKeyword word = true)
    (hword : ∀ ch ∈ word, isIdentifierChar ch = true) :
    c.Passes (word.map Sign.char).reverse (c.advance word.length) :=
  (between_of_atKeyword h).passes_word hword

theorem Cursor.peek?_of_atKeyword {ch : Char} {word : List Char}
    (h : c.atKeyword (ch :: word) = true) : c.peek? = some ch := by
  have := (between_of_atKeyword h).rest_eq
  simp [peek?, this]

theorem gives_exportStatement (bracketed : Bool)
    (hkey : c.atKeyword "export".toList = true) :
    c.Gives (exportStatement bracketed c) := by
  have hword : c.Onward (c.advance 6) :=
    ⟨_, Cursor.passes_of_atKeyword hkey (List.all_eq_true.1 rfl)⟩
  unfold exportStatement
  split
  · exact .names (Cursor.onward_char (Cursor.peek?_of_atKeyword hkey) (by decide) (by decide)
      (by decide))
  split
  · exact hword.gives_skipTrivia ‹_›
  rename_i d hd
  have hcd := hword.trans (Cursor.onward_skipTrivia hd)
  split
  · rename_i hdefault
    exact .names (hcd.trans (Cursor.onward_word hdefault rfl))
  split
  · rename_i hasync
    have hbehind := hcd.trans (Cursor.onward_word hasync (n := 5) rfl)
    split
    · exact hbehind.gives_skipTrivia ‹_›
    · rename_i e he
      exact gives_exportedItem hword (hbehind.trans (Cursor.onward_skipTrivia he))
        (.inr (Cursor.peek?_of_identifier hasync))
  · exact gives_exportedItem hword hcd (.inl rfl)

end ImportAtlas.Source
