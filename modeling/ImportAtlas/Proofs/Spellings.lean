import ImportAtlas.Proofs.Histories

/-!
# The text of a history

The scan looks back at the text, not at tokens: at the last character, and at the letters in front
of it. What it learns there about keywords and statements is what the history says, but for words
that it does not see as such: those directly behind a quote, and those behind which an export
statement ends with white space.

## Summary

* `Spells` says which texts a history may be of, as far as looking back can tell.
* `History.noted` is a history as far as the scan takes its last token to go.
* `History.unseen` marks the histories whose last word the scan does not see.

## Main results

* `opensCondition_eq`, `heldStatements_eq`: what the scan takes a bracket to hold.
-/

namespace ImportAtlas.Source

open History

/-! ### Looking back -/

/-- The last character of a sign that is not itself a character. -/
def Sign.EndsWith : Sign → Char → Prop
  | .gap, c => isSpace c = true ∨ c = '/'
  | .char _, _ => False
  | .literal, c => isQuote c = true ∨ c = '\x60'
  | .substitution, c => c = '\x7b'
  | .regex, c => c = '/'

/-- A text may be that of a history. -/
inductive Spells : History → Past → Prop where
  | nil : Spells [] []
  | char {c : Char} {exported : Bool} {h : History} {past : Past} (rest : Spells h past) :
      Spells (⟨.char c, exported⟩ :: h) (c :: past)
  | longer {sign : Sign} {exported : Bool} {h : History} {past : Past} {last : Char}
      {more : List Char} (rest : Spells h past) (ends : sign.EndsWith last) :
      Spells (⟨sign, exported⟩ :: h) (last :: (more ++ past))

theorem Spells.eq_nil {past : Past} (hs : Spells [] past) : past = [] := by
  cases hs
  rfl

section Words

variable {h : History} {past : Past} {e : Entry} {c : Char}

theorem word_of_inWord (he : e.inWord = true) (hc : e.sign.char? = some c) :
    word (e :: h) = word h ++ [c] := by
  simp [word, he, hc]

theorem word_of_not_inWord (he : e.inWord = false) : word (e :: h) = [] := by
  simp [word, he]

theorem isIdentifierChar_of_mem_word (hc : c ∈ h.word) : isIdentifierChar c = true := by
  simp only [word, List.mem_reverse, List.mem_filterMap] at hc
  obtain ⟨e, he, hchar⟩ := hc
  simpa [Entry.inWord, hchar] using List.mem_takeWhile_imp he

theorem Sign.EndsWith.char?_eq {sign : Sign} (hends : sign.EndsWith c) : sign.char? = none := by
  cases sign <;> first | rfl | exact hends.elim

/-- A text ends with the word of its history. -/
theorem Spells.exists_word (hs : Spells h past) : ∃ before, past = h.word.reverse ++ before ∧
    Spells (h.dropWhile Entry.inWord) before := by
  induction hs with
  | nil => exact ⟨[], rfl, .nil⟩
  | @char c exported h past rest ih =>
      by_cases hc : isIdentifierChar c = true
      · obtain ⟨before, rfl, hbefore⟩ := ih
        have hin : Entry.inWord ⟨.char c, exported⟩ = true := hc
        refine ⟨before, ?_, by rwa [List.dropWhile_cons_of_pos hin]⟩
        rw [word_of_inWord hin rfl, List.reverse_append]
        rfl
      · have hin : Entry.inWord ⟨.char c, exported⟩ = false := Bool.eq_false_iff.2 hc
        exact ⟨c :: past, by rw [word_of_not_inWord hin]; rfl,
          by simpa [hin] using Spells.char rest⟩
  | @longer sign exported h past last more rest ends ih =>
      have hin : Entry.inWord ⟨sign, exported⟩ = false := by
        simp [Entry.inWord, ends.char?_eq]
      exact ⟨last :: (more ++ past), by rw [word_of_not_inWord hin]; rfl,
        by simpa [hin] using Spells.longer rest ends⟩

/-- White space, punctuation and quotes are kinds of characters of their own. -/
theorem isMark_eq (hc : isIdentifierChar c = false) :
    (isSpace c || isPunctuator c) = !(isQuote c || c == '\x60') := by
  by_cases hquote : (isQuote c || c == '\x60') = true
  · rw [hquote]
    simp only [isQuote, Bool.or_eq_true, beq_iff_eq] at hquote
    rcases hquote with (rfl | rfl) | rfl <;> decide
  · rw [Bool.not_eq_true] at hquote
    simp only [isIdentifierChar, Bool.or_assoc, hquote, Bool.or_false, Bool.not_eq_false'] at hc
    rw [hquote, hc]
    rfl

/-- In front of a word stands no character of a word, and a quote only if a sign ends with one. -/
theorem Spells.head?_of_not_inWord (hs : Spells h past) (hstop : ∀ e ∈ h.head?, e.inWord = false) :
    (∀ c ∈ past.head?, isIdentifierChar c = false) ∧
      (past.head?.all fun c => isSpace c || isPunctuator c) = !h.head?.any Entry.quotes := by
  cases hs with
  | nil => exact ⟨by simp, rfl⟩
  | @char c exported h past rest =>
      have hc : isIdentifierChar c = false := hstop _ rfl
      refine ⟨by simpa using hc, ?_⟩
      simp [Entry.quotes, Sign.char?, isMark_eq hc]
  | @longer sign exported h past last more rest ends =>
      have hlast : isIdentifierChar last = false ∧
          (isSpace last || isPunctuator last) = !decide (sign = .literal) := by
        cases sign with
        | char => exact ends.elim
        | gap =>
            rcases ends with hspace | rfl
            · simp [isIdentifierChar, hspace]
            · decide
        | literal =>
            have hquote : (isQuote last || last == '\x60') = true := by
              rw [Bool.or_eq_true, beq_iff_eq]
              exact ends
            have hc : isIdentifierChar last = false := by
              rw [isIdentifierChar, Bool.or_assoc, hquote, Bool.or_true]
              rfl
            exact ⟨hc, by rw [isMark_eq hc, hquote]; rfl⟩
        | substitution | regex =>
            obtain rfl : last = _ := ends
            decide
      refine ⟨by simpa using hlast.1, ?_⟩
      simp [Entry.quotes, ends.char?_eq, hlast.2]

end Words

/-! ### What the scan does not see -/

namespace History

/-- A quote stands directly in front of the word that a history ends with. -/
def behindQuote (h : History) : Bool := (h.dropWhile Entry.inWord).head?.any Entry.quotes

/-- A history as far as the scan takes its last token to go: the white space that an export
statement ends with counts. -/
def noted (h : History) : History := h.dropWhile fun e => e.sign = .gap && !e.exported

/-- An export statement ends with the white space behind the last token. -/
def overread (h : History) : Bool := h.noted.head?.any (·.sign = .gap)

/-- The last token may be a word that the scan does not see as one. -/
def unseen (h : History) : Bool := h.overread || h.settled.behindQuote

end History

section Tests

variable {h : History} {past : Past}

/-- A text ends with a keyword if its history does, unless a quote stands in front. -/
theorem Spells.contains_wordBehind (hs : Spells h past) {keywords : List (List Char)}
    (hkeywords : ∀ word ∈ keywords, word ≠ [] ∧ word.all isKeywordChar = true) :
    keywords.contains (wordBehind past) = (keywords.contains h.word && !h.behindQuote) := by
  obtain ⟨before, rfl, hbefore⟩ := hs.exists_word
  have hnil : keywords.contains [] = false := by
    rw [Bool.eq_false_iff]
    exact fun h => (hkeywords _ (List.contains_iff_mem.1 h)).1 rfl
  have hstop : ∀ e ∈ (h.dropWhile Entry.inWord).head?, e.inWord = false := by
    intro e he
    have := List.head?_dropWhile_not Entry.inWord h
    rw [Option.mem_def.1 he] at this
    simpa using this
  obtain ⟨hchar, hquote⟩ := hbefore.head?_of_not_inWord hstop
  rw [wordBehind_reverse_append hchar fun _ => isIdentifierChar_of_mem_word, hquote, behindQuote]
  by_cases hword : keywords.contains h.word = true
  · have hletters := (hkeywords _ (List.contains_iff_mem.1 hword)).2
    rw [hletters, Bool.true_and, apply_ite keywords.contains, hword, hnil, Bool.true_and]
    simp
  · rw [Bool.not_eq_true] at hword
    rw [apply_ite keywords.contains, hword, hnil, ite_self, Bool.false_and]

/-- Where no export statement ends with white space, the scan takes the last token for what it
is. -/
theorem noted_eq_settled (hh : h.overread = false) : h.noted = h.settled := by
  induction h with
  | nil => rfl
  | cons e h ih =>
      by_cases hgap : e.sign = .gap
      · cases hexported : e.exported with
        | false =>
            have hnoted : noted (e :: h) = noted h := by simp [noted, hgap, hexported]
            have hsettled : settled (e :: h) = settled h := by simp [settled, hgap]
            rw [overread, hnoted] at hh
            rw [hnoted, hsettled, ih hh]
        | true => simp [overread, noted, hexported, hgap] at hh
      · simp [noted, settled, hgap]

/-- The white space that an export statement ends with is no word. -/
theorem word_noted_of_overread (hh : h.overread = true) : h.noted.word = [] := by
  cases hn : h.noted with
  | nil => rfl
  | cons e before =>
      have hgap : e.sign = .gap := by simpa [overread, hn] using hh
      exact word_of_not_inWord (by simp [Entry.inWord, hgap, Sign.char?])

/-- What the scan takes for the last token is a keyword if the last token is one that it sees. -/
theorem contains_noted (hs : Spells h.noted past) {keywords : List (List Char)}
    (hkeywords : ∀ word ∈ keywords, word ≠ [] ∧ word.all isKeywordChar = true) :
    keywords.contains (wordBehind past) = (keywords.contains h.settled.word && !h.unseen) := by
  rw [hs.contains_wordBehind hkeywords, unseen]
  cases hh : h.overread with
  | false => rw [noted_eq_settled hh, Bool.false_or]
  | true =>
      have hnil : keywords.contains [] = false := by
        rw [Bool.eq_false_iff]
        exact fun h => (hkeywords _ (List.contains_iff_mem.1 h)).1 rfl
      rw [word_noted_of_overread hh, hnil, Bool.true_or, Bool.false_and, Bool.not_true,
        Bool.and_false]

theorem opensCondition_eq (hs : Spells h.noted past) :
    conditionKeywords.contains (wordBehind past) = (h.opensCondition && !h.unseen) :=
  contains_noted hs (by decide)

/-- A sign that is no character ends with none of those in front of a brace of statements. -/
theorem Sign.EndsWith.heldStatements_eq {sign : Sign} {c : Char} (hends : sign.EndsWith c)
    (past : Past) : Scan.heldStatements (c :: past) = false := by
  have hother : c ≠ ';' ∧ c ≠ ')' ∧ c ≠ 'y' := by
    cases sign with
    | char => exact hends.elim
    | gap =>
        rcases hends with hspace | rfl
        · refine ⟨?_, ?_, ?_⟩ <;> rintro rfl <;> exact absurd hspace (by decide)
        · decide
    | literal =>
        rcases hends with hquote | rfl
        · refine ⟨?_, ?_, ?_⟩ <;> rintro rfl <;> exact absurd hquote (by decide)
        · decide
    | substitution | regex =>
        obtain rfl : c = _ := hends
        decide
  simp [Scan.heldStatements, hother]

/-- Behind the word `finally`, unless a quote stands in front of it, statements follow. -/
theorem heldStatements_word {c : Char} (hs : Spells h (c :: past)) (hc : c ≠ ';' ∧ c ≠ ')') :
    Scan.heldStatements (c :: past) = (h.word = "finally".toList && !h.behindQuote) := by
  have hword : ["finally".toList].contains (wordBehind (c :: past)) = _ :=
    hs.contains_wordBehind (by decide)
  simp only [List.contains_cons, List.contains_nil, Bool.or_false] at hword
  have hlast : h.word = "finally".toList → c = 'y' := by
    intro hfinally
    obtain ⟨before, hpast, -⟩ := hs.exists_word
    rw [hfinally] at hpast
    exact (List.cons.inj hpast).1
  simp only [Scan.heldStatements, List.head?_cons, beq_eq_false_iff_ne.2 hc.1,
    beq_eq_false_iff_ne.2 hc.2, Bool.false_or, hword]
  by_cases hfinally : h.word = "finally".toList
  · rw [hlast hfinally, hfinally]
    simp
  · rw [beq_eq_false_iff_ne.2 hfinally, decide_eq_false hfinally, Bool.false_and, Bool.and_false]

/-- The scan takes a brace for one of statements where it is one, if it sees the token in front. -/
theorem heldStatements_eq (hs : Spells h.noted past) :
    Scan.heldStatements past = (h.opensBlock && !h.unseen) := by
  cases hover : h.overread with
  | true =>
      cases hn : h.noted with
      | nil => simp [overread, hn] at hover
      | cons e before =>
          have hgap : e.sign = .gap := by simpa [overread, hn] using hover
          rw [hn] at hs
          cases hs with
          | char => cases hgap
          | longer _ ends => rw [ends.heldStatements_eq, unseen, hover, Bool.true_or]; simp
  | false =>
      have hsettled := noted_eq_settled hover
      rw [hsettled] at hs
      rw [unseen, hover, Bool.false_or, opensBlock]
      cases hh : h.settled with
      | nil =>
          rw [hh] at hs
          rw [hs.eq_nil]
          rfl
      | cons e before =>
          rw [hh] at hs
          cases hs with
          | @char c exported _ past rest =>
              by_cases hc : c ≠ ';' ∧ c ≠ ')'
              · have hword : Spells (⟨.char c, exported⟩ :: before) (c :: past) := .char rest
                rw [heldStatements_word hword hc]
                simp only [Sign.char.injEq, hc.1, hc.2, decide_false, Bool.false_or]
              · obtain rfl | rfl : c = ';' ∨ c = ')' := by tauto
                all_goals rfl
          | @longer sign exported _ _ last more rest ends =>
              have hin : Entry.inWord ⟨sign, exported⟩ = false := by
                simp [Entry.inWord, ends.char?_eq]
              dsimp only
              rw [ends.heldStatements_eq, word_of_not_inWord hin]
              cases sign <;> first | rfl | exact ends.elim

end Tests

section Texts

variable {h : History} {c d : Cursor} {signs : List Sign}

/-! ### Texts of signs -/

theorem Filler.endsWith_gap (f : Filler) : ∃ cs c, f.text = cs ++ [c] ∧ Sign.EndsWith .gap c := by
  cases f with
  | space c hc => exact ⟨[], c, rfl, .inl hc⟩
  | line content stop hc hs => exact ⟨'/' :: '/' :: content, stop, rfl,
      .inl (isSpace_of_isLineBreak hs)⟩
  | block content hc => exact ⟨'/' :: '*' :: content ++ ['*'], '/', by simp [Filler.text], .inr rfl⟩

theorem Spells.longer_of_between {sign : Sign} {exported : Bool} {cs : List Char} {last : Char}
    (hs : Spells h c.past) (hends : sign.EndsWith last) (hbetween : c.Between (cs ++ [last]) d) :
    Spells (⟨sign, exported⟩ :: h) d.past := by
  rw [hbetween.past_eq]
  simpa using @Spells.longer sign exported h c.past last cs.reverse hs hends

theorem Spells.gap {exported : Bool} (hs : Spells h c.past) (hread : c.Reads .gap d)
    (hd : d.rest ≠ []) : Spells (⟨.gap, exported⟩ :: h) d.past := by
  obtain ⟨gap, hne, hbetween⟩ := hread.exists_gap hd
  obtain ⟨front, f, rfl⟩ := (List.eq_nil_or_concat gap).resolve_left hne
  obtain ⟨cs, last, hf, hends⟩ := f.endsWith_gap
  have htext : Gap.text (front.concat f) = (Gap.text front ++ cs) ++ [last] := by
    simp [Gap.text, hf]
  exact hs.longer_of_between hends (htext ▸ hbetween)

theorem Spells.literal {exported : Bool} (hs : Spells h c.past) (hread : c.Reads .literal d) :
    Spells (⟨.literal, exported⟩ :: h) d.past := by
  obtain ⟨quote, content, hquote, hbetween⟩ := hread.exists_literal
  exact hs.longer_of_between (.inl hquote) hbetween

/-- The signs of a statement go on with what its text is. -/
theorem Spells.passes (hs : Spells h c.past) (hpasses : c.Passes signs d) (hd : d.rest ≠ [])
    {marks : History} (hmarks : marks.map Entry.sign = signs) : Spells (marks ++ h) d.past := by
  induction hpasses generalizing marks with
  | refl =>
      obtain rfl := List.map_eq_nil_iff.1 hmarks
      exact hs
  | tail hpasses hread ih =>
      obtain ⟨⟨sign, exported⟩, marks, rfl, hsign, hmore⟩ := List.map_eq_cons_iff.1 hmarks
      obtain rfl : sign = _ := hsign
      have hbefore := ih hread.rest_ne_nil hmore
      cases sign with
      | gap => exact hbefore.gap hread hd
      | literal => exact hbefore.literal hread
      | char ch =>
          cases hread with
          | char hrest _ _ => simpa [Cursor.advance, hrest] using Spells.char hbefore
      | substitution | regex => cases hread

theorem ChunkEnd.endsWith (e : ChunkEnd) : e.sign.1.EndsWith e.sign.2 := by
  cases e
  · exact .inr rfl
  · rfl

end Texts

end ImportAtlas.Source
