import ImportAtlas.Proofs.Expressions

/-!
# Initializers

How the look for the comma behind an initializer passes over the items of an expression: over each
element as a whole, except that it gives up at a template with substitutions and, outside of
brackets, at a line end in front of anything but punctuation.

## Summary

* `Gap.breaksLine` says that a line ends among the white space in front of the first comment of a
  gap: line ends behind a comment are passed together with it.
* `givesUp` says that the search ends within some items.

## Main results

* `initializerEnd?_gap`, `initializerEnd?_element`: one item.
* `initializerEnd?_items`: all items as far as the comma or the semicolon behind them.
-/

namespace ImportAtlas.Source

variable {depth : Nat} {last past : Past} {rest : List Char}

/-! ### Characters -/

/-- Whether a character opens or closes a bracket, or begins a string or a template. -/
def isDelimiter (c : Char) : Bool :=
  openers.contains c || closers.contains c || isQuote c || c == '\x60'

theorem isDelimiter_eq_false {p : Char → Bool}
    (hp : ∀ d ∈ openers ++ closers ++ ['\'', '"', '\x60'], p d = false) {c : Char}
    (hc : p c = true) : isDelimiter c = false := by
  by_contra h
  have hmem : c ∈ openers ++ closers ++ ['\'', '"', '\x60'] := by
    simpa [isDelimiter, isQuote, or_iff_not_imp_left] using h
  simp [hp c hmem] at hc

theorem startsComment_eq_false {c : Char} (hc : c ≠ '/') : startsComment (c :: rest) = false := by
  unfold startsComment
  split <;> simp_all

theorem initializerEnd?_opener {c : Char} (hc : c ∈ openers) :
    initializerEnd? depth last ⟨past, c :: rest⟩ =
      initializerEnd? (depth + 1) (c :: past) ⟨c :: past, rest⟩ := by
  have hopeners : ∀ c ∈ openers, (c == '(' || c == '[' || c == '\x7b') = true :=
    List.all_eq_true.1 rfl
  have hch := hopeners c hc
  rw [initializerEnd?, dif_neg (by simp)]
  simp only [Cursor.peek?, List.head?_cons, Option.getD_some, hch, if_true]
  rfl

theorem initializerEnd?_closer {c : Char} (hc : c ∈ closers) :
    initializerEnd? (depth + 1) last ⟨past, c :: rest⟩ =
      initializerEnd? depth (c :: past) ⟨c :: past, rest⟩ := by
  have hclosers : ∀ c ∈ closers, (c == '(' || c == '[' || c == '\x7b') = false ∧
      (c == ')' || c == ']' || c == '\x7d') = true := List.all_iff_forall_prop.1 (by decide)
  have hch := hclosers c hc
  rw [initializerEnd?, dif_neg (by simp)]
  simp only [Cursor.peek?, List.head?_cons, Option.getD_some, hch, if_true, Bool.false_eq_true,
    if_false, if_neg (Nat.succ_ne_zero depth), Nat.add_sub_cancel]
  rfl

theorem initializerEnd?_string {quote : Char} (hq : isQuote quote = true) {content : List Char}
    (h : IsStringContent quote content) :
    initializerEnd? depth last ⟨past, quote :: content ++ [quote] ++ rest⟩ =
      initializerEnd? depth ((quote :: content ++ [quote]).reverse ++ past)
        ⟨(quote :: content ++ [quote]).reverse ++ past, rest⟩ := by
  have hch : (quote == '(' || quote == '[' || quote == '\x7b') = false ∧
      (quote == ')' || quote == ']' || quote == '\x7d') = false := by
    simp only [isQuote, Bool.or_eq_true, beq_iff_eq] at hq
    rcases hq with rfl | rfl <;> decide
  have hskip := Cursor.skipString_escaped hq h past rest
  rw [initializerEnd?, dif_neg (by simp)]
  simp only [Cursor.peek?, List.cons_append, List.head?_cons, Option.getD_some, hch, hq, if_true,
    Bool.false_eq_true, if_false] at hskip ⊢
  split
  · rename_i e he
    rw [← Except.ok.inj (hskip.symm.trans he)]
  · rename_i f hf
    cases hskip.symm.trans hf

theorem initializerEnd?_template (t : Template) :
    initializerEnd? depth last ⟨past, t.text ++ rest⟩ =
      initializerEnd? depth (t.text.reverse ++ past) ⟨t.text.reverse ++ past, rest⟩ := by
  have hskip := Cursor.skipPlainTemplate?_template t past rest
  rw [initializerEnd?, dif_neg (by simp [Template.text])]
  simp only [Template.text, Cursor.peek?, List.cons_append, List.head?_cons, Option.getD_some,
    if_true, show ('\x60' == '(' || '\x60' == '[' || '\x60' == '\x7b') = false by decide,
    show ('\x60' == ')' || '\x60' == ']' || '\x60' == '\x7d') = false by decide,
    show isQuote '\x60' = false by decide, beq_self_eq_true, Bool.false_eq_true,
    if_false] at hskip ⊢
  split
  · rename_i e he
    rw [← Option.some.inj (hskip.symm.trans he)]
  · rename_i hf
    cases hskip.symm.trans hf

theorem initializerEnd?_substituted {content : List Char} (h : IsTemplateContent content) :
    initializerEnd? depth last ⟨past, '\x60' :: (content ++ '$' :: '\x7b' :: rest)⟩ = none := by
  have hskip := Cursor.skipPlainTemplate?_substituted h past rest
  rw [initializerEnd?, dif_neg (by simp)]
  simp only [Cursor.peek?, List.head?_cons, Option.getD_some,
    if_true, show ('\x60' == '(' || '\x60' == '[' || '\x60' == '\x7b') = false by decide,
    show ('\x60' == ')' || '\x60' == ']' || '\x60' == '\x7d') = false by decide,
    show isQuote '\x60' = false by decide, beq_self_eq_true, Bool.false_eq_true, if_false]
  split
  · rename_i e he
    cases hskip.symm.trans he
  · rfl

/-- What is done at any other character. -/
theorem initializerEnd?_other {c : Char}
    (hc : isDelimiter c = false) :
    initializerEnd? depth last ⟨past, c :: rest⟩ =
      if startsComment (c :: rest) then
        match (⟨past, c :: rest⟩ : Cursor).skipTrivia with
        | .ok e => initializerEnd? depth last e
        | .error _ => none
      else if c == '/' && expectsOperand last then
        match (⟨past, c :: rest⟩ : Cursor).skipRegex with
        | .ok e => initializerEnd? depth e.past e
        | .error _ => none
      else if depth = 0 && c == ',' then some ⟨past, c :: rest⟩
      else if depth = 0 && c == ';' then none
      else if depth = 0 && isLineBreak c then
        match (⟨past, c :: rest⟩ : Cursor).skipTrivia with
        | .ok e =>
          if e.peek?.any isPunctuator then initializerEnd? depth last ⟨c :: past, rest⟩ else none
        | .error _ => none
      else initializerEnd? depth (if isSpace c then last else c :: past) ⟨c :: past, rest⟩ := by
  simp only [isDelimiter, Bool.or_eq_false_iff] at hc
  obtain ⟨⟨⟨hopen, hclose⟩, hquote⟩, htick⟩ := hc
  have hopen : (c == '(' || c == '[' || c == '\x7b') = false := by
    simpa [openers, Bool.or_assoc] using hopen
  have hclose : (c == ')' || c == ']' || c == '\x7d') = false := by
    simpa [closers, Bool.or_assoc] using hclose
  rw [initializerEnd?, dif_neg (by simp)]
  simp only [Cursor.peek?, List.head?_cons, Option.getD_some, hopen, hclose, hquote, htick,
    Bool.false_eq_true, if_false]
  by_cases hcomment : startsComment (c :: rest) = true
  · rw [if_pos hcomment, if_pos hcomment]
    split <;> simp_all
  rw [if_neg hcomment, if_neg hcomment]
  rcases Bool.eq_false_or_eq_true (c == '/' && expectsOperand last) with hregex | hregex
  · simp only [hregex, if_true]
    split <;> rename_i h <;> simp only [h]
  · simp only [hregex, Bool.false_eq_true, if_false]
    rfl

/-- A character of an element that is none of the ones above is passed. -/
theorem initializerEnd?_char {c : Char}
    (hc : isDelimiter c = false)
    (hspace : isSpace c = false) (hcomment : startsComment (c :: rest) = false)
    (hregex : (c == '/' && expectsOperand last) = false)
    (hstop : depth = 0 → c ≠ ',' ∧ c ≠ ';') :
    initializerEnd? depth last ⟨past, c :: rest⟩ =
      initializerEnd? depth (c :: past) ⟨c :: past, rest⟩ := by
  have hbreak : isLineBreak c = false :=
    Bool.eq_false_iff.2 fun h => by simp [isSpace_of_isLineBreak h] at hspace
  have hcomma : (decide (depth = 0) && c == ',') = false := by
    simpa using fun h => (hstop h).1
  have hsemicolon : (decide (depth = 0) && c == ';') = false := by
    simpa using fun h => (hstop h).2
  simp only [initializerEnd?_other hc, hcomment, hregex, hcomma, hsemicolon, hbreak, hspace,
    Bool.and_false, Bool.false_eq_true, if_false]

/-! ### White space and comments -/

/-- An element comes next, or nothing. -/
def Begins (rest : List Char) : Prop :=
  (∀ c ∈ rest.head?, isSpace c = false) ∧ startsComment rest = false

theorem begins_cons {c : Char} (hspace : isSpace c = false) (hslash : c ≠ '/') :
    Begins (c :: rest) :=
  ⟨fun _ hd => Option.some.inj hd ▸ hspace, startsComment_eq_false hslash⟩

theorem triviaLengthIn_begins (h : Begins rest) (offset : Nat) :
    triviaLengthIn offset .space rest = .ok 0 := by
  cases rest with
  | nil => simp [triviaLengthIn]
  | cons c rest =>
      rw [triviaLengthIn, if_neg (by simp [h.1 c rfl])]
      · rintro tail rfl rfl
        cases h.2
      · rintro tail rfl rfl
        cases h.2

theorem Cursor.skipTrivia_gap (gap : Gap) (h : Begins rest) :
    (⟨past, gap.text ++ rest⟩ : Cursor).skipTrivia = .ok ⟨gap.text.reverse ++ past, rest⟩ := by
  have hlength : triviaLength (gap.text ++ rest) = .ok gap.text.length := by
    simp [triviaLength, triviaLengthIn_fillers, triviaLengthIn_begins h, Except.map]
  simp only [skipTrivia, hlength, advance_append]

/-- Whether a line ends among the white space in front of the first comment. -/
def Gap.breaksLine : Gap → Bool
  | .space c _ :: gap => isLineBreak c || Gap.breaksLine gap
  | _ => false

theorem initializerEnd?_gap (gap : Gap) (h : Begins rest) :
    initializerEnd? depth last ⟨past, gap.text ++ rest⟩ =
      if depth = 0 ∧ gap.breaksLine = true ∧ rest.head?.any isPunctuator = false then none
      else initializerEnd? depth last ⟨gap.text.reverse ++ past, rest⟩ := by
  induction gap generalizing past with
  | nil => simp [Gap.text, Gap.breaksLine]
  | cons f gap ih =>
      have hskip := @Cursor.skipTrivia_gap past _ (f :: gap) h
      -- a comment is passed together with all that follows it
      have hcomment {cs : List Char} {c : Char} (hc : c = '/' ∨ c = '*')
          (htext : Gap.text (f :: gap) ++ rest = '/' :: c :: cs) :
          initializerEnd? depth last ⟨past, Gap.text (f :: gap) ++ rest⟩ =
            initializerEnd? depth last ⟨(Gap.text (f :: gap)).reverse ++ past, rest⟩ := by
        have hstart : startsComment ('/' :: c :: cs) = true := by rcases hc with rfl | rfl <;> rfl
        rw [htext] at hskip ⊢
        rw [initializerEnd?_other (by decide), if_pos hstart, hskip]
      cases f with
      | space c hc =>
          have htext : Gap.text (.space c hc :: gap) = c :: Gap.text gap := rfl
          rw [htext, List.cons_append] at hskip
          have hslash : c ≠ '/' := by rintro rfl; exact absurd hc (by decide)
          have hcomma : c ≠ ',' := by rintro rfl; exact absurd hc (by decide)
          have hsemicolon : c ≠ ';' := by rintro rfl; exact absurd hc (by decide)
          have hstep : initializerEnd? depth last ⟨c :: past, Gap.text gap ++ rest⟩ = _ := ih
          have hdelimiter : isDelimiter c = false :=
            isDelimiter_eq_false (List.all_iff_forall_prop.1 (by decide)) hc
          rw [htext, List.cons_append, initializerEnd?_other hdelimiter]
          simp only [startsComment_eq_false hslash, beq_eq_false_iff_ne.2 hslash,
            beq_eq_false_iff_ne.2 hcomma, beq_eq_false_iff_ne.2 hsemicolon, Bool.false_and,
            Bool.and_false, Bool.false_eq_true, if_false, hskip, hc, if_true, hstep]
          simp only [Gap.breaksLine, Cursor.peek?, List.reverse_cons, List.append_assoc,
            List.singleton_append]
          by_cases hdepth : depth = 0 <;> by_cases hbreak : isLineBreak c = true <;>
            by_cases hmark : rest.head?.any isPunctuator = true <;> simp [hdepth, hbreak, hmark]
      | line content stop hline hstop =>
          rw [if_neg (by simp [Gap.breaksLine])]
          exact hcomment (.inl rfl) rfl
      | block content hopen =>
          rw [if_neg (by simp [Gap.breaksLine])]
          exact hcomment (.inr rfl) rfl

/-! ### Elements -/

theorem initializerEnd?_regex {body : List Char} (h : IsRegexBody false body)
    (hcomment : startsComment ('/' :: body ++ ['/'] ++ rest) = false)
    (hlast : expectsOperand last = true) :
    initializerEnd? depth last ⟨past, '/' :: body ++ ['/'] ++ rest⟩ =
      initializerEnd? depth (('/' :: body ++ ['/']).reverse ++ past)
        ⟨('/' :: body ++ ['/']).reverse ++ past, rest⟩ := by
  have hskip := Cursor.skipRegex_body h past rest
  simp only [List.cons_append] at hskip hcomment ⊢
  simp only [initializerEnd?_other (show isDelimiter '/' = false by decide), hcomment, hlast, hskip,
    beq_self_eq_true, Bool.and_true, if_true, Bool.false_eq_true, if_false]

theorem initializerEnd?_identifierChar {c : Char} (hc : isIdentifierChar c = true) :
    initializerEnd? depth last ⟨past, c :: rest⟩ =
      initializerEnd? depth (c :: past) ⟨c :: past, rest⟩ := by
  have hne {d : Char} (hd : isIdentifierChar d = false) : c ≠ d := by
    rintro rfl
    rw [hc] at hd
    cases hd
  have hdelimiter : isDelimiter c = false :=
    isDelimiter_eq_false (List.all_iff_forall_prop.1 (by decide)) hc
  exact initializerEnd?_char hdelimiter (isSpace_of_isIdentifierChar hc)
    (startsComment_eq_false (hne (by decide))) (by simp [hne (d := '/') (by decide)])
    fun _ => ⟨hne (by decide), hne (by decide)⟩

/-- A word is passed character by character. -/
theorem initializerEnd?_word (w : Word) :
    initializerEnd? depth last ⟨past, w.chars ++ rest⟩ =
      initializerEnd? depth (w.chars.reverse ++ past) ⟨w.chars.reverse ++ past, rest⟩ := by
  have htail {chars : List Char} (past : Past) (h : ∀ c ∈ chars, isIdentifierChar c = true) :
      initializerEnd? depth past ⟨past, chars ++ rest⟩ =
        initializerEnd? depth (chars.reverse ++ past) ⟨chars.reverse ++ past, rest⟩ := by
    induction chars generalizing past with
    | nil => rfl
    | cons c chars ih =>
        rw [List.forall_mem_cons] at h
        rw [List.cons_append, initializerEnd?_identifierChar h.1, ih (c :: past) h.2]
        simp
  obtain ⟨c, chars, hchars⟩ := List.exists_cons_of_ne_nil w.chars_ne_nil
  have hw := w.isIdentifierChar_eq
  rw [hchars, List.forall_mem_cons] at hw
  rw [hchars, List.cons_append, initializerEnd?_identifierChar hw.1, htail (c :: past) hw.2]
  simp

/-- A regular expression begins no comment. -/
theorem startsComment_regex {body : List Char} (h : IsRegexBody false body) (hne : body ≠ [])
    (hstar : body.head? ≠ some '*') : startsComment ('/' :: body ++ ['/'] ++ rest) = false := by
  cases h with
  | nil => exact absurd rfl hne
  | escape => rfl
  | openClass => rfl
  | char hbackslash hline hplain htail =>
      unfold startsComment
      split <;> simp_all

/-- The first character of an element is no white space, and tells whether the element begins with
punctuation; where the element may stand, it does not begin a comment. -/
theorem Item.exists_text_eq_cons (i : Item) : ∃ c cs, i.element.text = c :: cs ∧
    isSpace c = false ∧ isPunctuator c = i.element.beginsWithMark ∧
    ∀ {before? rest}, i.follows depth before? rest = true →
      startsComment (c :: (cs ++ rest)) = false := by
  have hmarks : ∀ c ∈ operators ++ openers ++ closers ++ [',', ';'],
      isSpace c = false ∧ isPunctuator c = true ∧ c ≠ '/' := List.all_iff_forall_prop.1 (by decide)
  have hmark {c : Char} (hc : c ∈ operators ++ openers ++ closers ++ [',', ';']) : ∃ d cs,
      [c] = d :: cs ∧ isSpace d = false ∧ isPunctuator d = true ∧
        ∀ {before? rest}, i.follows depth before? rest = true →
          startsComment (d :: (cs ++ rest)) = false :=
    ⟨c, [], rfl, (hmarks c hc).1, (hmarks c hc).2.1, fun _ =>
      startsComment_eq_false (hmarks c hc).2.2⟩
  obtain ⟨gap, element⟩ := i
  cases element with
  | word w =>
      obtain ⟨c, cs, hcs⟩ := List.exists_cons_of_ne_nil w.chars_ne_nil
      have hc := w.isIdentifierChar_eq c (hcs ▸ List.mem_cons_self ..)
      have hslash : c ≠ '/' := by rintro rfl; exact absurd hc (by decide)
      exact ⟨c, cs, hcs, isSpace_of_isIdentifierChar hc, isPunctuator_of_isIdentifierChar hc,
        fun _ => startsComment_eq_false hslash⟩
  | operator c hc => exact hmark (by simp [hc])
  | divide =>
      refine ⟨'/', [], rfl, rfl, rfl, fun {_ rest} h => ?_⟩
      unfold startsComment
      split <;> simp_all [follows]
  | separator c hc => exact hmark (List.mem_append_right _ hc)
  | opener c hc => exact hmark (by simp [hc])
  | closer c hc => exact hmark (by simp [hc])
  | string quote hq content hcontent =>
      have hquote : isPunctuator quote = false ∧ quote ≠ '/' := by
        simp only [isQuote, Bool.or_eq_true, beq_iff_eq] at hq
        rcases hq with rfl | rfl <;> decide
      exact ⟨quote, _, rfl, isSpace_of_isQuote hq, hquote.1, fun _ =>
        startsComment_eq_false hquote.2⟩
  | template t => exact ⟨'\x60', _, rfl, rfl, rfl, fun _ => startsComment_eq_false (by decide)⟩
  | substituted content hcontent more =>
      exact ⟨'\x60', _, rfl, rfl, rfl, fun _ => startsComment_eq_false (by decide)⟩
  | regex body hbody hne hstar =>
      refine ⟨'/', _, rfl, rfl, rfl, fun {_ rest} _ => ?_⟩
      exact startsComment_regex hbody hne hstar

/-- Neither white space nor a comment begins where an element may stand. -/
theorem Item.begins {i : Item} {before? : Option Element}
    (h : i.follows depth before? rest = true) : Begins (i.element.text ++ rest) := by
  obtain ⟨c, cs, hcs, hspace, -, hcomment⟩ := @Item.exists_text_eq_cons depth i
  rw [hcs]
  exact ⟨by simpa using hspace, hcomment h⟩

theorem Item.head?_any_isPunctuator (i : Item) (rest : List Char) :
    (i.element.text ++ rest).head?.any isPunctuator = i.element.beginsWithMark := by
  obtain ⟨c, cs, hcs, -, hmark, -⟩ := @Item.exists_text_eq_cons 0 i
  simpa [hcs] using hmark

/-- An element is passed as a whole. -/
theorem initializerEnd?_element {i : Item} {before? : Option Element}
    (hfollows : i.follows depth before? rest = true)
    (hlast : expectsOperand last = operandNext before?)
    (hplain : i.element.isSubstituted = false) :
    initializerEnd? depth last ⟨past, i.element.text ++ rest⟩ =
      initializerEnd? (i.element.depthAfter depth) (i.element.text.reverse ++ past)
        ⟨i.element.text.reverse ++ past, rest⟩ := by
  have hmarks : ∀ c ∈ operators ++ [',', ';'],
      isDelimiter c = false ∧ isSpace c = false ∧ c ≠ '/' := List.all_iff_forall_prop.1 (by decide)
  have hstop : ∀ c ∈ operators, c ≠ ',' ∧ c ≠ ';' := List.all_iff_forall_prop.1 (by decide)
  obtain ⟨gap, element⟩ := i
  cases element with
  | word w => exact initializerEnd?_word w
  | operator c hc =>
      obtain ⟨h1, h2, h3⟩ := hmarks c (by simp [hc])
      exact initializerEnd?_char h1 h2 (startsComment_eq_false h3) (by simp [h3])
        fun _ => hstop c hc
  | divide =>
      have hoperand : operandNext before? = false := by simp_all [Item.follows]
      exact initializerEnd?_char rfl rfl (Item.begins hfollows).2 (by simp [hlast, hoperand])
        fun _ => by decide
  | separator c hc =>
      obtain ⟨h1, h2, h3⟩ := hmarks c (List.mem_append_right _ hc)
      have hdepth : depth ≠ 0 := by simpa [Item.follows] using hfollows
      exact initializerEnd?_char h1 h2 (startsComment_eq_false h3) (by simp [h3])
        fun h => absurd h hdepth
  | opener c hc => exact initializerEnd?_opener hc
  | closer c hc =>
      have hdepth : depth ≠ 0 := by simpa [Item.follows] using hfollows
      obtain ⟨depth, rfl⟩ := Nat.exists_eq_succ_of_ne_zero hdepth
      exact initializerEnd?_closer hc
  | string quote hq content hcontent => exact initializerEnd?_string hq hcontent
  | template t => exact initializerEnd?_template t
  | substituted => cases hplain
  | regex body hbody hne hstar =>
      exact initializerEnd?_regex hbody (startsComment_regex hbody hne hstar)
        (hlast.trans hfollows)

/-! ### Items -/

/-- Whether the search ends within some items, with some brackets open. -/
def givesUp : Nat → List Item → Bool
  | _, [] => false
  | depth, i :: items =>
    (depth == 0 && i.gap.breaksLine && !i.element.beginsWithMark) || i.element.isSubstituted ||
      givesUp (i.element.depthAfter depth) items

/-- Only the next character behind an item matters to it. -/
theorem Item.follows_append {i : Item} {before? : Option Element}
    (h : i.follows depth before? rest = true) {c : Char} (hc : c ∈ [',', ';']) (more : List Char) :
    i.follows depth before? (rest ++ c :: more) = true := by
  obtain ⟨gap, element⟩ := i
  cases element with
  | divide =>
      have hmarks : ∀ c ∈ [',', ';'], (c != '/' && c != '*') = true := List.all_eq_true.1 rfl
      have hmark := hmarks c hc
      cases rest <;> simp_all [follows]
  | _ => exact h

/-- The search ends at a template with substitutions. -/
theorem initializerEnd?_isSubstituted {e : Element} (h : e.isSubstituted = true) :
    initializerEnd? depth last ⟨past, e.text ++ rest⟩ = none := by
  cases e with
  | substituted content hcontent more =>
      simpa [Element.text] using
        @initializerEnd?_substituted depth last past (more ++ rest) content hcontent
  | _ => cases h

/-- The comma behind an initializer is found unless the search gives up within it. -/
theorem initializerEnd?_items {items : List Item} {gap : Gap} {before? : Option Element}
    (hlegible : legible gap depth before? items = true) (hbehind : Behind before? past)
    {stop : Char} (hstop : stop ∈ [',', ';']) :
    initializerEnd? depth past ⟨past, itemsText items gap ++ stop :: rest⟩ =
      if givesUp depth items = false ∧ stop = ',' then
        some ⟨(itemsText items gap).reverse ++ past, stop :: rest⟩
      else none := by
  induction items generalizing depth before? past with
  | nil =>
      obtain rfl : depth = 0 := by simpa [legible] using hlegible
      have htext : itemsText [] gap = gap.text := rfl
      rw [htext]
      simp only [List.mem_cons, List.not_mem_nil, or_false] at hstop
      rcases hstop with rfl | rfl
      · have hbegins : Begins (',' :: rest) := begins_cons (by decide) (by decide)
        have hmark : isPunctuator ',' = true := by decide
        rw [initializerEnd?_gap gap hbegins, if_neg (by simp [hmark]),
          initializerEnd?_other rfl, if_neg (by simp [hbegins.2]), if_neg (by simp),
          if_pos (by simp), if_pos ⟨rfl, rfl⟩]
      · have hbegins : Begins (';' :: rest) := begins_cons (by decide) (by decide)
        have hmark : isPunctuator ';' = true := by decide
        rw [initializerEnd?_gap gap hbegins, if_neg (by simp [hmark]),
          initializerEnd?_other rfl, if_neg (by simp [hbegins.2]), if_neg (by simp),
          if_neg (by simp), if_pos (by simp), if_neg (by simp)]
  | cons i items ih =>
      obtain ⟨hfollows, hlegible⟩ := Bool.and_eq_true _ _ ▸ hlegible
      have hfollows := Item.follows_append hfollows hstop rest
      rw [itemsText_cons, List.append_assoc, List.append_assoc,
        initializerEnd?_gap i.gap (Item.begins hfollows), i.head?_any_isPunctuator]
      -- The end of a line ends the search where no punctuation goes on with the value.
      by_cases hgap : depth = 0 ∧ i.gap.breaksLine = true ∧ i.element.beginsWithMark = false
      · rw [if_pos hgap, if_neg (by simp [givesUp, hgap])]
      rw [if_neg hgap]
      cases hsub : i.element.isSubstituted with
      | true => rw [initializerEnd?_isSubstituted hsub, if_neg (by simp [givesUp, hsub])]
      | false =>
          have hgives : givesUp depth (i :: items) =
              givesUp (i.element.depthAfter depth) items := by
            simp_all [givesUp]
          rw [initializerEnd?_element hfollows hbehind.expectsOperand_eq hsub, hgives,
            ih hlegible (hbehind.item hfollows hsub)]
          simp [List.append_assoc]

end ImportAtlas.Source
