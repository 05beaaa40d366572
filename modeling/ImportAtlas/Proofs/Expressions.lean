import Mathlib.Data.Bool.AllAny
import Mathlib.Data.List.TakeWhile
import ImportAtlas.Source.Export
import ImportAtlas.Proofs.ImportStatements

/-!
# Expressions

The values of declared names, as runs of elements: words, operators, brackets with what stands in
them, and literals. Statements in the bodies of functions are such runs too. White space and
comments may stand in front of every element.

## Summary

* `Element` is an element of an expression, and `Item` an element with what stands in front of it.
* `Element.awaitsOperand` tells whether an operand comes next, so that a slash opens a regular
  expression: after an operator, an opening bracket, a separator or a keyword.
* `Item.follows` says that an element may stand where it does, and `legible` that a run of items is
  read element by element.

## Main results

* `Cursor.skipString_escaped`, `Cursor.skipRegex_body`, `chunkLength?_substitution`: literals end
  where they should.
* `Behind.item`: the text behind an element tells whether an operand comes next.
-/

namespace ImportAtlas.Source

/-! ### Elements -/

/-- The content of a string. A backslash takes the character after it along, and both characters of
a line end. -/
inductive IsStringContent (quote : Char) : List Char → Prop where
  | nil : IsStringContent quote []
  | char {c : Char} {content : List Char} (ne_quote : c ≠ quote) (ne_backslash : c ≠ '\\')
      (sameLine : isLineBreak c = false) (tail : IsStringContent quote content) :
      IsStringContent quote (c :: content)
  | escape {c : Char} {content : List Char} (single : c = '\r' → content.head? ≠ some '\n')
      (tail : IsStringContent quote content) : IsStringContent quote ('\\' :: c :: content)
  | escapedLineEnd {content : List Char} (tail : IsStringContent quote content) :
      IsStringContent quote ('\\' :: '\r' :: '\n' :: content)

/-- What stands between the slashes of a regular expression, from a place on that may be inside
brackets. A backslash escapes any character, and a slash inside brackets stands for itself. -/
inductive IsRegexBody : Bool → List Char → Prop where
  | nil : IsRegexBody false []
  | escape {inClass : Bool} {c : Char} {body : List Char} (tail : IsRegexBody inClass body) :
      IsRegexBody inClass ('\\' :: c :: body)
  | openClass {body : List Char} (tail : IsRegexBody true body) : IsRegexBody false ('[' :: body)
  | closeClass {body : List Char} (tail : IsRegexBody false body) : IsRegexBody true (']' :: body)
  | char {inClass : Bool} {c : Char} {body : List Char} (ne_backslash : c ≠ '\\')
      (sameLine : isLineBreak c = false)
      (plain : if inClass then c ≠ ']' else c ≠ '/' ∧ c ≠ '[') (tail : IsRegexBody inClass body) :
      IsRegexBody inClass (c :: body)

/-- The punctuation of operators, the slash apart. -/
def operators : List Char := "!%&*+-.:<=>?^|~".toList

/-- The opening brackets. -/
def openers : List Char := "([\x7b".toList

/-- The closing brackets. -/
def closers : List Char := ")]\x7d".toList

/-- An element of an expression. -/
inductive Element where
  /-- An identifier, a keyword or a number. -/
  | word (w : Word)
  /-- A character of an operator. -/
  | operator (c : Char) (mem : c ∈ operators)
  /-- A slash that divides. -/
  | divide
  /-- A comma or a semicolon. -/
  | separator (c : Char) (mem : c ∈ [',', ';'])
  /-- An opening bracket. -/
  | opener (c : Char) (mem : c ∈ openers)
  /-- A closing bracket. -/
  | closer (c : Char) (mem : c ∈ closers)
  /-- A string. -/
  | string (quote : Char) (isQuote_eq : isQuote quote = true) (content : List Char)
      (isStringContent : IsStringContent quote content)
  /-- A template without substitutions. -/
  | template (t : Template)
  /-- A template with substitutions: what stands before the first one, and all that follows. -/
  | substituted (content : List Char) (isTemplateContent : IsTemplateContent content)
      (more : List Char)
  /-- A regular expression. Two slashes, or a slash and a star, begin a comment. -/
  | regex (body : List Char) (isRegexBody : IsRegexBody false body) (ne_nil : body ≠ [])
      (ne_star : body.head? ≠ some '*')

namespace Element

/-- The characters of an element. -/
def text : Element → List Char
  | .word w => w.chars
  | .operator c _ => [c]
  | .divide => ['/']
  | .separator c _ => [c]
  | .opener c _ => [c]
  | .closer c _ => [c]
  | .string quote _ content _ => quote :: content ++ [quote]
  | .template t => t.text
  | .substituted content _ more => '\x60' :: content ++ '$' :: '\x7b' :: more
  | .regex body _ _ _ => '/' :: body ++ ['/']

/-- Whether an operand comes next after an element. -/
def awaitsOperand : Element → Bool
  | .word w => expressionKeywords.contains w.chars
  | .operator _ _ | .divide | .separator _ _ | .opener _ _ | .regex _ _ _ _ => true
  | .closer _ _ | .string _ _ _ _ | .template _ | .substituted _ _ _ => false

/-- Whether the last character of an element is one of punctuation. -/
def endsInMark : Element → Bool
  | .word _ | .string _ _ _ _ | .template _ | .substituted _ _ _ => false
  | _ => true

/-- Whether the first character of an element is one of punctuation. -/
def beginsWithMark : Element → Bool
  | .word _ | .string _ _ _ _ | .template _ | .substituted _ _ _ => false
  | _ => true

/-- Whether an element is a template with substitutions. -/
def isSubstituted : Element → Bool
  | .substituted _ _ _ => true
  | _ => false

/-- The number of open brackets after an element. -/
def depthAfter (depth : Nat) : Element → Nat
  | .opener _ _ => depth + 1
  | .closer _ _ => depth - 1
  | _ => depth

end Element

/-! ### Items -/

/-- An element with what stands in front of it. -/
structure Item where
  /-- What stands in front of the element. -/
  gap : Gap
  /-- The element. -/
  element : Element

/-- The characters of an item. -/
def Item.text (i : Item) : List Char := i.gap.text ++ i.element.text

/-- The characters of items and of the gap behind them. -/
def itemsText (items : List Item) (last : Gap) : List Char := items.flatMap Item.text ++ last.text

/-- Whether an operand comes next after an element, or at the beginning if there is none. -/
def operandNext (before? : Option Element) : Bool := before?.all Element.awaitsOperand

/-- Whether an element may stand behind another one, or at the beginning, with some brackets open
and `rest` behind it. Brackets that are closed are open, and separators stand inside of brackets. A
regular expression stands where an operand is awaited, and a slash divides where none is; the
characters after it do not make it a comment. A word does not run together with what is in front of
it. -/
def Item.follows (i : Item) (depth : Nat) (before? : Option Element) (rest : List Char) : Bool :=
  match i.element with
  | .closer _ _ | .separator _ _ => depth != 0
  | .regex _ _ _ _ => operandNext before?
  | .divide => !operandNext before? && rest.head?.all fun c => c != '/' && c != '*'
  | .word _ => !i.gap.isEmpty || before?.all Element.endsInMark
  | _ => true

/-- Whether every item may stand where it does, and all brackets are closed at the end. -/
def legible (last : Gap) : Nat → Option Element → List Item → Bool
  | depth, _, [] => depth == 0
  | depth, before?, i :: items =>
    i.follows depth before? (itemsText items last) &&
      legible last (i.element.depthAfter depth) (some i.element) items

theorem itemsText_cons (i : Item) (items : List Item) (last : Gap) :
    itemsText (i :: items) last = i.gap.text ++ (i.element.text ++ itemsText items last) := by
  simp [itemsText, Item.text]

/-! ### Literals -/

theorem stringLength?_escaped {quote : Char} (hq : isQuote quote = true) {content : List Char}
    (h : IsStringContent quote content) (rest : List Char) :
    stringLength? quote (content ++ quote :: rest) = some content.length := by
  induction h with
  | nil => exact stringLength?_plain hq (List.forall_mem_nil _) rest
  | @char c content hquote hbackslash hline _ ih =>
      rw [List.cons_append, stringLength?, if_neg hquote, if_neg (by simp [hbackslash, hline]), ih]
      · rfl
      · exact fun _ hc _ => hbackslash hc
      · exact fun _ _ hc _ => hbackslash hc
  | @escape c content hsingle _ ih =>
      rw [List.cons_append, List.cons_append, stringLength?, ih]
      · rfl
      · rintro tail rfl heq
        cases content with
        | nil =>
            obtain ⟨rfl, -⟩ := List.cons.inj heq
            exact absurd hq (by decide)
        | cons d content => exact hsingle rfl (by rw [(List.cons.inj heq).1]; rfl)
  | escapedLineEnd _ ih =>
      rw [List.cons_append, List.cons_append, List.cons_append, stringLength?, ih]
      rfl

theorem Cursor.skipString_escaped {quote : Char} (hq : isQuote quote = true) {content : List Char}
    (h : IsStringContent quote content) (past : Past) (rest : List Char) :
    (⟨past, (quote :: content ++ [quote]) ++ rest⟩ : Cursor).skipString =
      .ok ⟨(quote :: content ++ [quote]).reverse ++ past, rest⟩ := by
  have hlength := stringLength?_escaped hq h rest
  have hadvance := advance_append past (quote :: content ++ [quote]) rest
  simp only [List.cons_append, List.append_assoc, List.nil_append, List.length_cons,
    List.length_append, List.length_nil] at hlength hadvance ⊢
  simp only [skipString, hlength]
  exact congrArg Except.ok hadvance

theorem chunkLength?_substitution {content : List Char} (h : IsTemplateContent content)
    (rest : List Char) : chunkLength? (content ++ '$' :: '\x7b' :: rest) =
      some (.substitution, content.length + 2) := by
  induction h with
  | nil => rfl
  | @char c content hb hs hd _ ih =>
      rw [List.cons_append, chunkLength?, if_neg hs, ih]
      · rfl
      · exact hb
      · exact fun _ _ hc _ => hs hc
      · rintro tail rfl heq
        cases content with
        | nil => simp at heq
        | cons d content => exact hd rfl (by rw [(List.cons.inj heq).1]; rfl)
  | @escape c content _ ih =>
      rw [List.cons_append, List.cons_append, chunkLength?, ih]
      rfl

theorem Cursor.skipPlainTemplate?_template (t : Template) (past : Past) (rest : List Char) :
    (⟨past, t.text ++ rest⟩ : Cursor).skipPlainTemplate? =
      some ⟨t.text.reverse ++ past, rest⟩ := by
  have hadvance := advance_append past t.text rest
  have hchunk := chunkLength?_template t.isTemplateContent rest
  simp only [Template.text, List.cons_append, List.append_assoc, List.nil_append, List.length_cons,
    List.length_append, List.length_nil] at hadvance ⊢
  simp only [skipPlainTemplate?, plainTemplateLength?, List.drop_one, List.tail_cons, hchunk,
    Option.map_some, Nat.add_sub_cancel]
  exact congrArg some hadvance

theorem Cursor.skipPlainTemplate?_substituted {content : List Char} (h : IsTemplateContent content)
    (past : Past) (rest : List Char) :
    (⟨past, '\x60' :: (content ++ '$' :: '\x7b' :: rest)⟩ : Cursor).skipPlainTemplate? = none := by
  simp only [skipPlainTemplate?, plainTemplateLength?, List.drop_one, List.tail_cons,
    chunkLength?_substitution h, Option.map_none]

theorem regexLengthIn_body {inClass : Bool} {body : List Char} (h : IsRegexBody inClass body)
    (bracket? : Option Nat) (hbracket : bracket?.isSome = inClass) (offset : Nat)
    (rest : List Char) :
    regexLengthIn bracket? offset (body ++ '/' :: rest) = .ok (body.length + 1) := by
  induction h generalizing bracket? offset with
  | nil =>
      obtain rfl := Option.isSome_eq_false_iff.1 hbracket |> Option.isNone_iff_eq_none.1
      rw [List.nil_append, regexLengthIn]
      · rfl
      · simp
  | @escape inClass c body _ ih =>
      rw [List.cons_append, List.cons_append, regexLengthIn, ih bracket? hbracket]
      rfl
  | @openClass body _ ih =>
      obtain rfl := Option.isSome_eq_false_iff.1 hbracket |> Option.isNone_iff_eq_none.1
      rw [List.cons_append, regexLengthIn]
      · simp only [ih (some offset) rfl]
        rfl
      · simp
  | @closeClass body _ ih =>
      obtain ⟨bracket, rfl⟩ := Option.isSome_iff_exists.1 hbracket
      rw [List.cons_append, regexLengthIn]
      · simp only [ih none rfl]
        rfl
      · simp
  | @char inClass c body hbackslash hline hplain _ ih =>
      have hno : (isLineBreak c || c == '\\') = false := by simp [hline, hbackslash]
      have hsingle : ∀ d more, c = '\\' → body ++ '/' :: rest = d :: more → False :=
        fun _ _ hc _ => hbackslash hc
      cases bracket? with
      | none =>
          obtain rfl : inClass = false := hbracket.symm
          obtain ⟨hslash, hopen⟩ := hplain
          rw [List.cons_append, regexLengthIn, if_neg hslash, if_neg hopen, if_neg (by simp [hno]),
            ih none rfl]
          · rfl
          · exact hsingle
      | some bracket =>
          obtain rfl : inClass = true := hbracket.symm
          rw [List.cons_append, regexLengthIn, if_neg hplain, if_neg (by simp [hno]),
            ih (some bracket) rfl]
          · rfl
          · exact hsingle

theorem Cursor.skipRegex_body {body : List Char} (h : IsRegexBody false body) (past : Past)
    (rest : List Char) :
    (⟨past, ('/' :: body ++ ['/']) ++ rest⟩ : Cursor).skipRegex =
      .ok ⟨('/' :: body ++ ['/']).reverse ++ past, rest⟩ := by
  have hadvance := advance_append past ('/' :: body ++ ['/']) rest
  have hlength : regexLength (body ++ '/' :: rest) = .ok (body.length + 1) :=
    regexLengthIn_body h none rfl 1 rest
  simp only [List.cons_append, List.append_assoc, List.nil_append, List.length_cons,
    List.length_append, List.length_nil] at hadvance ⊢
  simp only [skipRegex, List.drop_one, List.tail_cons, hlength]
  exact congrArg Except.ok hadvance

/-! ### What stands behind -/

/-- The text behind an element, or behind the beginning if there is none: it tells whether an
operand comes next, and behind punctuation a word may begin. -/
structure Behind (before? : Option Element) (past : Past) : Prop where
  /-- Whether an operand comes next. -/
  expectsOperand_eq : expectsOperand past = operandNext before?
  /-- Behind punctuation a word may begin. -/
  boundary : before?.all Element.endsInMark = true →
    ∀ c ∈ past.head?, (isSpace c || isPunctuator c) = true

theorem isKeywordChar_eq_false {c : Char} (h : (isSpace c || isPunctuator c) = true) :
    isKeywordChar c = false := by
  rcases Bool.or_eq_true _ _ ▸ h with h | h
  · by_contra hc
    simp only [isKeywordChar, Bool.not_eq_false, Bool.and_eq_true, decide_eq_true_eq] at hc
    simp only [isSpace, Bool.or_eq_true, Bool.and_eq_true, decide_eq_true_eq, beq_iff_eq] at h
    rcases h with ((((⟨-, h⟩ | rfl) | rfl) | rfl) | rfl) | rfl
    · exact absurd (Char.le_trans hc.1 h) (by decide)
    all_goals exact absurd hc (by decide)
  · have hmarks : ∀ c ∈ punctuators, isKeywordChar c = false :=
      List.all_iff_forall_prop.1 (by decide)
    exact hmarks c (by simpa [isPunctuator] using h)

theorem isIdentifierChar_of_isKeywordChar {c : Char} (h : isKeywordChar c = true) :
    isIdentifierChar c = true := by
  have hmark : (isSpace c || isPunctuator c) = false := by
    rw [Bool.eq_false_iff]
    exact fun hmark => absurd (isKeywordChar_eq_false hmark) (by simp [h])
  have hquote : isQuote c = false ∧ c ≠ '\x60' := by
    refine ⟨Bool.eq_false_iff.2 fun hquote => ?_, ?_⟩
    · simp only [isQuote, Bool.or_eq_true, beq_iff_eq] at hquote
      rcases hquote with rfl | rfl <;> exact absurd h (by decide)
    · rintro rfl
      exact absurd h (by decide)
  simp [isIdentifierChar, hmark, hquote]

/-- In front of a word stands nothing, white space or punctuation. -/
theorem Behind.boundary_gap {before? : Option Element} {past : Past} (h : Behind before? past)
    {gap : Gap} (hgap : (!gap.isEmpty || before?.all Element.endsInMark) = true) :
    ∀ c ∈ (gap.text.reverse ++ past).head?, (isSpace c || isPunctuator c) = true := by
  rcases List.eq_nil_or_concat gap with rfl | ⟨gap, f, rfl⟩
  · exact h.boundary (by simpa using hgap)
  · obtain ⟨cs, c, hf, hc, -⟩ := f.exists_text_eq_concat
    intro b hb
    simp only [Gap.text, List.concat_eq_append, List.flatMap_append, List.flatMap_cons,
      List.flatMap_nil, List.append_nil, hf, List.reverse_append, List.reverse_cons,
      List.reverse_nil, List.nil_append, List.cons_append, List.head?_cons] at hb
    exact Option.some.inj hb ▸ (Bool.or_eq_true _ _).symm ▸ hc

/-- Behind a word stands that word, if it consists of letters and something sets it off. -/
theorem wordBehind_reverse_append {past : Past} {word : List Char}
    (hpast : ∀ c ∈ past.head?, isIdentifierChar c = false)
    (hword : ∀ c ∈ word, isIdentifierChar c = true) :
    wordBehind (word.reverse ++ past) = if word.all isKeywordChar &&
      past.head?.all fun c => isSpace c || isPunctuator c then word else [] := by
  have hstop : ∀ c ∈ past.head?, isKeywordChar c = false := by
    intro c hc
    by_contra hkey
    rw [Bool.not_eq_false] at hkey
    exact absurd (hpast c hc) (by simp [isIdentifierChar_of_isKeywordChar hkey])
  by_cases hall : ∀ c ∈ word.reverse, isKeywordChar c = true
  · have htake : (word.reverse ++ past).takeWhile isKeywordChar = word.reverse := by
      rw [List.takeWhile_append_of_pos hall]
      cases past with
      | nil => simp
      | cons c past => simp [hstop c rfl]
    have hdrop : (word.reverse ++ past).dropWhile isKeywordChar = past := by
      rw [List.dropWhile_append_of_pos hall]
      cases past with
      | nil => rfl
      | cons c past => simp [hstop c rfl]
    have hletters : word.all isKeywordChar = true :=
      List.all_eq_true.2 fun c hc => hall c (List.mem_reverse.2 hc)
    rw [wordBehind, htake, hdrop, List.reverse_reverse, hletters, Bool.true_and]
    cases past.head? <;> rfl
  · -- the last letters are part of a longer name
    obtain ⟨c, more, hdrop⟩ := List.exists_cons_of_ne_nil (mt List.dropWhile_eq_nil_iff.1 hall)
    have hc : isIdentifierChar c = true := by
      refine hword c (List.mem_reverse.1 ?_)
      exact (List.dropWhile_sublist _).mem (hdrop ▸ List.mem_cons_self ..)
    have hletters : word.all isKeywordChar = false := by
      rw [Bool.eq_false_iff]
      exact fun h => hall fun c hc => List.all_eq_true.1 h c (List.mem_reverse.1 hc)
    simp [wordBehind, List.dropWhile_append, hdrop, isSpace_of_isIdentifierChar hc,
      isPunctuator_of_isIdentifierChar hc, hletters]

/-- Behind a word stands that word, if it may be a keyword. -/
theorem contains_wordBehind {past : Past}
    (hpast : ∀ c ∈ past.head?, (isSpace c || isPunctuator c) = true) (w : Word) :
    expressionKeywords.contains (wordBehind (w.chars.reverse ++ past)) =
      expressionKeywords.contains w.chars := by
  have hstop : ∀ c ∈ past.head?, isIdentifierChar c = false := fun c hc => by
    simp [isIdentifierChar, hpast c hc]
  have hoff : (past.head?.all fun c => isSpace c || isPunctuator c) = true := by
    cases hhead : past.head? with
    | none => rfl
    | some c => exact hpast c hhead
  rw [wordBehind_reverse_append hstop w.isIdentifierChar_eq, hoff, Bool.and_true]
  split
  · rfl
  · rename_i hletters
    have hkeywords : ∀ word ∈ expressionKeywords, word.all isKeywordChar = true := by decide
    rw [Bool.eq_iff_iff, List.contains_iff_mem, List.contains_iff_mem]
    exact iff_of_false (by decide) fun h => hletters (hkeywords _ h)

/-- Behind punctuation. -/
theorem Behind.of_mark {e : Element} {c : Char} (hc : isPunctuator c = true)
    (he : e.awaitsOperand = !closers.contains c) (past : Past) :
    Behind (some e) (c :: past) where
  expectsOperand_eq := by
    have hclosers : (c == ')' || c == ']' || c == '\x7d') = closers.contains c := by
      simp [closers, Bool.or_assoc, Bool.beq_eq_decide_eq]
    simp only [expectsOperand, List.head?_cons, hc, if_true, operandNext, Option.all_some, he,
      hclosers]
  boundary _ := by simp [hc]

/-- Behind the quote at the end of a literal. -/
theorem Behind.of_quote {e : Element} {c : Char}
    (hc : (isPunctuator c || isSpace c || isKeywordChar c) = false)
    (he : (e.awaitsOperand || e.endsInMark) = false) (past : Past) :
    Behind (some e) (c :: past) where
  expectsOperand_eq := by
    simp only [Bool.or_eq_false_iff] at hc he
    have hbehind : wordBehind (c :: past) = [] := by
      simp [wordBehind, hc]
    simp only [expectsOperand, List.head?_cons, hc, Bool.false_eq_true, if_false, hbehind,
      operandNext, Option.all_some, he]
    decide
  boundary h := by simp_all

/-- An element with the gap in front of it tells what comes next. -/
theorem Behind.item {before? : Option Element} {past : Past} (h : Behind before? past) {i : Item}
    {depth : Nat} {rest : List Char} (hfollows : i.follows depth before? rest = true)
    (hplain : i.element.isSubstituted = false) :
    Behind (some i.element) (i.element.text.reverse ++ (i.gap.text.reverse ++ past)) := by
  have hopen : ∀ c ∈ operators ++ openers ++ [',', ';'],
      isPunctuator c = true ∧ closers.contains c = false := List.all_iff_forall_prop.1 (by decide)
  have hclose : ∀ c ∈ closers, isPunctuator c = true := List.all_eq_true.1 rfl
  obtain ⟨gap, element⟩ := i
  cases element with
  | word w =>
      refine ⟨?_, by simp [Element.endsInMark]⟩
      obtain ⟨c, more, hc⟩ := List.exists_cons_of_ne_nil (List.reverse_ne_nil_iff.2 w.chars_ne_nil)
      have hpunctuator := isPunctuator_of_isIdentifierChar
        (w.isIdentifierChar_eq c (List.mem_reverse.1 (hc ▸ List.mem_cons_self ..)))
      refine Eq.trans ?_ (contains_wordBehind (h.boundary_gap hfollows) w)
      simp only [Element.text, expectsOperand, hc, List.cons_append, List.head?_cons, hpunctuator,
        Bool.false_eq_true, if_false]
  | operator c hc =>
      have hc := hopen c (by simp [hc])
      exact .of_mark hc.1 (by rw [hc.2]; rfl) _
  | divide => exact .of_mark (by decide) rfl _
  | separator c hc =>
      have hc := hopen c (by simpa using .inr (.inr (by simpa using hc)))
      exact .of_mark hc.1 (by rw [hc.2]; rfl) _
  | opener c hc =>
      have hc := hopen c (by simp [hc])
      exact .of_mark hc.1 (by rw [hc.2]; rfl) _
  | closer c hc =>
      exact .of_mark (hclose c hc) (by rw [List.contains_iff_mem.2 hc]; rfl) _
  | string quote hq content hcontent =>
      have hquote : (isPunctuator quote || isSpace quote || isKeywordChar quote) = false := by
        simp only [isQuote, Bool.or_eq_true, beq_iff_eq] at hq
        rcases hq with rfl | rfl <;> decide
      simpa [Element.text] using Behind.of_quote hquote rfl _
  | template t => simpa [Element.text, Template.text] using Behind.of_quote (by decide) rfl _
  | substituted => cases hplain
  | regex body hbody hne hstar =>
      simpa [Element.text] using Behind.of_mark (by decide) rfl _

end ImportAtlas.Source
