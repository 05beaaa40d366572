import ImportAtlas.Source.Lexeme

/-!
# Places in module source

A cursor stands between two characters of a source: it holds the text that has been read, latest
character first, and the text ahead.

## Summary

* `Cursor.advance` moves over some characters; every other movement is one of these.
* `Cursor.skipTrivia`, `Cursor.skipString`, `Cursor.skipPlainTemplate?` and `Cursor.skipRegex` move
  over lexical elements.

## Main results

* `Cursor.text_advance`: moving changes nothing of the text.
* `Cursor.skipTrivia_eq_advance` and its companions: the lexical movements are advances.
-/

namespace ImportAtlas.Source

/-- A place in a source. -/
structure Cursor where
  /-- The text that has been read, latest character first. -/
  past : Past
  /-- The text ahead. -/
  rest : List Char
  deriving DecidableEq, Inhabited

namespace Cursor

/-- The whole source. -/
def text (c : Cursor) : List Char := c.past.reverse ++ c.rest

/-- The number of characters that have been read. -/
def offset (c : Cursor) : Nat := c.past.length

/-- The number of characters ahead. -/
def size (c : Cursor) : Nat := c.rest.length

/-- The place some characters further on. -/
def advance (c : Cursor) (n : Nat) : Cursor := ⟨(c.rest.take n).reverse ++ c.past, c.rest.drop n⟩

/-- A fault at this place. -/
def fault (c : Cursor) (cause : SyntaxCause) : SyntaxFault := ⟨c.offset, cause⟩

/-- A fault whose place was counted from here. -/
def faultFrom (c : Cursor) (f : SyntaxFault) : SyntaxFault := ⟨c.offset + f.position, f.cause⟩

@[simp] theorem text_advance (c : Cursor) (n : Nat) : (c.advance n).text = c.text := by
  simp [text, advance]

@[simp] theorem size_advance (c : Cursor) (n : Nat) : (c.advance n).size = c.size - n := by
  simp [size, advance]

@[simp] theorem advance_zero (c : Cursor) : c.advance 0 = c := by
  simp [advance]

theorem advance_add (c : Cursor) (m n : Nat) : c.advance (m + n) = (c.advance m).advance n := by
  simp [advance, List.take_add]

theorem offset_add_size (c : Cursor) : c.offset + c.size = c.text.length := by
  simp [offset, size, text]

/-! ### Looking -/

/-- The next character. -/
def peek? (c : Cursor) : Option Char := c.rest.head?

/-- Whether the next character is a quote of strings. -/
def atQuote (c : Cursor) : Bool := c.peek?.any isQuote

/-- The identifier that comes next, empty if there is none. -/
def identifier (c : Cursor) : List Char := identifierAhead c.rest

/-- Whether the next characters are a keyword that is a word of its own and no property name. -/
def atKeyword (keyword : List Char) (c : Cursor) : Bool :=
  keyword.isPrefixOf c.rest &&
    (match c.past.head? with
      | some b => (isSpace b || isPunctuator b) && b ≠ '.'
      | none => true) &&
    (c.advance keyword.length).identifier.isEmpty

/-! ### Moving over lexical elements -/

/-- The place after white space and comments. -/
def skipTrivia (c : Cursor) : Except SyntaxFault Cursor :=
  match triviaLength c.rest with
  | .ok n => .ok (c.advance n)
  | .error f => .error (c.faultFrom f)

/-- The place after the string whose first quote comes next. -/
def skipString (c : Cursor) : Except SyntaxFault Cursor :=
  match c.rest with
  | quote :: body =>
    match stringLength? quote body with
    | some n => .ok (c.advance (n + 2))
    | none => .error (c.fault .unterminatedString)
  | [] => .error (c.fault .unterminatedString)

/-- The place after the template that begins next, if it is complete and has no substitution. -/
def skipPlainTemplate? (c : Cursor) : Option Cursor :=
  (plainTemplateLength? (c.rest.drop 1)).map fun n => c.advance (n + 2)

/-- The place after the regular expression whose first slash comes next. -/
def skipRegex (c : Cursor) : Except SyntaxFault Cursor :=
  match regexLength (c.rest.drop 1) with
  | .ok n => .ok (c.advance (n + 1))
  | .error f => .error (c.faultFrom f)

theorem skipTrivia_eq_advance {c d : Cursor} (h : c.skipTrivia = .ok d) :
    ∃ n, triviaLength c.rest = .ok n ∧ d = c.advance n := by
  unfold skipTrivia at h
  split at h
  · rename_i n hn
    exact ⟨n, hn, by simpa using h.symm⟩
  · simp at h

theorem skipString_eq_advance {c d : Cursor} (h : c.skipString = .ok d) :
    ∃ n, d = c.advance (n + 2) ∧ c.rest ≠ [] := by
  unfold skipString at h
  split at h
  · rename_i hr
    split at h
    · rename_i n _
      exact ⟨n, by simpa using h.symm, by simp [hr]⟩
    · simp at h
  · simp at h

theorem skipPlainTemplate?_eq_advance {c d : Cursor} (h : c.skipPlainTemplate? = some d) :
    ∃ n, d = c.advance (n + 2) := by
  obtain ⟨n, _, rfl⟩ := Option.map_eq_some_iff.1 h
  exact ⟨n, rfl⟩

theorem skipRegex_eq_advance {c d : Cursor} (h : c.skipRegex = .ok d) :
    ∃ n, d = c.advance (n + 1) := by
  unfold skipRegex at h
  split at h
  · rename_i n _
    exact ⟨n, by simpa using h.symm⟩
  · simp at h

/-! ### Sizes -/

theorem size_skipTrivia_le {c d : Cursor} (h : c.skipTrivia = .ok d) : d.size ≤ c.size := by
  obtain ⟨n, _, rfl⟩ := skipTrivia_eq_advance h
  simp

theorem size_skipTrivia_lt {c d : Cursor} (hc : startsComment c.rest = true)
    (h : c.skipTrivia = .ok d) : d.size < c.size := by
  obtain ⟨n, hn, rfl⟩ := skipTrivia_eq_advance h
  have := two_le_triviaLength hc hn
  have : c.rest ≠ [] := by rintro hr; simp [hr, startsComment] at hc
  have := List.length_pos_iff.2 this
  have : c.size = c.rest.length := rfl
  rw [size_advance]
  omega

theorem size_skipString_lt {c d : Cursor} (h : c.skipString = .ok d) : d.size < c.size := by
  obtain ⟨n, rfl, hr⟩ := skipString_eq_advance h
  have := List.length_pos_iff.2 hr
  have : c.size = c.rest.length := rfl
  rw [size_advance]
  omega

theorem size_advance_lt {c : Cursor} {n : Nat} (hn : 0 < n) (hc : c.rest ≠ []) :
    (c.advance n).size < c.size := by
  have := List.length_pos_iff.2 hc
  have : c.size = c.rest.length := rfl
  rw [size_advance]
  omega

theorem identifier_eq_nil_of_rest {c : Cursor} (h : c.rest = []) : c.identifier = [] := by
  simp [identifier, identifierAhead, h]

theorem size_advance_identifier_lt {c : Cursor} (h : c.identifier ≠ []) :
    (c.advance c.identifier.length).size < c.size :=
  size_advance_lt (List.length_pos_iff.2 h) fun hr => h (identifier_eq_nil_of_rest hr)

end Cursor

end ImportAtlas.Source
