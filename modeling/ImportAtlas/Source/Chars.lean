/-!
# Characters of module source

The classes of characters that the analysis of module source tells apart.
-/

namespace ImportAtlas.Source

/-- White space: tabs, line ends, the space, the no-break spaces and the separators of lines and
paragraphs. -/
def isSpace (c : Char) : Bool :=
  ('\t' ≤ c && c ≤ '\r') || c == ' ' || c == '\u00A0' || c == '\uFEFF' || c == '\u2028' ||
    c == '\u2029'

/-- The characters that end a line comment and may not stand in a string. -/
def isLineBreak (c : Char) : Bool := c == '\n' || c == '\r'

/-- The characters of punctuation. -/
def punctuators : List Char := "!%&()*+,-./:;<=>?[]^\x7b|\x7d~".toList

/-- Whether a character is one of punctuation. -/
def isPunctuator (c : Char) : Bool := punctuators.contains c

/-- The quotes of strings. -/
def isQuote (c : Char) : Bool := c == '\'' || c == '"'

/-- Whether a character may be part of an identifier. -/
def isIdentifierChar (c : Char) : Bool :=
  !(isSpace c || isPunctuator c || isQuote c || c == '\x60')

/-- Whether a character may be part of a keyword. -/
def isKeywordChar (c : Char) : Bool := 'a' ≤ c && c ≤ 'z'

/-- The keywords after which an expression begins, so that a slash opens a regular expression. -/
def expressionKeywords : List (List Char) :=
  ["await", "case", "debugger", "delete", "do", "else", "in", "instanceof", "new", "return",
    "throw", "typeof", "void", "yield"].map String.toList

/-- The keywords whose parentheses are followed by a statement. -/
def conditionKeywords : List (List Char) := ["if", "for", "while"].map String.toList

theorem isSpace_of_isLineBreak {c : Char} (h : isLineBreak c = true) : isSpace c = true := by
  simp only [isLineBreak, Bool.or_eq_true, beq_iff_eq] at h
  rcases h with rfl | rfl <;> decide

end ImportAtlas.Source
