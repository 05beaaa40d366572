import ImportAtlas.Source.Chars

/-!
# Lengths of lexical elements

White space, comments, strings, templates and regular expressions are measured from their first
character. Every function here takes the text that lies ahead and counts characters of it.

## Summary

* `triviaLength`: white space and comments, as far as the first other character.
* `stringLength?`: the content of a string.
* `chunkLength?`: a piece of a template, as far as its end or the start of a substitution.
* `regexLength`: a regular expression, in which a slash may stand inside brackets.
-/

namespace ImportAtlas.Source

/-- Why module source is not accepted. -/
inductive SyntaxCause where
  | unterminatedString
  | unterminatedTemplate
  | unterminatedRegex
  | unterminatedClass
  | unterminatedComment
  | expectedSpecifier
  | expectedExportName
  | unexpectedInExports
  | unexpectedCloser (c : Char)
  | unbalanced
  deriving DecidableEq, Inhabited

/-- A place in module source at which it is not accepted. -/
structure SyntaxFault where
  /-- The number of characters before the place. -/
  position : Nat
  /-- What is wrong there. -/
  cause : SyntaxCause
  deriving DecidableEq, Inhabited

/-- What is wrong, in words. -/
def SyntaxCause.message : SyntaxCause → String
  | .unterminatedString => "Unterminated string"
  | .unterminatedTemplate => "Unterminated template"
  | .unterminatedRegex => "Unterminated regular expression"
  | .unterminatedClass => "Unterminated character class"
  | .unterminatedComment => "Unterminated comment"
  | .expectedSpecifier => "Expected module specifier"
  | .expectedExportName => "Expected export name"
  | .unexpectedInExports => "Unexpected token in export list"
  | .unexpectedCloser c => "Unexpected '" ++ c.toString ++ "'"
  | .unbalanced => "Unbalanced brackets at end of input"

/-- What is wrong and where, in words. -/
def SyntaxFault.message (fault : SyntaxFault) : String :=
  fault.cause.message ++ " (offset " ++ toString fault.position ++ ")"

/-! ### White space and comments -/

/-- What the reading of white space and comments is in the middle of. -/
inductive TriviaMode where
  | space
  | lineComment
  | blockComment (start : Nat)

/-- The number of characters of white space and comments ahead. A line comment takes its line
break with it. The place of a fault is counted from `offset`, where the text begins. -/
def triviaLengthIn (offset : Nat) : TriviaMode → List Char → Except SyntaxFault Nat
  | .space, '/' :: '/' :: rest => (triviaLengthIn (offset + 2) .lineComment rest).map (· + 2)
  | .space, '/' :: '*' :: rest =>
    (triviaLengthIn (offset + 2) (.blockComment offset) rest).map (· + 2)
  | .space, c :: rest =>
    if isSpace c then (triviaLengthIn (offset + 1) .space rest).map (· + 1) else .ok 0
  | .lineComment, c :: rest =>
    (triviaLengthIn (offset + 1) (if isLineBreak c then .space else .lineComment) rest).map (· + 1)
  | .blockComment _, '*' :: '/' :: rest => (triviaLengthIn (offset + 2) .space rest).map (· + 2)
  | .blockComment start, _ :: rest =>
    (triviaLengthIn (offset + 1) (.blockComment start) rest).map (· + 1)
  | .blockComment start, [] => .error ⟨start, .unterminatedComment⟩
  | _, [] => .ok 0

/-- The number of characters of white space and comments ahead. -/
def triviaLength (cs : List Char) : Except SyntaxFault Nat := triviaLengthIn 0 .space cs

/-- Whether a comment comes next. -/
def startsComment : List Char → Bool
  | '/' :: '/' :: _ => true
  | '/' :: '*' :: _ => true
  | _ => false

theorem exists_of_map_eq_ok {ε α β : Type} {f : α → β} {x : Except ε α} {b : β}
    (h : x.map f = .ok b) : ∃ a, x = .ok a ∧ f a = b := by
  cases x with
  | error e => simp [Except.map] at h
  | ok a => exact ⟨a, rfl, by simpa [Except.map] using h⟩

theorem two_le_triviaLength {cs : List Char} {n : Nat} (h : startsComment cs = true)
    (hn : triviaLength cs = .ok n) : 2 ≤ n := by
  unfold startsComment at h
  split at h
  · obtain ⟨m, _, rfl⟩ := exists_of_map_eq_ok hn
    omega
  · obtain ⟨m, _, rfl⟩ := exists_of_map_eq_ok hn
    omega
  · simp at h

/-! ### Strings and templates -/

/-- The number of characters of a string between its quotes. A backslash takes the character
after it along, and both characters of a line end. -/
def stringLength? (quote : Char) : List Char → Option Nat
  | [] => none
  | '\\' :: '\r' :: '\n' :: rest => (stringLength? quote rest).map (· + 3)
  | '\\' :: _ :: rest => (stringLength? quote rest).map (· + 2)
  | c :: rest =>
    if c = quote then some 0
    else if isLineBreak c || c == '\\' then none
    else (stringLength? quote rest).map (· + 1)

/-- How a piece of a template ends. -/
inductive ChunkEnd where
  | closed
  | substitution
  deriving DecidableEq, Inhabited

/-- How a piece of a template ends, and its number of characters with the end mark. -/
def chunkLength? : List Char → Option (ChunkEnd × Nat)
  | [] => none
  | '\x60' :: _ => some (.closed, 1)
  | '\\' :: _ :: rest => (chunkLength? rest).map fun (e, n) => (e, n + 2)
  | '$' :: '\x7b' :: _ => some (.substitution, 2)
  | c :: rest => if c = '\\' then none else (chunkLength? rest).map fun (e, n) => (e, n + 1)

/-- The number of characters between the quotes of a template without substitution. -/
def plainTemplateLength? (cs : List Char) : Option Nat :=
  match chunkLength? cs with
  | some (.closed, n) => some (n - 1)
  | _ => none

/-! ### Regular expressions -/

/-- The number of characters of a regular expression after its first slash, as far as its last
one. Inside brackets, which began at `bracket?`, a slash stands for itself. Places are counted
from the first slash; the text ahead begins at `offset`. -/
def regexLengthIn (bracket? : Option Nat) (offset : Nat) : List Char → Except SyntaxFault Nat
  | [] => .error <| match bracket? with
    | some bracket => ⟨bracket, .unterminatedClass⟩
    | none => ⟨0, .unterminatedRegex⟩
  | '\\' :: _ :: rest => (regexLengthIn bracket? (offset + 2) rest).map (· + 2)
  | c :: rest =>
    match bracket? with
    | some bracket =>
      if c = ']' then (regexLengthIn none (offset + 1) rest).map (· + 1)
      else if isLineBreak c || c == '\\' then .error ⟨bracket, .unterminatedClass⟩
      else (regexLengthIn bracket? (offset + 1) rest).map (· + 1)
    | none =>
      if c = '/' then .ok 1
      else if c = '[' then (regexLengthIn (some offset) (offset + 1) rest).map (· + 1)
      else if isLineBreak c || c == '\\' then .error ⟨0, .unterminatedRegex⟩
      else (regexLengthIn none (offset + 1) rest).map (· + 1)

/-- The number of characters of a regular expression after its first slash. -/
def regexLength (cs : List Char) : Except SyntaxFault Nat := regexLengthIn none 1 cs

/-! ### Words -/

/-- The identifier that the text begins with, empty if there is none. -/
def identifierAhead (cs : List Char) : List Char := cs.takeWhile isIdentifierChar

/-- The text that has been read, latest character first. -/
abbrev Past := List Char

/-- The keyword that has just been read, empty if the last word is part of a longer name. -/
def wordBehind (past : Past) : List Char :=
  match (past.dropWhile isKeywordChar).head? with
  | some c => if isSpace c || isPunctuator c then (past.takeWhile isKeywordChar).reverse else []
  | none => (past.takeWhile isKeywordChar).reverse

end ImportAtlas.Source
