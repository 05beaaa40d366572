import ImportAtlas.Data.Value

/-!
# Writing JSON

## Summary

* `quoted` writes a string: the quote, the backslash and control characters are escaped, every
  other character stands for itself.
* `pretty` writes a value over several lines, two spaces for each level; an empty array or object
  stays on one line.
* `compact` writes a value on one line.
-/

namespace ImportAtlas.Json

/-- One hexadecimal digit, in lower case. -/
def hexDigitChar (n : Nat) : Char := Nat.digitChar n

/-- One character inside a string. -/
def escaped (c : Char) : List Char :=
  if c = '"' then ['\\', '"']
  else if c = '\\' then ['\\', '\\']
  else if c = '\n' then ['\\', 'n']
  else if c = '\r' then ['\\', 'r']
  else if c = '\t' then ['\\', 't']
  else if c = '\x08' then ['\\', 'b']
  else if c = '\x0c' then ['\\', 'f']
  else if c.toNat < 0x20 then
    ['\\', 'u', '0', '0', hexDigitChar (c.toNat / 16), hexDigitChar (c.toNat % 16)]
  else [c]

/-- A string between quotes. -/
def quoted (s : String) : List Char := '"' :: s.toList.flatMap escaped ++ ['"']

/-- A float; the numbers that JSON lacks are written as words. -/
def floatWord (x : Float) : String :=
  if x.isNaN then "NaN"
  else if x.isInf then (if x < 0.0 then "-Infinity" else "Infinity")
  else Number.floatText x

/-- A value that holds no other. -/
def scalar : Value → List Char
  | .null => "null".toList
  | .bool true => "true".toList
  | .bool false => "false".toList
  | .int n => (toString n).toList
  | .float x => (floatWord x).toList
  | .moment m => quoted m.text
  | .string s => quoted s
  | .array _ => "[]".toList
  | .object _ => ['\x7b', '\x7d']

/-- The start of a line at a level. -/
def newline (level : Nat) : List Char := '\n' :: List.replicate (2 * level) ' '

mutual

/-- A value whose lines after the first start at a level. -/
def prettyAt (level : Nat) : Value → List Char
  | .array (v :: vs) =>
    '[' :: newline (level + 1) ++ prettyItems (level + 1) (v :: vs) ++ newline level ++ [']']
  | .object (f :: fs) =>
    '\x7b' :: newline (level + 1) ++ prettyFields (level + 1) (f :: fs) ++ newline level ++
      ['\x7d']
  | v => scalar v

/-- Items, each on lines of its own. -/
def prettyItems (level : Nat) : List Value → List Char
  | [] => []
  | [v] => prettyAt level v
  | v :: vs => prettyAt level v ++ ',' :: newline level ++ prettyItems level vs

/-- Fields, each on lines of its own. -/
def prettyFields (level : Nat) : List (String × Value) → List Char
  | [] => []
  | [(k, v)] => quoted k ++ ':' :: ' ' :: prettyAt level v
  | (k, v) :: fs =>
    quoted k ++ ':' :: ' ' :: prettyAt level v ++ ',' :: newline level ++ prettyFields level fs

end

/-- A value over several lines, without a final line break. -/
def pretty (v : Value) : String := String.ofList (prettyAt 0 v)

mutual

/-- A value on one line, as characters. -/
def compactChars : Value → List Char
  | .array vs => '[' :: compactItems vs ++ [']']
  | .object fs => '\x7b' :: compactFields fs ++ ['\x7d']
  | v => scalar v

/-- Items on one line. -/
def compactItems : List Value → List Char
  | [] => []
  | [v] => compactChars v
  | v :: vs => compactChars v ++ ',' :: compactItems vs

/-- Fields on one line. -/
def compactFields : List (String × Value) → List Char
  | [] => []
  | [(k, v)] => quoted k ++ ':' :: compactChars v
  | (k, v) :: fs => quoted k ++ ':' :: compactChars v ++ ',' :: compactFields fs

end

/-- A value on one line. -/
def compact (v : Value) : String := String.ofList (compactChars v)

end ImportAtlas.Json
