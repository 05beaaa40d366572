import ImportAtlas.Text.Printable

/-!
# Quoted literals

Messages show a text that is in question between quotes, with everything that is not printable
written as an escape.

## Summary

* `quoteMark` chooses the quote: `'` unless the text holds a `'` and no `"`.
* `quote` writes a text: a backslash before the quote and before a backslash, `\n`, `\r` and
  `\t` for these three, and `\xNN`, `\uNNNN` or `\UNNNNNNNN` for other unprintable characters.
-/

namespace ImportAtlas.Text

/-- A number in hexadecimal, padded with zeros to a width. -/
def hexPadded (width n : Nat) : List Char :=
  let digits := Nat.toDigits 16 n
  List.replicate (width - digits.length) '0' ++ digits

/-- The quote that encloses a text. -/
def quoteMark (s : String) : Char :=
  if s.toList.contains '\'' && !s.toList.contains '"' then '"' else '\''

/-- One character of a text quoted with `mark`. -/
def quoteChar (mark c : Char) : List Char :=
  if c = mark || c = '\\' then ['\\', c]
  else if c = '\n' then ['\\', 'n']
  else if c = '\r' then ['\\', 'r']
  else if c = '\t' then ['\\', 't']
  else if isPrintable c then [c]
  else if c.toNat < 0x100 then '\\' :: 'x' :: hexPadded 2 c.toNat
  else if c.toNat < 0x10000 then '\\' :: 'u' :: hexPadded 4 c.toNat
  else '\\' :: 'U' :: hexPadded 8 c.toNat

/-- A text between quotes, with escapes. -/
def quote (s : String) : String :=
  let mark := quoteMark s
  String.ofList (mark :: s.toList.flatMap (quoteChar mark) ++ [mark])

end ImportAtlas.Text
