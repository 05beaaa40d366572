import ImportAtlas.Data.Value
import ImportAtlas.Json.Parser

/-!
# Strings, numbers and dates of TOML

## Conventions

Every reader takes the characters that are left and returns what it read with the characters
after it, or `none` when they do not begin with what it reads.

## Summary

* `string?` reads the four kinds of strings.
* `moment?` reads dates and times, and refuses days that the calendar does not have.
* `number?` reads integers in four bases and floats.
-/

namespace ImportAtlas.Toml

/-- Space within a line. -/
def isSpace (c : Char) : Bool := c == ' ' || c == '\t'

/-- Space, line ends included. -/
def isSpaceOrNewline (c : Char) : Bool := isSpace c || c == '\n'

/-- Control characters other than the tab. -/
def isControl (c : Char) : Bool := (c.toNat < 0x20 && c ≠ '\t') || c.toNat == 0x7F

/-- The text after any space within the line. -/
def skipSpace (cs : List Char) : List Char := cs.dropWhile isSpace

/-! ### Strings -/

/-- The character of a code point written in hexadecimal, if it is one. -/
def codePoint? (digits : List Char) : Option Char :=
  if digits.all fun c => (Json.hexDigit? c).isSome then
    let n := digits.foldl (fun n c => n * 16 + (Json.hexDigit? c).getD 0) 0
    if n < 0xD800 || (0xE000 ≤ n && n < 0x110000) then some (Char.ofNat n) else none
  else none

/-- The character that a backslash and one letter stand for. -/
def escape? : Char → Option Char
  | 'b' => some '\x08'
  | 't' => some '\t'
  | 'n' => some '\n'
  | 'f' => some '\x0c'
  | 'r' => some '\r'
  | '"' => some '"'
  | '\\' => some '\\'
  | _ => none

/-- The text after a line end that a backslash hides: space after the backslash, the line end, and
all space after it. The end of the document also ends the line. -/
def hiddenLineEnd? (cs : List Char) : Option (List Char) :=
  match skipSpace cs with
  | [] => some []
  | '\n' :: rest => some (rest.dropWhile isSpaceOrNewline)
  | _ => none

/-- Whether three quotes come next. -/
def atTripleQuote (quote : Char) (cs : List Char) : Bool := [quote, quote, quote].isPrefixOf cs

/-- What a backslash and the characters after it stand for, and the text after these. -/
def escapeSequence? (multiline : Bool) (cs : List Char) : Option (List Char × List Char) :=
  match cs with
  | 'u' :: a :: b :: c :: d :: rest => (codePoint? [a, b, c, d]).map ([·], rest)
  | 'U' :: a :: b :: c :: d :: e :: f :: g :: h :: rest =>
    (codePoint? [a, b, c, d, e, f, g, h]).map ([·], rest)
  | c :: rest =>
    if multiline && isSpaceOrNewline c then
      (hiddenLineEnd? cs).map ([], ·)
    else (escape? c).map ([·], rest)
  | [] => none

/-- The rest of a string with escapes, and the text after its end mark. -/
def basicBody? (multiline : Bool) : Nat → List Char → Option (List Char × List Char)
  | 0, _ => none
  | budget + 1, cs =>
    match cs with
    | [] => none
    | '\\' :: rest =>
      match escapeSequence? multiline rest with
      | none => none
      | some (text, rest) => (basicBody? multiline budget rest).map fun (s, r) => (text ++ s, r)
    | '"' :: rest =>
      if !multiline then some ([], rest)
      else if atTripleQuote '"' cs then some ([], cs.drop 3)
      else (basicBody? multiline budget rest).map fun (s, r) => ('"' :: s, r)
    | c :: rest =>
      if isControl c && !(multiline && c == '\n') then none
      else (basicBody? multiline budget rest).map fun (s, r) => (c :: s, r)

/-- The rest of a string without escapes, and the text after its end mark. -/
def literalBody? (multiline : Bool) : List Char → Option (List Char × List Char)
  | [] => none
  | c :: rest =>
    if c == '\'' && !multiline then some ([], rest)
    else if multiline && atTripleQuote '\'' (c :: rest) then some ([], rest.drop 2)
    else if isControl c && !(multiline && c == '\n') then none
    else (literalBody? multiline rest).map fun (s, r) => (c :: s, r)

/-- A text with one or two quotes that stand right behind the end mark of a string over several
lines, which belong to the string. -/
def withExtraQuotes (quote : Char) (text rest : List Char) : List Char × List Char :=
  let extra := ((rest.take 2).takeWhile (· == quote)).length
  (text ++ List.replicate extra quote, rest.drop extra)

/-- A string on one line. -/
def lineString? (cs : List Char) : Option (List Char × List Char) :=
  match cs with
  | '"' :: rest => basicBody? false (rest.length + 1) rest
  | '\'' :: rest => literalBody? false rest
  | _ => none

/-- The text without a line end at its front. -/
def dropNewline (cs : List Char) : List Char :=
  match cs with
  | '\n' :: rest => rest
  | _ => cs

/-- A string of any kind. -/
def string? (cs : List Char) : Option (List Char × List Char) :=
  if atTripleQuote '"' cs then
    let body := dropNewline (cs.drop 3)
    (basicBody? true (body.length + 1) body).map fun (s, r) => withExtraQuotes '"' s r
  else if atTripleQuote '\'' cs then
    (literalBody? true (dropNewline (cs.drop 3))).map fun (s, r) => withExtraQuotes '\'' s r
  else lineString? cs

/-! ### Dates and times -/

/-- A number of a fixed count of digits. -/
def fixed? (count : Nat) (cs : List Char) : Option (Nat × List Char) :=
  let digits := cs.take count
  if digits.length = count && digits.all Char.isDigit then
    some (Json.digitsValue digits, cs.drop count)
  else none

/-- A number of two digits within bounds. -/
def two? (least greatest : Nat) (cs : List Char) : Option (Nat × List Char) :=
  (fixed? 2 cs).filter fun (n, _) => least ≤ n && n ≤ greatest

/-- The text after one given character. -/
def after? (c : Char) (cs : List Char) : Option (List Char) :=
  match cs with
  | d :: rest => if d = c then some rest else none
  | [] => none

/-- A time of day; a fraction counts as far as its sixth place. -/
def clock? (cs : List Char) : Option (Clock × List Char) := do
  let (hour, cs) ← two? 0 23 cs
  let cs ← after? ':' cs
  let (minute, cs) ← two? 0 59 cs
  let cs ← after? ':' cs
  let (second, cs) ← two? 0 59 cs
  match cs with
  | '.' :: rest =>
    let digits := rest.takeWhile Char.isDigit
    if digits.isEmpty then pure (⟨hour, minute, second, 0⟩, cs)
    else
      let micro := Json.digitsValue ((digits ++ List.replicate 6 '0').take 6)
      pure (⟨hour, minute, second, micro⟩, rest.dropWhile Char.isDigit)
  | _ => pure (⟨hour, minute, second, 0⟩, cs)

/-- A date, which the calendar may not have. -/
def date? (cs : List Char) : Option (Date × List Char) := do
  let (year, cs) ← fixed? 4 cs
  let cs ← after? '-' cs
  let (month, cs) ← two? 1 12 cs
  let cs ← after? '-' cs
  let (day, cs) ← two? 1 31 cs
  pure (⟨year, month, day⟩, cs)

/-- An offset from universal time in minutes. -/
def offset? (cs : List Char) : Option (Int × List Char) :=
  match cs with
  | 'Z' :: rest => some (0, rest)
  | 'z' :: rest => some (0, rest)
  | sign :: rest =>
    if sign == '+' || sign == '-' then do
      let (hours, rest) ← two? 0 23 rest
      let rest ← after? ':' rest
      let (minutes, rest) ← two? 0 59 rest
      let total : Int := hours * 60 + minutes
      pure (if sign == '-' then -total else total, rest)
    else none
  | [] => none

/-- The number of days of a month. -/
def daysOfMonth (year month : Nat) : Nat :=
  if month = 2 then
    if year % 4 = 0 && (year % 100 ≠ 0 || year % 400 = 0) then 29 else 28
  else if month = 4 || month = 6 || month = 9 || month = 11 then 30
  else 31

/-- Whether the calendar has a date. -/
def isCalendarDate (d : Date) : Bool := 1 ≤ d.year && d.day ≤ daysOfMonth d.year d.month

/-- A date, a time of day or both. The outer `none` means that neither comes next, the inner one
that the calendar does not have the date. -/
def moment? (cs : List Char) : Option (Option (Moment × List Char)) :=
  match date? cs with
  | some (date, rest) =>
    let both : Option (Moment × List Char) := do
      let (mark, more) ← rest.head?.map (·, rest.drop 1)
      if mark == 'T' || mark == 't' || mark == ' ' then
        let (clock, more) ← clock? more
        match offset? more with
        | some (offset, more) => pure (.both date clock (some offset), more)
        | none => pure (.both date clock none, more)
      else none
    some <| if isCalendarDate date then some (both.getD (.date date, rest)) else none
  | none => (clock? cs).map fun (clock, rest) => some (.clock clock, rest)

/-! ### Numbers -/

/-- Digits of a kind, single underscores between them left out, and the text after them. -/
def digitRun (isDigit : Char → Bool) : List Char → List Char × List Char
  | '_' :: c :: rest =>
    if isDigit c then
      let (digits, rest) := digitRun isDigit rest
      (c :: digits, rest)
    else ([], '_' :: c :: rest)
  | c :: rest =>
    if isDigit c then
      let (digits, rest) := digitRun isDigit rest
      (c :: digits, rest)
    else ([], c :: rest)
  | [] => ([], [])

/-- Digits of a kind, the first of which is not preceded by an underscore. -/
def digits? (isDigit : Char → Bool) (cs : List Char) : Option (List Char × List Char) :=
  if cs.head?.any isDigit then some (digitRun isDigit cs) else none

/-- The base that a letter after a zero announces, and its digits. -/
def base? : Char → Option (Nat × (Char → Bool))
  | 'x' => some (16, fun c => (Json.hexDigit? c).isSome)
  | 'o' => some (8, fun c => '0' ≤ c && c ≤ '7')
  | 'b' => some (2, fun c => c == '0' || c == '1')
  | _ => none

/-- An integer in another base than ten. -/
def based? (cs : List Char) : Option (Value × List Char) :=
  match cs with
  | '0' :: letter :: rest => do
    let (base, isDigit) ← base? letter
    let (digits, rest) ← digits? isDigit rest
    let n := digits.foldl (fun n c => n * base + (Json.hexDigit? c).getD 0) 0
    pure (.int n, rest)
  | _ => none

/-- The sign at the front of a number: whether it is a minus, and the text after it. -/
def sign (cs : List Char) : Bool × List Char :=
  match cs with
  | '-' :: rest => (true, rest)
  | '+' :: rest => (false, rest)
  | _ => (false, cs)

/-- The places of a fraction, if there is one. -/
def places (cs : List Char) : Option (List Char) × List Char :=
  match cs with
  | '.' :: rest =>
    match digits? Char.isDigit rest with
    | some (digits, rest) => (some digits, rest)
    | none => (none, cs)
  | _ => (none, cs)

/-- A power of ten, if there is one. -/
def power (cs : List Char) : Option Int × List Char :=
  match cs with
  | e :: rest =>
    if e == 'e' || e == 'E' then
      let (negative, rest) := sign rest
      match digits? Char.isDigit rest with
      | some (digits, rest) =>
        let n : Int := Json.digitsValue digits
        (some (if negative then -n else n), rest)
      | none => (none, cs)
    else (none, cs)
  | [] => (none, [])

/-- An integer or a float in base ten. -/
def decimal? (cs : List Char) : Option (Value × List Char) :=
  let (negative, rest) := sign cs
  let whole : Option (List Char × List Char) := match rest with
    | '0' :: rest => some (['0'], rest)
    | _ => digits? Char.isDigit rest
  whole.map fun (digits, rest) =>
    let (places, rest) := places rest
    let (power, rest) := power rest
    if places.isNone && power.isNone then
      let n : Int := Json.digitsValue digits
      (.int (if negative then -n else n), rest)
    else
      let places := places.getD []
      (.float (Number.floatOfDecimal negative (Json.digitsValue (digits ++ places))
        (power.getD 0 - places.length)), rest)

/-- A float that is written as a word. -/
def wordFloat? (cs : List Char) : Option (Value × List Char) :=
  let (negative, rest) := sign cs
  if "inf".toList.isPrefixOf rest then
    some (.float (if negative then -1.0 / 0.0 else 1.0 / 0.0), rest.drop 3)
  else if "nan".toList.isPrefixOf rest then some (.float (0.0 / 0.0), rest.drop 3)
  else none

/-- A number. -/
def number? (cs : List Char) : Option (Value × List Char) :=
  ((based? cs).or (decimal? cs)).or (wordFloat? cs)

end ImportAtlas.Toml
