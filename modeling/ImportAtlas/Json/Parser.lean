import ImportAtlas.Data.Value

/-!
# Reading JSON

The reader accepts the JSON of RFC 8259 and the three numbers `NaN`, `Infinity` and `-Infinity`.
A key that is repeated in an object keeps its first place and takes its last value.

## Conventions

Every reader takes the characters that are left and returns what it read with the characters
after it, or `none` when the text is not JSON. Values nest, so their readers carry a budget; a
value is never nested deeper than it has characters, and `Json.parse?` starts with that many.
-/

namespace ImportAtlas.Json

/-- The characters that may stand between tokens. -/
def isSpace (c : Char) : Bool := c == ' ' || c == '\t' || c == '\n' || c == '\r'

/-- The text after any space. -/
def skipSpace (cs : List Char) : List Char := cs.dropWhile isSpace

/-! ### Strings -/

/-- The value of a hexadecimal digit. -/
def hexDigit? (c : Char) : Option Nat :=
  if c.isDigit then some (c.toNat - '0'.toNat)
  else if 'a' ≤ c && c ≤ 'f' then some (c.toNat - 'a'.toNat + 10)
  else if 'A' ≤ c && c ≤ 'F' then some (c.toNat - 'A'.toNat + 10)
  else none

/-- The value of four hexadecimal digits. -/
def hexUnit? (a b c d : Char) : Option Nat := do
  let a ← hexDigit? a
  let b ← hexDigit? b
  let c ← hexDigit? c
  let d ← hexDigit? d
  pure (((a * 16 + b) * 16 + c) * 16 + d)

/-- The first half of a surrogate pair. -/
def isHighSurrogate (n : Nat) : Bool := 0xD800 ≤ n && n < 0xDC00

/-- The second half of a surrogate pair. -/
def isLowSurrogate (n : Nat) : Bool := 0xDC00 ≤ n && n < 0xE000

/-- The character of a code unit that is no half of a pair; half a pair is shown as U+FFFD. -/
def unitChar (n : Nat) : Char :=
  if isHighSurrogate n || isLowSurrogate n then '\uFFFD' else Char.ofNat n

/-- The character of a surrogate pair. -/
def pairChar (high low : Nat) : Char :=
  Char.ofNat (0x10000 + (high - 0xD800) * 0x400 + (low - 0xDC00))

/-- The character that a backslash and one letter stand for. -/
def escape? : Char → Option Char
  | '"' => some '"'
  | '\\' => some '\\'
  | '/' => some '/'
  | 'b' => some '\x08'
  | 'f' => some '\x0c'
  | 'n' => some '\n'
  | 'r' => some '\r'
  | 't' => some '\t'
  | _ => none

/-- A piece of a string: a character, or a code unit that was written in hexadecimal. -/
inductive Piece where
  | char (c : Char)
  | unit (n : Nat)

/-- The pieces of a string after its opening quote, and the text after the closing one. -/
def pieces? : List Char → Option (List Piece × List Char)
  | [] => none
  | '"' :: rest => some ([], rest)
  | '\\' :: 'u' :: a :: b :: c :: d :: rest =>
    match hexUnit? a b c d with
    | none => none
    | some n => (pieces? rest).map fun (ps, r) => (.unit n :: ps, r)
  | '\\' :: c :: rest =>
    match escape? c with
    | none => none
    | some e => (pieces? rest).map fun (ps, r) => (.char e :: ps, r)
  | c :: rest =>
    if c.toNat < 0x20 || c == '\\' then none
    else (pieces? rest).map fun (ps, r) => (.char c :: ps, r)

/-- The characters of pieces, two code units that form a pair being one character. -/
def joinPieces : List Piece → List Char
  | [] => []
  | .char c :: ps => c :: joinPieces ps
  | .unit n :: .unit m :: ps =>
    if isHighSurrogate n && isLowSurrogate m then pairChar n m :: joinPieces ps
    else unitChar n :: joinPieces (.unit m :: ps)
  | .unit n :: ps => unitChar n :: joinPieces ps

/-- The rest of a string after its opening quote, and the text after the closing one. -/
def stringBody? (cs : List Char) : Option (List Char × List Char) :=
  (pieces? cs).map fun (ps, rest) => (joinPieces ps, rest)

/-! ### Numbers -/

/-- The value of digits. -/
def digitsValue (digits : List Char) : Nat :=
  digits.foldl (fun n c => n * 10 + (c.toNat - '0'.toNat)) 0

/-- The digits of a fraction, if a point and at least one digit follow. -/
def fraction (cs : List Char) : List Char × List Char :=
  match cs with
  | '.' :: rest =>
    match rest.takeWhile Char.isDigit with
    | [] => ([], cs)
    | digits => (digits, rest.dropWhile Char.isDigit)
  | _ => ([], cs)

/-- The value of an exponent, if there is one. -/
def exponent (cs : List Char) : Option Int × List Char :=
  match cs with
  | e :: rest =>
    if e == 'e' || e == 'E' then
      let (negative, rest) : Bool × List Char := match rest with
        | '-' :: more => (true, more)
        | '+' :: more => (false, more)
        | _ => (false, rest)
      match rest.takeWhile Char.isDigit with
      | [] => (none, cs)
      | digits =>
        let value : Int := digitsValue digits
        (some (if negative then -value else value), rest.dropWhile Char.isDigit)
    else (none, cs)
  | [] => (none, [])

/-- A number: an integer unless a fraction or an exponent follows its first digits. -/
def number? (cs : List Char) : Option (Value × List Char) :=
  let (negative, cs) : Bool × List Char := match cs with
    | '-' :: rest => (true, rest)
    | _ => (false, cs)
  let whole : Option (List Char × List Char) := match cs with
    | '0' :: rest => some (['0'], rest)
    | c :: _ => if c.isDigit then some (cs.takeWhile Char.isDigit, cs.dropWhile Char.isDigit)
        else none
    | [] => none
  match whole with
  | none => none
  | some (digits, rest) =>
    let (places, rest) := fraction rest
    let (power, rest) := exponent rest
    if places.isEmpty && power.isNone then
      let value : Int := digitsValue digits
      some (.int (if negative then -value else value), rest)
    else
      let scale : Int := power.getD 0 - places.length
      some (.float (Number.floatOfDecimal negative (digitsValue (digits ++ places)) scale), rest)

/-- The text after a word, if it comes first. -/
def word? (word cs : List Char) : Option (List Char) :=
  if word.isPrefixOf cs then some (cs.drop word.length) else none

/-- A value that is written as a bare word. -/
def word (cs : List Char) : Option (Value × List Char) :=
  match cs with
  | 'n' :: _ => (word? "null".toList cs).map (.null, ·)
  | 't' :: _ => (word? "true".toList cs).map (.bool true, ·)
  | 'f' :: _ => (word? "false".toList cs).map (.bool false, ·)
  | 'N' :: _ => (word? "NaN".toList cs).map (.float (0.0 / 0.0), ·)
  | 'I' :: _ => (word? "Infinity".toList cs).map (.float (1.0 / 0.0), ·)
  | '-' :: 'I' :: _ => (word? "-Infinity".toList cs).map (.float (-1.0 / 0.0), ·)
  | _ => none

/-! ### Values -/

mutual

/-- A value at the front of the text. -/
def value? : Nat → List Char → Option (Value × List Char)
  | 0, _ => none
  | budget + 1, cs =>
    match cs with
    | '"' :: rest => (stringBody? rest).map fun (s, r) => (.string (String.ofList s), r)
    | '[' :: rest =>
      match skipSpace rest with
      | ']' :: r => some (.array [], r)
      | r => (items? budget r).map fun (vs, r) => (.array vs, r)
    | '\x7b' :: rest =>
      match skipSpace rest with
      | '\x7d' :: r => some (.object [], r)
      | r => (fields? budget r).map fun (fs, r) => (.object (Dict.ofList fs).entries, r)
    | _ => (word cs).or (number? cs)

/-- The items of an array, as far as its closing bracket. -/
def items? : Nat → List Char → Option (List Value × List Char)
  | 0, _ => none
  | budget + 1, cs =>
    match value? budget cs with
    | none => none
    | some (v, r) =>
      match skipSpace r with
      | ',' :: r => (items? budget (skipSpace r)).map fun (vs, r) => (v :: vs, r)
      | ']' :: r => some ([v], r)
      | _ => none

/-- The fields of an object, as far as its closing brace. -/
def fields? : Nat → List Char → Option (List (String × Value) × List Char)
  | 0, _ => none
  | budget + 1, cs =>
    match cs with
    | '"' :: r =>
      match stringBody? r with
      | none => none
      | some (key, r) =>
        match skipSpace r with
        | ':' :: r =>
          match value? budget (skipSpace r) with
          | none => none
          | some (v, r) =>
            match skipSpace r with
            | ',' :: r =>
              (fields? budget (skipSpace r)).map fun (fs, r) => ((String.ofList key, v) :: fs, r)
            | '\x7d' :: r => some ([(String.ofList key, v)], r)
            | _ => none
        | _ => none
    | _ => none

end

/-- The value of a JSON text. -/
def parse? (text : String) : Option Value :=
  match value? (text.length + 1) (skipSpace text.toList) with
  | some (v, rest) => if (skipSpace rest).isEmpty then some v else none
  | none => none

end ImportAtlas.Json
