import ImportAtlas.Data.Dict
import ImportAtlas.Number.Shortest
import ImportAtlas.Text.Literal

/-!
# Configuration values

What a JSON or TOML document says, before the program gives it a meaning.

## Summary

* `Value` is the type of documents. The fields of an object are listed in order of first
  appearance, each key once.
* `Value.truthy` is the test that decides whether an optional setting counts as given.
* `Value.literal` shows a value in a message, and `Value.text` turns a setting into text.
-/

namespace ImportAtlas

/-- A day of the calendar. -/
structure Date where
  /-- Years of the common era. -/
  year : Nat
  /-- From 1 to 12. -/
  month : Nat
  /-- From 1. -/
  day : Nat
  deriving DecidableEq, Inhabited

/-- A time of day. -/
structure Clock where
  /-- From 0 to 23. -/
  hour : Nat
  /-- From 0 to 59. -/
  minute : Nat
  /-- From 0 to 59. -/
  second : Nat
  /-- Millionths of a second. -/
  micro : Nat
  deriving DecidableEq, Inhabited

/-- A date, a time of day, or both, the latter with an offset in minutes where one is given. -/
inductive Moment where
  | date (date : Date)
  | clock (clock : Clock)
  | both (date : Date) (clock : Clock) (offset : Option Int)
  deriving DecidableEq, Inhabited

namespace Moment

/-- A number in decimal, padded with zeros to a width. -/
def padded (width n : Nat) : String :=
  let digits := Nat.toDigits 10 n
  String.ofList (List.replicate (width - digits.length) '0' ++ digits)

/-- Year, month and day joined by hyphens. -/
def dateText (d : Date) : String :=
  padded 4 d.year ++ "-" ++ padded 2 d.month ++ "-" ++ padded 2 d.day

/-- Hour, minute and second joined by colons, with six places of a fraction that is not zero. -/
def clockText (c : Clock) : String :=
  padded 2 c.hour ++ ":" ++ padded 2 c.minute ++ ":" ++ padded 2 c.second ++
    if c.micro = 0 then "" else "." ++ padded 6 c.micro

/-- An offset as a sign, hours and minutes. -/
def offsetText (minutes : Int) : String :=
  (if minutes < 0 then "-" else "+") ++ padded 2 (minutes.natAbs / 60) ++ ":" ++
    padded 2 (minutes.natAbs % 60)

/-- A moment as text, date first. -/
def text : Moment → String
  | .date d => dateText d
  | .clock c => clockText c
  | .both d c offset =>
    dateText d ++ " " ++ clockText c ++ (offset.map offsetText).getD ""

/-- Hour and minute, then second and fraction as far as the last one that is not zero. -/
def clockParts (c : Clock) : List Nat :=
  if c.micro ≠ 0 then [c.hour, c.minute, c.second, c.micro]
  else if c.second ≠ 0 then [c.hour, c.minute, c.second]
  else [c.hour, c.minute]

/-- Numbers separated by commas. -/
def commaList (parts : List Nat) : String := ", ".intercalate (parts.map toString)

/-- An offset as a constructor term: whole days towards the past, then seconds forward. -/
def offsetLiteral (minutes : Int) : String :=
  if minutes = 0 then "datetime.timezone.utc"
  else
    let days := minutes.fdiv 1440
    let seconds := minutes.fmod 1440 * 60
    "datetime.timezone(datetime.timedelta(" ++
      (if days = 0 then "" else "days=" ++ toString days ++
        if seconds = 0 then "" else ", ") ++
      (if seconds = 0 then "" else "seconds=" ++ toString seconds) ++ "))"

/-- A moment as a constructor term. -/
def literal : Moment → String
  | .date d => "datetime.date(" ++ commaList [d.year, d.month, d.day] ++ ")"
  | .clock c => "datetime.time(" ++ commaList (clockParts c) ++ ")"
  | .both d c offset =>
    "datetime.datetime(" ++ commaList ([d.year, d.month, d.day] ++ clockParts c) ++
      (match offset with
        | none => ""
        | some minutes => ", tzinfo=" ++ offsetLiteral minutes) ++ ")"

end Moment

/-- A JSON or TOML document. -/
inductive Value where
  | null
  | bool (value : Bool)
  | int (value : Int)
  | float (value : Float)
  | moment (value : Moment)
  | string (value : String)
  | array (items : List Value)
  | object (fields : List (String × Value))
  deriving Inhabited

namespace Value

/-- Whether a value counts as given: null, false, zero and whatever is empty do not. -/
def truthy : Value → Bool
  | .null => false
  | .bool b => b
  | .int n => n != 0
  | .float x => x != 0.0
  | .moment _ => true
  | .string s => !s.isEmpty
  | .array items => !items.isEmpty
  | .object fields => !fields.isEmpty

/-- The fields of an object. -/
def fields? : Value → Option (List (String × Value))
  | .object fields => some fields
  | _ => none

/-- The text of a string. -/
def string? : Value → Option String
  | .string s => some s
  | _ => none

/-- The field `key` of `fields`, with null for a missing one. -/
def field (fields : List (String × Value)) (key : String) : Value :=
  (fields.lookup key).getD .null

mutual

/-- A value as shown in messages. -/
def literal : Value → String
  | .null => "None"
  | .bool true => "True"
  | .bool false => "False"
  | .int n => toString n
  | .float x => Number.floatText x
  | .moment m => m.literal
  | .string s => Text.quote s
  | .array items => "[" ++ itemLiterals items ++ "]"
  | .object fields => "\x7b" ++ fieldLiterals fields ++ "\x7d"

/-- The items of an array as shown in messages. -/
def itemLiterals : List Value → String
  | [] => ""
  | [v] => v.literal
  | v :: more => v.literal ++ ", " ++ itemLiterals more

/-- The fields of an object as shown in messages. -/
def fieldLiterals : List (String × Value) → String
  | [] => ""
  | [(k, v)] => Text.quote k ++ ": " ++ v.literal
  | (k, v) :: more => Text.quote k ++ ": " ++ v.literal ++ ", " ++ fieldLiterals more

end

/-- A value as the text of a setting: strings and moments stand for themselves. -/
def text : Value → String
  | .string s => s
  | .moment m => m.text
  | v => v.literal

end Value

end ImportAtlas
