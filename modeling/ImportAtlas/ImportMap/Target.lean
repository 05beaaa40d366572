import ImportAtlas.Path
import ImportAtlas.Text.Digit

/-!
# Targets and specifiers

What the text of a target or a specifier is: a URL, a relative path, or a bare name.

## Summary

* `Target.isUrl` finds a scheme at the front of a text, and `Target.isUrlOrRooted` also accepts a
  leading slash.
* `Target.normalize` is the form in which targets are compared.
-/

namespace ImportAtlas.Target

/-- The characters of a scheme after its first letter. -/
def isSchemeChar (c : Char) : Bool :=
  c.isAlpha || Text.isDecimalDigit c || c == '+' || c == '-' || c == '.'

/-- The scheme at the front of a text, without its colon. -/
def schemeChars? : List Char → Option (List Char)
  | [] => none
  | c :: rest =>
    if c.isAlpha && (rest.dropWhile isSchemeChar).head? == some ':' then
      some (c :: rest.takeWhile isSchemeChar)
    else none

/-- Whether a text begins with a scheme. -/
def isUrl (value : String) : Bool := (schemeChars? value.toList).isSome

/-- Whether a text begins with a scheme of two or more characters; a single letter names a
drive. -/
def isLongUrl (value : String) : Bool := (schemeChars? value.toList).any (2 ≤ ·.length)

/-- Whether a text begins with a slash. -/
def isRooted (value : String) : Bool := value.toList.head? == some '/'

/-- Whether a text stands for the same place in every directory. -/
def isUrlOrRooted (value : String) : Bool := isRooted value || isUrl value

/-- Whether a text begins with a `.` or `..` segment. -/
def isRelativeChars (cs : List Char) : Bool :=
  "./".toList.isPrefixOf cs || "../".toList.isPrefixOf cs || cs == ['.'] || cs == ['.', '.']

/-- Whether a specifier is relative to the module it stands in. -/
def isRelative (specifier : String) : Bool := isRelativeChars specifier.toList

/-- Whether a text ends with a slash. -/
def endsInSlash (value : String) : Bool := value.toList.getLast? == some '/'

/-- A text with a slash at its end. -/
def withSlash (value : String) : String := if endsInSlash value then value else value ++ "/"

/-- The form in which targets are compared: a URL as it is, a path normalized but with its
trailing slash. -/
def normalize (value : String) : String :=
  if isUrl value then value
  else if endsInSlash value then withSlash (Path.normalize value)
  else Path.normalize value

end ImportAtlas.Target
