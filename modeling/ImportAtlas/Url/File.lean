import ImportAtlas.Json.Parser
import ImportAtlas.Path
import ImportAtlas.Text.Utf8
import ImportAtlas.Url.Parts

/-!
# File URLs

Modules on disk are named by URLs of the scheme `file`. Bytes that may not stand in such a URL
are written as `%` with two hexadecimal digits.

## Summary

* `fileUrl` writes the URL of a rooted path.
* `filePath?` reads the path that a URL denotes; bytes that are not UTF-8 are read as U+FFFD.
-/

namespace ImportAtlas.Url

/-- The characters that a path keeps in a URL. -/
def isUnreserved (c : Char) : Bool :=
  c.isAlphanum || c == '_' || c == '.' || c == '-' || c == '~' || c == '/'

/-- A hexadecimal digit in upper case. -/
def hexDigitUpper (n : Nat) : Char := (Nat.digitChar n).toUpper

/-- A byte as `%` with two hexadecimal digits. -/
def encodeByte (b : UInt8) : List Char :=
  ['%', hexDigitUpper (b.toNat / 16), hexDigitUpper (b.toNat % 16)]

/-- A character as a path in a URL writes it. -/
def encodeChar (c : Char) : List Char :=
  if isUnreserved c then [c] else (String.utf8EncodeChar c).flatMap encodeByte

/-- The URL of a rooted path. -/
def fileUrl (path : String) : String :=
  "file://" ++ String.ofList (path.toList.flatMap encodeChar)

/-- The bytes of ASCII text in which `%` with two hexadecimal digits stands for a byte. -/
def percentBytes : List Char → List UInt8
  | [] => []
  | '%' :: a :: b :: rest =>
    match Json.hexDigit? a, Json.hexDigit? b with
    | some x, some y => UInt8.ofNat (x * 16 + y) :: percentBytes rest
    | _, _ => UInt8.ofNat '%'.toNat :: percentBytes (a :: b :: rest)
  | c :: rest => UInt8.ofNat c.toNat :: percentBytes rest

/-- Whether a character belongs to ASCII. -/
def isAscii (c : Char) : Bool := c.toNat < 0x80

/-- A text with its percent escapes read. Escapes that stand side by side spell characters
together; a character outside ASCII parts them. -/
def decode (cs : List Char) : List Char :=
  (cs.splitBy fun a b => isAscii a == isAscii b).flatMap fun run =>
    if run.all isAscii then Utf8.decodeLossy (percentBytes run) else run

/-- The path that a URL denotes, in the form in which messages show paths. -/
def filePath? (url : String) : Option String :=
  (split? [] url.toList).map fun parts => Path.squeeze (String.ofList (decode parts.path))

end ImportAtlas.Url
