import ImportAtlas.Text.Digit

/-!
# Package identifiers

An installed package is named `registry:name@version`. The registry consists of small letters; the
name has parts between slashes, and its first character may be `@`; the version is any text
without `@` and may be missing.

## Summary

* `PackageId.parse?` reads an identifier; one line feed may follow an identifier without version.
* `PackageId.text` writes an identifier, and `PackageId.path` tells where its files are.
-/

namespace ImportAtlas

/-- A package of a registry. -/
structure PackageId where
  /-- Where the package comes from. -/
  registry : String
  /-- What it is called there. -/
  name : String
  /-- Which of its versions it is, empty if it has none. -/
  version : String
  deriving DecidableEq, Inhabited

namespace PackageId

/-- The characters of registries. -/
def isRegistryChar (c : Char) : Bool := 'a' ≤ c && c ≤ 'z'

/-- The characters of names. -/
def isNameChar (c : Char) : Bool :=
  c == '-' || c == '_' || c == '.' || c.isAlpha || Text.isDecimalDigit c

/-- The longest text of name characters, and of slashes that one of these follows, and the text
after it. -/
def spanName : List Char → List Char × List Char
  | '/' :: c :: rest =>
    if isNameChar c then
      let (name, rest) := spanName rest
      ('/' :: c :: name, rest)
    else ([], '/' :: c :: rest)
  | c :: rest =>
    if isNameChar c then
      let (name, rest) := spanName rest
      (c :: name, rest)
    else ([], c :: rest)
  | [] => ([], [])

/-- The version that ends an identifier, empty if the identifier ends here or at a line feed. -/
def versionOf? : List Char → Option (List Char)
  | [] => some []
  | ['\n'] => some []
  | '@' :: version => if version.isEmpty || version.contains '@' then none else some version
  | _ => none

/-- The parts of an identifier. -/
def parseChars? (cs : List Char) : Option (List Char × List Char × List Char) :=
  let registry := cs.takeWhile isRegistryChar
  match cs.dropWhile isRegistryChar with
  | ':' :: first :: rest =>
    if registry.isEmpty || !(first == '@' || isNameChar first) then none
    else
      let (name, rest) := spanName rest
      (versionOf? rest).map fun version => (registry, first :: name, version)
  | _ => none

/-- The package that a text identifies. -/
def parse? (text : String) : Option PackageId :=
  (parseChars? text.toList).map fun (registry, name, version) =>
    ⟨String.ofList registry, String.ofList name, String.ofList version⟩

/-- The version behind its mark, empty if there is none. -/
def versionSuffix (id : PackageId) : String :=
  if id.version.isEmpty then "" else "@" ++ id.version

/-- The place of the package's files below the folder of all packages. -/
def path (id : PackageId) : String := id.registry ++ "/" ++ id.name ++ id.versionSuffix

/-- The identifier as text. -/
def text (id : PackageId) : String := id.registry ++ ":" ++ id.name ++ id.versionSuffix

/-- The order of packages: by registry, then by name, then by version. -/
def le (a b : PackageId) : Bool :=
  if a.registry ≠ b.registry then a.registry < b.registry
  else if a.name ≠ b.name then a.name < b.name
  else a.version ≤ b.version

end PackageId

end ImportAtlas
