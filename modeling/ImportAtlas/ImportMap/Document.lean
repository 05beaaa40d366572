import ImportAtlas.Error
import ImportAtlas.ImportMap.Basic
import ImportAtlas.ImportMap.Target
import ImportAtlas.Json.Parser
import ImportAtlas.Json.Printer

/-!
# Import map documents

The written form of an import map is a JSON object with the fields `imports` and `scopes`.

## Summary

* `ImportMap.toValue` and `ImportMap.toJson` write a map.
* `ImportMap.ofValue`, `ImportMap.ofJson` and `ImportMap.load` read a map. The source is what a
  message calls the document.
-/

namespace ImportAtlas.ImportMap

/-! ### Writing -/

/-- A table as an object. -/
def importsValue (imports : Imports) : Value :=
  .object (imports.entries.map fun (specifier, target) => (specifier, .string target))

/-- A map as an object. -/
def toValue (map : ImportMap) : Value :=
  .object [
    ("imports", importsValue map.imports),
    ("scopes", .object (map.scopes.entries.map fun (scopePrefix, entries) =>
      (scopePrefix, importsValue entries)))]

/-- A map as a JSON text that ends with a line feed. -/
def toJson (map : ImportMap) : String := Json.pretty map.toValue ++ "\n"

/-! ### Reading -/

/-- The fields of an object, none if it is not given. -/
def objectOr (value : Value) (cause : MapCause) : Except Error (List (String × Value)) :=
  match value with
  | .object fields => .ok fields
  | v => if v.truthy then .error (.map cause) else .ok []

/-- An entry of the table that messages call `place`. -/
def entryOf (source place specifier : String) (target : Value) :
    Except Error (String × String) :=
  match target with
  | .string target => .ok (specifier, target)
  | _ => .error (.map (.targetNotString source place specifier))

/-- A table that messages call `place`. -/
def importsOf (source place : String) (value : Value) : Except Error Imports := do
  let fields ← objectOr value (.entriesNotObject source place)
  let entries ← fields.mapM fun (specifier, target) => entryOf source place specifier target
  pure (Dict.ofList entries)

/-- A scope with its prefix, which must end in a slash. -/
def scopeOf (source scopePrefix : String) (value : Value) : Except Error (String × Imports) := do
  if !Target.endsInSlash scopePrefix then .error (.map (.scopeNotFolder source scopePrefix))
  else
    let entries ← importsOf source ("scopes[" ++ scopePrefix ++ "]") value
    pure (scopePrefix, entries)

/-- The first key of a document that means nothing. -/
def unknownKey? (fields : List (String × Value)) : Option String :=
  (fields.map Prod.fst).find? fun key => key != "imports" && key != "scopes"

/-- The map that a document describes. -/
def ofValue (value : Value) (source : String) : Except Error ImportMap :=
  match value with
  | .object fields =>
    match unknownKey? fields with
    | some key => .error (.map (.unknownKey source key))
    | none => do
      let imports ← importsOf source "imports" (Value.field fields "imports")
      let scopes ← objectOr (Value.field fields "scopes") (.scopesNotObject source)
      let scopes ← scopes.mapM fun (scopePrefix, entries) => scopeOf source scopePrefix entries
      pure ⟨imports, Dict.ofList scopes⟩
  | _ => .error (.map (.notObject source))

/-- The map in a JSON text. -/
def ofJson (text source : String) : Except Error ImportMap :=
  match Json.parse? text with
  | some value => ofValue value source
  | none => .error (.map (.malformed source))

/-- The map in a file. -/
def load (files : FileTree) (path : String) : Except Error ImportMap :=
  let path := Path.squeeze path
  match files.readText path with
  | .ok text => ofJson text path
  | .error .notText => .error .notText
  | .error .nulInPath => .error .malformedPath
  | .error fault => .error (.map (.unreadable path fault))

end ImportAtlas.ImportMap
