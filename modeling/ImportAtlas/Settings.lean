import ImportAtlas.Environment
import ImportAtlas.Text.Blank
import ImportAtlas.Toml.Parser

/-!
# Settings

How an import map is made: where packages are, which package stands in for platform modules, and
for which environment the map is.

## Summary

* `Settings.ofFields` reads settings; whatever is missing keeps its standard value.
* `Settings.ofSource` reads settings from a value, a text or a file.
-/

namespace ImportAtlas

/-- How an import map is made. -/
structure Settings where
  /-- The folder of installed packages, below the project. -/
  packagesDir : String
  /-- The package that stands in for platform modules. -/
  builtinsPackage : String
  /-- The alias of that package, which gets no entries. -/
  builtinsAlias : String
  /-- Whether platform modules get entries. -/
  includeBuiltins : Bool
  /-- Whether an entry module without mapping is taken for a file. -/
  relativeFallback : Bool
  /-- The environment that the map is for. -/
  env : Environment
  deriving Inhabited

/-- Where settings come from. -/
inductive SettingsSource where
  /-- The standard settings. -/
  | standard
  /-- Fields that have been read. -/
  | fields (fields : List (String × Value))
  /-- The path of a file, or a text if there is no such file. -/
  | text (text : String)
  /-- A value without meaning as settings. -/
  | other (value : Value)
  deriving Inhabited

namespace Settings

/-- The settings when nothing is said. -/
def standard : Settings where
  packagesDir := "jspm_packages"
  builtinsPackage := "npm:@jspm/node-builtins@0.1.2"
  builtinsAlias := "jspm-node-builtins"
  includeBuiltins := true
  relativeFallback := false
  env := .standard

/-- The table of settings in a file that holds other things too. -/
def tableName : String := "importmapper"

/-- A text without slashes at its ends. -/
def trimSlashes (s : String) : String :=
  String.ofList (((s.toList.dropWhile (· == '/')).reverse.dropWhile (· == '/')).reverse)

/-- The text of a setting, `standard` if it is missing. -/
def textSetting (fields : List (String × Value)) (key standard : String) : String :=
  ((fields.lookup key).map Value.text).getD standard

/-- Whether a setting is on, `standard` if it is missing. -/
def flagSetting (fields : List (String × Value)) (key : String) (standard : Bool) : Bool :=
  ((fields.lookup key).map Value.truthy).getD standard

/-- The settings of a table. -/
def ofTable (fields : List (String × Value)) : Except Error Settings := do
  let env ← match Value.field fields "env" with
    | .object env => Environment.ofFields env
    | _ => pure .standard
  pure {
    packagesDir := trimSlashes (textSetting fields "packages_dir" standard.packagesDir)
    builtinsPackage := textSetting fields "builtins_package" standard.builtinsPackage
    builtinsAlias := textSetting fields "builtins_alias" standard.builtinsAlias
    includeBuiltins := flagSetting fields "include_builtins" standard.includeBuiltins
    relativeFallback := flagSetting fields "relative_fallback" standard.relativeFallback
    env }

/-- The settings that fields describe, directly or in a table of their own. -/
def ofFields (fields : List (String × Value)) : Except Error Settings :=
  match fields.lookup tableName with
  | none => ofTable fields
  | some (.object table) => ofTable table
  | some _ => .ok standard

/-! ### Texts and files -/

/-- The format of a text: JSON if it begins with a brace or a bracket. -/
def formatOf (text : String) : SettingsFormat :=
  match (text.toList.dropWhile Text.isBlank).head? with
  | some '\x7b' => .json
  | some '[' => .json
  | _ => .toml

/-- The format that the extension of a path tells, or else the text. -/
def fileFormat (path text : String) : SettingsFormat :=
  let extension := String.ofList ((Path.extension path).map Char.toLower)
  if extension == ".toml" || extension == ".tml" then .toml
  else if extension == ".json" then .json
  else formatOf text

/-- The settings in a text. -/
def ofText (text : String) (format : SettingsFormat) : Except Error Settings :=
  match format with
  | .json =>
    match Json.parse? text with
    | none => .error (.config (.malformedSettings .json))
    | some (.object fields) => ofFields fields
    | some _ => .error (.config .settingsNotObject)
  | .toml =>
    match Toml.parse? text with
    | none => .error (.config (.malformedSettings .toml))
    | some fields => ofFields fields

/-- The settings of a source. -/
def ofSource (files : FileTree) : SettingsSource → Except Error Settings
  | .standard => .ok standard
  | .fields fields => ofFields fields
  | .other value => .error (.unsupportedSettings value)
  | .text source =>
    match files.isFile source with
    | .ok true =>
      match files.readText source with
      | .ok text => ofText text (fileFormat source text)
      | .error .notText => .error .notText
      | .error fault => .error (.file fault)
    | _ => ofText source (formatOf source)

end Settings

end ImportAtlas
