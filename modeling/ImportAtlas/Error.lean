import ImportAtlas.Data.Value
import ImportAtlas.FileTree
import ImportAtlas.Package.Id

/-!
# Errors

Everything that can go wrong, by cause. The words of a message are derived from the cause.

## Conventions

Where a message quotes what a reader of JSON or TOML has to say, it shows `<detail>`; the reason
why a file could not be read is shown as the symbol of the fault between angle brackets.
-/

namespace ImportAtlas

/-- A form in which settings may be written. -/
inductive SettingsFormat where
  | json
  | toml
  deriving DecidableEq, Inhabited

/-- What is wrong with installed packages or with the settings. -/
inductive ConfigCause where
  | notInstalled (id : PackageId)
  | malformedManifest (id : PackageId)
  | manifestNotObject (id : PackageId)
  | invalidName (value : Value) (context : String)
  | resolutionsNotObject (context : String)
  | dependenciesNotObject
  | invalidEntry (name : String)
  | unreadable (path : String) (fault : FileFault)
  | malformedFile (path : String)
  | noLockFile (directory : String)
  | lockNotObject (path : String)
  | malformedSettings (format : SettingsFormat)
  | settingsNotObject
  | invalidBuiltins (name : String)
  deriving Inhabited

/-- What is wrong with an import map, or with an operation on one. -/
inductive MapCause where
  | notObject (source : String)
  | unknownKey (source key : String)
  | scopesNotObject (source : String)
  | scopeNotFolder (source scope : String)
  | entriesNotObject (source place : String)
  | targetNotString (source place specifier : String)
  | malformed (source : String)
  | unreadable (path : String) (fault : FileFault)
  | outsideBase (name rebased : String)
  | conflict (specifier existing target scope : String)
  deriving DecidableEq, Inhabited

/-- What went wrong. -/
inductive Error where
  /-- Packages or settings are missing or invalid. -/
  | config (cause : ConfigCause)
  /-- No entry applies to a specifier, or the entry `match?` cannot take the rest of it. -/
  | resolution (specifier parent : String) (match? : Option String)
  /-- A module is not accepted by the analysis. -/
  | analysis (path : String) (position : Nat)
  /-- A module cannot be read. -/
  | load (specifier parent : String) (fault : FileFault)
  /-- An import map is invalid or cannot be changed as asked. -/
  | map (cause : MapCause)
  /-- A text identifies no package. -/
  | packageName (value : String)
  /-- Settings of a kind that has no meaning. -/
  | unsupportedSettings (value : Value)
  /-- Conditions that are neither missing nor an object. -/
  | conditionsNotObject
  /-- Names of development packages that cannot be listed. -/
  | namesNotListed
  /-- A package's description in memory that is no object. -/
  | descriptionNotObject
  /-- A file that is not text, where text is needed. -/
  | notText
  /-- A URL whose authority is not acceptable. -/
  | malformedUrl
  /-- A path that no file can have. -/
  | malformedPath
  /-- A request that leaves open which import map it is about. -/
  | mapNotNamed
  /-- A file that cannot be reached or written. -/
  | file (fault : FileFault)
  /-- A search that did not end within its budget. -/
  | budgetExhausted
  deriving Inhabited

namespace ConfigCause

/-- The package in question, if there is one. -/
def package? : ConfigCause → Option String
  | .notInstalled id => some id.text
  | .malformedManifest id => some id.text
  | .manifestNotObject id => some id.text
  | .invalidName _ context => some context
  | .resolutionsNotObject context => some context
  | .invalidEntry name => some name
  | .invalidBuiltins name => some name
  | _ => none

/-- What is wrong, in words. -/
def message : ConfigCause → String
  | .notInstalled id =>
    "Package " ++ id.text ++ " is not installed correctly. Run jspm install."
  | .malformedManifest id => "Package " ++ id.text ++ " has an invalid package.json: <detail>"
  | .manifestNotObject id => "Package " ++ id.text ++ " has an invalid package.json"
  | .invalidName value context =>
    "Invalid package name " ++ value.literal ++ " in " ++ context
  | .resolutionsNotObject context => "Resolution map for " ++ context ++ " must be an object"
  | .dependenciesNotObject => "Lock file dependencies must be an object"
  | .invalidEntry name => "Invalid lock file entry for " ++ name
  | .unreadable path fault => "Unable to read " ++ path ++ ": <" ++ fault.symbol ++ ">"
  | .malformedFile path => path ++ " is not valid JSON: <detail>"
  | .noLockFile directory => "No jspm.json found in " ++ directory ++ ". Run jspm install."
  | .lockNotObject path => path ++ " must contain an object"
  | .malformedSettings .json => "Invalid JSON configuration: <detail>"
  | .malformedSettings .toml => "Invalid TOML configuration: <detail>"
  | .settingsNotObject => "Top-level configuration must be a mapping/dict"
  | .invalidBuiltins name => Text.quote name ++ " is not a valid package name"

end ConfigCause

namespace MapCause

/-- What is wrong, in words. -/
def message : MapCause → String
  | .notObject source => source ++ " is not a valid import map: expected an object"
  | .unknownKey source key =>
    source ++ " is not a valid import map as it contains the invalid key \"" ++ key ++ "\"."
  | .scopesNotObject source => source ++ ": scopes must be an object"
  | .scopeNotFolder source scope => source ++ ": scope \"" ++ scope ++ "\" must end in \"/\""
  | .entriesNotObject source place => source ++ ": " ++ place ++ " must be an object"
  | .targetNotString source place specifier =>
    source ++ ": " ++ place ++ " target for " ++ Text.quote specifier ++ " must be a string"
  | .malformed source => source ++ " is not valid JSON: <detail>"
  | .unreadable path fault =>
    "Unable to read import map " ++ path ++ ": <" ++ fault.symbol ++ ">"
  | .outsideBase name rebased =>
    "Unable to reference mapping " ++ name ++ " at " ++ rebased ++
      ". The base for the import map must be a higher path than its mappings."
  | .conflict specifier existing target scope =>
    "Cannot flatten scopes due to conflict for " ++ specifier ++ " between " ++ existing ++
      " and " ++ target ++ " (scope " ++ scope ++ ")."

end MapCause

namespace Error

/-- The kind of a value that settings cannot be made of. -/
def kindName : Value → String
  | .bool _ => "bool"
  | .int _ => "int"
  | .float _ => "float"
  | .array _ => "list"
  | .string _ => "str"
  | .object _ => "dict"
  | .moment _ => "datetime"
  | .null => "NoneType"

/-- What went wrong, in words. -/
def message : Error → String
  | .config cause => cause.message
  | .resolution specifier parent none => "No resolution for " ++ specifier ++ " in " ++ parent
  | .resolution specifier parent (some key) =>
    "No resolution for " ++ specifier ++ " in " ++ parent ++ ": target of \"" ++ key ++
      "\" must end in \"/\""
  | .analysis path position =>
    "Syntax error analyzing " ++ path ++ " at offset " ++ toString position
  | .load specifier parent _ => "Loading " ++ specifier ++ " from " ++ parent
  | .map cause => cause.message
  | .packageName value => Text.quote value ++ " is not a valid package name"
  | .unsupportedSettings value =>
    "Unsupported config source type: <class '" ++ kindName value ++ "'>"
  | .conditionsNotObject => "conditions must be an object"
  | .namesNotListed => "devDependencies must be a list or an object"
  | .descriptionNotObject => "a package description must be an object"
  | .notText => "a file is not UTF-8"
  | .malformedUrl => "a URL has an invalid authority"
  | .malformedPath => "a path holds a NUL"
  | .mapNotNamed => "no import map is named"
  | .file fault => "a file cannot be used: " ++ fault.symbol
  | .budgetExhausted => "tracing was given up"

/-- Whether an error concerns the user's project; any other one is a misuse of the program. -/
def isReported : Error → Bool
  | .config _ | .resolution _ _ _ | .analysis _ _ | .load _ _ _ | .map _ => true
  | _ => false

end Error

end ImportAtlas
