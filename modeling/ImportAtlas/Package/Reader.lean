import ImportAtlas.Package.Installation

/-!
# Reading manifests once

A manifest is asked for in many places, and asking may happen again before the first answer is
there. A reader starts the reading of each manifest once and gives every asker the same result.

## Summary

* `ManifestReader.request` starts a reading unless it has been started.
* `ManifestReader.finish` completes a reading that is under way.
* `ManifestReader.get` asks for a manifest and waits for it.
-/

namespace ImportAtlas

/-- How far the reading of a manifest has come. -/
inductive Reading where
  | underWay
  | finished (result : Except Error Manifest)

/-- What has been asked for, and which files were opened for it. -/
structure ManifestReader where
  /-- Every package that was asked for. -/
  readings : Dict PackageId Reading
  /-- The packages whose files were opened, in order. -/
  opened : List PackageId

namespace ManifestReader

/-- The reader that nobody has asked yet. -/
def empty : ManifestReader := ⟨∅, []⟩

instance : Inhabited ManifestReader := ⟨empty⟩

/-- Asks for the manifest of a package. -/
def request (inst : Installation) (reader : ManifestReader) (id : PackageId) : ManifestReader :=
  if reader.readings.contains id then reader
  else
    { readings := reader.readings.insert id .underWay
      opened := if inst.needsFile id then reader.opened ++ [id] else reader.opened }

/-- Completes the reading of a manifest, if it is under way. -/
def finish (inst : Installation) (reader : ManifestReader) (id : PackageId) : ManifestReader :=
  match reader.readings.get? id with
  | some .underWay =>
    { reader with readings := reader.readings.insert id (.finished (inst.manifest id)) }
  | _ => reader

/-- The result of a reading that has been completed. -/
def result? (reader : ManifestReader) (id : PackageId) : Option (Except Error Manifest) :=
  match reader.readings.get? id with
  | some (.finished result) => some result
  | _ => none

/-- Asks for the manifest of a package and waits for it. -/
def get (inst : Installation) (reader : ManifestReader) (id : PackageId) : ManifestReader :=
  finish inst (request inst reader id) id

/-- Asks for several manifests and waits for all of them. -/
def getAll (inst : Installation) (reader : ManifestReader) (ids : List PackageId) :
    ManifestReader :=
  ids.foldl (finish inst) (ids.foldl (request inst) reader)

/-- The number of files that were opened. -/
def readCount (reader : ManifestReader) : Nat := reader.opened.length

end ManifestReader

end ImportAtlas
