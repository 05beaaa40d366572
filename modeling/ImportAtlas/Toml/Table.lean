import ImportAtlas.Data.Value

/-!
# Tables of TOML

A document sets values under keys of several parts. Which tables may be opened again, and which
are closed for good, depends on how they came about.

## Summary

* `updateTable?` changes the table at a key, creating the tables on the way.
* `Tables` holds the values set so far and what may no longer be opened.
-/

namespace ImportAtlas.Toml

/-- The parts of a key. -/
abbrev Key := List String

/-- The fields of a table. -/
abbrev Fields := List (String × Value)

/-- Fields with the value of one that is there replaced. -/
def replaceField (name : String) (value : Value) (fields : Fields) : Fields :=
  fields.map fun f => if f.1 = name then (name, value) else f

/-- Fields with the table at a key changed by `change`. Tables on the way that are missing are
created; where `throughArrays`, an array of tables stands for its last one. -/
def updateTable? (throughArrays : Bool) (change : Fields → Option Fields) :
    Key → Fields → Option Fields
  | [], fields => change fields
  | part :: key, fields =>
    match fields.lookup part with
    | none =>
      (updateTable? throughArrays change key []).map fun inner =>
        fields ++ [(part, .object inner)]
    | some (.object inner) =>
      (updateTable? throughArrays change key inner).map fun inner =>
        replaceField part (.object inner) fields
    | some (.array items) =>
      match throughArrays, items.getLast? with
      | true, some (.object inner) =>
        (updateTable? throughArrays change key inner).map fun inner =>
          replaceField part (.array (items.dropLast ++ [.object inner])) fields
      | _, _ => none
    | some _ => none

/-- Fields with a new field added at the end; a field of that name must not be there. -/
def addField? (name : String) (value : Value) (fields : Fields) : Option Fields :=
  if (fields.lookup name).isSome then none else some (fields ++ [(name, value)])

/-- Fields with an empty table added to an array of tables. -/
def addTable? (name : String) (fields : Fields) : Option Fields :=
  match fields.lookup name with
  | none => some (fields ++ [(name, .array [.object []])])
  | some (.array items) => some (replaceField name (.array (items ++ [.object []])) fields)
  | some _ => none

/-- A key without its last part, and that part. -/
def splitKey (key : Key) : Key × String := (key.dropLast, key.getLast?.getD "")

/-- Whether a value holds others. -/
def isContainer : Value → Bool
  | .array _ => true
  | .object _ => true
  | _ => false

/-- The values set so far. -/
structure Tables where
  /-- The fields of the document. -/
  root : Fields
  /-- The table that plain keys are taken from. -/
  header : Key
  /-- Tables that may not be opened by a header again. -/
  opened : List Key
  /-- Tables that count as opened from the next header on. -/
  pending : List Key
  /-- Values that are complete as written, with everything in them. -/
  frozen : List Key

namespace Tables

/-- The tables of an empty document. -/
def empty : Tables := ⟨[], [], [], [], []⟩

/-- Whether a key lies in a value that is complete as written. -/
def isFrozen (t : Tables) (key : Key) : Bool := t.frozen.any (·.isPrefixOf key)

/-- Sets a value under a key, taken from the current header. -/
def setValue? (t : Tables) (key : Key) (value : Value) : Option Tables :=
  let (parent, name) := splitKey key
  let passed := (List.range (key.length - 1)).map fun i => t.header ++ key.take (i + 1)
  if passed.any t.opened.contains || t.isFrozen (t.header ++ parent) then none
  else
    (updateTable? true (addField? name value) (t.header ++ parent) t.root).map fun root =>
      { t with
        root
        pending := t.pending ++ passed
        frozen := if isContainer value then (t.header ++ key) :: t.frozen else t.frozen }

/-- Opens the table at a key by a header. -/
def openTable? (t : Tables) (key : Key) : Option Tables :=
  let opened := t.pending ++ t.opened
  if opened.contains key || t.isFrozen key then none
  else
    (updateTable? true some key t.root).map fun root =>
      { t with root, header := key, opened := key :: opened, pending := [] }

/-- Adds a table to the array of tables at a key by a header. What was said about the last table
of the array does not hold for the new one. -/
def openItem? (t : Tables) (key : Key) : Option Tables :=
  if t.isFrozen key then none
  else
    let (parent, name) := splitKey key
    (updateTable? true (addTable? name) parent t.root).map fun root =>
      { root
        header := key
        opened := key :: (t.pending ++ t.opened).filter (!key.isPrefixOf ·)
        pending := []
        frozen := t.frozen.filter (!key.isPrefixOf ·) }

end Tables

end ImportAtlas.Toml
