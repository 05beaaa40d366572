import ImportAtlas.Path
import ImportAtlas.Text.Utf8

/-!
# File trees

The program reads packages, maps and modules from a tree of folders and files. A tree is given by
what stands at each place; the rules for following a path to its place are the same for all trees.

## Summary

* `FileTree.walk` follows a path from the root. Each step needs a folder, and a name of at most
  255 bytes.
* `FileTree.read` and `FileTree.readText` read the file at the end of a path.
* `FileTree.writeFault?` tells why no file can be written at the end of a path.
* `FileTree.ofFiles` is the tree of finitely many files, with the folders they need.
-/

namespace ImportAtlas

/-- What stands at a place of the tree. -/
inductive Entry where
  | file (bytes : List UInt8)
  | folder
  deriving DecidableEq, Inhabited

/-- Why a file could not be read or written. -/
inductive FileFault where
  | missing
  | isFolder
  | notFolder
  | nameTooLong
  | notText
  | nulInPath
  | occupied
  deriving DecidableEq, Inhabited

/-- The symbol that stands for a fault in messages and answers. -/
def FileFault.symbol : FileFault → String
  | .missing => "ENOENT"
  | .isFolder => "EISDIR"
  | .notFolder => "ENOTDIR"
  | .nameTooLong => "ENAMETOOLONG"
  | .notText => "EIO"
  | .nulInPath => "EINVAL"
  | .occupied => "EEXIST"

/-- A tree of folders and files, given by what stands at each place. -/
structure FileTree where
  /-- The entry at the end of some names, if there is one. -/
  lookup : List Path.Segment → Option Entry

namespace FileTree

/-- The greatest number of bytes of a name. -/
def longestName : Nat := 255

/-- The greatest number of bytes of a path. -/
def longestPath : Nat := 4095

/-- The number of bytes of a segment. -/
def byteCount (seg : Path.Segment) : Nat := (Utf8.encode (String.ofList seg)).length

/-- Follows segments from a place of the tree. -/
def walk (tree : FileTree) : List Path.Segment → List Path.Segment → Except FileFault Entry
  | place, [] =>
    match tree.lookup place with
    | some entry => .ok entry
    | none => .error .missing
  | place, seg :: rest =>
    match tree.lookup place with
    | none => .error .missing
    | some (.file _) => .error .notFolder
    | some .folder =>
      if seg = Path.up then walk tree place.dropLast rest
      else if byteCount seg > longestName then .error .nameTooLong
      else walk tree (place ++ [seg]) rest

/-- The entry that a path leads to. -/
def find (tree : FileTree) (path : String) : Except FileFault Entry :=
  if path.toList.contains '\x00' then .error .nulInPath
  else if (Utf8.encode (Path.squeeze path)).length > longestPath then .error .nameTooLong
  else tree.walk [] (Path.parts path)

/-- The bytes of the file that a path leads to. -/
def read (tree : FileTree) (path : String) : Except FileFault (List UInt8) :=
  match tree.find path with
  | .ok (.file bytes) => .ok bytes
  | .ok .folder => .error .isFolder
  | .error fault => .error fault

/-- A text with every line break, a carriage return with or without a line feed, made a line
feed. -/
def unifyLineBreaks : List Char → List Char
  | '\r' :: '\n' :: rest => '\n' :: unifyLineBreaks rest
  | '\r' :: rest => '\n' :: unifyLineBreaks rest
  | c :: rest => c :: unifyLineBreaks rest
  | [] => []

/-- The text of the file that a path leads to. -/
def readText (tree : FileTree) (path : String) : Except FileFault String :=
  match tree.read path with
  | .error fault => .error fault
  | .ok bytes =>
    match Utf8.decode? bytes with
    | some text => .ok (String.ofList (unifyLineBreaks text.toList))
    | none => .error .notText

/-- Whether a path leads to a file. A path that is too long to be followed is a fault; any other
path that leads nowhere is no file. -/
def isFile (tree : FileTree) (path : String) : Except FileFault Bool :=
  match tree.find path with
  | .ok (.file _) => .ok true
  | .ok .folder => .ok false
  | .error .nameTooLong => .error .nameTooLong
  | .error _ => .ok false

/-- Why the folder at a place cannot be made, given the names that are left to go. -/
def folderFault? (tree : FileTree) : List Path.Segment → List Path.Segment → Option FileFault
  | place, [] =>
    match tree.lookup place with
    | some (.file _) => some .occupied
    | _ => none
  | place, name :: rest =>
    match tree.lookup place with
    | some (.file _) => some .notFolder
    | _ => if byteCount name > longestName then some .nameTooLong
      else folderFault? tree (place ++ [name]) rest

/-- Why no file can be written at the end of a path, whose missing folders are made. -/
def writeFault? (tree : FileTree) (path : String) : Option FileFault :=
  let place := Path.absolute path
  match tree.folderFault? [] place.dropLast with
  | some fault => some fault
  | none =>
    if (place.getLast?).any fun name => byteCount name > longestName then some .nameTooLong
    else match tree.lookup place with
      | some .folder => some .isFolder
      | _ => none

/-- The tree that holds some folders and files, and the folders that these need. -/
def ofFiles (folders : List (List Path.Segment))
    (files : List (List Path.Segment × List UInt8)) : FileTree where
  lookup place :=
    match files.lookup place with
    | some bytes => some (.file bytes)
    | none =>
      if folders.any place.isPrefixOf || files.any (place.isPrefixOf ·.1) || place.isEmpty then
        some .folder
      else none

end FileTree

end ImportAtlas
