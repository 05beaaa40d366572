/-!
# Paths

Paths are texts whose segments are separated by slashes. A path that begins with a slash is
rooted; any other path is taken from the directory `/`, where the program runs.

## Summary

* `Path.reduce` removes empty and `.` segments and lets `..` take back the segment before it.
* `Path.normalize` writes the reduced segments again. Exactly two leading slashes are kept, three
  or more are one.
* `Path.join` puts a path below a directory, and `Path.relative` finds the path that leads from
  one directory to another place.
* `Path.squeeze` only drops empty and `.` segments: it is the form in which messages show a path.
* `Path.absolute` is the place in the file tree that a path denotes, as a list of names.
-/

namespace ImportAtlas.Path

/-- A part of a path between slashes. -/
abbrev Segment := List Char

/-- The segment that stands for the directory it is in. -/
def here : Segment := ['.']

/-- The segment that stands for the directory above. -/
def up : Segment := ['.', '.']

/-- The parts of a path between slashes, empty ones included. -/
def segments (cs : List Char) : List Segment := cs.splitOn '/'

/-- Segments written with slashes between them. -/
def joinSegments (segs : List Segment) : List Char := ['/'].intercalate segs

/-- How many leading slashes normalization keeps: two if there are exactly two, else at most
one. -/
def rootSlashes : List Char → Nat
  | '/' :: '/' :: '/' :: _ => 1
  | '/' :: '/' :: _ => 2
  | '/' :: _ => 1
  | _ => 0

/-- Appends one segment to a stack of reduced segments, the last one on top. -/
def push (rooted : Bool) (stack : List Segment) (seg : Segment) : List Segment :=
  if seg = [] ∨ seg = here then stack
  else if seg = up then
    match stack with
    | [] => if rooted then [] else [up]
    | top :: below => if top = up then up :: stack else below
  else seg :: stack

/-- The segments without empty and `.` ones, each `..` taking back the segment before it. At the
root `..` goes nowhere; elsewhere a leading `..` remains. -/
def reduce (rooted : Bool) (segs : List Segment) : List Segment :=
  (segs.foldl (push rooted) []).reverse

/-- `normalize` on characters. -/
def normalizeChars (cs : List Char) : List Char :=
  let slashes := rootSlashes cs
  let text := List.replicate slashes '/' ++ joinSegments (reduce (slashes ≠ 0) (segments cs))
  if text.isEmpty then here else text

/-- A path without empty, `.` and redundant `..` segments and without a trailing slash. -/
def normalize (path : String) : String := String.ofList (normalizeChars path.toList)

/-- `join` on characters. -/
def joinChars (dir path : List Char) : List Char :=
  if path.head? = some '/' then path
  else if dir.isEmpty || dir.getLast? = some '/' then dir ++ path
  else dir ++ '/' :: path

/-- A path taken from a directory; a rooted path stands for itself. -/
def join (dir path : String) : String := String.ofList (joinChars dir.toList path.toList)

/-! ### Places in the file tree -/

/-- The names on the way from `/` to the place that a path denotes. -/
def absolute (path : String) : List Segment := reduce true (segments path.toList)

/-- The rooted path through some names. -/
def ofNames (names : List Segment) : String := String.ofList ('/' :: joinSegments names)

/-- The rooted, reduced form of a path. -/
def resolve (path : String) : String := ofNames (absolute path)

/-- The names that two lists begin with alike. -/
def commonLength : List Segment → List Segment → Nat
  | a :: as, b :: bs => if a = b then commonLength as bs + 1 else 0
  | _, _ => 0

/-- The segments that lead from one place to another: up to where the two part, then down. -/
def steps (start target : List Segment) : List Segment :=
  let shared := commonLength start target
  List.replicate (start.length - shared) up ++ target.drop shared

/-- The path that leads from the directory `start` to `path`, `.` if they are the same place. -/
def relative (path start : String) : String :=
  match steps (absolute start) (absolute path) with
  | [] => String.ofList here
  | segs => String.ofList (joinSegments segs)

/-! ### Paths in messages -/

/-- The segments of a path that name something: neither empty nor `.`. -/
def parts (path : String) : List Segment :=
  (segments path.toList).filter fun seg => seg ≠ [] ∧ seg ≠ here

/-- A path without empty and `.` segments. -/
def squeeze (path : String) : String :=
  let text := List.replicate (rootSlashes path.toList) '/' ++ joinSegments (parts path)
  String.ofList (if text.isEmpty then here else text)

/-- The directory that holds the last segment of a path, in the form of `squeeze`. -/
def parent (path : String) : String :=
  let root := List.replicate (rootSlashes path.toList) '/'
  let text := root ++ joinSegments (parts path).dropLast
  String.ofList (if text.isEmpty then here else text)

/-- The last segment of a path, empty if it has none. -/
def name (path : String) : Segment := ((parts path).getLast?).getD []

/-- The extension of the last segment with its dot, empty if there is none: a dot at the front or
at the end of the name begins no extension. -/
def extension (path : String) : List Char :=
  let name := name path
  let stem := name.reverse.dropWhile (· ≠ '.') |>.drop 1
  let ending := name.reverse.takeWhile (· ≠ '.') |>.reverse
  if stem.isEmpty || ending.isEmpty then [] else '.' :: ending

end ImportAtlas.Path
