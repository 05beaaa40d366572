import ImportAtlas.Url.Parts

/-!
# Relative references

A relative reference is resolved against the URL of the text it occurs in.

## Summary

* `removeDots` follows `.` and `..` segments; at the root `..` goes nowhere.
* `joinPaths` replaces the last segment of a path by another path.
* `Url.join?` resolves a reference. A base whose scheme knows no relative references leaves the
  reference as it is.
-/

namespace ImportAtlas.Url

/-- A part of a path between slashes. -/
abbrev Segment := List Char

/-- Appends one segment to a stack of segments, the last one on top. -/
def pushSegment (stack : List Segment) (seg : Segment) : List Segment :=
  if seg = ['.', '.'] then stack.drop 1
  else if seg = ['.'] then stack
  else seg :: stack

/-- Segments with `.` and `..` followed; a path that ends in one of these names a directory. -/
def removeDots (segs : List Segment) : List Segment :=
  let resolved := (segs.foldl pushSegment []).reverse
  if segs.getLast? = some ['.'] || segs.getLast? = some ['.', '.'] then resolved ++ [[]]
  else resolved

/-- The segments of a path without its last one, unless that is empty. -/
def directorySegments (path : List Char) : List Segment :=
  let segs := path.splitOn '/'
  if segs.getLast? = some [] then segs else segs.dropLast

/-- Segments without the empty ones between the first and the last. -/
def dropInnerEmpty (segs : List Segment) : List Segment :=
  match segs with
  | [] => []
  | first :: rest =>
    first :: (rest.dropLast.filter (!·.isEmpty) ++ rest.getLast?.toList)

/-- The path that `path` denotes in a document at `base`. -/
def joinPaths (base path : List Char) : List Char :=
  let segs :=
    if path.head? = some '/' then path.splitOn '/'
    else dropInnerEmpty (directorySegments base ++ path.splitOn '/')
  let joined := ['/'].intercalate (removeDots segs)
  if joined.isEmpty then ['/'] else joined

/-- The URL that a reference denotes in a document at `base`, on characters. -/
def joinChars? (base url : List Char) : Option (List Char) :=
  if base.isEmpty then some url
  else if url.isEmpty then some base
  else
    match split? [] base with
    | none => none
    | some b =>
      match split? b.scheme url with
      | none => none
      | some r =>
        if r.scheme ≠ b.scheme || !isRelativeScheme r.scheme then some url
        else if isAuthorityScheme r.scheme && !r.authority.isEmpty then some r.text
        else
          let authority := if isAuthorityScheme r.scheme then b.authority else r.authority
          if r.path.isEmpty && r.params.isEmpty then
            let query := if r.query.isEmpty then b.query else r.query
            some { r with authority, path := b.path, params := b.params, query }.text
          else some { r with authority, path := joinPaths b.path r.path }.text

/-- The URL that a reference denotes in a document at `base`; `none` if one of the two has an
authority that is not acceptable. -/
def join? (base url : String) : Option String :=
  (joinChars? base.toList url.toList).map String.ofList

end ImportAtlas.Url
