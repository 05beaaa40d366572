import ImportAtlas.Toml.Scalar
import ImportAtlas.Toml.Table

/-!
# Reading TOML

The reader accepts the documents of TOML 1.0.

## Conventions

Every reader takes the characters that are left and returns what it read with the characters
after it, or `none` when the text is not TOML. Values nest, and lines follow each other, so their
readers carry a budget; `Toml.parse?` starts with the number of characters.
-/

namespace ImportAtlas.Toml

/-! ### Comments -/

/-- The text after a comment, if one comes next; a comment holds no control character. -/
def skipComment? (cs : List Char) : Option (List Char) :=
  match cs with
  | '#' :: rest =>
    if (rest.takeWhile (· ≠ '\n')).any isControl then none
    else some (rest.dropWhile (· ≠ '\n'))
  | _ => some cs

/-- The text after space, line ends and comments. -/
def skipLines? : Nat → List Char → Option (List Char)
  | 0, cs => some cs
  | budget + 1, cs =>
    match cs.dropWhile isSpaceOrNewline with
    | '#' :: rest => (skipComment? ('#' :: rest)).bind (skipLines? budget)
    | cs => some cs

/-! ### Keys -/

/-- The characters of keys without quotes. -/
def isBareKeyChar (c : Char) : Bool := c.isAlphanum || c == '-' || c == '_'

/-- One part of a key. -/
def keyPart? (cs : List Char) : Option (String × List Char) :=
  if cs.head?.any isBareKeyChar then
    some (String.ofList (cs.takeWhile isBareKeyChar), cs.dropWhile isBareKeyChar)
  else (lineString? cs).map fun (s, r) => (String.ofList s, r)

/-- A key: parts between dots, with space around each. -/
def key? : Nat → List Char → Option (Key × List Char)
  | 0, _ => none
  | budget + 1, cs =>
    match keyPart? cs with
    | none => none
    | some (part, rest) =>
      match skipSpace rest with
      | '.' :: rest => (key? budget (skipSpace rest)).map fun (key, r) => (part :: key, r)
      | rest => some ([part], rest)

/-! ### Values -/

/-- A value that holds no other. -/
def scalar? (cs : List Char) : Option (Value × List Char) :=
  if cs.head? = some '"' || cs.head? = some '\'' then
    (string? cs).map fun (s, r) => (.string (String.ofList s), r)
  else if "true".toList.isPrefixOf cs then some (.bool true, cs.drop 4)
  else if "false".toList.isPrefixOf cs then some (.bool false, cs.drop 5)
  else match moment? cs with
    | some found => found.map fun (m, r) => (.moment m, r)
    | none => number? cs

mutual

/-- A value at the front of the text. -/
def value? : Nat → List Char → Option (Value × List Char)
  | 0, _ => none
  | budget + 1, cs =>
    match cs with
    | '[' :: rest => (items? budget rest).map fun (vs, r) => (.array vs, r)
    | '\x7b' :: rest =>
      match skipSpace rest with
      | '\x7d' :: r => some (.object [], r)
      | r => (inlineFields? budget [] [] r).map fun (fs, r) => (.object fs, r)
    | _ => scalar? cs

/-- The items of an array, as far as its closing bracket. -/
def items? : Nat → List Char → Option (List Value × List Char)
  | 0, _ => none
  | budget + 1, cs =>
    match skipLines? cs.length cs with
    | none => none
    | some (']' :: rest) => some ([], rest)
    | some cs =>
      match value? budget cs with
      | none => none
      | some (v, rest) =>
        match skipLines? rest.length rest with
        | some (']' :: rest) => some ([v], rest)
        | some (',' :: rest) => (items? budget rest).map fun (vs, r) => (v :: vs, r)
        | _ => none

/-- The fields of a table on one line, as far as its closing brace; `fields` are those before, and
`frozen` the keys of those among them that hold values. -/
def inlineFields? : Nat → Fields → List Key → List Char → Option (Fields × List Char)
  | 0, _, _, _ => none
  | budget + 1, fields, frozen, cs =>
    match key? cs.length cs with
    | some (key, '=' :: rest) =>
      match value? budget (skipSpace rest) with
      | none => none
      | some (v, rest) =>
        if frozen.any (·.isPrefixOf key) then none
        else
          let (parent, name) := splitKey key
          match updateTable? false (addField? name v) parent fields with
          | none => none
          | some fields =>
            match skipSpace rest with
            | '\x7d' :: rest => some (fields, rest)
            | ',' :: rest =>
              inlineFields? budget fields (if isContainer v then key :: frozen else frozen)
                (skipSpace rest)
            | _ => none
    | _ => none

end

/-! ### Documents -/

/-- One line that sets a value or opens a table, and the text after it. -/
def statement? (t : Tables) (cs : List Char) : Option (Tables × List Char) :=
  match cs with
  | '[' :: '[' :: rest =>
    match key? cs.length (skipSpace rest) with
    | some (key, ']' :: ']' :: rest) => (t.openItem? key).map (·, rest)
    | _ => none
  | '[' :: rest =>
    match key? cs.length (skipSpace rest) with
    | some (key, ']' :: rest) => (t.openTable? key).map (·, rest)
    | _ => none
  | _ =>
    match key? cs.length cs with
    | some (key, '=' :: rest) =>
      match value? (cs.length + 1) (skipSpace rest) with
      | some (v, rest) => (t.setValue? key v).map (·, rest)
      | none => none
    | _ => none

/-- The rest of a document. -/
def lines? : Nat → Tables → List Char → Option Tables
  | 0, t, cs => if cs.isEmpty then some t else none
  | budget + 1, t, cs =>
    match skipSpace cs with
    | [] => some t
    | '\n' :: rest => lines? budget t rest
    | cs =>
      let stated := if cs.head? = some '#' then some (t, cs) else statement? t cs
      match stated with
      | none => none
      | some (t, rest) =>
        match skipComment? (skipSpace rest) with
        | some [] => some t
        | some ('\n' :: rest) => lines? budget t rest
        | _ => none

/-- A text with both characters of a line end made one. -/
def joinLineEnds : List Char → List Char
  | '\r' :: '\n' :: rest => '\n' :: joinLineEnds rest
  | c :: rest => c :: joinLineEnds rest
  | [] => []

/-- The fields of a TOML document. -/
def parse? (text : String) : Option Fields :=
  let cs := joinLineEnds text.toList
  (lines? (cs.length + 1) .empty cs).map (·.root)

end ImportAtlas.Toml
