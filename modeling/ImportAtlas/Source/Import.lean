import ImportAtlas.Source.Cursor
import ImportAtlas.Source.Record

/-!
# Imports in module source

What follows the keyword `import`: a declaration, a call or `import.meta`.

## Summary

* `sourceString` finds the specifier of a declaration.
* `importClause` finds the `from` that ends the bindings of a declaration.
* `dynamicImport` looks ahead at the argument of a call.
* `importStatement` is what the scan does at the keyword.
-/

namespace ImportAtlas.Source

/-- What a statement adds to the analysis, and where the scan goes on. -/
structure Statement where
  /-- The imports that it holds. -/
  imports : List ImportRecord
  /-- The names that it exports. -/
  exports : List String
  /-- The text up to a token after which a bracket was opened. -/
  opener? : Option Past
  /-- The place after it, or the fault in it. -/
  next : Except SyntaxFault Cursor

namespace Statement

/-- A statement that adds nothing. -/
def plain (next : Except SyntaxFault Cursor) : Statement := ⟨[], [], none, next⟩

end Statement

/-- The record of the specifier whose first quote comes next, and the place after it. -/
def staticImport (c : Cursor) : Except SyntaxFault (ImportRecord × Cursor) :=
  c.skipString.map fun d => (⟨c.offset + 1, d.offset - 1, .static⟩, d)

/-- The record of the first string ahead, and the place after it. -/
def sourceString (c : Cursor) : Except SyntaxFault (ImportRecord × Cursor) :=
  if c.rest = [] then .error (c.fault .expectedSpecifier)
  else if c.atQuote then staticImport c
  else if startsComment c.rest then
    match _h : c.skipTrivia with
    | .ok d => sourceString d
    | .error f => .error f
  else sourceString (c.advance 1)
termination_by c.size
decreasing_by
  · exact Cursor.size_skipTrivia_lt ‹_› _h
  · exact Cursor.size_advance_lt Nat.one_pos ‹_›

/-- The place of the specifier after the `from` that ends the bindings of a declaration. -/
def importClause (c : Cursor) : Except SyntaxFault Cursor :=
  if c.rest = [] then .error (c.fault .expectedSpecifier)
  else match _h : c.skipTrivia with
    | .error f => .error f
    | .ok d =>
      if hd : d.rest = [] then .error ⟨d.offset + 1, .expectedSpecifier⟩
      else if d.atQuote then
        -- names of bindings may be strings
        match _hs : d.skipString with
        | .error f => .error f
        | .ok e => importClause e
      else if _hw : d.identifier = [] then importClause (d.advance 1)
      else
        let e := d.advance d.identifier.length
        if d.identifier = "from".toList then
          match e.skipTrivia with
          | .error f => .error f
          | .ok specifier => if specifier.atQuote then .ok specifier else importClause e
        else importClause e
termination_by c.size
decreasing_by
  · exact Nat.lt_of_lt_of_le (Cursor.size_skipString_lt _hs) (Cursor.size_skipTrivia_le _h)
  · exact Nat.lt_of_lt_of_le (Cursor.size_advance_lt Nat.one_pos hd) (Cursor.size_skipTrivia_le _h)
  · exact Nat.lt_of_lt_of_le (Cursor.size_advance_identifier_lt _hw) (Cursor.size_skipTrivia_le _h)
  · exact Nat.lt_of_lt_of_le (Cursor.size_advance_identifier_lt _hw) (Cursor.size_skipTrivia_le _h)

/-- The places before and after the one plain text between the parentheses of a call, if there
is nothing else between them; the opening one has been read. -/
def plainArgument? (c : Cursor) : Option (Cursor × Cursor) :=
  match c.skipTrivia with
  | .error _ => none
  | .ok first =>
    let after? : Option Cursor :=
      if first.atQuote then first.skipString.toOption
      else if first.peek? = some '\x60' then first.skipPlainTemplate?
      else none
    match after? with
    | none => none
    | some after =>
      match after.skipTrivia with
      | .ok close => if close.peek? = some ')' then some (first, after) else none
      | .error _ => none

/-- The record of a call that begins at `start`; its opening parenthesis has been read. A fault in
the argument is left to the scan, which comes to the same text later. -/
def dynamicImport (start argument : Cursor) : ImportRecord :=
  match plainArgument? argument with
  | some (first, after) =>
    ⟨first.offset + 1, after.offset - 1, .dynamic argument.offset true⟩
  | none => ⟨start.offset, start.offset + 6, .dynamic argument.offset false⟩

/-- What the scan does at an `i`. Declarations count outside brackets only. -/
def importStatement (bracketed : Bool) (c : Cursor) : Statement :=
  if !c.atKeyword "import".toList then .plain (.ok (c.advance 1))
  else
    match (c.advance 6).skipTrivia with
    | .error f => .plain (.error f)
    | .ok d =>
      if d.peek? = some '(' then
        ⟨[dynamicImport c (d.advance 1)], [], some (c.advance 6).past, .ok (d.advance 1)⟩
      else if d.peek? = some '.' then
        match (d.advance 1).skipTrivia with
        | .error f => .plain (.error f)
        | .ok e =>
          if e.identifier = "meta".toList then
            ⟨[⟨c.offset, e.offset + 4, .itself⟩], [], none, .ok (e.advance 4)⟩
          else .plain (.ok (d.advance 1))
      else if bracketed then .plain (.ok (c.advance 6))
      else
        match if d.atQuote then .ok d else importClause d with
        | .error f => .plain (.error f)
        | .ok specifier =>
          match sourceString specifier with
          | .error f => .plain (.error f)
          | .ok (record, e) => ⟨[record], [], none, .ok e⟩

end ImportAtlas.Source
