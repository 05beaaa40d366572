import ImportAtlas.Source.Lexeme

/-!
# What the analysis of a module records

## Summary

* `ImportRecord` is one place at which a module names another module, or itself.
* `Analysis` is everything that is found in one source, with the fault that ended the analysis
  early if there was one.
-/

namespace ImportAtlas.Source

/-- How a module is named. -/
inductive ImportKind where
  /-- By a declaration. -/
  | static
  /-- By a call whose argument begins at `argument`; `literal` if that is one plain text. -/
  | dynamic (argument : Nat) (literal : Bool)
  /-- Itself, by `import.meta`. -/
  | itself
  deriving DecidableEq, Inhabited

/-- A place at which a module is named. -/
structure ImportRecord where
  /-- The offset of the first character. -/
  start : Nat
  /-- The offset after the last character. -/
  stop : Nat
  /-- How the module is named. -/
  kind : ImportKind
  deriving DecidableEq, Inhabited

namespace ImportRecord

/-- Whether the module is named by a call. -/
def isDynamic (r : ImportRecord) : Bool :=
  match r.kind with
  | .dynamic _ _ => true
  | _ => false

/-- Whether the module names itself. -/
def isItself (r : ImportRecord) : Bool := r.kind = .itself

/-- Whether the record spans a specifier, or could: a call with any other argument does not. -/
def resolvable (r : ImportRecord) : Bool :=
  match r.kind with
  | .dynamic _ literal => literal
  | _ => true

/-- The characters that a record spans. -/
def span (r : ImportRecord) (source : List Char) : List Char :=
  (source.drop r.start).take (r.stop - r.start)

/-- The specifier that a record spans, if it spans one. -/
def specifier? (r : ImportRecord) (source : List Char) : Option String :=
  if r.isItself || !r.resolvable then none else some (String.ofList (r.span source))

end ImportRecord

/-- What is found in a source. -/
structure Analysis where
  /-- The imports in the order in which they begin. -/
  imports : List ImportRecord
  /-- The exported names, in order. -/
  exports : List String
  /-- What ended the analysis before the end of the source. -/
  fault? : Option SyntaxFault
  deriving DecidableEq, Inhabited

namespace Analysis

/-- Whether the whole source was analyzed. -/
def ok (a : Analysis) : Bool := a.fault?.isNone

/-- The specifiers of declarations and of calls with one plain text, in order. -/
def specifiers (a : Analysis) (source : List Char) : List String :=
  a.imports.filterMap (·.specifier? source)

end Analysis

end ImportAtlas.Source
