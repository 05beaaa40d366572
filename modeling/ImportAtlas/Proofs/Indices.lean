import ImportAtlas.Source.Scan

/-!
# Reading a source by its indices

A second reading of module source that keeps indices instead of places: each character is fetched
by its index, tokens are remembered by the index of their last character, and what is open lies on
stacks. Such a program can break down in ways that places rule out. It may fetch a character where
there is none, pop a stack that is empty, or go round a loop for ever; each of these is a `Crash`.

## Summary

* `Checked` is a computation that may end at a fault in the source or break down, and `Lexer` one
  that has a `State` as well.
* `loop` is a loop that breaks down when a round comes no nearer to the end.
* `access` fetches a character, `pop` takes one from a stack.
* `turn` is one round of the scan, and `analyze` the analysis of a whole source.

## Conventions

Indices are integers: the index in front of the source is `-1`, and that of the last character that
has been read is one less than the number of characters that have.
-/

namespace ImportAtlas.Source.Indexed

/-! ### Breaking down -/

/-- A way of breaking down. -/
inductive Crash where
  /-- A character is fetched where there is none. -/
  | outOfBounds (index : Int)
  /-- A stack is popped that holds nothing. -/
  | emptyStack
  /-- A round of a loop comes no nearer to its end. -/
  | stuck
  deriving DecidableEq

/-- What ends a computation early. -/
inductive Abort where
  /-- The source is not accepted. -/
  | fault (f : SyntaxFault)
  /-- The computation breaks down. -/
  | crash (c : Crash)
  deriving DecidableEq

/-- A computation that may end early. -/
abbrev Checked (α : Type) : Type := Except Abort α

/-- Ends at a fault. -/
def fail {α : Type} (index : Int) (cause : SyntaxCause) : Checked α :=
  .error (.fault ⟨index.toNat, cause⟩)

/-- A computation whose faults are caught. It breaks down as before. -/
def attempt {α : Type} : Checked α → Checked (Option α)
  | .ok a => .ok (some a)
  | .error (.fault _) => .ok none
  | .error (.crash c) => .error (.crash c)

/-- How a round of a loop ends. -/
inductive Round (σ ρ : Type) where
  | again (s : σ)
  | done (r : ρ)

/-- Goes on with rounds until one is the last. The rank of the state, which says how far the end may
be, must become smaller with each round. -/
def loop {m : Type → Type} [Monad m] [MonadExceptOf Abort m] {σ ρ : Type} (rank : σ → Nat)
    (round : σ → m (Round σ ρ)) (s : σ) : m ρ := do
  match ← round s with
  | .done r => return r
  | .again s' =>
    if _h : rank s' < rank s then loop rank round s' else throw (.crash .stuck)
termination_by rank s

/-! ### Fetching -/

section
variable (t : List Char)

/-- The character at an index, if there is one. -/
def charAt? (i : Int) : Option Char := if 0 ≤ i then t[i.toNat]? else none

/-- Fetches the character at an index. -/
def access (i : Int) : Checked Char :=
  match charAt? t i with
  | some c => .ok c
  | none => .error (.crash (.outOfBounds i))

/-- The number of characters that an index of a slice leaves in front; a negative one counts from
the end. -/
def bound (i : Int) : Nat := (if i < 0 then i + t.length else i).toNat

/-- The characters from one index as far as another. -/
def slice (i j : Int) : List Char := (t.take (bound t j)).drop (bound t i)

/-- How many characters stand in front of the first occurrence of a pattern. -/
def lengthBefore? (pattern : List Char) : List Char → Option Nat
  | [] => if pattern = [] then some 0 else none
  | c :: cs =>
    if pattern.isPrefixOf (c :: cs) then some 0 else (lengthBefore? pattern cs).map (· + 1)

/-- The index at which a pattern occurs first, from an index on. -/
def find? (pattern : List Char) (i : Int) : Option Int :=
  (lengthBefore? pattern (t.drop (bound t i))).map fun n => ((bound t i + n : Nat) : Int)

/-- How many characters there are from an index on. -/
def left (i : Int) : Nat := (t.length - i).toNat

end

/-- Takes the top of a stack. -/
def pop {α : Type} : List α → Checked (α × List α)
  | a :: stack => .ok (a, stack)
  | [] => .error (.crash .emptyStack)

/-! ### Lexical elements

Each of these takes the index of a first character and gives that of a last one. -/

section
variable (t : List Char)

/-- A round through a line comment. -/
def lineRound (pos : Int) : Checked (Round Int Int) :=
  if t.length ≤ pos + 1 then return .done (t.length - 1)
  else do
    if isLineBreak (← access t (pos + 1)) then return .done (pos + 1)
    else return .again (pos + 1)

/-- A line comment, with its line break if it has one; the second slash stands at the index. -/
def lineComment : Int → Checked Int := loop (left t) (lineRound t)

/-- A block comment; its first star stands at the index. -/
def blockComment (pos : Int) : Checked Int :=
  match find? t "*/".toList (pos + 1) with
  | some stop => return stop + 1
  | none => fail (pos - 1) .unterminatedComment

/-- A round through white space and comments. -/
def triviaRound (pos : Int) : Checked (Round Int Int) :=
  if pos < t.length then do
    let c ← access t pos
    if isSpace c then return .again (pos + 1)
    else if c = '/' then
      if charAt? t (pos + 1) = some '/' then return .again ((← lineComment t (pos + 1)) + 1)
      else if charAt? t (pos + 1) = some '*' then
        return .again ((← blockComment t (pos + 1)) + 1)
      else return .done pos
    else return .done pos
  else return .done pos

/-- The first index that is neither white space nor part of a comment. -/
def skipTrivia : Int → Checked Int := loop (left t) (triviaRound t)

/-- A round through the string that begins at `start`. -/
def stringRound (start : Int) (quote : Char) (pos : Int) : Checked (Round Int Int) :=
  if t.length ≤ pos + 1 then fail start .unterminatedString
  else do
    let c ← access t (pos + 1)
    if c = quote then return .done (pos + 1)
    else if c = '\\' then
      if slice t (pos + 2) (pos + 4) = "\r\n".toList then return .again (pos + 3)
      else return .again (pos + 2)
    else if isLineBreak c then fail start .unterminatedString
    else return .again (pos + 1)

/-- A string. -/
def string (start : Int) : Checked Int := do
  loop (left t) (stringRound t start (← access t start)) start

/-- A round through the piece of a template that begins at `start`. -/
def chunkRound (start pos : Int) : Checked (Round Int (ChunkEnd × Int)) :=
  if t.length ≤ pos + 1 then fail start .unterminatedTemplate
  else do
    let c ← access t (pos + 1)
    if c = '\x60' then return .done (.closed, pos + 1)
    else if c = '\\' then return .again (pos + 2)
    else if c = '$' ∧ charAt? t (pos + 2) = some '\x7b' then
      return .done (.substitution, pos + 2)
    else return .again (pos + 1)

/-- A piece of a template, and how it ends. -/
def chunk (start : Int) : Checked (ChunkEnd × Int) := loop (left t) (chunkRound t start) start

/-- A template, if it has no substitution. -/
def plainTemplate? (start : Int) : Checked (Option Int) := do
  match ← chunk t start with
  | (.closed, stop) => return some stop
  | (.substitution, _) => return none

/-- A round through the class of characters that begins at `start`. -/
def classRound (start pos : Int) : Checked (Round Int Int) :=
  if t.length ≤ pos + 1 then fail start .unterminatedClass
  else do
    let c ← access t (pos + 1)
    if c = ']' then return .done (pos + 1)
    else if c = '\\' then return .again (pos + 2)
    else if isLineBreak c then fail start .unterminatedClass
    else return .again (pos + 1)

/-- A class of characters in a regular expression. -/
def regexClass (start : Int) : Checked Int := loop (left t) (classRound t start) start

/-- A round through the regular expression that begins at `start`. -/
def regexRound (start pos : Int) : Checked (Round Int Int) :=
  if t.length ≤ pos + 1 then fail start .unterminatedRegex
  else do
    let c ← access t (pos + 1)
    if c = '/' then return .done (pos + 1)
    else if c = '[' then return .again (← regexClass t (pos + 1))
    else if c = '\\' then return .again (pos + 2)
    else if isLineBreak c then fail start .unterminatedRegex
    else return .again (pos + 1)

/-- A regular expression. -/
def regex (start : Int) : Checked Int := loop (left t) (regexRound t start) start

/-! ### Words -/

/-- A round back through a keyword. -/
def wordRound (start : Int) : Checked (Round Int Int) :=
  if 0 ≤ start then do
    if isKeywordChar (← access t start) then return .again (start - 1) else return .done start
  else return .done start

/-- The keyword that ends at an index, empty if it is part of a longer name. -/
def wordEndingAt (stop : Int) : Checked (List Char) :=
  if stop < 0 ∨ t.length ≤ stop then return []
  else do
    let start ← loop (fun start => (start + 1).toNat) (wordRound t) stop
    if 0 ≤ start then
      let c ← access t start
      if isSpace c || isPunctuator c then return slice t (start + 1) (stop + 1) else return []
    else return slice t (start + 1) (stop + 1)

/-- A round through an identifier. -/
def identifierRound (stop : Int) : Checked (Round Int Int) :=
  if stop < t.length then do
    if isIdentifierChar (← access t stop) then return .again (stop + 1) else return .done stop
  else return .done stop

/-- The identifier that begins at an index, empty if there is none. -/
def identifierAt (start : Int) : Checked (List Char) := do
  return slice t start (← loop (left t) (identifierRound t) start)

/-- Whether a keyword of six letters that is a word of its own and no property name begins at an
index. -/
def isKeywordAt (keyword : List Char) (start : Int) : Checked Bool := do
  if (← wordEndingAt t (start + 5)) = keyword then
    if charAt? t (start - 1) = some '.' then return false
    else return (← identifierAt t (start + 6)).isEmpty
  else return false

end

/-! ### The state -/

/-- The state between two rounds. -/
structure State where
  /-- The index of the last character that has been read. -/
  index : Int
  /-- The index of the last character of the last token. -/
  lastToken : Int
  /-- That of the token before the bracket that was closed last. -/
  lastOpener : Int
  /-- Those of the tokens before the open brackets, innermost first. -/
  openers : List Int
  /-- The number of open braces. -/
  braces : Int
  /-- The number of open braces in the innermost open substitution, or `-1`. -/
  template : Int
  /-- What `template` was before each open substitution, innermost first. -/
  templates : List Int
  /-- The imports found so far. -/
  imports : List ImportRecord
  /-- The exported names found so far. -/
  exports : List String
  deriving DecidableEq

/-- The state in front of a source. -/
def State.start : State := ⟨-1, -1, -1, [], 0, -1, [], [], []⟩

/-- A computation with a state. What has been found stays when it ends early. -/
abbrev Lexer (α : Type) : Type := ExceptT Abort (StateM State) α

/-- What a computation gives in a state, and the state behind it. -/
def perform {α : Type} (m : Lexer α) (st : State) : Checked α × State := (m.run.run st).run

/-- Sets the index. -/
def moveTo (i : Int) : Lexer Unit := modify fun st => { st with index := i }

/-- Adds an import. -/
def addImport (r : ImportRecord) : Lexer Unit :=
  modify fun st => { st with imports := st.imports ++ [r] }

/-- Adds an exported name. -/
def addExport (name : String) : Lexer Unit :=
  modify fun st => { st with exports := st.exports ++ [name] }

section
variable (t : List Char)

/-! ### Imports -/

/-- A round through the bindings of a declaration. -/
def clauseRound (pos : Int) : Checked (Round Int Int) :=
  if pos < t.length then do
    let pos ← skipTrivia t pos
    if (charAt? t pos).any isQuote then return .again ((← string t pos) + 1)
    else
      let word ← identifierAt t pos
      if word = [] then return .again (pos + 1)
      else if word = "from".toList then
        let behind ← skipTrivia t (pos + word.length)
        if (charAt? t behind).any isQuote then return .done behind
        else return .again (pos + word.length)
      else return .again (pos + word.length)
  else fail pos .expectedSpecifier

/-- The index of the specifier after the `from` that ends the bindings of a declaration. -/
def importClause : Int → Checked Int := loop (left t) (clauseRound t)

/-- A round on the way to a string. -/
def specifierRound (pos : Int) : Checked (Round Int (ImportRecord × Int)) :=
  if pos < t.length then do
    let c ← access t pos
    if isQuote c then
      let stop ← string t pos
      return .done (⟨(pos + 1).toNat, stop.toNat, .static⟩, stop)
    else if c = '/' ∧ (charAt? t (pos + 1) = some '/' ∨ charAt? t (pos + 1) = some '*') then
      return .again (← skipTrivia t pos)
    else return .again (pos + 1)
  else fail pos .expectedSpecifier

/-- The record of the first string from an index on, and the index of its last character. -/
def firstString : Int → Checked (ImportRecord × Int) := loop (left t) (specifierRound t)

/-- Adds the import of the first string from an index on. -/
def sourceString (pos : Int) : Lexer Unit := do
  let (record, stop) ← firstString t pos
  addImport record
  moveTo stop

/-- The string or the template without substitution that begins at an index, if one does. -/
def literal? (start : Int) : Checked (Option Int) :=
  if (charAt? t start).any isQuote then do return some (← string t start)
  else if charAt? t start = some '\x60' then plainTemplate? t start
  else return none

/-- The indices of the first and the last character of the plain text that is all there is between
parentheses, if that is so; the opening one stands at the index. -/
def plainArgument? (paren : Int) : Checked (Option (Int × Int)) := do
  let first ← skipTrivia t (paren + 1)
  match ← literal? t first with
  | none => return none
  | some stop =>
    if charAt? t (← skipTrivia t (stop + 1)) = some ')' then return some (first, stop)
    else return none

/-- The record of a call that begins at an index, with its opening parenthesis at another. -/
def dynamicImport (start paren : Int) : Checked ImportRecord := do
  match (← attempt (plainArgument? t paren)).join with
  | some (first, stop) =>
    return ⟨(first + 1).toNat, stop.toNat, .dynamic (paren + 1).toNat true⟩
  | none => return ⟨start.toNat, (start + 6).toNat, .dynamic (paren + 1).toNat false⟩

/-- What is done at an `i`. -/
def importStatement : Lexer Unit := do
  let start := (← get).index
  if ← isKeywordAt t "import".toList start then
    let pos ← skipTrivia t (start + 6)
    if charAt? t pos = some '(' then
      modify fun st => { st with openers := (start + 5) :: st.openers }
      addImport (← dynamicImport t start pos)
      moveTo pos
    else if charAt? t pos = some '.' then
      let behind ← skipTrivia t (pos + 1)
      if (← identifierAt t behind) = "meta".toList then
        addImport ⟨start.toNat, (behind + 4).toNat, .itself⟩
        moveTo (behind + 3)
      else moveTo pos
    else if (← get).openers = [] then
      if (charAt? t pos).any isQuote then sourceString t pos
      else sourceString t (← importClause t pos)
    else moveTo (start + 5)

/-! ### Exports -/

/-- A declared function or class, whose name begins at an index if it has one. -/
def exportDeclared (pos : Int) : Lexer Unit := do
  let name ← identifierAt t pos
  if name = [] then moveTo (pos - 1)
  else
    addExport (String.ofList name)
    moveTo (pos + name.length - 1)

/-- Whether an operand follows the token that ends at an index, so that a slash opens a regular
expression. -/
def expectsOperand (last : Int) : Checked Bool := do
  let c ← access t last
  if isPunctuator c then return !(c == ')' || c == ']' || c == '\x7d')
  else return expressionKeywords.contains (← wordEndingAt t last)

/-- A state in an initializer: the index, the number of open brackets and the index of the last
character that was not white space. -/
structure InitializerState where
  index : Int
  depth : Nat
  last : Int

/-- One round through an initializer. -/
def initializerRound (s : InitializerState) : Checked (Round InitializerState (Option Int)) :=
  if s.index < t.length then do
    let c ← access t s.index
    let goOn (depth : Nat) (pos : Int) : Round InitializerState (Option Int) :=
      .again ⟨pos + 1, depth, if isSpace c then s.last else pos⟩
    if c == '(' || c == '[' || c == '\x7b' then return goOn (s.depth + 1) s.index
    else if c == ')' || c == ']' || c == '\x7d' then
      if s.depth = 0 then return .done none else return goOn (s.depth - 1) s.index
    else if isQuote c then return goOn s.depth (← string t s.index)
    else if c = '\x60' then
      match ← plainTemplate? t s.index with
      | some stop => return goOn s.depth stop
      | none => return .done none
    else if c = '/' ∧
        (charAt? t (s.index + 1) = some '/' ∨ charAt? t (s.index + 1) = some '*') then
      return .again ⟨← skipTrivia t s.index, s.depth, s.last⟩
    else if ← (if c = '/' then expectsOperand t s.last else pure false) then
      return goOn s.depth (← regex t s.index)
    else if s.depth = 0 then
      if c = ',' then return .done (some s.index)
      else if c = ';' then return .done none
      else if isLineBreak c then
        if (charAt? t (← skipTrivia t s.index)).any isPunctuator then return goOn s.depth s.index
        else return .done none
      else return goOn s.depth s.index
    else return goOn s.depth s.index
  else return .done none

/-- The index of the comma that ends an initializer, from a state in it, if one is found. -/
def initializerEnd? (s : InitializerState) : Checked (Option Int) := do
  return (← attempt (loop (fun s => left t s.index) (initializerRound t) s)).join

/-- The index behind a declared name and its initializer, if that can be told. -/
def declaratorEnd? (pos : Int) : Checked (Option Int) :=
  if charAt? t pos = some '=' then initializerEnd? t ⟨pos + 1, 0, pos⟩ else return some pos

/-- A round through the names of a declaration. -/
def declaredRound (pos : Int) : Lexer (Round Int Unit) := do
  let pos ← skipTrivia t pos
  let name ← identifierAt t pos
  if name = [] then return .done ()
  else
    addExport (String.ofList name)
    match ← declaratorEnd? t (← skipTrivia t (pos + name.length)) with
    | none => return .done ()
    | some comma =>
      if charAt? t comma = some ',' then return .again (comma + 1) else return .done ()

/-- Adds the names that a declaration gives. -/
def declaredNames : Int → Lexer Unit := loop (left t) (declaredRound t)

/-- An exported name, which may be a string, and the index behind it. -/
def exportName (pos : Int) : Checked (String × Int) :=
  if (charAt? t pos).any isQuote then do
    let stop ← string t pos
    return (String.ofList (slice t (pos + 1) stop), stop + 1)
  else do
    let name ← identifierAt t pos
    if name = [] then fail pos .expectedExportName
    else return (String.ofList name, pos + name.length)

/-- An exported name with the name that `as` gives it in its place, and the index behind both and
the white space that follows. -/
def renamedExport (pos : Int) : Checked (String × Int) := do
  let (name, pos) ← exportName t pos
  let pos ← skipTrivia t pos
  if (← identifierAt t pos) = "as".toList then
    let (renamed, pos) ← exportName t (← skipTrivia t (pos + 2))
    return (renamed, ← skipTrivia t pos)
  else return (name, pos)

/-- A round through the names of a list. -/
def exportedRound (pos : Int) : Lexer (Round Int Int) := do
  if charAt? t pos = some '\x7d' then return .done pos
  else
    let (name, pos) ← renamedExport t pos
    addExport name
    if charAt? t pos = some ',' then return .again (← skipTrivia t (pos + 1))
    else if charAt? t pos = some '\x7d' then return .again pos
    else fail pos .unexpectedInExports

/-- Adds the names of a list, and gives the index of its closing brace. -/
def exportedNames : Int → Lexer Int := loop (left t) (exportedRound t)

/-- Adds the import of the first string behind a `from` at an index; if there is none, the scan goes
on behind another index. -/
def exportsFrom (next pos : Int) : Lexer Unit := do
  if (← identifierAt t pos) = "from".toList then sourceString t (← skipTrivia t (pos + 4))
  else moveTo next

/-- A list in braces. -/
def exportList (pos : Int) : Lexer Unit := do
  let close ← exportedNames t (← skipTrivia t (pos + 1))
  exportsFrom t close (← skipTrivia t (close + 1))

/-- A star, with an optional name for all that the other module exports. -/
def exportStar (pos : Int) : Lexer Unit := do
  let pos ← skipTrivia t (pos + 1)
  if (← identifierAt t pos) = "as".toList then
    let (name, pos) ← exportName t (← skipTrivia t (pos + 2))
    addExport name
    let pos ← skipTrivia t pos
    exportsFrom t (pos - 1) pos
  else exportsFrom t (pos - 1) pos

/-- What is exported by the statement at `start`; `first` is the character that follows its keyword,
and the words `export` and `async` have been read. -/
def exportedItem (start : Int) (first : Option Char) (pos : Int) : Lexer Unit := do
  let word ← identifierAt t pos
  if word = "function".toList then
    let pos ← skipTrivia t (pos + word.length)
    if charAt? t pos = some '*' then exportDeclared t (← skipTrivia t (pos + 1))
    else exportDeclared t pos
  else if word = "class".toList then exportDeclared t (← skipTrivia t (pos + word.length))
  else if word = "var".toList ∨ word = "let".toList ∨ word = "const".toList then
    declaredNames t (pos + word.length)
    moveTo (pos + word.length - 1)
  else if first = some '\x7b' then exportList t pos
  else if first = some '*' then exportStar t pos
  else moveTo (start + 5)

/-- What is done at an `e`. -/
def exportStatement : Lexer Unit := do
  let start := (← get).index
  if (← get).openers ≠ [] then return
  else if ← isKeywordAt t "export".toList start then
    let pos ← skipTrivia t (start + 6)
    let word ← identifierAt t pos
    if word = "default".toList then
      addExport "default"
      moveTo (pos + word.length - 1)
    else if word = "async".toList then
      exportedItem t start (charAt? t pos) (← skipTrivia t (pos + word.length))
    else exportedItem t start (charAt? t pos) pos

/-! ### The scan -/

/-- Whether a brace that was opened after a token held statements rather than an object. -/
def heldStatements (opener : Int) : Checked Bool :=
  if opener < 0 then return true
  else do
    let c ← access t opener
    if c = ';' ∨ c = ')' then return true
    else if c = 'y' then return (← wordEndingAt t opener) == "finally".toList
    else return false

/-- Whether a slash opens a regular expression. -/
def regexAllowed (st : State) : Checked Bool :=
  if st.lastToken < 0 then return true
  else do
    let c ← access t st.lastToken
    if isPunctuator c then
      if c = ')' then return conditionKeywords.contains (← wordEndingAt t st.lastOpener)
      else if c = '\x7d' then heldStatements t st.lastOpener
      else return c != ']'
    else return expressionKeywords.contains (← wordEndingAt t st.lastToken)

/-- Opens a bracket. -/
def openBracket : Lexer Unit := modify fun st => { st with openers := st.lastToken :: st.openers }

/-- Closes the innermost bracket. -/
def closeBracket : Lexer Unit := do
  let st ← get
  if st.openers = [] then
    let c ← access t st.index
    fail (α := Unit) st.index (.unexpectedCloser c)
  else
    let (opener, openers) ← pop st.openers
    set { st with openers, lastOpener := opener }

/-- Reads a piece of a template. -/
def template : Lexer Unit := do
  match ← chunk t (← get).index with
  | (.closed, stop) => moveTo stop
  | (.substitution, stop) =>
    modify fun st => { st with
      templates := st.template :: st.templates, braces := st.braces + 1, template := st.braces + 1 }
    moveTo stop

/-- Closes a brace or a substitution. -/
def closeBrace : Lexer Unit := do
  let st ← get
  if st.braces = st.template then
    let (before, templates) ← pop st.templates
    set { st with braces := st.braces - 1, template := before, templates }
    template t
  else
    modify fun st => { st with braces := st.braces - 1 }
    if st.braces - 1 < 0 ∨ st.braces - 1 < st.template then
      fail (α := Unit) st.index (.unexpectedCloser '\x7d')
    else closeBracket t

/-- Reads the token that begins with a character. -/
def readToken (c : Char) : Lexer Unit := do
  if c = '\x7b' then
    modify fun st => { st with braces := st.braces + 1 }
    openBracket
  else if c = '(' then openBracket
  else if c = '\x7d' then closeBrace t
  else if c = ')' then closeBracket t
  else if isQuote c then moveTo (← string t (← get).index)
  else if c = '\x60' then template t
  else if c = 'i' then importStatement t
  else if c = 'e' then exportStatement t

/-- Marks the end of a token. -/
def markToken : Lexer Unit := modify fun st => { st with lastToken := st.index }

/-- Reads the comment, the regular expression or the division that begins with the slash at an
index. -/
def readSlash (i : Int) : Lexer Unit := do
  if charAt? t (i + 1) = some '/' then moveTo (← lineComment t (i + 1))
  else if charAt? t (i + 1) = some '*' then moveTo (← blockComment t (i + 1))
  else if ← regexAllowed t (← get) then
    moveTo (← regex t i)
    markToken
  else markToken

/-- Reads the character of white space, the comment or the token that begins at an index. -/
def readAt (i : Int) : Lexer (Round Int Unit) :=
  if t.length ≤ i then return .done ()
  else do
    let c ← access t i
    if isSpace c then return .again i
    else if c = '/' then
      readSlash t i
      return .again (← get).index
    else
      readToken t c
      markToken
      return .again (← get).index

/-- One round of the scan. -/
def turn : Lexer (Round Int Unit) := do
  modify fun st => { st with index := st.index + 1 }
  readAt t (← get).index

/-- Reads tokens until the source ends; then every bracket and template must be closed. -/
def run : Lexer Unit := do
  loop (left t) (fun _ => turn t) (-1)
  let st ← get
  if st.braces ≠ 0 ∨ st.template ≠ -1 ∨ st.openers ≠ [] then
    fail (α := Unit) t.length .unbalanced

end

/-- The analysis that a computation comes to, unless it breaks down. -/
def verdict : Checked Unit × State → Except Crash Analysis
  | (.ok (), st) => .ok ⟨st.imports, st.exports, none⟩
  | (.error (.fault f), st) => .ok ⟨st.imports, st.exports, some f⟩
  | (.error (.crash c), _) => .error c

/-- The imports and exports of a source, unless the analysis breaks down. -/
def analyze (source : List Char) : Except Crash Analysis := verdict (perform (run source) .start)

end ImportAtlas.Source.Indexed
