import Mathlib.Data.List.Basic
import ImportAtlas.Source.Record

/-!
# Productions of module source

The statements by which modules name each other and export names, as lists of tokens. A source
spells a list of tokens when white space and complete comments stand between them, at least where
two words would run together.

## Summary

* `Filler` and `Gap` are what may stand between tokens.
* `Word`, `Quoted` and `Template` are the words and literals; `Token` is any token.
* `Production` is a statement, `Production.tokens` its tokens, `Production.names` what it exports,
  and `Production.specifier?` the module that it names.
* `Layout` spells a list of tokens. `Layout.text` is the source and `Layout.records` tells where
  the specifiers stand in it.

## Conventions

The words of the grammar are all runs of identifier characters. This includes every identifier
whose characters are written out.
-/

namespace ImportAtlas.Source

/-! ### Between tokens -/

/-- White space or a complete comment. -/
inductive Filler where
  /-- A character of white space. -/
  | space (c : Char) (isSpace_eq : isSpace c = true)
  /-- A comment as far as the end of its line. -/
  | line (content : List Char) (stop : Char) (sameLine : ∀ c ∈ content, isLineBreak c = false)
      (isLineBreak_eq : isLineBreak stop = true)
  /-- A comment between marks. -/
  | block (content : List Char) (unclosed : ¬ ['*', '/'] <:+: content)

/-- The characters of a filler. -/
def Filler.text : Filler → List Char
  | .space c _ => [c]
  | .line content stop _ _ => '/' :: '/' :: content ++ [stop]
  | .block content _ => '/' :: '*' :: content ++ ['*', '/']

/-- What stands in front of a token, perhaps nothing. -/
abbrev Gap := List Filler

/-- The characters of a gap. -/
def Gap.text (gap : Gap) : List Char := gap.flatMap Filler.text

/-! ### Tokens -/

/-- A run of identifier characters. -/
structure Word where
  /-- The characters. -/
  chars : List Char
  /-- There is at least one. -/
  chars_ne_nil : chars ≠ []
  /-- All of them may be part of an identifier. -/
  isIdentifierChar_eq : ∀ c ∈ chars, isIdentifierChar c = true

/-- A word as a name. -/
def Word.name (w : Word) : String := String.ofList w.chars

/-- A word that begins no statement of a module. Every identifier that is not reserved is one. -/
structure Identifier extends Word where
  /-- It is not the word that begins an import. -/
  ne_import : chars ≠ "import".toList
  /-- It is not the word that begins an export. -/
  ne_export : chars ≠ "export".toList

/-- A string without escapes. -/
structure Quoted where
  /-- The quote at both ends. -/
  quote : Char
  /-- It is a quote. -/
  isQuote_eq : isQuote quote = true
  /-- The characters in between. -/
  content : List Char
  /-- None of them ends the string, escapes another one or ends the line. -/
  plain : ∀ c ∈ content, c ≠ quote ∧ c ≠ '\\' ∧ isLineBreak c = false

/-- The characters of a string. -/
def Quoted.text (q : Quoted) : List Char := q.quote :: q.content ++ [q.quote]

/-- What a string stands for. -/
def Quoted.value (q : Quoted) : String := String.ofList q.content

/-- The content of a template without substitutions. A backslash escapes any character. -/
inductive IsTemplateContent : List Char → Prop where
  | nil : IsTemplateContent []
  | char {c : Char} {content : List Char} (ne_backtick : c ≠ '\x60') (ne_backslash : c ≠ '\\')
      (ne_substitution : c = '$' → content.head? ≠ some '\x7b')
      (tail : IsTemplateContent content) : IsTemplateContent (c :: content)
  | escape {c : Char} {content : List Char} (tail : IsTemplateContent content) :
      IsTemplateContent ('\\' :: c :: content)

/-- A template without substitutions. -/
structure Template where
  /-- The characters between the backticks. -/
  content : List Char
  /-- No substitution begins in it, and it ends before its last backtick. -/
  isTemplateContent : IsTemplateContent content

/-- The characters of a template. -/
def Template.text (t : Template) : List Char := '\x60' :: t.content ++ ['\x60']

/-- A literal text. -/
inductive Literal where
  | string (q : Quoted)
  | template (t : Template)

/-- The characters of a literal. -/
def Literal.text : Literal → List Char
  | .string q => q.text
  | .template t => t.text

/-- A character of punctuation that the productions use. -/
inductive Mark where
  | star
  | comma
  | equals
  | semicolon
  | openParen
  | closeParen
  | openBrace
  | closeBrace
  deriving DecidableEq

/-- The character of a mark. -/
def Mark.char : Mark → Char
  | .star => '*'
  | .comma => ','
  | .equals => '='
  | .semicolon => ';'
  | .openParen => '('
  | .closeParen => ')'
  | .openBrace => '\x7b'
  | .closeBrace => '\x7d'

/-- A token of a production. -/
inductive Token where
  /-- A keyword or a name. -/
  | word (w : Word)
  /-- Punctuation. -/
  | mark (m : Mark)
  /-- A literal that names no module. -/
  | literal (l : Literal)
  /-- The specifier of a declaration. -/
  | source (q : Quoted)
  /-- The specifier of a call; its opening parenthesis is the token before. -/
  | argument (q : Quoted)

namespace Token

/-- The characters of a token. -/
def text : Token → List Char
  | .word w => w.chars
  | .mark m => [m.char]
  | .literal l => l.text
  | .source q => q.text
  | .argument q => q.text

/-- Whether a token runs together with a word. -/
def isWord : Token → Bool
  | .word _ => true
  | _ => false

/-- The module that a token names. -/
def specifier? : Token → Option String
  | .source q => some q.value
  | .argument q => some q.value
  | _ => none

@[simp] theorem specifier?_word (w : Word) : (Token.word w).specifier? = none := rfl

@[simp] theorem specifier?_mark (m : Mark) : (Token.mark m).specifier? = none := rfl

@[simp] theorem specifier?_literal (l : Literal) : (Token.literal l).specifier? = none := rfl

@[simp] theorem specifier?_source (q : Quoted) :
    (Token.source q).specifier? = some q.value := rfl

@[simp] theorem specifier?_argument (q : Quoted) :
    (Token.argument q).specifier? = some q.value := rfl

end Token

/-! ### Words of the grammar -/

/-- The word that begins an import. -/
def importWord : Word := ⟨"import".toList, by decide, List.all_eq_true.1 rfl⟩

/-- The word that begins an export. -/
def exportWord : Word := ⟨"export".toList, by decide, List.all_eq_true.1 rfl⟩

/-- The word in front of a specifier. -/
def fromWord : Word := ⟨"from".toList, by decide, List.all_eq_true.1 rfl⟩

/-- The word in front of a new name. -/
def asWord : Word := ⟨"as".toList, by decide, List.all_eq_true.1 rfl⟩

/-- The word of the export without name. -/
def defaultWord : Word := ⟨"default".toList, by decide, List.all_eq_true.1 rfl⟩

/-- The word of a function that may wait. -/
def asyncWord : Word := ⟨"async".toList, by decide, List.all_eq_true.1 rfl⟩

/-- The word of a function. -/
def functionWord : Word := ⟨"function".toList, by decide, List.all_eq_true.1 rfl⟩

/-- The word of a class. -/
def classWord : Word := ⟨"class".toList, by decide, List.all_eq_true.1 rfl⟩

/-- How variables are declared. -/
inductive VariableKind where
  | var
  | block
  | constant

/-- The word that declares variables. -/
def VariableKind.word : VariableKind → Word
  | .var => ⟨"var".toList, by decide, List.all_eq_true.1 rfl⟩
  | .block => ⟨"let".toList, by decide, List.all_eq_true.1 rfl⟩
  | .constant => ⟨"const".toList, by decide, List.all_eq_true.1 rfl⟩

/-! ### Productions -/

/-- A name of another module's export, which may be a string. -/
inductive ExternalName where
  | word (w : Word)
  | string (q : Quoted)

namespace ExternalName

/-- The token of a name. -/
def token : ExternalName → Token
  | .word w => .word w
  | .string q => .literal (.string q)

/-- The name itself. -/
def name : ExternalName → String
  | .word w => w.name
  | .string q => q.value

@[simp] theorem specifier?_token (n : ExternalName) : n.token.specifier? = none := by
  cases n <;> rfl

end ExternalName

/-- A name in a list, perhaps with a new name. -/
structure ListedName where
  /-- The name. -/
  name : ExternalName
  /-- The name in its place. -/
  as? : Option ExternalName

namespace ListedName

/-- The tokens of a name in a list. -/
def tokens (n : ListedName) : List Token :=
  match n.as? with
  | none => [n.name.token]
  | some renamed => [n.name.token, .word asWord, renamed.token]

/-- The name that counts outside. -/
def exported (n : ListedName) : String := (n.as?.getD n.name).name

end ListedName

/-- Names between braces. -/
structure NameList where
  /-- The names. -/
  names : List ListedName
  /-- Whether a comma follows the last name. -/
  trailingComma : Bool

namespace NameList

/-- The tokens of names with commas between them. -/
def nameTokens (trailingComma : Bool) : List ListedName → List Token
  | [] => []
  | [n] => n.tokens ++ if trailingComma then [.mark .comma] else []
  | n :: more => n.tokens ++ .mark .comma :: nameTokens trailingComma more

/-- A comma follows a name of a list, unless the name is the last one. -/
theorem nameTokens_cons (trailingComma : Bool) (n : ListedName) (names : List ListedName) :
    nameTokens trailingComma (n :: names) =
        n.tokens ++ .mark .comma :: nameTokens trailingComma names ∨
      names = [] ∧ nameTokens trailingComma (n :: names) = n.tokens := by
  cases names with
  | nil => cases trailingComma <;> simp [nameTokens]
  | cons m names => exact .inl rfl

/-- The tokens of a list. -/
def tokens (l : NameList) : List Token :=
  .mark .openBrace :: nameTokens l.trailingComma l.names ++ [.mark .closeBrace]

end NameList

/-- The bindings of an import besides the default one. -/
inductive Bindings where
  /-- One name for all that the module exports. -/
  | all (name : Identifier)
  /-- Names of single exports. -/
  | list (names : NameList)

/-- The tokens of bindings. -/
def Bindings.tokens : Bindings → List Token
  | .all name => [.mark .star, .word asWord, .word name.toWord]
  | .list names => names.tokens

/-- What stands between `import` and `from`. -/
inductive Clause where
  /-- The default binding. -/
  | default (name : Identifier)
  /-- Other bindings. -/
  | others (bindings : Bindings)
  /-- The default binding and others. -/
  | both (name : Identifier) (bindings : Bindings)

/-- The tokens of a clause. -/
def Clause.tokens : Clause → List Token
  | .default name => [.word name.toWord]
  | .others bindings => bindings.tokens
  | .both name bindings => .word name.toWord :: .mark .comma :: bindings.tokens

/-- A statement. -/
inductive Production where
  /-- An import without bindings. -/
  | importModule (source : Quoted)
  /-- An import with bindings. -/
  | importBindings (clause : Clause) (source : Quoted)
  /-- A call that imports. -/
  | importCall (source : Quoted)
  /-- An export of all that another module exports, perhaps under one name. -/
  | exportAll (name? : Option ExternalName) (source : Quoted)
  /-- An export of names, perhaps of another module. -/
  | exportNames (names : NameList) (source? : Option Quoted)
  /-- The export without name. -/
  | exportDefault (value : Identifier)
  /-- An exported function without parameters. -/
  | exportFunction (isAsync isGenerator : Bool) (name : Identifier)
  /-- An exported class without members. -/
  | exportClass (name : Identifier)
  /-- Exported variables without initial values. -/
  | exportVariables (kind : VariableKind) (first : Identifier) (more : List Identifier)
  /-- An assignment of a literal. -/
  | assignment (name : Identifier) (value : Literal)

namespace Production

/-- The tokens of `from` and a specifier. -/
def fromTokens (source : Quoted) : List Token := [.word fromWord, .source source]

/-- The tokens of a statement. -/
def tokens : Production → List Token
  | .importModule source => [.word importWord, .source source, .mark .semicolon]
  | .importBindings clause source =>
    .word importWord :: clause.tokens ++ fromTokens source ++ [.mark .semicolon]
  | .importCall source =>
    [.word importWord, .mark .openParen, .argument source, .mark .closeParen, .mark .semicolon]
  | .exportAll none source =>
    .word exportWord :: .mark .star :: fromTokens source ++ [.mark .semicolon]
  | .exportAll (some name) source =>
    .word exportWord :: .mark .star :: .word asWord :: name.token :: fromTokens source ++
      [.mark .semicolon]
  | .exportNames names source? =>
    .word exportWord :: names.tokens ++ source?.elim [] fromTokens ++ [.mark .semicolon]
  | .exportDefault value =>
    [.word exportWord, .word defaultWord, .word value.toWord, .mark .semicolon]
  | .exportFunction isAsync isGenerator name =>
    .word exportWord :: (if isAsync then [.word asyncWord] else []) ++ .word functionWord ::
      (if isGenerator then [.mark .star] else []) ++ .word name.toWord ::
        [.mark .openParen, .mark .closeParen, .mark .openBrace, .mark .closeBrace]
  | .exportClass name =>
    [.word exportWord, .word classWord, .word name.toWord, .mark .openBrace, .mark .closeBrace]
  | .exportVariables kind first more =>
    .word exportWord :: .word kind.word :: .word first.toWord ::
      more.flatMap (fun name => [.mark .comma, .word name.toWord]) ++ [.mark .semicolon]
  | .assignment name value =>
    [.word name.toWord, .mark .equals, .literal value, .mark .semicolon]

/-- The names that a statement exports. -/
def names : Production → List String
  | .exportAll name? _ => name?.toList.map ExternalName.name
  | .exportNames names _ => names.names.map ListedName.exported
  | .exportDefault _ => ["default"]
  | .exportFunction _ _ name => [name.name]
  | .exportClass name => [name.name]
  | .exportVariables _ first more => (first :: more).map fun name => name.name
  | _ => []

/-- The module that a statement names. -/
def specifier? : Production → Option String
  | .importModule source => some source.value
  | .importBindings _ source => some source.value
  | .importCall source => some source.value
  | .exportAll _ source => some source.value
  | .exportNames _ source? => source?.map Quoted.value
  | _ => none

end Production

/-! ### Layouts -/

/-- A token with what stands in front of it. -/
structure Piece where
  /-- What stands in front of the token. -/
  gap : Gap
  /-- The token. -/
  token : Token

namespace Piece

/-- The characters of a piece. -/
def text (p : Piece) : List Char := p.gap.text ++ p.token.text

/-- Where a specifier stands, if the token is one; `offset` is where the piece begins. The argument
of a call begins with the gap in front of its specifier. -/
def records (offset : Nat) (p : Piece) : List ImportRecord :=
  let start := offset + p.gap.text.length + 1
  match p.token with
  | .source q => [⟨start, start + q.content.length, .static⟩]
  | .argument q => [⟨start, start + q.content.length, .dynamic offset true⟩]
  | _ => []

end Piece

/-- Words do not run together. -/
def Separated (pieces : List Piece) : Prop :=
  pieces.IsChain fun p q => p.token.isWord = true → q.token.isWord = true → q.gap ≠ []

/-- The characters of pieces and of the gap behind them. -/
def spelled (pieces : List Piece) (last : Gap) : List Char := pieces.flatMap Piece.text ++ last.text

/-- Where the specifiers of pieces stand, from `offset` on. -/
def recordsFrom : Nat → List Piece → List ImportRecord
  | _, [] => []
  | offset, p :: pieces => p.records offset ++ recordsFrom (offset + p.text.length) pieces

/-- A spelling of tokens. -/
structure Layout (tokens : List Token) where
  /-- The tokens with their gaps. -/
  pieces : List Piece
  /-- What stands behind the last token. -/
  last : Gap
  /-- The tokens are the given ones. -/
  tokens_eq : pieces.map Piece.token = tokens
  /-- Words do not run together. -/
  separated : Separated pieces

namespace Layout

variable {tokens : List Token}

/-- The source. -/
def text (l : Layout tokens) : List Char := spelled l.pieces l.last

/-- Where the specifiers stand in the source. -/
def records (l : Layout tokens) : List ImportRecord := recordsFrom 0 l.pieces

/-- The spelling with one space in front of every token. -/
def spaced (tokens : List Token) : Layout tokens where
  pieces := tokens.map (Piece.mk [.space ' ' (by decide)])
  last := []
  tokens_eq := by
    rw [List.map_map]
    exact List.map_id tokens
  separated := by
    refine List.Pairwise.isChain ?_
    rw [List.pairwise_map]
    exact List.Pairwise.imp (fun _ _ _ => List.cons_ne_nil _ _)
      (List.pairwise_of_forall (R := fun _ _ => True) fun _ _ => trivial)

end Layout

end ImportAtlas.Source
