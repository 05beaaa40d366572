import ImportAtlas.Text.Digit

/-!
# Command line arguments

Arguments are options and operands. An option has a word behind two hyphens, which may be cut short
as long as it stays unique, and perhaps a letter behind one; letters without value can be put
together. A value follows its option, after an equals sign, directly behind a letter, or as the
next argument. After `--` every argument is an operand; attached to an option, `--` leaves its value
blank.

## Summary

* `Usage` says which options a command has and how many operands it takes.
* `classify` tells what each argument is.
* `Usage.read` collects options and operands; the first option that asks for help, and the first
  mistake, end it.
-/

namespace ImportAtlas.CommandLine

/-- What an option asks for. -/
inductive OptionKind where
  /-- The help text. -/
  | help
  /-- Something that is on or off. -/
  | flag
  /-- Any value. -/
  | value
  /-- One of some values. -/
  | choice (values : List String)
  deriving DecidableEq, Inhabited

/-- Whether an option takes a value. -/
def OptionKind.takesValue : OptionKind → Bool
  | .value | .choice _ => true
  | _ => false

/-- An option. -/
structure OptionSpec where
  /-- What stands behind two hyphens. -/
  word : String
  /-- What may stand behind one hyphen. -/
  letter? : Option Char
  /-- What the option asks for. -/
  kind : OptionKind
  deriving DecidableEq, Inhabited

/-- How many operands a command takes. -/
inductive OperandCount where
  | atMostOne
  | atLeastOne
  deriving DecidableEq, Inhabited

/-- The options and operands of a command. -/
structure Usage where
  /-- The options. -/
  options : List OptionSpec
  /-- The number of operands. -/
  operands : OperandCount
  deriving Inhabited

/-- Why the reading of arguments ends early. -/
inductive Stop where
  /-- The help text was asked for. -/
  | help
  /-- The arguments are wrong. -/
  | misuse
  deriving DecidableEq, Inhabited

/-- The value that an option is given. -/
inductive OptionValue where
  /-- Two hyphens in the place of a value. -/
  | blank
  /-- Any other text. -/
  | text (text : String)
  deriving DecidableEq, Inhabited

namespace OptionValue

/-- The value that a text in the place of a value gives. -/
def ofText (text : String) : OptionValue := if text == "--" then .blank else .text text

/-- The text of a value that is not blank. -/
def text? : OptionValue → Option String
  | .blank => none
  | .text value => some value

end OptionValue

/-! ### What an argument is -/

/-- What an argument holds besides the name of an option. -/
inductive Attached where
  /-- Nothing. -/
  | nothing
  /-- A value behind a word and an equals sign. -/
  | value (value : String)
  /-- Text behind a letter, and perhaps an equals sign: a value, or more letters. -/
  | text (text : List Char)
  deriving DecidableEq, Inhabited

/-- The part that an argument plays. -/
inductive Role where
  | operand
  /-- The first `--`. -/
  | separator
  /-- An option. -/
  | option (spec : OptionSpec) (attached : Attached)
  /-- An option that is not known. -/
  | unknown
  deriving DecidableEq, Inhabited

/-- An argument and its part. -/
structure Token where
  /-- The argument. -/
  text : String
  /-- Its part. -/
  role : Role
  deriving DecidableEq, Inhabited

/-- Whether a text is a negative number in decimal. -/
def isNegativeNumber (cs : List Char) : Bool :=
  match cs with
  | '-' :: rest =>
    let rest := if rest.getLast? == some '\n' then rest.dropLast else rest
    let whole := rest.takeWhile Text.isDecimalDigit
    match rest.dropWhile Text.isDecimalDigit with
    | [] => !whole.isEmpty
    | '.' :: digits => !digits.isEmpty && digits.all Text.isDecimalDigit
    | _ => false
  | _ => false

/-- A text before its first equals sign, and what is attached by that sign. -/
def splitValue (cs : List Char) : List Char × Attached :=
  (cs.takeWhile (· ≠ '='),
    match cs.dropWhile (· ≠ '=') with
    | [] => .nothing
    | _ :: value => .value (String.ofList value))

/-- What is attached to a letter. -/
def attachedTo (cs : List Char) : Attached :=
  match cs with
  | [] => .nothing
  | '=' :: text => .text text
  | text => .text text

/-- The option with a letter. -/
def optionOfLetter? (options : List OptionSpec) (c : Char) : Option OptionSpec :=
  options.find? fun spec => spec.letter? == some c

/-- The options whose words begin in some way. -/
def optionsOfWord (options : List OptionSpec) (start : List Char) : List OptionSpec :=
  options.filter fun spec => start.isPrefixOf spec.word.toList

/-- The part of an argument that begins with two hyphens. A whole word wins over words that it
begins. -/
def wordRole (options : List OptionSpec) (cs : List Char) : Except Stop (Option Role) :=
  let (start, attached) := splitValue cs
  match options.find? fun spec => spec.word.toList == start with
  | some spec => .ok (some (.option spec attached))
  | none =>
    match optionsOfWord options start with
    | [] => .ok none
    | [spec] => .ok (some (.option spec attached))
    | _ => .error .misuse

/-- The part of an argument that begins with one hyphen and a letter. -/
def letterRole? (options : List OptionSpec) (c : Char) (more : List Char) : Option Role :=
  (optionOfLetter? options c).map fun spec => .option spec (attachedTo more)

/-- The part of an argument before `--`. A hyphen alone, a negative number, and whatever has a
space and is no option, are operands. -/
def roleOf (options : List OptionSpec) (cs : List Char) : Except Stop Role :=
  let plain : Role := if isNegativeNumber cs || cs.contains ' ' then .operand else .unknown
  match cs with
  | '-' :: '-' :: word => (wordRole options word).map (·.getD plain)
  | '-' :: c :: more => .ok ((letterRole? options c more).getD plain)
  | _ => .ok .operand

/-- The parts of arguments. -/
def classify (options : List OptionSpec) : List String → Except Stop (List Token)
  | [] => .ok []
  | "--" :: rest => .ok (⟨"--", .separator⟩ :: rest.map fun text => ⟨text, .operand⟩)
  | text :: rest => do
    let role ← roleOf options text.toList
    let tokens ← classify options rest
    pure (⟨text, role⟩ :: tokens)

/-! ### Reading options and operands -/

/-- What the arguments say. -/
structure Given where
  /-- The words of options without value. -/
  flags : List String
  /-- The words of other options with their values, latest first. -/
  values : List (String × OptionValue)
  /-- The operands. -/
  operands : List String
  /-- Whether there are arguments without meaning. -/
  hasExtras : Bool
  deriving DecidableEq, Inhabited

namespace Given

/-- Nothing. -/
def nothing : Given := ⟨[], [], [], false⟩

/-- Whether an option without value is given. -/
def has (given : Given) (word : String) : Bool := given.flags.contains word

/-- The last value of an option. -/
def value? (given : Given) (word : String) : Option OptionValue := given.values.lookup word

/-- Takes note of an option. One of some values may be left blank too. -/
def add (given : Given) (choice : OptionSpec × OptionValue) : Except Stop Given :=
  let (spec, value) := choice
  match spec.kind with
  | .help => .error .help
  | .flag => .ok { given with flags := given.flags ++ [spec.word] }
  | .value => .ok { given with values := (spec.word, value) :: given.values }
  | .choice values =>
    if value.text?.all values.contains then
      .ok { given with values := (spec.word, value) :: given.values }
    else .error .misuse

end Given

/-- What one argument gives. -/
structure Taken where
  /-- Options with their values; a flag has a blank one. -/
  choices : List (OptionSpec × OptionValue)
  /-- The arguments after it. -/
  rest : List Token

/-- An option that is given no value by its own argument. -/
def takeBare (spec : OptionSpec) (rest : List Token) : Except Stop Taken :=
  if spec.kind.takesValue then
    match rest with
    | ⟨text, .operand⟩ :: rest => .ok ⟨[(spec, .ofText text)], rest⟩
    | _ => .error .misuse
  else .ok ⟨[(spec, .blank)], rest⟩

/-- An option that is given a value by its own argument. -/
def takeValue (spec : OptionSpec) (text : String) (rest : List Token) : Except Stop Taken :=
  if spec.kind.takesValue then .ok ⟨[(spec, .ofText text)], rest⟩ else .error .misuse

/-- An option with text behind its letter. Behind an option without value this is another letter,
perhaps with text of its own. -/
def takeText (options : List OptionSpec) (rest : List Token) :
    OptionSpec → List Char → Except Stop Taken
  | spec, [] => takeValue spec "" rest
  | spec, c :: more =>
    if spec.kind.takesValue then takeValue spec (String.ofList (c :: more)) rest
    else
      match optionOfLetter? options c with
      | none => .error .misuse
      | some next =>
        let taken := if more.isEmpty then takeBare next rest else takeText options rest next more
        taken.map fun taken => { taken with choices := (spec, .blank) :: taken.choices }

/-- The options that an argument gives. -/
def takeOption (options : List OptionSpec) (spec : OptionSpec) (attached : Attached)
    (rest : List Token) : Except Stop Taken :=
  match attached with
  | .nothing => takeBare spec rest
  | .value value => takeValue spec value rest
  | .text text => takeText options rest spec text

/-- Whether a token is an operand. -/
def Token.isOperand (t : Token) : Bool := t.role == .operand

/-- Whether a token is the separator. -/
def Token.isSeparator (t : Token) : Bool := t.role == .separator

/-- The operands of a command at the front of arguments, with the arguments after them. A separator
counts as part of them. -/
def takeOperands (count : OperandCount) (tokens : List Token) : List String × List Token :=
  let rest := tokens.dropWhile Token.isSeparator
  match count with
  | .atMostOne =>
    match rest with
    | ⟨text, .operand⟩ :: rest => ([text], rest.dropWhile Token.isSeparator)
    | _ => ([], rest)
  | .atLeastOne =>
    let isTaken (t : Token) := t.isOperand || t.isSeparator
    (((rest.takeWhile isTaken).filter Token.isOperand).map Token.text, rest.dropWhile isTaken)

namespace Usage

/-- Reads arguments. Operands are taken where they stand first; later ones have no meaning. The
budget is the number of arguments. -/
def readTokens (usage : Usage) : Nat → List Token → Bool → Given → Except Stop Given
  | 0, _, _, given => .ok given
  | _, [], _, given => .ok given
  | budget + 1, t :: rest, isOpen, given =>
    match t.role with
    | .option spec attached => do
      let taken ← takeOption usage.options spec attached rest
      let given ← taken.choices.foldlM Given.add given
      readTokens usage budget taken.rest isOpen given
    | .unknown => readTokens usage budget rest isOpen { given with hasExtras := true }
    | _ =>
      if isOpen then
        let (operands, rest) := takeOperands usage.operands (t :: rest)
        readTokens usage budget rest false { given with operands }
      else readTokens usage budget rest isOpen { given with hasExtras := true }

/-- What arguments say. Arguments without meaning and a missing operand are left to the caller. -/
def read (usage : Usage) (args : List String) : Except Stop Given := do
  let tokens ← classify usage.options args
  usage.readTokens tokens.length tokens true .nothing

end Usage

end ImportAtlas.CommandLine
