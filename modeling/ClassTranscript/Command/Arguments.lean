import ClassTranscript.Command.Invocation
import ClassTranscript.Text.Numeral

/-!
# Command line arguments

`Invocation.ofArguments` reads the words of a command line. The first word is a verb, the others are
options and the operands of the verb, in any order. An option with a value is written
`--name value`, `--name=value`, `-x value`, `-xvalue` or `-x=value`; flags of one letter may share a
dash; after `--` every word is an operand.

Words are read from left to right. The value of an option that is a word of its own, and an operand,
are looked at only when the next option or operand comes, or at the end; a word that means nothing
is refused before that.
-/

namespace ClassTranscript

/-- Why words are no invocation. -/
inductive UsageError where
  /-- A value is missing or is not one of those that are allowed. -/
  | invalidValue
  /-- A value cannot be read. -/
  | unreadableValue
  /-- An option is repeated, or excludes another one that is given. -/
  | conflict
  | unknownArgument
  /-- A flag is given a value. -/
  | unexpectedValue
  /-- An operand is missing. -/
  | missingOperand
  | unknownVerb
  /-- Help is asked for. -/
  | help
  /-- There is nothing to read. -/
  | nothing
  deriving DecidableEq, Repr

namespace UsageError

/-- What an error says. -/
def message : UsageError → String
  | invalidValue => "a value is missing or not allowed"
  | unreadableValue => "a value cannot be read"
  | conflict => "an argument cannot be used here"
  | unknownArgument => "unexpected argument"
  | unexpectedValue => "unexpected value for a flag"
  | missingOperand => "a required argument is missing"
  | unknownVerb => "unrecognized subcommand"
  | help => "usage: javap-json <parse|trace|grammar|convert> [OPTIONS] [ARGUMENTS]"
  | nothing => "a subcommand is required"

/-- The exit code of the program. Help that is asked for is no failure. -/
def exitCode : UsageError → Nat
  | help => 0
  | _ => 2

end UsageError

abbrev Usage (α : Type) : Type :=
  Except UsageError α

/-! ### Options and operands -/

/-- What an option or operand sets. -/
inductive Slot where
  | sourcePath
  | sourceText
  | language
  | rule
  | json
  | fuel
  | noMemo
  | color
  | verbose
  | classes
  | output
  | program
  | help
  deriving DecidableEq, Repr

/-- A slot with the value that it is set to. -/
inductive Setting where
  | sourcePath (path : Path)
  | sourceText (text : String)
  | language (language : Language)
  | rule (name : String)
  | json
  | fuel (steps : Nat)
  | noMemo
  | color (choice : ColorChoice)
  | verbose
  | classes (path : Path)
  | output (path : Path)
  | program (name : String)
  deriving DecidableEq, Repr

/-- The slot of a setting. -/
def Setting.slot : Setting → Slot
  | sourcePath _ => .sourcePath
  | sourceText _ => .sourceText
  | language _ => .language
  | rule _ => .rule
  | json => .json
  | fuel _ => .fuel
  | noMemo => .noMemo
  | color _ => .color
  | verbose => .verbose
  | classes _ => .classes
  | output _ => .output
  | program _ => .program

namespace Slot

/-- The letter of an option. -/
def letter? : Slot → Option Char
  | sourceText => some 's'
  | language => some 'g'
  | verbose => some 'v'
  | help => some 'h'
  | _ => none

/-- The name of an option. -/
def name? : Slot → Option String
  | sourceText => some "source"
  | language => some "grammar"
  | rule => some "rule"
  | json => some "json"
  | fuel => some "fuel"
  | noMemo => some "no-memo"
  | color => some "color"
  | program => some "javap"
  | help => some "help"
  | _ => none

/-- Whether a slot is set to a value. -/
def takesValue : Slot → Bool
  | json | noMemo | verbose | help => false
  | _ => true

/-- A path that is a value. It is not empty. -/
def readPath (text : String) : Usage Path :=
  if text = "" then .error .invalidValue else .ok ⟨text⟩

/-- One of the values that are allowed. -/
def readAllowed {α : Type} (value : Option α) : Usage α :=
  match value with
  | some value => .ok value
  | none => .error .invalidValue

/-- A number of steps. -/
def readFuel (text : String) : Usage Nat :=
  match Text.numeral? 10 UInt64.size text.toList with
  | some n => .ok n
  | none => .error .unreadableValue

/-- A slot set to a value. -/
def read (slot : Slot) (text : String) : Usage Setting :=
  match slot with
  | sourcePath => .sourcePath <$> readPath text
  | sourceText => .ok (.sourceText text)
  | language => .language <$> readAllowed ([Language.java, .transcript].find? (·.name == text))
  | rule => .ok (.rule text)
  | json => .ok .json
  | fuel => .fuel <$> readFuel text
  | noMemo => .ok .noMemo
  | color => .color <$> readAllowed (ColorChoice.ofName? text)
  | verbose => .ok .verbose
  | classes => .classes <$> readPath text
  | output => .output <$> readPath text
  | program => .ok (.program text)
  | help => .error .help

end Slot

/-- The options and operands of a verb. -/
structure Form where
  options : List Slot
  operands : List Slot

/-- The option with a letter. -/
def Form.ofLetter? (form : Form) (c : Char) : Option Slot :=
  (form.options ++ [Slot.help]).find? (·.letter? == some c)

/-- The option with a name. -/
def Form.ofName? (form : Form) (name : String) : Option Slot :=
  (form.options ++ [Slot.help]).find? (·.name? == some name)

/-! ### Reading words -/

/-- What has been read of the words of a command line. -/
structure Reading where
  /-- The settings so far, the latest first. -/
  settings : List Setting := []
  /-- The latest option or operand, while its value has not been looked at. The value of an option
  may still be missing. -/
  pending : Option (Slot × Option String) := none
  /-- The operands that may follow. -/
  operands : List Slot
  /-- Whether only operands may follow. -/
  trailing : Bool := false

namespace Reading

/-- Sets a slot. Only one slot can be set again. -/
def set (r : Reading) (slot : Slot) (value : Option String) : Usage Reading :=
  if slot.takesValue ∧ value = none then .error .invalidValue
  else if slot ≠ .verbose ∧ r.settings.any (·.slot = slot) then .error .conflict
  else (slot.read (value.getD "")).map fun setting =>
    { r with settings := setting :: r.settings }

/-- Looks at the value that is pending. -/
def settle (r : Reading) : Usage Reading :=
  match r.pending with
  | none => .ok r
  | some (slot, value) => { r with pending := none }.set slot value

/-- Begins an option or operand whose value is still to come or to be looked at. -/
def await (r : Reading) (slot : Slot) (value : Option String) : Usage Reading :=
  r.settle.map fun r => { r with pending := some (slot, value) }

/-- Takes an option with the value that is attached to it, or a flag. -/
def take (r : Reading) (slot : Slot) (value : Option String) : Usage Reading := do
  (← r.settle).set slot value

/-- Reads an option by its name, with the value after an equals sign if there is one. -/
def readName (form : Form) (r : Reading) (name : String) (value : Option String) :
    Usage Reading :=
  match form.ofName? name with
  | none => .error .unknownArgument
  | some slot =>
    if slot.takesValue then
      if value.isSome then r.take slot value else r.await slot none
    else if value.isSome then .error .unexpectedValue
    else r.take slot none

/-- Reads the letters after a dash. What follows the letter of an option with a value is the value,
an equals sign before it aside. -/
def readLetters (form : Form) : Reading → List Char → Usage Reading
  | r, [] => .ok r
  | r, c :: cs =>
    match form.ofLetter? c with
    | none => .error .unknownArgument
    | some slot =>
      if slot.takesValue then
        match cs with
        | [] => r.await slot none
        | '=' :: value => r.take slot (some (String.ofList value))
        | value => r.take slot (some (String.ofList value))
      else do readLetters form (← r.take slot none) cs

/-- Reads a word that is no option: the value of the option before it, or an operand. -/
def readPlain (r : Reading) (word : String) : Usage Reading :=
  match r.pending, r.trailing, r.operands with
  | some (slot, none), false, _ => .ok { r with pending := some (slot, some word) }
  | _, _, [] => .error .unknownArgument
  | _, _, slot :: operands => { r with operands }.await slot (some word)

/-- The name in a word with two dashes and the value after its equals sign. -/
def splitName (cs : List Char) : String × Option String :=
  (String.ofList (cs.takeWhile (· != '=')),
    match cs.dropWhile (· != '=') with
    | [] => none
    | _ :: value => some (String.ofList value))

/-- Reads a word. -/
def readWord (form : Form) (r : Reading) (word : String) : Usage Reading :=
  if r.trailing then r.readPlain word
  else
    match word.toList with
    | ['-', '-'] => .ok { r with trailing := true }
    | '-' :: '-' :: cs => readName form r (splitName cs).1 (splitName cs).2
    | '-' :: c :: cs => readLetters form r (c :: cs)
    | _ => r.readPlain word

/-- Reads words up to the end. A source is given in one way only. -/
def readWords (form : Form) (words : List String) : Usage (List Setting) := do
  let r ← words.foldlM (readWord form) { operands := form.operands }
  let settings := (← r.settle).settings
  if settings.any (·.slot = .sourcePath) ∧ settings.any (·.slot = .sourceText) then
    throw .conflict
  return settings

end Reading

/-! ### Invocations from settings -/

/-- What the program can do. -/
inductive Verb where
  | parse
  | trace
  | grammar
  | convert
  deriving DecidableEq, Repr

namespace Verb

/-- The word for a verb. -/
def name : Verb → String
  | parse => "parse"
  | trace => "trace"
  | grammar => "grammar"
  | convert => "convert"

/-- The verb of a word. -/
def ofName? (word : String) : Option Verb :=
  [parse, trace, grammar, convert].find? (·.name == word)

/-- The options and operands of a verb. -/
def form : Verb → Form
  | parse =>
    { options := [.sourceText, .language, .rule, .json, .fuel, .noMemo, .color]
      operands := [.sourcePath] }
  | trace =>
    { options := [.sourceText, .language, .rule, .verbose, .fuel, .noMemo, .color]
      operands := [.sourcePath] }
  | grammar => { options := [.json], operands := [.language] }
  | convert => { options := [.program, .color], operands := [.classes, .output] }

end Verb

/-- The value that settings give, where `pick` takes it out of one that has it. -/
def valueIn {α : Type} (settings : List Setting) (pick : Setting → Option α) : Option α :=
  settings.findSome? pick

namespace Verb

/-- The colour choice of settings. -/
def colorIn (settings : List Setting) : ColorChoice :=
  (valueIn settings fun | .color choice => some choice | _ => none).getD .auto

/-- The language of settings. -/
def languageIn (settings : List Setting) : Language :=
  (valueIn settings fun | .language language => some language | _ => none).getD .transcript

/-- What settings say about the input. -/
def inputIn (settings : List Setting) : InputOptions where
  sourcePath := valueIn settings fun | .sourcePath path => some path | _ => none
  sourceText := valueIn settings fun | .sourceText text => some text | _ => none
  language := languageIn settings
  rule := valueIn settings fun | .rule name => some name | _ => none
  fuel := (valueIn settings fun | .fuel steps => some steps | _ => none).getD 10000000
  memoize := !settings.contains .noMemo

/-- How much settings ask a trace to show: the more, the more often. -/
def verbosityIn (settings : List Setting) : Peg.Verbosity :=
  match settings.count .verbose with
  | 0 => .normal
  | 1 => .verbose
  | _ => .veryVerbose

/-- The invocation of a verb with settings. -/
def invocation (verb : Verb) (settings : List Setting) : Usage Invocation :=
  match verb with
  | parse => .ok (.parse (inputIn settings) (settings.contains .json) (colorIn settings))
  | trace => .ok (.trace (inputIn settings) (verbosityIn settings) (colorIn settings))
  | grammar => .ok (.grammar (languageIn settings) (settings.contains .json))
  | convert =>
    let classes := valueIn settings fun | .classes path => some path | _ => none
    let output := valueIn settings fun | .output path => some path | _ => none
    let program := valueIn settings fun | .program name => some name | _ => none
    match classes, output with
    | some classes, some output =>
      .ok (.convert { classes, output, program := program.getD "javap" } (colorIn settings))
    | _, _ => .error .missingOperand

end Verb

namespace Invocation

/-- Whether a word can stand where a verb is expected. -/
def isVerb (word : String) : Bool :=
  word == "help" || (Verb.ofName? word).isSome

/-- What a request for help comes to, given the words after it: it may name one verb. -/
def helpOn : List String → UsageError
  | [] => .help
  | [word] => if isVerb word then .help else .unknownVerb
  | _ => .unknownVerb

/-- Why a first word that is no verb is refused. Before the verb there is no option but help. -/
def refusal (word : String) : UsageError :=
  match Reading.readWord ⟨[], []⟩ { operands := [] } word with
  | .error error =>
    if word.toList.head? = some '-' ∧ word ≠ "-" then error else .unknownVerb
  | .ok _ => .unknownVerb

/-- What the words of a command line ask for. -/
def ofArguments : List String → Usage Invocation
  | [] => .error .nothing
  | "--" :: [] => .error .nothing
  | "--" :: word :: _ => .error (if isVerb word then .unknownArgument else .unknownVerb)
  | "help" :: words => .error (helpOn words)
  | word :: words =>
    match Verb.ofName? word with
    | some verb => do verb.invocation (← Reading.readWords verb.form words)
    | none => .error (refusal word)

end Invocation

end ClassTranscript
