import ClassTranscript.Command.Host
import ClassTranscript.Command.Invocation
import ClassTranscript.Diagnostic.Report
import ClassTranscript.Transcript.Reading

/-!
# Parsing, tracing and showing grammars

The commands that look at one text or one grammar. What they print is a function of the invocation
and the text; only the text comes from the host.
-/

namespace ClassTranscript

open Peg Transcript

/-- What a command prints, and its exit code. -/
structure Response where
  code : Nat := 0
  stdout : String := ""
  stderr : String := ""
  deriving DecidableEq, Repr

namespace Response

/-- A failure with a message. -/
def failure (message : String) : Response where
  code := 1
  stderr := "error: " ++ message ++ "\n"

end Response

/-! ### Input -/

/-- A text, and the name that reports show for it. -/
structure Input where
  text : String
  name : Option String
  deriving DecidableEq, Repr

/-- The text in some bytes. -/
def textOfBytes (bytes : Text.Bytes) : Except String String :=
  match Text.decode? bytes with
  | some text => .ok text
  | none => .error "stream did not contain valid UTF-8"

/-- The text that options name, or why it cannot be read. -/
def loadInput {m : Type → Type} [Monad m] [Host m] (o : InputOptions) : m (Except String Input) :=
  match o.sourceText, o.sourcePath with
  | some text, _ => return .ok ⟨text, none⟩
  | none, none =>
    return .error "input is required: use a positional FILE or -s/--source"
  | none, some path => do
    if path.text = "-" then
      match textOfBytes (← Host.readInput) with
      | .ok text => return .ok ⟨text, some "<stdin>"⟩
      | .error reason => return .error ("failed to read stdin: " ++ reason)
    else
      match ((← Host.readFile path).mapError Fault.message).bind textOfBytes with
      | .ok text => return .ok ⟨text, some path.text⟩
      | .error reason =>
        return .error ("failed to read '" ++ path.text ++ "': " ++ reason)

/-- The rule that options name in the grammar of their language. -/
def InputOptions.ruleId? (o : InputOptions) : Except String RuleId :=
  match o.rule with
  | none => .ok o.language.grammar.root
  | some name =>
    match o.language.grammar.ruleId? name with
    | some id => .ok id
    | none => .error ("unknown rule '" ++ name ++ "'")

/-- How the text is parsed. -/
def InputOptions.parseOptions (o : InputOptions) (traced : Bool) : Options where
  limits := { steps := o.fuel }
  memoize := o.memoize
  traced := traced

/-- Answers about the text that options name, parsed from the rule that they name. -/
def withInput {m : Type → Type} [Monad m] [Host m] (o : InputOptions) (traced : Bool)
    (answer : Input → Outcome × List Event → Response) : m Response :=
  match o.ruleId? with
  | .error message => return .failure message
  | .ok id => do
    match ← loadInput o with
    | .error message => return .failure message
    | .ok input =>
      match parse? o.language.grammar (o.parseOptions traced) id input.text with
      | none => return .failure "the grammar has no such rule"
      | some run => return answer input run

/-! ### Responses -/

/-- The document that a match is printed as: the record of its class where a whole transcript is
parsed, and the tree otherwise. -/
def documentOf (o : InputOptions) (input : Input) (tree : Tree) : Except String Json :=
  if o.wantsTranscript then
    ((ClassRecord.ofTree input.text tree).mapError ProjectionError.message).map ClassRecord.toJson
  else .ok tree.toJson

/-- What is said when a match ends before its text does. -/
def shortMatchWarning (input : Input) (tree : Tree) : String :=
  if tree.stop < input.text.utf8ByteSize then
    "warning: match ended at "
      ++ toString ((LineTable.ofText input.text).position tree.stop)
      ++ ", the rest of the input was not parsed\n"
  else ""

/-- The response to a parse. -/
def parseResponse (o : InputOptions) (json colored : Bool) (input : Input) :
    Outcome → Response
  | .mismatched mismatch =>
    { code := 1, stderr := mismatch.render input.text input.name colored }
  | .matched tree _ =>
    let warning := shortMatchWarning input tree
    if !json then
      { stdout := tree.root.outline (.ofBool colored) input.text, stderr := warning }
    else
      match documentOf o input tree with
      | .ok document => { stdout := document.pretty ++ "\n", stderr := warning }
      | .error message =>
        let response := Response.failure message
        { response with stderr := warning ++ response.stderr }

/-- The line of counts after a trace. -/
def countsLine (s : Stats) : String :=
  toString s.evaluations ++ " rule evaluations, " ++ toString s.hits ++ " memo hits, "
    ++ toString s.entries ++ " memo entries, " ++ toString s.steps ++ " steps, max depth "
    ++ toString s.maxDepth

/-- The response to a trace. -/
def traceResponse (o : InputOptions) (verbosity : Verbosity) (colored : Bool) (input : Input)
    (outcome : Outcome) (events : List Event) : Response :=
  let palette := Palette.ofBool colored
  let style : TraceStyle :=
    { grammar := o.language.grammar, source := input.text, verbosity, palette }
  let lines :=
    traceLines style events ++ [palette.paint palette.dim "---", countsLine outcome.stats]
  let stdout := String.join (lines.map (· ++ "\n"))
  match outcome with
  | .matched .. => { stdout }
  | .mismatched mismatch =>
    { code := 1, stdout, stderr := mismatch.render input.text input.name colored }

/-- The response to a request for a grammar. -/
def grammarResponse (language : Language) (json : Bool) : Response where
  stdout :=
    if json then language.grammar.toJson.pretty ++ "\n" else toString language.grammar

end ClassTranscript
