import ClassTranscript.Command.Arguments
import ClassTranscript.Command.Conversion

/-!
# Running invocations

`runArguments` reads the words of a command line and does on a host what they ask for.
-/

namespace ClassTranscript

section

variable {m : Type → Type} [Monad m] [Host m]

/-- Does what an invocation asks for. Colours that depend on a terminal are on if there is one. -/
def Invocation.run (terminal : Bool) : Invocation → m Response
  | .parse input json color =>
    withInput input false fun text (outcome, _) =>
      parseResponse input json (color.colored terminal) text outcome
  | .trace input verbosity color =>
    withInput input true fun text (outcome, events) =>
      traceResponse input verbosity (color.colored terminal) text outcome events
  | .grammar language json => return grammarResponse language json
  | .convert options color => do
    let (tally, error) ← convertClasses options
    return conversionResponse (color.colored terminal) tally error

/-- The response to words that are no invocation. Help goes to the standard output. -/
def UsageError.response (error : UsageError) : Response :=
  match error with
  | .help => { stdout := error.message ++ "\n" }
  | _ => { code := error.exitCode, stderr := "error: " ++ error.message ++ "\n" }

/-- Does what the words of a command line ask for. -/
def runArguments (terminal : Bool) (words : List String) : m Response :=
  match Invocation.ofArguments words with
  | .ok invocation => invocation.run terminal
  | .error error => return error.response

end

end ClassTranscript
