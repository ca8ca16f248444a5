import ClassTranscript.Peg.Parse

/-!
# Trace logs

`traceLines` writes the events of an evaluation as an indented log: a line when a rule is entered,
one when it is left, and, as the verbosity rises, lines for remembered results and for alternatives
that were given up. Failures of terminals and limits have no lines of their own.

```text
Sum @0
  Num @0
  Num @0 ✓ 0..1
Sum @0 ✓ 0..3
```
-/

namespace ClassTranscript.Peg

/-- How much a trace log shows. -/
inductive Verbosity where
  /-- The rules that make nodes. -/
  | normal
  /-- Every rule, and remembered results. -/
  | verbose
  /-- Everything, with the matched text. -/
  | veryVerbose
  deriving DecidableEq, Repr

/-- What a trace log is written with. -/
structure TraceStyle where
  grammar : Grammar
  source : String
  verbosity : Verbosity := .normal
  palette : Palette := .off

namespace TraceStyle

/-- The number of characters of a match that a log shows. -/
def previewLength : Nat :=
  40

/-- Whether the calls of a rule are shown. -/
def shows (st : TraceStyle) (rule : RuleId) : Bool :=
  st.verbosity != .normal || !((st.grammar.rule? rule).any (·.hidden))

/-- A rule and an offset, with a note on it. -/
def place (st : TraceStyle) (rule : RuleId) (offset : Nat) (note : String) : String :=
  let p := st.palette
  p.paint p.blue (st.grammar.nameOf rule) ++ " "
    ++ p.paint p.dim ("@" ++ toString offset ++ note)

/-- A result: where the match ended, or that there was none. -/
def result (st : TraceStyle) (start : Nat) (stop : Option Nat) : String :=
  let p := st.palette
  match stop with
  | none => p.paint p.red "✗"
  | some stop =>
    let span : Span := ⟨start, stop⟩
    let shown := p.paint p.green "✓" ++ " " ++ p.paint p.dim (toString span)
    if st.verbosity = .veryVerbose then
      shown ++ " " ++ p.paint p.green (Text.preview (span.slice st.source) previewLength)
    else shown

end TraceStyle

/-- A log while it is written. -/
structure TraceLog where
  /-- The lines so far, the latest first. -/
  lines : List String := []
  /-- The number of open calls that are shown. -/
  depth : Nat := 0
  /-- For each open call whether it is shown, the innermost first. -/
  openCalls : List Bool := []

namespace TraceLog

/-- Adds a line at the current depth. -/
def line (body : String) (log : TraceLog) : TraceLog :=
  { log with lines := (String.ofList (List.replicate (2 * log.depth) ' ') ++ body) :: log.lines }

/-- Adds what an event shows. -/
def add (st : TraceStyle) (log : TraceLog) : Event → TraceLog
  | .enter rule offset _ =>
    if st.shows rule then
      let log := log.line (st.place rule offset "")
      { log with depth := log.depth + 1, openCalls := true :: log.openCalls }
    else { log with openCalls := false :: log.openCalls }
  | .leave rule start stop =>
    if log.openCalls.headD false then
      { log with depth := log.depth - 1, openCalls := log.openCalls.tail }.line
        (st.place rule start "" ++ " " ++ st.result start stop)
    else { log with openCalls := log.openCalls.tail }
  | .reuse rule offset stop =>
    if st.verbosity = .normal then log
    else log.line (st.place rule offset " (memo)" ++ " " ++ st.result offset stop)
  | .backtrack offset =>
    if st.verbosity = .veryVerbose then
      log.line (st.palette.paint st.palette.dim ("↩ @" ++ toString offset))
    else log
  | .miss .. => log
  | .halt .. => log

end TraceLog

/-- The lines of the log of some events. -/
def traceLines (st : TraceStyle) (events : List Event) : List String :=
  (events.foldl (TraceLog.add st) {}).lines.reverse

end ClassTranscript.Peg
