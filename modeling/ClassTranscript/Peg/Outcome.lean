import ClassTranscript.Peg.Tree

/-!
# Outcomes of a parse

A parse ends in a tree or in a `Mismatch`. A mismatch tells how far the input was read and which
terminals were expected there, or which limit stopped the parse. A mismatch is an ordinary outcome
and no error.
-/

namespace ClassTranscript.Peg

/-- Bounds on the resources of one parse. -/
structure Limits where
  /-- How deeply calls of rules may nest. -/
  depth : Nat := 4096
  /-- How many evaluation steps may be made. -/
  steps : Nat := 10000000
  /-- How many results may be remembered. -/
  entries : Nat := 1000000
  deriving DecidableEq, Repr

/-- The bound that stopped a parse. -/
inductive Limit where
  | depth
  | steps
  | entries
  deriving DecidableEq, Repr

/-- What the report of a limit says. -/
def Limit.message : Limit → String
  | .depth => "recursion limit exceeded"
  | .steps => "execution limit exceeded"
  | .entries => "memo table limit exceeded"

/-- Counts kept during one parse. -/
structure Stats where
  /-- Rule bodies evaluated. -/
  evaluations : Nat := 0
  /-- Calls answered by a remembered result. -/
  hits : Nat := 0
  /-- Results remembered at the end. -/
  entries : Nat := 0
  /-- Evaluation steps. -/
  steps : Nat := 0
  /-- The deepest nesting of calls. -/
  maxDepth : Nat := 0
  deriving DecidableEq, Repr

/-- Why a parse did not match. -/
inductive Cause where
  /-- The input is not in the language of the rule. -/
  | grammar
  | limit (limit : Limit)
  deriving DecidableEq, Repr

/-- A failed parse. -/
structure Mismatch where
  /-- The largest offset at which a terminal failed. -/
  furthest : Nat
  /-- What the terminals that failed there say they expected, sorted, each once. -/
  expected : List String
  cause : Cause
  stats : Stats := {}
  deriving DecidableEq, Repr

/-- How a parse ends. -/
inductive Outcome where
  | matched (tree : Tree) (stats : Stats)
  | mismatched (mismatch : Mismatch)

/-- The counts of the parse. -/
def Outcome.stats : Outcome → Stats
  | .matched _ stats => stats
  | .mismatched m => m.stats

namespace Mismatch

/-- The clause that lists what was expected, empty when nothing was. -/
def expectedClause (m : Mismatch) : String :=
  if m.expected.isEmpty then "" else ", expected " ++ ", ".intercalate m.expected

/-- What happened and where, with the place written by the caller. -/
def describe (m : Mismatch) (place : String) : String :=
  match m.cause with
  | .limit limit => limit.message ++ " at " ++ place
  | .grammar => "no match at " ++ place ++ m.expectedClause

instance : ToString Mismatch where
  toString m := m.describe ("offset " ++ toString m.furthest)

end Mismatch

end ClassTranscript.Peg
