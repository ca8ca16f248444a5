import ClassTranscript.Peg.Nullable

/-!
# Left recursion

A leading call is a call that an expression may make before any input is consumed. A rule that
leads back to itself through leading calls would call itself for ever. `findCycle` searches the
graph of leading calls depth first, the rules and the calls of each in order, and gives the first
cycle that it closes.
-/

namespace ClassTranscript.Peg

namespace Op

mutual

/-- The rules that an expression may call before it consumes input, in order. -/
def leadingCalls (known : RuleId → Bool) : Op → List RuleId
  | .test _ _ => []
  | .seq items => seqLeadingCalls known items
  | .choice alternatives => allLeadingCalls known alternatives
  | .star body => leadingCalls known body
  | .plus body => leadingCalls known body
  | .optional body => leadingCalls known body
  | .ahead body => leadingCalls known body
  | .notAhead body => leadingCalls known body
  | .call id => [id]

/-- The leading calls of a sequence: those of its items up to the first that is not nullable. -/
def seqLeadingCalls (known : RuleId → Bool) : List Op → List RuleId
  | [] => []
  | op :: ops =>
    leadingCalls known op ++ if op.nullable known then seqLeadingCalls known ops else []

/-- The leading calls of several expressions. -/
def allLeadingCalls (known : RuleId → Bool) : List Op → List RuleId
  | [] => []
  | op :: ops => leadingCalls known op ++ allLeadingCalls known ops

end

end Op

/-- The cycle that a call of `id` closes, where `path` holds the open rules with the innermost
first and `id` is among them. The cycle begins and ends with `id`. -/
def closeCycle (path : List RuleId) (id : RuleId) : List RuleId :=
  id :: (path.takeWhile (· != id)).reverse ++ [id]

/-- Searches from a rule for a cycle. `path` holds the open rules with the innermost first, and
`done` the rules from which no cycle is reached. The result is a cycle, or `done` with what the
search added. The first argument bounds the number of rules that are open at once. -/
def searchFrom (calls : RuleId → List RuleId) :
    Nat → List RuleId → List RuleId → RuleId → Except (List RuleId) (List RuleId)
  | 0, _, done, _ => .ok done
  | bound + 1, path, done, id => do
    let visit := fun done callee =>
      if (id :: path).contains callee then .error (closeCycle (id :: path) callee)
      else if done.contains callee then .ok done
      else searchFrom calls bound (id :: path) done callee
    return id :: (← (calls id).foldlM visit done)

/-- The first cycle in a graph, given the successors of each of its rules. -/
def findCycle (edges : List (List RuleId)) : Option (List RuleId) :=
  let calls := fun id => edges.getD id []
  let visit := fun done id =>
    if done.contains id then .ok done else searchFrom calls edges.length [] done id
  match (List.range edges.length).foldlM visit [] with
  | .error cycle => some cycle
  | .ok _ => none

end ClassTranscript.Peg
