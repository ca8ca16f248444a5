import ClassTranscript.Peg.Grammar
import ClassTranscript.Peg.Memo
import ClassTranscript.Peg.Outcome

/-!
# The state of an evaluation

`State` is everything that an evaluation changes: the position, the nodes made so far, the
remembered results, the expectations of the furthest failure, the counts, and a log of events when
one is kept. The operations here are the single moves of the evaluator, one for each kind of event.
-/

namespace ClassTranscript.Peg

/-- How an evaluation is run. -/
structure Settings where
  /-- The bounds on the evaluation. Without them none is checked. -/
  limits : Option Limits := some {}
  /-- Whether the memo policies of the rules are followed. -/
  memoize : Bool := true
  /-- Whether a log of events is kept. -/
  traced : Bool := false
  deriving DecidableEq, Repr

namespace Settings

/-- Whether a number of steps is within bounds. -/
def allowsSteps (cfg : Settings) (n : Nat) : Bool :=
  cfg.limits.all (n ≤ ·.steps)

/-- Whether a nesting depth of calls is within bounds. -/
def allowsDepth (cfg : Settings) (n : Nat) : Bool :=
  cfg.limits.all (n ≤ ·.depth)

/-- Whether a number of remembered results is within bounds. -/
def allowsEntries (cfg : Settings) (n : Nat) : Bool :=
  cfg.limits.all (n ≤ ·.entries)

/-- The memo policy of a rule, as far as it is followed. -/
def policyOf (cfg : Settings) (rule : Rule) : MemoPolicy :=
  if cfg.memoize then rule.memo else .off

end Settings

/-- Something that happens during an evaluation. -/
inductive Event where
  /-- The body of a rule is about to be evaluated. `tracking` tells whether expectations are
  recorded there. -/
  | enter (rule : RuleId) (offset : Nat) (tracking : Bool)
  /-- The evaluation of a body that began at `start` is over; a match ended at `stop`. -/
  | leave (rule : RuleId) (start : Nat) (stop : Option Nat)
  /-- A remembered result answers a call. -/
  | reuse (rule : RuleId) (offset : Nat) (stop : Option Nat)
  /-- An alternative failed and its choice goes back to where it began. -/
  | backtrack (offset : Nat)
  /-- A terminal failed. -/
  | miss (offset : Nat) (expectation : String) (tracking : Bool)
  /-- A limit stopped the evaluation. -/
  | halt (limit : Limit) (offset : Nat)
  deriving DecidableEq, Repr

/-- The state of an evaluation. -/
structure State where
  /-- The current position. -/
  here : Cursor
  /-- Nodes that no rule has taken as its children yet, the latest first. -/
  nodes : List Node := []
  memo : Memo := ∅
  /-- The nesting depth of calls. -/
  depth : Nat := 0
  /-- The nesting depth of predicates. -/
  predicates : Nat := 0
  /-- The largest offset at which a terminal failed outside predicates. -/
  furthest : Nat := 0
  /-- What the terminals that failed there say they expected, each once, the latest first. -/
  expected : List String := []
  /-- The limit that stopped the evaluation. -/
  halted : Option Limit := none
  stats : Stats := {}
  /-- The events so far, the latest first. -/
  log : List Event := []

/-- The part of a state that a failure restores. -/
structure Mark where
  here : Cursor
  nodes : List Node

namespace State

/-- The state before the first character of a text. -/
def initial (text : String) : State where
  here := .atStart text

/-- Whether no limit has stopped the evaluation. -/
def running (s : State) : Bool :=
  s.halted.isNone

/-- Whether expectations are recorded. Inside a predicate they are not. -/
def tracking (s : State) : Bool :=
  s.predicates == 0

/-- Adds an event to the log if one is kept. -/
def record (cfg : Settings) (event : Event) (s : State) : State :=
  if cfg.traced then { s with log := event :: s.log } else s

/-- Stops the evaluation at a limit. Only the first limit counts. -/
def halt (cfg : Settings) (limit : Limit) (s : State) : State :=
  if s.running then
    { s with halted := some limit }.record cfg (.halt limit s.here.offset)
  else s

/-- The position and the nodes. -/
def mark (s : State) : Mark :=
  ⟨s.here, s.nodes⟩

/-- Goes back to a mark. -/
def reset (m : Mark) (s : State) : State :=
  { s with here := m.here, nodes := m.nodes }

/-- Counts a step. -/
def countStep (s : State) : State :=
  { s with stats := { s.stats with steps := s.stats.steps + 1 } }

/-- Notes that a terminal failed here. A failure further on than all before discards what was
expected until then; a nearer one, or one inside a predicate, leaves no trace. -/
def expect (expectation : String) (s : State) : State :=
  if s.tracking = false ∨ s.here.offset < s.furthest then s
  else if s.furthest < s.here.offset then
    { s with furthest := s.here.offset, expected := [expectation] }
  else if s.expected.contains expectation then s
  else { s with expected := expectation :: s.expected }

/-- The failure of a terminal. -/
def miss (cfg : Settings) (expectation : String) (s : State) : State :=
  (s.expect expectation).record cfg (.miss s.here.offset expectation s.tracking)

/-- Goes back to a mark after an alternative failed. -/
def backtrack (cfg : Settings) (m : Mark) (s : State) : State :=
  (s.reset m).record cfg (.backtrack m.here.offset)

/-- Goes one predicate deeper. -/
def enterPredicate (s : State) : State :=
  { s with predicates := s.predicates + 1 }

/-- Comes out of a predicate and goes back to where it began. -/
def leavePredicate (m : Mark) (s : State) : State :=
  { s with predicates := s.predicates - 1 }.reset m

/-- The result remembered for a call from here, if the policy asks for one and it can be used. -/
def answer? (policy : MemoPolicy) (rule : RuleId) (s : State) : Option MemoEntry :=
  if policy = .off then none else s.memo.answer? rule s.here.offset s.tracking

/-- Answers a call by a remembered result. -/
def replay (cfg : Settings) (rule : RuleId) (entry : MemoEntry) (s : State) : Bool × State :=
  let s := { s with stats := { s.stats with hits := s.stats.hits + 1 } }
  match entry with
  | .matched stop node =>
    let s := s.record cfg (.reuse rule s.here.offset (some stop.offset))
    (true, { s with here := stop, nodes := node.toList ++ s.nodes })
  | .failed => (false, s.record cfg (.reuse rule s.here.offset none))

/-- Begins the evaluation of the body of a rule: one call deeper, with no nodes yet. -/
def enterRule (cfg : Settings) (rule : RuleId) (s : State) : State :=
  { s with
    nodes := []
    depth := s.depth + 1
    stats :=
      { s.stats with
        maxDepth := max s.stats.maxDepth (s.depth + 1)
        evaluations := s.stats.evaluations + 1 } }.record cfg
    (.enter rule s.here.offset s.tracking)

/-- The node that a match of a rule makes, given where it began and the nodes made inside it, the
latest first. -/
def nodeOf (id : RuleId) (rule : Rule) (start : Nat) (s : State) : Option Node :=
  if rule.hidden then none
  else
    some ⟨rule.label, id, ⟨start, s.here.offset⟩, if rule.leaf then [] else s.nodes.reverse⟩

/-- Ends the evaluation of the body of a rule that began at a mark: one call less deep, with the
node of a match added to the nodes from before. -/
def leaveRule (cfg : Settings) (id : RuleId) (m : Mark) (matched : Bool) (node : Option Node)
    (s : State) : State :=
  { s with
    nodes := if matched then node.toList ++ m.nodes else m.nodes
    depth := s.depth - 1 }.record cfg
    (.leave id m.here.offset (if matched then some s.here.offset else none))

/-- Remembers the result of a call from an offset, unless the memo is full. -/
def remember (cfg : Settings) (rule : RuleId) (offset : Nat) (entry : MemoEntry) (s : State) :
    State :=
  if cfg.allowsEntries (s.memo.size + 1) then
    { s with memo := s.memo.remember rule offset ⟨entry, !s.tracking⟩ }
  else s.halt cfg .entries

end State

end ClassTranscript.Peg
