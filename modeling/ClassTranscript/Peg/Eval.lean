import ClassTranscript.Peg.State

/-!
# The evaluator

`eval` runs a linked expression at the current position. It tells whether the expression matched and
gives the state after it. An ordered choice goes back and tries the next alternative when one fails,
a repetition takes as many rounds as it can, and a predicate goes back in any case. A call first
asks the memo. Once a limit has stopped the evaluation everything fails.

The evaluator counts every expression that it begins as one step, and its first argument bounds how
deeply expressions and rounds of repetitions nest. Each such level costs a step, so where steps are
limited a bound above that limit is never reached; reaching it counts as running out of steps.
-/

namespace ClassTranscript.Peg

/-- Something to run at a state: whether it matched, and the state after it. -/
abbrev Step :=
  State → Bool × State

/-- The items of a sequence, one after the other. If one fails, the sequence fails and goes back to
the mark. -/
def runSeq (run : Op → Step) (m : Mark) : List Op → Step
  | [], s => (true, s)
  | op :: ops, s =>
    match run op s with
    | (true, s) => runSeq run m ops s
    | (false, s) => (false, s.reset m)

/-- The alternatives of a choice, in order, until one matches. -/
def runChoice (cfg : Settings) (run : Op → Step) (m : Mark) : List Op → Step
  | [], s => (false, s)
  | op :: ops, s =>
    match run op s with
    | (true, s) => (true, s)
    | (false, s) =>
      if s.running then runChoice cfg run m ops (s.backtrack cfg m) else (false, s)

/-- Rounds of a repetition until one fails or does not advance. The number of rounds is bounded. -/
def runRounds (cfg : Settings) (run : Step) : Nat → State → State
  | 0, s => s.halt cfg .steps
  | rounds + 1, s =>
    let m := s.mark
    match run s with
    | (false, s) => s.reset m
    | (true, s) => if s.here.offset = m.here.offset then s else runRounds cfg run rounds s

/-- A body that is looked at without being consumed. -/
def runPredicate (run : Step) (s : State) : Bool × State :=
  let m := s.mark
  let (matched, s) := run s.enterPredicate
  (matched, s.leavePredicate m)

/-- What is left to do for a call once the body of the rule is evaluated: the node is made, and the
result remembered where the policy says so and nothing is remembered yet. -/
def finishCall (cfg : Settings) (id : RuleId) (rule : Rule) (m : Mark) (matched : Bool) :
    Step := fun s =>
  let policy := cfg.policyOf rule
  let node := s.nodeOf id rule m.here.offset
  let s := s.leaveRule cfg id m matched node
  if !s.running then (false, s)
  else if policy = .off ∨ s.memo.knows id m.here.offset then (matched, s)
  else
    let s :=
      match policy, matched with
      | .all, true => s.remember cfg id m.here.offset (.matched s.here node)
      | _, true => s
      | _, false => s.remember cfg id m.here.offset .failed
    (matched && s.running, s)

/-- A call of a rule. A call of a rule that the grammar does not have fails. -/
def runCall (g : Grammar) (cfg : Settings) (run : Op → Step) (id : RuleId) : Step := fun s =>
  match g.rule? id with
  | none => (false, s)
  | some rule =>
    match s.answer? (cfg.policyOf rule) id with
    | some entry => s.replay cfg id entry
    | none =>
      if !cfg.allowsDepth (s.depth + 1) then (false, s.halt cfg .depth)
      else
        let m := s.mark
        let (matched, s) := run rule.op (s.enterRule cfg id)
        finishCall cfg id rule m matched s

/-- Runs an expression at the current position. -/
def eval (g : Grammar) (cfg : Settings) : Nat → Op → Step
  | 0, _, s => (false, s.halt cfg .steps)
  | bound + 1, op, s =>
    if !s.running then (false, s)
    else
      let s := s.countStep
      if !cfg.allowsSteps s.stats.steps then (false, s.halt cfg .steps)
      else
        match op with
        | .test test expectation =>
          match test.pass? s.here with
          | some next => (true, { s with here := next })
          | none => (false, s.miss cfg expectation)
        | .seq items => runSeq (eval g cfg bound) s.mark items s
        | .choice alternatives => runChoice cfg (eval g cfg bound) s.mark alternatives s
        | .star body =>
          let s := runRounds cfg (eval g cfg bound body) bound s
          (s.running, s)
        | .plus body =>
          match eval g cfg bound body s with
          | (false, s) => (false, s)
          | (true, s) =>
            let s := runRounds cfg (eval g cfg bound body) bound s
            (s.running, s)
        | .optional body =>
          let m := s.mark
          match eval g cfg bound body s with
          | (true, s) => (s.running, s)
          | (false, s) => (s.running, s.reset m)
        | .ahead body =>
          let (matched, s) := runPredicate (eval g cfg bound body) s
          (matched && s.running, s)
        | .notAhead body =>
          let (matched, s) := runPredicate (eval g cfg bound body) s
          (!matched && s.running, s)
        | .call id => runCall g cfg (eval g cfg bound) id s

end ClassTranscript.Peg
