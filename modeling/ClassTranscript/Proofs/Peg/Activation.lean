import ClassTranscript.Peg.Parse
import ClassTranscript.Proofs.Peg.Simulation
import Mathlib.Logic.Relation

/-!
# Activations

An `Activation` is a job that the evaluator begins: what is left of the bounds, the mark that a
failing sequence goes back to, and the state at that moment. `Begins g cfg a b` says that the
evaluator begins `b` on the way through `a`, and `Activation.Reached` collects what an evaluation of
a rule on a text begins. Between the beginning and the end of an activation the position changes
only inside the activations that it begins.
-/

namespace ClassTranscript.Peg

/-- A job that the evaluator begins. -/
structure Activation where
  job : Job
  bound : Nat
  /-- What is left of the bound on the rounds of a repetition. -/
  rounds : Nat := 0
  /-- What a failing sequence goes back to. -/
  mark : Mark
  /-- The state at which the job begins. -/
  state : State

namespace Activation

/-- What the evaluator comes to: whether the job matched, and the state after it. -/
def ending (g : Grammar) (cfg : Settings) (a : Activation) : Bool × State :=
  a.job.perform g cfg a.bound a.rounds a.mark a.state

/-- An expression that begins at a state. -/
def ofOp (op : Op) (bound : Nat) (s : State) : Activation where
  job := .op op
  bound := bound
  mark := s.mark
  state := s

end Activation

/-- No limit has stopped the evaluation, and one more step is allowed. -/
def State.Steps (cfg : Settings) (s : State) : Prop :=
  s.running = true ∧ cfg.allowsSteps s.countStep.stats.steps = true

open Activation in
/-- What the evaluator begins on the way through a job. -/
inductive Begins (g : Grammar) (cfg : Settings) : Activation → Activation → Prop where
  | seq {ops : List Op} {bound rounds : Nat} {m : Mark} {s : State} :
    s.Steps cfg →
    Begins g cfg ⟨.op (.seq ops), bound + 1, rounds, m, s⟩
      ⟨.items ops, bound, 0, s.mark, s.countStep⟩
  | choice {ops : List Op} {bound rounds : Nat} {m : Mark} {s : State} :
    s.Steps cfg →
    Begins g cfg ⟨.op (.choice ops), bound + 1, rounds, m, s⟩
      ⟨.alternatives ops, bound, 0, s.mark, s.countStep⟩
  | star {body : Op} {bound rounds : Nat} {m : Mark} {s : State} :
    s.Steps cfg →
    Begins g cfg ⟨.op (.star body), bound + 1, rounds, m, s⟩
      ⟨.rounds body, bound, bound, s.mark, s.countStep⟩
  | plus {body : Op} {bound rounds : Nat} {m : Mark} {s : State} :
    s.Steps cfg →
    Begins g cfg ⟨.op (.plus body), bound + 1, rounds, m, s⟩ (ofOp body bound s.countStep)
  | plusRounds {body : Op} {bound rounds : Nat} {m : Mark} {s s' : State} :
    s.Steps cfg →
    eval g cfg bound body s.countStep = (true, s') →
    Begins g cfg ⟨.op (.plus body), bound + 1, rounds, m, s⟩
      ⟨.rounds body, bound, bound, s.mark, s'⟩
  | optional {body : Op} {bound rounds : Nat} {m : Mark} {s : State} :
    s.Steps cfg →
    Begins g cfg ⟨.op (.optional body), bound + 1, rounds, m, s⟩ (ofOp body bound s.countStep)
  | ahead {body : Op} {bound rounds : Nat} {m : Mark} {s : State} :
    s.Steps cfg →
    Begins g cfg ⟨.op (.ahead body), bound + 1, rounds, m, s⟩
      (ofOp body bound s.countStep.enterPredicate)
  | notAhead {body : Op} {bound rounds : Nat} {m : Mark} {s : State} :
    s.Steps cfg →
    Begins g cfg ⟨.op (.notAhead body), bound + 1, rounds, m, s⟩
      (ofOp body bound s.countStep.enterPredicate)
  | opCall {id : RuleId} {bound rounds : Nat} {m : Mark} {s : State} :
    s.Steps cfg →
    Begins g cfg ⟨.op (.call id), bound + 1, rounds, m, s⟩
      ⟨.call id, bound, 0, s.mark, s.countStep⟩
  | item {op : Op} {ops : List Op} {bound rounds : Nat} {m : Mark} {s : State} :
    Begins g cfg ⟨.items (op :: ops), bound, rounds, m, s⟩ (ofOp op bound s)
  | items {op : Op} {ops : List Op} {bound rounds : Nat} {m : Mark} {s s' : State} :
    eval g cfg bound op s = (true, s') →
    Begins g cfg ⟨.items (op :: ops), bound, rounds, m, s⟩ ⟨.items ops, bound, rounds, m, s'⟩
  | alternative {op : Op} {ops : List Op} {bound rounds : Nat} {m : Mark} {s : State} :
    Begins g cfg ⟨.alternatives (op :: ops), bound, rounds, m, s⟩ (ofOp op bound s)
  | alternatives {op : Op} {ops : List Op} {bound rounds : Nat} {m : Mark} {s s' : State} :
    eval g cfg bound op s = (false, s') →
    s'.running = true →
    Begins g cfg ⟨.alternatives (op :: ops), bound, rounds, m, s⟩
      ⟨.alternatives ops, bound, rounds, m, s'.backtrack cfg m⟩
  | round {body : Op} {bound rounds : Nat} {m : Mark} {s : State} :
    Begins g cfg ⟨.rounds body, bound, rounds + 1, m, s⟩ (ofOp body bound s)
  | rounds {body : Op} {bound rounds : Nat} {m : Mark} {s s' : State} :
    eval g cfg bound body s = (true, s') →
    s'.here.offset ≠ s.here.offset →
    Begins g cfg ⟨.rounds body, bound, rounds + 1, m, s⟩ ⟨.rounds body, bound, rounds, m, s'⟩
  | body {id : RuleId} {rule : Rule} {bound rounds : Nat} {m : Mark} {s : State} :
    g.rule? id = some rule →
    s.answer? (cfg.policyOf rule) id = none →
    cfg.allowsDepth (s.depth + 1) = true →
    Begins g cfg ⟨.call id, bound, rounds, m, s⟩ (ofOp rule.op bound (s.enterRule cfg id))

namespace Activation

/-- The call of a rule on a text that an evaluation begins with. -/
def first (id : RuleId) (bound : Nat) (text : String) : Activation where
  job := .call id
  bound := bound
  mark := (State.initial text).mark
  state := .initial text

/-- An evaluation of a rule on a text begins the activation. -/
def Reached (g : Grammar) (cfg : Settings) (bound : Nat) (id : RuleId) (text : String)
    (a : Activation) : Prop :=
  Relation.ReflTransGen (Begins g cfg) (first id bound text) a

theorem ending_first (g : Grammar) (cfg : Settings) (bound : Nat) (id : RuleId) (text : String) :
  (first id bound text).ending g cfg = evaluate g cfg bound id text
  := rfl

end Activation

end ClassTranscript.Peg
