import ClassTranscript.Proofs.Peg.Frontier
import ClassTranscript.Proofs.Peg.Position

/-!
# Plain runs

`Runs g job here r e` says what linked expressions do at a position, without a state: the job comes
to the result `r`, and `e` is the effect it has on the way, that is the terminals that fail outside
predicates, the steps, the rule bodies evaluated and how deeply calls nest. There are no limits and
nothing is remembered. A job is an expression, or what an expression leaves to be done: the items
of a sequence, the alternatives of a choice, the rounds of a repetition, the body of a called rule.

A job has at most one run from a position (`Runs.unique`), and a match ends there or further on in
the same text (`Runs.reaches`).
-/

namespace ClassTranscript.Peg

/-! ### Jobs, matches and effects -/

/-- Something to run at a position. -/
inductive Job where
  | op (op : Op)
  /-- The items of a sequence that are left. -/
  | items (ops : List Op)
  /-- The alternatives of a choice that are left. -/
  | alternatives (ops : List Op)
  /-- Rounds of a repetition of an expression. -/
  | rounds (body : Op)
  /-- A call of a rule, once it is begun. -/
  | call (rule : RuleId)

/-- What a match leaves: the position after it, and the nodes made in it, the latest first. -/
structure Match where
  stop : Cursor
  nodes : List Node := []

namespace Match

/-- A match followed by another that begins where it stops. -/
def andThen (first second : Match) : Match :=
  ⟨second.stop, second.nodes ++ first.nodes⟩

/-- The node that a rule makes of a match of its body that began at `start`. -/
def node? (id : RuleId) (rule : Rule) (start : Nat) (m : Match) : Option Node :=
  if rule.hidden then none
  else some ⟨rule.label, id, ⟨start, m.stop.offset⟩, if rule.leaf then [] else m.nodes.reverse⟩

/-- What a match of the body of a rule, begun at `start`, is to the caller. -/
def inRule (id : RuleId) (rule : Rule) (start : Nat) (m : Match) : Match :=
  ⟨m.stop, (m.node? id rule start).toList⟩

@[simp]
theorem stop_andThen (first second : Match) :
  (first.andThen second).stop = second.stop
  := rfl

@[simp]
theorem nodes_andThen (first second : Match) :
  (first.andThen second).nodes = second.nodes ++ first.nodes
  := rfl

end Match

/-- What a run does on the way to its result. -/
structure Effect where
  /-- The failures of terminals outside predicates, in the order in which they happen. -/
  misses : List Miss := []
  /-- The expressions begun. -/
  steps : Nat := 0
  /-- The rule bodies evaluated. -/
  calls : Nat := 0
  /-- How deeply calls nest. -/
  depth : Nat := 0

namespace Effect

/-- One effect after the other. -/
instance : Append Effect :=
  ⟨fun a b => ⟨a.misses ++ b.misses, a.steps + b.steps, a.calls + b.calls, max a.depth b.depth⟩⟩

/-- The effect of beginning an expression. -/
def step : Effect :=
  { steps := 1 }

/-- The effect inside a predicate, where failures are not noted. -/
def silent (e : Effect) : Effect :=
  { e with misses := [] }

/-- The effect of a call with the given effect of the body. -/
def inCall (e : Effect) : Effect :=
  { e with calls := e.calls + 1, depth := e.depth + 1 }

@[simp]
theorem steps_append (a b : Effect) :
  (a ++ b).steps = a.steps + b.steps
  := rfl

@[simp]
theorem depth_append (a b : Effect) :
  (a ++ b).depth = max a.depth b.depth
  := rfl

end Effect

/-! ### Runs -/

/-- The runs of jobs, one rule for each thing that can happen. -/
inductive Runs (g : Grammar) : Job → Cursor → Option Match → Effect → Prop where
  | pass {test : Test} {expectation : String} {here next : Cursor} :
    test.pass? here = some next →
    Runs g (.op (.test test expectation)) here (some { stop := next }) .step
  | miss {test : Test} {expectation : String} {here : Cursor} :
    test.pass? here = none →
    Runs g (.op (.test test expectation)) here none
      { misses := [⟨here.offset, expectation⟩], steps := 1 }
  | seq {ops : List Op} {here : Cursor} {r : Option Match} {e : Effect} :
    Runs g (.items ops) here r e →
    Runs g (.op (.seq ops)) here r (.step ++ e)
  | choice {ops : List Op} {here : Cursor} {r : Option Match} {e : Effect} :
    Runs g (.alternatives ops) here r e →
    Runs g (.op (.choice ops)) here r (.step ++ e)
  | star {body : Op} {here : Cursor} {r : Option Match} {e : Effect} :
    Runs g (.rounds body) here r e →
    Runs g (.op (.star body)) here r (.step ++ e)
  | plusNone {body : Op} {here : Cursor} {e : Effect} :
    Runs g (.op body) here none e →
    Runs g (.op (.plus body)) here none (.step ++ e)
  | plusSome {body : Op} {here : Cursor} {m : Match} {r : Option Match} {e f : Effect} :
    Runs g (.op body) here (some m) e →
    Runs g (.rounds body) m.stop r f →
    Runs g (.op (.plus body)) here (r.map m.andThen) (.step ++ (e ++ f))
  | optional {body : Op} {here : Cursor} {r : Option Match} {e : Effect} :
    Runs g (.op body) here r e →
    Runs g (.op (.optional body)) here (some (r.getD { stop := here })) (.step ++ e)
  | ahead {body : Op} {here : Cursor} {r : Option Match} {e : Effect} :
    Runs g (.op body) here r e →
    Runs g (.op (.ahead body)) here (r.map fun _ => { stop := here }) (.step ++ e.silent)
  | notAhead {body : Op} {here : Cursor} {r : Option Match} {e : Effect} :
    Runs g (.op body) here r e →
    Runs g (.op (.notAhead body)) here (if r.isSome then none else some { stop := here })
      (.step ++ e.silent)
  | opCall {id : RuleId} {here : Cursor} {r : Option Match} {e : Effect} :
    Runs g (.call id) here r e →
    Runs g (.op (.call id)) here r (.step ++ e)
  | itemsNil {here : Cursor} :
    Runs g (.items []) here (some { stop := here }) {}
  | itemsNone {op : Op} {ops : List Op} {here : Cursor} {e : Effect} :
    Runs g (.op op) here none e →
    Runs g (.items (op :: ops)) here none e
  | itemsSome {op : Op} {ops : List Op} {here : Cursor} {m : Match} {r : Option Match}
      {e f : Effect} :
    Runs g (.op op) here (some m) e →
    Runs g (.items ops) m.stop r f →
    Runs g (.items (op :: ops)) here (r.map m.andThen) (e ++ f)
  | alternativesNil {here : Cursor} :
    Runs g (.alternatives []) here none {}
  | alternativesNone {op : Op} {ops : List Op} {here : Cursor} {r : Option Match} {e f : Effect} :
    Runs g (.op op) here none e →
    Runs g (.alternatives ops) here r f →
    Runs g (.alternatives (op :: ops)) here r (e ++ f)
  | alternativesSome {op : Op} {ops : List Op} {here : Cursor} {m : Match} {e : Effect} :
    Runs g (.op op) here (some m) e →
    Runs g (.alternatives (op :: ops)) here (some m) e
  | roundsNone {body : Op} {here : Cursor} {e : Effect} :
    Runs g (.op body) here none e →
    Runs g (.rounds body) here (some { stop := here }) e
  | roundsIdle {body : Op} {here : Cursor} {m : Match} {e : Effect} :
    Runs g (.op body) here (some m) e →
    m.stop.offset = here.offset →
    Runs g (.rounds body) here (some m) e
  | roundsSome {body : Op} {here : Cursor} {m : Match} {r : Option Match} {e f : Effect} :
    Runs g (.op body) here (some m) e →
    m.stop.offset ≠ here.offset →
    Runs g (.rounds body) m.stop r f →
    Runs g (.rounds body) here (r.map m.andThen) (e ++ f)
  | call {id : RuleId} {rule : Rule} {here : Cursor} {r : Option Match} {e : Effect} :
    g.rule? id = some rule →
    Runs g (.op rule.op) here r e →
    Runs g (.call id) here (r.map (·.inRule id rule here.offset)) e.inCall
  | unknown {id : RuleId} {here : Cursor} :
    g.rule? id = none →
    Runs g (.call id) here none {}

namespace Runs

variable {g : Grammar} {job : Job} {here : Cursor} {r r' : Option Match} {e e' : Effect}

/-- A job has at most one run from a position. -/
theorem unique (h : Runs g job here r e) (h' : Runs g job here r' e') :
  r = r' ∧ e = e'
  := by
  induction h generalizing r' e' with
  | pass ht => cases h' <;> simp_all
  | miss ht => cases h' <;> simp_all
  | seq _ ih =>
      cases h' with
      | seq h' =>
          obtain ⟨rfl, rfl⟩ := ih h'
          exact ⟨rfl, rfl⟩
  | choice _ ih =>
      cases h' with
      | choice h' =>
          obtain ⟨rfl, rfl⟩ := ih h'
          exact ⟨rfl, rfl⟩
  | star _ ih =>
      cases h' with
      | star h' =>
          obtain ⟨rfl, rfl⟩ := ih h'
          exact ⟨rfl, rfl⟩
  | plusNone _ ih =>
      cases h' with
      | plusNone h' =>
          obtain ⟨-, rfl⟩ := ih h'
          exact ⟨rfl, rfl⟩
      | plusSome h' _ => simpa using (ih h').1
  | plusSome _ _ ih ihRounds =>
      cases h' with
      | plusNone h' => simpa using (ih h').1
      | plusSome h' hrounds =>
          obtain ⟨⟨⟩, rfl⟩ := ih h'
          obtain ⟨rfl, rfl⟩ := ihRounds hrounds
          exact ⟨rfl, rfl⟩
  | optional _ ih =>
      cases h' with
      | optional h' =>
          obtain ⟨rfl, rfl⟩ := ih h'
          exact ⟨rfl, rfl⟩
  | ahead _ ih =>
      cases h' with
      | ahead h' =>
          obtain ⟨rfl, rfl⟩ := ih h'
          exact ⟨rfl, rfl⟩
  | notAhead _ ih =>
      cases h' with
      | notAhead h' =>
          obtain ⟨rfl, rfl⟩ := ih h'
          exact ⟨rfl, rfl⟩
  | opCall _ ih =>
      cases h' with
      | opCall h' =>
          obtain ⟨rfl, rfl⟩ := ih h'
          exact ⟨rfl, rfl⟩
  | itemsNil =>
      cases h'
      exact ⟨rfl, rfl⟩
  | itemsNone _ ih =>
      cases h' with
      | itemsNone h' =>
          obtain ⟨-, rfl⟩ := ih h'
          exact ⟨rfl, rfl⟩
      | itemsSome h' _ => simpa using (ih h').1
  | itemsSome _ _ ih ihItems =>
      cases h' with
      | itemsNone h' => simpa using (ih h').1
      | itemsSome h' hitems =>
          obtain ⟨⟨⟩, rfl⟩ := ih h'
          obtain ⟨rfl, rfl⟩ := ihItems hitems
          exact ⟨rfl, rfl⟩
  | alternativesNil =>
      cases h'
      exact ⟨rfl, rfl⟩
  | alternativesNone _ _ ih ihNext =>
      cases h' with
      | alternativesNone h' hnext =>
          obtain ⟨-, rfl⟩ := ih h'
          obtain ⟨rfl, rfl⟩ := ihNext hnext
          exact ⟨rfl, rfl⟩
      | alternativesSome h' => simpa using (ih h').1
  | alternativesSome _ ih =>
      cases h' with
      | alternativesNone h' _ => simpa using (ih h').1
      | alternativesSome h' => apply ih h'
  | roundsNone _ ih =>
      cases h' with
      | roundsNone h' =>
          obtain ⟨-, rfl⟩ := ih h'
          exact ⟨rfl, rfl⟩
      | roundsIdle h' _ => simpa using (ih h').1
      | roundsSome h' _ _ => simpa using (ih h').1
  | roundsIdle _ hidle ih =>
      cases h' with
      | roundsNone h' => simpa using (ih h').1
      | roundsIdle h' _ => apply ih h'
      | roundsSome h' hmoves _ =>
          obtain ⟨⟨⟩, -⟩ := ih h'
          exact absurd hidle hmoves
  | roundsSome _ hmoves _ ih ihRounds =>
      cases h' with
      | roundsNone h' => simpa using (ih h').1
      | roundsIdle h' hidle =>
          obtain ⟨⟨⟩, -⟩ := ih h'
          exact absurd hidle hmoves
      | roundsSome h' _ hrounds =>
          obtain ⟨⟨⟩, rfl⟩ := ih h'
          obtain ⟨rfl, rfl⟩ := ihRounds hrounds
          exact ⟨rfl, rfl⟩
  | call hrule _ ih =>
      cases h' with
      | call hrule' h' =>
          obtain rfl := Option.some.inj (hrule.symm.trans hrule')
          obtain ⟨rfl, rfl⟩ := ih h'
          exact ⟨rfl, rfl⟩
      | unknown hnone => simp [hrule] at hnone
  | unknown hnone =>
      cases h' with
      | call hrule _ => simp [hrule] at hnone
      | unknown _ => exact ⟨rfl, rfl⟩

/-- A match ends where its run begins or further on in the same text. -/
theorem reaches {m : Match} (h : Runs g job here r e) (hr : r = some m) :
  here.Reaches m.stop
  := by
  induction h generalizing m with
  | pass ht =>
      obtain rfl := Option.some.inj hr
      apply Test.reaches_of_pass? ht
  | miss _ => simp at hr
  | seq _ ih => apply ih hr
  | choice _ ih => apply ih hr
  | star _ ih => apply ih hr
  | plusNone _ _ => simp at hr
  | plusSome _ _ ih ihRounds =>
      obtain ⟨n, hn, rfl⟩ := Option.map_eq_some_iff.mp hr
      have htail := ihRounds hn
      apply (ih rfl).trans htail
  | @optional _ _ r _ _ ih =>
      obtain rfl := Option.some.inj hr
      cases r with
      | none => exact .refl _
      | some m => apply ih rfl
  | ahead _ _ =>
      obtain ⟨_, -, rfl⟩ := Option.map_eq_some_iff.mp hr
      exact .refl _
  | notAhead _ _ =>
      simp only [Option.ite_none_left_eq_some, Option.some.injEq] at hr
      obtain ⟨-, rfl⟩ := hr
      exact .refl _
  | opCall _ ih => apply ih hr
  | itemsNil =>
      obtain rfl := Option.some.inj hr
      exact .refl _
  | itemsNone _ _ => simp at hr
  | itemsSome _ _ ih ihItems =>
      obtain ⟨n, hn, rfl⟩ := Option.map_eq_some_iff.mp hr
      have htail := ihItems hn
      apply (ih rfl).trans htail
  | alternativesNil => simp at hr
  | alternativesNone _ _ _ ihNext => apply ihNext hr
  | alternativesSome _ ih => apply ih hr
  | roundsNone _ _ =>
      obtain rfl := Option.some.inj hr
      exact .refl _
  | roundsIdle _ _ ih => apply ih hr
  | roundsSome _ _ _ ih ihRounds =>
      obtain ⟨n, hn, rfl⟩ := Option.map_eq_some_iff.mp hr
      have htail := ihRounds hn
      apply (ih rfl).trans htail
  | call _ _ ih =>
      obtain ⟨n, hn, rfl⟩ := Option.map_eq_some_iff.mp hr
      have hbody := ih hn
      apply hbody
  | unknown _ => simp at hr

end Runs

end ClassTranscript.Peg
