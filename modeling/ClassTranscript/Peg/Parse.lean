import ClassTranscript.Peg.Eval

/-!
# Parsing

`parse` runs a rule of a grammar at the beginning of a text and turns the state at the end into an
outcome. A match may end before the end of the text; a grammar that must consume everything asks for
the end of the input.
-/

namespace ClassTranscript.Peg

/-- The root of the tree of a match. A hidden rule makes no node, so a leaf over the match stands
for it. -/
def rootNode (rule : Rule) (id : RuleId) (s : State) : Node :=
  match s.nodes with
  | [node] => if rule.hidden then leaf else node
  | _ => leaf
where
  /-- The leaf over the whole match. -/
  leaf : Node :=
    ⟨rule.label, id, ⟨0, s.here.offset⟩, []⟩

/-- What an evaluation that matched or did not match comes to. -/
def outcomeOf (rule : Rule) (id : RuleId) (matched : Bool) (s : State) : Outcome :=
  let stats := { s.stats with entries := s.memo.size }
  match s.halted, matched with
  | some limit, _ =>
    .mismatched ⟨max s.furthest s.here.offset, [], .limit limit, stats⟩
  | none, true => .matched ⟨rootNode rule id s, s.here.offset⟩ stats
  | none, false =>
    .mismatched ⟨s.furthest, s.expected.mergeSort (fun a b => a ≤ b), .grammar, stats⟩

/-- The end of an evaluation of a rule on a text: whether it matched, and the last state. The first
number bounds the nesting as in `eval`. -/
def evaluate (g : Grammar) (cfg : Settings) (bound : Nat) (id : RuleId) (text : String) :
    Bool × State :=
  runCall g cfg (eval g cfg bound) id (.initial text)

/-- The outcome of an evaluation of a rule on a text, with the events on the way to it in the order
in which they happened. There is none when the grammar has no such rule. -/
def parseWithin? (g : Grammar) (cfg : Settings) (bound : Nat) (id : RuleId) (text : String) :
    Option (Outcome × List Event) :=
  (g.rule? id).map fun rule =>
    let (matched, s) := evaluate g cfg bound id text
    (outcomeOf rule id matched s, s.log.reverse)

/-- How a parse is run. -/
structure Options where
  limits : Limits := {}
  memoize : Bool := true
  traced : Bool := false
  deriving DecidableEq, Repr

namespace Options

/-- The settings of an evaluation with these options. -/
def settings (o : Options) : Settings :=
  ⟨some o.limits, o.memoize, o.traced⟩

end Options

/-- Matches a rule against the beginning of a text. The nesting of an evaluation stays below the
limit on steps, so the bound on it is out of reach. -/
def parse? (g : Grammar) (o : Options) (id : RuleId) (text : String) :
    Option (Outcome × List Event) :=
  parseWithin? g o.settings (o.limits.steps + 1) id text

/-- Matches the root of a grammar against the beginning of a text. Where the grammar lacks its root
nothing matches. -/
def parse (g : Grammar) (o : Options) (text : String) : Outcome :=
  match parse? g o g.root text with
  | some (outcome, _) => outcome
  | none => .mismatched ⟨0, [], .grammar, {}⟩

end ClassTranscript.Peg
