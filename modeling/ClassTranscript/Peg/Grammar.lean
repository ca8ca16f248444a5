import ClassTranscript.Peg.LeadingCall
import ClassTranscript.Text.Quoted

/-!
# Grammars

A `Definition` gives a rule its name, its body and the way its matches appear in trees. A `Grammar`
is a list of linked rules with a root; `Draft.build` makes one out of definitions and refuses those
that the evaluator could not run to completion. A grammar is displayed with one rule a line.
-/

namespace ClassTranscript.Peg

/-- Which results of a rule are remembered for each offset. -/
inductive MemoPolicy where
  | off
  /-- Matches and failures. -/
  | all
  /-- Failures only. -/
  | mismatches
  deriving DecidableEq, Repr

/-- The definition of a rule. -/
structure Definition where
  name : String
  body : Expr
  /-- The label of the nodes that the rule makes. -/
  label : String := name
  /-- The rule makes no node, and what is matched inside it leaves none. -/
  hidden : Bool := false
  /-- The nodes of the rule have no children. -/
  leaf : Bool := false
  memo : MemoPolicy := .off

/-- A rule of a grammar: its definition, the linked form of its body, and whether it may succeed
without consuming input. -/
structure Rule extends Definition where
  op : Op
  nullable : Bool

/-- A set of rules linked with each other. The number of a rule is its place in the list. -/
structure Grammar where
  rules : Array Rule
  root : RuleId

/-- Why definitions do not make a grammar. -/
inductive GrammarError where
  | duplicateRule (name : String)
  | empty
  | unknownRoot (name : String)
  /-- The body of `rule` refers to a rule `name` that is not defined. -/
  | undefinedRule (rule name : String)
  /-- The body of `rule` repeats an expression that may match nothing. -/
  | nullableRepetition (rule : String)
  /-- Each rule of the cycle calls the next before it consumes input; the last is the first. -/
  | leftRecursion (cycle : List String)
  deriving DecidableEq, Repr

namespace GrammarError

/-- The message of an error. -/
def message : GrammarError → String
  | .duplicateRule name => "rule \x60" ++ name ++ "\x60 is defined more than once"
  | .empty => "grammar defines no rules"
  | .unknownRoot name => "root rule \x60" ++ name ++ "\x60 is not defined"
  | .undefinedRule rule name =>
    "rule \x60" ++ rule ++ "\x60 references undefined rule \x60" ++ name ++ "\x60"
  | .nullableRepetition rule =>
    "rule \x60" ++ rule ++ "\x60 repeats an expression that can match empty input"
  | .leftRecursion cycle => "left recursion: " ++ " -> ".intercalate cycle

end GrammarError

/-! ### From definitions to grammars -/

/-- Definitions on their way to a grammar, in the order in which their names first came up. -/
structure Draft where
  definitions : List Definition := []
  /-- The first name that was defined a second time. -/
  redefined : Option String := none
  /-- The name of the root. Without one the root is the first rule. -/
  root : Option String := none

namespace Draft

/-- Whether a name is defined. -/
def defines (d : Draft) (name : String) : Bool :=
  d.definitions.any (·.name == name)

/-- The draft with one more definition. A definition of a name that is already defined takes the
place of the earlier one, and the draft will not build. -/
def define (d : Draft) (x : Definition) : Draft :=
  if d.defines x.name then
    { d with
      definitions := d.definitions.map fun y => if y.name == x.name then x else y
      redefined := d.redefined <|> some x.name }
  else { d with definitions := d.definitions ++ [x] }

/-- The draft with several more definitions. -/
def defineAll (d : Draft) (xs : List Definition) : Draft :=
  xs.foldl define d

/-- The draft with the root named. -/
def withRoot (d : Draft) (name : String) : Draft :=
  { d with root := some name }

/-- The number of a name among the definitions. -/
def ruleId? (d : Draft) (name : String) : Option RuleId :=
  d.definitions.findIdx? (·.name == name)

/-- The number of the root. -/
def rootId (d : Draft) : Except GrammarError RuleId :=
  match d.root with
  | none => .ok 0
  | some name =>
    match d.ruleId? name with
    | some id => .ok id
    | none => .error (.unknownRoot name)

/-- The linked bodies of some definitions, with names resolved by `ruleOf`. -/
def linkBodies (ruleOf : String → Option RuleId) :
    List Definition → Except GrammarError (List Op)
  | [] => .ok []
  | x :: xs =>
    match x.body.link ruleOf with
    | .error name => .error (.undefinedRule x.name name)
    | .ok op => (linkBodies ruleOf xs).map (op :: ·)

/-- The rules that linked definitions make, with their nullability. -/
def assemble (xs : List Definition) (bodies : List Op) (flags : List Bool) : List Rule :=
  (xs.zip (bodies.zip flags)).map fun (x, op, nullable) => { x with op, nullable }

/-- The grammar of a draft, or the first of the conditions that it does not meet: no name is defined
twice, there is a rule, the root is defined, every reference is defined, no repetition is of a
nullable expression, and no rule leads back to itself before it consumes input. -/
def build (d : Draft) : Except GrammarError Grammar := do
  if let some name := d.redefined then throw (.duplicateRule name)
  if d.definitions.isEmpty then throw .empty
  let root ← d.rootId
  let bodies ← linkBodies d.ruleId? d.definitions
  let flags := nullableRules bodies
  let rules := assemble d.definitions bodies flags
  if let some rule := rules.find? (·.op.repeatsNullable (flagged flags)) then
    throw (.nullableRepetition rule.name)
  if let some cycle := findCycle (bodies.map (Op.leadingCalls (flagged flags))) then
    throw (.leftRecursion (cycle.filterMap fun id => rules[id]?.map (·.name)))
  return ⟨rules.toArray, root⟩

/-- The grammar of a draft that is known to build. Other drafts give a grammar without rules. -/
def buildD (d : Draft) : Grammar :=
  d.build.toOption.getD ⟨#[], 0⟩

end Draft

/-! ### Rules by name and number -/

namespace Grammar

/-- The rule of a number. -/
def rule? (g : Grammar) (id : RuleId) : Option Rule :=
  g.rules[id]?

/-- The number of the rule of a name. -/
def ruleId? (g : Grammar) (name : String) : Option RuleId :=
  g.rules.findIdx? (·.name == name)

/-- The name of the rule of a number. -/
def nameOf (g : Grammar) (id : RuleId) : String :=
  ((g.rule? id).map (·.name)).getD ""

end Grammar

/-! ### Written forms -/

namespace Rule

/-- The notes on a rule: a label unlike its name, how its nodes appear, and what is remembered. -/
def notes (r : Rule) : List String :=
  (if r.label = r.name then [] else ["label " ++ Text.visible r.label])
    ++ (if r.hidden then ["no node"] else [])
    ++ (if r.leaf then ["leaf"] else [])
    ++ match r.memo with
      | .off => []
      | .all => ["memo"]
      | .mismatches => ["memo mismatches"]

instance : ToString Rule where
  toString r :=
    r.name ++ " <- " ++ toString r.body
      ++ if r.notes.isEmpty then "" else "  # " ++ ", ".intercalate r.notes

end Rule

/-- The name of a memo policy in documents. -/
def MemoPolicy.name : MemoPolicy → String
  | .off => "off"
  | .all => "all"
  | .mismatches => "mismatches"

/-- A rule as a document. -/
def Rule.toJson (r : Rule) : Json :=
  .object
    [("name", .text r.name), ("label", .text r.label), ("body", r.body.toJson),
     ("suppress_node", .bool r.hidden), ("suppress_subnodes", .bool r.leaf),
     ("memo", .text r.memo.name), ("nullable", .bool r.nullable)]

namespace Grammar

instance : ToString Grammar where
  toString g := String.join (g.rules.toList.map fun r => toString r ++ "\n")

/-- A grammar as a document: the array of its rules. -/
def toJson (g : Grammar) : Json :=
  .array (g.rules.toList.map Rule.toJson)

end Grammar

end ClassTranscript.Peg
