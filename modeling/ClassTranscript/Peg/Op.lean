import ClassTranscript.Peg.Cursor
import ClassTranscript.Peg.Expr

/-!
# Linked expressions

`Op` is the form of a rule body that is run against the input: references are resolved to rule
numbers, every terminal carries the text that its failures report, and a sequence or a choice of
one item is that item. `Expr.link` produces it, or names the first reference, from left to right,
that no rule answers to.
-/

namespace ClassTranscript.Peg

/-- The number of a rule inside its grammar, counted in the order of definition from zero. -/
abbrev RuleId :=
  Nat

/-- A parsing expression whose references are resolved. -/
inductive Op where
  /-- A terminal, with the text that its failures report. -/
  | test (test : Test) (expectation : String)
  | seq (items : List Op)
  | choice (alternatives : List Op)
  | star (body : Op)
  | plus (body : Op)
  | optional (body : Op)
  | ahead (body : Op)
  | notAhead (body : Op)
  | call (rule : RuleId)
  deriving Repr

namespace Expr

mutual

/-- The linked form of an expression, where `ruleOf` resolves names. -/
def link (ruleOf : String → Option RuleId) : Expr → Except String Op
  | .literal text => .ok (.test (.text text.toList) (Text.quote text))
  | .char cls => .ok (.test (.char cls) (toString cls))
  | .any => .ok (.test .any "any character")
  | .endOfInput => .ok (.test .endOfInput "end of input")
  | .seq [item] => link ruleOf item
  | .seq items => (linkAll ruleOf items).map .seq
  | .choice [item] => link ruleOf item
  | .choice items => (linkAll ruleOf items).map .choice
  | .star body => (link ruleOf body).map .star
  | .plus body => (link ruleOf body).map .plus
  | .optional body => (link ruleOf body).map .optional
  | .ahead body => (link ruleOf body).map .ahead
  | .notAhead body => (link ruleOf body).map .notAhead
  | .rule name =>
    match ruleOf name with
    | some id => .ok (.call id)
    | none => .error name

/-- The linked forms of several expressions. -/
def linkAll (ruleOf : String → Option RuleId) : List Expr → Except String (List Op)
  | [] => .ok []
  | item :: items =>
    match link ruleOf item with
    | .error name => .error name
    | .ok op => (linkAll ruleOf items).map (op :: ·)

end

end Expr

end ClassTranscript.Peg
