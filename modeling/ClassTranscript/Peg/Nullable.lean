import ClassTranscript.Peg.Op

/-!
# Matching without consuming

An expression is nullable when it may succeed without consuming input. For the rules of a grammar
this is the least solution of the equations that `Op.nullable` reads off their bodies, found by
passing over the rules until a pass changes nothing. A repetition of a nullable expression would not
advance; `Op.repeatsNullable` finds such repetitions.
-/

namespace ClassTranscript.Peg

namespace Op

mutual

/-- Whether an expression may succeed without consuming input, where `known` tells which rules
may. -/
def nullable (known : RuleId → Bool) : Op → Bool
  | .test t _ => t.isNullable
  | .seq items => allNullable known items
  | .choice alternatives => anyNullable known alternatives
  | .star _ => true
  | .plus body => nullable known body
  | .optional _ => true
  | .ahead _ => true
  | .notAhead _ => true
  | .call id => known id

/-- Whether every one of some expressions is nullable. -/
def allNullable (known : RuleId → Bool) : List Op → Bool
  | [] => true
  | op :: ops => nullable known op && allNullable known ops

/-- Whether one of some expressions is nullable. -/
def anyNullable (known : RuleId → Bool) : List Op → Bool
  | [] => false
  | op :: ops => nullable known op || anyNullable known ops

end

mutual

/-- Whether an expression has a repetition of a nullable expression in it. -/
def repeatsNullable (known : RuleId → Bool) : Op → Bool
  | .test _ _ => false
  | .seq items => anyRepeatsNullable known items
  | .choice alternatives => anyRepeatsNullable known alternatives
  | .star body => body.nullable known || repeatsNullable known body
  | .plus body => body.nullable known || repeatsNullable known body
  | .optional body => repeatsNullable known body
  | .ahead body => repeatsNullable known body
  | .notAhead body => repeatsNullable known body
  | .call _ => false

/-- Whether one of some expressions has a repetition of a nullable expression in it. -/
def anyRepeatsNullable (known : RuleId → Bool) : List Op → Bool
  | [] => false
  | op :: ops => repeatsNullable known op || anyRepeatsNullable known ops

end

end Op

/-- One value for each rule, read as a predicate that is false of other numbers. -/
def flagged (flags : List Bool) (id : RuleId) : Bool :=
  flags.getD id false

/-- A pass over the rules from number `n` on, given their bodies. A rule that is not flagged is
flagged if its body is nullable under the flags so far, those of the same pass included. -/
def sweepNullable (n : Nat) : List Op → List Bool → List Bool
  | [], flags => flags
  | body :: bodies, flags =>
    sweepNullable (n + 1) bodies
      (if !flagged flags n && body.nullable (flagged flags) then flags.set n true else flags)

/-- Passes over all rules, starting from `flags`, until one changes nothing or `rounds` of them are
done. -/
def settleNullable (bodies : List Op) : Nat → List Bool → List Bool
  | 0, flags => flags
  | rounds + 1, flags =>
    let swept := sweepNullable 0 bodies flags
    if swept = flags then flags else settleNullable bodies rounds swept

/-- Which rules may succeed without consuming input, given the bodies of all of them. Each pass that
changes something flags a rule, so as many passes as there are rules are enough. -/
def nullableRules (bodies : List Op) : List Bool :=
  settleNullable bodies bodies.length (List.replicate bodies.length false)

end ClassTranscript.Peg
