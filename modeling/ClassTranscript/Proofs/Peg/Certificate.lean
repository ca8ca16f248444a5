import ClassTranscript.Peg.LeadingCall
import ClassTranscript.Proofs.Peg.Run

/-!
# Grammars that can be run to completion

A `Certificate` of a grammar is what the checks of a draft establish: which rules may match without
consuming input, that no repetition is of an expression that may, and a rank of the rules that
falls along leading calls. A run that matches without consuming is one of a nullable job
(`Runs.nullable`), so the rounds of a repetition always advance (`Runs.advances`).
-/

namespace ClassTranscript.Peg

/-- Why a grammar can be run to completion. -/
structure Certificate (g : Grammar) where
  /-- The rules that may match without consuming input. -/
  nullable : RuleId → Bool
  /-- A bound on how many rules are called one after the other before input is consumed. -/
  rank : RuleId → Nat
  nullable_of_op {id : RuleId} {rule : Rule} :
    g.rule? id = some rule → rule.op.nullable nullable = true → nullable id = true
  repeatsNullable {id : RuleId} {rule : Rule} :
    g.rule? id = some rule → rule.op.repeatsNullable nullable = false
  rank_lt_size {id : RuleId} {rule : Rule} : g.rule? id = some rule → rank id < g.rules.size
  rank_lt {id callee : RuleId} {rule rule' : Rule} :
    g.rule? id = some rule → g.rule? callee = some rule' →
    callee ∈ rule.op.leadingCalls nullable → rank callee < rank id

namespace Job

/-- Whether a job may match without consuming input, where `known` tells which rules may. -/
def nullable (known : RuleId → Bool) : Job → Bool
  | .op o => o.nullable known
  | .items ops => Op.allNullable known ops
  | .alternatives ops => Op.anyNullable known ops
  | .rounds _ => true
  | .call id => known id

/-- Whether a job has a repetition of a nullable expression in it. -/
def repeatsNullable (known : RuleId → Bool) : Job → Bool
  | .op o => o.repeatsNullable known
  | .items ops => Op.anyRepeatsNullable known ops
  | .alternatives ops => Op.anyRepeatsNullable known ops
  | .rounds body => (Op.star body).repeatsNullable known
  | .call _ => false

end Job

namespace Runs

variable {g : Grammar} {job : Job} {here : Cursor} {r : Option Match} {m : Match} {e : Effect}

/-- Two runs, one after the other, that end where they begin both do. -/
theorem idle_of_andThen {job job' : Job} {m n : Match} {e f : Effect}
    (h : Runs g job here (some m) e) (h' : Runs g job' m.stop (some n) f)
    (hidle : (m.andThen n).stop.offset = here.offset) :
  m.stop.offset = here.offset ∧ n.stop.offset = m.stop.offset
  := by
  have hfirst := (h.reaches rfl).offset_le
  have hsecond := (h'.reaches rfl).offset_le
  rw [Match.stop_andThen] at hidle
  omega

/-- A job that matches without consuming input is nullable. -/
theorem nullable (c : Certificate g) (h : Runs g job here r e) (hr : r = some m)
    (hidle : m.stop.offset = here.offset) :
  job.nullable c.nullable = true
  := by
  induction h generalizing m with
  | pass htest =>
      obtain rfl := Option.some.inj hr
      apply Test.isNullable_of_pass? htest hidle
  | miss _ => simp at hr
  | seq _ ih => apply ih hr hidle
  | choice _ ih => apply ih hr hidle
  | star _ _ => rfl
  | plusNone _ _ => simp at hr
  | plusSome hbody hrounds ih _ =>
      obtain ⟨n, rfl, rfl⟩ := Option.map_eq_some_iff.mp hr
      apply ih rfl (hbody.idle_of_andThen hrounds hidle).1
  | optional _ _ => rfl
  | ahead _ _ => rfl
  | notAhead _ _ => rfl
  | opCall _ ih => apply ih hr hidle
  | itemsNil => rfl
  | itemsNone _ _ => simp at hr
  | itemsSome hop hitems ih ihItems =>
      obtain ⟨n, rfl, rfl⟩ := Option.map_eq_some_iff.mp hr
      obtain ⟨hfirst, hsecond⟩ := hop.idle_of_andThen hitems hidle
      apply Bool.and_eq_true_iff.mpr ⟨ih rfl hfirst, ihItems rfl hsecond⟩
  | alternativesNil => simp at hr
  | alternativesNone _ _ _ ihNext => apply Bool.or_eq_true_iff.mpr (.inr (ihNext hr hidle))
  | alternativesSome _ ih => apply Bool.or_eq_true_iff.mpr (.inl (ih hr hidle))
  | roundsNone _ _ => rfl
  | roundsIdle _ _ _ => rfl
  | roundsSome _ _ _ _ _ => rfl
  | call hrule _ ih =>
      obtain ⟨n, rfl, rfl⟩ := Option.map_eq_some_iff.mp hr
      apply c.nullable_of_op hrule (ih rfl hidle)
  | unknown _ => simp at hr

/-- A round of a repetition advances. -/
theorem advances {body : Op} (c : Certificate g)
    (hrepeats : (Job.rounds body).repeatsNullable c.nullable = false)
    (h : Runs g (.op body) here (some m) e) :
  m.stop.offset ≠ here.offset
  := by
  intro hidle
  have hnullable : body.nullable c.nullable = true := h.nullable c rfl hidle
  simp [Job.repeatsNullable, Op.repeatsNullable, hnullable] at hrepeats

end Runs

end ClassTranscript.Peg
