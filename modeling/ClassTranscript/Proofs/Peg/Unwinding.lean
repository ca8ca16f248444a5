import ClassTranscript.Proofs.Peg.Limited
import ClassTranscript.Proofs.Peg.Restoring

/-!
# Where a limit is reported

When a limit trips, every operator around that place still ends, and each goes back or not as it
does after any failure: a sequence, a repetition, an option and a predicate go back to where they
began, while a choice and a call stay. Only then is the position read off for the report. `Trips`
tells the state at which a limit trips, and `Unwinds` follows the operators around it to the position
that is left. The report is at that position, or at the furthest failure noted before if that is
further on (`limit_report`), so it can lie before the place where the limit tripped.
-/

namespace ClassTranscript.Peg

/-- A limit trips in the activation itself, at the given state: one step too many is begun, a call
nests too deeply, or there is no room for the result of a call at the end of its body. -/
inductive Activation.Trips (g : Grammar) (cfg : Settings) : Activation → Limit → State → Prop where
  | steps {op : Op} {bound rounds : Nat} {m : Mark} {s : State} :
    s.halted = none → cfg.allowsSteps s.countStep.stats.steps = false →
    Trips g cfg ⟨.op op, bound + 1, rounds, m, s⟩ .steps s.countStep
  | depth {id : RuleId} {rule : Rule} {bound rounds : Nat} {m : Mark} {s : State} :
    s.halted = none → g.rule? id = some rule → s.answer? (cfg.policyOf rule) id = none →
    cfg.allowsDepth (s.depth + 1) = false →
    Trips g cfg ⟨.call id, bound, rounds, m, s⟩ .depth s
  | entries {id : RuleId} {rule : Rule} {bound rounds : Nat} {m : Mark} {s s' : State}
    {matched : Bool} :
    g.rule? id = some rule → s.answer? (cfg.policyOf rule) id = none →
    cfg.allowsDepth (s.depth + 1) = true →
    eval g cfg bound rule.op (s.enterRule cfg id) = (matched, s') → s'.halted = none →
    (cfg.policyOf rule).keeps matched = true → s'.memo.knows id s.here.offset = false →
    cfg.allowsEntries (s'.memo.size + 1) = false →
    Trips g cfg ⟨.call id, bound, rounds, m, s⟩ .entries s'

/-- The position after an activation `a` when a limit stopped `b`, which `a` began, and `b` ended at
a position. -/
def Activation.backFrom (a b : Activation) (here : Cursor) : Cursor :=
  match a.job, b.job with
  | .items _, .op _ => a.mark.here
  | .rounds _, .op _ => a.state.here
  | .op (.optional _), _ => a.state.here
  | .op (.ahead _), _ => a.state.here
  | .op (.notAhead _), _ => a.state.here
  | _, _ => here

/-- On the way through an activation a limit trips at a state, and once everything around has ended
the evaluation is left at a position. -/
inductive Activation.Unwinds (g : Grammar) (cfg : Settings) :
    Activation → Limit → State → Cursor → Prop where
  | trips {a : Activation} {limit : Limit} {s : State} :
    a.Trips g cfg limit s → Unwinds g cfg a limit s s.here
  | within {a b : Activation} {limit : Limit} {s : State} {here : Cursor} :
    Begins g cfg a b → Unwinds g cfg b limit s here → Unwinds g cfg a limit s (a.backFrom b here)

/-- The state `t` is left at a position after a limit tripped at `s`. -/
structure Stopped (cfg : Settings) (limit : Limit) (s : State) (here : Cursor) (t : State) :
    Prop where
  halted : t.halted = some limit
  here : t.here = here
  furthest : t.furthest = s.furthest
  logged : cfg.traced = true → .halt limit s.here.offset ∈ t.log

section

variable {g : Grammar} {cfg : Settings} {limits : Limits} {limit : Limit} {s t : State}
  {here : Cursor} {bound rounds : Nat} {m : Mark}

/-! ### What is left of a stopped state -/

namespace Stopped

theorem halt (h : t.halted = none) (hhere : t.here = s.here) (hfurthest : t.furthest = s.furthest) :
  Stopped cfg limit s s.here (t.halt cfg limit)
  := by
  unfold State.halt
  rw [if_pos (State.running_of_not_halted h), State.record_eq]
  refine ⟨rfl, hhere, hfurthest, fun htraced => ?_⟩
  rw [if_pos htraced, ← hhere]
  apply List.mem_cons_self

theorem reset (h : Stopped cfg limit s here t) (m : Mark) :
  Stopped cfg limit s m.here (t.reset m)
  := ⟨h.halted, rfl, h.furthest, h.logged⟩

theorem leavePredicate (h : Stopped cfg limit s here t) (m : Mark) :
  Stopped cfg limit s m.here (t.leavePredicate m)
  := ⟨h.halted, rfl, h.furthest, h.logged⟩

theorem leaveRule (h : Stopped cfg limit s here t) (id : RuleId) (m : Mark) (matched : Bool)
    (node : Option Node) :
  Stopped cfg limit s here (t.leaveRule cfg id m matched node)
  := by
  rw [State.leaveRule, State.record_eq]
  refine ⟨h.halted, h.here, h.furthest, fun htraced => ?_⟩
  rw [if_pos htraced]
  apply List.mem_cons_of_mem _ (h.logged htraced)

end Stopped

/-! ### Unwinding -/

/-- The evaluation is underway, and the bound on the nesting is above the steps that are left. -/
structure State.Roomy (cfg : Settings) (limits : Limits) (bound : Nat) (s : State) : Prop
    extends s.Underway cfg where
  room : limits.steps < bound + s.stats.steps

/-- If an activation that ends at `t` was stopped by a limit, that limit tripped on the way and
unwinding leads to `t`. -/
def Activation.Unwound (g : Grammar) (cfg : Settings) (a : Activation) (t : State) : Prop :=
  ∀ limit, t.halted = some limit →
    ∃ s here, a.Unwinds g cfg limit s here ∧ Stopped cfg limit s here t

theorem Activation.unwound_of_not_halted {a : Activation} (h : t.halted = none) :
  a.Unwound g cfg t
  := by
  intro limit hlimit
  rw [h] at hlimit
  cases hlimit

/-- A limit that trips in the activation itself. -/
theorem Activation.Trips.unwound {a : Activation} (h : a.Trips g cfg limit s)
    (hstopped : Stopped cfg limit s s.here t) :
  a.Unwound g cfg t
  := by
  intro limit' hlimit
  rw [hstopped.halted] at hlimit
  obtain rfl := Option.some.inj hlimit
  exact ⟨s, s.here, .trips h, hstopped⟩

/-- A limit that trips in what the activation begins, given how the activation ends then. -/
theorem Activation.Unwound.within {a b : Activation} {u : State} (h : b.Unwound g cfg t)
    (hbegins : Begins g cfg a b) (hhalted : u.halted = t.halted)
    (hstopped : ∀ limit s here, Stopped cfg limit s here t →
      Stopped cfg limit s (a.backFrom b here) u) :
  a.Unwound g cfg u
  := by
  intro limit hlimit
  obtain ⟨s, here, hunwinds, ht⟩ := h limit (hhalted ▸ hlimit)
  exact ⟨s, _, .within hbegins hunwinds, hstopped _ _ _ ht⟩

theorem State.Underway.steps_le (hs : s.Underway cfg) (hlimits : cfg.limits = some limits) :
  s.stats.steps ≤ limits.steps
  := by
  have hallowed := hs.allowed
  rw [Settings.allowsSteps, hlimits] at hallowed
  simpa using hallowed

theorem State.Roomy.enterPredicate (hs : s.Roomy cfg limits bound) :
  s.enterPredicate.Roomy cfg limits bound
  := ⟨hs.toUnderway.enterPredicate, hs.room⟩

theorem State.Roomy.enterRule (hs : s.Roomy cfg limits bound) (id : RuleId) :
  (s.enterRule cfg id).Roomy cfg limits bound
  := by
  refine ⟨hs.toUnderway.enterRule id, ?_⟩
  rw [State.enterRule_eq]
  apply hs.room

theorem State.Roomy.of_eval {op : Op} {s' : State} (hs : s.Roomy cfg limits bound)
    (h : eval g cfg bound op s = (true, s')) :
  s'.Roomy cfg limits bound
  := by
  obtain ⟨honward, hs'⟩ := hs.toUnderway.of_eval h
  have hsteps := honward.steps
  have hroom := hs.room
  exact ⟨hs', by omega⟩

section

variable (h : ∀ (op : Op) (s : State), s.Roomy cfg limits bound →
  (Activation.ofOp op bound s).Unwound g cfg (eval g cfg bound op s).2)

include h

theorem runSeq_unwound (ops : List Op) (hs : s.Roomy cfg limits bound) :
  Activation.Unwound g cfg ⟨.items ops, bound, rounds, m, s⟩
    (runSeq (eval g cfg bound) m ops s).2
  := by
  induction ops generalizing s with
  | nil => exact Activation.unwound_of_not_halted hs.halted
  | cons op ops ih =>
      have hfirst := h op s hs
      unfold runSeq
      split
      · rename_i heq
        exact (ih (hs.of_eval heq)).within (.items heq) rfl fun _ _ _ ht => ht
      · rename_i heq
        rw [heq] at hfirst
        exact hfirst.within .item rfl fun _ _ _ ht => ht.reset m

theorem runChoice_unwound (ops : List Op) (hs : s.Roomy cfg limits bound) :
  Activation.Unwound g cfg ⟨.alternatives ops, bound, rounds, m, s⟩
    (runChoice cfg (eval g cfg bound) m ops s).2
  := by
  induction ops generalizing s with
  | nil => exact Activation.unwound_of_not_halted hs.halted
  | cons op ops ih =>
      have hfirst := h op s hs
      have hlevel := (eval_restored g cfg bound op s hs.toUnderway).level
      unfold runChoice
      split
      · rename_i heq
        rw [heq] at hfirst
        exact hfirst.within .alternative rfl fun _ _ _ ht => ht
      · rename_i s' heq
        rw [heq] at hfirst hlevel
        split
        · rename_i hrunning
          have hback := (hlevel.underway (State.running_iff.mp hrunning)).backtrack m
          have hsteps : (s'.backtrack cfg m).stats.steps = s'.stats.steps := by
            rw [State.backtrack, State.record_eq]
            rfl
          have hroom := hs.room
          have hle : s.stats.steps ≤ s'.stats.steps := hlevel.steps
          have hs' : (s'.backtrack cfg m).Roomy cfg limits bound := ⟨hback, by omega⟩
          exact (ih hs').within (.alternatives heq hrunning) rfl fun _ _ _ ht => ht
        · exact hfirst.within .alternative rfl fun _ _ _ ht => ht

/-- Each round takes a step, so the bound on the rounds stays out of reach. -/
theorem runRounds_unwound (hlimits : cfg.limits = some limits) (body : Op)
    (hs : s.Roomy cfg limits bound) (hrounds : limits.steps < rounds + s.stats.steps) :
  Activation.Unwound g cfg ⟨.rounds body, bound, rounds, m, s⟩
    (runRounds cfg (eval g cfg bound body) rounds s)
  := by
  induction rounds generalizing s with
  | zero =>
      have hsteps := hs.steps_le hlimits
      omega
  | succ rounds ih =>
      have hround := h body s hs
      unfold runRounds
      dsimp only
      split
      · rename_i heq
        rw [heq] at hround
        exact hround.within .round rfl fun _ _ _ ht => ht.reset s.mark
      · rename_i s' heq
        have hs' := hs.of_eval heq
        have hsteps := steps_lt_of_eval hs.toUnderway heq
        split
        · exact Activation.unwound_of_not_halted hs'.halted
        · rename_i hadvance
          exact (ih hs' (by omega)).within (.rounds heq hadvance) rfl fun _ _ _ ht => ht

theorem finishCall_unwound {id : RuleId} {rule : Rule} (hs : s.Roomy cfg limits bound)
    (hrule : g.rule? id = some rule) (hanswer : s.answer? (cfg.policyOf rule) id = none)
    (hallows : cfg.allowsDepth (s.depth + 1) = true) :
  Activation.Unwound g cfg ⟨.call id, bound, rounds, m, s⟩
    (finishCall cfg id rule s.mark (eval g cfg bound rule.op (s.enterRule cfg id)).1
      (eval g cfg bound rule.op (s.enterRule cfg id)).2).2
  := by
  have hbody := h rule.op _ (hs.enterRule id)
  generalize heval : eval g cfg bound rule.op (s.enterRule cfg id) = out at hbody
  obtain ⟨matched, s'⟩ := out
  dsimp only at hbody ⊢
  cases hhalted : s'.halted with
  | some limit =>
      rw [finishCall_of_halted hhalted]
      refine hbody.within (.body hrule hanswer hallows) ?_ fun _ _ _ ht => ht.leaveRule ..
      rw [State.halted_leaveRule]
  | none =>
      rw [finishCall_eq hhalted rfl]
      generalize s'.nodeOf id rule s.mark.here.offset = node
      have hnone := (State.halted_leaveRule cfg id s.mark matched node s').trans hhalted
      have hmemo := State.memo_leaveRule cfg id s.mark matched node s'
      have hhere := congrArg Mark.here (State.mark_leaveRule cfg id s.mark matched node s')
      have hfurthest := State.furthest_leaveRule cfg id s.mark matched node s'
      generalize s'.leaveRule cfg id s.mark matched node = t at hnone hmemo hhere hfurthest
      split
      · rename_i hkeeps
        obtain ⟨hkeeps, hnew⟩ := Bool.and_eq_true_iff.mp hkeeps
        rw [Bool.not_eq_true'] at hnew
        generalize (if matched then MemoEntry.matched t.here node else .failed) = entry
        change Activation.Unwound g cfg _ (t.remember cfg id s.mark.here.offset entry)
        unfold State.remember
        split
        · exact Activation.unwound_of_not_halted hnone
        · rename_i hdenies
          rw [Bool.not_eq_true, hmemo] at hdenies
          have htrips : Activation.Trips g cfg ⟨.call id, bound, rounds, m, s⟩ .entries s' :=
            .entries hrule hanswer hallows heval hhalted hkeeps hnew hdenies
          exact htrips.unwound (.halt hnone hhere hfurthest)
      · exact Activation.unwound_of_not_halted hnone

theorem runCall_unwound (id : RuleId) (hs : s.Roomy cfg limits bound) :
  Activation.Unwound g cfg ⟨.call id, bound, rounds, m, s⟩
    (runCall g cfg (eval g cfg bound) id s).2
  := by
  unfold runCall
  split
  · exact Activation.unwound_of_not_halted hs.halted
  · rename_i rule hrule
    split
    · rename_i hanswer
      exact Activation.unwound_of_not_halted ((halted_replay id _).trans hs.halted)
    · rename_i hanswer
      cases hallows : cfg.allowsDepth (s.depth + 1) with
      | false =>
          have htrips : Activation.Trips g cfg ⟨.call id, bound, rounds, m, s⟩ .depth s :=
            .depth hs.halted hrule hanswer hallows
          exact htrips.unwound (.halt hs.halted rfl rfl)
      | true => exact finishCall_unwound h hs hrule hanswer hallows

/-- An expression whose step is counted. -/
theorem evalOp_unwound (hlimits : cfg.limits = some limits) (op : Op) (hsteps : s.Steps cfg)
    (hs : s.countStep.Roomy cfg limits bound) :
  Activation.Unwound g cfg ⟨.op op, bound + 1, rounds, m, s⟩ (evalOp g cfg bound op s.countStep).2
  := by
  cases op with
  | test test expectation =>
      apply Activation.unwound_of_not_halted
      simp only [evalOp]
      split
      · apply hs.halted
      · rw [State.miss, State.record_eq, State.expect_eq]
        apply hs.halted
  | seq ops => exact (runSeq_unwound h ops hs).within (.seq hsteps) rfl fun _ _ _ ht => ht
  | choice ops => exact (runChoice_unwound h ops hs).within (.choice hsteps) rfl fun _ _ _ ht => ht
  | star body =>
      have hrounds := runRounds_unwound h hlimits body hs hs.room (m := s.mark)
      exact hrounds.within (.star hsteps) rfl fun _ _ _ ht => ht
  | plus body =>
      have hfirst := h body _ hs
      simp only [evalOp]
      split
      · rename_i heq
        rw [heq] at hfirst
        exact hfirst.within (.plus hsteps) rfl fun _ _ _ ht => ht
      · rename_i heq
        have hs' := hs.of_eval heq
        have hrounds := runRounds_unwound h hlimits body hs' hs'.room (m := s.mark)
        exact hrounds.within (.plusRounds hsteps heq) rfl fun _ _ _ ht => ht
  | optional body =>
      have hbody := h body _ hs
      simp only [evalOp]
      split
      · rename_i heq
        exact Activation.unwound_of_not_halted (hs.of_eval heq).halted
      · rename_i heq
        rw [heq] at hbody
        exact hbody.within (.optional hsteps) rfl fun _ _ _ ht => ht.reset s.mark
  | ahead body =>
      have hbody := h body _ hs.enterPredicate
      exact hbody.within (.ahead hsteps) rfl fun _ _ _ ht => ht.leavePredicate s.mark
  | notAhead body =>
      have hbody := h body _ hs.enterPredicate
      exact hbody.within (.notAhead hsteps) rfl fun _ _ _ ht => ht.leavePredicate s.mark
  | call id => exact (runCall_unwound h id hs).within (.opCall hsteps) rfl fun _ _ _ ht => ht

end

/-- Whenever a limit stops an expression, it tripped on the way. -/
theorem eval_unwound (g : Grammar) (hlimits : cfg.limits = some limits) (op : Op)
    (hs : s.Roomy cfg limits bound) :
  (Activation.ofOp op bound s).Unwound g cfg (eval g cfg bound op s).2
  := by
  induction bound generalizing op s with
  | zero =>
      have hsteps := hs.steps_le hlimits
      have hroom := hs.room
      omega
  | succ bound ih =>
      cases hallowed : cfg.allowsSteps s.countStep.stats.steps with
      | true =>
          have hcount := hs.countStep hallowed
          have hroom := hs.room
          rw [eval_of_allowed hs.toUnderway hallowed]
          apply evalOp_unwound (fun op s hs => ih op hs) hlimits op
          · exact ⟨State.running_iff.mpr hs.halted, hallowed⟩
          · refine ⟨hcount, ?_⟩
            simp only [State.countStep]
            omega
      | false =>
          have htrips : (Activation.ofOp op (bound + 1) s).Trips g cfg .steps s.countStep :=
            .steps hs.halted hallowed
          rw [eval_of_not_allowed hs.toUnderway hallowed]
          exact htrips.unwound (.halt hs.halted rfl rfl)

/-! ### Positions -/

theorem Activation.offset_backFrom_le {a b : Activation}
    (h : a.mark.here.offset ≤ a.state.here.offset) (here : Cursor) :
  (a.backFrom b here).offset ≤ max here.offset a.state.here.offset
  := by
  unfold backFrom
  split <;> omega

/-- Unwinding does not go on in the text. -/
theorem Activation.Unwinds.offset_le {a : Activation} (h : a.Unwinds g cfg limit s here)
    (ha : a.Lawful cfg) :
  a.state.here.offset ≤ s.here.offset ∧ here.offset ≤ s.here.offset
  := by
  induction h with
  | @trips a _ t htrips =>
      refine ⟨?_, Nat.le_refl _⟩
      cases htrips with
      | steps _ _ => apply Nat.le_refl
      | depth _ _ _ _ => apply Nat.le_refl
      | @entries id rule bound _ _ s _ _ _ _ _ heval hnone _ _ _ =>
          have hbody := eval_restored g cfg bound rule.op _ (ha.underway.enterRule id)
          rw [heval] at hbody
          have hhere : (s.enterRule cfg id).here = s.here := by rw [State.enterRule_eq]
          cases hbody with
          | matched honward _ =>
              have hoffset := honward.offset
              rw [hhere] at hoffset
              apply hoffset
          | failed _ hback =>
              have hback : t.here = (s.enterRule cfg id).here := congrArg Mark.here (hback hnone)
              rw [hback, hhere]
  | @within a b _ _ here hbegins _ ih =>
      obtain ⟨hb, hle⟩ := hbegins.lawful ha
      obtain ⟨hstate, hhere⟩ := ih hb
      have hback := a.offset_backFrom_le (b := b) ha.offset here
      constructor <;> omega

end

/-! ### The report -/

/-- Three literals in a row. -/
def lettersDraft : Draft :=
  Draft.defineAll {} [{ name := "Letters", body := .seq [.literal "a", .literal "b", .literal "c"] }]

/-- A parse that a limit stops. The limit tripped at some state on the way, and unwinding what was
around it led to some position, which is not further on. The report is at that position or at the
furthest failure noted before the limit tripped, whichever is further. So it is at or after the
place where the limit tripped exactly if such a failure was noted there or further on, or if nothing
around went back. -/
theorem limit_report {g : Grammar} {o : Options} {id : RuleId} {text : String} {m : Mismatch}
    {log : List Event} {limit : Limit}
    (hparse : parse? g o id text = some (.mismatched m, log)) (hcause : m.cause = .limit limit) :
  ∃ s here, (Activation.first id (o.limits.steps + 1) text).Unwinds g o.settings limit s here
    ∧ here.offset ≤ s.here.offset
    ∧ m.furthest = max s.furthest here.offset
    ∧ (s.here.offset ≤ m.furthest ↔ s.here.offset ≤ s.furthest ∨ here.offset = s.here.offset)
    ∧ (o.traced = true → .halt limit s.here.offset ∈ log)
  := by
  cases hrule : g.rule? id with
  | none => simp [parse?, parseWithin?, hrule] at hparse
  | some rule =>
      have hevaluate := parseWithin?_eq hrule o.settings (o.limits.steps + 1) text
      rw [← parse?, hparse, Option.some.injEq, Prod.mk.injEq] at hevaluate
      obtain ⟨houtcome, rfl⟩ := hevaluate
      have hfirst : (State.initial text).Roomy o.settings o.limits (o.limits.steps + 1) :=
        ⟨State.underway_initial o.settings text, Nat.lt_succ_self _⟩
      have hunwound : (Activation.first id (o.limits.steps + 1) text).Unwound g o.settings
          (evaluate g o.settings (o.limits.steps + 1) id text).2 :=
        runCall_unwound (fun op s hs => eval_unwound g rfl op hs) id hfirst
      generalize evaluate g o.settings (o.limits.steps + 1) id text = out at *
      obtain ⟨matched, t⟩ := out
      have hhalted : t.halted = some limit := by
        rw [← limit?_outcomeOf rule id matched t, ← houtcome, Outcome.limit?, hcause]
      obtain ⟨s, here, hunwinds, hstopped⟩ := hunwound limit hhalted
      have hback := (hunwinds.offset_le (Activation.lawful_first ..)).2
      have hfurthest : m.furthest = max s.furthest here.offset := by
        simp only [outcomeOf, hhalted, Outcome.mismatched.injEq] at houtcome
        rw [houtcome, ← hstopped.furthest, ← hstopped.here]
      refine ⟨s, here, hunwinds, hback, hfurthest, ?_, ?_⟩
      · rw [hfurthest]
        omega
      · intro htraced
        rw [List.mem_reverse]
        apply hstopped.logged htraced

/-- With three steps allowed no failure is noted, and the report is where unwinding leads. -/
theorem letters_limit_report :
  ∃ s here, (Activation.first 0 4 "abc").Unwinds lettersDraft.buildD
      (Options.settings ⟨{ steps := 3 }, true, true⟩) .steps s here
    ∧ here.offset ≤ s.here.offset ∧ 0 = max s.furthest here.offset
  := by
  have hparse : parse? lettersDraft.buildD ⟨{ steps := 3 }, true, true⟩ 0 "abc"
      = some (.mismatched _, _) := rfl
  obtain ⟨s, here, hunwinds, hback, hfurthest, -, -⟩ := limit_report hparse rfl
  exact ⟨s, here, hunwinds, hback, hfurthest⟩

/-- There the limit trips before the last letter, at offset 2, and the sequence goes back to offset 0,
which is reported. -/
theorem limit_report_before_trip :
  lettersDraft.build = .ok lettersDraft.buildD
    ∧ ∃ m log, parse? lettersDraft.buildD ⟨{ steps := 3 }, true, true⟩ 0 "abc"
        = some (.mismatched m, log)
      ∧ m.cause = .limit .steps ∧ .halt .steps 2 ∈ log ∧ m.furthest = 0
  := ⟨rfl, _, _, rfl, rfl, by decide, rfl⟩

end ClassTranscript.Peg
