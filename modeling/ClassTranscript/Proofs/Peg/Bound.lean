import ClassTranscript.Peg.Parse
import ClassTranscript.Proofs.Peg.Ends

/-!
# The bound on the nesting

An evaluation that no limit stops does not depend on the bound on its nesting: with a larger bound
it goes the same way (`eval_extends`, `evaluate_of_le`). So an evaluation that is not stopped under
some bound is what the evaluator does when nothing bounds it.
-/

namespace ClassTranscript.Peg

/-- Wherever `run` is not stopped, neither was it before, and `run'` does the same. -/
structure Step.Extends (run run' : Step) : Prop where
  running {s : State} : (run s).2.halted = none → s.halted = none
  eq {s : State} : (run s).2.halted = none → run' s = run s

variable {g : Grammar} {cfg : Settings} {run run' : Op → Step} {s : State}

theorem State.halted_halt_ne_none (limit : Limit) (s : State) :
  (s.halt cfg limit).halted ≠ none
  := by
  intro h
  cases hs : s.halted with
  | none => simp [halted_halt hs] at h
  | some _ => simp [halt, running, hs] at h

/-! ### Operators -/

theorem runSeq_extends (h : ∀ op, (run op).Extends (run' op)) (m : Mark) (ops : List Op) :
  Step.Extends (runSeq run m ops) (runSeq run' m ops)
  := by
  induction ops with
  | nil => exact ⟨fun hs => hs, fun _ => rfl⟩
  | cons op ops ih =>
      have hfirst {s : State} (hs : (runSeq run m (op :: ops) s).2.halted = none) :
          (run op s).2.halted = none := by
        simp only [runSeq] at hs
        split at hs
        · rename_i hout
          rw [hout]
          apply ih.running hs
        · rename_i hout
          rw [hout]
          apply hs
      constructor
      · intro s hs
        apply (h op).running (hfirst hs)
      · intro s hs
        have heq := (h op).eq (hfirst hs)
        simp only [runSeq, heq] at hs ⊢
        split at hs
        · apply ih.eq hs
        · rfl

theorem runChoice_extends (h : ∀ op, (run op).Extends (run' op)) (m : Mark) (ops : List Op) :
  Step.Extends (runChoice cfg run m ops) (runChoice cfg run' m ops)
  := by
  induction ops with
  | nil => exact ⟨fun hs => hs, fun _ => rfl⟩
  | cons op ops ih =>
      have hfirst {s : State} (hs : (runChoice cfg run m (op :: ops) s).2.halted = none) :
          (run op s).2.halted = none := by
        simp only [runChoice] at hs
        split at hs
        · rename_i hout
          rw [hout]
          apply hs
        · rename_i hout
          rw [hout]
          split at hs
          · have := ih.running hs
            rwa [State.backtrack, State.record_eq] at this
          · apply hs
      constructor
      · intro s hs
        apply (h op).running (hfirst hs)
      · intro s hs
        have heq := (h op).eq (hfirst hs)
        simp only [runChoice, heq] at hs ⊢
        split at hs
        · rfl
        · split at hs
          · rename_i hrunning
            rw [if_pos hrunning, if_pos hrunning]
            apply ih.eq hs
          · rename_i hstopped
            rw [if_neg hstopped, if_neg hstopped]

/-- A repetition with one more round allowed. -/
theorem runRounds_extends {round round' : Step} (h : round.Extends round') (n : Nat)
    (hs : (runRounds cfg round n s).halted = none) :
  s.halted = none ∧ runRounds cfg round' (n + 1) s = runRounds cfg round n s
  := by
  induction n generalizing s with
  | zero => exact absurd hs (State.halted_halt_ne_none _ s)
  | succ n ih =>
      have hfirst : (round s).2.halted = none := by
        simp only [runRounds] at hs
        split at hs
        · rename_i hout
          rw [hout]
          apply hs
        · rename_i hout
          rw [hout]
          split at hs
          · apply hs
          · apply (ih hs).1
      refine ⟨h.running hfirst, ?_⟩
      rw [runRounds]
      conv_rhs => rw [runRounds]
      rw [h.eq hfirst]
      simp only [runRounds] at hs
      split at hs
      · rfl
      · split at hs
        · rename_i hidle
          simp only [if_pos hidle]
        · rename_i hmoves
          simp only [if_neg hmoves]
          apply (ih hs).2

theorem runPredicate_extends {body body' : Step} (h : body.Extends body') :
  Step.Extends (runPredicate body) (runPredicate body')
  := by
  have hfirst {s : State} (hs : (runPredicate body s).2.halted = none) :
      (body s.enterPredicate).2.halted = none := hs
  constructor
  · intro s hs
    apply h.running (s := s.enterPredicate) (hfirst hs)
  · intro s hs
    simp only [runPredicate, h.eq (hfirst hs)]

/-! ### Calls -/

theorem halted_of_finishCall {id : RuleId} {rule : Rule} {m : Mark} {matched : Bool}
    (h : (finishCall cfg id rule m matched s).2.halted = none) :
  s.halted = none
  := by
  cases hs : s.halted with
  | none => rfl
  | some limit =>
      have hleave : (s.leaveRule cfg id m matched (s.nodeOf id rule m.here.offset)).halted
          = some limit := by
        rw [State.halted_leaveRule, hs]
      simp [finishCall, State.running, hleave] at h

theorem halted_replay (id : RuleId) (entry : MemoEntry) :
  (s.replay cfg id entry).2.halted = s.halted
  := by
  cases entry <;> simp only [State.replay, State.record_eq]

theorem runCall_extends (h : ∀ op, (run op).Extends (run' op)) (id : RuleId) :
  Step.Extends (runCall g cfg run id) (runCall g cfg run' id)
  := by
  have hbody {rule : Rule} {s : State}
      (hs : (finishCall cfg id rule s.mark (run rule.op (s.enterRule cfg id)).1
        (run rule.op (s.enterRule cfg id)).2).2.halted = none) :
      (run rule.op (s.enterRule cfg id)).2.halted = none := halted_of_finishCall hs
  constructor
  · intro s hs
    simp only [runCall] at hs
    split at hs
    · apply hs
    · split at hs
      · rwa [halted_replay] at hs
      · split at hs
        · exact absurd hs (State.halted_halt_ne_none _ s)
        · have := (h _).running (hbody hs)
          rwa [State.enterRule_eq] at this
  · intro s hs
    simp only [runCall] at hs ⊢
    split at hs
    · rfl
    · split at hs
      · rfl
      · split at hs
        · rename_i hdepth
          rw [if_pos hdepth, if_pos hdepth]
        · rename_i hdepth
          rw [if_neg hdepth, if_neg hdepth, (h _).eq (hbody hs)]

/-! ### Evaluations -/

theorem evalOp_extends {bound : Nat}
    (h : ∀ op, Step.Extends (eval g cfg bound op) (eval g cfg (bound + 1) op)) (op : Op) :
  Step.Extends (evalOp g cfg bound op) (evalOp g cfg (bound + 1) op)
  := by
  cases op with
  | test test x =>
      refine ⟨?_, fun _ => rfl⟩
      intro s hs
      simp only [evalOp] at hs
      split at hs
      · apply hs
      · rwa [State.miss, State.record_eq, State.expect_eq] at hs
  | seq ops => exact ⟨(runSeq_extends h _ ops).running, (runSeq_extends h _ ops).eq⟩
  | choice ops => exact ⟨(runChoice_extends h _ ops).running, (runChoice_extends h _ ops).eq⟩
  | star body =>
      constructor
      · intro s hs
        apply (runRounds_extends (h body) bound hs).1
      · intro s hs
        simp only [evalOp, (runRounds_extends (h body) bound hs).2]
  | plus body =>
      have hfirst {s : State} (hs : (evalOp g cfg bound (.plus body) s).2.halted = none) :
          (eval g cfg bound body s).2.halted = none := by
        simp only [evalOp] at hs
        split at hs
        · rename_i hout
          rw [hout]
          apply hs
        · rename_i hout
          rw [hout]
          apply (runRounds_extends (h body) bound hs).1
      constructor
      · intro s hs
        apply (h body).running (hfirst hs)
      · intro s hs
        have heq := (h body).eq (hfirst hs)
        simp only [evalOp, heq] at hs ⊢
        split at hs
        · rfl
        · simp only [(runRounds_extends (h body) bound hs).2]
  | optional body =>
      have hfirst {s : State} (hs : (evalOp g cfg bound (.optional body) s).2.halted = none) :
          (eval g cfg bound body s).2.halted = none := by
        simp only [evalOp] at hs
        split at hs
        · rename_i hout
          rw [hout]
          apply hs
        · rename_i hout
          rw [hout]
          apply hs
      constructor
      · intro s hs
        apply (h body).running (hfirst hs)
      · intro s hs
        simp only [evalOp, (h body).eq (hfirst hs)]
  | ahead body =>
      constructor
      · intro s hs
        apply (runPredicate_extends (h body)).running hs
      · intro s hs
        simp only [evalOp, (runPredicate_extends (h body)).eq hs]
  | notAhead body =>
      constructor
      · intro s hs
        apply (runPredicate_extends (h body)).running hs
      · intro s hs
        simp only [evalOp, (runPredicate_extends (h body)).eq hs]
  | call id => apply runCall_extends h id

/-- A larger bound on the nesting changes nothing where the smaller one is not reached. -/
theorem eval_extends (g : Grammar) (cfg : Settings) (bound : Nat) (op : Op) :
  Step.Extends (eval g cfg bound op) (eval g cfg (bound + 1) op)
  := by
  induction bound generalizing op with
  | zero => exact ⟨fun hs => absurd hs (State.halted_halt_ne_none _ _),
      fun hs => absurd hs (State.halted_halt_ne_none _ _)⟩
  | succ bound ih =>
      constructor
      · intro s hs
        rw [eval_succ] at hs
        split at hs
        · apply hs
        · split at hs
          · exact absurd hs (State.halted_halt_ne_none _ _)
          · apply (evalOp_extends ih op).running (s := s.countStep) hs
      · intro s hs
        rw [eval_succ] at hs ⊢
        conv_rhs => rw [eval_succ]
        split at hs
        · rename_i hstopped
          rw [if_pos hstopped, if_pos hstopped]
        · rename_i hrunning
          rw [if_neg hrunning, if_neg hrunning]
          split at hs
          · rename_i hsteps
            rw [if_pos hsteps, if_pos hsteps]
          · rename_i hsteps
            rw [if_neg hsteps, if_neg hsteps]
            apply (evalOp_extends ih op).eq hs

/-- An evaluation that is not stopped under some bound is the same under every larger one. -/
theorem evaluate_of_le {bound bound' : Nat} {id : RuleId} {text : String}
    (h : (evaluate g cfg bound id text).2.halted = none) (hle : bound ≤ bound') :
  evaluate g cfg bound' id text = evaluate g cfg bound id text
  := by
  induction hle with
  | refl => rfl
  | step _ ih =>
      rw [← ih] at h ⊢
      apply (runCall_extends (eval_extends g cfg _) id).eq h

end ClassTranscript.Peg
