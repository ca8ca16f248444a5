import ClassTranscript.Proofs.Peg.Ends

/-!
# The evaluator follows plain runs

Where a job has a run, the evaluator performs the job with the result of the run and leaves a state
that follows its effect, whatever is remembered, unless a limit stops it; and a limit stops it only
where the run needs more than the limit allows (`Runs.ends`). The bound on the nesting of the
evaluator is out of reach once it is as large as the number of steps of the run.
-/

namespace ClassTranscript.Peg

/-- The evaluator's way of doing a job, given the bounds on the nesting and on the rounds of a
repetition and the mark that a failing sequence goes back to. -/
def Job.perform (g : Grammar) (cfg : Settings) (bound rounds : Nat) (m₀ : Mark) :
    Job → State → Bool × State
  | .op o, s => eval g cfg bound o s
  | .items ops, s => runSeq (eval g cfg bound) m₀ ops s
  | .alternatives ops, s => runChoice cfg (eval g cfg bound) m₀ ops s
  | .rounds body, s =>
    let s := runRounds cfg (eval g cfg bound body) rounds s
    (s.running, s)
  | .call id, s => runCall g cfg (eval g cfg bound) id s

/-- The bound that a job has to keep to. -/
def Job.boundOf (bound rounds : Nat) : Job → Nat
  | .rounds _ => min bound rounds
  | _ => bound

/-- Whether a failure of a job goes back to where the job began. -/
def Job.GoesBack : Job → Prop
  | .items _ => False
  | .rounds _ => False
  | _ => True

namespace Effect

@[simp]
theorem append_nil (e : Effect) :
  e ++ {} = e
  := by
  obtain ⟨misses, steps, calls, depth⟩ := e
  change Effect.mk (misses ++ []) (steps + 0) (calls + 0) (max depth 0) = _
  rw [List.append_nil, Nat.max_zero, Nat.add_zero, Nat.add_zero]

end Effect

variable {g : Grammar}

theorem Runs.one_le_steps {op : Op} {here : Cursor} {r : Option Match} {e : Effect}
    (h : Runs g (.op op) here r e) :
  1 ≤ e.steps
  := by
  cases h <;> first | exact Nat.le_refl 1 | exact Nat.le_add_right 1 _

/-- Where a job has a run, the evaluator ends the job as the run does. -/
theorem Runs.ends {job : Job} {here : Cursor} {r : Option Match} {e : Effect}
    (h : Runs g job here r e) {cfg : Settings} {start : Cursor} :
  ∀ (bound rounds : Nat) (m₀ : Mark) (s : State), Ready g start s → s.here = here →
    (job.GoesBack → m₀ = s.mark) →
    Ends g cfg start (job.boundOf bound rounds) m₀ s r e (job.perform g cfg bound rounds m₀ s)
  := by
  induction h with
  | @pass test x here next htest =>
      rintro bound - m₀ s hs rfl hm₀
      obtain rfl := hm₀ trivial
      change Ends g cfg start bound s.mark s _ (.step ++ {}) _
      exact .op hs (fun b => .pass hs.countStep htest) bound
  | @miss test x here htest =>
      rintro bound - m₀ s hs rfl hm₀
      obtain rfl := hm₀ trivial
      change Ends g cfg start bound s.mark s _ (.step ++ { misses := [⟨s.here.offset, x⟩] }) _
      exact .op hs (fun b => .miss hs.countStep htest) bound
  | seq _ ih =>
      rintro bound - m₀ s hs rfl hm₀
      obtain rfl := hm₀ trivial
      exact .op hs (fun b => ih b 0 s.mark s.countStep hs.countStep rfl fun _ => rfl) bound
  | choice _ ih =>
      rintro bound - m₀ s hs rfl hm₀
      obtain rfl := hm₀ trivial
      exact .op hs (fun b => ih b 0 s.mark s.countStep hs.countStep rfl fun _ => rfl) bound
  | star _ ih =>
      rintro bound - m₀ s hs rfl hm₀
      obtain rfl := hm₀ trivial
      refine .op hs (fun b => ?_) bound
      have hend := ih b b s.mark s.countStep hs.countStep rfl fun _ => rfl
      rw [Job.boundOf, Nat.min_self] at hend
      apply hend
  | plusNone _ ih =>
      rintro bound - m₀ s hs rfl hm₀
      obtain rfl := hm₀ trivial
      refine .op hs (fun b => ?_) bound
      apply Ends.plusNone (s := s.countStep) (ih b 0 s.mark _ hs.countStep rfl fun _ => rfl)
  | plusSome hbody _ ih ihRounds =>
      rintro bound - m₀ s hs rfl hm₀
      obtain rfl := hm₀ trivial
      refine .op hs (fun b => ?_) bound
      apply Ends.plusSome hs.countStep hbody
      · apply ih b 0 s.mark s.countStep hs.countStep rfl fun _ => rfl
      · intro s₁ hs₁ hhere
        have hend := ihRounds b b s.mark s₁ hs₁ hhere False.elim
        rw [Job.boundOf, Nat.min_self] at hend
        apply hend
  | optional _ ih =>
      rintro bound - m₀ s hs rfl hm₀
      obtain rfl := hm₀ trivial
      refine .op hs (fun b => ?_) bound
      apply Ends.optional (s := s.countStep) (ih b 0 s.mark _ hs.countStep rfl fun _ => rfl)
  | ahead _ ih =>
      rintro bound - m₀ s hs rfl hm₀
      obtain rfl := hm₀ trivial
      refine .op hs (fun b => ?_) bound
      apply Ends.ahead (s := s.countStep)
        (ih b 0 s.mark _ hs.countStep.enterPredicate rfl fun _ => rfl)
  | notAhead _ ih =>
      rintro bound - m₀ s hs rfl hm₀
      obtain rfl := hm₀ trivial
      refine .op hs (fun b => ?_) bound
      apply Ends.notAhead (s := s.countStep)
        (ih b 0 s.mark _ hs.countStep.enterPredicate rfl fun _ => rfl)
  | opCall _ ih =>
      rintro bound - m₀ s hs rfl hm₀
      obtain rfl := hm₀ trivial
      exact .op hs (fun b => ih b 0 s.mark s.countStep hs.countStep rfl fun _ => rfl) bound
  | itemsNil =>
      rintro bound - m₀ s hs rfl -
      exact .completed hs.running hs.follows_nil rfl
  | itemsNone _ ih =>
      rintro bound - m₀ s hs rfl -
      exact .itemsNone (ih bound 0 s.mark s hs rfl fun _ => rfl)
  | itemsSome hop _ ih ihItems =>
      rintro bound - m₀ s hs rfl -
      apply Ends.itemsSome hs hop
      · apply ih bound 0 s.mark s hs rfl fun _ => rfl
      · intro s₁ hs₁ hhere
        apply ihItems bound 0 m₀ s₁ hs₁ hhere False.elim
  | alternativesNil =>
      rintro bound - m₀ s hs rfl hm₀
      obtain rfl := hm₀ trivial
      exact .completed hs.running hs.follows_nil rfl
  | alternativesNone hop _ ih ihNext =>
      rintro bound - m₀ s hs rfl hm₀
      obtain rfl := hm₀ trivial
      apply Ends.alternativesNone hs hop
      · apply ih bound 0 s.mark s hs rfl fun _ => rfl
      · intro s₁ hs₁ hhere hmark
        apply ihNext bound 0 s.mark s₁ hs₁ hhere fun _ => hmark.symm
  | alternativesSome _ ih =>
      rintro bound - m₀ s hs rfl hm₀
      obtain rfl := hm₀ trivial
      exact .alternativesSome (ih bound 0 s.mark s hs rfl fun _ => rfl)
  | @roundsNone body here e hbody ih =>
      rintro bound rounds m₀ s hs rfl -
      rw [← e.append_nil]
      apply Ends.rounds hs hbody.one_le_steps (ih bound 0 s.mark s hs rfl fun _ => rfl)
      intro n s₁ hrunning hfollows hmark
      have hrunning' : (s₁.reset s.mark).running = true := State.running_of_not_halted hrunning
      simp only [afterRound, Option.isSome_none, hrunning', Effect.append_nil]
      exact .completed hrunning (hfollows.reset s.mark) rfl
  | @roundsIdle body here m e hbody hidle ih =>
      rintro bound rounds m₀ s hs rfl -
      rw [← e.append_nil]
      apply Ends.rounds hs hbody.one_le_steps (ih bound 0 s.mark s hs rfl fun _ => rfl)
      intro n s₁ hrunning hfollows hmark
      obtain ⟨-, hhere⟩ := hs.next hbody hrunning hfollows hmark
      have hidle' : s₁.here.offset = s.mark.here.offset := by
        rw [hhere]
        apply hidle
      simp only [afterRound, Option.isSome_some, hidle', if_true, Effect.append_nil,
        State.running_of_not_halted hrunning]
      exact .completed hrunning hfollows hmark
  | @roundsSome body here m r e f hbody hmoves _ ih ihRounds =>
      rintro bound rounds m₀ s hs rfl -
      apply Ends.rounds hs hbody.one_le_steps (ih bound 0 s.mark s hs rfl fun _ => rfl)
      intro n s₁ hrunning hfollows hmark
      obtain ⟨hs₁, hhere⟩ := hs.next hbody hrunning hfollows hmark
      have hmoves' : s₁.here.offset ≠ s.mark.here.offset := by
        rw [hhere]
        apply hmoves
      simp only [afterRound, Option.isSome_some, hmoves', if_false]
      apply Ends.andThen hfollows hmark (ihRounds bound n m₀ s₁ hs₁ hhere False.elim)
      intro hlt
      -- the round itself takes a step, which pays for the round that it uses up
      have := hbody.one_le_steps
      simp only [Job.boundOf] at hlt ⊢
      omega
  | call hrule hbody ih =>
      rintro bound - m₀ s hs rfl hm₀
      obtain rfl := hm₀ trivial
      apply Ends.runCall hs hrule hbody
      apply ih bound 0 _ _ (hs.enterRule cfg _) _ (fun _ => rfl)
      rw [State.enterRule_eq]
  | unknown hnone =>
      rintro bound - m₀ s hs rfl hm₀
      obtain rfl := hm₀ trivial
      simp only [Job.perform, runCall, hnone]
      exact .completed hs.running hs.follows_nil rfl

end ClassTranscript.Peg
