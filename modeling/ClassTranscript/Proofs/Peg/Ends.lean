import ClassTranscript.Proofs.Peg.Follow

/-!
# How the evaluator ends a run

`Ends` says that the evaluator comes to the result of a run and leaves a state that follows its
effect, or that a limit stops it, which happens only where the run needs more than the limit allows
(`Exceeds`). The lemmas here are those of the operators and of calls: each gives the end of a longer
run from the ends of its parts.
-/

namespace ClassTranscript.Peg

/-! ### Running out of resources -/

/-- What can be wrong when a limit stops a run of effect `e` that begins at `s`. -/
inductive Exceeds (cfg : Settings) (bound : Nat) (s : State) (e : Effect) : Limit → Prop where
  | bound : bound < e.steps → Exceeds cfg bound s e .steps
  | steps : cfg.allowsSteps (s.stats.steps + e.steps) = false → Exceeds cfg bound s e .steps
  | depth : cfg.allowsDepth (s.depth + e.depth) = false → Exceeds cfg bound s e .depth
  | entries {n : Nat} : cfg.memoize = true → cfg.allowsEntries n = false →
    Exceeds cfg bound s e .entries

namespace Settings

variable {cfg : Settings} {m n : Nat}

theorem allowsSteps_anti (h : cfg.allowsSteps m = false) (hle : m ≤ n) :
  cfg.allowsSteps n = false
  := by
  unfold allowsSteps at h ⊢
  cases hl : cfg.limits with
  | none => simp [hl] at h
  | some limits =>
      simp only [hl, Option.all_some, decide_eq_false_iff_not] at h ⊢
      omega

theorem allowsDepth_anti (h : cfg.allowsDepth m = false) (hle : m ≤ n) :
  cfg.allowsDepth n = false
  := by
  unfold allowsDepth at h ⊢
  cases hl : cfg.limits with
  | none => simp [hl] at h
  | some limits =>
      simp only [hl, Option.all_some, decide_eq_false_iff_not] at h ⊢
      omega

end Settings

namespace Exceeds

variable {cfg : Settings} {bound bound' : Nat} {s s' : State} {e e' : Effect} {limit : Limit}

/-- A run that needs at least as much has the same wrong with it. -/
theorem mono (h : Exceeds cfg bound s e limit) (hbound : bound < e.steps → bound' < e'.steps)
    (hsteps : s.stats.steps + e.steps ≤ s'.stats.steps + e'.steps)
    (hdepth : s.depth + e.depth ≤ s'.depth + e'.depth) :
  Exceeds cfg bound' s' e' limit
  := by
  cases h with
  | bound h => exact .bound (hbound h)
  | steps h => exact .steps (Settings.allowsSteps_anti h hsteps)
  | depth h => exact .depth (Settings.allowsDepth_anti h hdepth)
  | entries hmemoize h => exact .entries hmemoize h

theorem weaken (h : Exceeds cfg bound s e limit) (hle : bound' ≤ bound) :
  Exceeds cfg bound' s e limit
  := h.mono (Nat.lt_of_le_of_lt hle) (Nat.le_refl _) (Nat.le_refl _)

theorem append (h : Exceeds cfg bound s e limit) (f : Effect) :
  Exceeds cfg bound s (e ++ f) limit
  := by
  apply h.mono
  · intro hlt
    apply Nat.lt_of_lt_of_le hlt (Nat.le_add_right _ _)
  · apply Nat.add_le_add_left (Nat.le_add_right _ _) _
  · apply Nat.add_le_add_left (Nat.le_max_left _ _) _

end Exceeds

/-! ### The ends of runs -/

/-- The position and the nodes after a run from `s` with the given result, which goes back to `m₀`
when it fails. -/
def State.markAfter (s : State) (m₀ : Mark) : Option Match → Mark
  | none => m₀
  | some m => ⟨m.stop, m.nodes ++ s.nodes⟩

/-- How the evaluator may end a job that has a run from `s` with the result `r` and the effect `e`:
it completes the run, or a limit stops it for a reason. -/
inductive Ends (g : Grammar) (cfg : Settings) (start : Cursor) (bound : Nat) (m₀ : Mark)
    (s : State) (r : Option Match) (e : Effect) : Bool × State → Prop where
  | completed {s' : State} : s'.halted = none → Follows g cfg start s e s' →
    s'.mark = s.markAfter m₀ r → Ends g cfg start bound m₀ s r e (r.isSome, s')
  | halted {s' : State} {limit : Limit} : s'.halted = some limit → Exceeds cfg bound s e limit →
    Ends g cfg start bound m₀ s r e (false, s')

section

variable {g : Grammar} {cfg : Settings} {start : Cursor} {bound bound' : Nat} {m₀ : Mark}
  {s s₁ : State} {r r' : Option Match} {e f : Effect} {out : Bool × State}

/-- A run that ends after an earlier effect ends the longer run from before that effect. -/
theorem Ends.after (hfollows : Follows g cfg start s e s₁)
    (h : Ends g cfg start bound m₀ s₁ r f out) (hsome : r.isSome = r'.isSome)
    (hmark : s₁.markAfter m₀ r = s.markAfter m₀ r')
    (hbound : bound < f.steps → bound' < e.steps + f.steps) :
  Ends g cfg start bound' m₀ s r' (e ++ f) out
  := by
  cases h with
  | completed hrunning hfollows' hmark' =>
      rw [hsome]
      exact .completed hrunning (hfollows.trans hfollows') (hmark'.trans hmark)
  | halted hhalted hexceeds =>
      apply Ends.halted hhalted
      apply hexceeds.mono hbound
      · have := hfollows.steps.le_plain
        simp only [Effect.steps_append]
        omega
      · rw [hfollows.depth, Effect.depth_append]
        omega

/-- A second run begins where the match of a first one stops. -/
theorem Ends.andThen {m : Match} {m₁ : Mark} (hfollows : Follows g cfg start s e s₁)
    (hmark : s₁.mark = s.markAfter m₁ (some m)) (h : Ends g cfg start bound m₀ s₁ r f out)
    (hbound : bound < f.steps → bound' < e.steps + f.steps) :
  Ends g cfg start bound' m₀ s (r.map m.andThen) (e ++ f) out
  := by
  apply h.after hfollows _ _ hbound
  · rw [Option.isSome_map]
  · have hnodes : s₁.nodes = m.nodes ++ s.nodes := congrArg Mark.nodes hmark
    cases r with
    | none => rfl
    | some n => simp only [Option.map_some, State.markAfter, hnodes, Match.stop_andThen,
        Match.nodes_andThen, List.append_assoc]

/-- A second run begins where a first one failed and went back to. -/
theorem Ends.orElse (hfollows : Follows g cfg start s e s₁) (hmark : s₁.mark = s.mark)
    (h : Ends g cfg start bound m₀ s₁ r f out) :
  Ends g cfg start bound m₀ s r (e ++ f) out
  := by
  apply h.after hfollows rfl
  · have hnodes : s₁.nodes = s.nodes := congrArg Mark.nodes hmark
    cases r with
    | none => rfl
    | some m => simp only [State.markAfter, hnodes]
  · apply Nat.lt_add_left _

/-- Where an evaluation stands once an expression is run to completion. -/
theorem Ready.next {op : Op} (hs : Ready g start s) (hrun : Runs g (.op op) s.here r e)
    (hrunning : s₁.halted = none) (hfollows : Follows g cfg start s e s₁)
    (hmark : s₁.mark = s.markAfter s.mark r) :
  Ready g start s₁ ∧ s₁.here = (r.map (·.stop)).getD s.here
  := by
  have hhere : s₁.here = (r.map (·.stop)).getD s.here := by
    have := congrArg Mark.here hmark
    cases r <;> exact this
  refine ⟨hfollows.ready hs hrunning ?_, hhere⟩
  rw [hhere]
  cases r with
  | none => apply hs.reaches
  | some m => apply hs.reaches.trans (hrun.reaches rfl)

theorem State.running_of_halted {limit : Limit} (h : s.halted = some limit) :
  s.running = false
  := by
  rw [running, h, Option.isNone_some]

theorem State.running_of_not_halted (h : s.halted = none) :
  s.running = true
  := by
  rw [running, h, Option.isNone_none]

/-! ### Expressions -/

theorem State.halted_halt {cfg : Settings} {limit : Limit} {s : State} (h : s.halted = none) :
  (s.halt cfg limit).halted = some limit
  := by
  simp only [halt, running, h, Option.isNone_none, if_true, record_eq]

/-- What the evaluator does with an expression once the step is counted. -/
def evalOp (g : Grammar) (cfg : Settings) (bound : Nat) (op : Op) (s : State) : Bool × State :=
  match op with
  | .test test expectation =>
    match test.pass? s.here with
    | some next => (true, { s with here := next })
    | none => (false, s.miss cfg expectation)
  | .seq items => runSeq (eval g cfg bound) s.mark items s
  | .choice alternatives => runChoice cfg (eval g cfg bound) s.mark alternatives s
  | .star body =>
    let s := runRounds cfg (eval g cfg bound body) bound s
    (s.running, s)
  | .plus body =>
    match eval g cfg bound body s with
    | (false, s) => (false, s)
    | (true, s) =>
      let s := runRounds cfg (eval g cfg bound body) bound s
      (s.running, s)
  | .optional body =>
    let m := s.mark
    match eval g cfg bound body s with
    | (true, s) => (s.running, s)
    | (false, s) => (s.running, s.reset m)
  | .ahead body =>
    let (matched, s) := runPredicate (eval g cfg bound body) s
    (matched && s.running, s)
  | .notAhead body =>
    let (matched, s) := runPredicate (eval g cfg bound body) s
    (!matched && s.running, s)
  | .call id => runCall g cfg (eval g cfg bound) id s

theorem eval_succ (g : Grammar) (cfg : Settings) (bound : Nat) (op : Op) (s : State) :
  eval g cfg (bound + 1) op s
    = if !s.running then (false, s)
      else if !cfg.allowsSteps s.countStep.stats.steps then (false, s.countStep.halt cfg .steps)
      else evalOp g cfg bound op s.countStep
  := by
  cases op <;> rfl

/-- An expression ends as it does once its step is counted. -/
theorem Ends.op {op : Op} (hs : Ready g start s)
    (h : ∀ b, Ends g cfg start b s.mark s.countStep r e (evalOp g cfg b op s.countStep))
    (bound : Nat) :
  Ends g cfg start bound s.mark s r (.step ++ e) (eval g cfg bound op s)
  := by
  cases bound with
  | zero =>
      apply Ends.halted (State.halted_halt hs.running)
      apply Exceeds.bound
      apply Nat.lt_of_lt_of_le Nat.zero_lt_one (Nat.le_add_right _ _)
  | succ b =>
      rw [eval_succ, if_neg (by simp [State.running, hs.running])]
      cases hallows : cfg.allowsSteps s.countStep.stats.steps with
      | false =>
          rw [if_pos (by simp)]
          apply Ends.halted (State.halted_halt hs.countStep.running)
          apply Exceeds.steps
          apply Settings.allowsSteps_anti hallows
          apply Nat.add_le_add_left (Nat.le_add_right _ _) _
      | true =>
          rw [if_neg (by simp)]
          apply (h b).after hs.follows_countStep rfl
          · cases r <;> rfl
          · intro hlt
            simp only [Effect.step]
            omega

/-! ### Calls -/

theorem Settings.memoize_of_policyOf_ne {rule : Rule} (h : cfg.policyOf rule ≠ .off) :
  cfg.memoize = true
  := by
  unfold policyOf at h
  split at h
  · assumption
  · exact absurd rfl h

/-- The result of a completed call is remembered, unless the memo is full. -/
theorem Ends.remember {id : RuleId} (entry : MemoEntry) (hs : Ready g start s)
    (hmemoize : cfg.memoize = true) (hrun : Runs g (.call id) s.here entry.result e)
    (hrunning : s₁.halted = none) (hfollows : Follows g cfg start s e s₁)
    (hmark : s₁.mark = s.markAfter m₀ entry.result) :
  Ends g cfg start bound m₀ s entry.result e
    (entry.result.isSome && (s₁.remember cfg id s.here.offset entry).running,
      s₁.remember cfg id s.here.offset entry)
  := by
  unfold State.remember
  cases hallows : cfg.allowsEntries (s₁.memo.size + 1) with
  | false =>
      rw [if_neg (by simp), State.running, State.halted_halt hrunning, Option.isNone_some,
        Bool.and_false]
      exact .halted (State.halted_halt hrunning) (.entries hmemoize hallows)
  | true =>
      have hrunning' : ∀ memo, State.running { s₁ with memo := memo } = true := by
        intro memo
        simp only [State.running, hrunning, Option.isNone_none]
      rw [if_pos rfl, hrunning', Bool.and_true]
      refine .completed hrunning (hfollows.remember hs.reaches hrun ?_) hmark
      simp only [State.tracking, hfollows.predicates]

/-- The node that a call makes is that of the match of the body. -/
theorem State.nodeOf_eq {m : Match} (h : s.mark = ⟨m.stop, m.nodes⟩) (id : RuleId) (rule : Rule)
    (offset : Nat) :
  s.nodeOf id rule offset = m.node? id rule offset
  := by
  have hhere : s.here = m.stop := congrArg Mark.here h
  have hnodes : s.nodes = m.nodes := congrArg Mark.nodes h
  simp only [nodeOf, hhere, hnodes, Match.node?]

theorem State.mark_of_enterRule {id : RuleId} {m : Match}
    (h : s₁.mark = (s.enterRule cfg id).markAfter m₀ (some m)) :
  s₁.mark = ⟨m.stop, m.nodes⟩
  := by
  rw [enterRule_eq] at h
  rw [h, markAfter, List.append_nil]

/-- The position and the nodes at the end of a call, given those at the end of the body. -/
theorem State.mark_leaveRule_of_body {id : RuleId} (rule : Rule)
    (h : s₁.mark = (s.enterRule cfg id).markAfter (s.enterRule cfg id).mark r) :
  (s₁.leaveRule cfg id s.mark r.isSome (s₁.nodeOf id rule s.mark.here.offset)).mark
    = s.markAfter s.mark (r.map (·.inRule id rule s.here.offset))
  := by
  rw [mark_leaveRule]
  cases r with
  | none =>
      rw [enterRule_eq] at h
      have hhere : s₁.here = s.here := congrArg Mark.here h
      simp only [mark, hhere, Option.isSome_none, Bool.false_eq_true, if_false, Option.map_none,
        markAfter]
  | some m =>
      have hmark := mark_of_enterRule h
      have hhere : s₁.here = m.stop := congrArg Mark.here hmark
      simp only [nodeOf_eq hmark, mark, hhere, Option.isSome_some, if_true, Option.map_some,
        markAfter, Match.inRule]

theorem State.halted_backtrack (s : State) (cfg : Settings) (m : Mark) :
  (s.backtrack cfg m).halted = s.halted
  := by
  rw [backtrack, record_eq]
  rfl

theorem State.mark_backtrack (s : State) (cfg : Settings) (m : Mark) :
  (s.backtrack cfg m).mark = m
  := by
  rw [backtrack, record_eq]
  rfl

theorem State.mark_halt (s : State) (cfg : Settings) (limit : Limit) :
  (s.halt cfg limit).mark = s.mark
  := by
  unfold halt
  split
  · rw [record_eq]
    rfl
  · rfl

theorem State.mark_miss (s : State) (cfg : Settings) (expectation : String) :
  (s.miss cfg expectation).mark = s.mark
  := by
  rw [miss, record_eq, expect_eq]
  rfl

theorem State.mark_remember (s : State) (cfg : Settings) (id : RuleId) (offset : Nat)
    (entry : MemoEntry) :
  (s.remember cfg id offset entry).mark = s.mark
  := by
  unfold remember
  split
  · rfl
  · apply mark_halt

/-- A call ends as the body of the rule does. -/
theorem Ends.finishCall {id : RuleId} {rule : Rule} (hs : Ready g start s)
    (hrule : g.rule? id = some rule) (hbody : Runs g (.op rule.op) s.here r e)
    (h : Ends g cfg start bound (s.enterRule cfg id).mark (s.enterRule cfg id) r e out) :
  Ends g cfg start bound s.mark s (r.map (·.inRule id rule s.here.offset)) e.inCall
    (Peg.finishCall cfg id rule s.mark out.1 out.2)
  := by
  unfold Peg.finishCall
  cases h with
  | @halted s₁ limit hhalted hexceeds =>
      have hhalted' := (State.halted_leaveRule cfg id s.mark false
        (s₁.nodeOf id rule s.mark.here.offset) s₁).trans hhalted
      rw [if_pos (by simp only [State.running, hhalted', Option.isNone_some, Bool.not_false])]
      apply Ends.halted hhalted'
      rw [State.enterRule_eq] at hexceeds
      refine hexceeds.mono (fun hlt => hlt) (Nat.le_refl _) ?_
      simp only [Effect.inCall]
      omega
  | @completed s₁ hrunning hfollows hmark =>
      have hrunning' := (State.halted_leaveRule cfg id s.mark r.isSome
        (s₁.nodeOf id rule s.mark.here.offset) s₁).trans hrunning
      have hfollows' := hfollows.leaveRule s.mark r.isSome (s₁.nodeOf id rule s.mark.here.offset)
      have hmark' := State.mark_leaveRule_of_body rule hmark
      have hcall := Runs.call hrule hbody
      rw [if_neg (by simp only [State.running, hrunning', Option.isNone_none, Bool.not_true,
        Bool.false_eq_true, not_false_eq_true])]
      split
      -- nothing is to be remembered, or something is known already
      · have hdone : Ends g cfg start bound s.mark s _ e.inCall _ :=
          .completed hrunning' hfollows' hmark'
        rw [Option.isSome_map] at hdone
        apply hdone
      · rename_i hpolicy
        rw [not_or] at hpolicy
        have hmemoize := Settings.memoize_of_policyOf_ne hpolicy.1
        cases r with
        | none =>
            have hend : Ends g cfg start bound s.mark s _ _ _ :=
              .remember .failed hs hmemoize hcall hrunning' hfollows' hmark'
            cases hp : cfg.policyOf rule with
            | off => exact absurd hp hpolicy.1
            | all => apply hend
            | mismatches => apply hend
        | some m =>
            have hnode := State.nodeOf_eq (State.mark_of_enterRule hmark) id rule s.mark.here.offset
            rw [hnode, Option.isSome_some] at hrunning' hfollows' hmark'
            rw [hnode, Option.isSome_some]
            have hhere : (s₁.leaveRule cfg id s.mark true
              (m.node? id rule s.mark.here.offset)).here = m.stop := congrArg Mark.here hmark'
            have hend : Ends g cfg start bound s.mark s _ _ _ :=
              .remember (.matched m.stop (m.node? id rule s.mark.here.offset)) hs hmemoize
                hcall hrunning' hfollows' hmark'
            cases hp : cfg.policyOf rule with
            | off => exact absurd hp hpolicy.1
            | all =>
                simp only [hhere]
                apply hend
            | mismatches =>
                simp only [State.running, hrunning', Option.isNone_none, Bool.and_true]
                exact .completed hrunning' hfollows' hmark'

/-- A remembered result ends a call as its run does. -/
theorem Ends.replay {id : RuleId} (entry : MemoEntry) (hs : Ready g start s)
    (hmemoize : cfg.memoize = true)
    (hcovers : s.tracking = true → ∀ m ∈ e.misses, s.frontier.Covers m) :
  Ends g cfg start bound s.mark s entry.result e (s.replay cfg id entry)
  := by
  have hfollows : Follows g cfg start s e (s.replay cfg id entry).2 :=
    .replay hs id entry hmemoize hcovers
  cases entry with
  | matched stop node =>
      refine .completed ?_ hfollows ?_
      · simp only [State.record_eq, hs.running]
      · simp only [State.record_eq]
        rfl
  | failed =>
      refine .completed ?_ hfollows ?_
      · simp only [State.record_eq, hs.running]
      · simp only [State.record_eq]
        rfl

theorem Ends.runCall {id : RuleId} {rule : Rule} (hs : Ready g start s)
    (hrule : g.rule? id = some rule) (hbody : Runs g (.op rule.op) s.here r e)
    (h : Ends g cfg start bound (s.enterRule cfg id).mark (s.enterRule cfg id) r e
      (eval g cfg bound rule.op (s.enterRule cfg id))) :
  Ends g cfg start bound s.mark s (r.map (·.inRule id rule s.here.offset)) e.inCall
    (Peg.runCall g cfg (eval g cfg bound) id s)
  := by
  unfold Peg.runCall
  simp only [hrule]
  cases hanswer : s.answer? (cfg.policyOf rule) id with
  | some entry =>
      simp only [State.answer?, Option.ite_none_left_eq_some] at hanswer
      obtain ⟨hpolicy, hanswer⟩ := hanswer
      obtain ⟨hresult, hcovers⟩ := hs.memo.answer hs.reaches hanswer (.call hrule hbody)
      rw [← hresult]
      exact .replay entry hs (Settings.memoize_of_policyOf_ne hpolicy) hcovers
  | none =>
      cases hallows : cfg.allowsDepth (s.depth + 1) with
      | false =>
          apply Ends.halted (State.halted_halt hs.running)
          apply Exceeds.depth
          apply Settings.allowsDepth_anti hallows
          simp only [Effect.inCall]
          omega
      | true => exact .finishCall hs hrule hbody h

/-! ### Operators -/

theorem Ends.pass {test : Test} {expectation : String} {next : Cursor} (hs : Ready g start s)
    (htest : test.pass? s.here = some next) :
  Ends g cfg start bound s.mark s (some { stop := next }) {}
    (evalOp g cfg bound (.test test expectation) s)
  := by
  simp only [evalOp, htest]
  exact .completed hs.running (hs.follows_nil.goto next s.nodes) rfl

theorem Ends.miss {test : Test} {expectation : String} (hs : Ready g start s)
    (htest : test.pass? s.here = none) :
  Ends g cfg start bound s.mark s none { misses := [⟨s.here.offset, expectation⟩] }
    (evalOp g cfg bound (.test test expectation) s)
  := by
  simp only [evalOp, htest]
  refine .completed ?_ (.miss hs expectation) ?_
  · rw [State.miss, State.record_eq, State.expect_eq]
    apply hs.running
  · rw [State.miss, State.record_eq, State.expect_eq]
    rfl

theorem Ends.plusNone {body : Op}
    (h : Ends g cfg start bound s.mark s none e (eval g cfg bound body s)) :
  Ends g cfg start bound s.mark s none e (evalOp g cfg bound (.plus body) s)
  := by
  simp only [evalOp]
  generalize eval g cfg bound body s = out at h
  cases h with
  | completed hrunning hfollows hmark => exact .completed hrunning hfollows hmark
  | halted hhalted hexceeds => exact .halted hhalted hexceeds

theorem Ends.plusSome {body : Op} {m : Match} (hs : Ready g start s)
    (hrun : Runs g (.op body) s.here (some m) e)
    (h : Ends g cfg start bound s.mark s (some m) e (eval g cfg bound body s))
    (hnext : ∀ s₁, Ready g start s₁ → s₁.here = m.stop → Ends g cfg start bound s.mark s₁ r f
      ((runRounds cfg (eval g cfg bound body) bound s₁).running,
        runRounds cfg (eval g cfg bound body) bound s₁)) :
  Ends g cfg start bound s.mark s (r.map m.andThen) (e ++ f) (evalOp g cfg bound (.plus body) s)
  := by
  simp only [evalOp]
  generalize eval g cfg bound body s = out at h
  cases h with
  | completed hrunning hfollows hmark =>
      obtain ⟨hs₁, hhere⟩ := hs.next hrun hrunning hfollows hmark
      exact .andThen hfollows hmark (hnext _ hs₁ hhere) (Nat.lt_add_left _)
  | halted hhalted hexceeds => exact .halted hhalted (hexceeds.append f)

theorem Ends.optional {body : Op}
    (h : Ends g cfg start bound s.mark s r e (eval g cfg bound body s)) :
  Ends g cfg start bound s.mark s (some (r.getD { stop := s.here })) e
    (evalOp g cfg bound (.optional body) s)
  := by
  simp only [evalOp]
  generalize eval g cfg bound body s = out at h
  cases h with
  | completed hrunning hfollows hmark =>
      cases r with
      | none =>
          simp only [Option.isSome_none, State.running_of_not_halted hrunning]
          exact .completed hrunning (hfollows.reset _) rfl
      | some m =>
          simp only [Option.isSome_some, State.running_of_not_halted hrunning]
          exact .completed hrunning hfollows hmark
  | halted hhalted hexceeds =>
      simp only [State.running_of_halted hhalted]
      exact .halted hhalted hexceeds

/-- A predicate ends as its body does, with the position and the nodes from before. -/
theorem Ends.runPredicate {run : Step}
    (h : Ends g cfg start bound s.mark s.enterPredicate r e (run s.enterPredicate)) :
  (∃ s₁, Peg.runPredicate run s = (r.isSome, s₁) ∧ s₁.halted = none
      ∧ Follows g cfg start s e.silent s₁ ∧ s₁.mark = s.mark)
    ∨ ∃ s₁ limit, Peg.runPredicate run s = (false, s₁) ∧ s₁.halted = some limit
      ∧ Exceeds cfg bound s e.silent limit
  := by
  simp only [Peg.runPredicate]
  generalize run s.enterPredicate = out at h
  cases h with
  | completed hrunning hfollows _ =>
      exact .inl ⟨_, rfl, hrunning, hfollows.leavePredicate s.mark, rfl⟩
  | halted hhalted hexceeds =>
      exact .inr ⟨_, _, rfl, hhalted, hexceeds.mono id (Nat.le_refl _) (Nat.le_refl _)⟩

theorem Ends.ahead {body : Op}
    (h : Ends g cfg start bound s.mark s.enterPredicate r e
      (eval g cfg bound body s.enterPredicate)) :
  Ends g cfg start bound s.mark s (r.map fun _ => { stop := s.here }) e.silent
    (evalOp g cfg bound (.ahead body) s)
  := by
  simp only [evalOp]
  obtain ⟨s₁, hout, hrunning, hfollows, hmark⟩ | ⟨s₁, limit, hout, hhalted, hexceeds⟩ :=
    h.runPredicate
  · simp only [hout, State.running_of_not_halted hrunning, Bool.and_true]
    cases r with
    | none => exact .completed hrunning hfollows hmark
    | some m => exact .completed hrunning hfollows hmark
  · simp only [hout, State.running_of_halted hhalted, Bool.and_false]
    exact .halted hhalted hexceeds

theorem Ends.notAhead {body : Op}
    (h : Ends g cfg start bound s.mark s.enterPredicate r e
      (eval g cfg bound body s.enterPredicate)) :
  Ends g cfg start bound s.mark s (if r.isSome then none else some { stop := s.here }) e.silent
    (evalOp g cfg bound (.notAhead body) s)
  := by
  simp only [evalOp]
  obtain ⟨s₁, hout, hrunning, hfollows, hmark⟩ | ⟨s₁, limit, hout, hhalted, hexceeds⟩ :=
    h.runPredicate
  · simp only [hout, State.running_of_not_halted hrunning, Bool.and_true]
    cases r with
    | none => exact .completed hrunning hfollows hmark
    | some m => exact .completed hrunning hfollows hmark
  · simp only [hout, State.running_of_halted hhalted, Bool.and_false]
    exact .halted hhalted hexceeds

/-! ### Sequences, choices and repetitions -/

section

variable {run : Op → Step} {op : Op} {ops : List Op}

theorem Ends.itemsNone (h : Ends g cfg start bound s.mark s none e (run op s)) :
  Ends g cfg start bound m₀ s none e (runSeq run m₀ (op :: ops) s)
  := by
  simp only [runSeq]
  generalize run op s = out at h
  cases h with
  | completed hrunning hfollows hmark => exact .completed hrunning (hfollows.reset m₀) rfl
  | halted hhalted hexceeds => exact .halted hhalted hexceeds

theorem Ends.itemsSome {m : Match} (hs : Ready g start s)
    (hrun : Runs g (.op op) s.here (some m) e)
    (h : Ends g cfg start bound s.mark s (some m) e (run op s))
    (hnext : ∀ s₁, Ready g start s₁ → s₁.here = m.stop →
      Ends g cfg start bound m₀ s₁ r f (runSeq run m₀ ops s₁)) :
  Ends g cfg start bound m₀ s (r.map m.andThen) (e ++ f) (runSeq run m₀ (op :: ops) s)
  := by
  simp only [runSeq]
  generalize run op s = out at h
  cases h with
  | completed hrunning hfollows hmark =>
      obtain ⟨hs₁, hhere⟩ := hs.next hrun hrunning hfollows hmark
      exact .andThen hfollows hmark (hnext _ hs₁ hhere) (Nat.lt_add_left _)
  | halted hhalted hexceeds => exact .halted hhalted (hexceeds.append f)

theorem Ends.alternativesNone (hs : Ready g start s) (hrun : Runs g (.op op) s.here none e)
    (h : Ends g cfg start bound s.mark s none e (run op s))
    (hnext : ∀ s₁, Ready g start s₁ → s₁.here = s.here → s₁.mark = s.mark →
      Ends g cfg start bound s.mark s₁ r f (runChoice cfg run s.mark ops s₁)) :
  Ends g cfg start bound s.mark s r (e ++ f) (runChoice cfg run s.mark (op :: ops) s)
  := by
  simp only [runChoice]
  generalize run op s = out at h
  cases h with
  | @completed s₁ hrunning hfollows hmark =>
      have hrunning' := (s₁.halted_backtrack cfg s.mark).trans hrunning
      have hmark' := s₁.mark_backtrack cfg s.mark
      obtain ⟨hs₁, hhere⟩ := hs.next hrun hrunning' (hfollows.backtrack s.mark) hmark'
      simp only [Option.isSome_none, State.running_of_not_halted hrunning, if_true]
      exact .orElse (hfollows.backtrack s.mark) hmark' (hnext _ hs₁ hhere hmark')
  | halted hhalted hexceeds =>
      simp only [State.running_of_halted hhalted]
      exact .halted hhalted (hexceeds.append f)

theorem Ends.alternativesSome {m : Match} {m₁ : Mark}
    (h : Ends g cfg start bound m₀ s (some m) e (run op s)) :
  Ends g cfg start bound m₀ s (some m) e (runChoice cfg run m₁ (op :: ops) s)
  := by
  simp only [runChoice]
  generalize run op s = out at h
  cases h with
  | completed hrunning hfollows hmark => exact .completed hrunning hfollows hmark
  | halted hhalted hexceeds =>
      simp only [State.running_of_halted hhalted]
      exact .halted hhalted hexceeds

/-- What a repetition does with the end of a round, when `n` more rounds are allowed. -/
def afterRound (cfg : Settings) (run : Step) (n : Nat) (m : Mark) (out : Bool × State) :
    Bool × State :=
  let s :=
    match out with
    | (false, s) => s.reset m
    | (true, s) => if s.here.offset = m.here.offset then s else runRounds cfg run n s
  (s.running, s)

/-- A repetition ends as it does after its first round. -/
theorem Ends.rounds {round : Step} {r₁ : Option Match} (hs : Ready g start s)
    (hsteps : 1 ≤ e.steps) (h : Ends g cfg start bound s.mark s r₁ e (round s)) (f : Effect)
    (hnext : ∀ n s₁, s₁.halted = none → Follows g cfg start s e s₁ →
      s₁.mark = s.markAfter s.mark r₁ →
      Ends g cfg start (min bound (n + 1)) m₀ s r (e ++ f)
        (afterRound cfg round n s.mark (r₁.isSome, s₁))) (n : Nat) :
  Ends g cfg start (min bound n) m₀ s r (e ++ f)
    ((runRounds cfg round n s).running, runRounds cfg round n s)
  := by
  cases n with
  | zero =>
      have hhalted : (runRounds cfg round 0 s).halted = some .steps :=
        State.halted_halt hs.running
      rw [State.running_of_halted hhalted, Nat.min_zero]
      exact .halted hhalted (.bound (Nat.le_add_right_of_le hsteps))
  | succ n =>
      change Ends g cfg start _ m₀ s r (e ++ f) (afterRound cfg round n s.mark (round s))
      generalize round s = out at h
      cases h with
      | completed hrunning hfollows hmark => apply hnext n _ hrunning hfollows hmark
      | @halted s₁ limit hhalted hexceeds =>
          have hhalted' : (s₁.reset s.mark).halted = some limit := hhalted
          simp only [afterRound, State.running_of_halted hhalted']
          exact .halted hhalted' ((hexceeds.append f).weaken (Nat.min_le_left _ _))

end

end

end ClassTranscript.Peg
