import ClassTranscript.Proofs.Peg.Activation
import ClassTranscript.Proofs.Peg.Charge
import ClassTranscript.Proofs.Peg.Parse

/-!
# What a step restores

Every operator of a grammar relies on one law when it goes back or goes on: a failure leaves the
position and the nodes as they were, a match goes on in the text and puts nodes on top of those that
are there, and in either case, also when a limit stops the evaluation, calls and predicates nest as
deeply as before. `Restored` states the law for one step, and `eval_restored` proves it for every
expression at every state that is `Underway`. A part of that invariant is that no remembered match
ends before it begins, without which a replay could go back in the text. As the nodes that were there
always stay below any others, an operator that goes back only takes nodes off
(`Activation.Reached.reset_eval`).
-/

namespace ClassTranscript.Peg

/-- No remembered match ends before it begins. -/
def Memo.Forward (memo : Memo) : Prop :=
  ∀ (key : Nat × RuleId) (slot : MemoSlot), memo[key]? = some slot → ∀ stop node,
    slot.entry = .matched stop node → key.1 ≤ stop.offset

/-- What is true of a state at which the evaluator begins something: no limit has stopped it. -/
structure State.Underway (cfg : Settings) (s : State) : Prop where
  halted : s.halted = none
  memo : s.memo.Forward
  allowed : cfg.allowsSteps s.stats.steps = true

/-- The state `t` comes after `s`, with calls and predicates as deep as there and the nodes of `s`
below any others, and unless a limit has stopped the evaluation it is underway. -/
structure State.Level (cfg : Settings) (s t : State) : Prop where
  depth : t.depth = s.depth
  predicates : t.predicates = s.predicates
  memo : t.memo.Forward
  steps : s.stats.steps ≤ t.stats.steps
  allowed : t.halted = none → cfg.allowsSteps t.stats.steps = true
  nodes : s.nodes <:+ t.nodes

/-- The state `t` is level with `s` and no earlier in the text. -/
structure State.Onward (cfg : Settings) (s t : State) : Prop extends State.Level cfg s t where
  offset : s.here.offset ≤ t.here.offset

/-- How a step from `s` may end. -/
inductive Restored (cfg : Settings) (s : State) : Bool × State → Prop where
  | matched {t : State} : s.Onward cfg t → t.halted = none → Restored cfg s (true, t)
  | failed {t : State} : s.Level cfg t → (t.halted = none → t.mark = s.mark) →
    Restored cfg s (false, t)

/-- A step obeys the law wherever the evaluation is underway. -/
def Step.Restores (cfg : Settings) (run : Step) : Prop :=
  ∀ s, s.Underway cfg → Restored cfg s (run s)

theorem Memo.forward_empty :
  Memo.Forward ∅
  := by simp [Memo.Forward]

theorem Memo.Forward.remember {memo : Memo} (h : memo.Forward) (id : RuleId) (offset : Nat)
    {slot : MemoSlot} (hslot : ∀ stop node, slot.entry = .matched stop node →
      offset ≤ stop.offset) :
  (memo.remember id offset slot).Forward
  := by
  intro key slot' hfound
  simp only [Memo.remember, Std.TreeMap.getElem?_insert] at hfound
  split at hfound
  · rename_i heq
    rw [compareCalls_eq_eq_iff] at heq
    obtain rfl := heq
    obtain rfl := Option.some.inj hfound
    apply hslot
  · apply h key slot' hfound

/-- A match that the memo answers with ends no earlier than it begins. -/
theorem State.offset_le_of_answer? {s : State} (h : s.memo.Forward) {policy : MemoPolicy}
    {id : RuleId} {stop : Cursor} {node : Option Node}
    (hanswer : s.answer? policy id = some (.matched stop node)) :
  s.here.offset ≤ stop.offset
  := by
  unfold State.answer? at hanswer
  split at hanswer
  · cases hanswer
  · simp only [Memo.answer?, Option.map_eq_some_iff, Option.filter_eq_some_iff] at hanswer
    obtain ⟨slot, ⟨hslot, -⟩, hmatched⟩ := hanswer
    apply h (s.here.offset, id) slot hslot stop node hmatched

section

variable {g : Grammar} {cfg : Settings} {s t u : State} {m : Mark}

theorem State.running_iff :
  s.running = true ↔ s.halted = none
  := by
  rw [running, Option.isNone_iff_eq_none]

/-! ### Level states -/

namespace State.Level

theorem refl (h : s.Underway cfg) :
  s.Level cfg s
  := ⟨rfl, rfl, h.memo, Nat.le_refl _, fun _ => h.allowed, List.suffix_refl _⟩

theorem trans (h : s.Level cfg t) (h' : t.Level cfg u) :
  s.Level cfg u
  where
  depth := h'.depth.trans h.depth
  predicates := h'.predicates.trans h.predicates
  memo := h'.memo
  steps := Nat.le_trans h.steps h'.steps
  allowed := h'.allowed
  nodes := h.nodes.trans h'.nodes

theorem underway (h : s.Level cfg t) (hnone : t.halted = none) :
  t.Underway cfg
  := ⟨hnone, h.memo, h.allowed hnone⟩

/-- The position, the log and the other counts do not matter, and neither do nodes above those that
were there. -/
theorem congr (h : s.Level cfg t) (hdepth : u.depth = t.depth)
    (hpredicates : u.predicates = t.predicates) (hmemo : u.memo = t.memo)
    (hsteps : u.stats.steps = t.stats.steps) (hhalted : u.halted = t.halted)
    (hnodes : s.nodes <:+ u.nodes) :
  s.Level cfg u
  where
  depth := hdepth.trans h.depth
  predicates := hpredicates.trans h.predicates
  memo := hmemo ▸ h.memo
  steps := hsteps ▸ h.steps
  allowed hnone := hsteps ▸ h.allowed (hhalted ▸ hnone)
  nodes := hnodes

theorem record (h : s.Level cfg t) (event : Event) :
  s.Level cfg (t.record cfg event)
  := by
  rw [State.record_eq]
  exact h.congr rfl rfl rfl rfl rfl h.nodes

/-- A state that a limit stops only has to be level. -/
theorem halt (hdepth : t.depth = s.depth) (hpredicates : t.predicates = s.predicates)
    (hmemo : t.memo.Forward) (hsteps : s.stats.steps ≤ t.stats.steps)
    (hnodes : s.nodes <:+ t.nodes) (limit : Limit) :
  s.Level cfg (t.halt cfg limit)
  := by
  unfold State.halt
  split
  · apply record
    refine ⟨hdepth, hpredicates, hmemo, hsteps, fun hnone => ?_, hnodes⟩
    cases hnone
  · rename_i hstopped
    refine ⟨hdepth, hpredicates, hmemo, hsteps, fun hnone => ?_, hnodes⟩
    rw [State.running_of_not_halted hnone] at hstopped
    exact absurd rfl hstopped

theorem reset (h : s.Level cfg t) {m : Mark} (hm : s.nodes <:+ m.nodes) :
  s.Level cfg (t.reset m)
  := h.congr rfl rfl rfl rfl rfl hm

theorem miss (h : s.Level cfg t) (expectation : String) :
  s.Level cfg (t.miss cfg expectation)
  := by
  apply record
  rw [State.expect_eq]
  exact h.congr rfl rfl rfl rfl rfl h.nodes

/-- Coming out of a predicate undoes going into it. -/
theorem leavePredicate (h : s.enterPredicate.Level cfg t) :
  s.Level cfg (t.leavePredicate s.mark)
  where
  depth := h.depth
  predicates := by
    have hpredicates : t.predicates = s.predicates + 1 := h.predicates
    change t.predicates - 1 = s.predicates
    rw [hpredicates, Nat.add_sub_cancel]
  memo := h.memo
  steps := h.steps
  allowed := h.allowed
  nodes := List.suffix_refl _

/-- Coming back from a call undoes entering the rule. -/
theorem leaveRule {id : RuleId} (h : (s.enterRule cfg id).Level cfg t) (matched : Bool)
    (node : Option Node) :
  s.Level cfg (t.leaveRule cfg id s.mark matched node)
  := by
  rw [State.enterRule_eq] at h
  apply record
  refine ⟨?_, h.predicates, h.memo, h.steps, h.allowed, ?_⟩
  · have hdepth : t.depth = s.depth + 1 := h.depth
    change t.depth - 1 = s.depth
    rw [hdepth, Nat.add_sub_cancel]
  · cases matched with
    | true => apply List.suffix_append
    | false => apply List.suffix_refl

theorem remember (h : s.Level cfg t) (id : RuleId) (offset : Nat) {entry : MemoEntry}
    (hentry : ∀ stop node, entry = .matched stop node → offset ≤ stop.offset) :
  s.Level cfg (t.remember cfg id offset entry)
  := by
  unfold State.remember
  split
  · exact ⟨h.depth, h.predicates, h.memo.remember id offset hentry, h.steps, h.allowed, h.nodes⟩
  · exact .halt h.depth h.predicates h.memo h.steps h.nodes .entries

end State.Level

theorem State.Underway.enterPredicate (h : s.Underway cfg) :
  s.enterPredicate.Underway cfg
  := ⟨h.halted, h.memo, h.allowed⟩

theorem State.Underway.enterRule (h : s.Underway cfg) (id : RuleId) :
  (s.enterRule cfg id).Underway cfg
  := by
  rw [State.enterRule_eq]
  exact ⟨h.halted, h.memo, h.allowed⟩

theorem State.Underway.countStep (h : s.Underway cfg)
    (hallowed : cfg.allowsSteps s.countStep.stats.steps = true) :
  s.countStep.Underway cfg
  := ⟨h.halted, h.memo, hallowed⟩

theorem State.Underway.backtrack (h : s.Underway cfg) (m : Mark) :
  (s.backtrack cfg m).Underway cfg
  := by
  rw [State.backtrack, State.record_eq]
  exact ⟨h.halted, h.memo, h.allowed⟩

/-! ### States further on -/

namespace State.Onward

theorem refl (h : s.Underway cfg) :
  s.Onward cfg s
  := ⟨.refl h, Nat.le_refl _⟩

theorem trans (h : s.Onward cfg t) (h' : t.Onward cfg u) :
  s.Onward cfg u
  := ⟨h.toLevel.trans h'.toLevel, Nat.le_trans h.offset h'.offset⟩

/-- A level state with the position of the first is no earlier. -/
theorem of_mark (h : s.Level cfg t) (hmark : t.mark = s.mark) :
  s.Onward cfg t
  := by
  have hhere : t.here = s.here := congrArg Mark.here hmark
  exact ⟨h, Nat.le_of_eq (hhere ▸ rfl)⟩

end State.Onward

namespace Restored

theorem level {out : Bool × State} (h : Restored cfg s out) :
  s.Level cfg out.2
  := by
  cases h with
  | matched honward _ => apply honward.toLevel
  | failed hlevel _ => apply hlevel

/-- A failure where the step began. -/
theorem of_mark (h : s.Level cfg t) (hmark : t.mark = s.mark) :
  Restored cfg s (false, t)
  := .failed h fun _ => hmark

theorem halt (h : s.Underway cfg) (limit : Limit) :
  Restored cfg s (false, s.halt cfg limit)
  := .of_mark (.halt rfl rfl h.memo (Nat.le_refl _) (List.suffix_refl _) limit)
    (s.mark_halt cfg limit)

/-- A step that goes on and succeeds unless a limit stops it. -/
theorem of_onward (h : s.Onward cfg t) :
  Restored cfg s (t.running, t)
  := by
  cases hhalted : t.halted with
  | none =>
      rw [State.running_of_not_halted hhalted]
      exact .matched h hhalted
  | some limit =>
      rw [State.running_of_halted hhalted]
      apply Restored.failed h.toLevel
      intro hnone
      simp [hnone] at hhalted

/-- A step from a level state with the same position and nodes. -/
theorem of_level {out : Bool × State} (h : Restored cfg t out) (hlevel : s.Level cfg t)
    (hmark : t.mark = s.mark) :
  Restored cfg s out
  := by
  cases h with
  | matched honward hnone => exact .matched ((State.Onward.of_mark hlevel hmark).trans honward) hnone
  | failed hfailed hback =>
      exact .failed (hlevel.trans hfailed) fun hnone => (hback hnone).trans hmark

end Restored

/-! ### Operators -/

variable {run : Op → Step}

/-- The items of a sequence that began at `s`, from a state further on. -/
theorem runSeq_restored (h : ∀ op, (run op).Restores cfg) (ops : List Op) (ht : s.Onward cfg t)
    (hnone : t.halted = none) :
  Restored cfg s (runSeq run s.mark ops t)
  := by
  induction ops generalizing t with
  | nil => exact .matched ht hnone
  | cons op ops ih =>
      have hfirst := h op t (ht.underway hnone)
      unfold runSeq
      generalize run op t = out at hfirst
      cases hfirst with
      | matched honward hnone => apply ih (ht.trans honward) hnone
      | failed hlevel _ =>
          exact .of_mark ((ht.toLevel.trans hlevel).reset (List.suffix_refl _)) rfl

/-- The alternatives of a choice that began at `s`, after some of them failed. -/
theorem runChoice_restored (h : ∀ op, (run op).Restores cfg) (ops : List Op) (ht : s.Level cfg t)
    (hnone : t.halted = none) (hmark : t.mark = s.mark) :
  Restored cfg s (runChoice cfg run s.mark ops t)
  := by
  induction ops generalizing t with
  | nil => exact .of_mark ht hmark
  | cons op ops ih =>
      have hfirst := (h op t (ht.underway hnone)).of_level ht hmark
      unfold runChoice
      generalize run op t = out at hfirst
      cases hfirst with
      | matched honward hnone => exact .matched honward hnone
      | @failed t₁ hlevel hback =>
          dsimp only
          split
          · rename_i hrunning
            apply ih ((hlevel.reset (List.suffix_refl _)).record _) _
              (t₁.mark_backtrack cfg s.mark)
            apply (t₁.halted_backtrack cfg s.mark).trans (State.running_iff.mp hrunning)
          · exact .failed hlevel hback

/-- A repetition goes on from round to round. The round that fails is undone. -/
theorem runRounds_onward {round : Step} (h : round.Restores cfg) (n : Nat) (hs : s.Underway cfg) :
  s.Onward cfg (runRounds cfg round n s)
  := by
  induction n generalizing s with
  | zero =>
      exact .of_mark (.halt rfl rfl hs.memo (Nat.le_refl _) (List.suffix_refl _) .steps)
        (s.mark_halt cfg .steps)
  | succ n ih =>
      have hround := h s hs
      unfold runRounds
      generalize round s = out at hround
      cases hround with
      | matched honward hnone =>
          dsimp only
          split
          · apply honward
          · apply honward.trans (ih (honward.underway hnone))
      | failed hlevel _ => exact .of_mark (hlevel.reset (List.suffix_refl _)) rfl

/-- Whatever becomes of a predicate, it ends where it began. -/
theorem runPredicate_restored {body : Step} (h : body.Restores cfg) (hs : s.Underway cfg)
    (matched : Bool) :
  Restored cfg s (matched && (runPredicate body s).2.running, (runPredicate body s).2)
  := by
  have hlevel := (h s.enterPredicate hs.enterPredicate).level.leavePredicate
  cases matched with
  | true => exact .of_onward (.of_mark hlevel rfl)
  | false => exact .of_mark hlevel rfl

/-! ### Calls -/

/-- A remembered result answers a call as the call itself would have ended. -/
theorem State.replay_restored {policy : MemoPolicy} {id : RuleId} {entry : MemoEntry}
    (hs : s.Underway cfg) (hanswer : s.answer? policy id = some entry) :
  Restored cfg s (s.replay cfg id entry)
  := by
  have hlevel := State.Level.refl hs
  cases entry with
  | matched stop node =>
      refine .matched ⟨?_, s.offset_le_of_answer? hs.memo hanswer⟩ ?_
      · simp only [State.record_eq]
        exact hlevel.congr rfl rfl rfl rfl rfl (List.suffix_append _ _)
      · simp only [State.record_eq, hs.halted]
  | failed =>
      simp only [State.replay, State.record_eq]
      exact .of_mark (hlevel.congr rfl rfl rfl rfl rfl hlevel.nodes) rfl

/-- What a call makes of the end of the body, before the result is remembered. -/
theorem State.leaveRule_restored {id : RuleId} (rule : Rule) {out : Bool × State}
    (h : Restored cfg (s.enterRule cfg id) out) :
  Restored cfg s (out.1,
    out.2.leaveRule cfg id s.mark out.1 (out.2.nodeOf id rule s.mark.here.offset))
  := by
  cases h with
  | @matched t honward hnone =>
      refine .matched ⟨honward.leaveRule true _, ?_⟩ ?_
      · have hoffset := honward.offset
        rw [State.enterRule_eq] at hoffset
        rw [State.leaveRule, State.record_eq]
        apply hoffset
      · rw [State.halted_leaveRule, hnone]
  | @failed t hlevel hmark =>
      refine .failed (hlevel.leaveRule false _) fun hnone => ?_
      rw [State.halted_leaveRule] at hnone
      rw [State.enterRule_eq] at hmark
      have hhere : t.here = s.here := congrArg Mark.here (hmark hnone)
      rw [State.mark_leaveRule, hhere, if_neg Bool.false_ne_true]
      rfl

/-- The result of a match is remembered, or a limit stops the evaluation there. -/
theorem State.remember_restored (hmatched : s.Onward cfg t) (hnone : t.halted = none) (id : RuleId)
    (node : Option Node) :
  Restored cfg s ((t.remember cfg id s.here.offset (.matched t.here node)).running,
    t.remember cfg id s.here.offset (.matched t.here node))
  := by
  have hlevel : t.Level cfg (t.remember cfg id s.here.offset (.matched t.here node)) := by
    apply (State.Level.refl (hmatched.underway hnone)).remember
    intro _ _ heq
    cases heq
    apply hmatched.offset
  exact .of_onward (hmatched.trans (.of_mark hlevel (t.mark_remember ..)))

theorem finishCall_restored {id : RuleId} (rule : Rule) {out : Bool × State}
    (h : Restored cfg (s.enterRule cfg id) out) :
  Restored cfg s (finishCall cfg id rule s.mark out.1 out.2)
  := by
  have hleave := State.leaveRule_restored rule h
  obtain ⟨matched, s₁⟩ := out
  dsimp only at hleave ⊢
  cases hhalted : s₁.halted with
  | some limit =>
      rw [finishCall_of_halted hhalted]
      apply Restored.failed hleave.level
      rw [State.halted_leaveRule, hhalted]
      simp
  | none =>
      rw [finishCall_eq hhalted rfl]
      generalize s₁.nodeOf id rule s.mark.here.offset = node at hleave
      have hnone := (State.halted_leaveRule cfg id s.mark matched node s₁).trans hhalted
      generalize s₁.leaveRule cfg id s.mark matched node = t at hleave hnone
      split
      · cases hleave with
        | matched honward hnone => apply State.remember_restored honward hnone
        | failed hlevel hback =>
            apply Restored.of_mark
            · apply hlevel.remember
              rintro _ _ ⟨⟩
            · apply (State.mark_remember ..).trans (hback hnone)
      · apply hleave

theorem runCall_restored (h : ∀ op, (run op).Restores cfg) (id : RuleId) :
  Step.Restores cfg (runCall g cfg run id)
  := by
  intro s hs
  unfold runCall
  split
  · exact .of_mark (.refl hs) rfl
  · split
    · rename_i hanswer
      apply State.replay_restored hs hanswer
    · split
      · exact .halt hs .depth
      · apply finishCall_restored
        apply h _ _ (hs.enterRule id)

/-! ### Expressions -/

theorem test_restored (test : Test) (expectation : String) (bound : Nat) :
  Step.Restores cfg (evalOp g cfg bound (.test test expectation))
  := by
  intro s hs
  have hlevel := State.Level.refl hs
  simp only [evalOp]
  split
  · rename_i hpass
    have hreaches := Test.reaches_of_pass? hpass
    refine .matched ⟨?_, hreaches.offset_le⟩ hs.halted
    exact hlevel.congr rfl rfl rfl rfl rfl hlevel.nodes
  · exact .of_mark (hlevel.miss _) (s.mark_miss cfg expectation)

theorem evalOp_restored {bound : Nat} (h : ∀ op, Step.Restores cfg (eval g cfg bound op)) (op : Op) :
  Step.Restores cfg (evalOp g cfg bound op)
  := by
  intro s hs
  cases op with
  | test test expectation => apply test_restored test expectation bound s hs
  | seq ops => apply runSeq_restored h ops (.refl hs) hs.halted
  | choice ops => apply runChoice_restored h ops (.refl hs) hs.halted rfl
  | star body => exact .of_onward (runRounds_onward (h body) bound hs)
  | plus body =>
      have hfirst := h body s hs
      simp only [evalOp]
      generalize eval g cfg bound body s = out at hfirst
      cases hfirst with
      | matched honward hnone =>
          have hrounds := runRounds_onward (h body) bound (honward.underway hnone)
          exact .of_onward (honward.trans hrounds)
      | failed hlevel hback => exact .failed hlevel hback
  | optional body =>
      have hbody := h body s hs
      simp only [evalOp]
      generalize eval g cfg bound body s = out at hbody
      cases hbody with
      | matched honward _ => exact .of_onward honward
      | failed hlevel _ =>
          exact .of_onward (.of_mark (hlevel.reset (List.suffix_refl _)) rfl)
  | ahead body => exact runPredicate_restored (h body) hs _
  | notAhead body => exact runPredicate_restored (h body) hs _
  | call id => apply runCall_restored h id s hs

theorem eval_of_allowed (hs : s.Underway cfg)
    (hallowed : cfg.allowsSteps s.countStep.stats.steps = true) (bound : Nat) (op : Op) :
  eval g cfg (bound + 1) op s = evalOp g cfg bound op s.countStep
  := by
  rw [eval_succ, State.running_of_not_halted hs.halted, hallowed]
  rfl

theorem eval_of_not_allowed (hs : s.Underway cfg)
    (hallowed : cfg.allowsSteps s.countStep.stats.steps = false) (bound : Nat) (op : Op) :
  eval g cfg (bound + 1) op s = (false, s.countStep.halt cfg .steps)
  := by
  rw [eval_succ, State.running_of_not_halted hs.halted, hallowed]
  rfl

/-- Every expression obeys the law wherever the evaluation is underway. -/
theorem eval_restored (g : Grammar) (cfg : Settings) (bound : Nat) (op : Op) :
  Step.Restores cfg (eval g cfg bound op)
  := by
  induction bound generalizing op with
  | zero => exact fun s hs => .halt hs .steps
  | succ bound ih =>
      intro s hs
      cases hallowed : cfg.allowsSteps s.countStep.stats.steps with
      | true =>
          have hlevel : s.Level cfg s.countStep :=
            ⟨rfl, rfl, hs.memo, Nat.le_succ _, fun _ => hallowed, List.suffix_refl _⟩
          rw [eval_of_allowed hs hallowed]
          exact (evalOp_restored ih op s.countStep (hs.countStep hallowed)).of_level hlevel rfl
      | false =>
          have hlevel : s.Level cfg (s.countStep.halt cfg .steps) :=
            .halt (s := s) (t := s.countStep) rfl rfl hs.memo (Nat.le_succ _) (List.suffix_refl _)
              .steps
          rw [eval_of_not_allowed hs hallowed]
          exact .of_mark hlevel (s.countStep.mark_halt cfg .steps)

/-- Every expression that matches has taken a step. -/
theorem steps_lt_of_eval {bound : Nat} {op : Op} {s' : State} (hs : s.Underway cfg)
    (h : eval g cfg bound op s = (true, s')) :
  s.stats.steps < s'.stats.steps
  := by
  cases bound with
  | zero => cases h
  | succ bound =>
      cases hallowed : cfg.allowsSteps s.countStep.stats.steps with
      | true =>
          rw [eval_of_allowed hs hallowed] at h
          have hlevel := (evalOp_restored (eval_restored g cfg bound) op s.countStep
            (hs.countStep hallowed)).level
          rw [h] at hlevel
          apply hlevel.steps
      | false =>
          rw [eval_of_not_allowed hs hallowed] at h
          cases h

/-! ### Activations -/

/-- What is true of an activation when it begins: the evaluation is underway and has only gone on
since the mark was made, and a job that goes back by itself begins at its mark. -/
structure Activation.Lawful (cfg : Settings) (a : Activation) : Prop where
  underway : a.state.Underway cfg
  offset : a.mark.here.offset ≤ a.state.here.offset
  nodes : a.mark.nodes <:+ a.state.nodes
  mark_eq : a.job.GoesBack → a.state.mark = a.mark

namespace Activation

theorem lawful_of_mark {a : Activation} (h : a.state.Underway cfg) (hmark : a.state.mark = a.mark) :
  a.Lawful cfg
  where
  underway := h
  offset := by
    rw [← hmark]
    apply Nat.le_refl
  nodes := by
    rw [← hmark]
    apply List.suffix_refl
  mark_eq _ := hmark

/-- Relative to its mark, an activation ends as a step does. -/
theorem Lawful.ending {a : Activation} (h : a.Lawful cfg) :
  Restored cfg (a.state.reset a.mark) (a.ending g cfg)
  := by
  obtain ⟨job, bound, rounds, m, s⟩ := a
  obtain ⟨hs, hoffset, hnodes, hmark⟩ := h
  have heval := eval_restored g cfg bound
  have hlevel : (s.reset m).Level cfg s :=
    ⟨rfl, rfl, hs.memo, Nat.le_refl _, fun _ => hs.allowed, hnodes⟩
  have honward : (s.reset m).Onward cfg s := ⟨hlevel, hoffset⟩
  cases job with
  | op op => exact (heval op s hs).of_level hlevel (hmark trivial)
  | items ops => exact runSeq_restored heval ops honward hs.halted
  | alternatives ops => exact runChoice_restored heval ops hlevel hs.halted (hmark trivial)
  | rounds body => exact .of_onward (honward.trans (runRounds_onward (heval body) rounds hs))
  | call id => exact (runCall_restored heval id s hs).of_level hlevel (hmark trivial)

end Activation

/-- An expression that matches goes on, and the evaluation stays underway. -/
theorem State.Underway.of_eval {bound : Nat} {op : Op} {s' : State} (hs : s.Underway cfg)
    (h : eval g cfg bound op s = (true, s')) :
  s.Onward cfg s' ∧ s'.Underway cfg
  := by
  have hrestored := eval_restored g cfg bound op s hs
  rw [h] at hrestored
  cases hrestored with
  | matched honward hnone => exact ⟨honward, honward.underway hnone⟩

/-- What begins on the way through a lawful activation is lawful and begins no earlier in the
text. -/
theorem Begins.lawful {a b : Activation} (hbegins : Begins g cfg a b) (h : a.Lawful cfg) :
  b.Lawful cfg ∧ a.state.here.offset ≤ b.state.here.offset
  := by
  obtain ⟨hs, hoffset, hnodes, hmark⟩ := h
  have hhere := Nat.le_refl a.state.here.offset
  cases hbegins with
  | seq hsteps => exact ⟨Activation.lawful_of_mark (hs.countStep hsteps.2) rfl, hhere⟩
  | choice hsteps => exact ⟨Activation.lawful_of_mark (hs.countStep hsteps.2) rfl, hhere⟩
  | star hsteps => exact ⟨Activation.lawful_of_mark (hs.countStep hsteps.2) rfl, hhere⟩
  | plus hsteps => exact ⟨Activation.lawful_of_mark (hs.countStep hsteps.2) rfl, hhere⟩
  | plusRounds hsteps hbody =>
      obtain ⟨honward, hs'⟩ := (hs.countStep hsteps.2).of_eval hbody
      exact ⟨⟨hs', honward.offset, honward.nodes, False.elim⟩, honward.offset⟩
  | optional hsteps => exact ⟨Activation.lawful_of_mark (hs.countStep hsteps.2) rfl, hhere⟩
  | ahead hsteps =>
      exact ⟨Activation.lawful_of_mark (hs.countStep hsteps.2).enterPredicate rfl, hhere⟩
  | notAhead hsteps =>
      exact ⟨Activation.lawful_of_mark (hs.countStep hsteps.2).enterPredicate rfl, hhere⟩
  | opCall hsteps => exact ⟨Activation.lawful_of_mark (hs.countStep hsteps.2) rfl, hhere⟩
  | item => exact ⟨Activation.lawful_of_mark hs rfl, hhere⟩
  | items hitem =>
      obtain ⟨honward, hs'⟩ := hs.of_eval hitem
      exact ⟨⟨hs', Nat.le_trans hoffset honward.offset, hnodes.trans honward.nodes, False.elim⟩,
        honward.offset⟩
  | alternative => exact ⟨Activation.lawful_of_mark hs rfl, hhere⟩
  | @alternatives op _ bound _ m s s' hitem hrunning =>
      have hlevel := (eval_restored g cfg bound op s hs).level
      rw [hitem] at hlevel
      have hback := s'.mark_backtrack cfg m
      have hunderway := (hlevel.underway (State.running_iff.mp hrunning)).backtrack m
      refine ⟨Activation.lawful_of_mark hunderway hback, ?_⟩
      exact Nat.le_of_eq (congrArg (·.here.offset) ((hmark trivial).trans hback.symm))
  | round => exact ⟨Activation.lawful_of_mark hs rfl, hhere⟩
  | rounds hbody _ =>
      obtain ⟨honward, hs'⟩ := hs.of_eval hbody
      exact ⟨⟨hs', Nat.le_trans hoffset honward.offset, hnodes.trans honward.nodes, False.elim⟩,
        honward.offset⟩
  | @body id _ _ _ _ s _ _ _ =>
      refine ⟨Activation.lawful_of_mark (hs.enterRule id) rfl, ?_⟩
      rw [Activation.ofOp, State.enterRule_eq]

theorem State.underway_initial (cfg : Settings) (text : String) :
  (State.initial text).Underway cfg
  where
  halted := rfl
  memo := Memo.forward_empty
  allowed := by
    unfold Settings.allowsSteps
    cases cfg.limits with
    | none => rfl
    | some limits => simp [initial]

theorem Activation.lawful_first (cfg : Settings) (id : RuleId) (bound : Nat) (text : String) :
  (Activation.first id bound text).Lawful cfg
  := Activation.lawful_of_mark (State.underway_initial cfg text) rfl

theorem Activation.Reached.lawful {bound : Nat} {id : RuleId} {text : String} {a : Activation}
    (h : Activation.Reached g cfg bound id text a) :
  a.Lawful cfg
  := by
  induction h with
  | refl => apply Activation.lawful_first
  | tail _ hbegins ih => apply (hbegins.lawful ih).1

/-- Going back to a mark whose nodes lie below those of the state takes nodes off and puts none on:
as many are left as the mark has. -/
theorem State.reset_eq_of_suffix (h : m.nodes <:+ s.nodes) :
  s.reset m = { s with
    here := m.here
    nodes := s.nodes.drop (s.nodes.length - m.nodes.length) }
  := by
  rw [reset, ← List.suffix_iff_eq_drop.mp h]

/-- To go back it is enough to know how many nodes there were. Whatever an expression comes to, a
limit included, the nodes of the mark of an activation lie below any others. -/
theorem Activation.Reached.reset_eval {n : Nat} {id : RuleId} {text : String} {a : Activation}
    (h : Activation.Reached g cfg n id text a) (bound : Nat) (op : Op) :
  (eval g cfg bound op a.state).2.reset a.mark = { (eval g cfg bound op a.state).2 with
    here := a.mark.here
    nodes := (eval g cfg bound op a.state).2.nodes.drop
      ((eval g cfg bound op a.state).2.nodes.length - a.mark.nodes.length) }
  := by
  apply State.reset_eq_of_suffix
  have hlevel := (eval_restored g cfg bound op a.state h.lawful.underway).level
  apply h.lawful.nodes.trans hlevel.nodes

/-- Once a limit has stopped the evaluation, an expression fails and changes nothing. -/
theorem eval_of_halted {limit : Limit} (h : s.halted = some limit) (bound : Nat) (op : Op) :
  eval g cfg bound op s = (false, s)
  := by
  have hstopped := State.running_of_halted h
  cases bound with
  | zero => simp only [eval, State.halt, hstopped, Bool.false_eq_true, if_false]
  | succ bound => simp only [eval, hstopped, Bool.not_false, if_true]

end

/-! ### The law -/

/-- Wherever an evaluation begins or ends something, every expression obeys the law from there. A
failure that no limit caused leaves the position and the nodes exactly as they were. A match does
not go back in the text and leaves the nodes that were there unchanged below any new ones. And
whatever happens, limits included, calls and predicates nest as deeply afterwards as before. -/
theorem failure_restores_and_match_adds {g : Grammar} {cfg : Settings} {n : Nat} {id : RuleId}
    {text : String} {a : Activation} (h : Activation.Reached g cfg n id text a) {s : State}
    (hs : s ∈ [a.state, (a.ending g cfg).2]) (op : Op) (bound : Nat) :
  ((eval g cfg bound op s).1 = false → (eval g cfg bound op s).2.halted = none →
      (eval g cfg bound op s).2.here = s.here ∧ (eval g cfg bound op s).2.nodes = s.nodes)
    ∧ ((eval g cfg bound op s).1 = true →
      s.here.offset ≤ (eval g cfg bound op s).2.here.offset
        ∧ s.nodes <:+ (eval g cfg bound op s).2.nodes)
    ∧ (eval g cfg bound op s).2.depth = s.depth
    ∧ (eval g cfg bound op s).2.predicates = s.predicates
  := by
  cases hhalted : s.halted with
  | some limit =>
      rw [eval_of_halted hhalted]
      refine ⟨fun _ _ => ⟨rfl, rfl⟩, fun hmatched => ?_, rfl, rfl⟩
      cases hmatched
  | none =>
      have hunderway : s.Underway cfg := by
        simp only [List.mem_cons, List.not_mem_nil, or_false] at hs
        obtain rfl | rfl := hs
        · apply h.lawful.underway
        · apply h.lawful.ending.level.underway hhalted
      have hrestored := eval_restored g cfg bound op s hunderway
      generalize eval g cfg bound op s = out at hrestored
      refine ⟨?_, ?_, hrestored.level.depth, hrestored.level.predicates⟩
      · intro hfailed hnone
        cases hrestored with
        | matched _ _ => cases hfailed
        | failed _ hback =>
            exact ⟨congrArg Mark.here (hback hnone), congrArg Mark.nodes (hback hnone)⟩
      · intro hmatched
        cases hrestored with
        | matched honward _ => exact ⟨honward.offset, honward.nodes⟩
        | failed _ _ => cases hmatched

/-- After the descriptor at the beginning of `I[x` is read, the array descriptor that only seems to
follow leaves the position and the node of the first as they are. -/
theorem array_descriptor_restores :
  ∃ s, s.here.offset = 1 ∧ s.nodes.length = 1
    ∧ (eval descriptorDraft.buildD {} 20 (.call 4) s).1 = false
    ∧ (eval descriptorDraft.buildD {} 20 (.call 4) s).2.here = s.here
    ∧ (eval descriptorDraft.buildD {} 20 (.call 4) s).2.nodes = s.nodes
    ∧ (eval descriptorDraft.buildD {} 20 (.call 4) s).2.depth = s.depth
  := by
  have hreached : Activation.Reached descriptorDraft.buildD {} 20 0 "I[x" (.first 0 20 "I[x") :=
    .refl
  obtain ⟨hfailure, -, hdepth, -⟩ := failure_restores_and_match_adds hreached
    (List.mem_cons_of_mem _ (List.mem_singleton_self _)) (.call 4) 20
  obtain ⟨hhere, hnodes⟩ := hfailure rfl rfl
  exact ⟨_, rfl, rfl, rfl, hhere, hnodes, hdepth⟩

end ClassTranscript.Peg
