import ClassTranscript.Proofs.Peg.Limited
import ClassTranscript.Proofs.Peg.Visits

/-!
# What is remembered is not evaluated again

Where an evaluation that remembers results follows a run, the visits of a rule take their course
(`Runs.logs`). The key is that the body of a rule, run from a position, does not lead back to a call
of the rule from there, since a run is finite and unique. So in a parse that no limit stops the body
of a rule that remembers all results is evaluated at an offset at most once inside predicates, and
at most once outside them unless a predicate was there first (`parse_visits`).
-/

namespace ClassTranscript.Peg

/-! ### What a call remembers -/

/-- What the memo of a state becomes at the end of a call: it stays as it is, which it does not
where all results are remembered and none is known, or the result is added to it. -/
inductive Remembers (policy : MemoPolicy) (id : RuleId) (offset : Nat) (s : State) :
    Memo → Prop where
  | kept : (policy = .all → s.memo.knows id offset = true) → Remembers policy id offset s s.memo
  | added (entry : MemoEntry) : s.memo.knows id offset = false →
    Remembers policy id offset s (s.memo.remember id offset ⟨entry, !s.tracking⟩)

/-- The end of a call that no limit stops. -/
theorem exists_finishCall_eq {cfg : Settings} {id : RuleId} {rule : Rule} {m : Mark}
    {matched : Bool} {s : State} (h : (finishCall cfg id rule m matched s).2.halted = none) :
  ∃ node memo, (finishCall cfg id rule m matched s).2
      = { s.leaveRule cfg id m matched node with memo }
    ∧ Remembers (cfg.policyOf rule) id m.here.offset s memo
  := by
  use s.nodeOf id rule m.here.offset
  simp only [finishCall] at h ⊢
  generalize s.nodeOf id rule m.here.offset = node at h ⊢
  have hmemo := State.memo_leaveRule cfg id m matched node s
  have htracking : (s.leaveRule cfg id m matched node).tracking = s.tracking := by
    rw [State.leaveRule, State.record_eq]
    rfl
  generalize s.leaveRule cfg id m matched node = t at h hmemo htracking ⊢
  have hremember {policy : MemoPolicy} {entry : MemoEntry}
      (hnew : s.memo.knows id m.here.offset = false)
      (hrunning : (t.remember cfg id m.here.offset entry).halted = none) :
      ∃ memo, t.remember cfg id m.here.offset entry = { t with memo }
        ∧ Remembers policy id m.here.offset s memo := by
    refine ⟨_, ?_, .added entry hnew⟩
    unfold State.remember at hrunning ⊢
    split at hrunning
    · rename_i hallows
      rw [if_pos hallows, hmemo, htracking]
    · exact absurd hrunning (State.halted_halt_ne_none _ t)
  split at h
  · rename_i hstopped
    rw [State.running_of_not_halted h] at hstopped
    cases hstopped
  · rename_i hrunning
    rw [if_neg hrunning]
    split at h
    · rename_i hdone
      rw [if_pos hdone]
      refine ⟨s.memo, by rw [← hmemo], .kept ?_⟩
      intro hall
      simpa [hall, hmemo] using hdone
    · rename_i hopen
      rw [if_neg hopen]
      obtain ⟨hpolicy, hnew⟩ := not_or.mp hopen
      rw [Bool.not_eq_true, hmemo] at hnew
      cases hp : cfg.policyOf rule with
      | off => exact absurd hp hpolicy
      | all => cases matched <;> simp only [hp] at h ⊢ <;> apply hremember hnew h
      | mismatches =>
          cases matched with
          | false =>
              simp only [hp] at h ⊢
              apply hremember hnew h
          | true => exact ⟨s.memo, by rw [← hmemo], .kept (by simp)⟩

namespace Watch

variable {g : Grammar} {start : Cursor} {cfg : Settings} {w : Watch g start} {s s' s'' : State}
  {e f : Effect} {r : Option Match} {bound : Nat} {m₀ : Mark}

/-- Unless a limit stops a step that has the given effect, the visits take their course in it. -/
def Logs (w : Watch g start) (e : Effect) (s : State) (out : Bool × State) : Prop :=
  out.2.halted = none → w.Visited e s out.2

theorem Logs.of_halted {out : Bool × State} {limit : Limit} (h : out.2.halted = some limit) :
  w.Logs e s out
  := by
  intro hrunning
  rw [h] at hrunning
  cases hrunning

/-! ### Operators -/

theorem Logs.op {op : Op} (hs : s.halted = none)
    (h : ∀ b, w.Logs e s.countStep (evalOp g cfg b op s.countStep)) (bound : Nat) :
  w.Logs (.step ++ e) s (eval g cfg bound op s)
  := by
  intro hrunning
  cases bound with
  | zero => exact absurd hrunning (State.halted_halt_ne_none _ s)
  | succ b =>
      rw [eval_succ, if_neg (by simp [State.running, hs])] at hrunning ⊢
      split at hrunning
      · exact absurd hrunning (State.halted_halt_ne_none _ _)
      · rename_i hallows
        rw [if_neg hallows]
        exact (h b hrunning).step

theorem Logs.plusNone {body : Op}
    (hend : Ends g cfg start bound s.mark s none e (eval g cfg bound body s))
    (h : w.Logs e s (eval g cfg bound body s)) :
  w.Logs e s (evalOp g cfg bound (.plus body) s)
  := by
  simp only [evalOp]
  generalize eval g cfg bound body s = out at hend h
  cases hend with
  | completed _ _ _ => apply h
  | halted hhalted _ => exact .of_halted hhalted

theorem Logs.plusSome {body : Op} {m : Match} (hs : Ready g start s)
    (hrun : Runs g (.op body) s.here (some m) e)
    (hend : Ends g cfg start bound s.mark s (some m) e (eval g cfg bound body s))
    (h : w.Logs e s (eval g cfg bound body s))
    (hnext : ∀ s₁, Ready g start s₁ → s₁.here = m.stop → w.Logs f s₁
      ((runRounds cfg (eval g cfg bound body) bound s₁).running,
        runRounds cfg (eval g cfg bound body) bound s₁)) :
  w.Logs (e ++ f) s (evalOp g cfg bound (.plus body) s)
  := by
  simp only [evalOp]
  generalize eval g cfg bound body s = out at hend h
  cases hend with
  | completed hrunning hfollows hmark =>
      obtain ⟨hs₁, hhere⟩ := hs.next hrun hrunning hfollows hmark
      intro hlast
      exact (h hrunning).trans (hnext _ hs₁ hhere hlast)
  | halted hhalted _ => exact .of_halted hhalted

theorem Logs.optional {body : Op}
    (hend : Ends g cfg start bound s.mark s r e (eval g cfg bound body s))
    (h : w.Logs e s (eval g cfg bound body s)) :
  w.Logs e s (evalOp g cfg bound (.optional body) s)
  := by
  simp only [evalOp]
  generalize eval g cfg bound body s = out at hend h
  cases hend with
  | completed hrunning _ _ => cases r <;> exact fun _ => h hrunning
  | halted hhalted _ => exact .of_halted hhalted

theorem Logs.runPredicate {run : Step} (h : w.Logs e s.enterPredicate (run s.enterPredicate)) :
  w.Logs e.silent s (Peg.runPredicate run s)
  := by
  simp only [Peg.runPredicate]
  generalize run s.enterPredicate = out at h
  apply h

theorem Logs.ahead {body : Op}
    (h : w.Logs e s.enterPredicate (eval g cfg bound body s.enterPredicate)) :
  w.Logs e.silent s (evalOp g cfg bound (.ahead body) s)
  := by
  simp only [evalOp]
  apply h.runPredicate

theorem Logs.notAhead {body : Op}
    (h : w.Logs e s.enterPredicate (eval g cfg bound body s.enterPredicate)) :
  w.Logs e.silent s (evalOp g cfg bound (.notAhead body) s)
  := by
  simp only [evalOp]
  apply h.runPredicate

/-! ### Sequences, choices and repetitions -/

section

variable {run : Op → Step} {op : Op} {ops : List Op}

theorem Logs.itemsNone (hend : Ends g cfg start bound s.mark s none e (run op s))
    (h : w.Logs e s (run op s)) :
  w.Logs e s (runSeq run m₀ (op :: ops) s)
  := by
  simp only [runSeq]
  generalize run op s = out at hend h
  cases hend with
  | completed _ _ _ => apply h
  | halted hhalted _ => exact .of_halted hhalted

theorem Logs.itemsSome {m : Match} (hs : Ready g start s)
    (hrun : Runs g (.op op) s.here (some m) e)
    (hend : Ends g cfg start bound s.mark s (some m) e (run op s)) (h : w.Logs e s (run op s))
    (hnext : ∀ s₁, Ready g start s₁ → s₁.here = m.stop → w.Logs f s₁ (runSeq run m₀ ops s₁)) :
  w.Logs (e ++ f) s (runSeq run m₀ (op :: ops) s)
  := by
  simp only [runSeq]
  generalize run op s = out at hend h
  cases hend with
  | completed hrunning hfollows hmark =>
      obtain ⟨hs₁, hhere⟩ := hs.next hrun hrunning hfollows hmark
      intro hlast
      exact (h hrunning).trans (hnext _ hs₁ hhere hlast)
  | halted hhalted _ => exact .of_halted hhalted

theorem Logs.alternativesNone (htraced : cfg.traced = true) (hs : Ready g start s)
    (hrun : Runs g (.op op) s.here none e)
    (hend : Ends g cfg start bound s.mark s none e (run op s)) (h : w.Logs e s (run op s))
    (hnext : ∀ s₁, Ready g start s₁ → s₁.here = s.here → s₁.mark = s.mark →
      w.Logs f s₁ (runChoice cfg run s.mark ops s₁)) :
  w.Logs (e ++ f) s (runChoice cfg run s.mark (op :: ops) s)
  := by
  simp only [runChoice]
  generalize run op s = out at hend h
  cases hend with
  | @completed s₁ hrunning hfollows hmark =>
      have hrunning' := (s₁.halted_backtrack cfg s.mark).trans hrunning
      have hmark' := s₁.mark_backtrack cfg s.mark
      obtain ⟨hs₁, hhere⟩ := hs.next hrun hrunning' (hfollows.backtrack s.mark) hmark'
      have hvisited : w.Visited e s (s₁.reset s.mark) := h hrunning
      simp only [Option.isSome_none, State.running_of_not_halted hrunning, if_true]
      intro hlast
      exact (hvisited.record htraced rfl).trans (hnext _ hs₁ hhere hmark' hlast)
  | halted hhalted _ =>
      simp only [State.running_of_halted hhalted]
      exact .of_halted hhalted

theorem Logs.alternativesSome {m : Match} {m₁ : Mark}
    (hend : Ends g cfg start bound m₀ s (some m) e (run op s)) (h : w.Logs e s (run op s)) :
  w.Logs e s (runChoice cfg run m₁ (op :: ops) s)
  := by
  simp only [runChoice]
  generalize run op s = out at hend h
  cases hend with
  | completed _ _ _ => apply h
  | halted hhalted _ =>
      simp only [State.running_of_halted hhalted]
      exact .of_halted hhalted

/-- The visits in a repetition take their course if they do after its first round. -/
theorem Logs.rounds {round : Step} {r₁ : Option Match}
    (hend : Ends g cfg start bound s.mark s r₁ e (round s)) (h : w.Logs e s (round s)) (f : Effect)
    (hnext : ∀ n s₁, s₁.halted = none → Follows g cfg start s e s₁ →
      s₁.mark = s.markAfter s.mark r₁ → w.Visited e s s₁ →
      w.Logs (e ++ f) s (afterRound cfg round n s.mark (r₁.isSome, s₁))) (n : Nat) :
  w.Logs (e ++ f) s ((runRounds cfg round n s).running, runRounds cfg round n s)
  := by
  cases n with
  | zero => exact fun hrunning => absurd hrunning (State.halted_halt_ne_none _ s)
  | succ n =>
      change w.Logs (e ++ f) s (afterRound cfg round n s.mark (round s))
      generalize round s = out at hend h
      cases hend with
      | completed hrunning hfollows hmark => apply hnext n _ hrunning hfollows hmark (h hrunning)
      | @halted s₁ limit hhalted _ =>
          have hhalted' : (s₁.reset s.mark).halted = some limit := hhalted
          exact .of_halted hhalted'

end

/-! ### Calls -/

section

variable {id : RuleId} {rule : Rule}

theorem isSome_silence? :
  (w.silence? s).isSome = s.memo.knows w.id w.offset
  := by
  rw [silence?, Option.isSome_map, Std.TreeMap.isSome_getElem?_eq_contains, Memo.knows]

/-- A result that is remembered for the watched rule at the watched offset is used unless it is
silent and expectations are recorded. -/
theorem answer?_eq_none {policy : MemoPolicy} {silent : Bool} (hpolicy : policy ≠ .off)
    (hoffset : s.here.offset = w.offset) (hsilent : w.silence? s = some silent)
    (h : s.answer? policy w.id = none) :
  silent = true ∧ s.tracking = true
  := by
  obtain ⟨slot, hslot, rfl⟩ := Option.map_eq_some_iff.mp hsilent
  rw [State.answer?, if_neg hpolicy, Memo.answer?, hoffset, hslot] at h
  simpa [Option.filter, and_comm] using h

/-- What is remembered of another call does not count. -/
theorem silence?_eq_of_remembers {policy : MemoPolicy} {offset : Nat} {memo : Memo}
    (h : Remembers policy id offset s memo) (hkey : ¬ (id = w.id ∧ offset = w.offset))
    (hs' : s'.memo = memo) :
  w.silence? s' = w.silence? s
  := by
  rw [silence?, silence?, hs']
  cases h with
  | kept _ => rfl
  | added entry _ =>
      rw [Memo.remember, Std.TreeMap.getElem?_insert, if_neg]
      intro heq
      obtain ⟨hoffset, hid⟩ := Prod.mk.inj (compareCalls_eq_eq_iff.mp heq)
      exact hkey ⟨hid, hoffset⟩

/-- What is remembered of the watched call counts. -/
theorem silence?_eq_of_remember {slot : MemoSlot}
    (hs' : s'.memo = s.memo.remember w.id w.offset slot) :
  w.silence? s' = some slot.silent
  := by
  rw [silence?, hs', Memo.remember, Std.TreeMap.getElem?_insert_self, Option.map_some]

/-- An evaluation from `s` for a watched call that nothing answers, where the body leaves what is
remembered of that call as it is: either nothing is known and the result is remembered, or a silent
result is known that stays. -/
theorem course_evaluation {s₁ : State} {memo : Memo} (hoffset : s.here.offset = w.offset)
    (hanswer : s.answer? .all w.id = none) (hsame : w.silence? s₁ = w.silence? s)
    (htracking : s₁.tracking = s.tracking) (h : Remembers .all w.id w.offset s₁ memo)
    (hs' : s'.memo = memo) :
  Course (w.silence? s) [.evaluation s.tracking] (w.silence? s')
  := by
  have hknows : s₁.memo.knows w.id w.offset = (w.silence? s).isSome := by
    rw [← hsame, isSome_silence?]
  cases hsilence : w.silence? s with
  | none =>
      rw [hsilence] at hknows
      cases h with
      | kept hall => simp [hall rfl] at hknows
      | added entry _ =>
          rw [silence?_eq_of_remember hs', htracking]
          exact .first .nil
  | some silent =>
      rw [hsilence] at hknows
      obtain ⟨rfl, htrue⟩ := answer?_eq_none (by decide) hoffset hsilence hanswer
      cases h with
      | added entry hnew => simp [hnew] at hknows
      | kept _ =>
          have hkept : w.silence? s' = w.silence? s₁ := by rw [silence?, silence?, hs']
          rw [hkept, hsame, hsilence, htrue]
          exact .again .nil

theorem Logs.replay (htraced : cfg.traced = true) (hs : Ready g start s)
    (hrun : Runs g (.call id) s.here r e) {policy : MemoPolicy} {entry : MemoEntry}
    (hanswer : s.answer? policy id = some entry) :
  w.Logs e s (s.replay cfg id entry)
  := by
  intro _
  have hsilence : w.silence? (s.replay cfg id entry).2 = w.silence? s := by
    cases entry <;> apply silence?_record
  have hvisits : w.visits (s.replay cfg id entry).2
      = w.visits s ++ if id = w.id ∧ s.here.offset = w.offset then [.hit] else [] := by
    cases entry with
    | matched stop nodes =>
        apply (visits_record htraced _).trans
        rw [Event.visit?, apply_ite Option.toList]
        rfl
    | failed =>
        apply (visits_record htraced _).trans
        rw [Event.visit?, apply_ite Option.toList]
        rfl
  by_cases hkey : id = w.id ∧ s.here.offset = w.offset
  · obtain ⟨rfl, hoffset⟩ := hkey
    refine ⟨[.hit], by rw [hvisits, if_pos ⟨rfl, hoffset⟩], ?_, ?_⟩
    · simp only [State.answer?, Option.ite_none_left_eq_some, Memo.answer?, Option.map_eq_some_iff,
        Option.filter_eq_some_iff] at hanswer
      obtain ⟨-, slot, ⟨hslot, -⟩, -⟩ := hanswer
      have hsilent : w.silence? s = some slot.silent := by
        rw [silence?, ← hoffset, hslot, Option.map_some]
      rw [hsilence, hsilent]
      exact .hit .nil
    · intro hlt
      have hcalls := w.calls_eq hs.reaches hoffset hrun
      omega
  · apply Visited.of_eq _ hsilence
    rw [hvisits, if_neg hkey, List.append_nil]

/-- The evaluation of a body and what a call has left to do after it. -/
theorem Logs.finishCall (htraced : cfg.traced = true) (hmemoize : cfg.memoize = true)
    (hs : Ready g start s) (hrule : g.rule? id = some rule)
    (hbody : Runs g (.op rule.op) s.here r e)
    (hanswer : s.answer? (cfg.policyOf rule) id = none) {out : Bool × State}
    (hend : Ends g cfg start bound (s.enterRule cfg id).mark (s.enterRule cfg id) r e out)
    (h : w.Logs e (s.enterRule cfg id) out) :
  w.Logs e.inCall s (Peg.finishCall cfg id rule s.mark out.1 out.2)
  := by
  intro hlast
  obtain ⟨node, memo, heq, hremembers⟩ := exists_finishCall_eq hlast
  rw [heq] at hlast ⊢
  have hrunning : out.2.halted = none :=
    (State.halted_leaveRule cfg id s.mark out.1 node out.2).symm.trans hlast
  obtain ⟨vs, hvisits, hcourse, hfew⟩ := h hrunning
  have henter : w.visits (s.enterRule cfg id) = w.visits s
      ++ if id = w.id ∧ s.here.offset = w.offset then [.evaluation s.tracking] else [] :=
    (visits_record htraced _).trans (by rw [Event.visit?, apply_ite Option.toList]; rfl)
  have hleave : w.visits { out.2.leaveRule cfg id s.mark out.1 node with memo }
      = w.visits out.2 := by
    apply (visits_record htraced _).trans
    apply List.append_nil
  have hknown : w.silence? (s.enterRule cfg id) = w.silence? s := silence?_record _
  rw [hknown] at hcourse
  by_cases hkey : id = w.id ∧ s.here.offset = w.offset
  -- the body does not lead back to the watched call, which evaluates one body more
  · obtain ⟨rfl, hoffset⟩ := hkey
    obtain rfl := Option.some.inj (hrule.symm.trans w.rule?_eq)
    have hpolicy : cfg.policyOf w.rule = .all := by
      rw [Settings.policyOf, if_pos hmemoize, w.memo_eq]
    rw [hpolicy] at hanswer hremembers
    have hoffset' : s.mark.here.offset = w.offset := hoffset
    rw [hoffset'] at hremembers
    have hcalls := w.calls_eq hs.reaches hoffset (.call hrule hbody)
    simp only [Effect.inCall] at hcalls
    obtain rfl : vs = [] := hfew (by omega)
    have htracking : out.2.tracking = s.tracking := by
      cases hend with
      | completed _ hfollows _ =>
          rw [State.tracking, hfollows.predicates, State.enterRule_eq]
          rfl
      | halted hhalted _ =>
          rw [hhalted] at hrunning
          cases hrunning
    refine ⟨[.evaluation s.tracking], ?_, ?_, ?_⟩
    · rw [hleave, hvisits, henter, if_pos ⟨rfl, hoffset⟩, List.append_nil]
    · apply course_evaluation hoffset hanswer hcourse.eq_of_nil htracking hremembers rfl
    · intro hlt
      simp only [Effect.inCall] at hlt
      omega
  · refine ⟨vs, ?_, ?_, ?_⟩
    · rw [hleave, hvisits, henter, if_neg hkey, List.append_nil]
    · have hsilence : w.silence? { out.2.leaveRule cfg id s.mark out.1 node with memo }
          = w.silence? out.2 := silence?_eq_of_remembers hremembers hkey rfl
      rw [hsilence]
      apply hcourse
    · intro hlt
      apply hfew
      simp only [Effect.inCall] at hlt
      omega

theorem Logs.runCall (htraced : cfg.traced = true) (hmemoize : cfg.memoize = true)
    (hs : Ready g start s) (hrule : g.rule? id = some rule)
    (hbody : Runs g (.op rule.op) s.here r e)
    (hend : Ends g cfg start bound (s.enterRule cfg id).mark (s.enterRule cfg id) r e
      (eval g cfg bound rule.op (s.enterRule cfg id)))
    (h : w.Logs e (s.enterRule cfg id) (eval g cfg bound rule.op (s.enterRule cfg id))) :
  w.Logs e.inCall s (Peg.runCall g cfg (eval g cfg bound) id s)
  := by
  unfold Peg.runCall
  simp only [hrule]
  cases hanswer : s.answer? (cfg.policyOf rule) id with
  | some entry => exact .replay htraced hs (.call hrule hbody) hanswer
  | none =>
      cases cfg.allowsDepth (s.depth + 1) with
      | false => exact .of_halted (State.halted_halt hs.running)
      | true => exact .finishCall htraced hmemoize hs hrule hbody hanswer hend h

end

end Watch

/-! ### Runs -/

/-- Where an evaluation that remembers results and keeps a log follows a run, the visits of a
watched rule take their course. -/
theorem Runs.logs {g : Grammar} {start : Cursor} (w : Watch g start) {cfg : Settings}
    (htraced : cfg.traced = true) (hmemoize : cfg.memoize = true) {job : Job} {here : Cursor}
    {r : Option Match} {e : Effect} (h : Runs g job here r e) :
  ∀ (bound rounds : Nat) (m₀ : Mark) (s : State), Ready g start s → s.here = here →
    (job.GoesBack → m₀ = s.mark) → w.Logs e s (job.perform g cfg bound rounds m₀ s)
  := by
  induction h with
  | pass htest =>
      rintro bound - m₀ s hs rfl -
      refine .op hs.running (e := {}) (fun b => ?_) bound
      simp only [evalOp, show s.countStep.here = s.here from rfl, htest]
      exact fun _ => .of_eq rfl rfl
  | @miss test x here htest =>
      rintro bound - m₀ s hs rfl -
      refine .op hs.running (e := { misses := [⟨s.here.offset, x⟩] }) (fun b => ?_) bound
      simp only [evalOp, show s.countStep.here = s.here from rfl, htest]
      exact fun _ => .miss htraced
  | seq _ ih | choice _ ih | opCall _ ih =>
      rintro bound - m₀ s hs rfl -
      exact .op hs.running (fun b => ih b 0 s.mark s.countStep hs.countStep rfl fun _ => rfl) bound
  | star _ ih =>
      rintro bound - m₀ s hs rfl -
      exact .op hs.running (fun b => ih b b s.mark s.countStep hs.countStep rfl False.elim) bound
  | plusNone hbody ih =>
      rintro bound - m₀ s hs rfl -
      refine .op hs.running (fun b => ?_) bound
      apply Watch.Logs.plusNone (s := s.countStep)
      · apply hbody.ends b 0 s.mark _ hs.countStep rfl fun _ => rfl
      · apply ih b 0 s.mark _ hs.countStep rfl fun _ => rfl
  | plusSome hbody _ ih ihRounds =>
      rintro bound - m₀ s hs rfl -
      refine .op hs.running (fun b => ?_) bound
      apply Watch.Logs.plusSome hs.countStep hbody
      · apply hbody.ends b 0 s.mark _ hs.countStep rfl fun _ => rfl
      · apply ih b 0 s.mark _ hs.countStep rfl fun _ => rfl
      · intro s₁ hs₁ hhere
        apply ihRounds b b s.mark s₁ hs₁ hhere False.elim
  | optional hbody ih =>
      rintro bound - m₀ s hs rfl -
      refine .op hs.running (fun b => ?_) bound
      apply Watch.Logs.optional (s := s.countStep)
      · apply hbody.ends b 0 s.mark _ hs.countStep rfl fun _ => rfl
      · apply ih b 0 s.mark _ hs.countStep rfl fun _ => rfl
  | ahead _ ih =>
      rintro bound - m₀ s hs rfl -
      refine .op hs.running (fun b => ?_) bound
      apply Watch.Logs.ahead (s := s.countStep)
      apply ih b 0 s.mark _ hs.countStep.enterPredicate rfl fun _ => rfl
  | notAhead _ ih =>
      rintro bound - m₀ s hs rfl -
      refine .op hs.running (fun b => ?_) bound
      apply Watch.Logs.notAhead (s := s.countStep)
      apply ih b 0 s.mark _ hs.countStep.enterPredicate rfl fun _ => rfl
  | itemsNil =>
      rintro bound - m₀ s hs rfl -
      exact fun _ => .of_eq rfl rfl
  | itemsNone hop ih =>
      rintro bound - m₀ s hs rfl -
      apply Watch.Logs.itemsNone
      · apply hop.ends bound 0 s.mark s hs rfl fun _ => rfl
      · apply ih bound 0 s.mark s hs rfl fun _ => rfl
  | itemsSome hop _ ih ihItems =>
      rintro bound - m₀ s hs rfl -
      apply Watch.Logs.itemsSome hs hop
      · apply hop.ends bound 0 s.mark s hs rfl fun _ => rfl
      · apply ih bound 0 s.mark s hs rfl fun _ => rfl
      · intro s₁ hs₁ hhere
        apply ihItems bound 0 m₀ s₁ hs₁ hhere False.elim
  | alternativesNil =>
      rintro bound - m₀ s hs rfl -
      exact fun _ => .of_eq rfl rfl
  | alternativesNone hop _ ih ihNext =>
      rintro bound - m₀ s hs rfl hm₀
      obtain rfl := hm₀ trivial
      apply Watch.Logs.alternativesNone htraced hs hop
      · apply hop.ends bound 0 s.mark s hs rfl fun _ => rfl
      · apply ih bound 0 s.mark s hs rfl fun _ => rfl
      · intro s₁ hs₁ hhere hmark
        apply ihNext bound 0 s.mark s₁ hs₁ hhere fun _ => hmark.symm
  | alternativesSome hop ih =>
      rintro bound - m₀ s hs rfl -
      apply Watch.Logs.alternativesSome
      · apply hop.ends bound 0 s.mark s hs rfl fun _ => rfl
      · apply ih bound 0 s.mark s hs rfl fun _ => rfl
  | @roundsNone body here e hbody ih =>
      rintro bound rounds m₀ s hs rfl -
      rw [← e.append_nil]
      apply Watch.Logs.rounds (hbody.ends bound 0 s.mark s hs rfl fun _ => rfl)
        (ih bound 0 s.mark s hs rfl fun _ => rfl)
      intro n s₁ hrunning hfollows hmark hvisited
      rw [e.append_nil]
      exact fun _ => hvisited
  | @roundsIdle body here m e hbody hidle ih =>
      rintro bound rounds m₀ s hs rfl -
      rw [← e.append_nil]
      apply Watch.Logs.rounds (hbody.ends bound 0 s.mark s hs rfl fun _ => rfl)
        (ih bound 0 s.mark s hs rfl fun _ => rfl)
      intro n s₁ hrunning hfollows hmark hvisited
      obtain ⟨-, hhere⟩ := hs.next hbody hrunning hfollows hmark
      have hidle' : s₁.here.offset = s.mark.here.offset := by
        rw [hhere]
        apply hidle
      simp only [afterRound, Option.isSome_some, hidle', if_true, e.append_nil]
      exact fun _ => hvisited
  | @roundsSome body here m r e f hbody hmoves _ ih ihRounds =>
      rintro bound rounds m₀ s hs rfl -
      apply Watch.Logs.rounds (hbody.ends bound 0 s.mark s hs rfl fun _ => rfl)
        (ih bound 0 s.mark s hs rfl fun _ => rfl)
      intro n s₁ hrunning hfollows hmark hvisited
      obtain ⟨hs₁, hhere⟩ := hs.next hbody hrunning hfollows hmark
      have hmoves' : s₁.here.offset ≠ s.mark.here.offset := by
        rw [hhere]
        apply hmoves
      simp only [afterRound, Option.isSome_some, hmoves', if_false]
      exact fun hlast => hvisited.trans (ihRounds bound n m₀ s₁ hs₁ hhere False.elim hlast)
  | @call id rule here r e hrule hbody ih =>
      rintro bound - m₀ s hs rfl -
      have hhere : (s.enterRule cfg id).here = s.here := by rw [State.enterRule_eq]
      apply Watch.Logs.runCall htraced hmemoize hs hrule hbody
      · apply hbody.ends bound 0 _ _ (hs.enterRule cfg _) hhere fun _ => rfl
      · apply ih bound 0 _ _ (hs.enterRule cfg _) hhere fun _ => rfl
  | unknown hnone =>
      rintro bound - m₀ s hs rfl -
      simp only [Job.perform, runCall, hnone]
      exact fun _ => .of_eq rfl rfl

/-! ### Parses -/

/-- In a parse that remembers results and reports no limit, the visits of a rule that remembers all
of them, at any offset, are none, or an evaluation outside predicates and hits after it, or an
evaluation inside a predicate and after it hits and evaluations outside predicates. -/
theorem parse_visits {d : Draft} {g : Grammar} (hbuild : d.build = .ok g) {entry : RuleId}
    (hentry : entry < g.rules.size) (text : String) (limits : Limits) :
  ∃ outcome log, parse? g ⟨limits, true, true⟩ entry text = some (outcome, log)
    ∧ (outcome.limit? = none → ∀ id rule, g.rule? id = some rule → rule.memo = .all → ∀ offset,
      visits id offset log = []
      ∨ (∃ n, visits id offset log = .evaluation true :: List.replicate n .hit)
      ∨ ∃ rest, visits id offset log = .evaluation false :: rest
        ∧ ∀ v ∈ rest, v = .hit ∨ v = .evaluation true)
  := by
  rw [(Draft.linkedFrom_of_build hbuild).size] at hentry
  obtain ⟨first, r, e, hfirst, hrun, -, -⟩ :=
    Draft.exists_run hbuild (List.getElem?_eq_getElem hentry) text
  let cfg : Settings := ⟨some limits, true, true⟩
  let bound := limits.steps + 1
  refine ⟨_, _, parseWithin?_eq hfirst cfg bound text, ?_⟩
  intro hlimit id rule hrule hmemo offset
  rw [limit?_outcomeOf] at hlimit
  obtain ⟨w, rfl, rfl⟩ := exists_watch hrule hmemo (.atStart text) offset
  have htraced : cfg.traced = true := rfl
  have hmemoize : cfg.memoize = true := rfl
  obtain ⟨vs, hvisits, hcourse, -⟩ := hrun.logs w htraced hmemoize bound 0 _ _
    (ready_initial g text) rfl (fun _ => rfl) hlimit
  have hvisits' : visits w.id w.offset (evaluate g cfg bound entry text).2.log.reverse = vs :=
    hvisits
  have hcourse' : Course none vs (w.silence? (evaluate g cfg bound entry text).2) := hcourse
  rw [hvisits']
  apply hcourse'.of_nothing

/-- Two alternatives that both call a rule which remembers all results, after what `guards` asks. -/
def prefixDraft (guards : List Expr) : Draft :=
  Draft.defineAll {} [
    { name := "S"
      body := .seq (guards
        ++ [.choice [.seq [.rule "A", .literal "x"], .seq [.rule "A", .literal "y"]]]) },
    { name := "A", body := .literal "a", memo := .all }]

/-- The second alternative uses what the first remembers. -/
theorem parse_prefix_visits :
  ∃ outcome log, parse? (prefixDraft []).buildD ⟨{}, true, true⟩ 0 "ay" = some (outcome, log)
    ∧ outcome.limit? = none ∧ ∃ n, visits 1 0 log = .evaluation true :: List.replicate n .hit
  := by
  obtain ⟨outcome, log, hparse, h⟩ := parse_visits
    (show (prefixDraft []).build = .ok (prefixDraft []).buildD from rfl)
    (show 0 < (prefixDraft []).buildD.rules.size by decide) "ay" {}
  have hlimit := Outcome.limit?_eq_none_of_parse? hparse rfl
  have hfirst : ((parse? (prefixDraft []).buildD ⟨{}, true, true⟩ 0 "ay").map
      fun x => (visits 1 0 x.2).head?) = some (some (.evaluation true)) := rfl
  rw [hparse] at hfirst
  refine ⟨outcome, log, hparse, hlimit, ?_⟩
  obtain hnone | hhits | ⟨rest, hsilent, -⟩ :=
    h hlimit 1 _ (show (prefixDraft []).buildD.rule? 1 = some _ from rfl) rfl 0
  · simp [hnone] at hfirst
  · apply hhits
  · simp [hsilent] at hfirst

/-- Where a predicate calls the rule first, both alternatives evaluate its body again. -/
theorem parse_guarded_visits :
  ∃ outcome log, (prefixDraft [.ahead (.rule "A")]).build
      = .ok (prefixDraft [.ahead (.rule "A")]).buildD
    ∧ parse? (prefixDraft [.ahead (.rule "A")]).buildD ⟨{}, true, true⟩ 0 "ay"
      = some (outcome, log)
    ∧ outcome.limit? = none
    ∧ ((prefixDraft [.ahead (.rule "A")]).buildD.rule? 1).map (·.memo) = some .all
    ∧ visits 1 0 log = [.evaluation false, .evaluation true, .evaluation true]
  := ⟨_, _, rfl, rfl, rfl, rfl, rfl⟩

end ClassTranscript.Peg
