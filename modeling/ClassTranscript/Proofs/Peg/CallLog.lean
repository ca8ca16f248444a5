import ClassTranscript.Proofs.Peg.Charge

/-!
# The log of calls

In the events that a step logs, every body that is entered is left again, by the same rule and at
the same offset, and what happens in between is over by then: the events are `WellNested`. However a
step ends, at a failure, a remembered result or a limit, it logs such events, with one entry for
each body that it counts and one reuse for each answer of the memo (`eval_logs`, `evaluate_logs`).
-/

namespace ClassTranscript.Peg

/-! ### Well nested events -/

namespace Event

/-- Whether a body is entered. -/
def isEnter : Event → Bool
  | .enter .. => true
  | _ => false

/-- Whether a remembered result answers a call. -/
def isReuse : Event → Bool
  | .reuse .. => true
  | _ => false

/-- Whether a body is entered or left. -/
def isBoundary : Event → Bool
  | .enter .. => true
  | .leave .. => true
  | _ => false

theorem isEnter_eq_false {event : Event} (h : event.isBoundary = false) :
  event.isEnter = false
  := by
  cases event with
  | enter => cases h
  | _ => rfl

end Event

/-- Events in which every body that is entered is left by the same rule and at the same offset, with
well nested events in between. -/
inductive WellNested : List Event → Prop where
  | nil : WellNested []
  | aside {event : Event} {events : List Event} : event.isBoundary = false →
    WellNested events → WellNested (event :: events)
  | call (rule : RuleId) (offset : Nat) (tracking : Bool) (stop : Option Nat)
    {inside events : List Event} : WellNested inside → WellNested events →
    WellNested (.enter rule offset tracking :: (inside ++ .leave rule offset stop :: events))

theorem WellNested.append {events events' : List Event} (h : WellNested events)
    (h' : WellNested events') :
  WellNested (events ++ events')
  := by
  induction h with
  | nil => apply h'
  | aside hevent _ ih => exact .aside hevent ih
  | call rule offset tracking stop hinside _ _ ih =>
      rw [List.cons_append, List.append_assoc, List.cons_append]
      apply WellNested.call rule offset tracking stop hinside ih

/-! ### What a step logs -/

/-- The log of `t` is that of `s` and well nested events, which account for the counts of bodies
evaluated and of calls answered by the memo. -/
structure State.Logged (s : State) (events : List Event) (t : State) : Prop where
  nested : WellNested events
  log : t.log = events.reverse ++ s.log
  evaluations : t.stats.evaluations = s.stats.evaluations + events.countP Event.isEnter
  hits : t.stats.hits = s.stats.hits + events.countP Event.isReuse

/-- What is logged on the way from one state to another accounts for the counts. -/
def State.LogsTo (s t : State) : Prop :=
  ∃ events, s.Logged events t

/-- What a step logs accounts for the counts. -/
def Step.LogsCalls (run : Step) : Prop :=
  ∀ s : State, s.LogsTo (run s).2

section

variable {g : Grammar} {cfg : Settings} {s t u : State}

namespace State.LogsTo

/-- Moves that log and count nothing. -/
theorem of_eq (hlog : t.log = s.log) (hevaluations : t.stats.evaluations = s.stats.evaluations)
    (hhits : t.stats.hits = s.stats.hits) :
  s.LogsTo t
  := ⟨[], .nil, hlog, hevaluations, hhits⟩

theorem refl (s : State) :
  s.LogsTo s
  := .of_eq rfl rfl rfl

theorem trans (h : s.LogsTo t) (h' : t.LogsTo u) :
  s.LogsTo u
  := by
  obtain ⟨events, h⟩ := h
  obtain ⟨events', h'⟩ := h'
  refine ⟨events ++ events', h.nested.append h'.nested, ?_, ?_, ?_⟩
  · rw [h'.log, h.log, List.reverse_append, List.append_assoc]
  · rw [h'.evaluations, h.evaluations, List.countP_append, Nat.add_assoc]
  · rw [h'.hits, h.hits, List.countP_append, Nat.add_assoc]

/-- Only the log and the two counts matter. -/
theorem congr (h : s.LogsTo t) (hlog : u.log = t.log)
    (hevaluations : u.stats.evaluations = t.stats.evaluations)
    (hhits : u.stats.hits = t.stats.hits) :
  s.LogsTo u
  := h.trans (.of_eq hlog hevaluations hhits)

theorem reset (h : s.LogsTo t) (m : Mark) :
  s.LogsTo (t.reset m)
  := h.congr rfl rfl rfl

/-- A body between the entry of a rule and the exit from it, at the offset of the entry. -/
theorem call (htraced : cfg.traced = true) (id : RuleId) (h : (s.enterRule cfg id).LogsTo t)
    {m : Mark} (hm : m.here = s.here) (matched : Bool) (node : Option Node) :
  s.LogsTo (t.leaveRule cfg id m matched node)
  := by
  obtain ⟨events, h⟩ := h
  rw [State.enterRule_eq, if_pos htraced] at h
  have hnested := WellNested.call id s.here.offset s.tracking
    (if matched then some t.here.offset else none) h.nested .nil
  rw [State.leaveRule, State.record_eq, if_pos htraced]
  refine ⟨_, hnested, ?_, ?_, ?_⟩
  · simp [h.log, hm]
  · simp only [h.evaluations, List.countP_cons, List.countP_append, List.countP_nil,
      Event.isEnter, if_true, Bool.false_eq_true, if_false]
    omega
  · simp [h.hits, List.countP_append, Event.isReuse]

section

variable (htraced : cfg.traced = true)

include htraced

/-- Recording what is neither an entry nor an exit nor an answer of the memo. -/
theorem record (h : s.LogsTo t) {event : Event} (hevent : event.isBoundary = false)
    (hreuse : event.isReuse = false) :
  s.LogsTo (t.record cfg event)
  := by
  rw [State.record_eq, if_pos htraced]
  refine h.trans ⟨[event], .aside hevent .nil, rfl, ?_, ?_⟩
  · simp [Event.isEnter_eq_false hevent]
  · simp [hreuse]

theorem halt (h : s.LogsTo t) (limit : Limit) :
  s.LogsTo (t.halt cfg limit)
  := by
  unfold State.halt
  split
  · apply record htraced _ rfl rfl
    exact h.congr rfl rfl rfl
  · apply h

theorem backtrack (h : s.LogsTo t) (m : Mark) :
  s.LogsTo (t.backtrack cfg m)
  := record htraced (h.reset m) rfl rfl

theorem miss (h : s.LogsTo t) (expectation : String) :
  s.LogsTo (t.miss cfg expectation)
  := by
  rw [State.miss, State.expect_eq]
  apply record htraced _ rfl rfl
  exact h.congr rfl rfl rfl

theorem remember (h : s.LogsTo t) (id : RuleId) (offset : Nat) (entry : MemoEntry) :
  s.LogsTo (t.remember cfg id offset entry)
  := by
  unfold State.remember
  split
  · exact h.congr rfl rfl rfl
  · apply h.halt htraced

/-- An answer of the memo is counted and logged. -/
theorem replay (id : RuleId) (entry : MemoEntry) :
  s.LogsTo (s.replay cfg id entry).2
  := by
  have hreuse (stop : Option Nat) : WellNested [.reuse id s.here.offset stop] := .aside rfl .nil
  cases entry with
  | matched stop node =>
      simp only [State.replay, State.record_eq, if_pos htraced]
      exact ⟨_, hreuse (some stop.offset), rfl, rfl, rfl⟩
  | failed =>
      simp only [State.replay, State.record_eq, if_pos htraced]
      exact ⟨_, hreuse none, rfl, rfl, rfl⟩

end

end State.LogsTo

/-! ### The steps -/

variable {run : Op → Step}

theorem runSeq_logs (h : ∀ op, (run op).LogsCalls) (m : Mark) (ops : List Op) :
  Step.LogsCalls (runSeq run m ops)
  := by
  induction ops with
  | nil => exact fun s => .refl s
  | cons op ops ih =>
      intro s
      have hfirst := h op s
      rw [runSeq]
      split
      · rename_i heq
        rw [heq] at hfirst
        apply hfirst.trans (ih _)
      · rename_i heq
        rw [heq] at hfirst
        apply hfirst.reset

section

variable (htraced : cfg.traced = true)

include htraced

theorem runChoice_logs (h : ∀ op, (run op).LogsCalls) (m : Mark) (ops : List Op) :
  Step.LogsCalls (runChoice cfg run m ops)
  := by
  induction ops with
  | nil => exact fun s => .refl s
  | cons op ops ih =>
      intro s
      have hfirst := h op s
      rw [runChoice]
      split
      · rename_i heq
        rw [heq] at hfirst
        apply hfirst
      · rename_i heq
        rw [heq] at hfirst
        split
        · apply (hfirst.backtrack htraced m).trans (ih _)
        · apply hfirst

theorem runRounds_logs {round : Step} (h : round.LogsCalls) (n : Nat) (s : State) :
  s.LogsTo (runRounds cfg round n s)
  := by
  induction n generalizing s with
  | zero => apply State.LogsTo.halt htraced (.refl s)
  | succ n ih =>
      have hround := h s
      rw [runRounds]
      split
      · rename_i heq
        rw [heq] at hround
        apply hround.reset
      · rename_i heq
        rw [heq] at hround
        split
        · apply hround
        · apply hround.trans (ih _)

omit htraced in
theorem runPredicate_logs {body : Step} (h : body.LogsCalls) :
  Step.LogsCalls (runPredicate body)
  := by
  intro s
  have henter : s.LogsTo s.enterPredicate := .of_eq rfl rfl rfl
  exact (henter.trans (h _)).congr rfl rfl rfl

/-- Whether and how a call is remembered adds at most the limit on the memo to its events. -/
theorem finishCall_logs {id : RuleId} {rule : Rule} {m : Mark} {matched : Bool}
    (h : s.LogsTo (t.leaveRule cfg id m matched (t.nodeOf id rule m.here.offset))) :
  s.LogsTo (finishCall cfg id rule m matched t).2
  := by
  cases hhalted : t.halted with
  | some limit =>
      rw [finishCall_of_halted hhalted]
      apply h
  | none =>
      rw [finishCall_eq hhalted rfl]
      split
      · apply h.remember htraced
      · apply h

theorem runCall_logs (g : Grammar) (h : ∀ op, (run op).LogsCalls) (id : RuleId) :
  Step.LogsCalls (runCall g cfg run id)
  := by
  intro s
  unfold runCall
  split
  · apply State.LogsTo.refl
  · split
    · apply State.LogsTo.replay htraced
    · split
      · apply State.LogsTo.halt htraced (.refl s)
      · apply finishCall_logs htraced
        apply State.LogsTo.call htraced id (h _ _) rfl

theorem evalOp_logs {bound : Nat} (h : ∀ op, Step.LogsCalls (eval g cfg bound op)) (op : Op) :
  Step.LogsCalls (evalOp g cfg bound op)
  := by
  intro s
  cases op with
  | test test x =>
      simp only [evalOp]
      split
      · exact .of_eq rfl rfl rfl
      · apply State.LogsTo.miss htraced (.refl s)
  | seq ops => apply runSeq_logs h s.mark ops s
  | choice ops => apply runChoice_logs htraced h s.mark ops s
  | star body => apply runRounds_logs htraced (h body) bound s
  | plus body =>
      have hfirst := h body s
      simp only [evalOp]
      split
      · rename_i heq
        rw [heq] at hfirst
        apply hfirst
      · rename_i heq
        rw [heq] at hfirst
        apply hfirst.trans (runRounds_logs htraced (h body) bound _)
  | optional body =>
      have hbody := h body s
      simp only [evalOp]
      split
      · rename_i heq
        rw [heq] at hbody
        apply hbody
      · rename_i heq
        rw [heq] at hbody
        apply hbody.reset
  | ahead body => apply runPredicate_logs (h body) s
  | notAhead body => apply runPredicate_logs (h body) s
  | call id => apply runCall_logs htraced g h id s

/-- What an expression logs is well nested, and it accounts for the counts. -/
theorem eval_logs (g : Grammar) (bound : Nat) (op : Op) :
  Step.LogsCalls (eval g cfg bound op)
  := by
  induction bound generalizing op with
  | zero => exact fun s => State.LogsTo.halt htraced (.refl s) .steps
  | succ bound ih =>
      intro s
      have hcounted : s.LogsTo s.countStep := .of_eq rfl rfl rfl
      rw [eval_succ]
      split
      · apply State.LogsTo.refl
      · split
        · apply hcounted.halt htraced
        · apply hcounted.trans (evalOp_logs htraced ih op _)

/-- The events of an evaluation are well nested. They enter as many bodies as are counted, and reuse
as many results. -/
theorem evaluate_logs (g : Grammar) (bound : Nat) (id : RuleId) (text : String) :
  (State.initial text).Logged (evaluate g cfg bound id text).2.log.reverse
    (evaluate g cfg bound id text).2
  := by
  obtain ⟨events, h⟩ := runCall_logs htraced g (eval_logs htraced g bound) id (.initial text)
  have hlog : (evaluate g cfg bound id text).2.log.reverse = events := by
    rw [evaluate, h.log, State.initial, List.append_nil, List.reverse_reverse]
  rw [hlog]
  apply h

end

end

end ClassTranscript.Peg
