import ClassTranscript.Peg.Eval
import ClassTranscript.Proofs.Peg.Remembered

/-!
# States that follow an effect

`Follows g cfg start s e s'` says that the state `s'` differs from `s` by the effect `e` of a run:
the failures that were heard are in the frontier and in the log, the counts have grown by the effort
of the run, or by less where remembered results were used, and the memo is still sound. The lemmas
here say what each move of the evaluator does to this relation. `Ready` collects what is true of
every state at which an evaluation begins something.
-/

namespace ClassTranscript.Peg

/-! ### Counts -/

/-- A count goes from `before` to `after` where a plain run makes it `plain`. Remembered results can
only save effort, and where none are used the count is that of the plain run. -/
structure Settings.Spends (cfg : Settings) (before after plain : Nat) : Prop where
  before_le : before ≤ after
  le_plain : after ≤ plain
  eq_plain : cfg.memoize = false → after = plain

namespace Settings.Spends

variable {cfg : Settings} {a b c x y : Nat}

theorem none (h : a = b) :
  cfg.Spends a a b
  where
  before_le := Nat.le_refl a
  le_plain := Nat.le_of_eq h
  eq_plain := fun _ => h

theorem saved (hmemoize : cfg.memoize = true) (h : a ≤ b) :
  cfg.Spends a a b
  where
  before_le := Nat.le_refl a
  le_plain := h
  eq_plain hplain := by simp [hmemoize] at hplain

theorem widen {p q : Nat} (h : cfg.Spends b c p) (hbefore : a ≤ b) (hplain : p = q) :
  cfg.Spends a c q
  where
  before_le := Nat.le_trans hbefore h.before_le
  le_plain := hplain ▸ h.le_plain
  eq_plain := hplain ▸ h.eq_plain

theorem add (h : cfg.Spends a b (a + x)) (h' : cfg.Spends b c (b + y)) :
  cfg.Spends a c (a + (x + y))
  where
  before_le := Nat.le_trans h.before_le h'.before_le
  le_plain := by
    have := h.le_plain
    have := h'.le_plain
    omega
  eq_plain hplain := by
    have := h.eq_plain hplain
    have := h'.eq_plain hplain
    omega

theorem max (h : cfg.Spends a b (max a x)) (h' : cfg.Spends b c (Max.max b y)) :
  cfg.Spends a c (Max.max a (Max.max x y))
  where
  before_le := Nat.le_trans h.before_le h'.before_le
  le_plain := by
    have := h.le_plain
    have := h'.le_plain
    omega
  eq_plain hplain := by
    have := h.eq_plain hplain
    have := h'.eq_plain hplain
    omega

end Settings.Spends

/-! ### What is heard and what is logged -/

/-- The failure of a terminal outside predicates that an event is. -/
def Event.miss? : Event → Option Miss
  | .miss offset expectation true => some ⟨offset, expectation⟩
  | _ => none

namespace State

/-- The failures of terminals outside predicates that are logged, the latest first. -/
def missLog (s : State) : List Miss :=
  s.log.filterMap Event.miss?

/-- The failures that a state hears of an effect. Inside a predicate there are none. -/
def heard (s : State) (e : Effect) : List Miss :=
  if s.tracking then e.misses else []

/-- Recording an event changes nothing but the log. -/
theorem record_eq (cfg : Settings) (event : Event) (s : State) :
  s.record cfg event = { s with log := if cfg.traced then event :: s.log else s.log }
  := by
  unfold record
  split <;> rfl

section

variable (cfg : Settings) (id : RuleId) (m : Mark) (matched : Bool) (node : Option Node) (s : State)

theorem halted_leaveRule :
  (s.leaveRule cfg id m matched node).halted = s.halted
  := by
  rw [leaveRule, record_eq]

theorem memo_leaveRule :
  (s.leaveRule cfg id m matched node).memo = s.memo
  := by
  rw [leaveRule, record_eq]

theorem furthest_leaveRule :
  (s.leaveRule cfg id m matched node).furthest = s.furthest
  := by
  rw [leaveRule, record_eq]

theorem mark_leaveRule :
  (s.leaveRule cfg id m matched node).mark
    = ⟨s.here, if matched then node.toList ++ m.nodes else m.nodes⟩
  := by
  rw [leaveRule, record_eq]
  rfl

end

theorem missLog_record (cfg : Settings) {event : Event} (s : State) (h : event.miss? = none) :
  (s.record cfg event).missLog = s.missLog
  := by
  rw [record_eq]
  unfold missLog
  split
  · rw [List.filterMap_cons_none h]
  · rfl

theorem missLog_miss {cfg : Settings} (expectation : String) (s : State)
    (h : cfg.traced = true) :
  (s.miss cfg expectation).missLog
    = s.heard { misses := [⟨s.here.offset, expectation⟩] } ++ s.missLog
  := by
  rw [miss, record_eq, if_pos h, expect_eq]
  unfold missLog heard
  cases s.tracking <;> rfl

theorem heard_append (s : State) (e f : Effect) :
  s.heard (e ++ f) = s.heard e ++ s.heard f
  := by
  unfold heard
  split <;> rfl

theorem heard_of_misses_eq_nil (s : State) {e : Effect} (h : e.misses = []) :
  s.heard e = []
  := by
  unfold heard
  rw [h, ite_self]

theorem heard_congr {s s' : State} (h : s.predicates = s'.predicates) (e : Effect) :
  s.heard e = s'.heard e
  := by
  unfold heard tracking
  rw [h]

end State

/-! ### Following an effect -/

/-- The state `s'` differs from `s` by an effect. The position and the nodes are left open. -/
structure Follows (g : Grammar) (cfg : Settings) (start : Cursor) (s : State) (e : Effect)
    (s' : State) : Prop where
  depth : s'.depth = s.depth
  predicates : s'.predicates = s.predicates
  frontier : s'.frontier = s.frontier.addAll (s.heard e)
  memo : s'.memo.Sound g start s'.frontier
  steps : cfg.Spends s.stats.steps s'.stats.steps (s.stats.steps + e.steps)
  calls : cfg.Spends s.stats.evaluations s'.stats.evaluations (s.stats.evaluations + e.calls)
  maxDepth : cfg.Spends s.stats.maxDepth s'.stats.maxDepth
    (max s.stats.maxDepth (s.depth + e.depth))
  missLog : cfg.traced = true → cfg.memoize = false →
    s'.missLog = (s.heard e).reverse ++ s.missLog

/-- What is true of every state at which an evaluation of the text from `start` on begins
something. -/
structure Ready (g : Grammar) (start : Cursor) (s : State) : Prop where
  running : s.halted = none
  reaches : start.Reaches s.here
  memo : s.memo.Sound g start s.frontier
  depth : s.depth ≤ s.stats.maxDepth

variable {g : Grammar} {cfg : Settings} {start : Cursor} {s s' s'' : State} {e f : Effect}

theorem Ready.follows_nil (h : Ready g start s) :
  Follows g cfg start s {} s
  where
  depth := rfl
  predicates := rfl
  frontier := by rw [s.heard_of_misses_eq_nil rfl, Frontier.addAll_nil]
  memo := h.memo
  steps := .none rfl
  calls := .none rfl
  maxDepth := .none (Nat.max_eq_left h.depth).symm
  missLog _ _ := by rw [s.heard_of_misses_eq_nil rfl, List.reverse_nil, List.nil_append]

theorem Ready.countStep (h : Ready g start s) :
  Ready g start s.countStep
  := ⟨h.running, h.reaches, h.memo, h.depth⟩

theorem Ready.follows_countStep (h : Ready g start s) :
  Follows g cfg start s .step s.countStep
  where
  depth := rfl
  predicates := rfl
  frontier := by
    rw [s.heard_of_misses_eq_nil rfl]
    rfl
  memo := h.memo
  steps := ⟨Nat.le_succ _, Nat.le_refl _, fun _ => rfl⟩
  calls := .none rfl
  maxDepth := .none (Nat.max_eq_left h.depth).symm
  missLog _ _ := by
    rw [s.heard_of_misses_eq_nil rfl]
    rfl

theorem Ready.enterPredicate (h : Ready g start s) :
  Ready g start s.enterPredicate
  := ⟨h.running, h.reaches, h.memo, h.depth⟩

namespace Follows

theorem ready (h : Follows g cfg start s e s') (hs : Ready g start s) (hrunning : s'.halted = none)
    (hreaches : start.Reaches s'.here) :
  Ready g start s'
  where
  running := hrunning
  reaches := hreaches
  memo := h.memo
  depth := by
    rw [h.depth]
    apply Nat.le_trans hs.depth h.maxDepth.before_le

theorem trans (h : Follows g cfg start s e s') (h' : Follows g cfg start s' f s'') :
  Follows g cfg start s (e ++ f) s''
  where
  depth := h'.depth.trans h.depth
  predicates := h'.predicates.trans h.predicates
  frontier := by
    rw [h'.frontier, h.frontier, s.heard_append, Frontier.addAll_append,
      State.heard_congr h.predicates]
  memo := h'.memo
  steps := h.steps.add h'.steps
  calls := h.calls.add h'.calls
  maxDepth := by
    rw [Effect.depth_append, ← Nat.add_max_add_left]
    apply h.maxDepth.max
    rw [← h.depth]
    apply h'.maxDepth
  missLog htraced hplain := by
    rw [h'.missLog htraced hplain, h.missLog htraced hplain, s.heard_append, List.reverse_append,
      List.append_assoc, State.heard_congr h.predicates]

/-! ### Moves -/

/-- Moving to a position and a stack of nodes. -/
theorem goto (h : Follows g cfg start s e s') (here : Cursor) (nodes : List Node) :
  Follows g cfg start s e { s' with here := here, nodes := nodes }
  := ⟨h.depth, h.predicates, h.frontier, h.memo, h.steps, h.calls, h.maxDepth, h.missLog⟩

theorem record (h : Follows g cfg start s e s') {event : Event} (hevent : event.miss? = none) :
  Follows g cfg start s e (s'.record cfg event)
  where
  depth := by rw [State.record_eq, ← h.depth]
  predicates := by rw [State.record_eq, ← h.predicates]
  frontier := by rw [State.record_eq, ← h.frontier]; rfl
  memo := by rw [State.record_eq]; exact h.memo
  steps := by rw [State.record_eq]; exact h.steps
  calls := by rw [State.record_eq]; exact h.calls
  maxDepth := by rw [State.record_eq]; exact h.maxDepth
  missLog := by rw [State.missLog_record cfg s' hevent]; exact h.missLog

theorem reset (h : Follows g cfg start s e s') (m : Mark) :
  Follows g cfg start s e (s'.reset m)
  := h.goto m.here m.nodes

theorem backtrack (h : Follows g cfg start s e s') (m : Mark) :
  Follows g cfg start s e (s'.backtrack cfg m)
  := (h.reset m).record rfl

theorem miss (hs : Ready g start s) (expectation : String) :
  Follows g cfg start s { misses := [⟨s.here.offset, expectation⟩] } (s.miss cfg expectation)
  where
  depth := by rw [State.miss, State.record_eq, State.expect_eq]
  predicates := by rw [State.miss, State.record_eq, State.expect_eq]
  frontier := by
    rw [State.miss, State.record_eq, State.expect_eq]
    simp only [State.frontier, State.frontierAfter, State.heard]
    split <;> rfl
  memo := by
    rw [State.miss, State.record_eq, State.expect_eq]
    simp only [State.frontier, State.frontierAfter]
    split
    · apply hs.memo.addAll [_]
    · apply hs.memo
  steps := by
    rw [State.miss, State.record_eq, State.expect_eq]
    exact .none rfl
  calls := by
    rw [State.miss, State.record_eq, State.expect_eq]
    exact .none rfl
  maxDepth := by
    rw [State.miss, State.record_eq, State.expect_eq]
    exact .none (Nat.max_eq_left hs.depth).symm
  missLog htraced _ := by
    rw [State.missLog_miss _ _ htraced, State.heard]
    split <;> rfl

/-- A run inside a predicate is not heard. -/
theorem leavePredicate (h : Follows g cfg start s.enterPredicate e s') (m : Mark) :
  Follows g cfg start s e.silent (s'.leavePredicate m)
  where
  depth := h.depth
  predicates := by
    simp only [State.leavePredicate, State.reset, h.predicates, State.enterPredicate,
      Nat.add_sub_cancel]
  frontier := by
    rw [s.heard_of_misses_eq_nil rfl]
    apply h.frontier
  memo := h.memo
  steps := h.steps
  calls := h.calls
  maxDepth := h.maxDepth
  missLog := by
    rw [s.heard_of_misses_eq_nil rfl]
    apply h.missLog

end Follows

/-! ### Calls -/

theorem State.enterRule_eq (cfg : Settings) (id : RuleId) (s : State) :
  s.enterRule cfg id
    = { s with
        nodes := []
        depth := s.depth + 1
        stats :=
          { s.stats with
            maxDepth := max s.stats.maxDepth (s.depth + 1)
            evaluations := s.stats.evaluations + 1 }
        log := if cfg.traced then .enter id s.here.offset s.tracking :: s.log else s.log }
  := by
  rw [enterRule, record_eq]

/-- Where a call begins is ready for the body of the rule. -/
theorem Ready.enterRule (hs : Ready g start s) (cfg : Settings) (id : RuleId) :
  Ready g start (s.enterRule cfg id)
  := by
  rw [State.enterRule_eq]
  exact ⟨hs.running, hs.reaches, hs.memo, Nat.le_max_right _ _⟩

namespace Follows

/-- The end of a call follows the effect of the call when the end of the body follows that of the
body. -/
theorem leaveRule {id : RuleId} (h : Follows g cfg start (s.enterRule cfg id) e s') (m : Mark)
    (matched : Bool) (node : Option Node) :
  Follows g cfg start s e.inCall (s'.leaveRule cfg id m matched node)
  := by
  have hlog : (s.enterRule cfg id).missLog = s.missLog := State.missLog_record cfg _ rfl
  have hmissLog := h.missLog
  rw [hlog] at hmissLog
  obtain ⟨hdepth, hpredicates, hfrontier, hmemo, hsteps, hcalls, hmaxDepth, -⟩ := h
  rw [State.enterRule_eq] at hdepth hpredicates hfrontier hsteps hcalls hmaxDepth hmissLog
  apply Follows.record _ rfl
  constructor
  · simp only [hdepth, Nat.add_sub_cancel]
  · apply hpredicates
  · apply hfrontier
  · apply hmemo
  · apply hsteps
  · apply hcalls.widen (Nat.le_succ _)
    simp only [Effect.inCall]
    omega
  · apply hmaxDepth.widen (Nat.le_max_left _ _)
    simp only [Effect.inCall]
    omega
  · apply hmissLog

/-- A remembered result answers a call with the effect of its run, all of whose failures are
known. -/
theorem replay (hs : Ready g start s) (id : RuleId) (entry : MemoEntry)
    (hmemoize : cfg.memoize = true)
    (hcovers : s.tracking = true → ∀ m ∈ e.misses, s.frontier.Covers m) :
  Follows g cfg start s e (s.replay cfg id entry).2
  := by
  have hheard : s.frontier.addAll (s.heard e) = s.frontier := by
    apply Frontier.addAll_of_covers
    intro m hm
    unfold State.heard at hm
    split at hm
    · rename_i htracking
      apply hcovers htracking m hm
    · simp at hm
  have hhit : Follows g cfg start s e
      { s with stats := { s.stats with hits := s.stats.hits + 1 } } := by
    constructor
    · rfl
    · rfl
    · apply hheard.symm
    · apply hs.memo
    · exact .saved hmemoize (Nat.le_add_right _ _)
    · exact .saved hmemoize (Nat.le_add_right _ _)
    · exact .saved hmemoize (Nat.le_max_left _ _)
    · simp [hmemoize]
  cases entry with
  | matched stop node => apply (hhit.record rfl).goto _ _
  | failed => apply hhit.record rfl

/-- Remembering the result of a run whose failures were heard. -/
theorem remember (h : Follows g cfg start s e s') {id : RuleId} {slot : MemoSlot}
    (hreaches : start.Reaches s.here) (hrun : Runs g (.call id) s.here slot.entry.result e)
    (hsilent : slot.silent = !s.tracking) :
  Follows g cfg start s e { s' with memo := s'.memo.remember id s.here.offset slot }
  := by
  refine ⟨h.depth, h.predicates, h.frontier, ?_, h.steps, h.calls, h.maxDepth, h.missLog⟩
  apply h.memo.remember hreaches hrun
  intro hheard m hm
  rw [h.frontier]
  apply Frontier.covers_addAll
  rw [hsilent, Bool.not_eq_false'] at hheard
  rw [State.heard, if_pos hheard]
  apply hm

end Follows

end ClassTranscript.Peg
