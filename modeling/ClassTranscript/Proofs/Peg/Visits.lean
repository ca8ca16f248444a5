import ClassTranscript.Proofs.Peg.Bound
import ClassTranscript.Proofs.Peg.Simulation

/-!
# Visits of a rule

A rule is visited at an offset when it is called from there, be it that its body is evaluated or
that a remembered result answers. The visits of a rule that remembers all results take a `Course`
there: the first is an evaluation, and what is remembered of it answers the later ones, except that
a result found inside a predicate is no use outside predicates. A `Watch` is a rule and an offset at
which its visits are followed; the lemmas here say what the moves of the evaluator are to it.
-/

namespace ClassTranscript.Peg

/-! ### Visits -/

/-- What a call of a rule from an offset comes to. -/
inductive Visit where
  /-- The body of the rule is evaluated. `tracking` tells whether expectations are recorded
  there. -/
  | evaluation (tracking : Bool)
  /-- A remembered result answers. -/
  | hit
  deriving DecidableEq, Repr

/-- The visit of a rule at an offset that an event is. -/
def Event.visit? (id : RuleId) (offset : Nat) : Event → Option Visit
  | .enter rule here tracking =>
    if rule = id ∧ here = offset then some (.evaluation tracking) else none
  | .reuse rule here _ => if rule = id ∧ here = offset then some .hit else none
  | _ => none

/-- The visits of a rule at an offset among events, in order. -/
def visits (id : RuleId) (offset : Nat) (log : List Event) : List Visit :=
  log.filterMap (Event.visit? id offset)

/-- The visits that lead from one thing remembered to another: nothing, or a result that is silent
or is not. -/
inductive Course : Option Bool → List Visit → Option Bool → Prop where
  | nil {known : Option Bool} : Course known [] known
  | first {tracking : Bool} {vs : List Visit} {known : Option Bool} :
    Course (some !tracking) vs known → Course none (.evaluation tracking :: vs) known
  | hit {silent : Bool} {vs : List Visit} {known : Option Bool} :
    Course (some silent) vs known → Course (some silent) (.hit :: vs) known
  /-- A silent result is no use outside predicates, and stays. -/
  | again {vs : List Visit} {known : Option Bool} :
    Course (some true) vs known → Course (some true) (.evaluation true :: vs) known

namespace Course

variable {a b c : Option Bool} {vs ws : List Visit}

theorem eq_of_nil (h : Course a [] b) :
  b = a
  := by
  cases h
  rfl

theorem append (h : Course a vs b) (h' : Course b ws c) :
  Course a (vs ++ ws) c
  := by
  induction h with
  | nil => apply h'
  | first _ ih => exact .first (ih h')
  | hit _ ih => exact .hit (ih h')
  | again _ ih => exact .again (ih h')

/-- A result that is not silent answers every visit. -/
theorem eq_replicate (h : Course (some false) vs b) :
  vs = List.replicate vs.length .hit
  := by
  generalize hknown : some false = known at h
  induction h with
  | nil => rfl
  | first _ _ => cases hknown
  | hit _ ih =>
      rw [List.length_cons, List.replicate_succ, ← ih hknown]
  | again _ _ => cases hknown

/-- A silent result answers every visit inside predicates. -/
theorem hit_or_tracking (h : Course (some true) vs b) :
  ∀ v ∈ vs, v = .hit ∨ v = .evaluation true
  := by
  generalize hknown : some true = known at h
  induction h with
  | nil => simp
  | first _ _ => cases hknown
  | hit _ ih => exact List.forall_mem_cons.mpr ⟨.inl rfl, ih hknown⟩
  | again _ ih => exact List.forall_mem_cons.mpr ⟨.inr rfl, ih hknown⟩

/-- Where nothing is remembered at first, either the first visit is an evaluation outside predicates
and all others are hits, or it is one inside a predicate, and all others are hits or evaluations
outside predicates. -/
theorem of_nothing (h : Course none vs b) :
  vs = [] ∨ (∃ n, vs = .evaluation true :: List.replicate n .hit)
    ∨ ∃ rest, vs = .evaluation false :: rest ∧ ∀ v ∈ rest, v = .hit ∨ v = .evaluation true
  := by
  cases h with
  | nil => exact .inl rfl
  | @first tracking vs _ h =>
      cases tracking with
      | true => exact .inr (.inl ⟨vs.length, by rw [← h.eq_replicate]⟩)
      | false => exact .inr (.inr ⟨vs, rfl, h.hit_or_tracking⟩)

end Course

/-! ### Watches -/

/-- A rule that remembers all results, and an offset of the text from `start` on. -/
structure Watch (g : Grammar) (start : Cursor) where
  id : RuleId
  offset : Nat
  rule : Rule
  /-- How many bodies a call of the rule from the offset evaluates. -/
  calls : Nat
  rule?_eq : g.rule? id = some rule
  memo_eq : rule.memo = .all
  calls_eq {here : Cursor} {r : Option Match} {e : Effect} :
    start.Reaches here → here.offset = offset → Runs g (.call id) here r e → e.calls = calls

/-- A rule can be watched at any offset. -/
theorem exists_watch {g : Grammar} {id : RuleId} {rule : Rule} (hrule : g.rule? id = some rule)
    (hmemo : rule.memo = .all) (start : Cursor) (offset : Nat) :
  ∃ w : Watch g start, w.id = id ∧ w.offset = offset
  := by
  by_cases h : ∃ here r e, start.Reaches here ∧ here.offset = offset ∧ Runs g (.call id) here r e
  · obtain ⟨here, r, e, hreach, hoffset, hrun⟩ := h
    refine ⟨⟨id, offset, rule, e.calls, hrule, hmemo, ?_⟩, rfl, rfl⟩
    intro here' r' e' hreach' hoffset' hrun'
    obtain rfl := hreach.unique hreach' (hoffset.trans hoffset'.symm)
    rw [(hrun.unique hrun').2]
  · refine ⟨⟨id, offset, rule, 0, hrule, hmemo, ?_⟩, rfl, rfl⟩
    intro here r e hreach hoffset hrun
    exact absurd ⟨here, r, e, hreach, hoffset, hrun⟩ h

namespace Watch

variable {g : Grammar} {start : Cursor} {cfg : Settings} {w : Watch g start} {s s' s'' : State}
  {e f : Effect} {r : Option Match}

/-- The visits that a state has logged. -/
def visits (w : Watch g start) (s : State) : List Visit :=
  Peg.visits w.id w.offset s.log.reverse

/-- Whether the result that a state remembers is silent, if it remembers any. -/
def silence? (w : Watch g start) (s : State) : Option Bool :=
  s.memo[(w.offset, w.id)]?.map (·.silent)

theorem visits_record (htraced : cfg.traced = true) (event : Event) :
  w.visits (s.record cfg event) = w.visits s ++ (event.visit? w.id w.offset).toList
  := by
  rw [State.record_eq, if_pos htraced, visits, visits, Peg.visits, Peg.visits, List.reverse_cons,
    List.filterMap_append]
  rw [List.filterMap_cons]
  cases event.visit? w.id w.offset <;> rfl

theorem silence?_record (event : Event) :
  w.silence? (s.record cfg event) = w.silence? s
  := by
  rw [State.record_eq]
  rfl

/-- The visits from one state to another take their course, with an effect in which fewer bodies are
evaluated than in a visit if there are none. -/
def Visited (w : Watch g start) (e : Effect) (s s' : State) : Prop :=
  ∃ vs, w.visits s' = w.visits s ++ vs ∧ Course (w.silence? s) vs (w.silence? s')
    ∧ (e.calls < w.calls → vs = [])

namespace Visited

theorem of_eq (hvisits : w.visits s' = w.visits s) (hsilence : w.silence? s' = w.silence? s) :
  w.Visited e s s'
  := by
  refine ⟨[], by rw [hvisits, List.append_nil], ?_, fun _ => rfl⟩
  rw [hsilence]
  exact .nil

theorem trans (h : w.Visited e s s') (h' : w.Visited f s' s'') :
  w.Visited (e ++ f) s s''
  := by
  obtain ⟨vs, hvisits, hcourse, hfew⟩ := h
  obtain ⟨ws, hvisits', hcourse', hfew'⟩ := h'
  refine ⟨vs ++ ws, by rw [hvisits', hvisits, List.append_assoc], hcourse.append hcourse', ?_⟩
  intro hlt
  have hsum : (e ++ f).calls = e.calls + f.calls := rfl
  rw [hfew (by omega), hfew' (by omega), List.append_nil]

theorem step (h : w.Visited e s.countStep s') :
  w.Visited (.step ++ e) s s'
  := trans (of_eq rfl rfl) h

/-- Recording an event that is no visit. -/
theorem record (h : w.Visited e s s') (htraced : cfg.traced = true) {event : Event}
    (hevent : event.visit? w.id w.offset = none) :
  w.Visited e s (s'.record cfg event)
  := by
  obtain ⟨vs, hvisits, hcourse, hfew⟩ := h
  refine ⟨vs, ?_, ?_, hfew⟩
  · rw [visits_record htraced, hevent, hvisits, Option.toList_none, List.append_nil]
  · rw [silence?_record]
    apply hcourse

theorem miss (htraced : cfg.traced = true) {expectation : String} :
  w.Visited e s (s.miss cfg expectation)
  := by
  rw [State.miss]
  refine record ?_ htraced rfl
  rw [State.expect_eq]
  exact of_eq rfl rfl

end Visited

end Watch

end ClassTranscript.Peg
