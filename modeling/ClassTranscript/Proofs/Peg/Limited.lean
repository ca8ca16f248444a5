import ClassTranscript.Proofs.Peg.Charge
import ClassTranscript.Proofs.Peg.Parse

/-!
# Parses under limits

Limits do nothing until they are crossed. A parse reports a limit exactly where the counts of the
evaluation without limits are above one of them, and the limit is the one whose bound that
evaluation crosses first; otherwise it is that evaluation (`parse_limited`).
-/

namespace ClassTranscript.Peg

variable {g : Grammar} {cfg : Settings} {limits : Limits}

/-- An evaluation of a rule under limits is the same as without them, unless it demands more than
they allow. -/
theorem evaluate_keeps (g : Grammar) (hlimits : cfg.limits = some limits) {unbound : Nat}
    {id : RuleId} {text : String}
    (hs : (evaluate g cfg.unlimited unbound id text).2.halted = none) :
  (limits.Cover (evaluate g cfg.unlimited unbound id text).2.usage
      ↔ limits.crossed? (evaluationDemands g cfg.unlimited unbound id text) = none)
    ∧ Keeps limits (evaluationDemands g cfg.unlimited unbound id text)
      (evaluate g cfg.unlimited unbound id text) (evaluate g cfg (limits.steps + 1) id text)
  := by
  have hcharges := runCall_charges hlimits (eval_extends g cfg.unlimited unbound)
    (eval_charges g hlimits unbound (limits.steps + 1)) g id
  have hinitial : limits.Cover (State.initial text).usage :=
    ⟨Nat.zero_le _, Nat.zero_le _, Nat.zero_le _⟩
  constructor
  · apply (hcharges.accounts hs limits).trans
    rw [and_iff_right hinitial, Limits.crossed?_eq_none_iff]
    rfl
  · apply hcharges.keeps hs hinitial
    apply Nat.lt_succ_self

/-- The outcome of an evaluation reports the limit that stopped it. -/
theorem limit?_outcomeOf (rule : Rule) (id : RuleId) (matched : Bool) (s : State) :
  (outcomeOf rule id matched s).limit? = s.halted
  := by
  cases hs : s.halted with
  | none => cases matched <;> simp [outcomeOf, hs, Outcome.limit?]
  | some limit => simp [outcomeOf, hs, Outcome.limit?]

theorem stats_outcomeOf (rule : Rule) (id : RuleId) (matched : Bool) (s : State) :
  (outcomeOf rule id matched s).stats = s.usage
  := by
  cases hs : s.halted with
  | none => cases matched <;> simp [outcomeOf, hs, Outcome.stats, State.usage]
  | some limit => simp [outcomeOf, hs, Outcome.stats, State.usage]

theorem exists_outcomeOf_of_halted (rule : Rule) (id : RuleId) (matched : Bool) {s : State}
    {limit : Limit} (h : s.halted = some limit) :
  ∃ m, outcomeOf rule id matched s = .mismatched m ∧ m.expected = []
  := by
  simp [outcomeOf, h]

theorem parseWithin?_eq {rule : Rule} {id : RuleId} (hrule : g.rule? id = some rule)
    (cfg : Settings) (bound : Nat) (text : String) :
  parseWithin? g cfg bound id text
    = some (outcomeOf rule id (evaluate g cfg bound id text).1 (evaluate g cfg bound id text).2,
        (evaluate g cfg bound id text).2.log.reverse)
  := by
  rw [parseWithin?, hrule]
  rfl

/-- A parse reports no limit exactly where its limits cover the counts of the parse without limits,
and then it is that parse. Otherwise it expects nothing and reports the limit that the demands of
the parse without limits are the first to cross. -/
theorem parse_limited {d : Draft} {g : Grammar} (hbuild : d.build = .ok g) {id : RuleId}
    (hid : id < g.rules.size) (text : String) (limits : Limits) (memoize traced : Bool) :
  ∃ outcome log free freeLog bound,
    parse? g ⟨limits, memoize, traced⟩ id text = some (outcome, log)
    ∧ (∀ bound' ≥ bound,
      parseWithin? g ⟨none, memoize, traced⟩ bound' id text = some (free, freeLog))
    ∧ free.limit? = none
    ∧ (outcome.limit? = none ↔ limits.Cover free.stats)
    ∧ (outcome.limit? = none → outcome = free ∧ log = freeLog)
    ∧ ∀ limit, outcome.limit? = some limit →
      (∃ m, outcome = .mismatched m ∧ m.expected = [])
      ∧ ∀ bound' ≥ bound, limits.crossed?
          (evaluationDemands g ⟨none, memoize, traced⟩ bound' id text) = some limit
  := by
  rw [(Draft.linkedFrom_of_build hbuild).size] at hid
  obtain ⟨rule, r, e, hrule, hrun, -, -⟩ :=
    Draft.exists_run hbuild (List.getElem?_eq_getElem hid) text
  obtain ⟨s, hs, hrunning, -⟩ := hrun.evaluate_unlimited memoize traced (Nat.le_refl _)
  have hfree (bound : Nat) (hle : bound ≥ e.steps) :
      evaluate g ⟨none, memoize, traced⟩ bound id text = (r.isSome, s) := by
    rw [← hs]
    apply evaluate_of_le _ hle
    rw [hs, hrunning]
  have hkeeps (bound : Nat) (hle : bound ≥ e.steps) :
      (limits.Cover s.usage
          ↔ limits.crossed? (evaluationDemands g ⟨none, memoize, traced⟩ bound id text) = none)
        ∧ Keeps limits (evaluationDemands g ⟨none, memoize, traced⟩ bound id text) (r.isSome, s)
          (evaluate g ⟨some limits, memoize, traced⟩ (limits.steps + 1) id text) := by
    have hs : (evaluate g (Settings.unlimited ⟨some limits, memoize, traced⟩) bound id text).2.halted
        = none := by
      rw [Settings.unlimited, hfree bound hle, hrunning]
    have h := evaluate_keeps g rfl hs
    rw [Settings.unlimited, hfree bound hle] at h
    apply h
  have hparse := parseWithin?_eq hrule ⟨some limits, memoize, traced⟩ (limits.steps + 1) text
  refine ⟨_, _, outcomeOf rule id r.isSome s, s.log.reverse, e.steps, hparse, ?_, ?_, ?_⟩
  · intro bound hle
    rw [parseWithin?_eq hrule, hfree bound hle]
  · rw [limit?_outcomeOf, hrunning]
  · rw [stats_outcomeOf, limit?_outcomeOf]
    obtain ⟨hcover, hkeep⟩ := hkeeps e.steps (Nat.le_refl _)
    generalize evaluate g ⟨some limits, memoize, traced⟩ (limits.steps + 1) id text = out
      at hkeeps hkeep
    cases hkeep with
    | within hnone =>
        rw [hrunning, hcover, hnone]
        refine ⟨Iff.rfl, fun _ => ⟨rfl, rfl⟩, ?_⟩
        rintro limit ⟨⟩
    | @halted limit s₁ hsome hhalted =>
        rw [hhalted, hcover, hsome]
        refine ⟨by simp, by simp, ?_⟩
        rintro _ ⟨⟩
        constructor
        · apply exists_outcomeOf_of_halted rule id false hhalted
        · intro bound hle
          apply (hkeeps bound hle).2.crossed?_of_halted hhalted hrunning

/-- Where descriptors of three bytes may take seven steps, the eighth step is the first demand that
is too large, and the parse reports the limit on steps. -/
theorem parse_descriptor_limited :
  ∃ m log bound, parse? descriptorDraft.buildD ⟨{ steps := 7 }, true, false⟩ 0 "[[I"
      = some (.mismatched m, log)
    ∧ m.expected = []
    ∧ ∀ bound' ≥ bound, ({ steps := 7 } : Limits).crossed?
      (evaluationDemands descriptorDraft.buildD ⟨none, true, false⟩ bound' 0 "[[I") = some .steps
  := by
  obtain ⟨outcome, log, free, freeLog, bound, hparse, -, -, -, -, h⟩ :=
    parse_limited build_descriptorDraft (show 0 < descriptorDraft.buildD.rules.size by decide)
      "[[I" { steps := 7 } true false
  have hlimit : (parse? descriptorDraft.buildD ⟨{ steps := 7 }, true, false⟩ 0 "[[I").map
      (·.1.limit?) = some (some .steps) := rfl
  rw [hparse] at hlimit
  obtain ⟨⟨m, rfl, hexpected⟩, hcrossed⟩ := h _ (Option.some.inj hlimit)
  exact ⟨m, log, bound, hparse, hexpected, hcrossed⟩

end ClassTranscript.Peg
