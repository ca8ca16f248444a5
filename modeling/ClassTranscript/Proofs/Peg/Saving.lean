import ClassTranscript.Proofs.Peg.Limited
import ClassTranscript.Proofs.Peg.Packrat

/-!
# What remembering saves

A plain parse that no limit stops makes exactly the steps and calls of the run of its rule, and the
limits cover them (`Runs.plain_counts`). A parse that remembers results makes at most those, so
under the same limits only the bound on remembered results can stop it (`parse?_saves`).
-/

namespace ClassTranscript.Peg

variable {g : Grammar} {id : RuleId} {text : String} {r : Option Match} {e : Effect}
  {limits : Limits} {traced : Bool}

/-- Limits that do not stop the plain evaluation of a rule cover the steps and the depth of its run,
and the counts of the evaluation are those of the run. -/
theorem Runs.plain_counts (h : Runs g (.call id) (.atStart text) r e)
    (hs : (Peg.evaluate g ⟨some limits, false, traced⟩ (limits.steps + 1) id text).2.halted
      = none) :
  (e.steps ≤ limits.steps ∧ e.depth ≤ limits.depth)
    ∧ ∃ s, Peg.evaluate g ⟨some limits, false, traced⟩ (limits.steps + 1) id text = (r.isSome, s)
      ∧ s.stats.steps = e.steps ∧ s.stats.evaluations = e.calls ∧ s.stats.maxDepth = e.depth
  := by
  obtain ⟨s, hfree, hrunning, hfollows⟩ := h.evaluate_unlimited false traced (Nat.le_refl _)
  have hsteps : s.stats.steps = e.steps := by
    simpa [State.initial] using hfollows.steps.eq_plain rfl
  have hcalls : s.stats.evaluations = e.calls := by
    simpa [State.initial] using hfollows.calls.eq_plain rfl
  have hdepth : s.stats.maxDepth = e.depth := by
    simpa [State.initial] using hfollows.maxDepth.eq_plain rfl
  have hunlimited : (Peg.evaluate g (Settings.unlimited ⟨some limits, false, traced⟩) e.steps id
      text).2.halted = none := by
    rw [Settings.unlimited, hfree, hrunning]
  obtain ⟨hcover, hkeeps⟩ := evaluate_keeps g rfl hunlimited
  rw [Settings.unlimited, hfree] at hcover hkeeps
  generalize Peg.evaluate g ⟨some limits, false, traced⟩ (limits.steps + 1) id text = out
    at hs hkeeps ⊢
  cases hkeeps with
  | within hnone =>
      obtain ⟨hsteps', hdepth', -⟩ := hcover.mpr hnone
      rw [State.usage, hsteps] at hsteps'
      rw [State.usage, hdepth] at hdepth'
      exact ⟨⟨hsteps', hdepth'⟩, s, rfl, hsteps, hcalls, hdepth⟩
  | halted _ hhalted =>
      rw [hhalted] at hs
      cases hs

/-- Limits that cover a run stop an evaluation of it by the bound on remembered results only, and an
evaluation that is not stopped takes no more than the run. -/
theorem Runs.remembering_counts (h : Runs g (.call id) (.atStart text) r e)
    (hsteps : e.steps ≤ limits.steps) (hdepth : e.depth ≤ limits.depth)
    (hentries : (Peg.evaluate g ⟨some limits, true, traced⟩ (limits.steps + 1) id text).2.halted
      ≠ some .entries) :
  ∃ s, Peg.evaluate g ⟨some limits, true, traced⟩ (limits.steps + 1) id text = (r.isSome, s)
    ∧ s.halted = none
    ∧ s.stats.steps ≤ e.steps ∧ s.stats.evaluations ≤ e.calls ∧ s.stats.maxDepth ≤ e.depth
  := by
  have hend := h.evaluate ⟨some limits, true, traced⟩ (limits.steps + 1)
  generalize Peg.evaluate g ⟨some limits, true, traced⟩ (limits.steps + 1) id text = out
    at hentries hend ⊢
  cases hend with
  | @completed s hrunning hfollows _ =>
      refine ⟨s, rfl, hrunning, ?_, ?_, ?_⟩
      · simpa [State.initial] using hfollows.steps.le_plain
      · simpa [State.initial] using hfollows.calls.le_plain
      · simpa [State.initial] using hfollows.maxDepth.le_plain
  | halted hhalted hexceeds =>
      cases hexceeds with
      | bound hover => omega
      | steps hover =>
          have hover : ¬ 0 + e.steps ≤ limits.steps := of_decide_eq_false hover
          omega
      | depth hover =>
          have hover : ¬ 0 + e.depth ≤ limits.depth := of_decide_eq_false hover
          omega
      | entries _ _ => exact absurd hhalted hentries

/-- Where limits do not stop a parse that remembers nothing, and the bound on remembered results
does not stop the parse that follows the memo policies, no limit stops that one either, and it makes
no more steps, evaluates no more bodies and nests no deeper. -/
theorem parse?_saves {d : Draft} {g : Grammar} (hbuild : d.build = .ok g) {id : RuleId}
    (hid : id < g.rules.size) (text : String) (limits : Limits) (traced traced' : Bool) :
  ∃ outcome plain log plainLog, parse? g ⟨limits, true, traced⟩ id text = some (outcome, log)
    ∧ parse? g ⟨limits, false, traced'⟩ id text = some (plain, plainLog)
    ∧ (plain.limit? = none → outcome.limit? ≠ some .entries →
      outcome.limit? = none ∧ outcome.stats.steps ≤ plain.stats.steps
        ∧ outcome.stats.evaluations ≤ plain.stats.evaluations
        ∧ outcome.stats.maxDepth ≤ plain.stats.maxDepth)
  := by
  rw [(Draft.linkedFrom_of_build hbuild).size] at hid
  obtain ⟨rule, r, e, hrule, hrun, -, -⟩ :=
    Draft.exists_run hbuild (List.getElem?_eq_getElem hid) text
  refine ⟨_, _, _, _, parseWithin?_eq hrule ⟨some limits, true, traced⟩ (limits.steps + 1) text,
    parseWithin?_eq hrule ⟨some limits, false, traced'⟩ (limits.steps + 1) text, ?_⟩
  simp only [limit?_outcomeOf, stats_outcomeOf]
  intro hplain hentries
  obtain ⟨⟨hsteps, hdepth⟩, s', heq', hsteps', hcalls', hdepth'⟩ := hrun.plain_counts hplain
  obtain ⟨s, heq, hrunning, hle⟩ := hrun.remembering_counts hsteps hdepth hentries
  rw [heq, heq']
  use hrunning
  simp only [State.usage, hsteps', hcalls', hdepth']
  exact hle

/-- Two alternatives that begin with the same rule take nine steps where nothing is remembered. Nine
are enough where the second alternative uses what the first remembers. -/
theorem parse?_prefix_saves :
  ∃ outcome plain log plainLog,
    parse? (prefixDraft []).buildD ⟨{ steps := 9 }, true, false⟩ 0 "ay" = some (outcome, log)
    ∧ parse? (prefixDraft []).buildD ⟨{ steps := 9 }, false, false⟩ 0 "ay" = some (plain, plainLog)
    ∧ plain.stats.steps = 9 ∧ outcome.limit? = none ∧ outcome.stats.steps ≤ 9
  := by
  obtain ⟨outcome, plain, log, plainLog, hparse, hplain, h⟩ := parse?_saves
    (show (prefixDraft []).build = .ok (prefixDraft []).buildD from rfl)
    (show 0 < (prefixDraft []).buildD.rules.size by decide) "ay" { steps := 9 } false false
  have hlimit := Outcome.limit?_eq_none_of_parse? hplain rfl
  have hlimit' := Outcome.limit?_eq_none_of_parse? hparse rfl
  have hsteps : (parse? (prefixDraft []).buildD ⟨{ steps := 9 }, false, false⟩ 0 "ay").map
      (·.1.stats.steps) = some 9 := rfl
  rw [hplain] at hsteps
  have hsteps : plain.stats.steps = 9 := Option.some.inj hsteps
  obtain ⟨hnone, hle, -⟩ := h hlimit (by rw [hlimit']; simp)
  rw [hsteps] at hle
  exact ⟨outcome, plain, log, plainLog, hparse, hplain, hsteps, hnone, hle⟩

end ClassTranscript.Peg
