import ClassTranscript.Peg.Parse
import ClassTranscript.Proofs.Peg.Build
import ClassTranscript.Proofs.Peg.Simulation
import ClassTranscript.Proofs.Peg.Termination

/-!
# Evaluations of the rules of a built grammar

Each rule of a grammar that a draft builds has one run on a text, it derives what the definition
means (`Draft.exists_run`), and the evaluator comes to that run or is stopped by a limit
(`Runs.evaluate`). The outcome of a parse is then that of the run (`Outcome.ofRun`) unless it
reports a limit (`Runs.parse?`).
-/

namespace ClassTranscript.Peg

/-- The limit that an outcome reports. -/
def Outcome.limit? : Outcome → Option Limit
  | .matched _ _ => none
  | .mismatched m =>
    match m.cause with
    | .grammar => none
    | .limit limit => some limit

/-- The outcome that a run of a rule from the start comes to. -/
def Outcome.ofRun (rule : Rule) (id : RuleId) (r : Option Match) (misses : List Miss)
    (stats : Stats) : Outcome :=
  match r with
  | some m => .matched ⟨rootNode rule id { here := m.stop, nodes := m.nodes }, m.stop.offset⟩ stats
  | none =>
    let f := Frontier.addAll {} misses
    .mismatched ⟨f.furthest, f.expected.mergeSort fun a b => a ≤ b, .grammar, stats⟩

/-- An evaluation begins ready. -/
theorem ready_initial (g : Grammar) (text : String) :
  Ready g (.atStart text) (.initial text)
  where
  running := rfl
  reaches := .refl _
  memo := Memo.sound_empty
  depth := Nat.le_refl _

section

variable {g : Grammar} {id : RuleId} {text : String} {r : Option Match} {e : Effect}

/-- An evaluation of a rule comes to its run, or a limit stops it. -/
theorem Runs.evaluate (h : Runs g (.call id) (.atStart text) r e) (cfg : Settings) (bound : Nat) :
  Ends g cfg (.atStart text) bound (State.initial text).mark (.initial text) r e
    (Peg.evaluate g cfg bound id text)
  := h.ends bound 0 _ _ (ready_initial g text) rfl fun _ => rfl

/-- Where there are no limits only the bound on the nesting can be exceeded. -/
theorem Exceeds.bound_lt {memoize traced : Bool} {bound : Nat} {s : State} {limit : Limit}
    (h : Exceeds ⟨none, memoize, traced⟩ bound s e limit) :
  bound < e.steps
  := by
  cases h with
  | bound h => apply h
  | steps h => simp [Settings.allowsSteps] at h
  | depth h => simp [Settings.allowsDepth] at h
  | entries _ h => simp [Settings.allowsEntries] at h

/-- Without limits an evaluation comes to the run of the rule once the bound on the nesting is out
of reach. -/
theorem Runs.evaluate_unlimited (h : Runs g (.call id) (.atStart text) r e) (memoize traced : Bool)
    {bound : Nat} (hbound : e.steps ≤ bound) :
  ∃ s, Peg.evaluate g ⟨none, memoize, traced⟩ bound id text = (r.isSome, s) ∧ s.halted = none
    ∧ Follows g ⟨none, memoize, traced⟩ (.atStart text) (.initial text) e s
  := by
  have hend := h.evaluate ⟨none, memoize, traced⟩ bound
  generalize Peg.evaluate g ⟨none, memoize, traced⟩ bound id text = out at hend
  cases hend with
  | completed hrunning hfollows _ => exact ⟨_, rfl, hrunning, hfollows⟩
  | halted _ hexceeds =>
      have := hexceeds.bound_lt
      omega

/-- The frontier at the end of an evaluation is that of the failures of the run. -/
theorem Follows.frontier_of_initial {cfg : Settings} {start : Cursor} {s : State}
    (h : Follows g cfg start (.initial text) e s) :
  s.frontier = Frontier.addAll {} e.misses
  := h.frontier

/-- A parse comes to the outcome of the run, or reports a limit that the run exceeds. -/
theorem Runs.parse? {rule : Rule} (hrule : g.rule? id = some rule)
    (h : Runs g (.call id) (.atStart text) r e) (o : Options) :
  ∃ outcome log, Peg.parse? g o id text = some (outcome, log)
    ∧ ((∃ stats, outcome = .ofRun rule id r e.misses stats)
      ∨ ∃ limit, outcome.limit? = some limit
        ∧ Exceeds o.settings (o.limits.steps + 1) (.initial text) e limit)
  := by
  have hend := h.evaluate o.settings (o.limits.steps + 1)
  rw [Peg.parse?, parseWithin?, hrule, Option.map_some]
  generalize Peg.evaluate g o.settings (o.limits.steps + 1) id text = out at hend
  refine ⟨_, _, rfl, ?_⟩
  cases hend with
  | @halted s limit hhalted hexceeds =>
      refine .inr ⟨limit, ?_, hexceeds⟩
      simp only [outcomeOf, hhalted, Outcome.limit?]
  | @completed s hrunning hfollows hmark =>
      refine .inl ⟨{ s.stats with entries := s.memo.size }, ?_⟩
      cases r with
      | none =>
          have hfrontier := hfollows.frontier_of_initial
          simp only [outcomeOf, hrunning, Option.isSome_none, Outcome.ofRun, ← hfrontier,
            State.frontier]
      | some m =>
          have hhere : s.here = m.stop := congrArg Mark.here hmark
          have hnodes : s.nodes = m.nodes ++ [] := congrArg Mark.nodes hmark
          rw [List.append_nil] at hnodes
          simp only [outcomeOf, hrunning, Option.isSome_some, Outcome.ofRun, rootNode,
            rootNode.leaf, hhere, hnodes]

end

/-- Each rule of a built grammar has a run on a text, in which calls nest at most as deep as there
are rules for each byte and once more. It derives what the definition means. -/
theorem Draft.exists_run {d : Draft} {g : Grammar} (hbuild : d.build = .ok g) {id : RuleId}
    {x : Definition} (hx : d.definitions[id]? = some x) (text : String) :
  ∃ rule r e, g.rule? id = some rule ∧ Runs g (.call id) (.atStart text) r e
    ∧ e.depth ≤ g.rules.size * (text.utf8ByteSize + 1)
    ∧ Derives d.body? x.body (.atStart text) (r.map (·.stop)) e.misses
  := by
  obtain ⟨c⟩ := exists_certificate_of_build hbuild
  have hlinked := linkedFrom_of_build hbuild
  obtain ⟨rule, hrule, rfl, hlink⟩ := hlinked.rule hx
  obtain ⟨r, e, hrun, hdepth⟩ := c.settles id (.atStart text)
  rw [Text.utf8ByteSize_eq_byteLength]
  refine ⟨rule, r, e, hrule, hrun, hdepth, ?_⟩
  cases hrun with
  | unknown hnone =>
      rw [hrule] at hnone
      cases hnone
  | @call _ rule' _ r _ hrule' hbody =>
      obtain rfl := Option.some.inj (hrule.symm.trans hrule')
      have hderives := Derives.of_link
        (fun e' hcodes => hbody.derives c hlinked e' hcodes (c.repeatsNullable hrule)) hlink
      cases r with
      | none => apply hderives
      | some m => apply hderives

end ClassTranscript.Peg
