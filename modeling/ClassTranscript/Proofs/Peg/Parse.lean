import ClassTranscript.Proofs.Peg.Bound
import ClassTranscript.Proofs.Peg.Evaluation
import ClassTranscript.Proofs.Text.Utf8Order
import ClassTranscript.Transcript.Grammar

/-!
# Parses by built grammars

A parse by a grammar that a draft builds matches, and fails to match, as the definitions mean
(`parse_iff_derives`), whatever is remembered (`parse_memoize`). Without limits every evaluation
ends, and calls nest at most as deep as there are rules for each byte of the text and once more
(`evaluate_terminates`). A failure reports the largest offset at which a terminal failed outside
predicates, and what was expected there (`mismatch_exact`).
-/

namespace ClassTranscript.Peg

/-- The definitions for the descriptors of types, as a draft of their own in which every result is
remembered. -/
def descriptorDraft : Draft :=
  Draft.defineAll {} (Transcript.descriptors.map fun x => { x with memo := .all })

theorem build_descriptorDraft :
  descriptorDraft.build = .ok descriptorDraft.buildD
  := rfl

theorem Outcome.limit?_eq_none_of_parse? {g : Grammar} {o : Options} {id : RuleId} {text : String}
    {outcome : Outcome} {log : List Event} (hparse : parse? g o id text = some (outcome, log))
    (h : (parse? g o id text).map (·.1.limit?) = some none) :
  outcome.limit? = none
  := by
  rw [hparse] at h
  apply Option.some.inj h

/-! ### The meaning of a parse -/

/-- A parse that no limit stops ends in a match exactly where the definition derives one, and in a
failure exactly where the definition derives that. -/
theorem parse_iff_derives {d : Draft} {g : Grammar} (hbuild : d.build = .ok g) {id : RuleId}
    {x : Definition} (hx : d.definitions[id]? = some x) (o : Options) (text : String) :
  ∃ outcome log, parse? g o id text = some (outcome, log) ∧ (outcome.limit? = none →
    (∀ stop, (∃ tree stats, outcome = .matched tree stats ∧ tree.stop = stop)
      ↔ ∃ there misses, Derives d.body? x.body (.atStart text) (some there) misses
        ∧ there.offset = stop)
    ∧ ((∃ m, outcome = .mismatched m ∧ m.cause = .grammar)
      ↔ ∃ misses, Derives d.body? x.body (.atStart text) none misses))
  := by
  obtain ⟨rule, r, e, hrule, hrun, -, hderives⟩ := Draft.exists_run hbuild hx text
  obtain ⟨outcome, log, hparse, hend⟩ := hrun.parse? hrule o
  refine ⟨outcome, log, hparse, ?_⟩
  intro hlimit
  obtain ⟨stats, rfl⟩ | ⟨limit, hsome, -⟩ := hend
  · cases r with
    | none =>
        constructor
        · intro stop
          constructor
          · rintro ⟨tree, stats', heq, -⟩
            cases heq
          · rintro ⟨there, misses, hmatch, -⟩
            cases (hderives.unique hmatch).1
        · constructor
          · rintro -
            exact ⟨_, hderives⟩
          · rintro -
            exact ⟨_, rfl, rfl⟩
    | some m =>
        constructor
        · intro stop
          constructor
          · rintro ⟨tree, stats', heq, rfl⟩
            cases heq
            exact ⟨m.stop, _, hderives, rfl⟩
          · rintro ⟨there, misses, hmatch, rfl⟩
            obtain ⟨⟨⟩, -⟩ := hderives.unique hmatch
            exact ⟨_, _, rfl, rfl⟩
        · constructor
          · rintro ⟨m', heq, -⟩
            cases heq
          · rintro ⟨misses, hfailure⟩
            cases (hderives.unique hfailure).1
  · rw [hlimit] at hsome
    cases hsome

/-- The descriptor of an array of arrays is matched to its end, and so derived. -/
theorem parse_descriptor_derives :
  ∃ tree stats log, parse? descriptorDraft.buildD {} 0 "[[I" = some (.matched tree stats, log)
    ∧ ∃ there misses, Derives descriptorDraft.body?
        (.choice (Expr.rules ["BaseDescriptor", "ObjectDescriptor", "ArrayDescriptor"]))
        (.atStart "[[I") (some there) misses
      ∧ there.offset = tree.stop
  := by
  obtain ⟨outcome, log, hparse, h⟩ := parse_iff_derives build_descriptorDraft
    (show descriptorDraft.definitions[0]? = some _ from rfl) {} "[[I"
  obtain ⟨hmatch, -⟩ := h (Outcome.limit?_eq_none_of_parse? hparse rfl)
  cases outcome with
  | matched tree stats => exact ⟨tree, stats, log, hparse, (hmatch _).mp ⟨tree, stats, rfl, rfl⟩⟩
  | mismatched m =>
      have hends : (parse? descriptorDraft.buildD {} 0 "[[I").any (·.1 matches .matched ..) := rfl
      rw [hparse] at hends
      cases hends

/-! ### Remembered results -/

/-- Two outcomes are the same but for the counts. -/
def Outcome.Agrees : Outcome → Outcome → Prop
  | .matched tree _, .matched tree' _ => tree = tree'
  | .mismatched m, .mismatched m' =>
    m.furthest = m'.furthest ∧ m.expected = m'.expected ∧ m.cause = m'.cause
  | _, _ => False

/-- A parse that follows the memo policies of the rules and one that remembers nothing agree, unless
a limit stops one of them. -/
theorem parse_memoize {d : Draft} {g : Grammar} (hbuild : d.build = .ok g) {id : RuleId}
    (hid : id < g.rules.size) (text : String) (limits limits' : Limits) (traced traced' : Bool) :
  ∃ outcome outcome' log log', parse? g ⟨limits, true, traced⟩ id text = some (outcome, log)
    ∧ parse? g ⟨limits', false, traced'⟩ id text = some (outcome', log')
    ∧ (outcome.limit? = none → outcome'.limit? = none → outcome.Agrees outcome')
  := by
  rw [(Draft.linkedFrom_of_build hbuild).size] at hid
  obtain ⟨rule, r, e, hrule, hrun, -, -⟩ :=
    Draft.exists_run hbuild (List.getElem?_eq_getElem hid) text
  obtain ⟨outcome, log, hparse, hend⟩ := hrun.parse? hrule ⟨limits, true, traced⟩
  obtain ⟨outcome', log', hparse', hend'⟩ := hrun.parse? hrule ⟨limits', false, traced'⟩
  refine ⟨outcome, outcome', log, log', hparse, hparse', ?_⟩
  intro hlimit hlimit'
  obtain ⟨stats, rfl⟩ | ⟨limit, hsome, -⟩ := hend
  · obtain ⟨stats', rfl⟩ | ⟨limit, hsome, -⟩ := hend'
    · cases r with
      | none => exact ⟨rfl, rfl, rfl⟩
      | some m => exact rfl
    · rw [hlimit'] at hsome
      cases hsome
  · rw [hlimit] at hsome
    cases hsome

/-- Remembering the results for descriptors changes nothing where one fails. -/
theorem parse_descriptor_memoize :
  ∃ outcome outcome' log log', parse? descriptorDraft.buildD ⟨{}, true, false⟩ 0 "[[x"
      = some (outcome, log)
    ∧ parse? descriptorDraft.buildD ⟨{}, false, false⟩ 0 "[[x" = some (outcome', log')
    ∧ outcome.Agrees outcome'
  := by
  obtain ⟨outcome, outcome', log, log', hparse, hparse', h⟩ :=
    parse_memoize build_descriptorDraft (show 0 < descriptorDraft.buildD.rules.size by decide)
      "[[x" {} {} false false
  have hlimit := Outcome.limit?_eq_none_of_parse? hparse rfl
  have hlimit' := Outcome.limit?_eq_none_of_parse? hparse' rfl
  exact ⟨outcome, outcome', log, log', hparse, hparse', h hlimit hlimit'⟩

/-! ### Termination -/

/-- Without limits an evaluation ends, the same whatever bounds its nesting from some bound on, and
calls nest in it at most as deep as there are rules for each byte of the text and once more. A limit
on the depth that is at least that is never reported. -/
theorem evaluate_terminates {d : Draft} {g : Grammar} (hbuild : d.build = .ok g) {id : RuleId}
    (hid : id < g.rules.size) (text : String) (memoize traced : Bool) :
  (∃ bound out, out.2.halted = none
    ∧ out.2.stats.maxDepth ≤ g.rules.size * (text.utf8ByteSize + 1)
    ∧ ∀ bound' ≥ bound, evaluate g ⟨none, memoize, traced⟩ bound' id text = out)
  ∧ ∀ limits : Limits, g.rules.size * (text.utf8ByteSize + 1) ≤ limits.depth →
    ∃ outcome log, parse? g ⟨limits, memoize, traced⟩ id text = some (outcome, log)
      ∧ outcome.limit? ≠ some .depth
  := by
  rw [(Draft.linkedFrom_of_build hbuild).size] at hid
  obtain ⟨rule, r, e, hrule, hrun, hdepth, -⟩ :=
    Draft.exists_run hbuild (List.getElem?_eq_getElem hid) text
  constructor
  · obtain ⟨s, hevaluate, hrunning, hfollows⟩ :=
      hrun.evaluate_unlimited memoize traced (Nat.le_refl _)
    refine ⟨e.steps, (r.isSome, s), hrunning, ?_, ?_⟩
    · have hmaxDepth := hfollows.maxDepth.le_plain
      simp only [State.initial, Nat.zero_max, Nat.zero_add] at hmaxDepth
      apply Nat.le_trans hmaxDepth hdepth
    · intro bound' hle
      rw [← hevaluate]
      apply evaluate_of_le _ hle
      rw [hevaluate, hrunning]
  · intro limits hlimits
    obtain ⟨outcome, log, hparse, hend⟩ := hrun.parse? hrule ⟨limits, memoize, traced⟩
    refine ⟨outcome, log, hparse, ?_⟩
    intro hreport
    obtain ⟨stats, rfl⟩ | ⟨limit, hsome, hexceeds⟩ := hend
    · cases r <;> cases hreport
    · obtain rfl := Option.some.inj (hreport.symm.trans hsome)
      cases hexceeds with
      | depth hdenied =>
        have hover : ¬ 0 + e.depth ≤ limits.depth := of_decide_eq_false hdenied
        omega

/-- With a limit of one level for each of the five rules and each byte, and five more, descriptors
of three bytes are not nested too deep. -/
theorem parse_descriptor_depth :
  (∃ bound out, out.2.halted = none ∧ out.2.stats.maxDepth ≤ 20
    ∧ ∀ bound' ≥ bound, evaluate descriptorDraft.buildD ⟨none, true, false⟩ bound' 0 "[[I" = out)
  ∧ ∃ outcome log, parse? descriptorDraft.buildD ⟨{ depth := 20 }, true, false⟩ 0 "[[I"
      = some (outcome, log) ∧ outcome.limit? ≠ some .depth
  := by
  obtain ⟨hends, hlimits⟩ := evaluate_terminates build_descriptorDraft
    (show 0 < descriptorDraft.buildD.rules.size by decide) "[[I" true false
  exact ⟨hends, hlimits { depth := 20 } (Nat.le_refl 20)⟩

/-! ### Reports of failures -/

/-- The report of a failure is exact. The failures of terminals outside predicates, in the order in
which they happen, are those of the derivation and those that a plain evaluation logs. The report
gives the largest of their offsets and, sorted byte by byte, each text that is expected there. -/
theorem mismatch_exact {d : Draft} {g : Grammar} (hbuild : d.build = .ok g) {id : RuleId}
    {x : Definition} (hx : d.definitions[id]? = some x) (o : Options) (text : String) :
  ∃ outcome log, parse? g o id text = some (outcome, log)
    ∧ ∀ m, outcome = .mismatched m → m.cause = .grammar → ∃ misses,
      Derives d.body? x.body (.atStart text) none misses
      ∧ (∃ bound, ∀ bound' ≥ bound, ∃ s, evaluate g ⟨none, false, true⟩ bound' id text = (false, s)
          ∧ s.halted = none ∧ s.missLog.reverse = misses)
      ∧ m.furthest = Frontier.furthestOf misses
      ∧ m.expected.Pairwise (fun a b => Text.encode a < Text.encode b)
      ∧ ∀ y, y ∈ m.expected ↔ ⟨m.furthest, y⟩ ∈ misses
  := by
  obtain ⟨rule, r, e, hrule, hrun, -, hderives⟩ := Draft.exists_run hbuild hx text
  obtain ⟨outcome, log, hparse, hend⟩ := hrun.parse? hrule o
  refine ⟨outcome, log, hparse, ?_⟩
  rintro m rfl hcause
  obtain ⟨stats, heq⟩ | ⟨limit, hsome, -⟩ := hend
  · cases r with
    | some m' => cases heq
    | none =>
        cases heq
        refine ⟨e.misses, hderives, ?_, Frontier.addAll_furthest _, ?_, ?_⟩
        · use e.steps
          intro bound' hle
          obtain ⟨s, hevaluate, hrunning, hfollows⟩ := hrun.evaluate_unlimited false true hle
          refine ⟨s, hevaluate, hrunning, ?_⟩
          rw [hfollows.missLog rfl rfl, List.reverse_append, List.reverse_reverse]
          rfl
        · apply Text.pairwise_encode_mergeSort (Frontier.nodup_addAll _)
        · intro y
          rw [List.mem_mergeSort, Frontier.mem_addAll_expected, Frontier.addAll_furthest]
  · simp only [Outcome.limit?, hcause] at hsome
    cases hsome

/-- After the bracket of an array a descriptor has to go on. -/
theorem parse_descriptor_mismatch_exact :
  ∃ m log misses, parse? descriptorDraft.buildD {} 0 "[x" = some (.mismatched m, log)
    ∧ m.cause = .grammar ∧ m.furthest = Frontier.furthestOf misses
    ∧ ∀ y, y ∈ m.expected ↔ ⟨m.furthest, y⟩ ∈ misses
  := by
  obtain ⟨outcome, log, hparse, h⟩ := mismatch_exact build_descriptorDraft
    (show descriptorDraft.definitions[0]? = some _ from rfl) {} "[x"
  cases outcome with
  | matched tree stats =>
      have hends : (parse? descriptorDraft.buildD {} 0 "[x").all (·.1 matches .mismatched _) := rfl
      rw [hparse] at hends
      cases hends
  | mismatched m =>
      have hcause : m.cause = .grammar := by
        have hlimit := Outcome.limit?_eq_none_of_parse? hparse rfl
        cases hm : m.cause with
        | grammar => rfl
        | limit _ => simp [Outcome.limit?, hm] at hlimit
      obtain ⟨misses, -, -, hfurthest, -, hexpected⟩ := h m rfl hcause
      exact ⟨m, log, misses, hparse, hcause, hfurthest, hexpected⟩

end ClassTranscript.Peg
