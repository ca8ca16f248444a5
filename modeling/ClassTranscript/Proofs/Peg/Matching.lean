import ClassTranscript.Proofs.Peg.Limited
import ClassTranscript.Proofs.Peg.TreeShape

/-!
# Parses of texts that match

Where a definition is known to match a text, a parse by its rule comes to the tree of that match
(`exists_tree_of_grows`), unless it reaches a limit; and no limit is reached that is large enough
(`exists_sufficient`). Where it fails, so does the parse (`not_matched_of_fails`).
-/

namespace ClassTranscript.Peg

variable {d : Draft} {g : Grammar} {id : RuleId} {x : Definition} {text : String}

theorem parse_eq {o : Options} {outcome : Outcome} {log : List Event}
    (h : parse? g o g.root text = some (outcome, log)) :
  parse g o text = outcome
  := by
  rw [parse, h]

/-- Limits that cover certain counts stop no parse. -/
theorem exists_covered (hbuild : d.build = .ok g) (hx : d.definitions[id]? = some x)
    (text : String) (memoize traced : Bool) :
  ∃ stats : Stats, ∀ limits : Limits, limits.Cover stats →
    ∃ outcome log, parse? g ⟨limits, memoize, traced⟩ id text = some (outcome, log)
      ∧ outcome.limit? = none
  := by
  obtain ⟨rule, r, e, hrule, hrun, -, -⟩ := Draft.exists_run hbuild hx text
  obtain ⟨s, hs, hrunning, -⟩ := hrun.evaluate_unlimited memoize traced (Nat.le_refl _)
  use s.usage
  intro limits hcover
  have hfree : (evaluate g (Settings.unlimited ⟨some limits, memoize, traced⟩) e.steps id text).2.halted
      = none := by
    rw [Settings.unlimited, hs, hrunning]
  obtain ⟨hcrossed, hkeeps⟩ := evaluate_keeps g rfl hfree
  rw [Settings.unlimited, hs] at hcrossed hkeeps
  refine ⟨_, _, parseWithin?_eq hrule ⟨some limits, memoize, traced⟩ (limits.steps + 1) text, ?_⟩
  rw [limit?_outcomeOf]
  generalize evaluate g ⟨some limits, memoize, traced⟩ (limits.steps + 1) id text = out at hkeeps ⊢
  cases hkeeps with
  | within => apply hrunning
  | halted hsome _ =>
      rw [hcrossed.mp hcover] at hsome
      cases hsome

/-- Limits that are all large enough stop no parse. -/
theorem exists_sufficient (hbuild : d.build = .ok g) (hx : d.definitions[id]? = some x)
    (text : String) :
  ∃ n, ∀ o : Options, n ≤ o.limits.depth → n ≤ o.limits.steps → n ≤ o.limits.entries →
    ∃ outcome log, parse? g o id text = some (outcome, log) ∧ outcome.limit? = none
  := by
  have hkinds (memoize traced : Bool) : ∃ n, ∀ limits : Limits, n ≤ limits.depth →
      n ≤ limits.steps → n ≤ limits.entries →
      ∃ outcome log, parse? g ⟨limits, memoize, traced⟩ id text = some (outcome, log)
        ∧ outcome.limit? = none := by
    obtain ⟨stats, hstats⟩ := exists_covered hbuild hx text memoize traced
    use stats.steps + stats.maxDepth + stats.entries
    intro limits hdepth hsteps hentries
    apply hstats limits
    refine ⟨?_, ?_, ?_⟩ <;> omega
  choose n hn using hkinds
  use n true true + n true false + n false true + n false false
  rintro ⟨limits, memoize, traced⟩ hdepth hsteps hentries
  have hle : n memoize traced ≤ n true true + n true false + n false true + n false false := by
    cases memoize <;> cases traced <;> omega
  apply hn
  · apply Nat.le_trans hle hdepth
  · apply Nat.le_trans hle hsteps
  · apply Nat.le_trans hle hentries

/-- A parse of a text that a definition matches comes to a tree over the nodes of the match, or a
limit stops it. -/
theorem exists_tree_of_grows (hbuild : d.build = .ok g) (hx : d.definitions[id]? = some x)
    {there : Cursor} {nodes : List Node} (h : Grows d x.body (.atStart text) there nodes)
    (o : Options) :
  ∃ outcome log, parse? g o id text = some (outcome, log)
    ∧ ((∃ tree stats, outcome = .matched tree stats
        ∧ tree.root.children = if x.hidden ∨ x.leaf then [] else nodes)
      ∨ ∃ m limit, outcome = .mismatched m ∧ m.cause = .limit limit)
  := by
  obtain ⟨rule, r, e, hrule, hrun, -, hderives⟩ := Draft.exists_run hbuild hx text
  obtain ⟨misses, hmatch⟩ := h.derives
  have hresult := (hderives.unique hmatch).1
  obtain ⟨outcome, log, hparse, hend⟩ := hrun.parse? hrule o
  refine ⟨outcome, log, hparse, ?_⟩
  obtain ⟨stats, rfl⟩ | ⟨limit, hsome, -⟩ := hend
  · obtain ⟨m, rfl, -⟩ := Option.map_eq_some_iff.mp hresult
    obtain ⟨y, there', nodes', hy, hgrows, -, hroot⟩ := exists_grows_of_parse? hbuild hparse
    obtain rfl := Option.some.inj (hx.symm.trans hy)
    obtain ⟨-, rfl⟩ := h.unique hgrows
    exact .inl ⟨_, _, rfl, congrArg Node.children hroot⟩
  · cases outcome with
    | matched => cases hsome
    | mismatched m =>
        refine .inr ⟨m, limit, rfl, ?_⟩
        cases hcause : m.cause with
        | grammar => simp [Outcome.limit?, hcause] at hsome
        | limit _ => simpa [Outcome.limit?, hcause] using hsome

/-- Where the limits are all large enough a parse of a text that a definition matches comes to a tree
over the nodes of the match. -/
theorem exists_matched_of_grows (hbuild : d.build = .ok g) (hx : d.definitions[id]? = some x)
    {there : Cursor} {nodes : List Node} (h : Grows d x.body (.atStart text) there nodes) :
  ∃ n, ∀ o : Options, n ≤ o.limits.depth → n ≤ o.limits.steps → n ≤ o.limits.entries →
    ∃ tree stats log, parse? g o id text = some (.matched tree stats, log)
      ∧ tree.root = ⟨x.label, id, ⟨0, there.offset⟩, if x.hidden ∨ x.leaf then [] else nodes⟩
  := by
  obtain ⟨n, hn⟩ := exists_sufficient hbuild hx text
  use n
  intro o hdepth hsteps hentries
  obtain ⟨outcome, log, hparse, hlimit⟩ := hn o hdepth hsteps hentries
  obtain ⟨_, _, hsame, hend⟩ := exists_tree_of_grows hbuild hx h o
  obtain ⟨rfl, rfl⟩ := Prod.mk.inj (Option.some.inj (hparse.symm.trans hsame))
  rcases hend with ⟨tree, stats, rfl, -⟩ | ⟨m, limit, rfl, hcause⟩
  · obtain ⟨y, there', nodes', hy, hgrows, hstop, hroot⟩ := exists_grows_of_parse? hbuild hparse
    obtain rfl := Option.some.inj (hx.symm.trans hy)
    obtain ⟨rfl, rfl⟩ := h.unique hgrows
    rw [← hstop] at hroot
    exact ⟨tree, stats, log, hparse, hroot⟩
  · simp [Outcome.limit?, hcause] at hlimit

/-- Where a parse ends in a failure that is not for a limit, the definition fails. -/
theorem fails_of_mismatched (hbuild : d.build = .ok g) (hx : d.definitions[id]? = some x)
    {o : Options} {m : Mismatch} {log : List Event}
    (hparse : parse? g o id text = some (.mismatched m, log))
    (hlimit : (Outcome.mismatched m).limit? = none) :
  Fails d.body? x.body (.atStart text)
  := by
  obtain ⟨rule, r, e, hrule, hrun, -, hderives⟩ := Draft.exists_run hbuild hx text
  obtain ⟨outcome, log', hparse', hend⟩ := hrun.parse? hrule o
  obtain ⟨rfl, rfl⟩ := Prod.mk.inj (Option.some.inj (hparse.symm.trans hparse'))
  obtain ⟨stats, heq⟩ | ⟨limit, hsome, -⟩ := hend
  · cases r with
    | none => exact ⟨_, hderives⟩
    | some m => cases heq
  · rw [hlimit] at hsome
    cases hsome

/-- Where a definition fails no parse matches. -/
theorem not_matched_of_fails (hbuild : d.build = .ok g) (hx : d.definitions[id]? = some x)
    (h : Fails d.body? x.body (.atStart text)) {o : Options} {tree : Tree} {stats : Stats}
    {log : List Event} :
  parse? g o id text ≠ some (.matched tree stats, log)
  := by
  intro hparse
  obtain ⟨y, _, _, hy, hgrows, -⟩ := exists_grows_of_parse? hbuild hparse
  obtain rfl := Option.some.inj (hx.symm.trans hy)
  exact hgrows.not_fails h

end ClassTranscript.Peg
