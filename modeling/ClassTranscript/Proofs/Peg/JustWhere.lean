import ClassTranscript.Proofs.Peg.Matching
import ClassTranscript.Proofs.Peg.Taking

/-!
# Just where a rule matches

`Grammar.MatchesJust` says when a parse by the rule of a name matches and how far, limits apart. It
follows from what the rule takes and refuses (`matchesJust_of_takes`), since a grammar finds the
names of its draft under the same numbers (`LinkedFrom.ruleId?_eq`).
-/

namespace ClassTranscript.Peg

variable {d : Draft} {g : Grammar} {x : Definition} {text : String} {p : Prop}
  {taken rest : List Char}

/-- A parse by the rule of a name matches just where `p` holds, and then goes up to the end of
`taken`, unless it reaches a limit. -/
def Grammar.MatchesJust (g : Grammar) (name text : String) (p : Prop) (taken : List Char) : Prop :=
  ∃ id, g.ruleId? name = some id
    ∧ ∀ o, ∃ outcome log, parse? g o id text = some (outcome, log)
      ∧ (outcome.limit? = none →
        (p → ∃ tree stats, outcome = .matched tree stats ∧ tree.stop = Text.byteLength taken)
          ∧ (¬ p → ∃ m, outcome = .mismatched m))

/-- A grammar finds each name where its draft does. -/
theorem LinkedFrom.ruleId?_eq (h : LinkedFrom d g) :
  g.ruleId? = d.ruleId?
  := by
  have hrules : g.rules.toList.map (·.toDefinition) = d.definitions := by
    apply List.ext_getElem?
    intro id
    rw [List.getElem?_map, Array.getElem?_toList]
    cases hx : d.definitions[id]? with
    | none =>
        rw [List.getElem?_eq_none_iff, ← h.size] at hx
        rw [Array.getElem?_eq_none hx]
        rfl
    | some x =>
        obtain ⟨rule, hrule, rfl, -⟩ := h.rule hx
        rw [show g.rules[id]? = some rule from hrule]
        rfl
  funext name
  rw [Grammar.ruleId?, Draft.ruleId?, ← hrules, List.findIdx?_map, ← List.findIdx?_toArray,
    Array.toArray_toList]
  rfl

/-- Every definition is parsed by under its name. -/
theorem exists_ruleId_of_mem (hbuild : d.build = .ok g)
    (hnames : (d.definitions.map (·.name)).Nodup) (hx : x ∈ d.definitions) :
  ∃ id, g.ruleId? x.name = some id ∧ d.definitions[id]? = some x
    ∧ ∀ o text, ∃ outcome log, parse? g o id text = some (outcome, log)
  := by
  obtain ⟨id, hid, hid'⟩ := Draft.exists_ruleId? hnames hx
  have hlinked := Draft.linkedFrom_of_build hbuild
  refine ⟨id, by rw [hlinked.ruleId?_eq, hid], hid', ?_⟩
  intro o text
  obtain ⟨rule, r, e, hrule, hrun, -, -⟩ := Draft.exists_run hbuild hid' text
  obtain ⟨outcome, log, hparse, -⟩ := hrun.parse? hrule o
  exact ⟨outcome, log, hparse⟩

theorem Fails.of_rule {here : Cursor} (hnames : (d.definitions.map (·.name)).Nodup)
    (hx : x ∈ d.definitions) (h : Fails d.body? (.rule x.name) here) :
  Fails d.body? x.body here
  := by
  obtain ⟨_, h⟩ := h
  cases h with
  | misses he => cases he
  | rule hbody h =>
      obtain rfl := Option.some.inj ((Draft.body?_of_mem hnames hx).symm.trans hbody)
      exact ⟨_, h⟩

/-- A rule matches just where it takes something and does not refuse the text. -/
theorem matchesJust_of_takes (hbuild : d.build = .ok g)
    (hnames : (d.definitions.map (·.name)).Nodup) (hx : x ∈ d.definitions)
    (htext : text.toList = taken ++ rest)
    (htakes : p → Takes d text (.rule x.name) taken rest AnyNodes)
    (hrefuses : ¬ p → Refuses d text (.rule x.name) (taken ++ rest)) :
  g.MatchesJust x.name text p taken
  := by
  obtain ⟨id, hid, hid', hparses⟩ := exists_ruleId_of_mem hbuild hnames hx
  refine ⟨id, hid, ?_⟩
  intro o
  obtain ⟨outcome, log, hparse⟩ := hparses o text
  refine ⟨outcome, log, hparse, ?_⟩
  intro hlimit
  constructor
  · intro hp
    obtain ⟨_, hgrows, -⟩ := htakes hp _ (.refl _) htext
    obtain ⟨_, inside, -, -, hbody⟩ := hgrows.of_rule hnames hx
    cases outcome with
    | matched tree stats =>
        obtain ⟨y, there, nodes, hy, hmatch, hstop, -⟩ := exists_grows_of_parse? hbuild hparse
        obtain rfl := Option.some.inj (hid'.symm.trans hy)
        obtain ⟨rfl, -⟩ := hbody.unique hmatch
        refine ⟨tree, stats, rfl, ?_⟩
        rw [← hstop]
        exact Nat.zero_add _
    | mismatched m =>
        exact absurd (fails_of_mismatched hbuild hid' hparse hlimit) hbody.not_fails
  · intro hp
    cases outcome with
    | matched tree stats =>
        obtain ⟨y, there, nodes, hy, hmatch, -, -⟩ := exists_grows_of_parse? hbuild hparse
        obtain rfl := Option.some.inj (hid'.symm.trans hy)
        exact absurd ((hrefuses hp _ (.refl _) htext).of_rule hnames hx) hmatch.not_fails
    | mismatched m => exact ⟨m, rfl⟩

/-- With enough of all limits a rule matches what it takes. -/
theorem exists_matched_of_takes (hbuild : d.build = .ok g)
    (hnames : (d.definitions.map (·.name)).Nodup) (hx : x ∈ d.definitions)
    (htext : text.toList = taken ++ rest)
    (htakes : Takes d text (.rule x.name) taken rest AnyNodes) :
  ∃ id, g.ruleId? x.name = some id ∧ ∃ n, ∀ o : Options,
    n ≤ o.limits.depth → n ≤ o.limits.steps → n ≤ o.limits.entries →
      ∃ tree stats log, parse? g o id text = some (.matched tree stats, log)
        ∧ tree.stop = Text.byteLength taken
  := by
  obtain ⟨id, hid, hid', -⟩ := exists_ruleId_of_mem hbuild hnames hx
  obtain ⟨_, hgrows, -⟩ := htakes _ (.refl _) htext
  obtain ⟨_, inside, -, -, hbody⟩ := hgrows.of_rule hnames hx
  obtain ⟨n, hn⟩ := exists_matched_of_grows hbuild hid' hbody
  refine ⟨id, hid, n, ?_⟩
  intro o hdepth hsteps hentries
  obtain ⟨tree, stats, log, hparse, -⟩ := hn o hdepth hsteps hentries
  obtain ⟨y, there, nodes, hy, hmatch, hstop, -⟩ := exists_grows_of_parse? hbuild hparse
  obtain rfl := Option.some.inj (hid'.symm.trans hy)
  obtain ⟨rfl, -⟩ := hbody.unique hmatch
  exact ⟨tree, stats, log, hparse, hstop.symm.trans (Nat.zero_add _)⟩

end ClassTranscript.Peg
