import ClassTranscript.Proofs.Peg.Acyclic
import ClassTranscript.Proofs.Peg.Linking
import ClassTranscript.Proofs.Peg.NullableRules

/-!
# What a draft that builds makes

`Building d r` lists the ways in which the checks of a draft can come out, and `building_build` says
that the draft builds in one of them. A draft that builds makes a grammar of its definitions, linked
(`Draft.linkedFrom_of_build`), and the conditions that it has met certify that the grammar can be run
to completion (`Draft.exists_certificate_of_build`).
-/

namespace ClassTranscript.Peg

namespace Draft

variable {d : Draft} {g : Grammar} {root : RuleId} {bodies : List Op} {name : String}

/-! ### Outcomes -/

/-- The rules of a draft with linked bodies. -/
def rulesWith (d : Draft) (bodies : List Op) : List Rule :=
  assemble d.definitions bodies (nullableRules bodies)

/-- The graph of the leading calls of linked bodies. -/
def leadingGraph (bodies : List Op) : List (List RuleId) :=
  bodies.map (Op.leadingCalls (flagged (nullableRules bodies)))

/-- The draft has passed the checks up to the linking of its bodies. -/
structure Linked (d : Draft) (root : RuleId) (bodies : List Op) : Prop where
  redefined : d.redefined = none
  nonempty : d.definitions ≠ []
  rootId : d.rootId = .ok root
  bodies : linkBodies d.ruleId? d.definitions = .ok bodies

/-- How the checks of a draft can come out. -/
inductive Building (d : Draft) : Except GrammarError Grammar → Prop where
  | redefined {name : String} :
    d.redefined = some name → Building d (.error (.duplicateRule name))
  | empty : d.redefined = none → d.definitions = [] → Building d (.error .empty)
  | unknownRoot {name : String} :
    d.redefined = none → d.definitions ≠ [] → d.root = some name → d.ruleId? name = none →
    Building d (.error (.unknownRoot name))
  | unlinked {root : RuleId} {e : GrammarError} :
    d.redefined = none → d.definitions ≠ [] → d.rootId = .ok root →
    linkBodies d.ruleId? d.definitions = .error e → Building d (.error e)
  | repeats {root : RuleId} {bodies : List Op} {rule : Rule} :
    Linked d root bodies →
    (d.rulesWith bodies).find? (·.op.repeatsNullable (flagged (nullableRules bodies))) = some rule →
    Building d (.error (.nullableRepetition rule.name))
  | recursive {root : RuleId} {bodies : List Op} {cycle : List RuleId} :
    Linked d root bodies →
    (d.rulesWith bodies).find? (·.op.repeatsNullable (flagged (nullableRules bodies))) = none →
    findCycle (leadingGraph bodies) = some cycle →
    Building d (.error (.leftRecursion (cycle.filterMap fun id =>
      (d.rulesWith bodies)[id]?.map (·.name))))
  | done {root : RuleId} {bodies : List Op} :
    Linked d root bodies →
    (d.rulesWith bodies).find? (·.op.repeatsNullable (flagged (nullableRules bodies))) = none →
    findCycle (leadingGraph bodies) = none →
    Building d (.ok ⟨(d.rulesWith bodies).toArray, root⟩)

theorem rootId_eq_error {e : GrammarError} (h : d.rootId = .error e) :
  ∃ name, d.root = some name ∧ d.ruleId? name = none ∧ e = .unknownRoot name
  := by
  unfold rootId at h
  split at h
  · cases h
  · rename_i name hroot
    split at h
    · cases h
    · rename_i hid
      exact ⟨name, hroot, hid, (Except.error.inj h).symm⟩

/-- A draft that passes the last checks too builds. -/
theorem Linked.build_eq_ok (h : Linked d root bodies)
    (hrepeats : (d.rulesWith bodies).find?
      (·.op.repeatsNullable (flagged (nullableRules bodies))) = none)
    (hcycle : findCycle (leadingGraph bodies) = none) :
  d.build = .ok ⟨(d.rulesWith bodies).toArray, root⟩
  := by
  have hnonempty : d.definitions.isEmpty = false := by simpa using h.nonempty
  rw [rulesWith] at hrepeats ⊢
  rw [leadingGraph] at hcycle
  simp only [build, h.redefined, hnonempty, h.rootId, h.bodies, bind, Except.bind,
    Bool.false_eq_true, if_false, hrepeats, hcycle]
  rfl

/-- What is left to check once the bodies are linked. -/
theorem Linked.building (h : Linked d root bodies) :
  Building d d.build
  := by
  have hnonempty : d.definitions.isEmpty = false := by simpa using h.nonempty
  simp only [build, h.redefined, hnonempty, h.rootId, h.bodies, bind, Except.bind,
    Bool.false_eq_true, if_false]
  cases hrepeats : (assemble d.definitions bodies (nullableRules bodies)).find?
      (·.op.repeatsNullable (flagged (nullableRules bodies))) with
  | some rule => exact .repeats h hrepeats
  | none =>
      cases hcycle : findCycle
          (bodies.map (Op.leadingCalls (flagged (nullableRules bodies)))) with
      | some cycle => exact .recursive h hrepeats hcycle
      | none => exact .done h hrepeats hcycle

theorem build_of_redefined (h : d.redefined = some name) :
  d.build = .error (.duplicateRule name)
  := by
  rw [build, h]
  rfl

theorem building_build (d : Draft) :
  Building d d.build
  := by
  cases hredefined : d.redefined with
  | some name =>
      rw [build_of_redefined hredefined]
      exact .redefined hredefined
  | none =>
      cases hdefinitions : d.definitions with
      | nil =>
          rw [show d.build = .error .empty by simp [build, hredefined, hdefinitions]; rfl]
          exact .empty hredefined hdefinitions
      | cons x xs =>
          have hnonempty : d.definitions ≠ [] := by simp [hdefinitions]
          cases hroot : d.rootId with
          | error e =>
              obtain ⟨name, hname, hid, rfl⟩ := rootId_eq_error hroot
              rw [show d.build = .error (.unknownRoot name) by
                simp [build, hredefined, hdefinitions, hroot]; rfl]
              exact .unknownRoot hredefined hnonempty hname hid
          | ok root =>
              cases hbodies : linkBodies d.ruleId? d.definitions with
              | error e =>
                  rw [show d.build = .error e by
                    simp [build, hredefined, hnonempty, hroot, hbodies]; rfl]
                  exact .unlinked hredefined hnonempty hroot hbodies
              | ok bodies => exact Linked.building ⟨hredefined, hnonempty, hroot, hbodies⟩

/-- What a draft that builds has passed. -/
theorem build_eq_ok (h : d.build = .ok g) :
  ∃ bodies, Linked d g.root bodies
    ∧ (d.rulesWith bodies).find? (·.op.repeatsNullable (flagged (nullableRules bodies))) = none
    ∧ findCycle (leadingGraph bodies) = none
    ∧ g.rules = (d.rulesWith bodies).toArray
  := by
  have hbuilding := building_build d
  rw [h] at hbuilding
  cases hbuilding with
  | done hlinked hrepeats hcycle => exact ⟨_, hlinked, hrepeats, hcycle, rfl⟩

/-! ### Linked bodies -/

/-- Bodies are linked one by one, in order. -/
theorem linkBodies_forall₂ {ruleOf : String → Option RuleId} {xs : List Definition}
    (h : linkBodies ruleOf xs = .ok bodies) :
  List.Forall₂ (fun x op => x.body.link ruleOf = .ok op) xs bodies
  := by
  induction xs generalizing bodies with
  | nil =>
      obtain rfl := Except.ok.inj h
      exact .nil
  | cons x xs ih =>
      rw [linkBodies] at h
      split at h
      · cases h
      · rename_i hop
        obtain ⟨ops, hops, rfl⟩ := exists_of_map_eq_ok h
        exact .cons hop (ih hops)

theorem length_assemble {xs : List Definition} {flags : List Bool}
    (hbodies : bodies.length = xs.length) (hflags : flags.length = xs.length) :
  (assemble xs bodies flags).length = xs.length
  := by
  rw [assemble, List.length_map, List.length_zip, List.length_zip, hbodies, hflags, Nat.min_self,
    Nat.min_self]

/-- The rule of a number has the definition and the body of that number. -/
theorem getElem?_assemble {xs : List Definition} {flags : List Bool} {id : RuleId} {rule : Rule}
    (h : (assemble xs bodies flags)[id]? = some rule) :
  xs[id]? = some rule.toDefinition ∧ bodies[id]? = some rule.op
  := by
  rw [assemble, List.getElem?_map, Option.map_eq_some_iff] at h
  obtain ⟨⟨x, op, flag⟩, hzip, rfl⟩ := h
  obtain ⟨hx, hzip⟩ := List.getElem?_zip_eq_some.mp hzip
  exact ⟨hx, (List.getElem?_zip_eq_some.mp hzip).1⟩

/-- The nullability of a rule is its flag. -/
theorem flagged_assemble {xs : List Definition} {flags : List Bool} {id : RuleId} {rule : Rule}
    (h : (assemble xs bodies flags)[id]? = some rule) :
  flagged flags id = rule.nullable
  := by
  rw [assemble, List.getElem?_map, Option.map_eq_some_iff] at h
  obtain ⟨⟨x, op, flag⟩, hzip, rfl⟩ := h
  obtain ⟨-, hzip⟩ := List.getElem?_zip_eq_some.mp hzip
  rw [flagged, List.getD_eq_getElem?_getD, (List.getElem?_zip_eq_some.mp hzip).2, Option.getD_some]

/-! ### Grammars of drafts -/

/-- A draft that builds makes a grammar of its definitions. -/
theorem linkedFrom_of_build (h : d.build = .ok g) :
  LinkedFrom d g
  := by
  obtain ⟨bodies, ⟨-, -, -, hbodies⟩, -, -, hrules⟩ := build_eq_ok h
  have hlinked := linkBodies_forall₂ hbodies
  have hlength : (d.rulesWith bodies).length = d.definitions.length := by
    apply length_assemble hlinked.length_eq.symm
    rw [length_nullableRules, hlinked.length_eq]
  constructor
  · rw [hrules, List.size_toArray, hlength]
  · intro id x hx
    obtain ⟨hid, -⟩ := List.getElem?_eq_some_iff.mp hx
    have hrule := List.getElem?_eq_getElem (hlength.symm ▸ hid)
    generalize (d.rulesWith bodies)[id] = rule at hrule
    obtain ⟨hdefinition, hop⟩ := getElem?_assemble hrule
    obtain ⟨hid', hop⟩ := List.getElem?_eq_some_iff.mp hop
    use rule
    refine ⟨?_, ?_, ?_⟩
    · rw [Grammar.rule?, hrules, List.getElem?_toArray, hrule]
    · apply Option.some.inj (hdefinition.symm.trans hx)
    · rw [← hop, ← (List.getElem?_eq_some_iff.mp hx).2]
      apply hlinked.get hid hid'

/-- The conditions on a draft are enough to run its grammar to completion, and only the rules that
are nullable by their flags may match without consuming input. -/
theorem exists_certificate_of_flags (h : d.build = .ok g) :
  ∃ c : Certificate g, ∀ id rule, g.rule? id = some rule → c.nullable id = rule.nullable
  := by
  obtain ⟨bodies, ⟨-, -, -, hbodies⟩, hrepeats, hcycle, hrules⟩ := build_eq_ok h
  have hlength := (linkBodies_forall₂ hbodies).length_eq
  have hsize : g.rules.size = bodies.length := by
    rw [(linkedFrom_of_build h).size, hlength]
  obtain ⟨rank, hrank⟩ := exists_rank_of_findCycle hcycle
  rw [leadingGraph, List.length_map, ← hsize] at hrank
  have hrule {id : RuleId} {rule : Rule} (hrule : g.rule? id = some rule) :
      id < g.rules.size ∧ rule ∈ d.rulesWith bodies ∧ bodies[id]? = some rule.op := by
    rw [Grammar.rule?, hrules, List.getElem?_toArray] at hrule
    have hop := (getElem?_assemble hrule).2
    rw [hsize]
    exact ⟨(List.getElem?_eq_some_iff.mp hop).1, List.mem_of_getElem? hrule, hop⟩
  use
    { nullable := flagged (nullableRules bodies)
      rank := rank
      nullable_of_op := fun hid hnullable => by
        obtain ⟨-, -, hop⟩ := hrule hid
        rw [flagged_nullableRules hop, hnullable]
      repeatsNullable := fun hid => by
        obtain ⟨-, hmem, -⟩ := hrule hid
        simpa using List.find?_eq_none.mp hrepeats _ hmem
      rank_lt_size := fun hid => (hrank _ (hrule hid).1).1
      rank_lt := fun {id callee rule rule'} hid hcallee hmem => by
        apply (hrank id (hrule hid).1).2 callee _ (hrule hcallee).1
        rw [List.getD_eq_getElem?_getD, List.getElem?_map, (hrule hid).2.2, Option.map_some,
          Option.getD_some]
        apply hmem }
  intro id rule hid
  rw [Grammar.rule?, hrules, List.getElem?_toArray] at hid
  apply flagged_assemble hid

theorem exists_certificate_of_build (h : d.build = .ok g) :
  Nonempty (Certificate g)
  := by
  obtain ⟨c, -⟩ := exists_certificate_of_flags h
  exact ⟨c⟩

end Draft

end ClassTranscript.Peg
