import ClassTranscript.Proofs.Peg.Build
import ClassTranscript.Proofs.Peg.Inversion
import ClassTranscript.Proofs.Peg.LinkedForm

/-!
# The checks of a draft decide well-formedness

Each way in which the checks of a draft can come out (`Building`) says the same of the linked
bodies, with rules taken by number, as a condition of `WellFormed` or a case of `FirstFailure` says
of the definitions as they are written: the flags are the nullable references
(`Linked.nullable_iff`), and the graph of leading calls is that of the calls between names
(`Linked.succeeds_iff`). So a draft without redefinitions builds if its definitions are well formed,
and fails with the first condition that they do not meet (`Building.verdict`).
-/

namespace ClassTranscript.Peg

open Relation

namespace Draft

variable {d : Draft} {root : RuleId} {bodies : List Op} {name : String} {id : RuleId}
  {x : Definition}

/-! ### Names and numbers -/

theorem ruleId?_eq_none_iff :
  d.ruleId? name = none ↔ name ∉ namesOf d.definitions
  := by
  simp only [ruleId?, List.findIdx?_eq_none_iff, namesOf, List.mem_map, not_exists, not_and,
    beq_eq_false_iff_ne, ne_eq]

/-- Where the names are all different, the number of a definition is that of its name. -/
theorem ruleId?_eq_some (hnames : (namesOf d.definitions).Nodup)
    (hx : d.definitions[id]? = some x) :
  d.ruleId? x.name = some id
  := by
  obtain ⟨id', hid, hx'⟩ := exists_ruleId? hnames (List.mem_of_getElem? hx)
  have hbound := (List.getElem?_eq_some_iff.mp hx').1
  have heq : id' = id := by
    apply (List.getElem?_inj (by simpa [namesOf] using hbound) hnames).mp
    rw [namesOf, List.getElem?_map, List.getElem?_map, hx, hx']
  rw [hid, heq]

/-- The number of a name, or 0. -/
def numberOf (d : Draft) (name : String) : RuleId :=
  (d.ruleId? name).getD 0

/-- The name of the definition of a number. -/
def nameAt (d : Draft) (id : RuleId) : String :=
  ((d.definitions[id]?).map (·.name)).getD ""

theorem nameAt_eq (h : d.definitions[id]? = some x) :
  d.nameAt id = x.name
  := by
  rw [nameAt, h, Option.map_some, Option.getD_some]

namespace Linked

variable {e : Expr} {op : Op}

/-- A definition has a linked body of the same number. -/
theorem exists_body (h : Linked d root bodies) (hx : d.definitions[id]? = some x) :
  ∃ op, bodies[id]? = some op ∧ x.body.link d.ruleId? = .ok op
  := exists_getElem?_of_forall₂ (linkBodies_forall₂ h.bodies) hx

/-- A linked body is that of the definition of the same number. -/
theorem exists_definition (h : Linked d root bodies) (hop : bodies[id]? = some op) :
  ∃ x, d.definitions[id]? = some x ∧ x.body.link d.ruleId? = .ok op
  := exists_getElem?_of_forall₂ (linkBodies_forall₂ h.bodies).flip hop

/-- The flags are those of the nullable references. -/
theorem nullable_iff (h : Linked d root bodies) (hlink : e.link d.ruleId? = .ok op) :
  op.nullable (flagged (nullableRules bodies)) = true ↔ e.Nullable (bodyOf d.definitions)
  := by
  constructor
  · apply Expr.nullable_of_link _ hlink
    intro name id hid hflag
    have hleast : ∀ name, d.ruleId? name = some id →
        Expr.Nullable (bodyOf d.definitions) (.rule name) := by
      apply nullableRules_induction (P := fun id => ∀ name, d.ruleId? name = some id →
        Expr.Nullable (bodyOf d.definitions) (.rule name)) _ hflag
      intro id op known hop hknown hnullable name hid
      obtain ⟨x, hx, hlink⟩ := h.exists_definition hop
      apply Expr.Nullable.rule (body?_of_definition hid hx)
      apply Expr.nullable_of_link _ hlink hnullable
      intro callee id hid hflag
      apply hknown id hflag callee hid
    apply hleast name hid
  · intro hnullable
    apply Expr.nullable_link _ hnullable hlink
    intro name id body hid hbody
    obtain ⟨x, hx, hbody'⟩ := body?_of_ruleId? hid
    obtain rfl := Option.some.inj (hbody'.symm.trans hbody)
    obtain ⟨op, hop, hlink⟩ := h.exists_body hx
    refine ⟨op, hlink, ?_⟩
    rw [flagged_nullableRules hop]
    exact fun hnullable => hnullable

/-- The leading calls of a linked expression are the rules to which the expression leads. -/
theorem mem_leadingCalls_iff (h : Linked d root bodies) (hlink : e.link d.ruleId? = .ok op) :
  id ∈ op.leadingCalls (flagged (nullableRules bodies)) ↔
    ∃ name, e.Leads (bodyOf d.definitions) name ∧ d.ruleId? name = some id
  := Expr.mem_leadingCalls_link_iff (fun _ _ => h.nullable_iff) hlink

/-- A rule comes after another in the graph of leading calls when the name of the one calls that of
the other. -/
theorem succeeds_iff (h : Linked d root bodies) (hnames : (namesOf d.definitions).Nodup)
    {callee : RuleId} :
  Succeeds (leadingGraph bodies) id callee ↔
    ∃ x y, d.definitions[id]? = some x ∧ d.definitions[callee]? = some y
      ∧ Calls d.definitions x.name y.name
  := by
  constructor
  · intro hcall
    rw [Succeeds, leadingGraph, List.getD_eq_getElem?_getD, List.getElem?_map] at hcall
    cases hop : bodies[id]? with
    | none => simp [hop] at hcall
    | some op =>
        rw [hop] at hcall
        obtain ⟨x, hx, hlink⟩ := h.exists_definition hop
        obtain ⟨name, hleads, hcallee⟩ := (h.mem_leadingCalls_iff hlink).mp hcall
        obtain ⟨y, hy, -⟩ := body?_of_ruleId? hcallee
        obtain rfl := name_of_ruleId? hcallee hy
        exact ⟨x, y, hx, hy, x, List.mem_of_getElem? hx, rfl, hleads⟩
  · rintro ⟨x, y, hx, hy, x', hx', hname, hleads⟩
    obtain rfl := eq_of_name hnames hx' (List.mem_of_getElem? hx) hname
    obtain ⟨op, hop, hlink⟩ := h.exists_body hx
    rw [Succeeds, leadingGraph, List.getD_eq_getElem?_getD, List.getElem?_map, hop]
    apply (h.mem_leadingCalls_iff hlink).mpr
    exact ⟨y.name, hleads, ruleId?_eq_some hnames hy⟩

/-- Where one name calls another, the rule of the one comes before that of the other. -/
theorem succeeds_numberOf (h : Linked d root bodies) (hnames : (namesOf d.definitions).Nodup)
    {callee : String} (hcalls : Calls d.definitions name callee) :
  Succeeds (leadingGraph bodies) (d.numberOf name) (d.numberOf callee)
  := by
  obtain ⟨x, hx, rfl, hleads⟩ := hcalls
  obtain ⟨id, hid, hx'⟩ := exists_ruleId? hnames hx
  obtain ⟨op, -, hlink⟩ := h.exists_body hx'
  obtain ⟨id', hid'⟩ := Expr.exists_of_mem_refs hlink hleads.mem_refs
  obtain ⟨y, hy, -⟩ := body?_of_ruleId? hid'
  rw [numberOf, numberOf, hid, hid', Option.getD_some, Option.getD_some, h.succeeds_iff hnames]
  refine ⟨x, y, hx', hy, x, hx, rfl, ?_⟩
  rw [name_of_ruleId? hid' hy]
  apply hleads

/-- Where one rule comes after another, the name of the one calls that of the other. -/
theorem calls_nameAt (h : Linked d root bodies) (hnames : (namesOf d.definitions).Nodup)
    {callee : RuleId} (hcall : Succeeds (leadingGraph bodies) id callee) :
  Calls d.definitions (d.nameAt id) (d.nameAt callee)
  := by
  obtain ⟨x, y, hx, hy, hcalls⟩ := (h.succeeds_iff hnames).mp hcall
  rw [nameAt_eq hx, nameAt_eq hy]
  apply hcalls

/-- A name leads into a cycle of calls exactly when the rule of that name does. -/
theorem leadsIntoCycle_iff (h : Linked d root bodies) (hnames : (namesOf d.definitions).Nodup)
    (hx : d.definitions[id]? = some x) :
  LeadsIntoCycle (Calls d.definitions) x.name ↔ LeadsIntoCycle (Succeeds (leadingGraph bodies)) id
  := by
  constructor
  · intro hleads
    have hid : d.numberOf x.name = id := by
      rw [numberOf, ruleId?_eq_some hnames hx, Option.getD_some]
    rw [← hid]
    apply hleads.map
    exact fun _ _ => h.succeeds_numberOf hnames
  · intro hleads
    rw [← nameAt_eq hx]
    apply hleads.map
    exact fun _ _ => h.calls_nameAt hnames

/-- No name leads back to itself exactly when no rule does. -/
theorem acyclic_of_findCycle (h : Linked d root bodies) (hnames : (namesOf d.definitions).Nodup)
    (hfind : findCycle (leadingGraph bodies) = none) (name : String) :
  ¬ TransGen (Calls d.definitions) name name
  := by
  intro hcycle
  apply findCycle_eq_none_iff.mp hfind (d.numberOf name)
  apply hcycle.lift d.numberOf
  exact fun _ _ => h.succeeds_numberOf hnames

/-! ### Verdicts -/

theorem mem_rulesWith (h : Linked d root bodies) {rule : Rule} (hrule : rule ∈ d.rulesWith bodies) :
  rule.body.link d.ruleId? = .ok rule.op
  := by
  obtain ⟨id, hid⟩ := List.mem_iff_getElem?.mp hrule
  obtain ⟨hx, hop⟩ := getElem?_assemble hid
  obtain ⟨op, hop', hlink⟩ := h.exists_body hx
  obtain rfl := Option.some.inj (hop'.symm.trans hop)
  apply hlink

theorem definitions_rulesWith (h : Linked d root bodies) :
  (d.rulesWith bodies).map (·.toDefinition) = d.definitions
  := by
  have hlength := (linkBodies_forall₂ h.bodies).length_eq
  rw [rulesWith, assemble, List.map_map]
  apply List.map_fst_zip
  rw [List.length_zip, length_nullableRules, hlength, Nat.min_self]

theorem repeats_iff (h : Linked d root bodies) {rule : Rule} (hrule : rule ∈ d.rulesWith bodies) :
  rule.op.repeatsNullable (flagged (nullableRules bodies)) = true ↔
    rule.body.RepeatsNullable (bodyOf d.definitions)
  := Expr.repeatsNullable_link_iff (fun _ _ => h.nullable_iff) (h.mem_rulesWith hrule)

/-- The rule that is reported for a repetition is the first that has one. -/
theorem first_of_find? (h : Linked d root bodies) {rule : Rule}
    (hfind : (d.rulesWith bodies).find? (·.op.repeatsNullable (flagged (nullableRules bodies)))
      = some rule) :
  First (fun x => x.body.RepeatsNullable (bodyOf d.definitions)) d.definitions rule.toDefinition
  := by
  have hfirst := (First.of_find? hfind).map (f := (·.toDefinition))
    (q := fun x => x.body.RepeatsNullable (bodyOf d.definitions)) fun _ => h.repeats_iff
  rwa [h.definitions_rulesWith] at hfirst

theorem advancing_of_find? (h : Linked d root bodies)
    (hfind : (d.rulesWith bodies).find? (·.op.repeatsNullable (flagged (nullableRules bodies)))
      = none) :
  Advancing d.definitions
  := by
  intro x hx
  rw [← h.definitions_rulesWith] at hx
  obtain ⟨rule, hrule, rfl⟩ := List.mem_map.mp hx
  rw [← h.repeats_iff hrule]
  exact List.find?_eq_none.mp hfind rule hrule

theorem refsDefined (h : Linked d root bodies) :
  RefsDefined d.definitions
  := by
  intro x hx name hname
  obtain ⟨op, -, hlink⟩ := exists_of_forall₂ (linkBodies_forall₂ h.bodies) hx
  obtain ⟨id, hid⟩ := Expr.exists_of_mem_refs hlink hname
  by_contra hnone
  rw [ruleId?_eq_none_iff.mpr hnone] at hid
  cases hid

/-- The names of a cycle of rules. -/
theorem names_of_cycle (h : Linked d root bodies) (hnames : (namesOf d.definitions).Nodup)
    {cycle : List RuleId} (hcycle : IsCycle (Succeeds (leadingGraph bodies)) cycle) :
  cycle.filterMap (fun id => (d.rulesWith bodies)[id]?.map (·.name)) = cycle.map d.nameAt
  := by
  rw [List.filterMap_eq_map_iff_forall_eq_some]
  intro id hid
  obtain ⟨callee, hstep⟩ := hcycle.exists_step hid
  obtain ⟨x, -, hx, -⟩ := (h.succeeds_iff hnames).mp hstep
  rw [nameAt_eq hx]
  rw [← h.definitions_rulesWith, List.getElem?_map, Option.map_eq_some_iff] at hx
  obtain ⟨rule, hrule, rfl⟩ := hx
  rw [hrule, Option.map_some]

/-- The cycle that is found among the rules is one of the calls between their names, and the first
definition that leads into any leads into it. -/
theorem cycle_of_findCycle (h : Linked d root bodies) (hnames : (namesOf d.definitions).Nodup)
    {cycle : List RuleId} (hfind : findCycle (leadingGraph bodies) = some cycle) :
  IsCycle (Calls d.definitions) (cycle.map d.nameAt)
    ∧ ∃ x, First (fun x => LeadsIntoCycle (Calls d.definitions) x.name) d.definitions x
      ∧ ∃ name ∈ cycle.map d.nameAt, ReflTransGen (Calls d.definitions) x.name name
  := by
  obtain ⟨hcycle, first, hlt, ⟨id, hid, hreach⟩, hbefore⟩ := Peg.cycle_of_findCycle hfind
  have hexists (a : RuleId) (ha : a ∈ cycle) : ∃ x, d.definitions[a]? = some x := by
    obtain ⟨callee, hstep⟩ := hcycle.exists_step ha
    obtain ⟨x, -, hx, -⟩ := (h.succeeds_iff hnames).mp hstep
    exact ⟨x, hx⟩
  rw [leadingGraph, List.length_map, ← (linkBodies_forall₂ h.bodies).length_eq] at hlt
  have hx := List.getElem?_eq_getElem hlt
  refine ⟨?_, d.definitions[first], ?_, d.nameAt id, List.mem_map_of_mem hid, ?_⟩
  · apply hcycle.map fun _ _ => h.calls_nameAt hnames
    intro a ha b hb heq
    obtain ⟨x, hx⟩ := hexists a ha
    obtain ⟨y, hy⟩ := hexists b hb
    rw [nameAt_eq hx, nameAt_eq hy] at heq
    have hname := ruleId?_eq_some hnames hx
    rw [heq, ruleId?_eq_some hnames hy] at hname
    apply (Option.some.inj hname).symm
  · apply First.of_getElem? hx
    · rw [h.leadsIntoCycle_iff hnames hx]
      obtain ⟨b, hrest, hback⟩ := hcycle.leadsIntoCycle hid
      exact ⟨b, hreach.trans hrest, hback⟩
    · intro j hj y hy
      rw [h.leadsIntoCycle_iff hnames hy]
      apply hbefore j hj
  · rw [← nameAt_eq hx]
    apply hreach.lift
    exact fun _ _ => h.calls_nameAt hnames

end Linked

/-- The root that is found is the rule of the root's name, or the first rule. -/
theorem rootId_eq_ok (h : d.rootId = .ok root) :
  (d.root = none ∧ root = 0) ∨ ∃ name, d.root = some name ∧ d.ruleId? name = some root
  := by
  unfold rootId at h
  split at h
  · rename_i hnone
    exact .inl ⟨hnone, (Except.ok.inj h).symm⟩
  · rename_i name hname
    split at h
    · rename_i id hid
      obtain rfl := Except.ok.inj h
      exact .inr ⟨name, hname, hid⟩
    · cases h

theorem rootDefined (h : d.rootId = .ok root) :
  RootDefined d.definitions d.root
  := by
  intro name hname
  by_contra hnone
  obtain ⟨hroot, -⟩ | ⟨name', hroot, hid⟩ := rootId_eq_ok h
  · rw [hroot] at hname
    cases hname
  · rw [hroot] at hname
    obtain rfl := Option.some.inj hname
    rw [ruleId?_eq_none_iff.mpr hnone] at hid
    cases hid

theorem linkBodies_eq_error {ruleOf : String → Option RuleId} {xs : List Definition}
    {e : GrammarError} (h : linkBodies ruleOf xs = .error e) :
  ∃ before x after name, xs = before ++ x :: after
    ∧ (∀ y ∈ before, ∃ op, y.body.link ruleOf = .ok op) ∧ x.body.link ruleOf = .error name
    ∧ e = .undefinedRule x.name name
  := by
  induction xs with
  | nil => cases h
  | cons x xs ih =>
      rw [linkBodies] at h
      split at h
      · rename_i name hname
        exact ⟨[], x, xs, name, rfl, by simp, hname, (Except.error.inj h).symm⟩
      · rename_i op hop
        obtain ⟨before, y, after, name, rfl, hbefore, hname, rfl⟩ := ih (eq_error_of_map h)
        have hall := List.forall_mem_cons.mpr ⟨⟨op, hop⟩, hbefore⟩
        exact ⟨x :: before, y, after, name, rfl, hall, hname, rfl⟩

/-- The reference that is reported is the leftmost undefined one of the first definition that has
one. -/
theorem first_of_linkBodies {e : GrammarError}
    (h : linkBodies d.ruleId? d.definitions = .error e) :
  ∃ x name, e = .undefinedRule x.name name
    ∧ First (fun x => ∃ name ∈ x.body.refs, name ∉ namesOf d.definitions) d.definitions x
    ∧ First (· ∉ namesOf d.definitions) x.body.refs name
  := by
  obtain ⟨before, x, after, name, hsplit, hbefore, hname, rfl⟩ := linkBodies_eq_error h
  obtain ⟨front, back, hrefs, hundefined, hfront⟩ := Expr.first_of_link_eq_error hname
  simp only [ruleId?_eq_none_iff] at hundefined hfront
  refine ⟨x, name, rfl, ⟨before, after, hsplit, ⟨name, ?_, hundefined⟩, ?_⟩,
    ⟨front, back, hrefs, hundefined, hfront⟩⟩
  · rw [hrefs]
    simp
  · rintro y hy ⟨callee, hcallee, hnone⟩
    obtain ⟨op, hop⟩ := hbefore y hy
    obtain ⟨id, hid⟩ := Expr.exists_of_mem_refs hop hcallee
    rw [ruleId?_eq_none_iff.mpr hnone] at hid
    cases hid

end Draft

/-- What an outcome should say of definitions and a root: a grammar has the definitions for its
rules, in order, and its root is the rule of the root's name, or the first rule where none is
named. -/
def Verdict (xs : List Definition) (root : Option String) : Except GrammarError Grammar → Prop
  | .error e => FirstFailure xs root e
  | .ok g =>
    WellFormed xs root ∧ g.rules.toList.map (·.toDefinition) = xs
      ∧ (root = none → g.root = 0)
      ∧ ∀ name ∈ root, ∃ rule, g.rule? g.root = some rule ∧ rule.name = name

/-- The outcome of a draft whose names are all different is right. -/
theorem Draft.verdict {d : Draft} (hredefined : d.redefined = none)
    (hnames : (namesOf d.definitions).Nodup) :
  Verdict d.definitions d.root d.build
  := by
  have hbuilding := d.building_build
  generalize d.build = r at hbuilding ⊢
  cases hbuilding with
  | redefined h =>
      rw [hredefined] at h
      cases h
  | empty _ h => exact .empty h
  | unknownRoot _ hnonempty hroot hid =>
      exact .unknownRoot hnames hnonempty hroot (ruleId?_eq_none_iff.mp hid)
  | unlinked _ hnonempty hroot h =>
      obtain ⟨x, name, rfl, hx, hname⟩ := first_of_linkBodies h
      exact .undefinedRule hnames hnonempty (rootDefined hroot) hx hname
  | repeats h hfind =>
      exact .nullableRepetition hnames h.nonempty (rootDefined h.rootId) h.refsDefined
        (h.first_of_find? hfind)
  | recursive h hfind hcycle =>
      obtain ⟨hwalk, x, hfirst, hreach⟩ := h.cycle_of_findCycle hnames hcycle
      rw [h.names_of_cycle hnames (cycle_of_findCycle hcycle).1]
      exact .leftRecursion hnames h.nonempty (rootDefined h.rootId) h.refsDefined
        (h.advancing_of_find? hfind) hwalk hfirst hreach
  | @done root bodies h hfind hcycle =>
      refine ⟨⟨hnames, h.nonempty, rootDefined h.rootId, h.refsDefined, h.advancing_of_find? hfind,
        h.acyclic_of_findCycle hnames hcycle⟩, h.definitions_rulesWith, ?_, ?_⟩
      · intro hnone
        obtain ⟨-, hroot⟩ | ⟨name, hroot, -⟩ := rootId_eq_ok h.rootId
        · apply hroot
        · rw [hnone] at hroot
          cases hroot
      · intro name hname
        obtain ⟨hnone, -⟩ | ⟨name', hroot, hid⟩ := rootId_eq_ok h.rootId
        · rw [hnone] at hname
          cases hname
        · rw [hroot] at hname
          obtain rfl := Option.some.inj hname
          obtain ⟨x, hx, -⟩ := body?_of_ruleId? hid
          obtain rfl := name_of_ruleId? hid hx
          rw [← h.definitions_rulesWith, List.getElem?_map, Option.map_eq_some_iff] at hx
          obtain ⟨rule, hrule, rfl⟩ := hx
          refine ⟨rule, ?_, rfl⟩
          rw [Grammar.rule?, List.getElem?_toArray, hrule]

end ClassTranscript.Peg
