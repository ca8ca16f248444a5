import ClassTranscript.Peg.Parse
import ClassTranscript.Proofs.Peg.Builder

/-!
# Grammars with more rules

A grammar extends another when it has the rules of the other under the same numbers and those call
each other only. A rule of the smaller grammar is then evaluated in the larger one as it is in the
smaller, step by step (`Grammar.Extends.eval_eq`), so a parse of it comes to the same
(`Grammar.Extends.parse?_eq`). A draft to which definitions are added builds such a grammar
(`Draft.extends_of_build`): names keep their numbers, and what is linked stays as it is. The other
way round, the first of some well-formed definitions are well formed if they refer to each other
only (`WellFormed.of_append`).
-/

namespace ClassTranscript.Peg

/-! ### Calls of linked expressions -/

namespace Op

mutual

/-- The rules that an expression calls. -/
def calls : Op → List RuleId
  | .test _ _ => []
  | .seq items => callsAll items
  | .choice alternatives => callsAll alternatives
  | .star body => calls body
  | .plus body => calls body
  | .optional body => calls body
  | .ahead body => calls body
  | .notAhead body => calls body
  | .call id => [id]

/-- The rules that several expressions call. -/
def callsAll : List Op → List RuleId
  | [] => []
  | op :: ops => calls op ++ callsAll ops

end

theorem mem_callsAll {ops : List Op} {id : RuleId} :
  id ∈ callsAll ops ↔ ∃ op ∈ ops, id ∈ op.calls
  := by
  induction ops with
  | nil => simp [callsAll]
  | cons op ops ih => simp [callsAll, ih]

theorem calls_sequence {ops : List Op} :
  (sequence ops).calls = callsAll ops
  := by
  match ops with
  | [op] => simp [sequence, callsAll]
  | [] | _ :: _ :: _ => rfl

theorem calls_choices {ops : List Op} :
  (choices ops).calls = callsAll ops
  := by
  match ops with
  | [op] => simp [choices, callsAll]
  | [] | _ :: _ :: _ => rfl

end Op

namespace Expr

variable {ruleOf ruleOf' : String → Option RuleId} {e : Expr} {items : List Expr} {op : Op}
  {ops : List Op}

/-- A linked expression calls rules to which names resolve. -/
theorem exists_name_of_mem_calls {id : RuleId} (h : e.link ruleOf = .ok op) (hid : id ∈ op.calls) :
  ∃ name, ruleOf name = some id
  := by
  induction e using parts_induction generalizing op with
  | h e ih =>
      cases linksTo_of_link h with
      | test => cases hid
      | seq hops | choice hops =>
          simp only [Op.calls_sequence, Op.calls_choices, Op.mem_callsAll] at hid
          obtain ⟨op, hop, hid⟩ := hid
          obtain ⟨item, hitem, hlink⟩ := exists_of_forall₂ hops.flip hop
          apply ih item hitem hlink hid
      | star hbody | plus hbody | optional hbody | ahead hbody | notAhead hbody =>
          apply ih _ (by simp [parts]) hbody hid
      | @rule name _ hname =>
          obtain rfl := List.mem_singleton.mp hid
          exact ⟨name, hname⟩

theorem linkAll_mono
    (h : ∀ item ∈ items, ∀ op, item.link ruleOf = .ok op → item.link ruleOf' = .ok op)
    (hitems : linkAll ruleOf items = .ok ops) :
  linkAll ruleOf' items = .ok ops
  := by
  induction items generalizing ops with
  | nil => apply hitems
  | cons item items ih =>
      obtain ⟨hitem, hrest⟩ := List.forall_mem_cons.mp h
      rw [linkAll] at hitems ⊢
      split at hitems
      · cases hitems
      · rename_i op hop
        obtain ⟨ops, hops, rfl⟩ := exists_of_map_eq_ok hitems
        rw [hitem op hop]
        simp only [ih hrest hops]
        rfl

/-- An expression that is linked keeps its linked form where more names resolve. -/
theorem link_mono (hsub : ∀ name id, ruleOf name = some id → ruleOf' name = some id)
    (h : e.link ruleOf = .ok op) :
  e.link ruleOf' = .ok op
  := by
  induction e using parts_induction generalizing op with
  | h e ih =>
      cases e with
      | literal | char | any | endOfInput => apply h
      | seq items =>
          rw [link_seq_eq_map] at h ⊢
          obtain ⟨ops, hops, rfl⟩ := exists_of_map_eq_ok h
          have hops' : linkAll ruleOf' items = .ok ops :=
            linkAll_mono (fun item hitem op => ih item hitem) hops
          rw [hops']
          rfl
      | choice items =>
          rw [link_choice_eq_map] at h ⊢
          obtain ⟨ops, hops, rfl⟩ := exists_of_map_eq_ok h
          have hops' : linkAll ruleOf' items = .ok ops :=
            linkAll_mono (fun item hitem op => ih item hitem) hops
          rw [hops']
          rfl
      | star body | plus body | optional body | ahead body | notAhead body =>
          obtain ⟨op, hop, rfl⟩ := exists_of_map_eq_ok h
          rw [link, ih body (List.mem_singleton_self body) hop]
          rfl
      | rule name =>
          cases linksTo_of_link h with
          | test htest => cases htest
          | rule hid => rw [link, hsub name _ hid]

end Expr

/-! ### Evaluation -/

section

variable {g g' : Grammar} {cfg : Settings} {run run' : Op → Step} {ops : List Op}

theorem runSeq_congr (h : ∀ op ∈ ops, run' op = run op) (m : Mark) :
  runSeq run' m ops = runSeq run m ops
  := by
  induction ops with
  | nil => rfl
  | cons op ops ih =>
      obtain ⟨hop, hops⟩ := List.forall_mem_cons.mp h
      funext s
      simp only [runSeq, hop, ih hops]

theorem runChoice_congr (h : ∀ op ∈ ops, run' op = run op) (m : Mark) :
  runChoice cfg run' m ops = runChoice cfg run m ops
  := by
  induction ops with
  | nil => rfl
  | cons op ops ih =>
      obtain ⟨hop, hops⟩ := List.forall_mem_cons.mp h
      funext s
      simp only [runChoice, hop, ih hops]

/-- A grammar has the rules of another under the same numbers, whatever it takes to be nullable, and
these call each other only. -/
structure Grammar.Extends (g' g : Grammar) : Prop where
  rule {id : RuleId} {rule : Rule} : g.rule? id = some rule →
    ∃ nullable, g'.rule? id = some { rule with nullable }
  closed {id : RuleId} {rule : Rule} : g.rule? id = some rule →
    ∀ callee ∈ rule.op.calls, (g.rule? callee).isSome

namespace Grammar.Extends

/-- A call of a rule comes to the same where its body does. -/
theorem runCall_eq (h : g'.Extends g) {id : RuleId} {rule : Rule} (hrule : g.rule? id = some rule)
    (hop : run' rule.op = run rule.op) :
  runCall g' cfg run' id = runCall g cfg run id
  := by
  obtain ⟨nullable, hrule'⟩ := h.rule hrule
  funext s
  simp only [runCall, hrule, hrule', hop]
  rfl

/-- An expression that calls rules of the smaller grammar is evaluated in the larger one as in the
smaller. -/
theorem eval_eq (h : g'.Extends g) (bound : Nat) {op : Op}
    (hcalls : ∀ id ∈ op.calls, (g.rule? id).isSome) :
  eval g' cfg bound op = eval g cfg bound op
  := by
  induction bound generalizing op with
  | zero => rfl
  | succ bound ih =>
      funext s
      cases op with
      | test => rfl
      | seq items =>
          have hitems (item : Op) (hitem : item ∈ items) :
              eval g' cfg bound item = eval g cfg bound item :=
            ih fun id hid => hcalls id (Op.mem_callsAll.mpr ⟨item, hitem, hid⟩)
          simp only [eval, runSeq_congr hitems]
      | choice items =>
          have hitems (item : Op) (hitem : item ∈ items) :
              eval g' cfg bound item = eval g cfg bound item :=
            ih fun id hid => hcalls id (Op.mem_callsAll.mpr ⟨item, hitem, hid⟩)
          simp only [eval, runChoice_congr hitems]
      | star body | plus body | optional body | ahead body | notAhead body =>
          have hbody : eval g' cfg bound body = eval g cfg bound body := ih hcalls
          simp only [eval, hbody]
      | call id =>
          obtain ⟨rule, hrule⟩ :=
            Option.isSome_iff_exists.mp (hcalls id (List.mem_singleton_self id))
          simp only [eval, h.runCall_eq hrule (ih (h.closed hrule))]

/-- A rule of the smaller grammar parses a text in the larger one as in the smaller. -/
theorem parse?_eq (h : g'.Extends g) {id : RuleId} (hid : (g.rule? id).isSome) (o : Options)
    (text : String) :
  parse? g' o id text = parse? g o id text
  := by
  obtain ⟨rule, hrule⟩ := Option.isSome_iff_exists.mp hid
  obtain ⟨nullable, hrule'⟩ := h.rule hrule
  simp only [parse?, parseWithin?, evaluate, hrule, hrule', Option.map_some,
    h.runCall_eq hrule (h.eval_eq _ (h.closed hrule))]
  rfl

/-- A name that the smaller grammar has is that of the same rule in the larger one. -/
theorem ruleId?_eq (h : g'.Extends g) {name : String} {id : RuleId}
    (hid : g.ruleId? name = some id) :
  (g.rule? id).isSome ∧ g'.ruleId? name = some id
  := by
  obtain ⟨hlt, hname, hbefore⟩ := Array.findIdx?_eq_some_iff_getElem.mp hid
  have hrule {i : Nat} (hi : i < g.rules.size) :
      ∃ hi' : i < g'.rules.size, g'.rules[i].name = g.rules[i].name := by
    obtain ⟨nullable, hrule'⟩ := h.rule (Array.getElem?_eq_getElem hi)
    obtain ⟨hi', heq⟩ := Array.getElem?_eq_some_iff.mp hrule'
    exact ⟨hi', by rw [heq]⟩
  refine ⟨by simp [rule?, hlt], Array.findIdx?_eq_some_iff_getElem.mpr ?_⟩
  obtain ⟨hlt', heq⟩ := hrule hlt
  refine ⟨hlt', by rw [heq, hname], ?_⟩
  intro j hj
  obtain ⟨_, heq⟩ := hrule (hj.trans hlt)
  rw [heq]
  apply hbefore j hj

end Grammar.Extends

end

/-! ### Further definitions -/

namespace Draft

variable {d d' : Draft} {g g' : Grammar}

/-- Where a draft and one with more definitions both build, the grammar of the one extends that of
the other. -/
theorem extends_of_append {ys : List Definition} (hmore : d'.definitions = d.definitions ++ ys)
    (hbuild : d.build = .ok g) (hbuild' : d'.build = .ok g') :
  g'.Extends g
  := by
  have hlinked := linkedFrom_of_build hbuild
  have hlinked' := linkedFrom_of_build hbuild'
  have hnumber (name : String) (id : RuleId) (hid : d.ruleId? name = some id) :
      d'.ruleId? name = some id := by
    rw [ruleId?] at hid ⊢
    rw [hmore, List.findIdx?_append, hid, Option.some_or]
  have hdefinition {id : RuleId} {rule : Rule} (hrule : g.rule? id = some rule) :
      d.definitions[id]? = some rule.toDefinition ∧ rule.body.link d.ruleId? = .ok rule.op := by
    have hlt := (Array.getElem?_eq_some_iff.mp hrule).1
    rw [hlinked.size] at hlt
    obtain ⟨rule', hrule', hx, hlink⟩ := hlinked.rule (List.getElem?_eq_getElem hlt)
    obtain rfl := Option.some.inj (hrule'.symm.trans hrule)
    rw [List.getElem?_eq_getElem hlt, ← hx] at *
    exact ⟨rfl, hlink⟩
  constructor
  · intro id rule hrule
    obtain ⟨hx, hlink⟩ := hdefinition hrule
    have hx' : d'.definitions[id]? = some rule.toDefinition := by
      rw [hmore, List.getElem?_append_left (List.getElem?_eq_some_iff.mp hx).1, hx]
    obtain ⟨rule', hrule', heq, hlink'⟩ := hlinked'.rule hx'
    obtain ⟨x, op, nullable⟩ := rule
    obtain ⟨x', op', nullable'⟩ := rule'
    obtain rfl : x' = x := heq
    obtain rfl := Except.ok.inj (hlink'.symm.trans (Expr.link_mono hnumber hlink))
    exact ⟨nullable', hrule'⟩
  · intro id rule hrule callee hcallee
    obtain ⟨name, hname⟩ := Expr.exists_name_of_mem_calls (hdefinition hrule).2 hcallee
    obtain ⟨x, hx, -⟩ := body?_of_ruleId? hname
    obtain ⟨rule', hrule', -⟩ := hlinked.rule hx
    rw [hrule']
    rfl

theorem redefined_of_build (h : d.build = .ok g) :
  d.redefined = none
  := by
  cases hredefined : d.redefined with
  | none => rfl
  | some name =>
      rw [build_of_redefined hredefined] at h
      cases h

theorem redefined_define {x : Definition} (h : (d.define x).redefined = none) :
  d.redefined = none ∧ d.defines x.name = false
  := by
  cases hx : d.defines x.name with
  | true => simp [define_of_defined hx] at h
  | false =>
      rw [define_of_new hx] at h
      exact ⟨h, rfl⟩

/-- Calls that repeat no name add their definitions at the end. -/
theorem definitions_foldl {more : List BuilderCall} (h : (more.foldl perform d).redefined = none) :
  (more.foldl perform d).definitions = d.definitions ++ definitionsOf more
  := by
  induction more using List.reverseRecOn with
  | nil => simp [definitionsOf]
  | append_singleton more call ih =>
      rw [List.foldl_append] at h ⊢
      rw [definitionsOf, List.filterMap_append]
      cases call with
      | rule x =>
          obtain ⟨hredefined, hnew⟩ := redefined_define h
          have hstep : List.foldl perform (more.foldl perform d) [.rule x]
              = (more.foldl perform d).define x := rfl
          rw [hstep, define_of_new hnew, ih hredefined, List.append_assoc]
          rfl
      | root name =>
          have hstep : List.foldl perform (more.foldl perform d) [.root name]
              = (more.foldl perform d).withRoot name := rfl
          rw [hstep, withRoot, ih h]
          simp [definitionsOf, BuilderCall.definition?]

/-- Where a draft builds before and after further calls, the grammar after them extends the one
before. -/
theorem extends_of_build {more : List BuilderCall} (hbuild : d.build = .ok g)
    (hbuild' : (more.foldl perform d).build = .ok g') :
  g'.Extends g
  := by
  apply extends_of_append _ hbuild hbuild'
  · exact definitionsOf more
  apply definitions_foldl (redefined_of_build hbuild')

end Draft

/-! ### Initial parts of definitions -/

namespace Expr

variable {bodyOf bodyOf' : String → Option Expr} {e : Expr}

/-- What is nullable stays so where more names have bodies. -/
theorem Nullable.mono (hsub : ∀ name body, bodyOf name = some body → bodyOf' name = some body)
    (h : Nullable bodyOf e) :
  Nullable bodyOf' e
  := by
  induction h with
  | empty => exact .empty
  | endOfInput => exact .endOfInput
  | seq _ ih => exact .seq ih
  | choice hmem _ ih => exact .choice hmem ih
  | star => exact .star
  | plus _ ih => exact .plus ih
  | optional => exact .optional
  | ahead => exact .ahead
  | notAhead => exact .notAhead
  | rule hbody _ ih => exact .rule (hsub _ _ hbody) ih

theorem RepeatsNullable.mono
    (hsub : ∀ name body, bodyOf name = some body → bodyOf' name = some body)
    (h : RepeatsNullable bodyOf e) :
  RepeatsNullable bodyOf' e
  := by
  induction h with
  | star hbody => exact .star (hbody.mono hsub)
  | plus hbody => exact .plus (hbody.mono hsub)
  | inside hpart _ ih => exact .inside hpart ih

theorem Leads.mono (hsub : ∀ name body, bodyOf name = some body → bodyOf' name = some body)
    {name : String} (h : Leads bodyOf e name) :
  Leads bodyOf' e name
  := by
  induction h with
  | rule => exact .rule
  | seq hbefore _ ih => exact .seq (fun item hitem => (hbefore item hitem).mono hsub) ih
  | choice hmem _ ih => exact .choice hmem ih
  | operand hparts _ ih => exact .operand hparts ih

end Expr

/-- The first of some well-formed definitions are well formed if they refer to each other only. -/
theorem WellFormed.of_append {xs ys : List Definition} {root root' : Option String}
    (h : WellFormed (xs ++ ys) root) (hnonempty : xs ≠ []) (hroot : RootDefined xs root')
    (hrefs : RefsDefined xs) :
  WellFormed xs root'
  := by
  have hsub (name : String) (body : Expr) (hbody : bodyOf xs name = some body) :
      bodyOf (xs ++ ys) name = some body := by
    obtain ⟨x, hx, hbody⟩ := Option.map_eq_some_iff.mp hbody
    rw [bodyOf, Draft.body?, List.find?_append, hx, Option.some_or, Option.map_some, hbody]
  constructor
  · have hdistinct := h.distinct
    rw [namesOf, List.map_append] at hdistinct
    apply (List.nodup_append.mp hdistinct).1
  · apply hnonempty
  · apply hroot
  · apply hrefs
  · intro x hx hrepeats
    apply h.advancing x (List.mem_append_left ys hx) (hrepeats.mono hsub)
  · intro name hcycle
    apply h.acyclic name
    apply Relation.TransGen.mono _ _ _ hcycle
    rintro caller callee ⟨x, hx, hname, hleads⟩
    exact ⟨x, List.mem_append_left ys hx, hname, hleads.mono hsub⟩

/-- A draft with well-formed definitions builds. -/
theorem Draft.exists_build_of_wellFormed {d : Draft} (hredefined : d.redefined = none)
    (h : WellFormed d.definitions d.root) :
  ∃ g, d.build = .ok g
  := by
  have hverdict := verdict hredefined h.distinct
  generalize d.build = r at hverdict ⊢
  cases r with
  | ok g => exact ⟨g, rfl⟩
  | error e => exact absurd h (FirstFailure.not_wellFormed hverdict)

/-- The definitions of a draft that builds are well formed. -/
theorem Draft.wellFormed_of_build {d : Draft} {g : Grammar} (h : d.build = .ok g)
    (hnames : (namesOf d.definitions).Nodup) :
  WellFormed d.definitions d.root
  := by
  have hverdict := verdict (redefined_of_build h) hnames
  rw [h] at hverdict
  apply hverdict.1

end ClassTranscript.Peg
