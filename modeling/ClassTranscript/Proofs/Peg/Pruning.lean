import ClassTranscript.Proofs.Peg.Checks
import ClassTranscript.Proofs.Peg.Ends
import ClassTranscript.Proofs.Peg.TreeShape

/-!
# Flags only prune

The full form of a grammar has the same rules, but every match makes a node and every node keeps its
children. The two grammars build together (`Draft.build_full`), and evaluate in lock step: at each
moment the two states differ in the nodes made so far and the nodes in remembered results, and there
the one has what pruning leaves of the other (`State.PrunedTo`, `eval_pruned`). So a parse comes to
the same with both, but for a tree, which is the pruned full tree (`parse?_full`).
-/

namespace ClassTranscript.Peg

/-! ### Full grammars -/

/-- The definition without its flags: every match makes a node, and the node keeps its children. -/
def Definition.full (x : Definition) : Definition :=
  { x with hidden := false, leaf := false }

/-- The draft with the flags of all definitions cleared. -/
def Draft.full (d : Draft) : Draft :=
  { d with definitions := d.definitions.map Definition.full }

/-- The rule with the flags cleared. -/
def Rule.full (rule : Rule) : Rule :=
  { rule with hidden := false, leaf := false }

/-- The grammar with the flags of all rules cleared. -/
def Grammar.full (g : Grammar) : Grammar :=
  { g with rules := g.rules.map Rule.full }

namespace Draft

variable {d : Draft}

theorem ruleId?_full :
  d.full.ruleId? = d.ruleId?
  := by
  funext name
  rw [ruleId?, full, List.findIdx?_map]
  rfl

theorem rootId_full :
  d.full.rootId = d.rootId
  := by
  simp only [rootId, ruleId?_full]
  rfl

theorem linkBodies_full {ruleOf : String → Option RuleId} {xs : List Definition} :
  linkBodies ruleOf (xs.map Definition.full) = linkBodies ruleOf xs
  := by
  induction xs with
  | nil => rfl
  | cons x xs ih =>
      simp only [List.map_cons, linkBodies, ih]
      rfl

theorem assemble_full {xs : List Definition} {bodies : List Op} {flags : List Bool} :
  assemble (xs.map Definition.full) bodies flags = (assemble xs bodies flags).map Rule.full
  := by
  rw [assemble, assemble, List.zip_map_left, List.map_map, List.map_map]
  rfl

/-- A draft that builds also does without its flags, and then makes the full grammar. -/
theorem build_full {g : Grammar} (h : d.build = .ok g) :
  d.full.build = .ok g.full
  := by
  obtain ⟨bodies, hlinked, hrepeats, hcycle, hg⟩ := build_eq_ok h
  have hlinked' : Linked d.full g.root bodies := by
    constructor
    · apply hlinked.redefined
    · rw [full, Ne, List.map_eq_nil_iff]
      apply hlinked.nonempty
    · rw [rootId_full, hlinked.rootId]
    · rw [ruleId?_full, full, linkBodies_full, hlinked.bodies]
  have hrules : d.full.rulesWith bodies = (d.rulesWith bodies).map Rule.full := assemble_full
  rw [hlinked'.build_eq_ok _ hcycle, hrules, Grammar.full, hg, List.map_toArray]
  rw [hrules, List.find?_map, Option.map_eq_none_iff]
  apply hrepeats

end Draft

theorem Grammar.rule?_full {g : Grammar} {id : RuleId} :
  g.full.rule? id = (g.rule? id).map Rule.full
  := Array.getElem?_map

/-! ### Pruned trees -/

namespace Grammar

/-- Whether the matches of a rule make no node. -/
def hides (g : Grammar) (id : RuleId) : Bool :=
  (g.rule? id).any (·.hidden)

/-- Whether the nodes of a rule have no children. -/
def endsAt (g : Grammar) (id : RuleId) : Bool :=
  (g.rule? id).any (·.leaf)

mutual

/-- What is left of a tree without the trees below hidden rules and the children of leaf rules. -/
def prune? (g : Grammar) : Node → Option Node
  | ⟨label, id, span, children⟩ =>
    if g.hides id then none
    else some ⟨label, id, span, if g.endsAt id then [] else pruneAll g children⟩

/-- What is left of several trees. -/
def pruneAll (g : Grammar) : List Node → List Node
  | [] => []
  | node :: nodes => (prune? g node).toList ++ pruneAll g nodes

end

theorem pruneAll_eq_filterMap {g : Grammar} {nodes : List Node} :
  g.pruneAll nodes = nodes.filterMap g.prune?
  := by
  induction nodes with
  | nil => rfl
  | cons node nodes ih =>
      rw [pruneAll, ih, List.filterMap_cons]
      cases g.prune? node <;> rfl

end Grammar

/-- What is left of the tree of a match. Where the root goes, a leaf over the match stands for
it. -/
def Tree.prune (g : Grammar) (t : Tree) : Tree :=
  { t with root := (g.prune? t.root).getD ⟨t.root.label, t.root.rule, ⟨0, t.stop⟩, []⟩ }

/-- The outcome with the tree of a match pruned. -/
def Outcome.prune (g : Grammar) : Outcome → Outcome
  | .matched tree stats => .matched (tree.prune g) stats
  | .mismatched m => .mismatched m

/-! ### Pruned states -/

/-- The entry with the node of a match pruned. -/
def MemoEntry.prune (g : Grammar) : MemoEntry → MemoEntry
  | .matched stop node => .matched stop (node.bind g.prune?)
  | .failed => .failed

/-- The second memo remembers the same results as the first, with pruned nodes. -/
structure Memo.PrunedTo (g : Grammar) (memo memo' : Memo) : Prop where
  getElem? (key : Nat × RuleId) : memo'[key]? = memo[key]?.map fun slot =>
    { slot with entry := slot.entry.prune g }
  size : memo'.size = memo.size

namespace Memo.PrunedTo

variable {g : Grammar} {memo memo' : Memo}

theorem empty :
  Memo.PrunedTo g ∅ ∅
  := ⟨by simp, rfl⟩

theorem knows (h : memo.PrunedTo g memo') (rule : RuleId) (offset : Nat) :
  memo'.knows rule offset = memo.knows rule offset
  := by
  rw [Memo.knows, Memo.knows, ← Std.TreeMap.isSome_getElem?_eq_contains,
    ← Std.TreeMap.isSome_getElem?_eq_contains, h.getElem?, Option.isSome_map]

theorem answer? (h : memo.PrunedTo g memo') (rule : RuleId) (offset : Nat) (tracking : Bool) :
  memo'.answer? rule offset tracking = (memo.answer? rule offset tracking).map (·.prune g)
  := by
  rw [Memo.answer?, Memo.answer?, h.getElem?, Option.filter_map, Option.map_map, Option.map_map]
  rfl

theorem remember (h : memo.PrunedTo g memo') (rule : RuleId) (offset : Nat) (slot : MemoSlot) :
  (memo.remember rule offset slot).PrunedTo g
    (memo'.remember rule offset { slot with entry := slot.entry.prune g })
  := by
  constructor
  · intro key
    rw [Memo.remember, Memo.remember, Std.TreeMap.getElem?_insert, Std.TreeMap.getElem?_insert]
    split
    · rfl
    · apply h.getElem?
  · have hknows := h.knows rule offset
    rw [Memo.knows, Memo.knows] at hknows
    rw [Memo.remember, Memo.remember, Std.TreeMap.size_insert, Std.TreeMap.size_insert, h.size]
    simp only [hknows]

end Memo.PrunedTo

/-- The second state is the first with the nodes pruned that were made so far and that results are
remembered with. -/
inductive State.PrunedTo (g : Grammar) (s : State) : State → Prop where
  | intro {memo : Memo} : s.memo.PrunedTo g memo →
    PrunedTo g s { s with nodes := s.nodes.filterMap g.prune?, memo }

/-- The mark with its nodes pruned. -/
def Mark.prune (g : Grammar) (m : Mark) : Mark :=
  { m with nodes := m.nodes.filterMap g.prune? }

theorem filterMap_toList {α β : Type} {f : α → Option β} {x : Option α} :
  x.toList.filterMap f = (x.bind f).toList
  := by
  cases x with
  | none => rfl
  | some x => cases h : f x <;> simp [h]

@[simp]
theorem Mark.here_prune {g : Grammar} {m : Mark} :
  (m.prune g).here = m.here
  := rfl

namespace State.PrunedTo

variable {g : Grammar} {cfg : Settings} {s s' : State}

theorem here (h : s.PrunedTo g s') :
  s'.here = s.here
  := by
  obtain ⟨-⟩ := h
  rfl

theorem running (h : s.PrunedTo g s') :
  s'.running = s.running
  := by
  obtain ⟨-⟩ := h
  rfl

theorem stats (h : s.PrunedTo g s') :
  s'.stats = s.stats
  := by
  obtain ⟨-⟩ := h
  rfl

theorem depth (h : s.PrunedTo g s') :
  s'.depth = s.depth
  := by
  obtain ⟨-⟩ := h
  rfl

theorem mark (h : s.PrunedTo g s') :
  s'.mark = s.mark.prune g
  := by
  obtain ⟨-⟩ := h
  rfl

theorem knows (h : s.PrunedTo g s') (rule : RuleId) (offset : Nat) :
  s'.memo.knows rule offset = s.memo.knows rule offset
  := by
  obtain ⟨hmemo⟩ := h
  apply hmemo.knows

theorem answer? (h : s.PrunedTo g s') (policy : MemoPolicy) (id : RuleId) :
  s'.answer? policy id = (s.answer? policy id).map (·.prune g)
  := by
  obtain ⟨hmemo⟩ := h
  unfold State.answer?
  split
  · rfl
  · apply hmemo.answer?

theorem goto (h : s.PrunedTo g s') (next : Cursor) :
  PrunedTo g { s with here := next } { s' with here := next }
  := by
  obtain ⟨hmemo⟩ := h
  exact ⟨hmemo⟩

theorem record (h : s.PrunedTo g s') (event : Event) :
  (s.record cfg event).PrunedTo g (s'.record cfg event)
  := by
  obtain ⟨hmemo⟩ := h
  rw [record_eq, record_eq]
  exact ⟨hmemo⟩

theorem halt (h : s.PrunedTo g s') (limit : Limit) :
  (s.halt cfg limit).PrunedTo g (s'.halt cfg limit)
  := by
  unfold State.halt
  rw [h.running]
  split
  · rw [h.here]
    apply record
    obtain ⟨hmemo⟩ := h
    exact ⟨hmemo⟩
  · apply h

theorem reset (h : s.PrunedTo g s') (m : Mark) :
  (s.reset m).PrunedTo g (s'.reset (m.prune g))
  := by
  obtain ⟨hmemo⟩ := h
  exact ⟨hmemo⟩

theorem backtrack (h : s.PrunedTo g s') (m : Mark) :
  (s.backtrack cfg m).PrunedTo g (s'.backtrack cfg (m.prune g))
  := (h.reset m).record _

theorem countStep (h : s.PrunedTo g s') :
  s.countStep.PrunedTo g s'.countStep
  := by
  obtain ⟨hmemo⟩ := h
  exact ⟨hmemo⟩

theorem miss (h : s.PrunedTo g s') (expectation : String) :
  (s.miss cfg expectation).PrunedTo g (s'.miss cfg expectation)
  := by
  obtain ⟨hmemo⟩ := h
  apply record
  rw [expect_eq, expect_eq]
  exact ⟨hmemo⟩

theorem enterPredicate (h : s.PrunedTo g s') :
  s.enterPredicate.PrunedTo g s'.enterPredicate
  := by
  obtain ⟨hmemo⟩ := h
  exact ⟨hmemo⟩

theorem leavePredicate (h : s.PrunedTo g s') (m : Mark) :
  (s.leavePredicate m).PrunedTo g (s'.leavePredicate (m.prune g))
  := by
  obtain ⟨hmemo⟩ := h
  exact ⟨hmemo⟩

theorem enterRule (h : s.PrunedTo g s') (cfg : Settings) (id : RuleId) :
  (s.enterRule cfg id).PrunedTo g (s'.enterRule cfg id)
  := by
  obtain ⟨hmemo⟩ := h
  apply record
  exact ⟨hmemo⟩

/-- The node of a match is the full node pruned. -/
theorem nodeOf (h : s.PrunedTo g s') {id : RuleId} {rule : Rule} (hrule : g.rule? id = some rule)
    (start : Nat) :
  s'.nodeOf id rule start = (s.nodeOf id rule.full start).bind g.prune?
  := by
  obtain ⟨hmemo⟩ := h
  simp only [State.nodeOf, Rule.full, Bool.false_eq_true, if_false, Option.bind_some,
    Grammar.prune?, Grammar.hides, Grammar.endsAt, hrule, Option.any_some, Grammar.pruneAll_eq_filterMap,
    List.filterMap_reverse]

theorem leaveRule (h : s.PrunedTo g s') (cfg : Settings) (id : RuleId) (m : Mark) (matched : Bool)
    (node : Option Node) :
  (s.leaveRule cfg id m matched node).PrunedTo g
    (s'.leaveRule cfg id (m.prune g) matched (node.bind g.prune?))
  := by
  have hnodes : (if matched then (node.bind g.prune?).toList ++ (m.prune g).nodes
        else (m.prune g).nodes)
      = (if matched then node.toList ++ m.nodes else m.nodes).filterMap g.prune? := by
    rw [apply_ite (List.filterMap g.prune?), List.filterMap_append, filterMap_toList]
    rfl
  obtain ⟨hmemo⟩ := h
  rw [State.leaveRule, State.leaveRule, hnodes]
  apply record
  exact ⟨hmemo⟩

theorem remember (h : s.PrunedTo g s') (cfg : Settings) (id : RuleId) (offset : Nat)
    (entry : MemoEntry) :
  (s.remember cfg id offset entry).PrunedTo g (s'.remember cfg id offset (entry.prune g))
  := by
  obtain ⟨hmemo⟩ := h
  unfold State.remember
  rw [hmemo.size]
  split
  · exact ⟨hmemo.remember id offset _⟩
  · apply halt ⟨hmemo⟩

end State.PrunedTo

/-! ### Pruned steps -/

/-- Two results of a step are the same with nodes pruned. -/
inductive PrunedResult (g : Grammar) : Bool × State → Bool × State → Prop where
  | intro {matched : Bool} {s s' : State} : s.PrunedTo g s' →
    PrunedResult g (matched, s) (matched, s')

/-- Two steps lead from a state and the pruned state to the same with nodes pruned. -/
def Step.PrunedTo (g : Grammar) (step step' : Step) : Prop :=
  ∀ s s', s.PrunedTo g s' → PrunedResult g (step s) (step' s')

section

variable {g : Grammar} {cfg : Settings} {run run' : Op → Step} {body body' : Step} {s s' : State}

theorem runSeq_pruned (h : ∀ op, Step.PrunedTo g (run op) (run' op)) (m : Mark) (ops : List Op) :
  Step.PrunedTo g (runSeq run m ops) (runSeq run' (m.prune g) ops)
  := by
  induction ops with
  | nil => exact fun _ _ hs => .intro hs
  | cons op ops ih =>
      intro s s' hs
      have hop := h op s s' hs
      simp only [runSeq]
      generalize run op s = out, run' op s' = out' at hop ⊢
      obtain @⟨matched, t, t', ht⟩ := hop
      cases matched with
      | true => apply ih t t' ht
      | false => exact .intro (ht.reset m)

theorem runChoice_pruned (h : ∀ op, Step.PrunedTo g (run op) (run' op)) (m : Mark) (ops : List Op) :
  Step.PrunedTo g (runChoice cfg run m ops) (runChoice cfg run' (m.prune g) ops)
  := by
  induction ops with
  | nil => exact fun _ _ hs => .intro hs
  | cons op ops ih =>
      intro s s' hs
      have hop := h op s s' hs
      simp only [runChoice]
      generalize run op s = out, run' op s' = out' at hop ⊢
      obtain @⟨matched, t, t', ht⟩ := hop
      cases matched with
      | true => exact .intro ht
      | false =>
          simp only [ht.running]
          split
          · apply ih _ _ (ht.backtrack m)
          · exact .intro ht

theorem runRounds_pruned (h : Step.PrunedTo g body body') (cfg : Settings) (rounds : Nat)
    (hs : s.PrunedTo g s') :
  (runRounds cfg body rounds s).PrunedTo g (runRounds cfg body' rounds s')
  := by
  induction rounds generalizing s s' with
  | zero => apply hs.halt
  | succ rounds ih =>
      have hround := h s s' hs
      simp only [runRounds]
      generalize body s = out, body' s' = out' at hround ⊢
      obtain @⟨matched, t, t', ht⟩ := hround
      rw [hs.mark]
      cases matched with
      | false => apply ht.reset
      | true =>
          simp only [ht.here, Mark.here_prune]
          split
          · apply ht
          · apply ih ht

theorem runPredicate_pruned (h : Step.PrunedTo g body body') :
  Step.PrunedTo g (runPredicate body) (runPredicate body')
  := by
  intro s s' hs
  have hbody := h _ _ hs.enterPredicate
  simp only [runPredicate]
  generalize body s.enterPredicate = out, body' s'.enterPredicate = out' at hbody ⊢
  obtain @⟨matched, t, t', ht⟩ := hbody
  rw [hs.mark]
  exact .intro (ht.leavePredicate s.mark)

theorem replay_pruned (hs : s.PrunedTo g s') (id : RuleId) (entry : MemoEntry) :
  PrunedResult g (s.replay cfg id entry) (s'.replay cfg id (entry.prune g))
  := by
  obtain ⟨hmemo⟩ := hs
  cases entry with
  | failed =>
      apply PrunedResult.intro
      apply State.PrunedTo.record
      exact ⟨hmemo⟩
  | matched stop node =>
      apply PrunedResult.intro
      simp only [State.record_eq, ← filterMap_toList, ← List.filterMap_append]
      exact ⟨hmemo⟩

theorem finishCall_pruned {id : RuleId} {rule : Rule} (hrule : g.rule? id = some rule) (m : Mark)
    (matched : Bool) (hs : s.PrunedTo g s') :
  PrunedResult g (finishCall cfg id rule.full m matched s)
    (finishCall cfg id rule (m.prune g) matched s')
  := by
  have hpolicy : cfg.policyOf rule.full = cfg.policyOf rule := rfl
  have hentry (stop : Cursor) (node : Option Node) :
      MemoEntry.matched stop (node.bind g.prune?) = (MemoEntry.matched stop node).prune g := rfl
  simp only [finishCall, hpolicy, Mark.here_prune, hs.nodeOf hrule]
  generalize s.nodeOf id rule.full m.here.offset = node
  have hleft := hs.leaveRule cfg id m matched node
  generalize s.leaveRule cfg id m matched node = t,
    s'.leaveRule cfg id (m.prune g) matched (node.bind g.prune?) = t' at hleft
  simp only [hleft.running, hleft.knows, hleft.here, hentry]
  split
  · exact .intro hleft
  · split
    · exact .intro hleft
    · have hremember (entry : MemoEntry) :
          PrunedResult g (matched && (t.remember cfg id m.here.offset entry).running,
            t.remember cfg id m.here.offset entry)
            (matched && (t'.remember cfg id m.here.offset (entry.prune g)).running,
              t'.remember cfg id m.here.offset (entry.prune g)) := by
        have ht := hleft.remember cfg id m.here.offset entry
        rw [ht.running]
        exact .intro ht
      cases matched with
      | false => cases cfg.policyOf rule <;> apply hremember .failed
      | true =>
          cases cfg.policyOf rule with
          | all => apply hremember (.matched t.here node)
          | off | mismatches =>
              simp only [hleft.running]
              exact .intro hleft

theorem runCall_pruned (h : ∀ op, Step.PrunedTo g (run op) (run' op)) (id : RuleId) :
  Step.PrunedTo g (runCall g.full cfg run id) (runCall g cfg run' id)
  := by
  intro s s' hs
  simp only [runCall, Grammar.rule?_full]
  cases hrule : g.rule? id with
  | none => exact .intro hs
  | some rule =>
      have hpolicy : cfg.policyOf rule.full = cfg.policyOf rule := rfl
      simp only [Option.map_some, hpolicy, hs.answer?]
      cases s.answer? (cfg.policyOf rule) id with
      | some entry => apply replay_pruned hs
      | none =>
          simp only [Option.map_none, hs.depth]
          split
          · exact .intro (hs.halt .depth)
          · have hbody := h rule.op _ _ (hs.enterRule cfg id)
            have hop : rule.full.op = rule.op := rfl
            rw [hop, hs.mark]
            generalize run rule.op (s.enterRule cfg id) = out,
              run' rule.op (s'.enterRule cfg id) = out' at hbody ⊢
            obtain @⟨matched, t, t', ht⟩ := hbody
            apply finishCall_pruned hrule _ _ ht

theorem evalOp_pruned {bound : Nat}
    (h : ∀ op, Step.PrunedTo g (eval g.full cfg bound op) (eval g cfg bound op)) (op : Op) :
  Step.PrunedTo g (evalOp g.full cfg bound op) (evalOp g cfg bound op)
  := by
  intro s s' hs
  cases op with
  | test test expectation =>
      simp only [evalOp, hs.here]
      cases test.pass? s.here with
      | none => exact .intro (hs.miss expectation)
      | some next => exact .intro (hs.goto next)
  | seq items =>
      rw [evalOp, evalOp, hs.mark]
      apply runSeq_pruned h s.mark items s s' hs
  | choice items =>
      rw [evalOp, evalOp, hs.mark]
      apply runChoice_pruned h s.mark items s s' hs
  | star body =>
      have hrounds := runRounds_pruned (h body) cfg bound hs
      simp only [evalOp, hrounds.running]
      exact .intro hrounds
  | plus body =>
      have hbody := h body s s' hs
      simp only [evalOp]
      generalize eval g.full cfg bound body s = out, eval g cfg bound body s' = out' at hbody ⊢
      obtain @⟨matched, t, t', ht⟩ := hbody
      cases matched with
      | false => exact .intro ht
      | true =>
          have hrounds := runRounds_pruned (h body) cfg bound ht
          simp only [hrounds.running]
          exact .intro hrounds
  | optional body =>
      have hbody := h body s s' hs
      simp only [evalOp, hs.mark]
      generalize eval g.full cfg bound body s = out, eval g cfg bound body s' = out' at hbody ⊢
      obtain @⟨matched, t, t', ht⟩ := hbody
      cases matched with
      | false =>
          simp only [ht.running]
          exact .intro (ht.reset s.mark)
      | true =>
          simp only [ht.running]
          exact .intro ht
  | ahead body | notAhead body =>
      have hbody := runPredicate_pruned (h body) s s' hs
      simp only [evalOp]
      generalize runPredicate (eval g.full cfg bound body) s = out,
        runPredicate (eval g cfg bound body) s' = out' at hbody ⊢
      obtain @⟨matched, t, t', ht⟩ := hbody
      simp only [ht.running]
      exact .intro ht
  | call id => apply runCall_pruned h id s s' hs

/-- Evaluations by a grammar and by the full grammar keep in step. -/
theorem eval_pruned (bound : Nat) (op : Op) :
  Step.PrunedTo g (eval g.full cfg bound op) (eval g cfg bound op)
  := by
  induction bound generalizing op with
  | zero => exact fun _ _ hs => .intro (hs.halt .steps)
  | succ bound ih =>
      intro s s' hs
      rw [eval_succ, eval_succ, hs.running]
      split
      · exact .intro hs
      · rw [hs.countStep.stats]
        split
        · exact .intro (hs.countStep.halt .steps)
        · apply evalOp_pruned ih op _ _ hs.countStep

end

/-! ### Parses -/

section

variable {g : Grammar} {cfg : Settings} {id : RuleId} {rule : Rule} {s t : State}

/-- A call that matches adds the node of the match to those from before. -/
theorem mark_of_finishCall {m : Mark} {matched : Bool}
    (h : finishCall cfg id rule m matched s = (true, t)) :
  t.mark = ⟨s.here, (s.nodeOf id rule m.here.offset).toList ++ m.nodes⟩
  := by
  have hleft (node : Option Node) :
      (s.leaveRule cfg id m true node).mark = ⟨s.here, node.toList ++ m.nodes⟩ := by
    rw [State.mark_leaveRule, if_pos rfl]
  simp only [finishCall] at h
  split at h
  · cases h
  · split at h
    · obtain ⟨rfl, rfl⟩ := Prod.mk.inj h
      apply hleft
    · obtain ⟨hmatched, rfl⟩ := Prod.mk.inj h
      obtain rfl := (Bool.and_eq_true_iff.mp hmatched).1
      cases cfg.policyOf rule with
      | all =>
          apply (State.mark_remember ..).trans
          apply hleft
      | off | mismatches => apply hleft

/-- A match by the full grammar leaves a node of its rule over what is matched, and no other. -/
theorem nodes_of_evaluate_full {bound : Nat} {text : String} (hrule : g.rule? id = some rule)
    (h : evaluate g.full cfg bound id text = (true, s)) :
  ∃ children, s.nodes = [⟨rule.label, id, ⟨0, s.here.offset⟩, children⟩]
  := by
  have hanswer : (State.initial text).answer? (cfg.policyOf rule.full) id = none := by
    simp [State.answer?, State.initial, Memo.answer?]
  simp only [evaluate, runCall, Grammar.rule?_full, hrule, Option.map_some, hanswer] at h
  split at h
  · cases h
  · have hmark := mark_of_finishCall h
    have hhere := congrArg Mark.here hmark
    have hnodes := congrArg Mark.nodes hmark
    simp only [State.mark] at hhere hnodes
    rw [hnodes, hhere]
    exact ⟨_, rfl⟩

theorem evaluate_pruned (bound : Nat) (text : String) :
  PrunedResult g (evaluate g.full cfg bound id text) (evaluate g cfg bound id text)
  := by
  apply runCall_pruned (eval_pruned bound)
  exact ⟨.empty⟩

/-- The root of a match is the full root pruned, and where that goes, a leaf over the match. -/
theorem rootNode_pruned (hs : s.PrunedTo g t) (hrule : g.rule? id = some rule)
    {children : List Node} (hnodes : s.nodes = [⟨rule.label, id, ⟨0, s.here.offset⟩, children⟩]) :
  (⟨rootNode rule id t, t.here.offset⟩ : Tree)
    = Tree.prune g ⟨rootNode rule.full id s, s.here.offset⟩
  := by
  have hhides : g.hides id = rule.hidden := by rw [Grammar.hides, hrule, Option.any_some]
  have hroot : rootNode rule.full id s = ⟨rule.label, id, ⟨0, s.here.offset⟩, children⟩ := by
    rw [rootNode, hnodes]
    rfl
  obtain ⟨-⟩ := hs
  rw [hroot]
  cases hhidden : rule.hidden with
  | true =>
      rw [hhidden] at hhides
      simp [rootNode, hnodes, Tree.prune, Grammar.prune?, hhides, rootNode.leaf]
  | false =>
      rw [hhidden] at hhides
      simp [rootNode, hnodes, Tree.prune, Grammar.prune?, hhides, hhidden]

/-- An evaluation comes to the same as one by the full grammar, with the tree of a match pruned. -/
theorem outcomeOf_pruned (hs : s.PrunedTo g t) (hrule : g.rule? id = some rule) {matched : Bool}
    (hnodes : matched = true →
      ∃ children, s.nodes = [⟨rule.label, id, ⟨0, s.here.offset⟩, children⟩]) :
  outcomeOf rule id matched t = (outcomeOf rule.full id matched s).prune g
  := by
  cases matched with
  | false =>
      obtain ⟨hmemo⟩ := hs
      simp only [outcomeOf, hmemo.size]
      cases s.halted <;> rfl
  | true =>
      obtain ⟨children, hnodes⟩ := hnodes rfl
      have hroot := rootNode_pruned hs hrule hnodes
      obtain ⟨hmemo⟩ := hs
      simp only [outcomeOf, hmemo.size, hroot]
      cases s.halted <;> rfl

/-- A parse by a grammar comes to the same as one by the full grammar, with the tree of a match
pruned. -/
theorem parse?_full {d : Draft} (hbuild : d.build = .ok g) (hrule : g.rule? id = some rule)
    (o : Options) (text : String) :
  d.full.build = .ok g.full ∧ ∃ outcome log, parse? g.full o id text = some (outcome, log)
    ∧ parse? g o id text = some (outcome.prune g, log)
  := by
  refine ⟨Draft.build_full hbuild, ?_⟩
  have hresult : PrunedResult g (evaluate g.full o.settings (o.limits.steps + 1) id text)
      (evaluate g o.settings (o.limits.steps + 1) id text) := evaluate_pruned _ text
  have hnodes {s : State}
      (h : evaluate g.full o.settings (o.limits.steps + 1) id text = (true, s)) :=
    nodes_of_evaluate_full hrule h
  simp only [parse?, parseWithin?, Grammar.rule?_full, hrule, Option.map_some]
  generalize evaluate g.full o.settings (o.limits.steps + 1) id text = out,
    evaluate g o.settings (o.limits.steps + 1) id text = out' at hresult hnodes ⊢
  obtain @⟨matched, s, t, hs⟩ := hresult
  refine ⟨_, _, rfl, ?_⟩
  rw [outcomeOf_pruned hs hrule]
  · obtain ⟨-⟩ := hs
    rfl
  · rintro rfl
    apply hnodes rfl

/-- The definitions for descriptors with flags: a base type makes no node, and the node of an object
type has no children. -/
def flaggedDescriptorDraft : Draft :=
  Draft.defineAll {} (Transcript.descriptors.map fun x =>
    { x with
      hidden := x.name == "BaseDescriptor"
      leaf := x.name == "ObjectDescriptor"
      memo := .all })

theorem build_flaggedDescriptorDraft :
  flaggedDescriptorDraft.build = .ok flaggedDescriptorDraft.buildD
  := rfl

/-- The tree of an array of objects is the full tree without the name of the class. -/
theorem parse?_descriptor_full :
  ∃ tree stats log, parse? flaggedDescriptorDraft.buildD.full {} 0 "[LA;"
      = some (.matched tree stats, log)
    ∧ parse? flaggedDescriptorDraft.buildD {} 0 "[LA;"
      = some (.matched (tree.prune flaggedDescriptorDraft.buildD) stats, log)
  := by
  obtain ⟨hbuild, outcome, log, hfull, hparse⟩ := parse?_full build_flaggedDescriptorDraft
    (show flaggedDescriptorDraft.buildD.rule? 0 = some _ from rfl) {} "[LA;"
  cases outcome with
  | matched tree stats => exact ⟨tree, stats, log, hfull, hparse⟩
  | mismatched m =>
      have hgrammar : flaggedDescriptorDraft.full.buildD = flaggedDescriptorDraft.buildD.full := by
        rw [Draft.buildD, hbuild]
        rfl
      have hstop : (parse? flaggedDescriptorDraft.full.buildD {} 0 "[LA;").bind (·.1.stop?) = some 4 :=
        rfl
      rw [hgrammar, hfull] at hstop
      cases hstop

end

end ClassTranscript.Peg
