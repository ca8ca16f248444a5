import ClassTranscript.Proofs.Peg.Growth
import ClassTranscript.Proofs.Peg.Parse

/-!
# The shape of parse trees

The nodes that an expression leaves lie one after the other within its match (`Grows.inOrder`), and
each node below them is the match of a definition that makes nodes (`Grows.grown`). So every node of
the tree of a parse is well formed, and the tree is what the definitions grow: nothing in it comes
from a predicate, from an alternative that failed, or from inside a hidden rule
(`parse_tree_wellFormed`).
-/

namespace ClassTranscript.Peg

/-! ### Walks -/

namespace Node

theorem walk_append (xs ys : List Node) :
  walk (xs ++ ys) = walk xs ++ walk ys
  := by
  induction xs using walk.induct with
  | case1 => simp [walk]
  | case2 node stack ih =>
      rw [List.cons_append, walk, walk, ← List.append_assoc, ih, List.cons_append]

/-- A walk is made of the walks from each of the nodes. -/
theorem walk_cons (node : Node) (nodes : List Node) :
  walk (node :: nodes) = node :: (walk node.children ++ walk nodes)
  := by
  rw [walk, walk_append]

theorem descendants_eq (node : Node) :
  node.descendants = node :: walk node.children
  := by
  rw [descendants, walk_cons, walk, List.append_nil]

theorem mem_walk_of_mem {node : Node} {nodes : List Node} (h : node ∈ nodes) :
  node ∈ walk nodes
  := by
  obtain ⟨xs, ys, rfl⟩ := List.append_of_mem h
  rw [walk_append, walk_cons]
  simp

theorem mem_descendants_self (node : Node) :
  node ∈ node.descendants
  := by
  rw [descendants_eq]
  apply List.mem_cons_self

/-- A walk leads to the nodes below those that it starts with. -/
theorem mem_walk_of_descendant {node top : Node} {nodes : List Node} (htop : top ∈ nodes)
    (h : node ∈ top.descendants) :
  node ∈ walk nodes
  := by
  obtain ⟨xs, ys, rfl⟩ := List.append_of_mem htop
  rw [walk_append, walk_cons, ← List.cons_append, ← descendants_eq]
  exact List.mem_append_right _ (List.mem_append_left _ h)

/-- A walk leads to the children of the nodes that it leads to. -/
theorem mem_walk_of_child {node child : Node} {nodes : List Node} (h : node ∈ walk nodes)
    (hchild : child ∈ node.children) :
  child ∈ walk nodes
  := by
  induction nodes using walk.induct with
  | case1 =>
      rw [walk] at h
      cases h
  | case2 first stack ih =>
      rw [walk] at h ⊢
      apply List.mem_cons_of_mem
      rcases List.mem_cons.mp h with rfl | h
      · apply mem_walk_of_mem (List.mem_append_left _ hchild)
      · apply ih h

/-- What is so for all nodes with the label and the span of a match of a definition, and for all
nodes inside the match, is so for all nodes that the match leaves. -/
theorem forall_walk_nodes {p : Node → Prop} {x : Definition} {id : RuleId} {span : Span}
    {inside : List Node} (hself : ∀ node, node.label = x.label → node.span = span → p node)
    (hinside : x.leaf = false → ∀ node ∈ walk inside, p node) :
  ∀ node ∈ walk (x.nodes id span inside), p node
  := by
  intro node hmem
  rw [Definition.nodes] at hmem
  split at hmem
  · simp [walk] at hmem
  · rw [walk_cons, walk, List.append_nil, List.mem_cons] at hmem
    obtain rfl | hmem := hmem
    · exact hself _ rfl rfl
    · cases hleaf : x.leaf with
      | true => simp [hleaf, walk] at hmem
      | false =>
          rw [hleaf] at hmem
          exact hinside hleaf node hmem

/-! ### Order -/

/-- The nodes lie one after the other between two offsets. -/
def InOrder (stop : Nat) : Nat → List Node → Prop
  | start, [] => start ≤ stop
  | start, node :: nodes =>
    start ≤ node.span.start ∧ node.span.start ≤ node.span.stop
      ∧ InOrder stop node.span.stop nodes

namespace InOrder

variable {start middle stop : Nat} {ns ms : List Node}

theorem start_le_stop (h : InOrder stop start ns) :
  start ≤ stop
  := by
  induction ns generalizing start with
  | nil => apply h
  | cons node nodes ih =>
      obtain ⟨hstart, hspan, hrest⟩ := h
      have := ih hrest
      omega

theorem of_le (h : InOrder stop middle ns) (hle : start ≤ middle) :
  InOrder stop start ns
  := by
  cases ns with
  | nil => apply Nat.le_trans hle h
  | cons node nodes => exact ⟨Nat.le_trans hle h.1, h.2⟩

theorem append (hn : InOrder middle start ns) (hm : InOrder stop middle ms) :
  InOrder stop start (ns ++ ms)
  := by
  induction ns generalizing start with
  | nil => apply hm.of_le hn
  | cons node nodes ih => exact ⟨hn.1, hn.2.1, ih hn.2.2⟩

/-- Nodes in order lie between the offsets. -/
theorem inside (h : InOrder stop start ns) {node : Node} (hmem : node ∈ ns) :
  start ≤ node.span.start ∧ node.span.stop ≤ stop
  := by
  induction ns generalizing start with
  | nil => cases hmem
  | cons first nodes ih =>
      obtain ⟨hstart, hspan, hrest⟩ := h
      cases hmem with
      | head => exact ⟨hstart, hrest.start_le_stop⟩
      | tail _ hmem =>
          obtain ⟨hnode, hstop⟩ := ih hrest hmem
          exact ⟨by omega, hstop⟩

/-- Of nodes in order each ends before the next begins. -/
theorem isChain (h : InOrder stop start ns) :
  ns.IsChain fun a b => a.span.stop ≤ b.span.start
  := by
  induction ns generalizing start with
  | nil => exact .nil
  | cons node nodes ih =>
      obtain ⟨-, -, hrest⟩ := h
      cases nodes with
      | nil => exact .singleton node
      | cons next nodes => exact .cons_cons hrest.1 (ih hrest)

end InOrder

end Node

namespace Grows

variable {d : Draft} {e : Expr} {here there : Cursor} {ns : List Node}

/-- The nodes of a match lie one after the other inside it. -/
theorem inOrder (h : Grows d e here there ns) :
  Node.InOrder there.offset here.offset ns
  := by
  induction h with
  | reads _ _ hoffset =>
      rw [Node.InOrder, hoffset]
      apply Nat.le_add_right
  | seqNil | starStop | optionalNone | ahead | notAhead => apply Nat.le_refl
  | seqNext _ _ ih ihNext | starNext _ _ ih ihNext | plus _ _ ih ihNext => apply ih.append ihNext
  | choiceFirst _ ih | choiceNext _ _ ih | optionalSome _ ih => apply ih
  | rule _ _ h ih =>
      have hspan := h.reaches.offset_le
      rw [Definition.nodes]
      split
      · apply hspan
      · exact ⟨Nat.le_refl _, hspan, Nat.le_refl _⟩

end Grows

/-! ### What nodes are matches of -/

/-- The node is the match of a definition that makes nodes, at a position reached from `start`. -/
inductive Grown (d : Draft) (start : Cursor) (x : Definition) : Node → Prop where
  | intro {id : RuleId} {here there : Cursor} {inside : List Node} :
    d.definitions[id]? = some x →
    x.hidden = false →
    start.Reaches here →
    Grows d x.body here there inside →
    Grown d start x ⟨x.label, id, ⟨here.offset, there.offset⟩, if x.leaf then [] else inside⟩

theorem Grown.of_reaches {d : Draft} {start here : Cursor} {x : Definition} {node : Node}
    (h : Grown d here x node) (hreaches : start.Reaches here) :
  Grown d start x node
  := by
  cases h with
  | intro hx hhidden hhere hgrows => exact .intro hx hhidden (hreaches.trans hhere) hgrows

namespace Expr

mutual

/-- The names of the rules that an expression refers to. -/
def refs : Expr → List String
  | .literal _ | .char _ | .any | .endOfInput => []
  | .seq items => refsAll items
  | .choice items => refsAll items
  | .star body => refs body
  | .plus body => refs body
  | .optional body => refs body
  | .ahead body => refs body
  | .notAhead body => refs body
  | .rule name => [name]

/-- The names of the rules that several expressions refer to. -/
def refsAll : List Expr → List String
  | [] => []
  | item :: items => refs item ++ refsAll items

end

/-- The expression refers to none of the names. -/
def Avoids (names : List String) (e : Expr) : Prop :=
  ∀ name ∈ e.refs, name ∉ names

instance (names : List String) (e : Expr) : Decidable (e.Avoids names) :=
  inferInstanceAs (Decidable (∀ name ∈ e.refs, name ∉ names))

theorem avoids_seq_cons {names : List String} {item : Expr} {items : List Expr} :
  Avoids names (.seq (item :: items)) ↔ Avoids names item ∧ Avoids names (.seq items)
  := by
  simp only [Avoids, refs, refsAll, List.mem_append, or_imp, forall_and]

theorem avoids_choice_cons {names : List String} {item : Expr} {items : List Expr} :
  Avoids names (.choice (item :: items)) ↔ Avoids names item ∧ Avoids names (.choice items)
  := by
  simp only [Avoids, refs, refsAll, List.mem_append, or_imp, forall_and]

end Expr

/-- The rules of other names refer to none of the names. -/
def Draft.Confines (d : Draft) (names : List String) : Prop :=
  ∀ x ∈ d.definitions, x.name ∉ names → x.body.Avoids names

/-- Each node at or below those of a match is itself the match of a definition. Where the expression
avoids some names that the draft confines, the definition has none of these names. -/
theorem Grows.grown_avoiding {d : Draft} {names : List String} (hconfines : d.Confines names)
    {e : Expr} {here there : Cursor} {ns : List Node} (h : Grows d e here there ns)
    (havoids : e.Avoids names) :
  ∀ node ∈ Node.walk ns, ∃ x, x.name ∉ names ∧ Grown d here x node
  := by
  induction h with
  | reads | seqNil | starStop | optionalNone | ahead | notAhead => simp [Node.walk]
  | seqNext h _ ih ihNext =>
      obtain ⟨hitem, hitems⟩ := Expr.avoids_seq_cons.mp havoids
      intro node hmem
      rw [Node.walk_append, List.mem_append] at hmem
      cases hmem with
      | inl hmem => apply ih hitem node hmem
      | inr hmem =>
          obtain ⟨x, hname, hgrown⟩ := ihNext hitems node hmem
          exact ⟨x, hname, hgrown.of_reaches h.reaches⟩
  | starNext h _ ih ihNext | plus h _ ih ihNext =>
      intro node hmem
      rw [Node.walk_append, List.mem_append] at hmem
      cases hmem with
      | inl hmem => apply ih havoids node hmem
      | inr hmem =>
          obtain ⟨x, hname, hgrown⟩ := ihNext havoids node hmem
          exact ⟨x, hname, hgrown.of_reaches h.reaches⟩
  | choiceFirst _ ih => apply ih (Expr.avoids_choice_cons.mp havoids).1
  | choiceNext _ _ ih => apply ih (Expr.avoids_choice_cons.mp havoids).2
  | optionalSome _ ih => apply ih havoids
  | @rule name _ x _ _ ns hid hx h ih =>
      have hname : x.name ∉ names := by
        rw [Draft.name_of_ruleId? hid hx]
        apply havoids name (List.mem_singleton_self name)
      intro node hmem
      rw [Definition.nodes] at hmem
      split at hmem
      · simp [Node.walk] at hmem
      · rename_i hhidden
        rw [Node.walk_cons, Node.walk, List.append_nil, List.mem_cons] at hmem
        obtain rfl | hmem := hmem
        · exact ⟨x, hname, .intro hx (by simpa using hhidden) (.refl _) h⟩
        · cases hleaf : x.leaf with
          | true => simp [hleaf, Node.walk] at hmem
          | false =>
              rw [hleaf] at hmem
              apply ih (hconfines x (List.mem_of_getElem? hx) hname) node hmem

/-- Each node at or below those of a match is itself the match of a definition. -/
theorem Grows.grown {d : Draft} {e : Expr} {here there : Cursor} {ns : List Node}
    (h : Grows d e here there ns) :
  ∀ node ∈ Node.walk ns, ∃ x, Grown d here x node
  := by
  intro node hmem
  have hconfines : d.Confines [] := by simp [Draft.Confines, Expr.Avoids]
  obtain ⟨x, -, hgrown⟩ := h.grown_avoiding hconfines (by simp [Expr.Avoids]) node hmem
  exact ⟨x, hgrown⟩

/-! ### Well-formed nodes -/

/-- A node stands in a tree as its rule and the nodes around it ask for. -/
structure Node.WellFormed (g : Grammar) (node : Node) : Prop where
  start_le_stop : node.span.start ≤ node.span.stop
  inside : ∀ child ∈ node.children,
    node.span.start ≤ child.span.start ∧ child.span.stop ≤ node.span.stop
  /-- Each child ends before the next begins. -/
  in_order : node.children.IsChain fun a b => a.span.stop ≤ b.span.start
  rule : ∃ rule, g.rule? node.rule = some rule ∧ node.label = rule.label
    ∧ (rule.leaf = true → node.children = [])
  /-- The children belong to rules that make nodes. -/
  visible : ∀ child ∈ node.children, ∃ rule, g.rule? child.rule = some rule ∧ rule.hidden = false

section

variable {d : Draft} {g : Grammar}

/-- The rule of a node is not hidden. -/
theorem Grown.visible (hlinked : LinkedFrom d g) {start : Cursor} {x : Definition} {node : Node}
    (h : Grown d start x node) :
  ∃ rule, g.rule? node.rule = some rule ∧ rule.hidden = false
  := by
  cases h with
  | intro hx hhidden _ _ =>
      obtain ⟨rule, hrule, rfl, -⟩ := hlinked.rule hx
      exact ⟨rule, hrule, hhidden⟩

/-- A node over a match, with the nodes of the match below it or with none, is well formed. -/
theorem Grows.wellFormed (hlinked : LinkedFrom d g) {id : RuleId} {x : Definition}
    (hx : d.definitions[id]? = some x) {here there : Cursor} {inside children : List Node}
    (h : Grows d x.body here there inside)
    (hchildren : children = [] ∨ children = inside ∧ x.leaf = false) :
  (⟨x.label, id, ⟨here.offset, there.offset⟩, children⟩ : Node).WellFormed g
  := by
  obtain ⟨rule, hrule, rfl, -⟩ := hlinked.rule hx
  have hspan := h.reaches.offset_le
  obtain rfl | ⟨rfl, hleaf⟩ := hchildren
  · exact
      { start_le_stop := hspan
        inside := by simp
        in_order := .nil
        rule := ⟨rule, hrule, rfl, fun _ => rfl⟩
        visible := by simp }
  · exact
      { start_le_stop := hspan
        inside := fun child hmem => h.inOrder.inside hmem
        in_order := h.inOrder.isChain
        rule := ⟨rule, hrule, rfl, fun htrue => by simp [hleaf] at htrue⟩
        visible := fun child hmem => by
          obtain ⟨_, hgrown⟩ := h.grown child (Node.mem_walk_of_mem hmem)
          apply hgrown.visible hlinked }

theorem Grown.wellFormed (hlinked : LinkedFrom d g) {start : Cursor} {x : Definition}
    {node : Node} (h : Grown d start x node) :
  node.WellFormed g
  := by
  cases h with
  | intro hx _ _ hgrows =>
      apply hgrows.wellFormed hlinked hx
      cases x.leaf with
      | true => exact .inl rfl
      | false => exact .inr ⟨rfl, rfl⟩

/-- The root that a match of a rule is given. -/
theorem rootNode_inRule (rule : Rule) (id : RuleId) (m : Match) :
  rootNode rule id { here := m.stop, nodes := (m.inRule id rule 0).nodes }
    = ⟨rule.label, id, ⟨0, m.stop.offset⟩,
        if rule.hidden ∨ rule.leaf then [] else m.nodes.reverse⟩
  := by
  cases hhidden : rule.hidden with
  | true => simp [rootNode, rootNode.leaf, Match.inRule, Match.node?, hhidden]
  | false => simp [rootNode, Match.inRule, Match.node?, hhidden]

/-- Where a parse matches, the definition of its rule grows the nodes below the root, and the root
is the node of that match. -/
theorem exists_grows_of_parse? (hbuild : d.build = .ok g) {o : Options} {id : RuleId}
    {text : String} {tree : Tree} {stats : Stats} {log : List Event}
    (hparse : parse? g o id text = some (.matched tree stats, log)) :
  ∃ x there nodes, d.definitions[id]? = some x ∧ Grows d x.body (.atStart text) there nodes
    ∧ there.offset = tree.stop
    ∧ tree.root = ⟨x.label, id, ⟨0, tree.stop⟩, if x.hidden ∨ x.leaf then [] else nodes⟩
  := by
  obtain ⟨rule, hrule, -⟩ := Option.map_eq_some_iff.mp hparse
  have hlinked := Draft.linkedFrom_of_build hbuild
  obtain ⟨c⟩ := Draft.exists_certificate_of_build hbuild
  have hid : id < d.definitions.length := by
    rw [← hlinked.size]
    apply (Array.getElem?_eq_some_iff.mp hrule).1
  have hx := List.getElem?_eq_getElem hid
  generalize d.definitions[id] = x at hx
  obtain ⟨rule', r, e, hrule', hrun, -⟩ := Draft.exists_run hbuild hx text
  obtain rfl := Option.some.inj (hrule.symm.trans hrule')
  obtain ⟨outcome, log', hparse', hend⟩ := hrun.parse? hrule o
  obtain ⟨rfl, rfl⟩ := Prod.mk.inj (Option.some.inj (hparse.symm.trans hparse'))
  obtain ⟨stats', heq⟩ | ⟨limit, hsome, -⟩ := hend
  · obtain ⟨rule'', hrule'', rfl, hlink⟩ := hlinked.rule hx
    obtain rfl := Option.some.inj (hrule.symm.trans hrule'')
    cases hrun with
    | unknown hnone =>
        rw [hrule] at hnone
        cases hnone
    | @call _ _ _ r _ hsame hbody =>
        obtain rfl := Option.some.inj (hrule.symm.trans hsame)
        cases r with
        | none => cases heq
        | some m =>
            cases heq
            refine ⟨_, m.stop, m.nodes.reverse, hx, ?_, rfl, rootNode_inRule rule id m⟩
            apply Grows.of_link _ hlink
            intro e hcodes
            apply hbody.grows c hlinked m rfl e hcodes (c.repeatsNullable hrule)
  · cases hsome

/-- A node in the tree of a parse is a match of the definition of its rule. -/
theorem grown_of_parse? (hbuild : d.build = .ok g) {o : Options} {id : RuleId}
    {text : String} {tree : Tree} {stats : Stats} {log : List Event}
    (hparse : parse? g o id text = some (.matched tree stats, log)) {node : Node}
    (hmem : node ∈ tree.root.descendants) {x : Definition} (hx : d.definitions[node.rule]? = some x)
    (hhidden : x.hidden = false) :
  Grown d (.atStart text) x node
  := by
  obtain ⟨y, there, nodes, hy, hgrows, hstop, hroot⟩ := exists_grows_of_parse? hbuild hparse
  rw [Node.descendants_eq, List.mem_cons] at hmem
  rcases hmem with rfl | hmem
  · rw [hroot] at hx ⊢
    obtain rfl := Option.some.inj (hy.symm.trans hx)
    rw [← hstop]
    simp only [hhidden, Bool.false_eq_true, false_or]
    exact .intro hx hhidden (.refl _) hgrows
  · have hwalk : node ∈ Node.walk nodes := by
      rw [hroot] at hmem
      dsimp only at hmem
      split at hmem
      · simp [Node.walk] at hmem
      · apply hmem
    obtain ⟨z, hgrown⟩ := hgrows.grown node hwalk
    cases hgrown with
    | intro hz hhidden' hstart hgrows =>
        obtain rfl := Option.some.inj (hz.symm.trans hx)
        exact .intro hz hhidden' hstart hgrows

/-- Every node in the tree of a parse is well formed. -/
theorem wellFormed_of_parse? (hbuild : d.build = .ok g) {o : Options} {id : RuleId}
    {text : String} {tree : Tree} {stats : Stats} {log : List Event}
    (hparse : parse? g o id text = some (.matched tree stats, log)) {node : Node}
    (hmem : node ∈ tree.root.descendants) :
  node.WellFormed g
  := by
  obtain ⟨x, there, nodes, hx, hgrows, hstop, hroot⟩ := exists_grows_of_parse? hbuild hparse
  have hlinked := Draft.linkedFrom_of_build hbuild
  have hchildren : tree.root.children = []
      ∨ tree.root.children = nodes ∧ x.leaf = false := by
    rw [hroot]
    cases x.hidden <;> cases x.leaf <;> simp
  rw [Node.descendants_eq, List.mem_cons] at hmem
  obtain rfl | hmem := hmem
  · have hwell := hgrows.wellFormed hlinked hx hchildren
    rw [hstop] at hwell
    rw [hroot] at hwell ⊢
    apply hwell
  · obtain hnil | ⟨heq, -⟩ := hchildren
    · simp [hnil, Node.walk] at hmem
    · rw [heq] at hmem
      obtain ⟨_, hgrown⟩ := hgrows.grown node hmem
      apply hgrown.wellFormed hlinked

/-- The tree of a match is well formed. The root spans what is matched, every node is well formed,
and the nodes below the root are those that the definition of its rule grows. -/
theorem parse_tree_wellFormed (hbuild : d.build = .ok g) {o : Options} {id : RuleId}
    {text : String} {tree : Tree} {stats : Stats} {log : List Event}
    (hparse : parse? g o id text = some (.matched tree stats, log)) :
  tree.root.span = ⟨0, tree.stop⟩
    ∧ (∀ node ∈ tree.root.descendants, node.WellFormed g)
    ∧ ∃ x there nodes, d.definitions[id]? = some x ∧ Grows d x.body (.atStart text) there nodes
      ∧ there.offset = tree.stop
      ∧ tree.root = ⟨x.label, id, ⟨0, tree.stop⟩, if x.hidden ∨ x.leaf then [] else nodes⟩
  := by
  obtain ⟨x, there, nodes, hx, hgrows, hstop, hroot⟩ := exists_grows_of_parse? hbuild hparse
  refine ⟨by rw [hroot], ?_, x, there, nodes, hx, hgrows, hstop, hroot⟩
  intro node hmem
  apply wellFormed_of_parse? hbuild hparse hmem

end

/-- The end of the tree of a match. -/
def Outcome.stop? : Outcome → Option Nat
  | .matched tree _ => some tree.stop
  | .mismatched _ => none

/-- The tree of the descriptor of an array of arrays is well formed. -/
theorem parse_descriptor_wellFormed :
  ∃ tree stats log, parse? descriptorDraft.buildD {} 0 "[[I" = some (.matched tree stats, log)
    ∧ tree.root.span = ⟨0, 3⟩
    ∧ ∀ node ∈ tree.root.descendants, node.WellFormed descriptorDraft.buildD
  := by
  have hstop : (parse? descriptorDraft.buildD {} 0 "[[I").bind (·.1.stop?) = some 3 := rfl
  obtain ⟨⟨outcome, log⟩, hparse, hstop⟩ := Option.bind_eq_some_iff.mp hstop
  cases outcome with
  | mismatched m => cases hstop
  | matched tree stats =>
      obtain ⟨hspan, hwell, -⟩ := parse_tree_wellFormed build_descriptorDraft hparse
      have hthree : tree.stop = 3 := Option.some.inj hstop
      rw [hthree] at hspan
      exact ⟨tree, stats, log, hparse, hspan, hwell⟩

end ClassTranscript.Peg
