import ClassTranscript.Proofs.Peg.TreeShape
import Mathlib.Data.List.Chain

/-!
# Document order

A node below another is found by its path: the numbers of the children that lead to it. A walk that
keeps the nodes to come on a stack lists the nodes below a node by the order of their paths, each
path once (`map_some_descendants`), and an outline has their lines in that order (`outline_eq`). In
the tree of a parse no node begins before one that is listed earlier (`starts_of_inOrder`).
-/

namespace ClassTranscript.Peg

namespace Node

/-- The node at a path: the one that is reached by going down to the children of these numbers. -/
def at? (node : Node) : List Nat → Option Node
  | [] => some node
  | i :: path => node.children[i]?.bind (·.at? path)

/-- The node at a path into several trees, where the first number is that of the tree. -/
def atAll? (nodes : List Node) : List Nat → Option Node
  | [] => none
  | i :: path => nodes[i]?.bind (·.at? path)

mutual

/-- The paths to a node and to all nodes below it, a path before those that go on from it. -/
def paths : Node → List (List Nat)
  | ⟨_, _, _, children⟩ => [] :: pathsFrom 0 children

/-- The paths into several trees, the first of which has the number `i`. -/
def pathsFrom (i : Nat) : List Node → List (List Nat)
  | [] => []
  | node :: nodes => (paths node).map (i :: ·) ++ pathsFrom (i + 1) nodes

end

theorem paths_eq (node : Node) :
  node.paths = [] :: pathsFrom 0 node.children
  := by
  cases node
  rfl

theorem outlineLines_eq (p : Palette) (source : String) (depth : Nat) (node : Node) :
  node.outlineLines p source depth
    = outlineLine p source depth node :: outlineLinesAll p source (depth + 1) node.children
  := by
  cases node
  rfl

/-- What holds of no tree, and of a tree and those after it where it holds of the children of the
tree and of those after it, holds of any trees. -/
theorem forest_induction {P : List Node → Prop} (nil : P [])
    (cons : ∀ node nodes, P node.children → P nodes → P (node :: nodes)) :
  ∀ nodes, P nodes
  | [] => nil
  | node :: nodes => cons node nodes (forest_induction nil cons node.children)
      (forest_induction nil cons nodes)
termination_by nodes => sizeAll nodes
decreasing_by
  all_goals
    rw [sizeAll, size_eq]
    omega

/-! ### Paths in order -/

theorem mem_pathsFrom {i : Nat} {nodes : List Node} {path : List Nat} :
  path ∈ pathsFrom i nodes ↔
    ∃ j node rest, path = (i + j) :: rest ∧ nodes[j]? = some node ∧ rest ∈ node.paths
  := by
  induction nodes generalizing i with
  | nil => simp [pathsFrom]
  | cons node nodes ih =>
      rw [pathsFrom, List.mem_append, List.mem_map, ih]
      constructor
      · rintro (⟨rest, hrest, rfl⟩ | ⟨j, child, rest, rfl, hget, hrest⟩)
        · exact ⟨0, node, rest, rfl, rfl, hrest⟩
        · exact ⟨j + 1, child, rest, by rw [Nat.add_assoc, Nat.add_comm 1], hget, hrest⟩
      · rintro ⟨_ | j, child, rest, rfl, hget, hrest⟩
        · obtain rfl := Option.some.inj hget
          exact .inl ⟨rest, hrest, rfl⟩
        · exact .inr ⟨j, child, rest, by rw [Nat.add_assoc, Nat.add_comm 1], hget, hrest⟩

/-- The paths are those at which there is a node. -/
theorem mem_paths_iff {node : Node} {path : List Nat} :
  path ∈ node.paths ↔ (node.at? path).isSome
  := by
  induction path generalizing node with
  | nil => simp [paths_eq, at?]
  | cons i path ih =>
      rw [paths_eq, List.mem_cons, or_iff_right (by simp), mem_pathsFrom, at?]
      constructor
      · rintro ⟨j, child, rest, heq, hget, hrest⟩
        obtain ⟨rfl, rfl⟩ := List.cons.inj heq
        rw [Nat.zero_add, hget, Option.bind_some, ← ih]
        apply hrest
      · intro h
        obtain ⟨found, hfound⟩ := Option.isSome_iff_exists.mp h
        obtain ⟨child, hget, hat⟩ := Option.bind_eq_some_iff.mp hfound
        refine ⟨i, child, path, by rw [Nat.zero_add], hget, ?_⟩
        rw [ih, hat, Option.isSome_some]

/-- Each path comes before the next in the order of lists of numbers. -/
theorem pairwise_pathsFrom (nodes : List Node) :
  ∀ i, (pathsFrom i nodes).Pairwise (· < ·)
  := by
  induction nodes using forest_induction with
  | nil =>
      intro i
      exact .nil
  | cons node nodes ihChildren ih =>
      intro i
      rw [pathsFrom, List.pairwise_append, List.pairwise_map, paths_eq]
      refine ⟨?_, ih (i + 1), ?_⟩
      · have hchildren : (pathsFrom 0 node.children).Pairwise fun a b => i :: a < i :: b := by
          apply (ihChildren 0).imp
          intro a b hlt
          apply List.cons_lt_cons_iff.mpr (.inr ⟨rfl, hlt⟩)
        apply List.pairwise_cons.mpr ⟨_, hchildren⟩
        intro path hmem
        obtain ⟨j, _, rest, rfl, -⟩ := mem_pathsFrom.mp hmem
        apply List.cons_lt_cons_iff.mpr (.inr ⟨rfl, List.nil_lt_cons _ _⟩)
      · intro first hfirst second hsecond
        obtain ⟨path, -, rfl⟩ := List.mem_map.mp hfirst
        obtain ⟨j, _, rest, rfl, -⟩ := mem_pathsFrom.mp hsecond
        apply List.cons_lt_cons_iff.mpr (.inl (by omega))

theorem pairwise_paths (node : Node) :
  node.paths.Pairwise (· < ·)
  := by
  rw [paths_eq]
  apply List.pairwise_cons.mpr ⟨_, pairwise_pathsFrom node.children 0⟩
  intro path hmem
  obtain ⟨j, _, rest, rfl, -⟩ := mem_pathsFrom.mp hmem
  apply List.nil_lt_cons

/-! ### Walks along paths -/

theorem at?_of_mem_pathsFrom {node : Node} {path : List Nat}
    (h : path ∈ pathsFrom 0 node.children) :
  node.at? path = atAll? node.children path
  := by
  obtain ⟨j, _, rest, rfl, -⟩ := mem_pathsFrom.mp h
  rfl

/-- A walk lists the nodes at the paths, in the order of the paths. -/
theorem map_some_walk (nodes : List Node) :
  ∀ before, (walk nodes).map some
    = (pathsFrom before.length nodes).map (atAll? (before ++ nodes))
  := by
  induction nodes using forest_induction with
  | nil =>
      intro before
      rw [walk, pathsFrom, List.map_nil, List.map_nil]
  | cons node nodes ihChildren ih =>
      intro before
      have hnode (path : List Nat) :
          atAll? (before ++ node :: nodes) (before.length :: path) = node.at? path := by
        simp [atAll?]
      have hchildren : (walk node.children).map some
          = (pathsFrom 0 node.children).map node.at? := by
        rw [ihChildren [], List.length_nil, List.nil_append]
        apply List.map_congr_left
        intro path hmem
        rw [at?_of_mem_pathsFrom hmem]
      have hrest := ih (before ++ [node])
      rw [List.length_append, List.length_singleton, List.append_assoc] at hrest
      rw [walk_cons, List.map_cons, List.map_append, hchildren, hrest, pathsFrom, paths_eq,
        List.map_append, List.map_map, List.map_cons, List.cons_append]
      congr 1
      · simp [hnode, at?]
      · simp [Function.comp_def, hnode]

theorem length_pathsFrom (nodes : List Node) :
  ∀ i, (pathsFrom i nodes).length = (walk nodes).length
  := by
  induction nodes using forest_induction with
  | nil =>
      intro i
      rw [pathsFrom, walk]
      rfl
  | cons node nodes ihChildren ih =>
      intro i
      simp [pathsFrom, paths_eq, walk_cons, ihChildren, ih, Nat.add_right_comm]

/-- The lines of an outline are those of the nodes of a walk, each as deep as its path is long. -/
theorem outlineLinesAll_eq (p : Palette) (source : String) (nodes : List Node) :
  ∀ depth i, outlineLinesAll p source (depth + 1) nodes
    = (pathsFrom i nodes).zipWith
      (fun path node => outlineLine p source (depth + path.length) node) (walk nodes)
  := by
  induction nodes using forest_induction with
  | nil =>
      intro depth i
      rw [outlineLinesAll, pathsFrom, List.zipWith_nil_left]
  | cons node nodes ihChildren ih =>
      intro depth i
      rw [outlineLinesAll, outlineLines_eq, ihChildren (depth + 1) 0, ih depth (i + 1), walk_cons,
        pathsFrom, paths_eq, List.map_cons, List.cons_append, List.cons_append,
        List.zipWith_cons_cons,
        List.zipWith_append (by rw [List.length_map, length_pathsFrom]), List.zipWith_map_left]
      simp only [List.length_cons, List.length_nil, Nat.add_assoc, Nat.add_comm 1]

theorem map_some_descendants (node : Node) :
  node.descendants.map some = node.paths.map node.at?
  := by
  have hchildren := map_some_walk node.children []
  rw [List.length_nil, List.nil_append] at hchildren
  rw [descendants_eq, paths_eq, List.map_cons, List.map_cons, hchildren, at?]
  congr 1
  apply List.map_congr_left
  intro path hmem
  rw [at?_of_mem_pathsFrom hmem]

/-- An outline has the lines of a node and those below it in the order of a walk. -/
theorem outline_eq (p : Palette) (source : String) (node : Node) :
  node.outline p source = String.join (node.paths.zipWith
    (fun path node => outlineLine p source path.length node ++ "\n") node.descendants)
  := by
  rw [outline, outlineLines_eq, outlineLinesAll_eq p source node.children 0 0, descendants_eq,
    paths_eq, List.zipWith_cons_cons, List.map_cons, List.map_zipWith]
  simp only [Nat.zero_add, List.length_nil]

/-- A node comes before those below it, and these come child by child. -/
theorem descendants_eq_flatMap (node : Node) :
  node.descendants = node :: node.children.flatMap descendants
  := by
  have hwalk (nodes : List Node) : walk nodes = nodes.flatMap descendants := by
    induction nodes with
    | nil => rw [walk, List.flatMap_nil]
    | cons first nodes ih =>
        rw [walk_cons, ih, List.flatMap_cons, descendants_eq, List.cons_append]
  rw [descendants_eq, hwalk]

theorem first?_eq_head? (node : Node) (label : String) :
  node.first? label = (node.findAll label).head?
  := List.head?_filter.symm

/-! ### Starts -/

/-- Nodes that follow each other between two offsets, each ending before the next begins, lie there
in order. -/
theorem inOrder_of_isChain {start stop : Nat} {nodes : List Node} (hle : start ≤ stop)
    (hhead : ∀ node ∈ nodes.head?, start ≤ node.span.start)
    (hspan : ∀ node ∈ nodes, node.span.start ≤ node.span.stop ∧ node.span.stop ≤ stop)
    (hchain : nodes.IsChain fun a b => a.span.stop ≤ b.span.start) :
  InOrder stop start nodes
  := by
  induction nodes generalizing start with
  | nil => apply hle
  | cons node nodes ih =>
      obtain ⟨hnode, hstop⟩ := hspan node List.mem_cons_self
      obtain ⟨hnext, hrest⟩ := List.isChain_cons.mp hchain
      refine ⟨hhead node rfl, hnode, ih hstop hnext ?_ hrest⟩
      intro later hlater
      apply hspan later (List.mem_cons_of_mem _ hlater)

/-- The children of a node lie in order inside it where the node and they are well formed. -/
theorem WellFormed.inOrder {g : Grammar} {node : Node} (h : node.WellFormed g)
    (hchildren : ∀ child ∈ node.children, child.WellFormed g) :
  InOrder node.span.stop node.span.start node.children
  := by
  apply inOrder_of_isChain h.start_le_stop _ _ h.in_order
  · intro child hchild
    apply (h.inside child (List.mem_of_mem_head? hchild)).1
  · intro child hchild
    exact ⟨(hchildren child hchild).start_le_stop, (h.inside child hchild).2⟩

/-- Where the nodes on a stack lie in order, and so do the children of every node that a walk from
there comes to, the walk comes to no node that begins before one that it has been at. -/
theorem starts_of_inOrder {start stop : Nat} {stack : List Node} (h : InOrder stop start stack)
    (hchildren : ∀ node ∈ walk stack, InOrder node.span.stop node.span.start node.children) :
  (walk stack).Pairwise (fun a b => a.span.start ≤ b.span.start)
    ∧ ∀ node ∈ walk stack, start ≤ node.span.start
  := by
  induction stack using walk.induct generalizing start with
  | case1 =>
      rw [walk]
      exact ⟨.nil, by simp⟩
  | case2 node stack ih =>
      rw [walk] at hchildren ⊢
      obtain ⟨hstart, -, hstack⟩ := h
      -- the children take the place of the node on the stack
      have hpushed := (hchildren node List.mem_cons_self).append hstack
      obtain ⟨hpairwise, hafter⟩ := ih hpushed fun later hlater =>
        hchildren later (List.mem_cons_of_mem _ hlater)
      refine ⟨List.pairwise_cons.mpr ⟨hafter, hpairwise⟩, ?_⟩
      intro later hlater
      obtain rfl | hlater := List.mem_cons.mp hlater
      · apply hstart
      · apply Nat.le_trans hstart (hafter later hlater)

/-- Of well-formed nodes, none begins before one that is listed earlier. -/
theorem pairwise_descendants {g : Grammar} {node : Node}
    (h : ∀ below ∈ node.descendants, below.WellFormed g) :
  node.descendants.Pairwise fun a b => a.span.start ≤ b.span.start
  := by
  have hself := h node (mem_descendants_self node)
  have hstack : InOrder node.span.stop node.span.start [node] :=
    ⟨Nat.le_refl _, hself.start_le_stop, Nat.le_refl _⟩
  apply (starts_of_inOrder hstack _).1
  intro below hbelow
  apply (h below hbelow).inOrder
  intro child hchild
  apply h child (mem_walk_of_child hbelow hchild)

end Node

/-- A walk from a node lists it and the nodes below it in document order: the node, then what is
below each child. This is the order of their paths, in which each path comes once, and that of the
lines of an outline; the first node with a label is the head of all nodes with the label. In the
tree of a parse the nodes with a label do not begin before one that is listed earlier. -/
theorem walks_in_document_order :
  (∀ node : Node, node.descendants = node :: node.children.flatMap Node.descendants
    ∧ (∃ paths : List (List Nat), paths.Pairwise (· < ·)
      ∧ (∀ path, path ∈ paths ↔ (node.at? path).isSome)
      ∧ node.descendants.map some = paths.map node.at?
      ∧ ∀ p source, node.outline p source = String.join (paths.zipWith
        (fun path node => node.outlineLine p source path.length ++ "\n") node.descendants))
    ∧ ∀ label, node.first? label = (node.findAll label).head?)
  ∧ ∀ (d : Draft) (g : Grammar) (o : Options) (id : RuleId) (text : String) (tree : Tree)
      (stats : Stats) (log : List Event), d.build = .ok g →
      parse? g o id text = some (.matched tree stats, log) →
      ∀ label, (tree.root.findAll label).Pairwise fun a b => a.span.start ≤ b.span.start
  := by
  constructor
  · intro node
    refine ⟨node.descendants_eq_flatMap, ⟨node.paths, node.pairwise_paths, ?_,
      node.map_some_descendants, ?_⟩, node.first?_eq_head?⟩
    · intro path
      apply Node.mem_paths_iff
    · intro p source
      apply node.outline_eq
  · intro d g o id text tree stats log hbuild hparse label
    apply List.Pairwise.filter
    apply Node.pairwise_descendants
    intro node hmem
    apply wellFormed_of_parse? hbuild hparse hmem

/-- In the tree of the descriptor of an array of arrays the nodes are found in document order. -/
theorem descriptor_in_document_order :
  ∃ tree stats log, parse? descriptorDraft.buildD {} 0 "[[I" = some (.matched tree stats, log)
    ∧ ∀ label, (tree.root.findAll label).Pairwise fun a b => a.span.start ≤ b.span.start
  := by
  have hstop : (parse? descriptorDraft.buildD {} 0 "[[I").bind (·.1.stop?) = some 3 := rfl
  obtain ⟨⟨outcome, log⟩, hparse, hstop⟩ := Option.bind_eq_some_iff.mp hstop
  cases outcome with
  | mismatched m => cases hstop
  | matched tree stats =>
      use tree, stats, log, hparse
      apply walks_in_document_order.2 _ _ _ _ _ _ _ _ build_descriptorDraft hparse

end ClassTranscript.Peg
