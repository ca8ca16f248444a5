import ClassTranscript.Json
import ClassTranscript.Peg.Op
import ClassTranscript.Text.Escape
import ClassTranscript.Text.Palette

/-!
# Parse trees

A `Node` is one match of a rule: its label, the span that it covers, and the matches inside it that
were kept. Nodes hold spans and not text, so the parsed text is passed back in to read what they
cover. Walks list nodes in document order: a node before the nodes inside it, and those from left to
right.
-/

namespace ClassTranscript.Peg

/-- A match of a rule. -/
structure Node where
  label : String
  rule : RuleId
  span : Span
  children : List Node

namespace Node

mutual

/-- The number of nodes of a tree. -/
def size : Node → Nat
  | ⟨_, _, _, children⟩ => 1 + sizeAll children

/-- The number of nodes of several trees. -/
def sizeAll : List Node → Nat
  | [] => 0
  | node :: nodes => size node + sizeAll nodes

end

theorem sizeAll_append (xs ys : List Node) :
  sizeAll (xs ++ ys) = sizeAll xs + sizeAll ys
  := by
  induction xs with
  | nil => simp [sizeAll]
  | cons node nodes ih => simp [sizeAll, ih, Nat.add_assoc]

theorem size_eq (node : Node) :
  node.size = 1 + sizeAll node.children
  := by
  cases node
  rfl

/-- The matched text, given the parsed text. -/
def text (node : Node) (source : String) : String :=
  node.span.slice source

/-- The first child with a label. -/
def child? (node : Node) (label : String) : Option Node :=
  node.children.find? (·.label == label)

/-- The children with a label. -/
def childrenLabeled (node : Node) (label : String) : List Node :=
  node.children.filter (·.label == label)

/-- The nodes of the trees on a stack, from its top. Each node is listed as it leaves the stack, and
its children take its place. -/
def walk : List Node → List Node
  | [] => []
  | node :: stack => node :: walk (node.children ++ stack)
termination_by stack => sizeAll stack
decreasing_by
  rw [sizeAll_append, sizeAll, size_eq]
  omega

/-- A node and all nodes below it, in document order. -/
def descendants (node : Node) : List Node :=
  walk [node]

/-- The first node with a label, the node itself included. -/
def first? (node : Node) (label : String) : Option Node :=
  node.descendants.find? (·.label == label)

/-- All nodes with a label, the node itself included. -/
def findAll (node : Node) (label : String) : List Node :=
  node.descendants.filter (·.label == label)

/-- The number of characters of a leaf that an outline shows. -/
def previewLength : Nat :=
  60

/-- The line of a node in an outline. A leaf shows the beginning of its text. -/
def outlineLine (p : Palette) (source : String) (depth : Nat) (node : Node) : String :=
  let head :=
    String.ofList (List.replicate (2 * depth) ' ') ++ p.paint p.blue node.label ++ " "
      ++ p.paint p.dim (toString node.span)
  if node.children.isEmpty then
    head ++ " " ++ p.paint p.green (Text.preview (node.text source) previewLength)
  else head

mutual

/-- The lines of an outline, each node indented by its depth. -/
def outlineLines (p : Palette) (source : String) (depth : Nat) : Node → List String
  | ⟨label, rule, span, children⟩ =>
    outlineLine p source depth ⟨label, rule, span, children⟩
      :: outlineLinesAll p source (depth + 1) children

/-- The lines of the outlines of several nodes. -/
def outlineLinesAll (p : Palette) (source : String) (depth : Nat) : List Node → List String
  | [] => []
  | node :: nodes => outlineLines p source depth node ++ outlineLinesAll p source depth nodes

end

/-- The outline of a node: one line for each node below it, each ended by a line feed. -/
def outline (p : Palette) (source : String) (node : Node) : String :=
  String.join ((node.outlineLines p source 0).map (· ++ "\n"))

/-- A span as a document. -/
def spanJson (span : Span) : Json :=
  .object [("start", .number span.start), ("end", .number span.stop)]

mutual

/-- A node as a document. A leaf has no field for its children. -/
def toJson : Node → Json
  | ⟨label, _, span, children⟩ =>
    .object
      ([("label", .text label), ("span", spanJson span)]
        ++ if children.isEmpty then [] else [("children", .array (toJsonAll children))])

/-- Several nodes as documents. -/
def toJsonAll : List Node → List Json
  | [] => []
  | node :: nodes => toJson node :: toJsonAll nodes

end

end Node

/-- A parse: the root node and the offset at which the match ends. -/
structure Tree where
  root : Node
  stop : Nat

/-- A tree as a document. -/
def Tree.toJson (t : Tree) : Json :=
  .object [("root", t.root.toJson), ("end", .number t.stop)]

end ClassTranscript.Peg
