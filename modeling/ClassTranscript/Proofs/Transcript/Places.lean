import ClassTranscript.Proofs.Transcript.Nodes

/-!
# Where members, fields and rows stand

`pick q nodes` are the nodes at or below some nodes whose labels satisfy a predicate. Where the
predicate holds of the labels of members, fields, tables and rows only, nothing is picked from other
nodes, so what is picked from a transcript is read off its parts (`ClassParts.pick_eq`,
`MemberParts.pick_eq`).
-/

namespace ClassTranscript.Transcript

open Peg

/-- The nodes of labels that satisfy a predicate, at or below some nodes, in document order. -/
def pick (q : String → Bool) (nodes : List Node) : List Node :=
  (Node.walk nodes).filter (q ·.label)

section

variable {q : String → Bool} {start : Cursor} {node : Node} {nodes ms : List Node}

theorem pick_nil :
  pick q [] = []
  := by
  rw [pick, Node.walk, List.filter_nil]

theorem pick_append :
  pick q (nodes ++ ms) = pick q nodes ++ pick q ms
  := by
  rw [pick, Node.walk_append, List.filter_append]
  rfl

theorem pick_cons :
  pick q (node :: nodes)
    = [node].filter (q ·.label) ++ pick q node.children ++ pick q nodes
  := by
  rw [pick, Node.walk_cons, ← List.singleton_append, List.filter_append, List.filter_append,
    List.append_assoc]
  rfl

theorem pick_singleton :
  pick q [node] = [node].filter (q ·.label) ++ pick q node.children
  := by
  rw [pick_cons, pick_nil, List.append_nil]

theorem pick_eq_flatMap :
  pick q nodes = nodes.flatMap fun node => pick q [node]
  := by
  induction nodes with
  | nil => apply pick_nil
  | cons node nodes ih => rw [List.flatMap_cons, ← ih, ← pick_append, List.singleton_append]

/-- Nodes of one label are all picked or none of them is. -/
theorem filter_label {label : String} (h : ∀ n ∈ nodes, n.label = label) :
  nodes.filter (q ·.label) = if q label then nodes else []
  := by
  split
  · rename_i hq
    rw [List.filter_eq_self]
    intro n hmem
    rw [h n hmem, hq]
  · rename_i hq
    rw [List.filter_eq_nil_iff]
    intro n hmem
    rw [h n hmem]
    apply hq

variable (hq : ∀ label, q label = true → label ∈ memberNames)

include hq

/-- Nothing is picked at or below a node that is not on the way. -/
theorem Made.pick_eq_nil {name : String} (hname : name ∉ memberNames) (h : Made start name node) :
  pick q [node] = []
  := by
  rw [pick, List.filter_eq_nil_iff]
  intro n hmem hn
  apply h.confined_of_not_mem hname n hmem (hq _ hn)

/-- Nothing is picked below a node whose rule does not refer to the rules on the way. -/
theorem Made.pick_children {x : Definition} (hx : x ∈ allDefinitions)
    (havoids : x.body.Avoids memberNames) (h : Made start x.name node) :
  pick q node.children = []
  := by
  rw [pick, List.filter_eq_nil_iff]
  intro n hmem hn
  apply h.confined hx havoids n hmem (hq _ hn)

/-- Of nodes below which nothing is picked, those of one label are all picked or none is. -/
theorem pick_made {x : Definition} (hx : x ∈ allDefinitions) (havoids : x.body.Avoids memberNames)
    (h : ∀ n ∈ nodes, Made start x.name n) :
  pick q nodes = if q x.name then nodes else []
  := by
  rw [← filter_label fun n hmem => (h n hmem).label_eq]
  induction nodes with
  | nil => apply pick_nil
  | cons node nodes ih =>
      rw [pick_cons, (h node List.mem_cons_self).pick_children hq hx havoids, List.append_nil,
        ih fun n hmem => h n (List.mem_cons_of_mem _ hmem), ← List.filter_append,
        List.singleton_append]

theorem pick_fields (h : ∀ n ∈ nodes, Made start "JavapField" n) :
  pick q nodes = if q "JavapField" then nodes else []
  := by
  apply pick_made hq (mem_members 1 rfl) _ h
  decide

/-- In a line number table the table itself and its rows can be picked. -/
theorem Made.pick_lines (h : Made start "LineNumberTable" node) :
  pick q [node] = (if q "LineNumberTable" then [node] else [])
    ++ if q "LineNumberRow" then node.children else []
  := by
  rw [pick_singleton, filter_label (by simpa using h.label_eq)]
  congr 1
  apply pick_made hq (mem_tables 1 rfl) _ h.lineRows
  decide

/-- In a local variable table the table itself and its rows can be picked. -/
theorem Made.pick_locals (h : Made start "LocalVariableTable" node) :
  pick q [node] = (if q "LocalVariableTable" then [node] else [])
    ++ if q "LocalVariableRow" then node.children else []
  := by
  rw [pick_singleton, filter_label (by simpa using h.label_eq)]
  congr 1
  apply pick_made hq (mem_tables 4 rfl) _ h.variableRows
  decide

/-- What can be picked from a member. -/
theorem MemberParts.pick_parts (parts : MemberParts start node) (h : Made start "JavapMember" node) :
  pick q [node] = (if q "JavapMember" then [node] else [])
    ++ (if q "JavapField" then parts.fields else [])
    ++ (pick q [parts.lines] ++ pick q [parts.locals])
  := by
  have hsignature := parts.made_signature.pick_eq_nil hq (by decide)
  have htables : [parts.signature, parts.lines, parts.locals]
      = [parts.signature] ++ [parts.lines] ++ [parts.locals] := rfl
  rw [pick_singleton, filter_label (by simpa using h.label_eq), parts.children_eq, htables,
    pick_append, pick_append, pick_append, hsignature, pick_fields hq parts.made_fields]
  simp

/-- What can be picked from a member, where its tables are not. -/
theorem MemberParts.pick_eq (parts : MemberParts start node) (h : Made start "JavapMember" node)
    (hlines : q "LineNumberTable" = false) (hlocals : q "LocalVariableTable" = false) :
  pick q [node] = (if q "JavapMember" then [node] else [])
    ++ (if q "JavapField" then parts.fields else [])
    ++ (if q "LineNumberRow" then parts.lines.children else [])
    ++ if q "LocalVariableRow" then parts.locals.children else []
  := by
  rw [parts.pick_parts hq h, parts.made_lines.pick_lines hq, parts.made_locals.pick_locals hq,
    hlines, hlocals]
  simp

/-- What can be picked from a transcript, where the transcript is not. -/
theorem ClassParts.pick_eq (parts : ClassParts start node) (hnode : q node.label = false) :
  pick q [node] = parts.members.flatMap (fun n => pick q [n])
    ++ if q "JavapField" then parts.fields else []
  := by
  have hsource := parts.made_source.pick_eq_nil hq (by decide)
  have hheader := parts.made_header.pick_eq_nil hq (by decide)
  have hchildren : node.children
      = [parts.source] ++ [parts.header] ++ (parts.members ++ parts.fields) := parts.children_eq
  rw [pick_singleton, hchildren, pick_append, pick_append, pick_append, hsource, hheader,
    pick_fields hq parts.made_fields, ← pick_eq_flatMap]
  simp [hnode]

end

end ClassTranscript.Transcript
