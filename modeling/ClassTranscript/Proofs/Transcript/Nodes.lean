import ClassTranscript.Proofs.Peg.Parts
import ClassTranscript.Proofs.Transcript.Build

/-!
# The nodes of transcripts

`Made start name node` says that a node is a match of the rule of a name, and that name is then its
label. One theorem for each kind of node tells what its children are, as far as a record is read off
them. Members, fields and the rows of tables are found at the places where the grammar refers to
them and nowhere else (`Made.confined`).
-/

namespace ClassTranscript.Transcript

open Peg

/-! ### Definitions by place -/

theorem mem_document {x : Definition} (i : Nat) (h : document[i]? = some x) :
  x ∈ allDefinitions
  := by
  have hmem := List.mem_of_getElem? h
  simp [allDefinitions, definitions, hmem]

theorem mem_layout {x : Definition} (i : Nat) (h : layout[i]? = some x) :
  x ∈ allDefinitions
  := by
  have hmem := List.mem_of_getElem? h
  simp [allDefinitions, definitions, hmem]

theorem mem_classHeader {x : Definition} (i : Nat) (h : classHeader[i]? = some x) :
  x ∈ allDefinitions
  := by
  have hmem := List.mem_of_getElem? h
  simp [allDefinitions, definitions, hmem]

theorem mem_members {x : Definition} (i : Nat) (h : members[i]? = some x) :
  x ∈ allDefinitions
  := by
  have hmem := List.mem_of_getElem? h
  simp [allDefinitions, definitions, hmem]

theorem mem_tables {x : Definition} (i : Nat) (h : tables[i]? = some x) :
  x ∈ allDefinitions
  := by
  have hmem := List.mem_of_getElem? h
  simp [allDefinitions, definitions, hmem]

theorem mem_descriptors {x : Definition} (i : Nat) (h : descriptors[i]? = some x) :
  x ∈ allDefinitions
  := by
  have hmem := List.mem_of_getElem? h
  simp [allDefinitions, definitions, hmem]

theorem mem_typeNames {x : Definition} (i : Nat) (h : Java.typeNames[i]? = some x) :
  x ∈ allDefinitions
  := by
  have hmem := List.mem_of_getElem? h
  simp [allDefinitions, Java.definitions, hmem]

theorem mem_literals {x : Definition} (i : Nat) (h : Java.literals[i]? = some x) :
  x ∈ allDefinitions
  := by
  have hmem := List.mem_of_getElem? h
  simp [allDefinitions, Java.definitions, hmem]

/-- The root of the grammar is the rule of whole transcripts. -/
theorem definition_root :
  draft.definitions[grammar.root]? = some document[0]
  := by
  apply Draft.definition_of_root nodup_draft build_draft root_draft
  rw [definitions_draft]
  apply mem_document 0 rfl

/-- The rules of some names are made of parts when those of the list are. -/
theorem madeOf_of_all {part : Expr → Bool} {named : String → Bool}
    (h : (allDefinitions.all fun x => !named x.name || x.body.madeOf part named) = true) :
  draft.MadeOf part named
  := by
  intro x hx hname
  rw [definitions_draft] at hx
  have hx := List.all_eq_true.mp h x hx
  rwa [hname] at hx

/-! ### Nodes by name -/

/-- The node is a match of the rule of a name, at a position reached from `start`. -/
def Made (start : Cursor) (name : String) (node : Node) : Prop :=
  ∃ x, x.name = name ∧ Grown draft start x node

section

variable {start : Cursor} {name : String} {x : Definition} {node : Node} {e : Expr}
  {items : List Expr} {ns : List Node}

theorem Made.label_eq (h : Made start name node) :
  node.label = name
  := by
  obtain ⟨x, rfl, h⟩ := h
  rw [h.label_eq, label_eq_name h]

/-- The nodes of a match are matches of the rules of their labels. -/
theorem made_of_leaves (h : Leaves draft start e ns) :
  ∀ node ∈ Node.walk ns, Made start node.label node
  := by
  obtain ⟨here, there, hstart, h⟩ := h
  intro node hmem
  obtain ⟨x, hgrown⟩ := h.grown node hmem
  exact ⟨x, by rw [hgrown.label_eq, label_eq_name hgrown], hgrown.of_reaches hstart⟩

theorem Made.grown (hx : x ∈ allDefinitions) (h : Made start x.name node) :
  Grown draft start x node
  := by
  obtain ⟨y, hname, hgrown⟩ := h
  rw [← definitions_draft] at hx
  obtain rfl := Draft.eq_of_name nodup_draft hgrown.mem hx hname
  apply hgrown

/-- The children of a node are those of a match of the body of its rule. -/
theorem Made.leaves (hx : x ∈ allDefinitions) (hleaf : x.leaf = false)
    (h : Made start x.name node) :
  Leaves draft start x.body node.children
  := (h.grown hx).leaves hleaf

/-- Each node at or below a node is a match of the rule of its label. -/
theorem Made.descendant (h : Made start name node) {n : Node} (hmem : n ∈ node.descendants) :
  Made start n.label n
  := by
  rw [Node.descendants_eq, List.mem_cons] at hmem
  rcases hmem with rfl | hmem
  · rw [h.label_eq]
    apply h
  · obtain ⟨x, -, hgrown⟩ := h
    cases hleaf : x.leaf with
    | true => simp [hgrown.children_of_leaf hleaf, Node.walk] at hmem
    | false => apply made_of_leaves (hgrown.leaves hleaf) n hmem

/-- The first child of a label is a match of the rule of that name. -/
theorem Made.of_child? {label : String} {child : Node} (h : Made start name node)
    (hchild : node.child? label = some child) :
  Made start label child
  := by
  have hlabel := List.find?_some hchild
  rw [beq_iff_eq] at hlabel
  rw [← hlabel]
  apply h.descendant
  rw [Node.descendants_eq]
  apply List.mem_cons_of_mem _ (Node.mem_walk_of_mem (List.mem_of_find?_eq_some hchild))

/-- Nothing at or below the children of a node is a member, a field or a row of a table where the
rule of the node does not refer to such. -/
theorem Made.confined (hx : x ∈ allDefinitions) (havoids : x.body.Avoids memberNames)
    (h : Made start x.name node) :
  ∀ n ∈ Node.walk node.children, n.label ∉ memberNames
  := by
  intro n hmem
  cases h.grown hx with
  | intro hid hhidden hstart hgrows =>
      cases hleaf : x.leaf with
      | true => simp [hleaf, Node.walk] at hmem
      | false =>
          simp only [hleaf, Bool.false_eq_true, if_false] at hmem
          obtain ⟨y, hname, hgrown⟩ := hgrows.grown_avoiding confines_memberNames havoids n hmem
          rw [hgrown.label_eq, label_eq_name hgrown]
          apply hname

/-- Nothing at or below a node is a member, a field or a row of a table where the node is not on the
way to such. -/
theorem Made.confined_of_not_mem (hname : name ∉ memberNames) (h : Made start name node) :
  ∀ n ∈ node.descendants, n.label ∉ memberNames
  := by
  intro n hmem
  rw [Node.descendants_eq, List.mem_cons] at hmem
  obtain rfl | hmem := hmem
  · rw [h.label_eq]
    apply hname
  · obtain ⟨x, rfl, hgrown⟩ := h
    have hx := hgrown.mem
    apply Made.confined (definitions_draft ▸ hx) (confines_memberNames x hx hname)
      ⟨x, rfl, hgrown⟩ n hmem

/-! ### The nodes of a body -/

theorem made_of_rule (hx : x ∈ allDefinitions) (hhidden : x.hidden = false)
    (h : Leaves draft start (.rule x.name) ns) :
  ∃ node, ns = [node] ∧ Made start x.name node
  := by
  rw [← definitions_draft] at hx
  obtain ⟨node, rfl, hgrown⟩ := h.of_rule nodup_draft hx hhidden
  exact ⟨node, rfl, x, rfl, hgrown⟩

theorem nil_of_hidden (hx : x ∈ allDefinitions) (hhidden : x.hidden = true)
    (h : Leaves draft start (.rule x.name) ns) :
  ns = []
  := by
  rw [← definitions_draft] at hx
  apply h.of_hidden nodup_draft hx hhidden

theorem made_of_star (hx : x ∈ allDefinitions) (hhidden : x.hidden = false)
    (h : Leaves draft start (.star (.rule x.name)) ns) :
  ∀ node ∈ ns, Made start x.name node
  := by
  rw [← definitions_draft] at hx
  intro node hmem
  exact ⟨x, rfl, h.of_star_rule nodup_draft hx hhidden node hmem⟩

theorem made_of_plus (hx : x ∈ allDefinitions) (hhidden : x.hidden = false)
    (h : Leaves draft start (.plus (.rule x.name)) ns) :
  ∀ node ∈ ns, Made start x.name node
  := by
  obtain ⟨rounds, -, rfl, hrounds⟩ := h.of_plus
  intro node hmem
  obtain ⟨xs, hxs, hmem⟩ := List.mem_flatten.mp hmem
  obtain ⟨n, rfl, hmade⟩ := made_of_rule hx hhidden (hrounds xs hxs)
  rw [List.mem_singleton.mp hmem]
  apply hmade

/-- A sequence that begins with a rule leaves a node of it first. -/
theorem of_seq_rule (hx : x ∈ allDefinitions) (hhidden : x.hidden = false)
    (h : Leaves draft start (.seq (.rule x.name :: items)) ns) :
  ∃ node ms, ns = node :: ms ∧ Made start x.name node ∧ Leaves draft start (.seq items) ms
  := by
  obtain ⟨_, ms, rfl, hitem, hitems⟩ := h.of_seq_cons
  obtain ⟨node, rfl, hmade⟩ := made_of_rule hx hhidden hitem
  exact ⟨node, ms, rfl, hmade, hitems⟩

theorem of_seq_hidden (hx : x ∈ allDefinitions) (hhidden : x.hidden = true)
    (h : Leaves draft start (.seq (.rule x.name :: items)) ns) :
  Leaves draft start (.seq items) ns
  := h.of_seq_skip fun _ hitem => nil_of_hidden hx hhidden hitem

theorem of_seq_terminal (h : Leaves draft start (.seq (e :: items)) ns)
    (he : e.expectation.isSome = true) :
  Leaves draft start (.seq items) ns
  := h.of_seq_skip fun _ hitem => hitem.of_terminal he

end

/-- A child of a name is found by it, or another of the name before it. -/
theorem Made.exists_child? {start : Cursor} {name : String} {node child : Node} {ns : List Node}
    (h : Made start name child) (heq : node.children = ns) (hmem : child ∈ ns) :
  ∃ first, node.child? name = some first
  := by
  rw [← Option.isSome_iff_exists, Node.child?, List.find?_isSome, heq]
  exact ⟨child, hmem, by rw [h.label_eq, beq_self_eq_true]⟩

/-! ### The whole transcript and its headers -/

/-- The parts of a transcript: two headers, members and the fields after them. -/
structure ClassParts (start : Cursor) (node : Node) where
  source : Node
  header : Node
  members : List Node
  fields : List Node
  children_eq : node.children = source :: header :: (members ++ fields)
  made_source : Made start "SourceHeader" source
  made_header : Made start "ClassHeader" header
  made_members : ∀ n ∈ members, Made start "JavapMember" n
  made_fields : ∀ n ∈ fields, Made start "JavapField" n

/-- The parts of a member: the fields before it, its signature and its tables. -/
structure MemberParts (start : Cursor) (node : Node) where
  fields : List Node
  signature : Node
  lines : Node
  locals : Node
  children_eq : node.children = fields ++ [signature, lines, locals]
  made_fields : ∀ n ∈ fields, Made start "JavapField" n
  made_signature : Made start "MemberSignature" signature
  made_lines : Made start "LineNumberTable" lines
  made_locals : Made start "LocalVariableTable" locals

section

variable {start : Cursor} {node : Node}

/-- What stands behind the members of a class: fields, the brace and blank lines. -/
def backItems : List Expr :=
  [.star (.rule "JavapField"), .char (.only '\x7d'), .star (.rule "Newline"), .endOfInput]

theorem made_of_backItems {ns : List Node} (h : Leaves draft start (.seq backItems) ns) :
  ∀ n ∈ ns, Made start "JavapField" n
  := by
  obtain ⟨fs, _, rfl, hfs, h⟩ := h.of_seq_cons
  have h := of_seq_terminal h rfl
  have h := h.of_seq_skip fun _ hnewlines => by
    obtain ⟨rounds, rfl, hrounds⟩ := hnewlines.of_star
    rw [List.flatten_eq_nil_iff]
    intro xs hxs
    apply nil_of_hidden (mem_layout 0 rfl) rfl (hrounds xs hxs)
  obtain rfl := (of_seq_terminal h rfl).of_seq_nil
  rw [List.append_nil]
  apply made_of_star (mem_members 1 rfl) rfl hfs

/-- A transcript is two headers, members and then fields. -/
theorem Made.exists_classParts (h : Made start "JavapOutput" node) :
  Nonempty (ClassParts start node)
  := by
  obtain ⟨source, _, heq, hsource, h⟩ :=
    of_seq_rule (mem_document 1 rfl) rfl (h.leaves (mem_document 0 rfl) rfl)
  obtain ⟨header, _, rfl, hheader, h⟩ := of_seq_rule (mem_classHeader 0 rfl) rfl h
  have h := of_seq_hidden (mem_layout 0 rfl) rfl (of_seq_terminal h rfl)
  obtain ⟨ms, fs, rfl, hms, hfs⟩ := h.of_seq_cons
  constructor
  exact
    { source := source
      header := header
      members := ms
      fields := fs
      children_eq := heq
      made_source := hsource
      made_header := hheader
      made_members := made_of_plus (mem_members 0 rfl) rfl hms
      made_fields := made_of_backItems hfs }

/-- The line that names the source file has a string literal in it. -/
theorem Made.exists_literal (h : Made start "SourceHeader" node) :
  ∃ literal, node.first? "StringLiteral" = some literal
  := by
  have h := of_seq_terminal (h.leaves (mem_document 1 rfl) rfl) rfl
  obtain ⟨file, ns, heq, hfile, -⟩ := of_seq_rule (mem_document 2 rfl) rfl h
  obtain ⟨literal, hnode, hliteral⟩ := made_of_rule (mem_literals 12 rfl) rfl
    (hfile.leaves (mem_document 2 rfl) rfl)
  have hmem : literal ∈ node.descendants := by
    rw [Node.descendants_eq, heq, Node.walk_cons, hnode]
    simp [Node.walk_cons]
  rw [← Option.isSome_iff_exists, Node.first?, List.find?_isSome]
  exact ⟨literal, hmem, beq_iff_eq.mpr hliteral.label_eq⟩

/-- The class header has the kind of the class and its name. -/
theorem Made.exists_kind (h : Made start "ClassHeader" node) :
  ∃ kind name, node.child? "TypeKind" = some kind
    ∧ node.child? "JavapQualifiedIdentifier" = some name
  := by
  obtain ⟨_, _, heq, -, h⟩ := (h.leaves (mem_classHeader 0 rfl) rfl).of_seq_cons
  obtain ⟨kind, _, rfl, hkind, h⟩ := of_seq_rule (mem_classHeader 1 rfl) rfl h
  obtain ⟨name, _, rfl, hname, -⟩ := of_seq_rule (mem_classHeader 6 rfl) rfl h
  obtain ⟨kind', hkind⟩ := hkind.exists_child? heq (by simp)
  obtain ⟨name', hname⟩ := hname.exists_child? heq (by simp)
  exact ⟨kind', name', hkind, hname⟩

/-! ### Fields and signatures -/

/-- A field has a type and a name. -/
theorem Made.exists_type (h : Made start "JavapField" node) :
  ∃ type name, node.child? "JavapType" = some type ∧ node.child? "JavapIdentifier" = some name
  := by
  obtain ⟨_, _, heq, -, h⟩ := (h.leaves (mem_members 1 rfl) rfl).of_seq_cons
  obtain ⟨type, _, rfl, htype, h⟩ := of_seq_rule (mem_members 9 rfl) rfl h
  obtain ⟨name, _, rfl, hname, -⟩ := of_seq_rule (mem_classHeader 7 rfl) rfl h
  obtain ⟨type', htype⟩ := htype.exists_child? heq (by simp)
  obtain ⟨name', hname⟩ := hname.exists_child? heq (by simp)
  exact ⟨type', name', htype, hname⟩

/-- A signature is that of a method, of a constructor or of a static initializer. -/
theorem Made.exists_shape (h : Made start "MemberSignature" node) :
  ∃ label ∈ ["MethodSignature", "ConstructorSignature", "StaticInitializer"],
    ∃ shape, node.child? label = some shape
  := by
  obtain ⟨_, _, heq, -, h⟩ := (h.leaves (mem_members 2 rfl) rfl).of_seq_cons
  obtain ⟨_, _, rfl, -, h⟩ := h.of_seq_cons
  obtain ⟨ns, _, rfl, hshape, -⟩ := h.of_seq_cons
  obtain ⟨_, hmem, hshape⟩ := hshape.of_choice
  obtain ⟨label, hlabel, rfl⟩ := List.mem_map.mp hmem
  refine ⟨label, hlabel, ?_⟩
  simp only [List.mem_cons, List.not_mem_nil, or_false] at hlabel
  obtain rfl | rfl | rfl := hlabel
  · obtain ⟨shape, rfl, hmade⟩ := made_of_rule (mem_members 3 rfl) rfl hshape
    apply hmade.exists_child? heq (by simp)
  · obtain ⟨shape, rfl, hmade⟩ := made_of_rule (mem_members 5 rfl) rfl hshape
    apply hmade.exists_child? heq (by simp)
  · obtain ⟨shape, rfl, hmade⟩ := made_of_rule (mem_members 6 rfl) rfl hshape
    apply hmade.exists_child? heq (by simp)

/-- A method has a result type, a name and parameters. -/
theorem Made.exists_result (h : Made start "MethodSignature" node) :
  ∃ result name parameters, node.child? "ResultType" = some result
    ∧ node.child? "JavapIdentifier" = some name
    ∧ node.child? "JavapParameters" = some parameters
  := by
  obtain ⟨result, _, heq, hresult, h⟩ :=
    of_seq_rule (mem_members 4 rfl) rfl (h.leaves (mem_members 3 rfl) rfl)
  obtain ⟨name, _, rfl, hname, h⟩ := of_seq_rule (mem_classHeader 7 rfl) rfl h
  obtain ⟨parameters, _, rfl, hparameters, -⟩ := of_seq_rule (mem_members 7 rfl) rfl h
  obtain ⟨result', hresult⟩ := hresult.exists_child? heq (by simp)
  obtain ⟨name', hname⟩ := hname.exists_child? heq (by simp)
  obtain ⟨parameters', hparameters⟩ := hparameters.exists_child? heq (by simp)
  exact ⟨result', name', parameters', hresult, hname, hparameters⟩

/-- A constructor has the name of the class and parameters. -/
theorem Made.exists_parameters (h : Made start "ConstructorSignature" node) :
  ∃ name parameters, node.child? "JavapQualifiedIdentifier" = some name
    ∧ node.child? "JavapParameters" = some parameters
  := by
  obtain ⟨name, _, heq, hname, h⟩ :=
    of_seq_rule (mem_classHeader 6 rfl) rfl (h.leaves (mem_members 5 rfl) rfl)
  obtain ⟨parameters, _, rfl, hparameters, -⟩ := of_seq_rule (mem_members 7 rfl) rfl h
  obtain ⟨name', hname⟩ := hname.exists_child? heq (by simp)
  obtain ⟨parameters', hparameters⟩ := hparameters.exists_child? heq (by simp)
  exact ⟨name', parameters', hname, hparameters⟩

/-! ### Members and their tables -/

/-- A member is fields, a signature and two tables. -/
theorem Made.exists_parts (h : Made start "JavapMember" node) :
  Nonempty (MemberParts start node)
  := by
  obtain ⟨fs, _, heq, hfs, h⟩ := (h.leaves (mem_members 0 rfl) rfl).of_seq_cons
  obtain ⟨signature, _, rfl, hsignature, h⟩ := of_seq_rule (mem_members 2 rfl) rfl h
  obtain ⟨lines, _, rfl, hlines, h⟩ := of_seq_rule (mem_tables 0 rfl) rfl h
  obtain ⟨locals, _, rfl, hlocals, h⟩ := of_seq_rule (mem_tables 2 rfl) rfl h
  obtain rfl := (of_seq_hidden (mem_layout 0 rfl) rfl h).of_seq_nil
  constructor
  exact
    { fields := fs
      signature := signature
      lines := lines
      locals := locals
      children_eq := heq
      made_fields := made_of_star (mem_members 1 rfl) rfl hfs
      made_signature := hsignature
      made_lines := hlines
      made_locals := hlocals }

/-- A line number table is rows. -/
theorem Made.lineRows (h : Made start "LineNumberTable" node) :
  ∀ row ∈ node.children, Made start "LineNumberRow" row
  := by
  have h := of_seq_hidden (mem_layout 1 rfl) rfl (h.leaves (mem_tables 0 rfl) rfl)
  have h := of_seq_hidden (mem_layout 1 rfl) rfl (of_seq_terminal h rfl)
  have h := of_seq_hidden (mem_layout 0 rfl) rfl h
  obtain ⟨rows, _, heq, hrows, h⟩ := h.of_seq_cons
  obtain rfl := (of_seq_hidden (mem_layout 0 rfl) rfl h).of_seq_nil
  rw [heq, List.append_nil]
  apply made_of_plus (mem_tables 1 rfl) rfl hrows

/-- A local variable table is rows. -/
theorem Made.variableRows (h : Made start "LocalVariableTable" node) :
  ∀ row ∈ node.children, Made start "LocalVariableRow" row
  := by
  have h := of_seq_hidden (mem_layout 1 rfl) rfl (h.leaves (mem_tables 2 rfl) rfl)
  have h := of_seq_hidden (mem_layout 1 rfl) rfl (of_seq_terminal h rfl)
  have h := of_seq_hidden (mem_tables 3 rfl) rfl (of_seq_hidden (mem_layout 0 rfl) rfl h)
  obtain ⟨rows, _, heq, hrows, h⟩ := h.of_seq_cons
  obtain rfl := (of_seq_hidden (mem_layout 0 rfl) rfl h).of_seq_nil
  rw [heq, List.append_nil]
  apply made_of_plus (mem_tables 4 rfl) rfl hrows

/-- A row of a line number table is two numerals. -/
theorem Made.lineRow (h : Made start "LineNumberRow" node) :
  ∃ line offset, node.children = [line, offset] ∧ Made start "DecimalNumeral" line
    ∧ Made start "DecimalNumeral" offset
  := by
  have h := of_seq_hidden (mem_layout 2 rfl) rfl (h.leaves (mem_tables 1 rfl) rfl)
  have h := of_seq_hidden (mem_layout 2 rfl) rfl (of_seq_terminal h rfl)
  obtain ⟨line, _, heq, hline, h⟩ := of_seq_rule (mem_literals 2 rfl) rfl h
  have h := of_seq_hidden (mem_layout 2 rfl) rfl (of_seq_terminal h rfl)
  obtain ⟨offset, _, rfl, hoffset, h⟩ := of_seq_rule (mem_literals 2 rfl) rfl h
  have h := of_seq_hidden (mem_layout 1 rfl) rfl h
  obtain rfl := (of_seq_hidden (mem_layout 0 rfl) rfl h).of_seq_nil
  exact ⟨line, offset, heq, hline, hoffset⟩

/-- A row of a local variable table is three numerals, a name and a descriptor. -/
theorem Made.variableRow (h : Made start "LocalVariableRow" node) :
  ∃ first length slot name descriptor, node.children = [first, length, slot, name, descriptor]
    ∧ Made start "DecimalNumeral" first ∧ Made start "DecimalNumeral" length
    ∧ Made start "DecimalNumeral" slot ∧ Made start "LocalName" name
    ∧ Made start "FieldDescriptor" descriptor
  := by
  have h := of_seq_hidden (mem_layout 2 rfl) rfl (h.leaves (mem_tables 4 rfl) rfl)
  obtain ⟨first, _, heq, hfirst, h⟩ := of_seq_rule (mem_literals 2 rfl) rfl h
  have h := of_seq_hidden (mem_layout 2 rfl) rfl h
  obtain ⟨length, _, rfl, hlength, h⟩ := of_seq_rule (mem_literals 2 rfl) rfl h
  have h := of_seq_hidden (mem_layout 2 rfl) rfl h
  obtain ⟨slot, _, rfl, hslot, h⟩ := of_seq_rule (mem_literals 2 rfl) rfl h
  have h := of_seq_hidden (mem_layout 2 rfl) rfl h
  obtain ⟨name, _, rfl, hname, h⟩ := of_seq_rule (mem_tables 5 rfl) rfl h
  have h := of_seq_hidden (mem_layout 2 rfl) rfl h
  obtain ⟨descriptor, _, rfl, hdescriptor, h⟩ := of_seq_rule (mem_descriptors 0 rfl) rfl h
  have h := of_seq_hidden (mem_layout 1 rfl) rfl h
  obtain rfl := (of_seq_hidden (mem_layout 0 rfl) rfl h).of_seq_nil
  exact ⟨first, length, slot, name, descriptor, heq, hfirst, hlength, hslot, hname, hdescriptor⟩

end

end ClassTranscript.Transcript
