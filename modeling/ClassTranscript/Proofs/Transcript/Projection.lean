import ClassTranscript.Proofs.Success
import ClassTranscript.Proofs.Transcript.Numerals
import ClassTranscript.Proofs.Transcript.Places
import ClassTranscript.Transcript.Reading

/-!
# Records of parsed transcripts

On the tree of a parsed transcript the projection to records looks nothing up in vain. What it can
fail at are the numbers in the rows of tables (`Made.classRecord_checked`), and a record that it
gives has an entry for each member, each field and each row (`Made.reflects_class`).
-/

namespace ClassTranscript.Transcript

open Peg

variable {source : String} {node : Node}

/-! ### Parts that are there -/

theorem requiredChild_eq {label : String} {child : Node} (h : node.child? label = some child) :
  requiredChild node label = .ok child
  := by
  rw [requiredChild, h, required]

theorem childText_eq {label : String} {child : Node} (h : node.child? label = some child) :
  childText source node label = .ok (textOf source child)
  := by
  rw [childText, requiredChild_eq h]
  rfl

/-- The record of a field is there. -/
theorem Made.exists_field {start : Cursor} (source : String) (h : Made start "JavapField" node) :
  ∃ record, field source node = .ok record
  := by
  obtain ⟨type, name, htype, hname⟩ := h.exists_type
  rw [field, childText_eq htype, childText_eq hname]
  exact ⟨_, rfl⟩

theorem exists_parameterTypes (source : String) {parameters : Node}
    (h : node.child? "JavapParameters" = some parameters) :
  ∃ types, parameterTypes source node = .ok types
  := by
  rw [parameterTypes, requiredChild_eq h]
  exact ⟨_, rfl⟩

/-- The shape that a signature declares is there. -/
theorem Made.exists_memberShape {start : Cursor} (source : String)
    (h : Made start "MemberSignature" node) :
  ∃ shape, memberShape source node = .ok shape
  := by
  rw [memberShape]
  cases hmethod : node.child? "MethodSignature" with
  | some method =>
      obtain ⟨result, name, parameters, hresult, hname, hparameters⟩ :=
        (h.of_child? hmethod).exists_result
      obtain ⟨types, htypes⟩ := exists_parameterTypes source hparameters
      simp only [childText_eq hname, childText_eq hresult, htypes]
      exact ⟨_, rfl⟩
  | none =>
      cases hconstructor : node.child? "ConstructorSignature" with
      | some constructor =>
          obtain ⟨name, parameters, hname, hparameters⟩ :=
            (h.of_child? hconstructor).exists_parameters
          obtain ⟨types, htypes⟩ := exists_parameterTypes source hparameters
          simp only [childText_eq hname, htypes]
          exact ⟨_, rfl⟩
      | none =>
          obtain ⟨label, hlabel, shape, hshape⟩ := h.exists_shape
          simp only [List.mem_cons, List.not_mem_nil, or_false] at hlabel
          rcases hlabel with rfl | rfl | rfl
          · rw [hmethod] at hshape
            cases hshape
          · rw [hconstructor] at hshape
            cases hshape
          · simp only [requiredChild_eq hshape]
            exact ⟨_, rfl⟩

/-! ### Rows -/

theorem rowNumber_eq {ns : List Node} {place : Nat} {numeral : Node}
    (hnumerals : node.childrenLabeled "DecimalNumeral" = ns) (hplace : ns[place]? = some numeral)
    (quantity : Quantity) :
  rowNumber source node place quantity = number source quantity numeral
  := by
  simp only [rowNumber, hnumerals, hplace, required, bind, Except.bind]

section

variable {line offset first length slot name descriptor : Node}

theorem childrenLabeled_lineRow (hchildren : node.children = [line, offset])
    (hline : line.label = "DecimalNumeral") (hoffset : offset.label = "DecimalNumeral") :
  node.childrenLabeled "DecimalNumeral" = [line, offset]
  := by
  rw [Node.childrenLabeled, hchildren]
  simp [hline, hoffset]

theorem childrenLabeled_variableRow
    (hchildren : node.children = [first, length, slot, name, descriptor])
    (hfirst : first.label = "DecimalNumeral") (hlength : length.label = "DecimalNumeral")
    (hslot : slot.label = "DecimalNumeral") (hname : name.label = "LocalName")
    (hdescriptor : descriptor.label = "FieldDescriptor") :
  node.childrenLabeled "DecimalNumeral" = [first, length, slot]
  := by
  rw [Node.childrenLabeled, hchildren]
  simp [hfirst, hlength, hslot, hname, hdescriptor]

/-- A row of a line number table is read from its two numerals. -/
theorem lineNumber_eq_bind (source : String) (hchildren : node.children = [line, offset])
    (hline : line.label = "DecimalNumeral") (hoffset : offset.label = "DecimalNumeral") :
  lineNumber source node = do
    let line ← number source .lineNumber line
    let offset ← number source .bytecodeOffset offset
    return { line, offset }
  := by
  have hnumerals := childrenLabeled_lineRow hchildren hline hoffset
  rw [lineNumber, rowNumber_eq hnumerals rfl, rowNumber_eq hnumerals rfl]

/-- A row of a local variable table is read from its five columns. -/
theorem localVariable_eq_bind (source : String)
    (hchildren : node.children = [first, length, slot, name, descriptor])
    (hfirst : first.label = "DecimalNumeral") (hlength : length.label = "DecimalNumeral")
    (hslot : slot.label = "DecimalNumeral") (hname : name.label = "LocalName")
    (hdescriptor : descriptor.label = "FieldDescriptor") :
  localVariable source node = do
    let start ← number source .startOffset first
    let length ← number source .length length
    let slot ← number source .slot slot
    return ⟨start, length, slot, textOf source name, textOf source descriptor⟩
  := by
  have hnumerals :=
    childrenLabeled_variableRow hchildren hfirst hlength hslot hname hdescriptor
  have hchild : node.child? "LocalName" = some name
      ∧ node.child? "FieldDescriptor" = some descriptor := by
    rw [Node.child?, Node.child?, hchildren]
    simp [hfirst, hlength, hslot, hname, hdescriptor]
  rw [localVariable, rowNumber_eq hnumerals rfl, rowNumber_eq hnumerals rfl,
    rowNumber_eq hnumerals rfl, childText_eq hchild.1, childText_eq hchild.2]
  rfl

end

theorem Made.lineNumber_checked (h : Made (.atStart source) "LineNumberRow" node) :
  Checked source (rowNumerals node) (lineNumber source node)
  := by
  obtain ⟨line, offset, hchildren, hline, hoffset⟩ := h.lineRow
  have hrow : rowNumerals node = [(.lineNumber, line)] ++ ([(.bytecodeOffset, offset)] ++ []) := by
    simp [rowNumerals, childrenLabeled_lineRow hchildren hline.label_eq hoffset.label_eq,
      h.label_eq, quantityAt]
  rw [lineNumber_eq_bind source hchildren hline.label_eq hoffset.label_eq, hrow]
  apply (hline.number_checked _).bind
  intro _ _
  apply (hoffset.number_checked _).bind
  intro _ _
  apply checked_ok

theorem Made.localVariable_checked (h : Made (.atStart source) "LocalVariableRow" node) :
  Checked source (rowNumerals node) (localVariable source node)
  := by
  obtain ⟨first, length, slot, name, descriptor, hchildren, hfirst, hlength, hslot, hname,
    hdescriptor⟩ := h.variableRow
  have hnumerals := childrenLabeled_variableRow hchildren hfirst.label_eq hlength.label_eq
    hslot.label_eq hname.label_eq hdescriptor.label_eq
  have hrow : rowNumerals node
      = [(.startOffset, first)] ++ ([(.length, length)] ++ ([(.slot, slot)] ++ [])) := by
    simp [rowNumerals, hnumerals, h.label_eq, quantityAt]
  rw [localVariable_eq_bind source hchildren hfirst.label_eq hlength.label_eq hslot.label_eq
    hname.label_eq hdescriptor.label_eq, hrow]
  apply (hfirst.number_checked _).bind
  intro _ _
  apply (hlength.number_checked _).bind
  intro _ _
  apply (hslot.number_checked _).bind
  intro _ _
  apply checked_ok

/-! ### Members -/

theorem tableRows_eq {table row : String} {child : Node} (hchild : node.child? table = some child)
    (hrows : ∀ n ∈ child.children, n.label = row) :
  tableRows node table row = .ok child.children
  := by
  have hall : child.childrenLabeled row = child.children := by
    rw [Node.childrenLabeled, List.filter_eq_self]
    intro n hmem
    rw [hrows n hmem, beq_self_eq_true]
  rw [tableRows, requiredChild_eq hchild, ← hall]
  rfl

namespace MemberParts

variable {start : Cursor}

/-- The signature and the tables of a member are found by their labels. -/
theorem child?_eq (parts : MemberParts start node) :
  node.child? "MemberSignature" = some parts.signature
    ∧ node.child? "LineNumberTable" = some parts.lines
    ∧ node.child? "LocalVariableTable" = some parts.locals
  := by
  have hfields (label : String) (hlabel : label ≠ "JavapField") :
      parts.fields.find? (·.label == label) = none := by
    rw [List.find?_eq_none]
    intro n hmem
    rw [(parts.made_fields n hmem).label_eq, beq_iff_eq]
    apply hlabel.symm
  simp only [Node.child?, parts.children_eq, List.find?_append]
  rw [hfields _ (by decide), hfields _ (by decide), hfields _ (by decide)]
  simp [parts.made_signature.label_eq, parts.made_lines.label_eq, parts.made_locals.label_eq]

/-- Of what a member is made of only its rows can be missing in the record. -/
theorem exists_member_eq (parts : MemberParts start node) (source : String) :
  ∃ m : MemberRecord, member source node
    = parts.lines.children.mapM (lineNumber source) >>= fun lineNumbers =>
      parts.locals.children.mapM (localVariable source) >>= fun localVariables =>
      .ok { m with lineNumbers, localVariables }
  := by
  obtain ⟨hsignature, hlines, hlocals⟩ := parts.child?_eq
  obtain ⟨shape, hshape⟩ := parts.made_signature.exists_memberShape source
  have hlines := tableRows_eq hlines fun n hmem => (parts.made_lines.lineRows n hmem).label_eq
  have hlocals := tableRows_eq hlocals fun n hmem =>
    (parts.made_locals.variableRows n hmem).label_eq
  use ⟨shape, signatureText source parts.signature,
    childTexts source parts.signature "Modifier",
    childText? source parts.signature "TypeParameters", [], []⟩
  rw [member, requiredChild_eq hsignature]
  simp only [hshape, hlines, hlocals, bind, Except.bind, pure, Except.pure]

end MemberParts

theorem isRow_mem (label : String) (h : isRow label = true) :
  label ∈ memberNames
  := by
  rw [isRow, Bool.or_eq_true, beq_iff_eq, beq_iff_eq] at h
  rcases h with rfl | rfl <;> decide

theorem beq_mem {name : String} (hname : name ∈ memberNames) (label : String)
    (h : (label == name) = true) :
  label ∈ memberNames
  := by
  rw [beq_iff_eq.mp h]
  apply hname

theorem findAll_eq_pick (node : Node) (label : String) :
  node.findAll label = pick (· == label) [node]
  := rfl

/-- A record has what the nodes of a member show, in document order. -/
structure ReflectsMember (source : String) (node : Node) (m : MemberRecord) : Prop where
  member : member source node = .ok m
  lineNumbers : List.Forall₂ (fun row entry => lineNumber source row = .ok entry)
    (node.findAll "LineNumberRow") m.lineNumbers
  localVariables : List.Forall₂ (fun row entry => localVariable source row = .ok entry)
    (node.findAll "LocalVariableRow") m.localVariables

/-- A member is checked by the numerals in its rows. -/
theorem Made.member_checked (h : Made (.atStart source) "JavapMember" node) :
  Checked source (numerals node) (member source node)
  := by
  obtain ⟨parts⟩ := h.exists_parts
  obtain ⟨m, hm⟩ := parts.exists_member_eq source
  have hrows : pick isRow [node] = parts.lines.children ++ parts.locals.children := by
    rw [parts.pick_eq isRow_mem h (by decide) (by decide)]
    simp [isRow]
  have hnumerals : numerals node = parts.lines.children.flatMap rowNumerals
      ++ (parts.locals.children.flatMap rowNumerals ++ []) := by
    rw [List.append_nil, ← List.flatMap_append, ← hrows]
    rfl
  rw [hm, hnumerals]
  apply Checked.bind
  · apply Checked.mapM
    intro row hmem
    apply (parts.made_lines.lineRows row hmem).lineNumber_checked
  intro _ _
  apply Checked.bind
  · apply Checked.mapM
    intro row hmem
    apply (parts.made_locals.variableRows row hmem).localVariable_checked
  intro _ _
  apply checked_ok

/-- The record of a member has the rows of the member. -/
theorem Made.reflects {start : Cursor} (h : Made start "JavapMember" node) {m : MemberRecord}
    (hm : member source node = .ok m) :
  ReflectsMember source node m
  := by
  obtain ⟨parts⟩ := h.exists_parts
  obtain ⟨m', heq⟩ := parts.exists_member_eq source
  rw [hm] at heq
  obtain ⟨lineNumbers, hlines, heq⟩ := exists_of_bind_eq_ok heq.symm
  obtain ⟨localVariables, hlocals, heq⟩ := exists_of_bind_eq_ok heq
  obtain rfl := Except.ok.inj heq
  have hlineRows : node.findAll "LineNumberRow" = parts.lines.children := by
    rw [findAll_eq_pick, parts.pick_eq (beq_mem (by decide)) h (by decide) (by decide)]
    simp
  have hlocalRows : node.findAll "LocalVariableRow" = parts.locals.children := by
    rw [findAll_eq_pick, parts.pick_eq (beq_mem (by decide)) h (by decide) (by decide)]
    simp
  constructor
  · apply hm
  · rw [hlineRows]
    apply forall₂_of_mapM_eq_ok hlines
  · rw [hlocalRows]
    apply forall₂_of_mapM_eq_ok hlocals

/-! ### Classes -/

/-- A record has what the nodes of a class show, in document order. -/
structure Reflects (source : String) (root : Node) (record : ClassRecord) : Prop where
  members : List.Forall₂ (ReflectsMember source) (root.findAll "JavapMember") record.members
  fields : List.Forall₂ (fun n entry => field source n = .ok entry)
    (root.findAll "JavapField") record.fields
  /-- There are no rows but those of the members. -/
  lineRows : root.findAll "LineNumberRow"
    = (root.findAll "JavapMember").flatMap (·.findAll "LineNumberRow")
  localRows : root.findAll "LocalVariableRow"
    = (root.findAll "JavapMember").flatMap (·.findAll "LocalVariableRow")

namespace ClassParts

variable {start : Cursor}

/-- The headers of a class are found by their labels, and so are its members. -/
theorem child?_eq (parts : ClassParts start node) :
  node.child? "SourceHeader" = some parts.source ∧ node.child? "ClassHeader" = some parts.header
    ∧ node.childrenLabeled "JavapMember" = parts.members
  := by
  have hmembers : parts.members.filter (·.label == "JavapMember") = parts.members :=
    filter_label (q := (· == "JavapMember")) fun n hmem => (parts.made_members n hmem).label_eq
  have hfields : parts.fields.filter (·.label == "JavapMember") = [] :=
    filter_label (q := (· == "JavapMember")) fun n hmem => (parts.made_fields n hmem).label_eq
  simp [Node.child?, Node.childrenLabeled, parts.children_eq, parts.made_source.label_eq,
    parts.made_header.label_eq, hmembers, hfields]

/-- Of what a class is made of only its fields and its members can be missing in the record. -/
theorem exists_classRecord_eq (parts : ClassParts start node) (source : String) :
  ∃ r : ClassRecord, classRecord source node
    = (node.findAll "JavapField").mapM (field source) >>= fun fields =>
      parts.members.mapM (member source) >>= fun members =>
      .ok { r with fields, members }
  := by
  obtain ⟨hsource, hheader, hmembers⟩ := parts.child?_eq
  obtain ⟨literal, hliteral⟩ := parts.made_source.exists_literal
  obtain ⟨kind, name, hkind, hname⟩ := parts.made_header.exists_kind
  use ⟨Java.literalText (textOf source literal), typeKind (textOf source kind),
    childTexts source parts.header "Modifier", textOf source name,
    childText? source parts.header "TypeParameters",
    clauseTypes source parts.header "ExtendsClause",
    clauseTypes source parts.header "ImplementsClause", [], []⟩
  simp only [classRecord, requiredChild_eq hsource, requiredChild_eq hheader, hliteral, required,
    childText_eq hkind, childText_eq hname, hmembers, bind, Except.bind, pure, Except.pure]

/-- What is picked from a class is picked from its members, except for fields. -/
theorem findAll_eq (parts : ClassParts start node) {label : String} (hlabel : label ∈ memberNames)
    (hfield : label ≠ "JavapField") (hnode : node.label ≠ label) :
  node.findAll label = parts.members.flatMap (·.findAll label)
  := by
  rw [findAll_eq_pick, parts.pick_eq (beq_mem hlabel) (by simpa using hnode),
    beq_eq_false_iff_ne.mpr hfield.symm]
  simp [findAll_eq_pick]

/-- The members of a class are all that there are. -/
theorem findAll_members (parts : ClassParts start node) (hnode : node.label = "JavapOutput") :
  node.findAll "JavapMember" = parts.members
  := by
  rw [parts.findAll_eq (by decide) (by decide) (by rw [hnode]; decide)]
  have hmember (n : Node) (hmem : n ∈ parts.members) : n.findAll "JavapMember" = [n] := by
    have hmade := parts.made_members n hmem
    obtain ⟨inner⟩ := hmade.exists_parts
    rw [findAll_eq_pick, inner.pick_eq (beq_mem (by decide)) hmade (by decide) (by decide)]
    simp
  rw [List.flatMap_congr hmember, List.flatMap_singleton']

end ClassParts

/-- A transcript is checked by the numerals in its rows. -/
theorem Made.classRecord_checked (h : Made (.atStart source) "JavapOutput" node) :
  Checked source (numerals node) (classRecord source node)
  := by
  obtain ⟨parts⟩ := h.exists_classParts
  obtain ⟨r, hr⟩ := parts.exists_classRecord_eq source
  have hnumerals : numerals node = ((node.findAll "JavapField").flatMap fun _ => [])
      ++ (parts.members.flatMap numerals ++ []) := by
    have hrows : pick isRow [node] = parts.members.flatMap fun n => pick isRow [n] := by
      rw [parts.pick_eq isRow_mem (by rw [h.label_eq]; decide)]
      simp [isRow]
    rw [List.append_nil, List.flatMap_eq_nil_iff.mpr (by simp), List.nil_append]
    rw [show numerals node = (pick isRow [node]).flatMap rowNumerals from rfl, hrows,
      List.flatMap_assoc]
    rfl
  rw [hr, hnumerals]
  apply Checked.bind
  · apply Checked.mapM
    intro n hmem
    have hlabel : n.label = "JavapField" := by simpa using (List.mem_filter.mp hmem).2
    have hmade := h.descendant (List.mem_of_mem_filter hmem)
    rw [hlabel] at hmade
    obtain ⟨record, hrecord⟩ := hmade.exists_field source
    rw [hrecord]
    apply checked_ok
  intro _ _
  apply Checked.bind
  · apply Checked.mapM
    intro n hmem
    apply (parts.made_members n hmem).member_checked
  intro _ _
  apply checked_ok

/-- The record of a transcript has its members and its fields. -/
theorem Made.reflects_class {start : Cursor} (h : Made start "JavapOutput" node)
    {record : ClassRecord} (hrecord : classRecord source node = .ok record) :
  Reflects source node record
  := by
  obtain ⟨parts⟩ := h.exists_classParts
  obtain ⟨r, heq⟩ := parts.exists_classRecord_eq source
  rw [hrecord] at heq
  obtain ⟨fields, hfields, heq⟩ := exists_of_bind_eq_ok heq.symm
  obtain ⟨members, hmembers, heq⟩ := exists_of_bind_eq_ok heq
  obtain rfl := Except.ok.inj heq
  have hall := parts.findAll_members h.label_eq
  have hpairs := forall₂_of_mapM_eq_ok hmembers
  constructor
  · rw [hall]
    apply List.Forall₂.imp _ ((List.forall₂_and_left _ _).mpr ⟨parts.made_members, hpairs⟩)
    rintro n m ⟨hmade, hm⟩
    apply hmade.reflects hm
  · apply forall₂_of_mapM_eq_ok hfields
  · rw [hall, parts.findAll_eq (by decide) (by decide) (by rw [h.label_eq]; decide)]
  · rw [hall, parts.findAll_eq (by decide) (by decide) (by rw [h.label_eq]; decide)]

/-! ### Whole parses -/

/-- The root of a parsed transcript is a match of the rule of whole transcripts, from the start of
the text on. -/
theorem exists_grows_of_parse {o : Options} {tree : Tree} {stats : Stats}
    (h : Peg.parse grammar o source = .matched tree stats) :
  ∃ there, Grows draft document[0].body (.atStart source) there tree.root.children
    ∧ Made (.atStart source) "JavapOutput" tree.root
  := by
  rw [Peg.parse] at h
  split at h
  · rename_i outcome log hparse
    rw [h] at hparse
    obtain ⟨x, there, nodes, hx, hgrows, hstop, hroot⟩ := exists_grows_of_parse? build_draft hparse
    obtain rfl := Option.some.inj (definition_root.symm.trans hx)
    rw [hroot, ← hstop]
    exact ⟨there, hgrows, _, rfl, .intro hx rfl (.refl _) hgrows⟩
  · cases h

theorem made_of_parse {o : Options} {tree : Tree} {stats : Stats}
    (h : Peg.parse grammar o source = .matched tree stats) :
  Made (.atStart source) "JavapOutput" tree.root
  := by
  obtain ⟨_, -, hmade⟩ := exists_grows_of_parse h
  apply hmade

end ClassTranscript.Transcript
