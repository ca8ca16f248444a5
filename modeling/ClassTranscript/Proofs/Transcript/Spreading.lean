import ClassTranscript.Proofs.Peg.TakingLines
import ClassTranscript.Proofs.Success
import ClassTranscript.Proofs.Transcript.Numerals

/-!
# Records of texts with other line ends

A tree whose spans are moved along with the line ends of its text (`Node.spread`) gives the record
of the tree with the line ends of its texts changed as well, or the same error at the place to which
that moved (`Made.classRecord_spread`). Numbers and the name of the source file stay as they are:
there are no line ends in them.
-/

namespace ClassTranscript

/-! ### Looking nodes up -/

namespace Peg.Node

variable {source : String}

@[simp]
theorem label_spread (node : Node) :
  (node.spread source).label = node.label
  := by
  rw [spread_eq]

@[simp]
theorem span_spread (node : Node) :
  (node.spread source).span = node.span.spread source
  := by
  rw [spread_eq]

@[simp]
theorem children_spread (node : Node) :
  (node.spread source).children = node.children.map (spread source)
  := by
  rw [spread_eq]

theorem text_spread (node : Node) :
  (node.spread source).text (Text.toCrlf source) = Text.toCrlf (node.text source)
  := by
  rw [text, text, span_spread, Span.slice_spread]

/-- A spread node has a label just where the node has it. -/
theorem hasLabel_comp_spread (label : String) :
  (fun node : Node => node.label == label) ∘ spread source = (·.label == label)
  := by
  funext node
  rw [Function.comp_apply, label_spread]

theorem child?_spread (node : Node) (label : String) :
  (node.spread source).child? label = (node.child? label).map (spread source)
  := by
  rw [child?, child?, children_spread, List.find?_map, hasLabel_comp_spread]

theorem childrenLabeled_spread (node : Node) (label : String) :
  (node.spread source).childrenLabeled label
    = (node.childrenLabeled label).map (spread source)
  := by
  rw [childrenLabeled, childrenLabeled, children_spread, List.filter_map, hasLabel_comp_spread]

theorem walk_spread (nodes : List Node) :
  walk (nodes.map (spread source)) = (walk nodes).map (spread source)
  := by
  induction nodes using walk.induct with
  | case1 => simp [walk]
  | case2 node stack ih =>
      rw [List.map_cons, walk, walk, children_spread, ← List.map_append, ih, List.map_cons]

theorem descendants_spread (node : Node) :
  (node.spread source).descendants = node.descendants.map (spread source)
  := walk_spread [node]

theorem first?_spread (node : Node) (label : String) :
  (node.spread source).first? label = (node.first? label).map (spread source)
  := by
  rw [first?, first?, descendants_spread, List.find?_map, hasLabel_comp_spread]

theorem findAll_spread (node : Node) (label : String) :
  (node.spread source).findAll label = (node.findAll label).map (spread source)
  := by
  rw [findAll, findAll, descendants_spread, List.filter_map, hasLabel_comp_spread]

end Peg.Node

namespace Transcript

open Peg

/-! ### Records with other texts -/

/-- A variable with its texts changed. -/
def LocalVariable.mapTexts (f : String → String) (v : LocalVariable) : LocalVariable :=
  { v with name := f v.name, descriptor := f v.descriptor }

/-- A field with its texts changed. -/
def FieldRecord.mapTexts (f : String → String) (field : FieldRecord) : FieldRecord where
  modifiers := field.modifiers.map f
  typeName := f field.typeName
  name := f field.name

/-- The shape of a member with its texts changed. -/
def MemberShape.mapTexts (f : String → String) : MemberShape → MemberShape
  | method returnType name parameters throws =>
    .method (f returnType) (f name) (parameters.map f) (throws.map f)
  | constructor name parameters throws => .constructor (f name) (parameters.map f) (throws.map f)
  | staticInitializer => .staticInitializer

/-- A member with its texts changed. The numbers of its tables stay. -/
def MemberRecord.mapTexts (f : String → String) (member : MemberRecord) : MemberRecord where
  shape := member.shape.mapTexts f
  signature := f member.signature
  modifiers := member.modifiers.map f
  typeParameters := member.typeParameters.map f
  lineNumbers := member.lineNumbers
  localVariables := member.localVariables.map (.mapTexts f)

/-- A class with its texts changed. The source file, the kind and the numbers stay. -/
def ClassRecord.mapTexts (f : String → String) (record : ClassRecord) : ClassRecord where
  sourceFile := record.sourceFile
  kind := record.kind
  modifiers := record.modifiers.map f
  name := f record.name
  typeParameters := record.typeParameters.map f
  extended := record.extended.map f
  implemented := record.implemented.map f
  fields := record.fields.map (.mapTexts f)
  members := record.members.map (.mapTexts f)

/-- An error with its span moved. -/
def ProjectionError.spread (source : String) : ProjectionError → ProjectionError
  | missingNode label => .missingNode label
  | invalidNumber text span quantity => .invalidNumber text (span.spread source) quantity

/-! ### Projections with other results -/

section

variable {α β γ δ : Type} {source : String}

/-- A projection with its result changed and its error moved. -/
def Projected.spread (source : String) (f : α → β) : Projected α → Projected β
  | .ok a => .ok (f a)
  | .error e => .error (e.spread source)

theorem Projected.spread_bind {f : α → β} {g : γ → δ} {p : Projected α} {k : α → Projected γ}
    {k' : β → Projected δ} (h : ∀ a, p = .ok a → k' (f a) = (k a).spread source g) :
  (p.spread source f >>= k') = (p >>= k).spread source g
  := by
  cases p with
  | error e => rfl
  | ok a => apply h a rfl

theorem Projected.spread_map {f : α → β} {g : γ → δ} {k : α → γ} {k' : β → δ} {p : Projected α}
    (h : ∀ a, k' (f a) = g (k a)) :
  (p.spread source f).map k' = Projected.spread source g (p.map k)
  := by
  cases p with
  | error e => rfl
  | ok a => exact congrArg Except.ok (h a)

theorem Projected.spread_mapM {f : α → β} {k : Node → Projected α} {k' : Node → Projected β}
    {nodes : List Node} (h : ∀ n ∈ nodes, k' (n.spread source) = (k n).spread source f) :
  (nodes.map (Node.spread source)).mapM k' = (nodes.mapM k).spread source (List.map f)
  := by
  induction nodes with
  | nil => rfl
  | cons node nodes ih =>
      obtain ⟨hnode, hnodes⟩ := List.forall_mem_cons.mp h
      rw [List.map_cons, List.mapM_cons, List.mapM_cons, hnode]
      apply spread_bind
      intro a _
      rw [ih hnodes]
      apply spread_bind
      intro as _
      rfl

end

/-! ### Texts -/

theorem eq_some_of_required {label : String} {found : Option Node} {node : Node}
    (h : required label found = .ok node) :
  found = some node
  := by
  cases found with
  | none => cases h
  | some n => rw [Except.ok.inj h]

section

variable {source : String} {node : Node}

theorem required_spread (label : String) (node : Option Node) :
  required label (node.map (Node.spread source))
    = (required label node).spread source (Node.spread source)
  := by
  cases node <;> rfl

theorem requiredChild_spread (node : Node) (label : String) :
  requiredChild (node.spread source) label
    = (requiredChild node label).spread source (Node.spread source)
  := by
  rw [requiredChild, Node.child?_spread, required_spread, requiredChild]

theorem textOf_spread (node : Node) :
  textOf (Text.toCrlf source) (node.spread source) = Text.toCrlf (textOf source node)
  := by
  rw [textOf, Node.text_spread, Text.trim_toCrlf, textOf]

/-- A text in one line stays as it is. -/
theorem textOf_spread_of_line (h : '\n' ∉ (node.text source).toList) :
  textOf (Text.toCrlf source) (node.spread source) = textOf source node
  := by
  rw [textOf, Node.text_spread, Text.toCrlf_of_not_mem h, textOf]

theorem childText_spread (node : Node) (label : String) :
  childText (Text.toCrlf source) (node.spread source) label
    = (childText source node label).spread source Text.toCrlf
  := by
  rw [childText, requiredChild_spread, childText]
  apply Projected.spread_map textOf_spread

theorem childText?_spread (node : Node) (label : String) :
  childText? (Text.toCrlf source) (node.spread source) label
    = (childText? source node label).map Text.toCrlf
  := by
  rw [childText?, Node.child?_spread, childText?, Option.map_map, Option.map_map]
  simp only [Function.comp_def, textOf_spread]

theorem childTexts_spread (node : Node) (label : String) :
  childTexts (Text.toCrlf source) (node.spread source) label
    = (childTexts source node label).map Text.toCrlf
  := by
  rw [childTexts, Node.childrenLabeled_spread, childTexts, List.map_map, List.map_map]
  simp only [Function.comp_def, textOf_spread]

theorem clauseTypes_spread (node : Node) (clause : String) :
  clauseTypes (Text.toCrlf source) (node.spread source) clause
    = (clauseTypes source node clause).map Text.toCrlf
  := by
  rw [clauseTypes, clauseTypes, Node.child?_spread]
  cases node.child? clause with
  | none => rfl
  | some child =>
      rw [Option.map_some, Option.bind_some, Option.bind_some, Node.child?_spread]
      cases child.child? "JavapTypeList" with
      | none => rfl
      | some list => apply childTexts_spread

theorem signatureText_spread (node : Node) :
  signatureText (Text.toCrlf source) (node.spread source)
    = Text.toCrlf (signatureText source node)
  := by
  have hdrop (text : String) :
      String.ofList (Text.dropEndWhile (· == ';') (Text.toCrlf text).toList)
        = Text.toCrlf (String.ofList (Text.dropEndWhile (· == ';') text.toList)) := by
    rw [Text.toList_toCrlf, Text.dropEndWhile_crlf (by decide), Text.toCrlf, String.toList_ofList]
  rw [signatureText, textOf_spread, hdrop, Text.trimEnd_toCrlf, signatureText]

theorem typeKind_toCrlf (word : String) :
  typeKind (Text.toCrlf word) = typeKind word
  := by
  by_cases h : '\n' ∈ word.toList
  · have hword : word ≠ "interface" := by
      rintro rfl
      revert h
      decide
    have hcrlf : Text.toCrlf word ≠ "interface" := by
      intro heq
      have hmem : '\r' ∈ (Text.toCrlf word).toList := by
        rw [Text.toList_toCrlf, Text.crlf, List.mem_flatMap]
        exact ⟨'\n', h, by decide⟩
      rw [heq] at hmem
      revert hmem
      decide
    rw [typeKind, typeKind, if_neg hword, if_neg hcrlf]
  · rw [Text.toCrlf_of_not_mem h]

/-! ### Rows -/

/-- The children of a label are matches of the rule of that name. -/
theorem Made.of_mem_childrenLabeled {start : Cursor} {name label : String} (h : Made start name node)
    {n : Node} (hmem : n ∈ node.childrenLabeled label) :
  Made start label n
  := by
  obtain ⟨hmem, hlabel⟩ := List.mem_filter.mp hmem
  rw [beq_iff_eq] at hlabel
  rw [← hlabel]
  apply h.descendant
  rw [Node.descendants_eq]
  apply List.mem_cons_of_mem _ (Node.mem_walk_of_mem hmem)

/-- There are no line ends in a numeral. -/
theorem Made.number_spread (h : Made (.atStart source) "DecimalNumeral" node)
    (quantity : Quantity) :
  number (Text.toCrlf source) quantity (node.spread source)
    = (number source quantity node).spread source id
  := by
  obtain ⟨cs, -, hdigits, htext⟩ := h.exists_digits
  have hline : '\n' ∉ (node.text source).toList := by
    rw [htext, String.toList_ofList]
    intro hmem
    exact absurd (hdigits _ hmem).1 (by decide)
  rw [number, textOf_spread_of_line hline, number]
  cases Text.numeral? 10 UInt32.size (textOf source node).toList with
  | none => simp [Projected.spread, ProjectionError.spread]
  | some n => rfl

theorem Made.rowNumber_spread {name : String} (h : Made (.atStart source) name node) (place : Nat)
    (quantity : Quantity) :
  rowNumber (Text.toCrlf source) (node.spread source) place quantity
    = (rowNumber source node place quantity).spread source id
  := by
  rw [rowNumber, Node.childrenLabeled_spread, List.getElem?_map, required_spread, rowNumber]
  apply Projected.spread_bind
  intro numeral hnumeral
  apply Made.number_spread
  apply h.of_mem_childrenLabeled (List.mem_of_getElem? (eq_some_of_required hnumeral))

theorem Made.lineNumber_spread {name : String} (h : Made (.atStart source) name node) :
  lineNumber (Text.toCrlf source) (node.spread source) = (lineNumber source node).spread source id
  := by
  rw [lineNumber, h.rowNumber_spread, h.rowNumber_spread, lineNumber]
  apply Projected.spread_bind
  intro line _
  apply Projected.spread_bind
  intro offset _
  rfl

theorem Made.localVariable_spread {name : String} (h : Made (.atStart source) name node) :
  localVariable (Text.toCrlf source) (node.spread source)
    = (localVariable source node).spread source (.mapTexts Text.toCrlf)
  := by
  rw [localVariable, h.rowNumber_spread, h.rowNumber_spread, h.rowNumber_spread, childText_spread,
    childText_spread, localVariable]
  apply Projected.spread_bind
  intro first _
  apply Projected.spread_bind
  intro length _
  apply Projected.spread_bind
  intro slot _
  apply Projected.spread_bind
  intro name _
  apply Projected.spread_bind
  intro descriptor _
  rfl

theorem tableRows_spread (node : Node) (table row : String) :
  tableRows (node.spread source) table row
    = (tableRows node table row).spread source (List.map (Node.spread source))
  := by
  rw [tableRows, requiredChild_spread, tableRows]
  apply Projected.spread_map
  intro n
  apply Node.childrenLabeled_spread

/-- The rows of a table are matches of the rule of their label. -/
theorem Made.of_mem_tableRows {start : Cursor} {name table row : String} (h : Made start name node)
    {rows : List Node} (hrows : tableRows node table row = .ok rows) :
  ∀ n ∈ rows, Made start row n
  := by
  obtain ⟨child, hchild, rfl⟩ := exists_of_map_eq_ok hrows
  intro n hmem
  apply (h.of_child? (eq_some_of_required hchild)).of_mem_childrenLabeled hmem

/-! ### Members -/

theorem field_spread (node : Node) :
  field (Text.toCrlf source) (node.spread source)
    = (field source node).spread source (.mapTexts Text.toCrlf)
  := by
  rw [field, childText_spread, childText_spread, field]
  apply Projected.spread_bind
  intro typeName _
  apply Projected.spread_bind
  intro name _
  rw [childTexts_spread]
  rfl

theorem parameterTypes_spread (node : Node) :
  parameterTypes (Text.toCrlf source) (node.spread source)
    = (parameterTypes source node).spread source (List.map Text.toCrlf)
  := by
  rw [parameterTypes, requiredChild_spread, parameterTypes]
  apply Projected.spread_map
  intro n
  apply childTexts_spread

theorem memberShape_spread (node : Node) :
  memberShape (Text.toCrlf source) (node.spread source)
    = (memberShape source node).spread source (.mapTexts Text.toCrlf)
  := by
  rw [memberShape, Node.child?_spread, Node.child?_spread, memberShape]
  cases node.child? "MethodSignature" with
  | some method =>
      simp only [Option.map_some, childText_spread, parameterTypes_spread, clauseTypes_spread]
      apply Projected.spread_bind
      intro name _
      apply Projected.spread_bind
      intro returnType _
      apply Projected.spread_bind
      intro parameters _
      rfl
  | none =>
      cases node.child? "ConstructorSignature" with
      | some constructor =>
          simp only [Option.map_some, Option.map_none, childText_spread, parameterTypes_spread,
            clauseTypes_spread]
          apply Projected.spread_bind
          intro name _
          apply Projected.spread_bind
          intro parameters _
          rfl
      | none =>
          simp only [Option.map_none, requiredChild_spread]
          apply Projected.spread_bind
          intro initializer _
          rfl

/-- A member is projected to the member with the other line ends. -/
theorem Made.member_spread {name : String} (h : Made (.atStart source) name node) :
  member (Text.toCrlf source) (node.spread source)
    = (member source node).spread source (.mapTexts Text.toCrlf)
  := by
  rw [member, requiredChild_spread, tableRows_spread, tableRows_spread, member]
  apply Projected.spread_bind
  intro signature _
  rw [memberShape_spread]
  apply Projected.spread_bind
  intro shape _
  apply Projected.spread_bind
  intro lineRows hlineRows
  rw [Projected.spread_mapM fun n hmem => (h.of_mem_tableRows hlineRows n hmem).lineNumber_spread]
  apply Projected.spread_bind
  intro lineNumbers _
  apply Projected.spread_bind
  intro variableRows hvariableRows
  rw [Projected.spread_mapM fun n hmem =>
    (h.of_mem_tableRows hvariableRows n hmem).localVariable_spread]
  apply Projected.spread_bind
  intro localVariables _
  rw [signatureText_spread, childTexts_spread, childText?_spread, List.map_id]
  rfl

/-! ### String literals -/

/-- Whether a rule is one of those for escapes in literals. -/
def isEscape (name : String) : Bool :=
  name == "Escape" || name == "OctalEscape" || name == "UnicodeEscape"

theorem madeOf_escapes :
  draft.MadeOf staysInLine isEscape
  := madeOf_of_all (by decide +kernel)

/-- There are no line ends in a string literal. -/
theorem Made.literal_inLine (h : Made (.atStart source) "StringLiteral" node) :
  '\n' ∉ (node.text source).toList
  := by
  cases h.grown (mem_literals 12 rfl) with
  | intro _ _ hstart hgrows =>
      obtain ⟨between, hrest, hoffset, hline⟩ := hgrows.of_parts InLine.refl
        (fun _ _ _ => InLine.trans) madeOf_escapes (fun _ _ _ _ he => inLine_of_staysInLine he)
        (by decide)
      have htext := Cursor.slice_eq hstart hrest hoffset
      rw [Node.text, htext, String.toList_ofList]
      apply hline

/-! ### Classes -/

/-- A transcript is projected to the record with the other line ends. -/
theorem Made.classRecord_spread (h : Made (.atStart source) "JavapOutput" node) :
  classRecord (Text.toCrlf source) (node.spread source)
    = (classRecord source node).spread source (.mapTexts Text.toCrlf)
  := by
  rw [classRecord, requiredChild_spread, requiredChild_spread, Node.findAll_spread,
    Node.childrenLabeled_spread, classRecord]
  apply Projected.spread_bind
  intro sourceHeader hsource
  rw [Node.first?_spread, required_spread]
  apply Projected.spread_bind
  intro literal hliteral
  apply Projected.spread_bind
  intro header _
  rw [childText_spread]
  apply Projected.spread_bind
  intro kind _
  rw [childText_spread]
  apply Projected.spread_bind
  intro name _
  rw [Projected.spread_mapM fun n _ => field_spread n]
  apply Projected.spread_bind
  intro fields _
  rw [Projected.spread_mapM fun n hmem => (h.of_mem_childrenLabeled hmem).member_spread]
  apply Projected.spread_bind
  intro members _
  have hline : '\n' ∉ (literal.text source).toList := by
    have hsource := h.of_child? (eq_some_of_required hsource)
    have hfirst := eq_some_of_required hliteral
    have hlabel := List.find?_some hfirst
    rw [beq_iff_eq] at hlabel
    have hmade := hsource.descendant (List.mem_of_find?_eq_some hfirst)
    rw [hlabel] at hmade
    apply hmade.literal_inLine
  rw [textOf_spread_of_line hline, typeKind_toCrlf, childTexts_spread, childText?_spread,
    clauseTypes_spread, clauseTypes_spread]
  rfl

end

end Transcript

end ClassTranscript
