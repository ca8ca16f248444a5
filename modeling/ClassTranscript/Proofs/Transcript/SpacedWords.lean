import ClassTranscript.Proofs.Java.Spacing
import ClassTranscript.Proofs.Transcript.Reading

/-!
# Words and the spacing after them

The rule of a word takes the spacing after it, comments included, and of the text of a node only the
white space at its ends is cut off. A record therefore has the word of a modifier where no comment
follows it, and otherwise the word with the comments (`words_of_parse`). The kind of a class is told
in the same way, so an interface passes for a class where a comment follows the word.
-/

namespace ClassTranscript.Transcript

open Peg

/-- A node covers a word and the spacing after it. -/
structure SpacedWord (source : String) (node : Node) (word : String) (gap : List Java.Gap) : Prop where
  spelled : ∀ g ∈ gap, g.IsSpelled
  text_eq : node.text source = word ++ Java.Gap.text gap

/-- An entry of a record is the word that a node covers and what trimming leaves of the spacing after
it. It is a word of the list just where no comment follows. -/
def ShowsWord (source : String) (words : List String) (node : Node) (entry : String) : Prop :=
  ∃ word ∈ words, ∃ gap, SpacedWord source node word gap
    ∧ entry = word ++ Text.trimEnd (Java.Gap.text gap)
    ∧ (entry ∈ words ↔ ∀ g ∈ gap, g.isComment = false)

section

variable {source word w : String} {node : Node} {gap : List Java.Gap} {words : List String}

theorem SpacedWord.textOf_eq (h : SpacedWord source node word gap)
    (hword : ∀ c ∈ word.toList, isPlainPart c = true) (hne : word ≠ "") :
  textOf source node = word ++ Text.trimEnd (Java.Gap.text gap)
  := by
  have htight : Text.Tight word.toList :=
    Text.tight_of_forall fun c hmem => isBlank_plain (hword c hmem)
  have htext : word ++ Java.Gap.text gap
      = String.ofList (word.toList ++ (Java.Gap.text gap).toList) := by
    rw [String.ofList_append, String.ofList_toList, String.ofList_toList]
  rw [textOf, h.text_eq, htext, Text.trim_append_eq _ htight (by simpa using hne), Text.trimEnd,
    String.ofList_append, String.ofList_toList]

/-- The text of a node is a plain word just where it covers that word and no comment follows. -/
theorem SpacedWord.textOf_eq_iff (h : SpacedWord source node word gap)
    (hword : ∀ c ∈ word.toList, isPlainPart c = true) (hne : word ≠ "")
    (hw : ∀ c ∈ w.toList, isPlainPart c = true) :
  textOf source node = w ↔ word = w ∧ ∀ g ∈ gap, g.isComment = false
  := by
  have htight : Text.Tight word.toList :=
    Text.tight_of_forall fun c hmem => isBlank_plain (hword c hmem)
  have hmarks : ∀ c ∈ w.toList, c ∉ " \t\r\n\x0c/".toList :=
    fun c hmem => not_mem_of_plain (hw c hmem) (by decide)
  have htrim := Java.trim_spaced_eq_iff htight (by simpa using hne) h.spelled hmarks
  rw [String.ofList_append, String.ofList_toList, String.ofList_toList, String.ofList_toList,
    String.toList_inj] at htrim
  rw [textOf, h.text_eq, htrim]

theorem SpacedWord.shows (h : SpacedWord source node word gap) (hwords : PlainWords words)
    (hne : "" ∉ words) (hmem : word ∈ words) :
  ShowsWord source words node (textOf source node)
  := by
  have hword : word ≠ "" := fun hnil => hne (hnil ▸ hmem)
  refine ⟨word, hmem, gap, h, h.textOf_eq (hwords word hmem) hword, ?_⟩
  constructor
  · intro hentry
    exact ((h.textOf_eq_iff (hwords word hmem) hword (hwords _ hentry)).mp rfl).2
  · intro hno
    rw [(h.textOf_eq_iff (hwords word hmem) hword (hwords word hmem)).mpr ⟨rfl, hno⟩]
    exact hmem

end

/-! ### Nodes of words -/

section

variable {here there : Cursor} {ns : List Node}

theorem exists_gap_of_spacing (h : Grows draft (.rule "Spacing") here there ns) :
  ∃ gap : List Java.Gap, (∀ g ∈ gap, g.IsSpelled) ∧ here.Passes (Java.Gap.text gap).toList there
  := by
  obtain ⟨_, _, -, -, hbody⟩ := h.of_rule nodup_draft (definitions_draft ▸ mem_spacing)
  apply Java.exists_gap_of_grows hbody

/-- A match of a list of words passes one of them and the spacing after it. -/
theorem exists_word_of_grows {words : List String} {guard : Expr}
    (h : Grows draft (.seq [Expr.words words, .notAhead guard, .rule "Spacing"]) here there ns) :
  ∃ word ∈ words, ∃ gap : List Java.Gap, (∀ g ∈ gap, g.IsSpelled)
    ∧ here.Passes (word.toList ++ (Java.Gap.text gap).toList) there
  := by
  obtain ⟨_, _, _, -, hwords, h⟩ := h.of_seq_cons
  obtain ⟨_, _, _, -, hguard, h⟩ := h.of_seq_cons
  obtain ⟨_, _, _, -, hspacing, hnil⟩ := h.of_seq_cons
  obtain ⟨rfl, -⟩ := hnil.of_seq_nil
  obtain ⟨rfl, -, -⟩ := hguard.of_notAhead
  obtain ⟨item, hmem, hitem⟩ := hwords.of_choice
  obtain ⟨word, hword, rfl⟩ := List.mem_map.mp hmem
  obtain ⟨gap, hspelled, hpasses⟩ := exists_gap_of_spacing hspacing
  exact ⟨word, hword, gap, hspelled, hitem.of_literal.append hpasses⟩

/-- A match of the rule of a keyword passes it and the spacing after it. -/
theorem exists_gap_of_keyword {w name : String}
    (hw : w ∈ Java.keywords.filter fun keyword => !Java.unusedKeywords.contains keyword)
    (hname : (Java.keywordRule w).name = name) (h : Grows draft (.rule name) here there ns) :
  ∃ gap : List Java.Gap, (∀ g ∈ gap, g.IsSpelled)
    ∧ here.Passes (w.toList ++ (Java.Gap.text gap).toList) there
  := by
  have hmem : Java.keywordRule w ∈ Java.keywordRules :=
    List.mem_cons_of_mem _ (List.mem_map_of_mem hw)
  rw [← hname] at h
  obtain ⟨_, _, -, -, hbody⟩ := h.of_rule nodup_draft (definitions_draft ▸ mem_keywordRules hmem)
  obtain ⟨_, _, _, -, hword, hbody⟩ := hbody.of_seq_cons
  obtain ⟨_, _, _, -, hspacing, hnil⟩ := hbody.of_seq_cons
  obtain ⟨rfl, -⟩ := hnil.of_seq_nil
  obtain ⟨_, hliteral, hguard⟩ := hword.of_seq_literal
  obtain ⟨_, _, _, -, hguard, hnil⟩ := hguard.of_seq_cons
  obtain ⟨rfl, -⟩ := hnil.of_seq_nil
  obtain ⟨rfl, -, -⟩ := hguard.of_notAhead
  obtain ⟨gap, hspelled, hpasses⟩ := exists_gap_of_spacing hspacing
  exact ⟨gap, hspelled, hliteral.append hpasses⟩

end

section

variable {source : String} {node : Node}

theorem spacedWord_of_passes {here there : Cursor} {word : String} {gap : List Java.Gap}
    (hstart : (Cursor.atStart source).Reaches here) (hspelled : ∀ g ∈ gap, g.IsSpelled)
    (hpasses : here.Passes (word.toList ++ (Java.Gap.text gap).toList) there)
    (hspan : node.span = ⟨here.offset, there.offset⟩) :
  SpacedWord source node word gap
  where
  spelled := hspelled
  text_eq := by
    rw [Node.text, hspan, Cursor.slice_eq hstart hpasses.1 hpasses.2, String.ofList_append,
      String.ofList_toList, String.ofList_toList]

/-- A modifier that is no annotation covers a word of the list. -/
theorem Made.exists_modifier (h : Made (.atStart source) "Modifier" node)
    (hplain : node.child? "Annotation" = none) :
  ∃ word ∈ Java.modifiers, ∃ gap, SpacedWord source node word gap
  := by
  cases h.grown (mem_typeNames 10 rfl) with
  | intro _ _ hstart hgrows =>
      obtain ⟨item, hmem, hitem⟩ := hgrows.of_choice
      simp only [List.mem_cons, List.not_mem_nil, or_false] at hmem
      rcases hmem with rfl | rfl
      · obtain ⟨_, _, rfl, -, -⟩ :=
          hitem.of_rule nodup_draft (definitions_draft ▸ mem_annotationRules 8 rfl)
        cases hplain
      · obtain ⟨word, hword, gap, hspelled, hpasses⟩ := exists_word_of_grows hitem
        exact ⟨word, hword, gap, spacedWord_of_passes hstart hspelled hpasses rfl⟩

/-- The kind of a class covers one of the two words for it. -/
theorem Made.exists_kindWord (h : Made (.atStart source) "TypeKind" node) :
  ∃ word ∈ ["class", "interface"], ∃ gap, SpacedWord source node word gap
  := by
  cases h.grown (mem_classHeader 1 rfl) with
  | intro _ _ hstart hgrows =>
      obtain ⟨item, hmem, hitem⟩ := hgrows.of_choice
      obtain ⟨name, hname, rfl⟩ := List.mem_map.mp hmem
      simp only [List.mem_cons, List.not_mem_nil, or_false] at hname
      rcases hname with rfl | rfl
      · obtain ⟨gap, hspelled, hpasses⟩ := exists_gap_of_keyword (w := "class") (by decide) (by decide) hitem
        exact ⟨"class", by simp, gap, spacedWord_of_passes hstart hspelled hpasses rfl⟩
      · obtain ⟨gap, hspelled, hpasses⟩ := exists_gap_of_keyword (w := "interface") (by decide) (by decide) hitem
        exact ⟨"interface", by simp, gap, spacedWord_of_passes hstart hspelled hpasses rfl⟩

/-- Where the sign of annotations is not in the text no modifier is one. -/
theorem Made.child?_annotation (h : Made (.atStart source) "Modifier" node)
    (hsign : '@' ∉ source.toList) :
  node.child? "Annotation" = none
  := by
  cases hchild : node.child? "Annotation" with
  | none => rfl
  | some annotation =>
      cases (h.of_child? hchild).grown (mem_annotationRules 8 rfl) with
      | @intro _ here _ _ _ _ hstart hgrows =>
          obtain ⟨_, _, _, -, hat, -⟩ := hgrows.of_seq_cons
          have hmem : Java.operatorRule ("AT", "@", "") ∈ allDefinitions := mem_operatorRules (by decide)
          obtain ⟨_, _, -, -, hbody⟩ := hat.of_rule nodup_draft (definitions_draft ▸ hmem)
          obtain ⟨_, hpasses, -⟩ := hbody.of_seq_literal
          obtain ⟨before, hsource, -⟩ := hstart
          have hsource : source.toList = before ++ here.rest := hsource
          refine absurd ?_ hsign
          rw [hsource, hpasses.1]
          simp

end

/-! ### Records -/

/-- The entries for the modifiers of a class, of its fields and of its members are those of the nodes
of the modifiers, in document order. -/
structure ShowsModifiers (source : String) (root : Node) (record : ClassRecord) : Prop where
  header : ∃ header, root.child? "ClassHeader" = some header
    ∧ List.Forall₂ (ShowsWord source Java.modifiers) (header.childrenLabeled "Modifier")
      record.modifiers
  fields : List.Forall₂ (fun node (entry : FieldRecord) =>
      List.Forall₂ (ShowsWord source Java.modifiers) (node.childrenLabeled "Modifier")
        entry.modifiers)
    (root.findAll "JavapField") record.fields
  members : List.Forall₂ (fun node (entry : MemberRecord) =>
      ∃ signature, node.child? "MemberSignature" = some signature
        ∧ List.Forall₂ (ShowsWord source Java.modifiers) (signature.childrenLabeled "Modifier")
          entry.modifiers)
    (root.findAll "JavapMember") record.members

section

variable {source : String} {node : Node}

theorem child?_of_requiredChild {label : String} {child : Node}
    (h : requiredChild node label = .ok child) :
  node.child? label = some child
  := by
  rw [requiredChild] at h
  cases hchild : node.child? label with
  | none =>
      rw [hchild] at h
      cases h
  | some found =>
      rw [hchild] at h
      rw [Except.ok.inj h]

theorem exists_child_of_childText {label text : String} (h : childText source node label = .ok text) :
  ∃ child, node.child? label = some child ∧ text = textOf source child
  := by
  obtain ⟨child, hchild, rfl⟩ := exists_of_map_eq_ok h
  exact ⟨child, child?_of_requiredChild hchild, rfl⟩

theorem modifiers_of_field {record : FieldRecord} (h : field source node = .ok record) :
  record.modifiers = childTexts source node "Modifier"
  := by
  obtain ⟨_, -, h⟩ := exists_of_bind_eq_ok h
  obtain ⟨_, -, h⟩ := exists_of_bind_eq_ok h
  obtain rfl := Except.ok.inj h
  rfl

theorem modifiers_of_member {record : MemberRecord} (h : member source node = .ok record) :
  ∃ signature, node.child? "MemberSignature" = some signature
    ∧ record.modifiers = childTexts source signature "Modifier"
  := by
  obtain ⟨signature, hsignature, h⟩ := exists_of_bind_eq_ok h
  obtain ⟨_, -, h⟩ := exists_of_bind_eq_ok h
  obtain ⟨_, -, h⟩ := exists_of_bind_eq_ok h
  obtain ⟨_, -, h⟩ := exists_of_bind_eq_ok h
  obtain ⟨_, -, h⟩ := exists_of_bind_eq_ok h
  obtain ⟨_, -, h⟩ := exists_of_bind_eq_ok h
  obtain rfl := Except.ok.inj h
  exact ⟨signature, child?_of_requiredChild hsignature, rfl⟩

/-- The kind and the modifiers of a class are read off its header. -/
theorem header_of_classRecord {record : ClassRecord} (h : classRecord source node = .ok record) :
  ∃ header kind, node.child? "ClassHeader" = some header ∧ header.child? "TypeKind" = some kind
    ∧ record.kind = typeKind (textOf source kind)
    ∧ record.modifiers = childTexts source header "Modifier"
  := by
  obtain ⟨_, -, h⟩ := exists_of_bind_eq_ok h
  obtain ⟨_, -, h⟩ := exists_of_bind_eq_ok h
  obtain ⟨header, hheader, h⟩ := exists_of_bind_eq_ok h
  obtain ⟨_, htext, h⟩ := exists_of_bind_eq_ok h
  obtain ⟨kind, hkind, rfl⟩ := exists_child_of_childText htext
  obtain ⟨_, -, h⟩ := exists_of_bind_eq_ok h
  obtain ⟨_, -, h⟩ := exists_of_bind_eq_ok h
  obtain ⟨_, -, h⟩ := exists_of_bind_eq_ok h
  have hrecord := Except.ok.inj h
  refine ⟨header, kind, child?_of_requiredChild hheader, hkind, ?_, ?_⟩
  · rw [← hrecord]
  · rw [← hrecord]

/-- The texts of the modifiers among the children of a node in a transcript are words. -/
theorem Made.shows_modifiers {root : Node} (h : Made (.atStart source) "JavapOutput" root)
    (hplain : ∀ n ∈ root.findAll "Modifier", n.child? "Annotation" = none)
    (hnode : node ∈ root.descendants) :
  List.Forall₂ (ShowsWord source Java.modifiers) (node.childrenLabeled "Modifier")
    (childTexts source node "Modifier")
  := by
  rw [childTexts, List.forall₂_map_right_iff, List.forall₂_same]
  intro n hmem
  obtain ⟨hchild, hlabel⟩ := List.mem_filter.mp hmem
  have hn : n ∈ root.descendants := Node.mem_walk_of_child hnode hchild
  have hmade := h.descendant hn
  rw [beq_iff_eq.mp hlabel] at hmade
  obtain ⟨word, hword, gap, hspaced⟩ :=
    hmade.exists_modifier (hplain n (List.mem_filter.mpr ⟨hn, hlabel⟩))
  exact hspaced.shows plainWords_modifiers (by decide) hword

theorem Made.showsModifiers {root : Node} (h : Made (.atStart source) "JavapOutput" root)
    (hplain : ∀ n ∈ root.findAll "Modifier", n.child? "Annotation" = none) {record : ClassRecord}
    (hrecord : classRecord source root = .ok record) :
  ShowsModifiers source root record
  := by
  have hchild {parent child : Node} {label : String} (hparent : parent ∈ root.descendants)
      (hfound : parent.child? label = some child) : child ∈ root.descendants :=
    Node.mem_walk_of_child hparent (List.mem_of_find?_eq_some hfound)
  obtain ⟨header, _, hheader, -, -, hmodifiers⟩ := header_of_classRecord hrecord
  have hreflects := h.reflects_class hrecord
  have hinside {label : String} : ∀ n ∈ root.findAll label, n ∈ root.descendants :=
    fun _ hmem => List.mem_of_mem_filter hmem
  constructor
  · refine ⟨header, hheader, ?_⟩
    rw [hmodifiers]
    apply h.shows_modifiers hplain (hchild (Node.mem_descendants_self root) hheader)
  · apply List.Forall₂.imp _ ((List.forall₂_and_left _ _).mpr ⟨hinside, hreflects.fields⟩)
    rintro n entry ⟨hn, hentry⟩
    rw [modifiers_of_field hentry]
    apply h.shows_modifiers hplain hn
  · apply List.Forall₂.imp _ ((List.forall₂_and_left _ _).mpr ⟨hinside, hreflects.members⟩)
    rintro n entry ⟨hn, hentry⟩
    obtain ⟨signature, hsignature, hmodifiers⟩ := modifiers_of_member hentry.member
    refine ⟨signature, hsignature, ?_⟩
    rw [hmodifiers]
    apply h.shows_modifiers hplain (hchild hn hsignature)

/-- The kind in a record is that of an interface where the word for it stands in the header and no
comment follows it. -/
theorem Made.exists_shown_kind {root : Node} (h : Made (.atStart source) "JavapOutput" root)
    {record : ClassRecord} (hrecord : classRecord source root = .ok record) :
  ∃ header kind, root.child? "ClassHeader" = some header ∧ header.child? "TypeKind" = some kind
    ∧ ∃ word ∈ ["class", "interface"], ∃ gap, SpacedWord source kind word gap
      ∧ (record.kind = .interfaceType
        ↔ word = "interface" ∧ ∀ g ∈ gap, g.isComment = false)
  := by
  obtain ⟨header, kind, hheader, hkind, hrecordKind, -⟩ := header_of_classRecord hrecord
  obtain ⟨word, hword, gap, hspaced⟩ := ((h.of_child? hheader).of_child? hkind).exists_kindWord
  refine ⟨header, kind, hheader, hkind, word, hword, gap, hspaced, ?_⟩
  have hplain : PlainWords ["class", "interface"] := by decide
  have hne : word ≠ "" := by
    rintro rfl
    contradiction
  rw [hrecordKind, typeKind, ← hspaced.textOf_eq_iff (hplain word hword) hne (hplain "interface" (by simp))]
  split <;> simp_all

end

/-! ### Comments in a header -/

/-- An interface with the member of the class above. -/
def commented : Listing :=
  { greeter with kind := .interfaceType, extended := [] }

/-- A comment between spaces. -/
def comment : List Char :=
  spaces 1 ++ (("/*".toList ++ (" c ".toList ++ "*/".toList)) ++ spaces 1)

/-- Its header, with a comment after the modifier and one after the word for its kind. -/
def commentedHeader : List Char :=
  ("public".toList ++ comment) ++ (("interface".toList ++ comment) ++ greeterName.chars)

theorem tight_commented {word : List Char} (hword : ∀ c ∈ word, isPlainPart c = true)
    (hne : word ≠ []) :
  Text.Tight (word ++ " /* c */".toList)
  := by
  obtain ⟨c, cs, rfl⟩ := List.exists_cons_of_ne_nil hne
  constructor
  · rintro _ ⟨⟩
    apply isBlank_plain (hword _ List.mem_cons_self)
  · intro d hd
    rw [List.getLast?_append_of_ne_nil _ (by decide)] at hd
    cases hd
    decide

/-- A word with the comment after it is shown with the comment. -/
theorem shows_commented {source label word : String} {p : List Node → Prop} {nodes : List Node}
    (hword : ∀ c ∈ word.toList, isPlainPart c = true) (hne : word ≠ "")
    (h : OneNode source label (word.toList ++ comment) p nodes) :
  Shows (textOf source) label [word ++ " /* c */"] nodes
  := by
  have hcomment : comment = " /* c */".toList ++ spaces 1 := by decide
  rw [hcomment, ← List.append_assoc] at h
  have hshows := h.shows (tight_commented hword (by simpa using hne)) (by simp)
  rwa [String.ofList_append, String.ofList_toList, String.ofList_toList] at hshows

theorem takes_comment {source : String} {c : Char} {rest : List Char} (hc : isPlainPart c = true) :
  Takes draft source (.rule "Spacing") comment (c :: rest) NoNodes
  := takes_spacing_comment (by decide) (clearOf_plain hc (by decide))

theorem takes_commentedHeader (source : String) (rest : List Char) :
  Takes draft source (.rule "ClassHeader") commentedHeader ('\x7b' :: rest)
    fun nodes => ∃ node, nodes = [node]
      ∧ ShowsHeader source "interface /* c */" ["public /* c */"] commented node
  := by
  have hbare (tail : List Char) : Bare (comment ++ tail) := bare_cons (by decide)
  have hend : FollowsName 0 ('\x7b' :: rest) :=
    (followsType_mark (by decide) (by decide) 0).toFollowsName
  have hname := greeterName.takes_bareName source hend
  have hheads (tail : List Char) :
      Heads "interface".toList (("interface".toList ++ comment) ++ tail) :=
    heads_spaced (by decide) (hbare tail)
  have hkind : Takes draft source (.rule "TypeKind") ("interface".toList ++ comment)
      (greeterName.chars ++ '\x7b' :: rest)
      (OneNode source "TypeKind" ("interface".toList ++ comment) AnyNodes) := by
    apply takes_leaf (mem_classHeader 1 rfl) rfl (p := NoNodes)
    apply Takes.choice_next
    · apply refuses_keyword (w := "class") (by decide) (by decide) (hheads _) (by decide)
    · apply (takes_spacedKeyword (w := "interface") (by decide) (by decide) (hbare _)
        (takes_comment (by decide))).choice
  have hassoc := List.append_assoc ("interface".toList ++ comment) greeterName.chars ('\x7b' :: rest)
  have hmodifier : Takes draft source (.rule "Modifier") ("public".toList ++ comment)
      ((("interface".toList ++ comment) ++ greeterName.chars) ++ '\x7b' :: rest)
      (OneNode source "Modifier" ("public".toList ++ comment) AnyNodes) := by
    rw [hassoc]
    exact ModifierWord.takes_spaced ⟨"public", by decide⟩ (hbare _) (takes_comment (by decide))
  have hnone : Refuses draft source (.rule "Modifier")
      ((("interface".toList ++ comment) ++ greeterName.chars) ++ '\x7b' :: rest) := by
    rw [hassoc]
    exact (followsModifiers_word (hheads _) (by decide) (by decide)).refuses
  have hmodifiers := hmodifier.star_last hnone
  have hclause {x : Definition} {w name : String} (hx : x ∈ allDefinitions)
      (hbody : x.body = .seq (Expr.rules [name, "JavapTypeList"]))
      (hw : w ∈ Java.keywords.filter fun keyword => !Java.unusedKeywords.contains keyword)
      (hkeyword : (Java.keywordRule w).name = name) (hne : w.toList ≠ []) :
      Takes draft source (.optional (.rule x.name)) [] ('\x7b' :: rest) NoNodes := by
    apply takes_optional_nil
    apply refuses_rule hx
    rw [hbody]
    apply (refuses_keyword hw hkeyword (heads_nil (bare_cons (by decide))) hne).seq
  have hextends := hclause (mem_classHeader 2 rfl) rfl (w := "extends") (by decide) rfl (by decide)
  have himplements := hclause (mem_classHeader 3 rfl) rfl (w := "implements") (by decide) rfl
    (by decide)
  have hparameters : Takes draft source (.optional (.rule "TypeParameters")) [] ('\x7b' :: rest)
      NoNodes := takes_optional_nil (refuses_typeParameters (clearOf_cons.mpr (by decide)))
  have hbody := hmodifiers.seq (hkind.seq (hname.seq_nothing
    (hparameters.skip (hextends.skip himplements.last))))
  apply (takes_node (mem_classHeader 0 rfl) rfl rfl hbody).mono
  rintro _ ⟨node, rfl, -, -, modifiers, _, hchildren, hmodifier, _, _, rfl, hkind, hname⟩
  have hwords := shows_commented (by decide) (by decide) hmodifier
  obtain ⟨kind, rfl, hword⟩ := shows_singleton.mp (shows_commented (by decide) (by decide) hkind)
  obtain ⟨name, rfl, htext⟩ := shows_singleton.mp hname
  have hchildren : node.children = modifiers ++ (kind :: name :: ([] ++ [])) := hchildren
  exact ⟨node, rfl, showsHeader_of_parts hchildren hwords hword htext rfl rfl⟩

/-- The transcript with the comments is read under large limits. The kind that its header shows is the
word with the comment after it. -/
theorem exists_parse_commented :
  ∃ o tree stats header, Peg.parse grammar o (String.ofList (commented.printOf .usual commentedHeader))
      = .matched tree stats
    ∧ ClassRecord.ofTree (String.ofList (commented.printOf .usual commentedHeader)) tree
      = .ok { commented.record .usual with
          kind := .classType
          modifiers := ["public /* c */"] }
    ∧ (∀ n ∈ tree.root.findAll "Modifier", n.child? "Annotation" = none)
    ∧ tree.root.child? "ClassHeader" = some header
    ∧ childText (String.ofList (commented.printOf .usual commentedHeader)) header "TypeKind"
      = .ok "interface /* c */"
  := by
  obtain ⟨n, hn⟩ := exists_parse_printOf commented .usual takes_commentedHeader
  obtain ⟨tree, stats, hparse, hshows⟩ :=
    hn { limits := ⟨n, n, n⟩ } (Nat.le_refl n) (Nat.le_refl n) (Nat.le_refl n)
  have hmade := made_of_parse hparse
  obtain ⟨header, hheader, hshown⟩ := hshows.exists_header hmade
  refine ⟨_, tree, stats, header, hparse, hshows.classRecord_eq hmade, ?_, hheader, hshown.kind⟩
  intro node hmem
  obtain ⟨hnode, hlabel⟩ := List.mem_filter.mp hmem
  have hmodifier := hmade.descendant hnode
  rw [beq_iff_eq.mp hlabel] at hmodifier
  apply hmodifier.child?_annotation
  rw [String.toList_ofList]
  decide

/-! ### Parsed transcripts -/

/-- In the record of a parsed transcript without annotations the entries for modifiers are words of
the list, each with the comments after it, and the class is an interface where the word for that stands
in its header without a comment after it. So an entry is a word of the list just where no comment
follows it in the text. -/
theorem words_of_parse {source : String} {o : Options} {tree : Tree} {stats : Stats}
    {record : ClassRecord}
    (h : Peg.parse grammar o source = .matched tree stats)
    (hrecord : ClassRecord.ofTree source tree = .ok record)
    (hplain : ∀ n ∈ tree.root.findAll "Modifier", n.child? "Annotation" = none) :
  ShowsModifiers source tree.root record
    ∧ ∃ header kind, tree.root.child? "ClassHeader" = some header
      ∧ header.child? "TypeKind" = some kind
      ∧ ∃ word ∈ ["class", "interface"], ∃ gap, SpacedWord source kind word gap
        ∧ (record.kind = .interfaceType
          ↔ word = "interface" ∧ ∀ g ∈ gap, g.isComment = false)
  := by
  have hmade := made_of_parse h
  exact ⟨hmade.showsModifiers hplain hrecord, hmade.exists_shown_kind hrecord⟩

/-- The transcript with the comments has a record of such words. -/
theorem words_of_parse_commented :
  ∃ o tree stats record, Peg.parse grammar o (String.ofList (commented.printOf .usual commentedHeader))
      = .matched tree stats
    ∧ ClassRecord.ofTree (String.ofList (commented.printOf .usual commentedHeader)) tree = .ok record
    ∧ ShowsModifiers (String.ofList (commented.printOf .usual commentedHeader)) tree.root record
  := by
  obtain ⟨o, tree, stats, _, h, hrecord, hplain, -⟩ := exists_parse_commented
  exact ⟨o, tree, stats, _, h, hrecord, (words_of_parse h hrecord hplain).1⟩

/-- A record has comments among its words: of the transcript with the comments neither the entry for
the modifier is a word nor is the kind that of the word in the header. -/
theorem record_keeps_comments :
  ∃ o tree stats record, Peg.parse grammar o (String.ofList (commented.printOf .usual commentedHeader))
      = .matched tree stats
    ∧ ClassRecord.ofTree (String.ofList (commented.printOf .usual commentedHeader)) tree = .ok record
    ∧ (∀ n ∈ tree.root.findAll "Modifier", n.child? "Annotation" = none)
    ∧ record.modifiers = ["public /* c */"] ∧ "public /* c */" ∉ Java.modifiers
    ∧ ∃ header kind gap, tree.root.child? "ClassHeader" = some header
      ∧ header.child? "TypeKind" = some kind
      ∧ SpacedWord (String.ofList (commented.printOf .usual commentedHeader)) kind "interface" gap
      ∧ record.kind = .classType
  := by
  obtain ⟨o, tree, stats, header, h, hrecord, hplain, hheader, htext⟩ := exists_parse_commented
  obtain ⟨kind, hkind, htext⟩ := exists_child_of_childText htext
  obtain ⟨word, hword, gap, hspaced⟩ :=
    (((made_of_parse h).of_child? hheader).of_child? hkind).exists_kindWord
  refine ⟨o, tree, stats, _, h, hrecord, hplain, rfl, by decide, header, kind, gap, hheader, hkind, ?_,
    rfl⟩
  simp only [List.mem_cons, List.not_mem_nil, or_false] at hword
  rcases hword with rfl | rfl
  · rw [hspaced.textOf_eq (by decide) (by decide)] at htext
    have hhead := congrArg (·.toList.head?) htext
    simp at hhead
  · apply hspaced

end ClassTranscript.Transcript
