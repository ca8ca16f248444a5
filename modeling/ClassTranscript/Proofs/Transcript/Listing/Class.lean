import ClassTranscript.Proofs.Transcript.Listing.Member
import ClassTranscript.Proofs.Transcript.StringLiterals

/-!
# How whole transcripts take printed text

The two headers, and the class with its members and the fields after them. Those fields are first
read as the beginning of a further member, which is refused where its signature should be.
-/

namespace ClassTranscript.Transcript

open Peg

variable {source : String} {rest : List Char}

/-! ### The source file -/

/-- What nodes show of the line that names the source file. -/
def ShowsSource (source : String) (name : List Char) (nodes : List Node) : Prop :=
  ∃ node literal, nodes = [node] ∧ node.label = "SourceHeader"
    ∧ node.first? "StringLiteral" = some literal
    ∧ Java.literalText (textOf source literal) = String.ofList name

/-- A string literal without escapes is taken. -/
theorem takes_stringLiteral {name : List Char} (h : ∀ c ∈ name, c ∉ "\"\\\r\n".toList) :
  Takes draft source (.rule "StringLiteral") (['"'] ++ (name ++ ['"'])) rest
    (OneNode source "StringLiteral" (['"'] ++ (name ++ ['"'])) AnyNodes)
  := by
  apply takes_leaf (mem_literals 12 rfl) rfl
  apply Java.takes_literal_of_splits hasLiterals_draft
  · apply Java.splits_plain
    rintro c hmem rfl
    exact h _ hmem (by decide)
  · have hsub : ∀ c ∈ "\r\n\"\\".toList, c ∈ "\"\\\r\n".toList := by decide
    intro p hmem
    obtain ⟨c, hc, rfl⟩ := List.mem_map.mp hmem
    exact fun hmark => h c hc (hsub c hmark)

/-- The line that names the source file is taken. -/
theorem takes_sourceHeader {name : List Char} (h : ∀ c ∈ name, c ∉ "\"\\\r\n".toList) :
  Takes draft source (.rule "SourceHeader")
    ("Compiled from \"".toList ++ (name ++ ['"', '\n'])) rest (ShowsSource source name)
  := by
  have htext : "Compiled from \"".toList ++ (name ++ ['"', '\n'])
      = "Compiled from ".toList ++ ((['"'] ++ (name ++ ['"'])) ++ ['\n']) := by
    rw [List.append_assoc, List.append_assoc]
    rfl
  have hfile : Takes draft source (.rule "SourceFile") (['"'] ++ (name ++ ['"'])) (['\n'] ++ rest) _ :=
    takes_node (mem_document 2 rfl) rfl rfl (takes_stringLiteral h)
  have hbody := (takes_literal "Compiled from " _).skip (hfile.seq takes_newline.last)
  have htight : Text.Tight (['"'] ++ (name ++ ['"'])) := by
    constructor
    · rintro _ ⟨⟩
      decide
    · rw [← List.append_assoc, List.getLast?_concat]
      rintro _ ⟨⟩
      decide
  rw [htext]
  apply (takes_node (mem_document 1 rfl) rfl rfl hbody).mono
  rintro _ ⟨node, rfl, hlabel, -, _, _, hchildren, ⟨file, rfl, hfileLabel, -, hliteral⟩, rfl⟩
  obtain ⟨literal, hfileChildren, hliteralLabel, htext⟩ :=
    shows_singleton.mp (hliteral.shows_tight htight)
  have hlabel : node.label = "SourceHeader" := hlabel
  have hfileLabel : file.label = "SourceFile" := hfileLabel
  refine ⟨node, literal, rfl, hlabel, ?_, ?_⟩
  · rw [Node.first?, Node.descendants_eq, hchildren, List.append_nil, Node.walk_cons, hfileChildren,
      Node.walk_cons]
    simp [hlabel, hfileLabel, hliteralLabel]
  · rw [htext]
    rw [List.singleton_append, Java.literalText_quoted, Java.decode_of_plain]
    rintro c hmem rfl
    exact h _ hmem (by decide)

/-! ### The class header -/

/-- What nodes show of a class header, with the word for its kind and the modifiers as they are read. -/
structure ShowsHeader (source kind : String) (modifiers : List String) (c : Listing) (node : Node) :
    Prop where
  kind : childText source node "TypeKind" = .ok kind
  name : childText source node "JavapQualifiedIdentifier" = .ok (String.ofList c.name.chars)
  modifiers : childTexts source node "Modifier" = modifiers
  typeParameters : childText? source node "TypeParameters" = none
  extended : clauseTypes source node "ExtendsClause" = nameTexts c.extended
  implemented : clauseTypes source node "ImplementsClause" = nameTexts c.implemented

theorem ShowsClause.label_eq {label : String} {names : List DottedName} {nodes : List Node}
    (h : ShowsClause source label names nodes) :
  ∀ n ∈ nodes, n.label = label
  := by
  cases names with
  | nil =>
      obtain rfl : nodes = [] := h
      simp
  | cons n ns =>
      obtain ⟨node, list, rfl, hlabel, -⟩ := h
      simpa using hlabel

/-- The kind of a class is taken with the space after it. -/
theorem takes_kind (kind : TypeKind) (h : Follows 1 rest) :
  Takes draft source (.rule "TypeKind") ((kindWord kind).toList ++ spaces 1) rest
    (Shows (textOf source) "TypeKind" [kindWord kind])
  := by
  have hbody : Takes draft source classHeader[1].body ((kindWord kind).toList ++ spaces 1) rest
      NoNodes := by
    cases kind with
    | classType => apply (takes_keyword (w := "class") (by decide) (by decide) h).choice
    | interfaceType =>
        have hword : Heads "interface".toList ("interface".toList ++ (spaces 1 ++ rest)) :=
          heads_append (by decide) (bare_cons (by decide))
        apply Takes.choice_next
        · rw [List.append_assoc]
          apply refuses_keyword (w := "class") (by decide) (by decide) hword (by decide)
        · apply (takes_keyword (w := "interface") (by decide) (by decide) h).choice
  apply (takes_leaf (mem_classHeader 1 rfl) rfl hbody).mono
  intro nodes hnode
  rw [← String.ofList_toList (s := kindWord kind)]
  cases kind with
  | classType => apply hnode.shows (Text.tight_of_forall (by decide)) (by decide)
  | interfaceType => apply hnode.shows (Text.tight_of_forall (by decide)) (by decide)

/-- The parts of a class header are read off its node. -/
theorem showsHeader_of_parts {c : Listing} {word : String} {words : List String}
    {node kind name : Node} {modifiers extended implemented : List Node}
    (hchildren : node.children = modifiers ++ (kind :: name :: (extended ++ implemented)))
    (hmodifiers : Shows (textOf source) "Modifier" words modifiers)
    (hkind : kind.label = "TypeKind" ∧ textOf source kind = word)
    (hname : name.label = "JavapQualifiedIdentifier"
      ∧ textOf source name = String.ofList c.name.chars)
    (hextended : ShowsClause source "ExtendsClause" c.extended extended)
    (himplemented : ShowsClause source "ImplementsClause" c.implemented implemented) :
  ShowsHeader source word words c node
  := by
  have hother (n : Node) (hmem : n ∈ kind :: name :: (extended ++ implemented)) :
      n.label ≠ "Modifier" ∧ n.label ≠ "TypeParameters" := by
    simp only [List.mem_cons, List.mem_append] at hmem
    rcases hmem with rfl | rfl | hmem | hmem
    · rw [hkind.1]
      decide
    · rw [hname.1]
      decide
    · rw [hextended.label_eq n hmem]
      decide
    · rw [himplemented.label_eq n hmem]
      decide
  have hbefore (n : Node) (hmem : n ∈ modifiers ++ [kind, name]) :
      n.label ≠ "ExtendsClause" ∧ n.label ≠ "ImplementsClause" := by
    simp only [List.mem_append, List.mem_cons, List.not_mem_nil, or_false] at hmem
    rcases hmem with hmem | rfl | rfl
    · rw [hmodifiers.label_eq n hmem]
      decide
    · rw [hkind.1]
      decide
    · rw [hname.1]
      decide
  constructor
  · have hchild : node.child? "TypeKind" = some kind := by
      rw [child?_append hchildren hmodifiers.label_eq (by decide)]
      simp [hkind.1]
    rw [childText_eq hchild, hkind.2]
  · have hchild : node.child? "JavapQualifiedIdentifier" = some name := by
      rw [child?_append hchildren hmodifiers.label_eq (by decide)]
      simp [hkind.1, hname.1]
    rw [childText_eq hchild, hname.2]
  · apply childTexts_append hchildren hmodifiers fun n hmem => (hother n hmem).1
  · rw [childText?, child?_append hchildren hmodifiers.label_eq (by decide), List.find?_eq_none.mpr]
    · rfl
    · intro n hmem
      rw [beq_iff_eq]
      apply (hother n hmem).2
  · have hsplit : node.children = (modifiers ++ [kind, name]) ++ (extended ++ implemented) := by
      rw [hchildren]
      simp
    apply clauseTypes_eq hsplit (fun n hmem => (hbefore n hmem).1) _ hextended
    intro n hmem
    rw [himplemented.label_eq n hmem]
    decide
  · have hsplit : node.children
        = (modifiers ++ [kind, name] ++ extended) ++ (implemented ++ []) := by
      rw [hchildren]
      simp
    apply clauseTypes_eq hsplit _ (by simp) himplemented
    intro n hmem
    rcases List.mem_append.mp hmem with hmem | hmem
    · apply (hbefore n hmem).2
    · rw [hextended.label_eq n hmem]
      decide

/-- The class header is taken up to the brace. -/
theorem Listing.takes_header (c : Listing) (s : Style) :
  Takes draft source (.rule "ClassHeader") (c.header s) ('\x7b' :: rest)
    fun nodes => ∃ node, nodes = [node]
      ∧ ShowsHeader source (kindWord c.kind) (c.modifiers.map (·.word)) c node
  := by
  have hextends : classHeader[2].body = .seq (Expr.rules ["EXTENDS", "JavapTypeList"]) := rfl
  have himplements : classHeader[3].body = .seq (Expr.rules ["IMPLEMENTS", "JavapTypeList"]) := rfl
  have hend : FollowsType 0 ('\x7b' :: rest) := followsType_mark (by decide) (by decide) 0
  obtain ⟨j, implemented, heqI, hfollowsI, hstopI, ⟨first, hheadsI, hfirst⟩, hclauseI⟩ :=
    exists_clause (mem_classHeader 3 rfl) himplements (w := "implements") (by decide) (by decide) source
      rfl rfl s 0 c.implemented hend (clearOf_cons.mpr (by decide))
      (heads_nil (bare_cons (by decide))) (by decide)
  have hne : "extends".toList ≠ first := by
    rcases hfirst with rfl | rfl <;> decide
  obtain ⟨k, extended, heqE, hfollowsE, -, -, hclauseE⟩ :=
    exists_clause (mem_classHeader 2 rfl) hextends (w := "extends") (by decide) (by decide) source
      rfl rfl s 0 c.extended hfollowsI hstopI hheadsI hne
  have hclauses : printClause s 0 "extends" c.extended ++ printClause s 0 "implements" c.implemented
      = spaces k ++ (extended ++ implemented) := by
    rw [← List.append_assoc, ← heqE, List.append_assoc, ← heqI, spaces, List.replicate_zero,
      List.append_nil]
  have htext : c.header s = printModifiers c.modifiers ++ (((kindWord c.kind).toList ++ spaces 1)
      ++ ((c.name.chars ++ spaces k) ++ ([] ++ (extended ++ implemented)))) := by
    rw [Listing.header, hclauses]
    simp [spaces]
  have hbody : Takes draft source classHeader[0].body (c.header s) ('\x7b' :: rest)
      (Both (Shows (textOf source) "Modifier" (c.modifiers.map (·.word)))
        (Both (Shows (textOf source) "TypeKind" [kindWord c.kind])
          (Both (Shows (textOf source) "JavapQualifiedIdentifier" [String.ofList c.name.chars])
            (Both (ShowsClause source "ExtendsClause" c.extended)
              (ShowsClause source "ImplementsClause" c.implemented))))) := by
    rw [htext]
    refine (takes_modifiers _ ?_).2.seq ((takes_kind c.kind ?_).seq
      ((c.name.takes_qualifiedIdentifier ?_).seq
        ((takes_optional_nil (refuses_typeParameters ?_)).skip (hclauseE.seq hclauseI.last))))
    · have hkind : (kindWord c.kind).toList ≠ [] ∧ PlainWords [kindWord c.kind]
          ∧ kindWord c.kind ∉ Java.modifiers := by
        cases c.kind <;> decide
      rw [List.append_assoc, List.append_assoc]
      apply followsModifiers_word (heads_append (hkind.2.1 _ List.mem_cons_self) _) hkind.1
      · rw [String.ofList_toList]
        apply hkind.2.2
      · exact bare_cons (by decide)
    · rw [List.append_assoc, List.append_assoc]
      apply c.name.follows 0
    · rw [List.nil_append, List.append_assoc]
      apply hfollowsE.toFollowsName
    · rw [List.append_assoc]
      apply hfollowsE.no_part.mono (by decide)
  apply (takes_node (mem_classHeader 0 rfl) rfl rfl hbody).mono
  rintro _ ⟨node, rfl, -, -, modifiers, _, hchildren, hmodifiers, _, _, rfl, hkinds, _, _,
    rfl, hnames, extended, implemented, rfl, hextended, himplemented⟩
  obtain ⟨kind, rfl, hkind⟩ := shows_singleton.mp hkinds
  obtain ⟨name, rfl, hname⟩ := shows_singleton.mp hnames
  have hchildren : node.children = modifiers ++ (kind :: name :: (extended ++ implemented)) :=
    hchildren
  exact ⟨node, rfl, showsHeader_of_parts hchildren hmodifiers hkind hname hextended himplemented⟩

/-! ### The class -/

/-- Where neither a word nor an annotation begins there is no field. -/
theorem refuses_field (hbare : Bare rest) (h : ClearOf "@" rest) :
  Refuses draft source (.rule "JavapField") rest
  := by
  have hmodifiers : Takes draft source (.star (.rule "Modifier")) [] rest NoNodes :=
    takes_star_nil (refuses_modifier hbare h)
  apply refuses_rule (mem_members 1 rfl)
  apply hmodifiers.refuses_seq
  apply (refuses_type_of_bare hbare).seq

/-- Where neither a word nor one of the marks of a signature begins there is no member. -/
theorem refuses_member (hbare : Bare rest) (h : ClearOf "@<\x7b" rest) :
  Refuses draft source (.rule "JavapMember") rest
  := by
  have hfields : Takes draft source (.star (.rule "JavapField")) [] rest NoNodes :=
    takes_star_nil (refuses_field hbare (h.mono (by decide)))
  apply refuses_rule (mem_members 0 rfl)
  apply hfields.refuses_seq
  apply (refuses_signature hbare h).seq

/-- The fields at the end of a class are taken. -/
theorem takes_lastFields (fields : List ListedField) (rest : List Char) :
  Takes draft source (.star (.rule "JavapField")) (fields.flatMap (·.print)) ('\x7d' :: rest)
    (Shows (field source) "JavapField" (fields.map fun f => .ok f.record))
  := (takes_fields fields (clearOf_cons.mpr (by decide))
    (refuses_field (bare_cons (by decide)) (clearOf_cons.mpr (by decide)))).2

/-- The fields at the end of a class are no member, as no signature follows them. -/
theorem refuses_member_of_fields (fields : List ListedField) (rest : List Char) :
  Refuses draft source (.rule "JavapMember") (fields.flatMap (·.print) ++ '\x7d' :: rest)
  := by
  apply refuses_rule (mem_members 0 rfl)
  apply (takes_lastFields fields rest).refuses_seq
  apply (refuses_signature (bare_cons (by decide)) (clearOf_cons.mpr (by decide))).seq

/-- What the nodes at the top of a transcript show: the two headers, the members and the fields after
them. -/
def ShowsClass (source : String) (s : Style) (kind : String) (modifiers : List String) (c : Listing)
    (nodes : List Node) : Prop :=
  ∃ sourceHeader header members fields, nodes = sourceHeader :: header :: (members ++ fields)
    ∧ ShowsSource source c.sourceFile [sourceHeader] ∧ ShowsHeader source kind modifiers c header
    ∧ List.Forall₂ (fun m node => ShowsMember source s m [node]) c.members members
    ∧ Shows (field source) "JavapField" (c.fields.map fun f => .ok f.record) fields

/-- Each member shows itself in a node of its own. -/
theorem showsMembers_of_rounds {s : Style} {ms : List ListedMember} {rounds : List (List Node)}
    (h : List.Forall₂ (ShowsMember source s) ms rounds) :
  List.Forall₂ (fun m node => ShowsMember source s m [node]) ms rounds.flatten
  := by
  induction h with
  | nil => exact .nil
  | cons hround _ ih =>
      obtain ⟨node, rfl, hmember⟩ := hround
      exact .cons ⟨node, rfl, hmember⟩ ih

/-- The transcript of a class under a header of its own. -/
def Listing.printOf (c : Listing) (s : Style) (header : List Char) : List Char :=
  ("Compiled from \"".toList ++ (c.sourceFile ++ ['"', '\n'])) ++ (header ++ ('\x7b' :: '\n' ::
    (c.members.flatMap (·.print s) ++ (c.fields.flatMap (·.print) ++ ['\x7d', '\n']))))

/-- A whole transcript is taken where its class header is. -/
theorem Listing.takes_classOf (c : Listing) (s : Style) {header : List Char} {kind : String}
    {modifiers : List String}
    (hheader : ∀ rest, Takes draft source (.rule "ClassHeader") header ('\x7b' :: rest)
      fun nodes => ∃ node, nodes = [node] ∧ ShowsHeader source kind modifiers c node) :
  Takes draft source document[0].body (c.printOf s header) [] (ShowsClass source s kind modifiers c)
  := by
  have hclose : Takes draft source (.char (.only '\x7d')) ['\x7d'] ['\n'] NoNodes :=
    takes_char (by decide) _
  have hnewlines : Takes draft source (.star (.rule "Newline")) (['\n'] ++ []) []
      (Both NoNodes NoNodes) :=
    takes_newline.star (takes_star_nil (refuses_newline clearOf_nil))
  have htail : Takes draft source
      (.seq [.star (.rule "JavapField"), '\x7d', .star (.rule "Newline"), .endOfInput])
      (c.fields.flatMap (·.print) ++ ['\x7d', '\n']) []
      (Both (Shows (field source) "JavapField" (c.fields.map fun f => .ok f.record))
        (Both (Both NoNodes NoNodes) NoNodes)) :=
    (takes_lastFields c.fields ['\n']).seq (hclose.skip (hnewlines.seq takes_endOfInput.last))
  have hmembers := (takes_plus_items (fun m : ListedMember => m.print s) (ShowsMember source s)
    (fun _ => True) c.members_nonempty (fun m _ _ _ => m.takes_member s) (fun _ _ _ _ => trivial)
    trivial (refuses_member_of_fields c.fields ['\n'])).2
  rw [← List.append_nil (c.fields.flatMap _ ++ _)] at hmembers
  have hopen (rest : List Char) :
      Takes draft source (.char (.only '\x7b')) ['\x7b'] rest NoNodes :=
    takes_char (by decide) rest
  have hbody := (takes_sourceHeader c.sourceFile_plain).seq ((hheader _).seq
    ((hopen _).skip (takes_newline.skip (hmembers.seq htail))))
  apply hbody.mono
  rintro _ ⟨_, _, rfl, ⟨sourceHeader, literal, rfl, hsource⟩, _, _, rfl, ⟨header, rfl, hheader⟩, _,
    _, rfl, ⟨rounds, rfl, hrounds⟩, fields, _, rfl, hfields, _, _, rfl, ⟨_, _, rfl, rfl, rfl⟩, rfl⟩
  refine ⟨sourceHeader, header, rounds.flatten, fields, ?_,
    ⟨sourceHeader, literal, rfl, hsource⟩, hheader, showsMembers_of_rounds hrounds, hfields⟩
  simp

theorem Listing.takes_class (c : Listing) (s : Style) :
  Takes draft source document[0].body (c.print s) []
    (ShowsClass source s (kindWord c.kind) (c.modifiers.map (·.word)) c)
  := c.takes_classOf s fun _ => c.takes_header s

end ClassTranscript.Transcript
