import ClassTranscript.Proofs.Transcript.Listing.Type
import ClassTranscript.Proofs.Transcript.Projection

/-!
# How fields and signatures take printed text

A field and the signature of a member begin alike. A field is refused on the line of a signature,
where its type cannot be read, or no name follows it, or no semicolon follows the name; and of the
three kinds of signatures each is refused on the lines of those after it.
-/

namespace ClassTranscript.Transcript

open Peg

variable {source : String} {rest : List Char}

/-! ### Lookups -/

section

variable {β : Type} {f : Node → β} {label other : String} {values : List β} {nodes : List Node}

theorem Shows.label_eq (h : Shows f label values nodes) :
  ∀ n ∈ nodes, n.label = label
  := by
  induction h with
  | nil => simp
  | cons hnode _ ih =>
      intro n hmem
      rcases List.mem_cons.mp hmem with rfl | hmem
      · apply hnode.1
      · apply ih n hmem

theorem Shows.map_eq (h : Shows f label values nodes) :
  nodes.map f = values
  := by
  induction h with
  | nil => rfl
  | cons hnode _ ih => rw [List.map_cons, hnode.2, ih]

/-- Nodes of one label before the other children are passed over by a lookup for another. -/
theorem child?_append {node : Node} {ns ms : List Node} (hchildren : node.children = ns ++ ms)
    (hns : ∀ n ∈ ns, n.label = label) (hne : label ≠ other) :
  node.child? other = ms.find? (·.label == other)
  := by
  have hnone : ns.find? (·.label == other) = none := by
    rw [List.find?_eq_none]
    intro n hmem
    rw [hns n hmem, beq_iff_eq]
    apply hne
  rw [Node.child?, hchildren, List.find?_append, hnone, Option.none_or]

/-- The texts of nodes of one label are those of the children, where no other child has the label. -/
theorem childTexts_append {node : Node} {ns ms : List Node} {texts : List String}
    (hchildren : node.children = ns ++ ms) (hns : Shows (textOf source) label texts ns)
    (hms : ∀ n ∈ ms, n.label ≠ label) :
  childTexts source node label = texts
  := by
  have hall : ns.filter (·.label == label) = ns := by
    rw [List.filter_eq_self]
    intro n hmem
    rw [hns.label_eq n hmem, beq_self_eq_true]
  have hnone : ms.filter (·.label == label) = [] := by
    rw [List.filter_eq_nil_iff]
    intro n hmem
    rw [beq_iff_eq]
    apply hms n hmem
  rw [childTexts, Node.childrenLabeled, hchildren, List.filter_append, hall, hnone,
    List.append_nil, hns.map_eq]

/-- Where what is shown of each node is a success, so is what is read off all of them. -/
theorem Shows.mapM_eq {ε α : Type} {f : Node → Except ε β} {g : α → β} {xs : List α}
    (h : Shows f label (xs.map fun x => .ok (g x)) nodes) :
  nodes.mapM f = .ok (xs.map g)
  := by
  induction xs generalizing nodes with
  | nil =>
      cases h
      rfl
  | cons x xs ih =>
      cases h with
      | cons hnode hrest =>
          rw [List.mapM_cons, hnode.2, ih hrest]
          rfl

end

/-- The names of a clause are those that are shown of it. -/
theorem clauseTypes_eq {node : Node} {label : String} {before clause after : List Node}
    {names : List DottedName} (hchildren : node.children = before ++ (clause ++ after))
    (hbefore : ∀ n ∈ before, n.label ≠ label) (hafter : ∀ n ∈ after, n.label ≠ label)
    (h : ShowsClause source label names clause) :
  clauseTypes source node label = nameTexts names
  := by
  have hnone {ns : List Node} (hns : ∀ n ∈ ns, n.label ≠ label) :
      ns.find? (·.label == label) = none := by
    rw [List.find?_eq_none]
    intro n hmem
    rw [beq_iff_eq]
    apply hns n hmem
  have hchild : node.child? label = clause.find? (·.label == label) := by
    rw [Node.child?, hchildren, List.find?_append, List.find?_append, hnone hbefore, hnone hafter,
      Option.none_or, Option.or_none]
  cases names with
  | nil =>
      obtain rfl : clause = [] := h
      rw [clauseTypes, hchild]
      rfl
  | cons name names =>
      obtain ⟨n, list, rfl, hlabel, hlist, hlistLabel, hshows⟩ := h
      have hn : node.child? label = some n := by
        rw [hchild]
        simp [hlabel]
      have hinner : n.child? "JavapTypeList" = some list := by
        rw [Node.child?, hlist]
        simp [hlistLabel]
      rw [clauseTypes, hn, Option.bind_some, hinner]
      apply childTexts_append (List.append_nil _).symm hshows (by simp)

/-! ### Fields -/

/-- A field is taken, and what is shown of it is its record. -/
theorem ListedField.takes_field (f : ListedField) (h : ClearOf "\r\n" rest) :
  Takes draft source (.rule "JavapField") f.print rest
    (Shows (field source) "JavapField" [.ok f.record])
  := by
  have htext : f.print = printModifiers f.modifiers ++ ((f.type.chars ++ spaces 1)
      ++ ((f.name.chars ++ spaces 0) ++ ([';'] ++ (spaces 0 ++ (['\n'] ++ []))))) := by
    simp [print, spaces]
  have hbody : Takes draft source members[1].body f.print rest
      (Both (Shows (textOf source) "Modifier" (f.modifiers.map (·.word)))
        (Both (Shows (textOf source) "JavapType" [String.ofList f.type.chars])
          (Both (Shows (textOf source) "JavapIdentifier" [String.ofList f.name.chars])
            NoNodes))) := by
    rw [htext]
    refine (takes_modifiers _ ?_).2.seq ((f.type.takes_type ?_).seq
      ((f.name.takes_identifier ?_).seq ((takes_char (by decide) _).skip
        ((takes_inlineSpacing ?_).skip (takes_newline.skip
          (takes_optional_nil (refuses_newline h)).last)))))
    · rw [List.append_assoc, List.append_assoc]
      apply f.type.followsModifiers
      exact bare_cons (by decide)
    · rw [List.append_assoc, List.append_assoc]
      apply f.name.followsType 0
    · exact follows_mark (by decide) (by decide) 0
    · exact clearOf_cons.mpr (by decide)
  apply (takes_node (mem_members 1 rfl) rfl rfl hbody).mono
  rintro _ ⟨node, rfl, hlabel, -, modifiers, _, hchildren, hmodifiers, _, _, rfl, htype, _, _, rfl,
    hname, rfl⟩
  obtain ⟨type, rfl, htype, htypeText⟩ := shows_singleton.mp htype
  obtain ⟨name, rfl, hname, hnameText⟩ := shows_singleton.mp hname
  have htypeChild : node.child? "JavapType" = some type := by
    rw [child?_append hchildren hmodifiers.label_eq (by decide)]
    simp [htype]
  have hnameChild : node.child? "JavapIdentifier" = some name := by
    rw [child?_append hchildren hmodifiers.label_eq (by decide)]
    simp [htype, hname]
  have hmodifierTexts : childTexts source node "Modifier" = f.modifiers.map (·.word) := by
    apply childTexts_append hchildren hmodifiers
    simp [htype, hname]
  apply shows_singleton.mpr
  refine ⟨node, rfl, hlabel, ?_⟩
  rw [field, childText_eq htypeChild, childText_eq hnameChild, htypeText, hnameText, hmodifierTexts]
  rfl

/-- Fields are taken up to where there is none, and what is shown of them are their records. -/
theorem takes_fields (fs : List ListedField) (hrest : ClearOf "\r\n" rest)
    (hstop : Refuses draft source (.rule "JavapField") rest) :
  ClearOf "\r\n" (fs.flatMap (·.print) ++ rest)
    ∧ Takes draft source (.star (.rule "JavapField")) (fs.flatMap (·.print)) rest
      (Shows (field source) "JavapField" (fs.map fun f => .ok f.record))
  := by
  have hfit (f : ListedField) (_ : f ∈ fs) (tail : List Char) (_ : ClearOf "\r\n" tail) :
      ClearOf "\r\n" (f.print ++ tail) := by
    have hfollows : FollowsModifiers (f.type.chars ++ ' ' :: (f.name.chars ++ [';', '\n'])
        ++ tail) := by
      rw [List.append_assoc]
      apply f.type.followsModifiers
      exact bare_cons (by decide)
    rw [ListedField.print, List.append_assoc]
    apply (follows_modifiers f.modifiers hfollows).solid.mono (by decide)
  obtain ⟨hclear, hstar⟩ := takes_star_items ListedField.print
    (fun f => Shows (field source) "JavapField" [.ok f.record]) (ClearOf "\r\n") fs
    (fun f _ _ htail => f.takes_field htail) hfit hrest hstop
  use hclear
  apply hstar.mono
  rintro _ ⟨rounds, rfl, hrounds⟩
  apply shows_flatten hrounds

/-! ### Parts of signatures -/

/-- Parameters are taken with the spaces after them. -/
theorem takes_parameters (s : Style) (types : List ListedType) {k : Nat}
    (h : ClearOf " \t\r\n\x0c/" rest) :
  Takes draft source (.rule "JavapParameters") (printParameters s types ++ spaces k) rest
    fun nodes => ∃ node, nodes = [node] ∧ node.label = "JavapParameters"
      ∧ Shows (textOf source) "JavapParameter" (typeTexts types) node.children
  := by
  have hclose : Takes draft source (.rule "RPAR") ([')'] ++ spaces k) rest NoNodes :=
    takes_operator (t := ")") (by decide) rfl h
  have hopen (t : List Char) (ht : ClearOf " \t\r\n\x0c/" (t ++ rest)) :
      Takes draft source (.rule "LPAR") ['('] (t ++ rest) NoNodes :=
    takes_mark (t := "(") (by decide) rfl ht
  have hbody : Takes draft source members[7].body (printParameters s types ++ spaces k) rest
      (Both (Shows (textOf source) "JavapParameter" (typeTexts types)) NoNodes) := by
    cases types with
    | nil =>
        have hnone : Refuses draft source
            (.seq (Expr.separated (.rule "JavapParameter") (.rule "COMMA")))
            ([')'] ++ spaces k ++ rest) := by
          apply Refuses.seq
          apply refuses_rule (mem_members 8 rfl)
          apply Refuses.seq
          apply refuses_type_of_bare
          exact bare_cons (by decide)
        have hempty : Takes draft source
            (.optional (.seq (Expr.separated (.rule "JavapParameter") (.rule "COMMA")))) []
            ([')'] ++ spaces k ++ rest) (Shows (textOf source) "JavapParameter" []) := by
          apply (takes_optional_nil hnone).mono
          rintro _ rfl
          exact .nil
        apply (hopen _ (clearOf_cons.mpr (by decide))).skip
        exact hempty.seq hclose.last
    | cons t ts =>
        have htypes : Takes draft source
            (.seq (Expr.separated (.rule "JavapParameter") (.rule "COMMA")))
            (printSeparated s.comma ((t :: ts).map (·.chars)) ++ spaces 0) ([')'] ++ spaces k ++ rest)
            (Shows (textOf source) "JavapParameter" (typeTexts (t :: ts))) :=
          takes_separated (fun t _ _ htail => t.takes_parameter htail)
            (fun t tail => t.clearOf (by decide) tail) s.comma t ts
            (followsType_mark (by decide) (by decide) 0) (clearOf_cons.mpr (by decide))
        have htext : printParameters s (t :: ts) ++ spaces k = ['(']
            ++ ((printSeparated s.comma ((t :: ts).map (·.chars)) ++ spaces 0)
              ++ ([')'] ++ spaces k)) := by
          simp [printParameters, spaces]
        rw [htext]
        apply (hopen _ _).skip (htypes.optional.seq hclose.last)
        rw [List.map_cons, printSeparated, List.append_assoc, List.append_assoc, List.append_assoc]
        apply t.clearOf (by decide)
  apply (takes_node (mem_members 7 rfl) rfl rfl hbody).mono
  rintro _ ⟨node, rfl, hlabel, -, ns, _, hchildren, hshows, rfl⟩
  rw [List.append_nil] at hchildren
  rw [← hchildren] at hshows
  exact ⟨node, rfl, hlabel, hshows⟩

/-- What nodes show of the parameters and of the exceptions of a signature. -/
def ShowsTail (source : String) (types : List ListedType) (throws : List DottedName)
    (nodes : List Node) : Prop :=
  ∃ parameters clause, nodes = parameters :: clause ∧ parameters.label = "JavapParameters"
    ∧ Shows (textOf source) "JavapParameter" (typeTexts types) parameters.children
    ∧ ShowsClause source "ThrowsClause" throws clause

/-- Parameters and exceptions are taken up to the semicolon. -/
theorem takes_tail (s : Style) (types : List ListedType) (throws : List DottedName) :
  Takes draft source (.seq [.rule "JavapParameters", .optional (.rule "ThrowsClause")])
    (printTail s types throws) (';' :: rest) (ShowsTail source types throws)
  := by
  have hbody : members[10].body = .seq (Expr.rules ["THROWS", "JavapTypeList"]) := rfl
  have hfollows : FollowsType 0 (';' :: rest) := followsType_mark (by decide) (by decide) 0
  obtain ⟨k, clause, heq, hclauseFollows, -, -, hclause⟩ :=
    exists_clause (mem_members 10 rfl) hbody (w := "throws") (by decide) (by decide) source rfl rfl s
      s.throws throws hfollows (clearOf_cons.mpr (by decide)) (heads_nil (bare_cons (by decide)))
      (by decide)
  have htext : printTail s types throws = (printParameters s types ++ spaces k) ++ clause := by
    rw [List.append_assoc, ← heq]
    simp [printTail, spaces]
  rw [htext]
  apply ((takes_parameters s types hclauseFollows.solid).seq hclause.last).mono
  rintro _ ⟨_, clause, rfl, ⟨parameters, rfl, hlabel, hshows⟩, hclause⟩
  exact ⟨parameters, clause, rfl, hlabel, hshows, hclause⟩

/-- The result type of a method is taken with the space after it. -/
theorem takes_result (result : Option ListedType) {k : Nat} (h : FollowsType k rest) :
  Takes draft source (.rule "ResultType") (resultChars result ++ spaces k) rest
    (Shows (textOf source) "ResultType" [String.ofList (resultChars result)])
  := by
  have hvoid : "void" ∈ Java.keywords.filter fun w => !Java.unusedKeywords.contains w := by decide
  have hbody : Takes draft source members[4].body (resultChars result ++ spaces k) rest AnyNodes := by
    cases result with
    | none => apply (takes_keyword hvoid (by decide) h.toFollows).any.choice
    | some t =>
        apply Takes.choice_next _ (t.takes_type h).any.choice
        rw [List.append_assoc]
        apply refuses_keyword hvoid (by decide) (t.heads h.bare_spaces)
        intro heq
        apply t.element.firstWord_not_keyword
        rw [← heq, String.ofList_toList]
        apply List.mem_of_mem_filter hvoid
  have htight : Text.Tight (resultChars result) := by
    cases result with
    | none => apply Text.tight_of_forall (by decide)
    | some t => apply t.tight
  have hne : resultChars result ≠ [] := by
    cases result with
    | none => decide
    | some t => apply t.chars_ne_nil
  apply (takes_leaf (mem_members 4 rfl) rfl hbody).mono
  intro nodes hnode
  apply hnode.shows htight hne

/-! ### Shapes -/

/-- The labels of what a signature declares. -/
def shapeLabels : List String :=
  ["MethodSignature", "ConstructorSignature", "StaticInitializer"]

/-- There is one node, and a signature with it and perhaps modifiers declares a shape. -/
def ShowsShape (source : String) (shape : MemberShape) (nodes : List Node) : Prop :=
  ∃ node, nodes = [node] ∧ node.label ∈ shapeLabels ∧ ∀ signature : Node,
    (∀ label ≠ "Modifier", signature.child? label = [node].find? (·.label == label)) →
      memberShape source signature = .ok shape

/-- The parameters and the exceptions are read off a node that ends with them. -/
theorem ShowsTail.lookups {types : List ListedType} {throws : List DottedName} {node : Node}
    {tail : List Node} (before : List Node) (h : ShowsTail source types throws tail)
    (hchildren : node.children = before ++ tail)
    (hbefore : ∀ n ∈ before, n.label ≠ "JavapParameters" ∧ n.label ≠ "ThrowsClause") :
  parameterTypes source node = .ok (typeTexts types)
    ∧ clauseTypes source node "ThrowsClause" = nameTexts throws
  := by
  obtain ⟨parameters, clause, rfl, hlabel, hshows, hclause⟩ := h
  constructor
  · have hnone : before.find? (·.label == "JavapParameters") = none := by
      rw [List.find?_eq_none]
      intro n hmem
      rw [beq_iff_eq]
      apply (hbefore n hmem).1
    have hchild : node.child? "JavapParameters" = some parameters := by
      rw [Node.child?, hchildren, List.find?_append, hnone]
      simp [hlabel]
    rw [parameterTypes, requiredChild_eq hchild, ← childTexts_append (List.append_nil _).symm hshows
      (by simp)]
    rfl
  · have hchildren' : node.children = (before ++ [parameters]) ++ (clause ++ []) := by
      rw [hchildren]
      simp
    apply clauseTypes_eq hchildren' _ (by simp) hclause
    intro n hmem
    rcases List.mem_append.mp hmem with hmem | hmem
    · apply (hbefore n hmem).2
    · rw [List.mem_singleton.mp hmem, hlabel]
      decide

/-- The signature of a method is taken up to the semicolon. -/
theorem takes_method (s : Style) (result : Option ListedType) (name : PlainName)
    (types : List ListedType) (throws : List DottedName) :
  Takes draft source (.rule "MethodSignature")
    ((ListedShape.method result name types throws).print s) (';' :: rest)
    (ShowsShape source (ListedShape.method result name types throws).record)
  := by
  have htext : (ListedShape.method result name types throws).print s
      = (resultChars result ++ spaces 1) ++ ((name.chars ++ spaces 0)
        ++ printTail s types throws) := by
    simp [ListedShape.print, spaces]
  have hbody : Takes draft source members[3].body
      ((ListedShape.method result name types throws).print s) (';' :: rest)
      (Both (Shows (textOf source) "ResultType" [String.ofList (resultChars result)])
        (Both (Shows (textOf source) "JavapIdentifier" [String.ofList name.chars])
          (ShowsTail source types throws))) := by
    rw [htext]
    refine (takes_result result ?_).seq ((name.takes_identifier ?_).seq (takes_tail s types throws))
    · rw [List.append_assoc, List.append_assoc]
      apply name.followsType 0
    · exact follows_mark (by decide) (by decide) 0
  apply (takes_node (mem_members 3 rfl) rfl rfl hbody).mono
  rintro _ ⟨node, rfl, hlabel, -, _, _, hchildren, hresult, _, tail, rfl, hname, htail⟩
  have hlabel : node.label = "MethodSignature" := hlabel
  obtain ⟨result, rfl, hresult, hresultText⟩ := shows_singleton.mp hresult
  obtain ⟨name, rfl, hname, hnameText⟩ := shows_singleton.mp hname
  have hresultChild : node.child? "ResultType" = some result := by
    rw [Node.child?, hchildren]
    simp [hresult]
  have hnameChild : node.child? "JavapIdentifier" = some name := by
    rw [Node.child?, hchildren]
    simp [hresult, hname]
  obtain ⟨hparameters, hthrows⟩ := htail.lookups [result, name] hchildren (by
    simp [hresult, hname])
  refine ⟨node, rfl, by simp [hlabel, shapeLabels], ?_⟩
  intro signature hsignature
  have hmethod : signature.child? "MethodSignature" = some node := by
    rw [hsignature _ (by decide)]
    simp [hlabel]
  rw [memberShape, hmethod]
  simp only [childText_eq hnameChild, childText_eq hresultChild, hparameters, hthrows, hresultText,
    hnameText]
  rfl

/-- The signature of a constructor is taken up to the semicolon. -/
theorem takes_constructor (s : Style) (name : DottedName) (types : List ListedType)
    (throws : List DottedName) :
  Takes draft source (.rule "ConstructorSignature")
    ((ListedShape.constructor name types throws).print s) (';' :: rest)
    (ShowsShape source (ListedShape.constructor name types throws).record)
  := by
  have htext : (ListedShape.constructor name types throws).print s
      = (name.chars ++ spaces 0) ++ printTail s types throws := by
    simp [ListedShape.print, spaces]
  have hbody : Takes draft source members[5].body
      ((ListedShape.constructor name types throws).print s) (';' :: rest)
      (Both (Shows (textOf source) "JavapQualifiedIdentifier" [String.ofList name.chars])
        (ShowsTail source types throws)) := by
    rw [htext]
    refine (name.takes_qualifiedIdentifier ?_).seq (takes_tail s types throws)
    exact (followsType_mark (c := '(') (by decide) (by decide) 0).toFollowsName
  apply (takes_node (mem_members 5 rfl) rfl rfl hbody).mono
  rintro _ ⟨node, rfl, hlabel, -, _, tail, hchildren, hname, htail⟩
  have hlabel : node.label = "ConstructorSignature" := hlabel
  obtain ⟨name, rfl, hname, hnameText⟩ := shows_singleton.mp hname
  have hnameChild : node.child? "JavapQualifiedIdentifier" = some name := by
    rw [Node.child?, hchildren]
    simp [hname]
  obtain ⟨hparameters, hthrows⟩ := htail.lookups [name] hchildren (by simp [hname])
  refine ⟨node, rfl, by simp [hlabel, shapeLabels], ?_⟩
  intro signature hsignature
  have hmethod : signature.child? "MethodSignature" = none := by
    rw [hsignature _ (by decide)]
    simp [hlabel]
  have hconstructor : signature.child? "ConstructorSignature" = some node := by
    rw [hsignature _ (by decide)]
    simp [hlabel]
  rw [memberShape, hmethod, hconstructor]
  simp only [childText_eq hnameChild, hparameters, hthrows, hnameText]
  rfl

/-- The signature of a static initializer is taken. -/
theorem takes_staticInitializer (s : Style) :
  Takes draft source (.rule "StaticInitializer") (ListedShape.staticInitializer.print s) rest
    (ShowsShape source ListedShape.staticInitializer.record)
  := by
  have hbody : Takes draft source members[6].body (['\x7b'] ++ (spaces 0 ++ ['\x7d'])) rest
      NoNodes := by
    refine (takes_char (by decide) _).skip ((takes_inlineSpacing ?_).skip
      (takes_char (by decide) _).last)
    exact clearOf_cons.mpr (by decide)
  apply (takes_node (mem_members 6 rfl) rfl rfl hbody).mono
  rintro _ ⟨node, rfl, hlabel, -⟩
  have hlabel : node.label = "StaticInitializer" := hlabel
  refine ⟨node, rfl, by simp [hlabel, shapeLabels], ?_⟩
  intro signature hsignature
  have hmethod : signature.child? "MethodSignature" = none := by
    rw [hsignature _ (by decide)]
    simp [hlabel]
  have hconstructor : signature.child? "ConstructorSignature" = none := by
    rw [hsignature _ (by decide)]
    simp [hlabel]
  have hstatic : signature.child? "StaticInitializer" = some node := by
    rw [hsignature _ (by decide)]
    simp [hlabel]
  rw [memberShape, hmethod, hconstructor, requiredChild_eq hstatic]
  rfl

/-! ### Which signature it is -/

/-- Where no character of an identifier is neither a method nor a constructor begins. -/
theorem refuses_named (h : Bare rest) :
  Refuses draft source (.rule "MethodSignature") rest
    ∧ Refuses draft source (.rule "ConstructorSignature") rest
  := by
  constructor
  · apply refuses_rule (mem_members 3 rfl)
    apply Refuses.seq
    apply refuses_rule (mem_members 4 rfl)
    refine .choice ?_ (.choice ?_ refuses_choice_nil)
    · apply refuses_keyword (w := "void") (by decide) (by decide) (heads_nil h) (by decide)
    · apply refuses_type_of_bare h
  · apply refuses_rule (mem_members 5 rfl)
    apply (refuses_qualifiedIdentifier (refuses_identifier h)).seq

/-- A name as a type. -/
def DottedName.asType (n : DottedName) : ListedType :=
  ⟨.named n, 0⟩

theorem DottedName.chars_asType (n : DottedName) :
  n.asType.chars = n.chars
  := List.append_nil _

/-- The line of a constructor is no method, as no name follows the first. -/
theorem refuses_method_of_constructor (s : Style) (name : DottedName) (types : List ListedType)
    (throws : List DottedName) :
  Refuses draft source (.rule "MethodSignature")
    ((ListedShape.constructor name types throws).print s ++ rest)
  := by
  have htext : (ListedShape.constructor name types throws).print s ++ rest
      = (name.asType.chars ++ spaces 0)
        ++ (printTail s types throws ++ rest) := by
    simp [ListedShape.print, spaces, DottedName.chars_asType]
  have hresult : Takes draft source (.rule "ResultType") (name.asType.chars ++ spaces 0)
      (printTail s types throws ++ rest)
      (Shows (textOf source) "ResultType" [String.ofList name.asType.chars]) :=
    takes_result (some name.asType) (followsType_mark (by decide) (by decide) 0)
  rw [htext]
  apply refuses_rule (mem_members 3 rfl)
  apply hresult.refuses_seq
  apply Refuses.seq
  apply refuses_identifier
  exact bare_cons (by decide)

/-- What a signature declares is taken up to the semicolon. -/
theorem ListedShape.takes_shape (shape : ListedShape) (s : Style) :
  Takes draft source (.choice (Expr.rules shapeLabels)) (shape.print s) (';' :: rest)
    (ShowsShape source shape.record)
  := by
  cases shape with
  | method result name types throws => apply (takes_method s result name types throws).choice
  | constructor name types throws =>
      apply Takes.choice_next (refuses_method_of_constructor s name types throws)
      apply (takes_constructor s name types throws).choice
  | staticInitializer =>
      have hbare : Bare (staticInitializer.print s ++ ';' :: rest) := bare_cons (by decide)
      apply Takes.choice_next (refuses_named hbare).1
      apply Takes.choice_next (refuses_named hbare).2
      apply (takes_staticInitializer s).choice

/-- What a signature declares may follow its modifiers. -/
theorem ListedShape.followsModifiers (shape : ListedShape) (s : Style) (rest : List Char) :
  FollowsModifiers (shape.print s ++ rest)
  := by
  cases shape with
  | method result name types throws =>
      rw [ListedShape.print, List.append_assoc]
      cases result with
      | none =>
          have hvoid : Heads "void".toList (resultChars none
              ++ (' ' :: (name.chars ++ printTail s types throws)
                ++ rest)) :=
            heads_append (by decide) (bare_cons (by decide))
          apply followsModifiers_word hvoid (by decide) (by decide)
      | some t =>
          apply t.followsModifiers
          exact bare_cons (by decide)
  | constructor name types throws =>
      rw [ListedShape.print, List.append_assoc, ← name.chars_asType]
      apply name.asType.followsModifiers
      exact bare_cons (by decide)
  | staticInitializer => exact followsModifiers_mark (by decide) (by decide)

/-- On the line of a signature there is no field. -/
theorem refuses_field_of_signature (m : ListedMember) (s : Style) (rest : List Char) :
  Refuses draft source (.rule "JavapField") (m.signature s ++ rest)
  := by
  have hmodifiers := (@takes_modifiers source _ m.modifiers
    (m.shape.followsModifiers s rest)).2
  apply refuses_rule (mem_members 1 rfl)
  rw [ListedMember.signature, List.append_assoc]
  apply hmodifiers.refuses_seq
  cases m.shape with
  | method result name types throws =>
      cases result with
      | none =>
          have hvoid : Heads "void".toList ("void".toList
              ++ (' ' :: (name.chars ++ printTail s types throws)
                ++ rest)) :=
            heads_append (by decide) (bare_cons (by decide))
          rw [ListedShape.print, List.append_assoc]
          apply Refuses.seq
          apply refuses_type hvoid (by decide)
          apply refuses_identifier_keyword (w := "void") (by decide) (by decide)
          exact bare_cons (by decide)
      | some t =>
          have htext : (ListedShape.method (some t) name types throws).print s ++ rest
              = (t.chars ++ spaces 1) ++ ((name.chars ++ spaces 0)
                ++ (printTail s types throws ++ rest)) := by
            simp [ListedShape.print, resultChars, spaces]
          have htype : Takes draft source (.rule "JavapType") (t.chars ++ spaces 1)
              ((name.chars ++ spaces 0) ++ (printTail s types throws ++ rest))
              (Shows (textOf source) "JavapType" [String.ofList t.chars]) := by
            apply t.takes_type
            rw [List.append_assoc]
            apply name.followsType 0
          have hname : Takes draft source (.rule "JavapIdentifier") (name.chars ++ spaces 0)
              (printTail s types throws ++ rest)
              (Shows (textOf source) "JavapIdentifier" [String.ofList name.chars]) :=
            name.takes_identifier (follows_mark (by decide) (by decide) 0)
          rw [htext]
          apply htype.refuses_seq
          apply hname.refuses_seq
          apply Refuses.seq
          apply refuses_char
          rintro _ ⟨⟩
          decide
  | constructor name types throws =>
      have htext : (ListedShape.constructor name types throws).print s ++ rest
          = (name.asType.chars ++ spaces 0)
            ++ (printTail s types throws ++ rest) := by
        simp [ListedShape.print, spaces, DottedName.chars_asType]
      have htype : Takes draft source (.rule "JavapType") (name.asType.chars ++ spaces 0)
          (printTail s types throws ++ rest)
          (Shows (textOf source) "JavapType" [String.ofList name.asType.chars]) :=
        name.asType.takes_type (followsType_mark (by decide) (by decide) 0)
      rw [htext]
      apply htype.refuses_seq
      apply Refuses.seq
      apply refuses_identifier
      exact bare_cons (by decide)
  | staticInitializer =>
      apply Refuses.seq
      apply refuses_type_of_bare
      exact bare_cons (by decide)

end ClassTranscript.Transcript
