import ClassTranscript.Proofs.Java.Keywords
import ClassTranscript.Proofs.Language.Rules
import ClassTranscript.Proofs.Peg.Matching
import ClassTranscript.Proofs.Peg.Parts

/-!
# Where the nodes of Java start

Every token takes the spacing behind it, so between tokens something significant comes. Each node
below the root starts at such a place (`nodes_start_significant`): the rules are put together from
tokens (`madeOf_tokens`), and a match of a token leaves nodes only where it starts itself
(`spaced_of_token`).
-/

namespace ClassTranscript.Java

open Peg Peg.Expr

variable {d : Draft} {source : String} {e : Expr} {x : Definition} {id : RuleId} {here there : Cursor}
  {ns inside : List Node}

/-! ### Nodes that start together -/

/-- All nodes start where the match does. -/
def StartHere (here : Cursor) (ns : List Node) : Prop :=
  ∀ node ∈ Node.walk ns, node.span.start = here.offset

theorem startHere_rule (h : x.leaf = false → StartHere here inside) :
  StartHere here (x.nodes id ⟨here.offset, there.offset⟩ inside)
  := by
  apply Node.forall_walk_nodes _ h
  rintro node - hspan
  rw [hspan]

theorem startHere_of_leaf (hnames : (d.definitions.map (·.name)).Nodup) (hx : x ∈ d.definitions)
    (hleaf : x.leaf = true) (h : Grows d (.rule x.name) here there ns) :
  StartHere here ns
  := by
  obtain ⟨id, inside, rfl, -, -⟩ := h.of_rule hnames hx
  exact startHere_rule (by simp [hleaf])

theorem startHere_nil :
  StartHere here []
  := by
  simp [StartHere, Node.walk]

/-! ### Expressions that leave no nodes -/

/-- Terminals and predicates. -/
def leavesNothing : Expr → Bool
  | .literal _ | .char _ | .any | .endOfInput | .ahead _ | .notAhead _ => true
  | _ => false

/-- An expression without calls outside predicates leaves no nodes. -/
theorem nodes_nil_of_callless (h : Grows d e here there ns)
    (he : e.madeOf leavesNothing (fun _ => false) = true) :
  ns = []
  := by
  apply h.nodes_of_parts (r := fun _ _ ns => ns = []) (fun _ => rfl) _
    (fun _ _ _ _ _ hname => absurd hname Bool.false_ne_true)
    (fun _ _ hname => absurd hname Bool.false_ne_true) _ he
  · rintro _ _ _ _ _ rfl rfl
    rfl
  · intro e here there ns hpart h
    cases h with
    | reads | ahead | notAhead => rfl
    | _ => cases hpart

/-! ### Tokens -/

/-- Whether a sequence ends in spacing and leaves no nodes in front of it. -/
def endsInSpacing : List Expr → Bool
  | [] => false
  | [.rule name] => name == "Spacing"
  | item :: items => item.madeOf leavesNothing (fun _ => false) && endsInSpacing items

/-- Whether an expression is a token, or the end of the text. -/
def isToken : Expr → Bool
  | .endOfInput => true
  | .rule name => ["Spacing", "Identifier", "Literal"].contains name
  | .seq items => endsInSpacing items
  | _ => false

/-- Where something significant comes a match leads to another such place, and the nodes that it
leaves start at such places. -/
def Spaced (here there : Cursor) (ns : List Node) : Prop :=
  here.Reaches there ∧ (Significant here.rest → Significant there.rest
    ∧ ∀ node ∈ Node.walk ns, ∃ mid, here.Reaches mid ∧ mid.offset = node.span.start
      ∧ Significant mid.rest)

theorem spaced_of_startHere (hreaches : here.Reaches there) (hthere : Significant there.rest)
    (h : StartHere here ns) :
  Spaced here there ns
  := ⟨hreaches, fun hhere => ⟨hthere, fun node hmem => ⟨here, .refl _, (h node hmem).symm, hhere⟩⟩⟩

theorem Spaced.append {mid : Cursor} {xs ys : List Node} (h : Spaced here mid xs)
    (hnext : Spaced mid there ys) :
  Spaced here there (xs ++ ys)
  := by
  obtain ⟨hreaches, hxs⟩ := h
  obtain ⟨hreaches', hys⟩ := hnext
  refine ⟨hreaches.trans hreaches', ?_⟩
  intro hhere
  obtain ⟨hmid, hxs⟩ := hxs hhere
  obtain ⟨hthere, hys⟩ := hys hmid
  use hthere
  intro node hmem
  rw [Node.walk_append, List.mem_append] at hmem
  rcases hmem with hmem | hmem
  · exact hxs node hmem
  · obtain ⟨stop, hstop, hstart⟩ := hys node hmem
    exact ⟨stop, hreaches.trans hstop, hstart⟩

theorem Spaced.rule (h : Spaced here there inside) :
  Spaced here there (x.nodes id ⟨here.offset, there.offset⟩ inside)
  := by
  obtain ⟨hreaches, hinside⟩ := h
  refine ⟨hreaches, ?_⟩
  intro hhere
  obtain ⟨hthere, hinside⟩ := hinside hhere
  use hthere
  apply Node.forall_walk_nodes _ fun _ => hinside
  rintro node - hspan
  exact ⟨here, .refl _, by rw [hspan], hhere⟩

section

variable {items : List Expr} (hd : HasRules d)

include hd

theorem nil_of_spacing (h : Grows d (.rule "Spacing") here there ns) :
  ns = [] ∧ Significant there.rest
  := by
  have hx : spacing[0] ∈ d.definitions :=
    hd.mem_of_group (by simp [groups]) (List.getElem_mem _)
  obtain ⟨id, inside, rfl, -, hbody⟩ := h.of_rule hd.nodup hx
  exact ⟨rfl, significant_of_grows hbody⟩

/-- Spacing at the end of a sequence leads to something significant. -/
theorem significant_of_last (items : List Expr)
    (h : Grows d (.seq (items ++ [.rule "Spacing"])) here there ns) :
  Significant there.rest
  := by
  obtain ⟨_, _, _, -, -, h⟩ := h.of_seq_append
  obtain ⟨_, _, _, -, hspacing, hnil⟩ := h.of_seq_cons
  obtain ⟨rfl, -⟩ := hnil.of_seq_nil
  exact (nil_of_spacing hd hspacing).2

theorem nil_of_endsInSpacing (he : endsInSpacing items = true)
    (h : Grows d (.seq items) here there ns) :
  ns = [] ∧ Significant there.rest
  := by
  fun_induction endsInSpacing items generalizing here ns with
  | case1 => cases he
  | case2 name =>
      rw [beq_iff_eq] at he
      subst he
      obtain ⟨_, _, _, rfl, hspacing, hnil⟩ := h.of_seq_cons
      obtain ⟨rfl, rfl⟩ := hnil.of_seq_nil
      rw [List.append_nil]
      exact nil_of_spacing hd hspacing
  | case3 item items _ ih =>
      obtain ⟨hitem, hitems⟩ := Bool.and_eq_true_iff.mp he
      obtain ⟨_, _, _, rfl, hfirst, hnext⟩ := h.of_seq_cons
      obtain rfl := nodes_nil_of_callless hfirst hitem
      exact ih hitems hnext

theorem spaced_of_literal (h : Grows d (.rule "Literal") here there ns) :
  Spaced here there ns
  := by
  have hmem (i : Nat) {x : Definition} (hx : literals[i]? = some x) : x ∈ d.definitions :=
    hd.literals.mem x (List.mem_of_getElem? hx)
  have hleaf (i : Nat) {x : Definition} (hx : literals[i]? = some x) (hleaf : x.leaf = true)
      {there : Cursor} {ns : List Node} (h : Grows d (.rule x.name) here there ns) :
      StartHere here ns := startHere_of_leaf hd.nodup (hmem i hx) hleaf h
  have hfloat {there : Cursor} {ns : List Node} (h : Grows d (.rule "FloatLiteral") here there ns) :
      StartHere here ns := by
    obtain ⟨id, inside, rfl, -, hbody⟩ := h.of_rule hd.nodup (hmem 5 rfl)
    apply startHere_rule
    intro _
    obtain ⟨item, hitem, hgrows⟩ := hbody.of_choice
    simp only [rules, List.map_cons, List.map_nil, List.mem_cons, List.not_mem_nil, or_false] at hitem
    rcases hitem with rfl | rfl
    · exact hleaf 8 rfl rfl hgrows
    · exact hleaf 6 rfl rfl hgrows
  have hword {word : String} {there : Cursor} {ns : List Node}
      (h : Grows d (Java.word word) here there ns) : StartHere here ns := by
    rw [nodes_nil_of_callless h (by rfl)]
    exact startHere_nil
  have hreaches := h.reaches
  obtain ⟨id, inside, rfl, -, hbody⟩ := h.of_rule hd.nodup (hmem 0 rfl)
  apply spaced_of_startHere hreaches (significant_of_last hd [_] hbody)
  apply startHere_rule
  intro _
  obtain ⟨mid, xs, _, rfl, hchoice, hlast⟩ := hbody.of_seq_cons
  obtain ⟨_, _, _, rfl, hspacing, hnil⟩ := hlast.of_seq_cons
  obtain ⟨rfl, rfl⟩ := hnil.of_seq_nil
  rw [(nil_of_spacing hd hspacing).1, List.append_nil, List.append_nil]
  obtain ⟨item, hitem, hgrows⟩ := hchoice.of_choice
  simp only [List.mem_cons, List.not_mem_nil, or_false] at hitem
  rcases hitem with rfl | rfl | rfl | rfl | rfl | rfl | rfl
  · exact hfloat hgrows
  · exact hleaf 1 rfl rfl hgrows
  · exact hleaf 11 rfl rfl hgrows
  · exact hleaf 12 rfl rfl hgrows
  · exact hword hgrows
  · exact hword hgrows
  · exact hword hgrows

/-- A token leads to something significant, and leaves nodes only where it starts. -/
theorem spaced_of_token (he : isToken e = true) (h : Grows d e here there ns) :
  Spaced here there ns
  := by
  have hreaches := h.reaches
  unfold isToken at he
  split at he
  · cases h with
    | reads hreads hrest _ =>
        obtain ⟨rfl, -⟩ := hreads
        refine ⟨hreaches, fun hhere => ⟨?_, by simp [Node.walk]⟩⟩
        rw [List.nil_append] at hrest
        rwa [← hrest]
  · simp only [List.contains_iff_mem, List.mem_cons, List.not_mem_nil, or_false] at he
    rcases he with rfl | rfl | rfl
    · obtain ⟨rfl, hthere⟩ := nil_of_spacing hd h
      exact spaced_of_startHere hreaches hthere startHere_nil
    · have hx : identifiers[0] ∈ d.definitions :=
        hd.mem_of_group (by simp [groups]) (List.getElem_mem _)
      obtain ⟨_, _, -, -, hbody⟩ := Grows.of_rule hd.nodup hx h
      exact spaced_of_startHere hreaches (significant_of_last hd [_, _, _] hbody)
        (startHere_of_leaf hd.nodup hx rfl h)
    · exact spaced_of_literal hd h
  · obtain ⟨rfl, hthere⟩ := nil_of_endsInSpacing hd he h
    exact spaced_of_startHere hreaches hthere startHere_nil
  · cases he

end

/-! ### Rules -/

/-- The rules that are made of tokens: those above the tokens and the tokens that are no identifiers
and no literals. -/
def aboveTokens (name : String) : Bool :=
  !((spacing ++ identifiers ++ literals).map (·.name)).contains name && name != "Keyword"

theorem madeOf_tokens :
  (definitions.all fun x => !aboveTokens x.name || x.body.madeOf isToken aboveTokens) = true
  := by
  decide +kernel

theorem spaced_of_grows (he : e.madeOf isToken aboveTokens = true) (h : Grows draft e here there ns) :
  Spaced here there ns
  := by
  have hmade : draft.MadeOf isToken aboveTokens := by
    intro x hx hname
    rw [Transcript.javaDraft_eq] at hx
    have hall := List.all_eq_true.mp madeOf_tokens x hx
    rwa [hname] at hall
  apply h.nodes_of_parts _ _ _ hmade _ he
  · exact fun here => ⟨.refl _, fun hhere => ⟨hhere, by simp [Node.walk]⟩⟩
  · exact fun _ _ _ _ _ => Spaced.append
  · exact fun _ _ _ _ _ _ => Spaced.rule
  · exact fun _ _ _ _ => spaced_of_token hasRules_draft

theorem definition_root :
  draft.definitions[grammar.root]? = some compilationUnits[0]
  := by
  have hroot : draft.root = some rootName := by rw [Transcript.javaDraft_eq]
  apply Draft.definition_of_root hasRules_draft.nodup Transcript.build_javaDraft hroot
  exact hasRules_draft.mem_of_group (by simp [groups]) (List.getElem_mem _)

/-- Every node but the root starts at something significant: of a text that the root rule of Java
matches, each node below the root starts at a place where neither white space comes nor a comment,
be it a whole one in a block or one in a line. -/
theorem nodes_start_significant {o : Options} {text : String} {tree : Tree} {stats : Stats}
    {log : List Event} {child node : Node}
    (hparse : parse? grammar o grammar.root text = some (.matched tree stats, log))
    (hchild : child ∈ tree.root.children) (hmem : node ∈ child.descendants) :
  ∃ here, (Cursor.atStart text).Reaches here ∧ here.offset = node.span.start
    ∧ Significant here.rest
  := by
  obtain ⟨x, there, nodes, hx, hgrows, -, hroot⟩ :=
    exists_grows_of_parse? Transcript.build_javaDraft hparse
  obtain rfl := Option.some.inj (definition_root.symm.trans hx)
  -- spacing at the front of the text leads to something significant, and tokens go on from there
  obtain ⟨mid, _, ns, rfl, hspacing, hrest⟩ := Grows.of_seq_cons hgrows
  obtain ⟨rfl, hmid⟩ := nil_of_spacing hasRules_draft hspacing
  obtain ⟨-, hspaced⟩ := spaced_of_grows (by decide) hrest
  have hchild : child ∈ ns := by rwa [hroot] at hchild
  obtain ⟨here, hreaches, hstart, hhere⟩ :=
    (hspaced hmid).2 node (Node.mem_walk_of_descendant hchild hmem)
  exact ⟨here, hspacing.reaches.trans hreaches, hstart, hhere⟩

/-! ### An empty declaration -/

/-- A declaration of a type that is not empty. -/
def typeDeclaration : Expr :=
  .seq
    [.star (.rule "Modifier"),
     .choice (rules ["ClassDeclaration", "EnumDeclaration", "InterfaceDeclaration",
                     "AnnotationTypeDeclaration"])]

section

variable {text : List Char} (hd : HasRules d) (hword : LongestWord [] text)
  (hat : ¬ Begins ("AT", "@", "") text)

include hd hword hat

/-- Without a word or the sign of an annotation no declaration comes but an empty one. -/
theorem refuses_declarations (source : String) :
  Refuses d source (.rule "PackageDeclaration") text
    ∧ Refuses d source (.rule "ImportDeclaration") text ∧ Refuses d source typeDeclaration text
  := by
  have hsign : Refuses d source (.rule "AT") text := refuses_operator hd (by simp [operators]) hat
  have hkeyword (keyword : String) (hmem : keyword ∈ keywords) (hused : keyword ∉ unusedKeywords) :
      Refuses d source (.rule (keywordRule keyword).name) text := by
    apply refuses_keywordRule hd hmem hused hword
    exact (smallLetters_keywords.1 keyword hmem).1
  have hannotation : Refuses d source (.rule "Annotation") text :=
    hd.refuses_rule (x := annotationRules[8]) (by simp [groups])
      (List.getElem_mem _) hsign.seq
  have hmodifier : Refuses d source (.rule "Modifier") text := by
    apply hd.refuses_rule (x := typeNames[10]) (by simp [groups])
      (List.getElem_mem _)
    exact .choice hannotation (.choice (refuses_modifierWord hd (by decide) hword) refuses_choice_nil)
  refine ⟨?_, ?_, ?_⟩
  · apply hd.refuses_rule (x := compilationUnits[1]) (by simp [groups])
      (List.getElem_mem _)
    apply (takes_star_nil hannotation).refuses_seq (s := [])
    exact (hkeyword "package" (by decide) (by decide)).seq
  · apply hd.refuses_rule (x := compilationUnits[2]) (by simp [groups])
      (List.getElem_mem _)
    exact (hkeyword "import" (by decide) (by decide)).seq
  · apply (takes_star_nil hmodifier).refuses_seq (s := [])
    apply Refuses.seq
    refine .choice ?_ (.choice ?_ (.choice ?_ (.choice ?_ refuses_choice_nil)))
    · apply hd.refuses_rule (x := classDeclarations[0])
        (by simp [groups]) (List.getElem_mem _)
      exact (hkeyword "class" (by decide) (by decide)).seq
    · apply hd.refuses_rule (x := enumDeclarations[0])
        (by simp [groups]) (List.getElem_mem _)
      exact (hkeyword "enum" (by decide) (by decide)).seq
    · apply hd.refuses_rule (x := interfaceDeclarations[0])
        (by simp [groups]) (List.getElem_mem _)
      exact (hkeyword "interface" (by decide) (by decide)).seq
    · apply hd.refuses_rule (x := annotationRules[0])
        (by simp [groups]) (List.getElem_mem _)
      exact hsign.seq

end

/-- A semicolon behind a comment is a declaration. -/
theorem takes_commented_semicolon (hd : HasRules d) :
  Takes d source compilationUnits[0].body "/**/ ;".toList [] fun nodes => ∃ node, nodes = [node]
    ∧ node.label = "TypeDeclaration"
  := by
  have hstop (text : List Char) (hhead : ∀ c, text.head? = some c → c = ';') :
      Significant text ∧ LongestWord [] text ∧ ¬ Begins ("AT", "@", "") text := by
    refine ⟨significant_of_head ?_, longestWord_nil (noUnit_of_head ?_), ?_⟩
    · rintro c hc
      rw [hhead c hc]
      decide
    · rintro c hc
      rw [hhead c hc]
      decide
    · rintro ⟨tail, rfl, -⟩
      exact absurd (hhead '@' rfl) (by decide)
  obtain ⟨hsemi, hsemiWord, hsemiAt⟩ := hstop [';'] (by rintro _ ⟨⟩; rfl)
  obtain ⟨hend, hendWord, hendAt⟩ := hstop [] nofun
  -- the spacing at the front is a comment and a blank
  have hcomment : Takes d source gapRound "/**/".toList [' ', ';'] NoNodes := by
    apply Takes.choice_next (refuses_char (by rintro _ ⟨⟩; decide)).plus
    apply Takes.choice
    have hbody : Takes d source (.star (.seq [.notAhead "*/", .any])) [] "*/ ;".toList NoNodes :=
      takes_star_nil (refuses_except (takes_literal "*/" [' ', ';']))
    exact (takes_literal "/*" "*/ ;".toList).skip
      (Takes.skip (t := "*/".toList) hbody (takes_literal "*/" [' ', ';']).last)
  have hblank : Takes d source gapRound [' '] [';'] NoNodes :=
    (takes_plus_chars (by simp) (List.forall_mem_singleton.mpr rfl) (by rintro _ ⟨⟩; decide)).choice
  have hgap : Takes d source (.rule "Spacing") "/**/ ".toList [';'] NoNodes := by
    apply takes_spacing hd
    exact Takes.star_skip (s := "/**/".toList) (t := [' ']) hcomment
      (hblank.star_last (refuses_gapRound hsemi))
  have hsign : Takes d source (.rule "SEMI") [';'] [] NoNodes := by
    have hmem : ("SEMI", ";", "") ∈ operators := by simp [operators]
    have hspacing : Takes d source (.rule "Spacing") [] [] NoNodes :=
      takes_spacing hd (takes_star_nil (refuses_gapRound hend))
    exact takes_operator hd hmem (by decide) hspacing
  obtain ⟨hpackage, himport, hdeclaration⟩ :=
    refuses_declarations hd hsemiWord hsemiAt source
  have hfirst : Takes d source (.rule "TypeDeclaration") [';'] [] fun nodes => ∃ node, nodes = [node]
      ∧ node.label = "TypeDeclaration" := by
    apply (hd.takes_node (x := compilationUnits[3]) (by simp [groups])
      (List.getElem_mem _) rfl (Takes.choice_next hdeclaration hsign.choice)).mono
    rintro _ ⟨node, rfl, hlabel, -⟩
    exact ⟨node, rfl, hlabel⟩
  have hlast : Refuses d source (.rule "TypeDeclaration") [] := by
    apply hd.refuses_rule (x := compilationUnits[3]) (by simp [groups])
      (List.getElem_mem _)
    refine .choice (refuses_declarations hd hendWord hendAt source).2.2 (.choice ?_ refuses_choice_nil)
    exact refuses_operator hd (by simp [operators] : ("SEMI", ";", "") ∈ operators) (by decide)
  have hnodes := (hfirst.star_last hlast).seq_nothing takes_endOfInput.last
  exact hgap.skip (t := [';']) ((takes_optional_nil hpackage).skip (s := [])
    ((takes_star_nil himport).skip (s := []) hnodes))

/-- The declaration behind the comment starts at its semicolon. -/
theorem nodes_start_significant_semicolon :
  ∃ o tree stats log child, parse? grammar o grammar.root "/**/ ;" = some (.matched tree stats, log)
    ∧ tree.root.children = [child] ∧ child.label = "TypeDeclaration"
    ∧ ∃ here, (Cursor.atStart "/**/ ;").Reaches here ∧ here.offset = child.span.start
      ∧ Significant here.rest
  := by
  obtain ⟨_, hgrows, child, rfl, hlabel⟩ :=
    takes_commented_semicolon hasRules_draft (.atStart "/**/ ;") (.refl _) rfl
  obtain ⟨n, hn⟩ := exists_matched_of_grows Transcript.build_javaDraft definition_root hgrows
  obtain ⟨tree, stats, log, hparse, hroot⟩ :=
    hn { limits := ⟨n, n, n⟩ } (Nat.le_refl n) (Nat.le_refl n) (Nat.le_refl n)
  have hchildren : tree.root.children = [child] := by
    rw [hroot]
    rfl
  refine ⟨_, tree, stats, log, child, hparse, hchildren, hlabel, ?_⟩
  have hmem : child ∈ tree.root.children := by
    rw [hchildren]
    exact List.mem_singleton_self child
  exact nodes_start_significant hparse hmem (Node.mem_descendants_self child)

end ClassTranscript.Java
