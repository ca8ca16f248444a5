import ClassTranscript.Proofs.Java.Keywords

/-!
# Operands

A word that is no keyword is an operand of the tightest level of expressions wherever nothing follows
that would go on with it (`takes_operand`). The words of literals are read by the rule of literals,
all others by that of qualified identifiers.
-/

namespace ClassTranscript.Java

open Peg Peg.Expr

/-! ### Labels that do not come up -/

/-- None of the nodes, or of those below them, has one of the labels. -/
def FreeOf (labels : List String) (nodes : List Node) : Prop :=
  ∀ node ∈ Node.walk nodes, node.label ∉ labels

section

variable {d : Draft} {source : String} {labels : List String} {x : Definition}
  {group : List Definition} {s rest : List Char} {p : List Node → Prop}

theorem freeOf_nil :
  FreeOf labels []
  := by
  simp [FreeOf, Node.walk]

/-- A call of a rule of another label leaves none of the labels where the body leaves none. -/
theorem HasRules.takes_free_rule (hd : HasRules d) (hgroup : group ∈ groups) (hx : x ∈ group)
    (hlabel : x.label ∉ labels) (h : Takes d source x.body s rest p)
    (hp : x.leaf = false → ∀ nodes, p nodes → FreeOf labels nodes) :
  Takes d source (.rule x.name) s rest (FreeOf labels)
  := by
  intro here hhere hrest
  obtain ⟨id, hid, hid'⟩ := Draft.exists_ruleId? hd.nodup (hd.mem_of_group hgroup hx)
  obtain ⟨nodes, hgrows, hnodes⟩ := h here hhere hrest
  refine ⟨_, .rule hid hid' hgrows, ?_⟩
  apply Node.forall_walk_nodes _ fun hleaf => hp hleaf nodes hnodes
  rintro node hsame -
  rwa [hsame]

end

/-! ### What a word is not -/

/-- The text is empty or begins with what may begin a word. -/
def LikeWord (text : List Char) : Prop :=
  ∀ c, text.head? = some c → isLetter c = true ∨ c = '\\'

section

variable {d : Draft} {source : String} {cls : CharClass} {op : String × String × String}
  {w text rest : List Char}

theorem IsWord.likeWord (h : IsWord w) (hne : w ≠ []) (rest : List Char) :
  LikeWord (w ++ rest)
  := by
  cases h with
  | nil => exact absurd rfl hne
  | cons hu hs =>
      cases hu with
      | char hc =>
          rintro c ⟨⟩
          exact .inl hc
      | escape _ _ =>
          rintro c ⟨⟩
          exact .inr rfl

namespace LikeWord

variable (h : LikeWord text)

include h

theorem head_ne {c : Char} (hc : isLetter c = false ∧ c ≠ '\\') :
  text.head? ≠ some c
  := by
  intro hhead
  obtain ⟨hletter, hslash⟩ := hc
  rcases h c hhead with hword | hword
  · rw [hletter] at hword
    cases hword
  · exact hslash hword

/-- No operator is like a word. -/
theorem not_begins (hop : op ∈ operators) :
  ¬ Begins op text
  := by
  have hne : ∀ op ∈ operators, op.2.1.toList ≠ [] := by decide
  have hhead : (operators.all fun op => op.2.1.toList.head?.all fun c =>
      !isLetter c && c != '\\') = true := by
    decide
  rintro ⟨tail, rfl, -⟩
  obtain ⟨c, cs, hchars⟩ := List.exists_cons_of_ne_nil (hne op hop)
  have hplain := List.all_eq_true.mp hhead op hop
  rw [hchars] at hplain
  apply h.head_ne (by simpa using hplain)
  rw [hchars]
  rfl

theorem refuses_char (hcls : ∀ c, cls.holds c = true → isLetter c = false ∧ c ≠ '\\') :
  Refuses d source (.char cls) text
  := by
  apply Peg.refuses_char
  intro c hc
  rw [Bool.eq_false_iff]
  exact fun hholds => h.head_ne (hcls c hholds) hc

theorem refuses_only {c : Char} (hc : isLetter c = false ∧ c ≠ '\\') :
  Refuses d source (.char (.only c)) text
  := by
  apply h.refuses_char
  intro x hx
  rwa [show x = c from beq_iff_eq.mp hx]

theorem refuses_digits {lo : Char} (hlo : '0' ≤ lo) :
  Refuses d source (range lo '9') text
  := by
  apply h.refuses_char
  intro c hc
  simp only [CharClass.holds, Bool.and_eq_true, decide_eq_true_eq] at hc
  have hall : ∀ n < 10, isLetter (Char.ofNat (48 + n)) = false ∧ Char.ofNat (48 + n) ≠ '\\' := by
    decide
  have hge : 48 ≤ c.toNat := Nat.le_trans hlo hc.1
  have hle : c.toNat ≤ 57 := hc.2
  have hdigit := hall (c.toNat - 48) (by omega)
  rwa [Nat.add_sub_cancel' hge, Char.ofNat_toNat] at hdigit

/-- A word begins no number, no character and no string. -/
theorem refuses_unquoted (hd : HasRules d) (source : String) :
  ∀ name ∈ ["FloatLiteral", "IntegerLiteral", "CharLiteral", "StringLiteral"],
    Refuses d source (.rule name) text
  := by
  have hrule (i : Nat) {x : Definition} (hx : literals[i]? = some x)
      (hbody : Refuses d source x.body text) : Refuses d source (.rule x.name) text :=
    hd.refuses_rule (by simp [groups]) (List.mem_of_getElem? hx) hbody
  have hzero : Refuses d source (.char (.only '0')) text := h.refuses_only (by decide)
  have hdigits : Refuses d source (.plus digit) text := (h.refuses_digits (Char.le_refl '0')).plus
  have hhex : Refuses d source (.rule "HexNumeral") text := hrule 3 rfl hzero.seq
  have hsign : Refuses d source (.choice ["0x", "0X"]) text := by
    apply refuses_choice
    simp only [List.forall_mem_cons]
    have hbegins {s : String} (hs : s.toList.head? = some '0') : ¬ s.toList <+: text := by
      rintro ⟨tail, rfl⟩
      apply h.head_ne (c := '0') (by decide)
      rw [List.head?_append, hs]
      rfl
    exact ⟨refuses_literal (hbegins rfl), refuses_literal (hbegins rfl), by simp⟩
  have hsignificant : Refuses d source (.rule "HexSignificant") text :=
    hrule 9 rfl (.choice hsign.seq (.choice hhex.seq refuses_choice_nil))
  simp only [List.forall_mem_cons]
  refine ⟨hrule 5 rfl ?_, hrule 1 rfl ?_, hrule 11 rfl ?_, hrule 12 rfl ?_, by simp⟩
  · refine .choice (hrule 8 rfl hsignificant.seq) (.choice (hrule 6 rfl ?_) refuses_choice_nil)
    apply refuses_choice
    simp only [List.forall_mem_cons]
    exact ⟨hdigits.seq, (h.refuses_only (by decide)).seq, hdigits.seq, hdigits.seq, by simp⟩
  · apply Refuses.seq
    refine .choice hhex (.choice (hrule 4 rfl hzero.seq) (.choice (hrule 2 rfl ?_) refuses_choice_nil))
    exact .choice hzero (.choice (h.refuses_digits (by decide)).seq refuses_choice_nil)
  · exact (h.refuses_only (by decide)).seq
  · exact (h.refuses_only (by decide)).seq

end LikeWord

end

/-! ### Literals -/

/-- The words that are literals. -/
def literalWords : List String :=
  ["true", "false", "null"]

theorem smallLetters_literalWords :
  SmallLetters literalWords
  := by
  decide

section

variable {d : Draft} {source : String} {labels words : List String} {w gap text rest : List Char}
  (hd : HasRules d)

include hd

/-- Of some words in a choice that is taken which is the longest word of the text. -/
theorem takes_wordChoice (hsmall : SmallLetters words) (hmem : String.ofList w ∈ words)
    (h : LongestWord w (w ++ rest)) :
  Takes d source (.choice (words.map Java.word)) w rest NoNodes
  := by
  induction words with
  | nil => cases hmem
  | cons word words ih =>
      obtain ⟨⟨hne, hchars⟩, hsmall⟩ := List.forall_mem_cons.mp hsmall
      by_cases hsame : word.toList = w
      · subst hsame
        exact (takes_word hd hne h).choice
      · apply Takes.choice_next (refuses_word hd hchars h hsame)
        apply ih hsmall
        apply (List.mem_cons.mp hmem).resolve_left
        rintro rfl
        rw [String.toList_ofList] at hsame
        exact hsame rfl

theorem refuses_wordChoice (hsmall : SmallLetters words) (hnot : String.ofList w ∉ words)
    (h : LongestWord w text) :
  Refuses d source (.choice (words.map Java.word)) text
  := by
  apply refuses_choice
  intro item hitem
  obtain ⟨word, hmem, rfl⟩ := List.mem_map.mp hitem
  apply refuses_word hd (hsmall word hmem).2 h
  rintro rfl
  rw [String.ofList_toList] at hnot
  exact hnot hmem

/-- The rule of literals takes a word just where it is one of the words of literals. -/
theorem takes_literalWord (hne : w ≠ []) (h : LongestWord w (w ++ (gap ++ rest)))
    (hmem : String.ofList w ∈ literalWords) (hlabels : "Literal" ∉ labels)
    (hgap : Takes d source (.rule "Spacing") gap rest NoNodes) :
  Takes d source (.rule "Literal") (w ++ gap) rest (FreeOf labels)
  := by
  have hunquoted := (h.isWord.likeWord hne (gap ++ rest)).refuses_unquoted hd source
  simp only [List.forall_mem_cons] at hunquoted
  obtain ⟨hfloat, hinteger, hchar, hstring, -⟩ := hunquoted
  have hchoice : Takes d source (.choice (literalWords.map word)) w (gap ++ rest) NoNodes :=
    takes_wordChoice hd smallLetters_literalWords hmem h
  apply hd.takes_free_rule (x := literals[0]) (by simp [groups])
    (List.getElem_mem _) hlabels (p := NoNodes)
  · exact Takes.skip (.choice_next hfloat (.choice_next hinteger (.choice_next hchar
      (.choice_next hstring hchoice)))) hgap.last
  · rintro _ _ rfl
    exact freeOf_nil

theorem refuses_literalWord (hne : w ≠ []) (h : LongestWord w (w ++ rest))
    (hnot : String.ofList w ∉ literalWords) :
  Refuses d source (.rule "Literal") (w ++ rest)
  := by
  have hunquoted := (h.isWord.likeWord hne rest).refuses_unquoted hd source
  simp only [List.forall_mem_cons] at hunquoted
  obtain ⟨hfloat, hinteger, hchar, hstring, -⟩ := hunquoted
  apply hd.refuses_rule (x := literals[0]) (by simp [groups])
    (List.getElem_mem _)
  exact Refuses.seq (.choice hfloat (.choice hinteger (.choice hchar (.choice hstring
    (refuses_wordChoice hd smallLetters_literalWords hnot h)))))

end

/-! ### Operands -/

/-- Nothing follows that goes on with an operand: no selection, no arguments and no sign behind it. -/
def EndsOperand (rest : List Char) : Prop :=
  ∀ op ∈ operators, op.1 ∈ ["DOT", "LPAR", "LBRK", "INC", "DEC"] → ¬ Begins op rest

section

variable {d : Draft} {source : String} {labels : List String} {w gap rest : List Char}
  (hd : HasRules d)

include hd

/-- What goes on with an operand is refused where nothing does. -/
theorem refuses_afterOperand (source : String) (h : EndsOperand rest) :
  Refuses d source (.rule "DOT") rest ∧ Refuses d source (.rule "IdentifierSuffix") rest
    ∧ Refuses d source (.rule "Selector") rest ∧ Refuses d source (.rule "PostFixOp") rest
  := by
  have hop (op : String × String × String) (hmem : op ∈ operators)
      (hname : op.1 ∈ ["DOT", "LPAR", "LBRK", "INC", "DEC"]) : Refuses d source (.rule op.1) rest :=
    refuses_operator hd hmem (h op hmem hname)
  have hdot : Refuses d source (.rule "DOT") rest :=
    hop ("DOT", ".", "") (by simp [operators]) (by simp)
  have hbracket : Refuses d source (.rule "LBRK") rest :=
    hop ("LBRK", "[", "") (by simp [operators]) (by simp)
  have harguments : Refuses d source (.rule "Arguments") rest :=
    hd.refuses_rule (x := primaries[7]) (by simp [groups]) (List.getElem_mem _)
      (hop ("LPAR", "(", "") (by simp [operators]) (by simp)).seq
  have hdimension : Refuses d source (.rule "DimExpr") rest :=
    hd.refuses_rule (x := typeNames[13]) (by simp [groups])
      (List.getElem_mem _) hbracket.seq
  refine ⟨hdot, ?_, ?_, ?_⟩
  · apply hd.refuses_rule (x := primaries[1]) (by simp [groups])
      (List.getElem_mem _)
    exact .choice hbracket.seq (.choice harguments (.choice hdot.seq refuses_choice_nil))
  · apply hd.refuses_rule (x := primaries[5]) (by simp [groups])
      (List.getElem_mem _)
    exact .choice hdot.seq (.choice hdot.seq (.choice hdot.seq (.choice hdot.seq
      (.choice hdot.seq (.choice hdimension refuses_choice_nil)))))
  · apply hd.refuses_rule (x := precedenceLevels[17]) (by simp [groups])
      (List.getElem_mem _)
    refine .choice ?_ (.choice ?_ refuses_choice_nil)
    · exact hop ("INC", "++", "") (by simp [operators]) (by simp)
    · exact hop ("DEC", "--", "") (by simp [operators]) (by simp)

/-- A word that is no keyword is a primary expression. -/
theorem takes_primary (hlabels : ∀ label ∈ ["Primary", "Literal", "QualifiedIdentifier", "Identifier"],
    label ∉ labels) (hne : w ≠ []) (hnot : String.ofList w ∉ keywords)
    (h : LongestWord w (w ++ (gap ++ rest))) (hgap : Takes d source (.rule "Spacing") gap rest NoNodes)
    (hend : EndsOperand rest) :
  Takes d source (.rule "Primary") (w ++ gap) rest (FreeOf labels)
  := by
  simp only [List.forall_mem_cons] at hlabels
  obtain ⟨hprimary, hliteral, hqualified, hidentifier, -⟩ := hlabels
  obtain ⟨hdot, hsuffix, -, -⟩ := refuses_afterOperand hd source hend
  have hlike := h.isWord.likeWord hne (gap ++ rest)
  have hop (op : String × String × String) (hmem : op ∈ operators) :
      Refuses d source (.rule op.1) (w ++ (gap ++ rest)) :=
    refuses_operator hd hmem (hlike.not_begins hmem)
  have hkeyword (keyword : String) (hmem : keyword ∈ keywords) (hused : keyword ∉ unusedKeywords) :
      Refuses d source (.rule (keywordRule keyword).name) (w ++ (gap ++ rest)) := by
    apply refuses_keywordRule hd hmem hused h
    rintro rfl
    rw [String.ofList_toList] at hnot
    exact hnot hmem
  have hparenthesis : Refuses d source (.rule "ParExpression") (w ++ (gap ++ rest)) :=
    hd.refuses_rule (x := primaries[8]) (by simp [groups]) (List.getElem_mem _)
      (hop ("LPAR", "(", "") (by simp [operators])).seq
  have hwildcard : Refuses d source (.rule "NonWildcardTypeArguments") (w ++ (gap ++ rest)) :=
    hd.refuses_rule (x := primaries[3]) (by simp [groups]) (List.getElem_mem _)
      (hop ("LPOINT", "<", "") (by simp [operators])).seq
  have hthis := hkeyword "this" (by decide) (by decide)
  have hsuper := hkeyword "super" (by decide) (by decide)
  have hnew := hkeyword "new" (by decide) (by decide)
  apply hd.takes_free_rule (x := primaries[0]) (by simp [groups])
    (List.getElem_mem _) hprimary (p := FreeOf labels) _ fun _ _ hfree => hfree
  rw [← List.append_assoc] at hparenthesis hwildcard hthis hsuper hnew
  apply Takes.choice_next hparenthesis
  apply Takes.choice_next hwildcard.seq
  apply Takes.choice_next hthis.seq
  apply Takes.choice_next hsuper.seq
  by_cases hmem : String.ofList w ∈ literalWords
  · exact (takes_literalWord hd hne h hmem hliteral hgap).choice
  · have hno : Refuses d source (.rule "Literal") (w ++ (gap ++ rest)) :=
      refuses_literalWord hd hne h hmem
    rw [← List.append_assoc] at hno
    apply Takes.choice_next hno
    apply Takes.choice_next hnew.seq
    have hname : Takes d source (.rule "Identifier") (w ++ gap) rest (FreeOf labels) :=
      hd.takes_free_rule (x := identifiers[0]) (by simp [groups])
        (List.getElem_mem _) hidentifier (takes_identifierChars hd hne hnot h hgap.last)
        fun hleaf => by cases hleaf
    have hnames : Takes d source (.rule "QualifiedIdentifier") (w ++ gap) rest (FreeOf labels) :=
      hd.takes_free_rule (x := typeNames[11]) (by simp [groups])
        (List.getElem_mem _) hqualified (hname.seq_nothing (takes_star_nil hdot.seq).last)
        fun _ _ hfree => hfree
    exact (hnames.seq_nothing (takes_optional_nil hsuffix).last).choice

/-- A word that is no keyword is an operand where nothing follows that goes on with it. -/
theorem takes_operand (hlabels : ∀ label ∈ ["Primary", "Literal", "QualifiedIdentifier", "Identifier"],
    label ∉ labels) (hne : w ≠ []) (hnot : String.ofList w ∉ keywords)
    (h : LongestWord w (w ++ (gap ++ rest))) (hgap : Takes d source (.rule "Spacing") gap rest NoNodes)
    (hend : EndsOperand rest) :
  Takes d source (.rule "UnaryExpression") (w ++ gap) rest fun nodes => ∃ node, nodes = [node]
    ∧ node.label = "UnaryExpression" ∧ node.text source = String.ofList (w ++ gap)
    ∧ FreeOf labels node.children
  := by
  obtain ⟨-, -, hselector, hsign⟩ := refuses_afterOperand hd source hend
  have hlike := h.isWord.likeWord hne (gap ++ rest)
  have hop (op : String × String × String) (hmem : op ∈ operators) :
      Refuses d source (.rule op.1) ((w ++ gap) ++ rest) := by
    rw [List.append_assoc]
    exact refuses_operator hd hmem (hlike.not_begins hmem)
  have hbefore : Refuses d source (.rule "PrefixOp") ((w ++ gap) ++ rest) := by
    apply hd.refuses_rule (x := precedenceLevels[16]) (by simp [groups])
      (List.getElem_mem _)
    apply refuses_choice
    intro item hitem
    obtain ⟨name, hname, rfl⟩ := List.mem_map.mp hitem
    have hall : ∀ name ∈ ["INC", "DEC", "BANG", "TILDA", "PLUS", "MINUS"],
        ∃ op ∈ operators, op.1 = name := by decide
    obtain ⟨op, hmem, rfl⟩ := hall name hname
    exact hop _ hmem
  have hparenthesis := hop ("LPAR", "(", "") (by simp [operators])
  have hprimary := takes_primary hd hlabels hne hnot h hgap hend
  apply (hd.takes_node (x := precedenceLevels[15]) (by simp [groups])
    (List.getElem_mem _) rfl (.choice_next hbefore.seq (.choice_next hparenthesis.seq
      (hprimary.seq_nothing ((takes_star_nil hselector).seq_nothing
        (takes_star_nil hsign).last)).choice))).mono
  rintro _ ⟨node, rfl, hlabel, htext, hfree⟩
  exact ⟨node, rfl, hlabel, htext, hfree rfl⟩

end

end ClassTranscript.Java
