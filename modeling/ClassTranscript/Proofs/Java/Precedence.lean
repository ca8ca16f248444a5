import ClassTranscript.Proofs.Java.Operand

/-!
# Levels of precedence

A chain is made of operands with binary operators between them, its tokens a blank apart. At each
level of precedence a chain falls into segments at the operators of the level, and these are the
operands of the level (`takes_levels`): no operator of another level is taken for one of them
(`begins_sign_iff`), and an operator of a looser level ends the segment. So the rule of expressions
takes a chain that is the whole text (`takes_expression`).
-/

namespace ClassTranscript.Java

open Peg Peg.Expr

/-! ### The ladder -/

/-- A level of binary operators: the rule of the level, and the rules and the signs of its
operators. -/
structure Level where
  name : String
  operators : List (String × String)

/-- The levels of binary operators from the loosest to the tightest. -/
def ladder : List Level :=
  [{ name := "ConditionalOrExpression", operators := [("OROR", "||")] },
   { name := "ConditionalAndExpression", operators := [("ANDAND", "&&")] },
   { name := "InclusiveOrExpression", operators := [("OR", "|")] },
   { name := "ExclusiveOrExpression", operators := [("HAT", "^")] },
   { name := "AndExpression", operators := [("AND", "&")] },
   { name := "EqualityExpression", operators := [("EQUAL", "=="), ("NOTEQUAL", "!=")] },
   { name := "RelationalExpression"
     operators := [("LE", "<="), ("GE", ">="), ("LT", "<"), ("GT", ">")] },
   { name := "ShiftExpression", operators := [("SL", "<<"), ("SR", ">>"), ("BSR", ">>>")] },
   { name := "AdditiveExpression", operators := [("PLUS", "+"), ("MINUS", "-")] },
   { name := "MultiplicativeExpression"
     operators := [("STAR", "*"), ("DIV", "/"), ("MOD", "%")] }]

namespace Level

/-- The signs of the operators of a level. -/
def signs (level : Level) : List String :=
  level.operators.map (·.2)

/-- The expression for the operators of a level. -/
def operator (level : Level) : Expr :=
  match level.operators with
  | [(name, _)] => .rule name
  | operators => .choice (rules (operators.map (·.1)))

/-- An operator of the level and the operand behind it. -/
def round (level : Level) (operand : String) : Expr :=
  .seq [level.operator, .rule operand]

end Level

/-- The rule of the loosest of some levels, or of the operands below all levels. -/
def topName : List Level → String
  | [] => "UnaryExpression"
  | level :: _ => level.name

/-- The levels are rules of Java, each with operands of the next. Types may be tested for at one
level. -/
def IsLadder : List Level → Prop
  | [] => True
  | level :: levels =>
    IsLadder levels ∧ ∃ x ∈ precedenceLevels, x.name = level.name ∧ x.label = level.name
      ∧ x.hidden = false ∧ x.leaf = false
      ∧ ∃ round, x.body = .seq [.rule (topName levels), .star round]
        ∧ (round = level.round (topName levels)
          ∨ round = .choice
              [level.round (topName levels), .seq (rules ["INSTANCEOF", "ReferenceType"])])

theorem isLadder_ladder :
  IsLadder ladder
  := by
  refine ⟨⟨⟨⟨⟨⟨⟨⟨⟨⟨trivial, ?_⟩, ?_⟩, ?_⟩, ?_⟩, ?_⟩, ?_⟩, ?_⟩, ?_⟩, ?_⟩, ?_⟩
  · exact ⟨precedenceLevels[14], List.getElem_mem _, rfl, rfl, rfl, rfl, _, rfl, .inl rfl⟩
  · exact ⟨precedenceLevels[13], List.getElem_mem _, rfl, rfl, rfl, rfl, _, rfl, .inl rfl⟩
  · exact ⟨precedenceLevels[12], List.getElem_mem _, rfl, rfl, rfl, rfl, _, rfl, .inl rfl⟩
  · exact ⟨precedenceLevels[11], List.getElem_mem _, rfl, rfl, rfl, rfl, _, rfl, .inr rfl⟩
  · exact ⟨precedenceLevels[10], List.getElem_mem _, rfl, rfl, rfl, rfl, _, rfl, .inl rfl⟩
  · exact ⟨precedenceLevels[9], List.getElem_mem _, rfl, rfl, rfl, rfl, _, rfl, .inl rfl⟩
  · exact ⟨precedenceLevels[8], List.getElem_mem _, rfl, rfl, rfl, rfl, _, rfl, .inl rfl⟩
  · exact ⟨precedenceLevels[7], List.getElem_mem _, rfl, rfl, rfl, rfl, _, rfl, .inl rfl⟩
  · exact ⟨precedenceLevels[6], List.getElem_mem _, rfl, rfl, rfl, rfl, _, rfl, .inl rfl⟩
  · exact ⟨precedenceLevels[5], List.getElem_mem _, rfl, rfl, rfl, rfl, _, rfl, .inl rfl⟩

/-- The binary operators: their rules and their signs. -/
def binaryOperators : List (String × String) :=
  ladder.flatMap (·.operators)

/-- The signs of the binary operators. -/
def binarySigns : List String :=
  ladder.flatMap Level.signs

/-! ### Signs -/

theorem nodup_binarySigns :
  binarySigns.Nodup
  := by
  decide

theorem mem_binarySigns {pair : String × String} (h : pair ∈ binaryOperators) :
  pair.2 ∈ binarySigns
  := by
  obtain ⟨level, hlevel, hpair⟩ := List.mem_flatMap.mp h
  exact List.mem_flatMap.mpr ⟨level, hlevel, List.mem_map_of_mem hpair⟩

/-- Each binary operator is among the operators. -/
theorem exists_operator :
  ∀ pair ∈ binaryOperators, ∃ op ∈ operators, op.1 = pair.1 ∧ op.2.1 = pair.2
  := by
  decide

/-- A sign with a blank behind it begins with no binary operator but that of the sign. -/
theorem begins_sign_iff :
  ∀ op ∈ operators, (op.1, op.2.1) ∈ binaryOperators → ∀ sign ∈ binarySigns,
    (Begins op (sign.toList ++ [' ']) ↔ op.2.1 = sign)
  := by
  have hall : (operators.all fun op => !binaryOperators.contains (op.1, op.2.1)
      || binarySigns.all fun sign =>
        decide (Begins op (sign.toList ++ [' '])) == (op.2.1 == sign)) = true := by
    decide
  intro op hop hbinary sign hsign
  have hsigns := List.all_eq_true.mp hall op hop
  rw [List.contains_iff_mem.mpr hbinary, Bool.not_true, Bool.false_or] at hsigns
  have hsame := beq_iff_eq.mp (List.all_eq_true.mp hsigns sign hsign)
  rw [← beq_iff_eq, ← hsame, decide_eq_true_iff]

/-- A binary operator ends the operand in front of it. -/
theorem not_begins_sign :
  ∀ op ∈ operators, op.1 ∈ ["DOT", "LPAR", "LBRK", "INC", "DEC"] → ∀ sign ∈ binarySigns,
    ¬ Begins op (sign.toList ++ [' '])
  := by
  decide

theorem operators_plain :
  ∀ op ∈ operators, op.2.1.toList ≠ [] ∧ ' ' ∉ op.2.1.toList
  := by
  decide

theorem signs_plain :
  ∀ sign ∈ binarySigns, ∃ c ∈ sign.toList.head?, isLetter c = false ∧ c ≠ '\\'
    ∧ c ∉ " \t\r\n\x0c".toList
  := by
  have hall : (binarySigns.all fun sign => sign.toList.head?.any fun c =>
      !isLetter c && (c != '\\' && !" \t\r\n\x0c".toList.contains c)) = true := by
    decide
  intro sign hsign
  obtain ⟨c, hc, hplain⟩ := (Option.any_eq_true _ _).mp (List.all_eq_true.mp hall sign hsign)
  exact ⟨c, hc, by simpa using hplain⟩

/-! ### Chains -/

/-- A word that is no keyword. -/
def IsOperand (token : String) : Prop :=
  IsWord token.toList ∧ token ≠ "" ∧ token ∉ keywords

/-- Operands with signs between them. -/
inductive IsChain (signs : List String) : List String → Prop where
  | operand {token : String} : IsOperand token → IsChain signs [token]
  | operation {token sign : String} {tokens : List String} :
    IsOperand token → sign ∈ signs → IsChain signs tokens → IsChain signs (token :: sign :: tokens)

/-- Tokens with a blank between each two, and some characters behind the last. -/
def ended (trail : List Char) : List String → List Char
  | [] => []
  | [token] => token.toList ++ trail
  | token :: next :: tokens => token.toList ++ ' ' :: ended trail (next :: tokens)

section

variable {signs more : List String} {trail : List Char} {token : String} {tokens next : List String}

theorem IsChain.ne_nil (h : IsChain signs tokens) :
  tokens ≠ []
  := by
  cases h <;> simp

theorem ended_cons (h : tokens ≠ []) :
  ended trail (token :: tokens) = token.toList ++ ' ' :: ended trail tokens
  := by
  obtain ⟨next, tokens, rfl⟩ := List.exists_cons_of_ne_nil h
  rfl

theorem ended_append (h : next ≠ []) :
  ended trail (tokens ++ next) = ended [' '] tokens ++ ended trail next
  := by
  induction tokens with
  | nil => rfl
  | cons token tokens ih =>
      rw [List.cons_append, ended_cons (by simp [h]), ih]
      by_cases hnil : tokens = []
      · subst hnil
        simp [ended]
      · rw [ended_cons hnil]
        simp

theorem toList_intercalate_append (trail : List Char) (h : tokens ≠ []) :
  (" ".intercalate tokens).toList ++ trail = ended trail tokens
  := by
  rw [String.toList_intercalate]
  induction tokens with
  | nil => exact absurd rfl h
  | cons token tokens ih =>
      by_cases hnil : tokens = []
      · subst hnil
        simp [ended]
      · rw [ended_cons hnil, ← ih hnil]
        obtain ⟨next, tokens, rfl⟩ := List.exists_cons_of_ne_nil hnil
        simp

/-- A chain begins with a word. -/
theorem IsChain.likeWord (h : IsChain signs tokens) (rest : List Char) :
  LikeWord (ended trail tokens ++ rest)
  := by
  have hword {token : String} (h : IsOperand token) (rest : List Char) :
      LikeWord (token.toList ++ rest) :=
    h.1.likeWord (by simpa using h.2.1) rest
  cases h with
  | operand h =>
      rw [ended, List.append_assoc]
      exact hword h _
  | operation h _ htokens =>
      rw [ended_cons (by simp), List.append_assoc]
      exact hword h _

/-- An operand is no sign. -/
theorem IsOperand.not_mem (h : IsOperand token) :
  token ∉ binarySigns
  := by
  intro hmem
  obtain ⟨c, hc, hletter, hslash, -⟩ := signs_plain token hmem
  have hlike := h.1.likeWord (by simpa using h.2.1) []
  rw [List.append_nil] at hlike
  exact hlike.head_ne ⟨hletter, hslash⟩ hc

/-! ### Segments -/

/-- A chain falls into segments at some of its signs: there is a first one, and then rounds of a sign
and a segment. -/
theorem IsChain.exists_segments (h : IsChain (signs ++ more) tokens)
    (hsub : ∀ sign ∈ signs, sign ∈ binarySigns) :
  ∃ (first : List String) (rounds : List (String × List String)),
    tokens = first ++ rounds.flatMap (fun r => r.1 :: r.2)
      ∧ tokens.splitOnP signs.contains = first :: rounds.map (·.2)
      ∧ IsChain more first ∧ ∀ r ∈ rounds, r.1 ∈ signs ∧ IsChain more r.2
  := by
  have hoperand {token : String} (h : IsOperand token) : signs.contains token = false := by
    rw [Bool.eq_false_iff, ne_eq, List.contains_iff_mem]
    exact fun hmem => h.not_mem (hsub token hmem)
  induction h with
  | operand h =>
      refine ⟨[_], [], rfl, ?_, .operand h, by simp⟩
      rw [List.splitOnP_cons_eq_if_modifyHead, hoperand h]
      simp
  | @operation token sign tokens h hsign _ ih =>
      obtain ⟨first, rounds, rfl, hsplit, hfirst, hrounds⟩ := ih
      by_cases hmem : sign ∈ signs
      · refine ⟨[token], (sign, first) :: rounds, rfl, ?_, .operand h, ?_⟩
        · rw [List.splitOnP_cons_eq_if_modifyHead, hoperand h, List.splitOnP_cons_eq_if_modifyHead,
            List.contains_iff_mem.mpr hmem, hsplit]
          rfl
        · exact List.forall_mem_cons.mpr ⟨⟨hmem, hfirst⟩, hrounds⟩
      · refine ⟨token :: sign :: first, rounds, rfl, ?_,
          .operation h ((List.mem_append.mp hsign).resolve_left hmem) hfirst, hrounds⟩
        rw [List.splitOnP_cons_eq_if_modifyHead, hoperand h, List.splitOnP_cons_eq_if_modifyHead,
          show signs.contains sign = false by simpa using hmem, hsplit]
        rfl

end

/-! ### What follows a segment -/

/-- A segment ends at the end of the text, or at a blank with a sign behind it. -/
inductive Follows (outer : List String) : List Char → List Char → Prop where
  | stop : Follows outer [] []
  | sign {sign : String} (tail : List Char) :
    sign ∈ outer → Follows outer [' '] (sign.toList ++ ' ' :: tail)

section

variable {d : Draft} {source : String} {outer signs : List String} {trail rest tail : List Char}
  {op : String × String × String} {pair : String × String}

/-- Of a sign with a blank behind it the blank ends what an operator can begin with. -/
theorem begins_of_begins_spaced {sign : String} (hop : op ∈ operators)
    (h : Begins op (sign.toList ++ ' ' :: tail)) :
  Begins op (sign.toList ++ [' '])
  := by
  obtain ⟨left, hleft, hguard⟩ := h
  have hbegins : op.2.1.toList <+: sign.toList :=
    Omission.prefix_of_prefix_append ⟨left, hleft.symm⟩ (operators_plain op hop).2
  obtain ⟨more, hmore⟩ := hbegins
  rw [← hmore, List.append_assoc] at hleft
  obtain rfl := List.append_cancel_left hleft
  refine ⟨more ++ [' '], by rw [← hmore, List.append_assoc], ?_⟩
  cases more with
  | nil => exact hguard
  | cons c more => exact hguard

theorem Follows.not_begins (h : Follows outer trail rest) (hop : op ∈ operators)
    (hnot : ∀ sign ∈ outer, ¬ Begins op (sign.toList ++ [' '])) :
  ¬ Begins op rest
  := by
  cases h with
  | stop =>
      rintro ⟨tail, hnil, -⟩
      exact (operators_plain op hop).1 (List.append_eq_nil_iff.mp hnil.symm).1
  | sign tail hmem => exact fun hbegins => hnot _ hmem (begins_of_begins_spaced hop hbegins)

theorem Follows.head (h : Follows outer trail rest) (hsub : ∀ sign ∈ outer, sign ∈ binarySigns) :
  ∀ c, rest.head? = some c → isLetter c = false ∧ c ≠ '\\' ∧ c ∉ " \t\r\n\x0c".toList
  := by
  cases h with
  | stop => nofun
  | sign tail hmem =>
      obtain ⟨c, hc, hplain⟩ := signs_plain _ (hsub _ hmem)
      intro x hx
      rw [List.head?_append, show List.head? _ = some c from hc] at hx
      obtain rfl : c = x := Option.some.inj hx
      exact hplain

/-- A sign behind a blank begins no comment. -/
theorem Follows.significant (h : Follows outer trail rest)
    (hsub : ∀ sign ∈ outer, sign ∈ binarySigns) :
  Significant rest
  := by
  have hcomment : ∀ sign ∈ binarySigns,
      ¬ "/*".toList <+: sign.toList ∧ ¬ "//".toList <+: sign.toList := by
    decide
  have hhead := h.head hsub
  cases h with
  | stop => exact significant_of_head nofun
  | sign tail hmem =>
      obtain ⟨hblock, hline⟩ := hcomment _ (hsub _ hmem)
      refine ⟨fun c hc => (hhead c hc).2.2, ?_, ?_⟩
      · intro cs hbegins
        have hopen := (List.prefix_append "/*".toList (cs ++ "*/".toList)).trans hbegins
        exact hblock (Omission.prefix_of_prefix_append hopen (by decide))
      · exact fun hbegins => hline (Omission.prefix_of_prefix_append hbegins (by decide))

theorem Follows.endsOperand (h : Follows outer trail rest)
    (hsub : ∀ sign ∈ outer, sign ∈ binarySigns) :
  EndsOperand rest
  := fun op hop hname => h.not_begins hop fun sign hsign =>
    not_begins_sign op hop hname sign (hsub sign hsign)

theorem LikeWord.significant (h : LikeWord rest) :
  Significant rest
  := by
  apply significant_of_head
  intro c hc hmem
  have hall : (" \t\r\n\x0c/".toList.all fun c => !isLetter c && c != '\\') = true := by
    decide
  exact h.head_ne (by simpa using List.all_eq_true.mp hall c hmem) hc

section

variable (hd : HasRules d)

include hd

theorem takes_blank (h : Significant rest) :
  Takes d source (.rule "Spacing") [' '] rest NoNodes
  := by
  apply takes_spacing hd
  apply Takes.star_last _ (refuses_gapRound h)
  apply Takes.choice
  exact takes_plus_chars (by simp) (List.forall_mem_singleton.mpr rfl) fun c hc => by
    simpa [blanks, CharClass.holds] using h.not_blank c hc

theorem Follows.takes_spacing (h : Follows outer trail rest)
    (hsub : ∀ sign ∈ outer, sign ∈ binarySigns) :
  Takes d source (.rule "Spacing") trail rest NoNodes
  := by
  have hsignificant := h.significant hsub
  cases h with
  | stop => exact Java.takes_spacing hd (takes_star_nil (refuses_gapRound hsignificant))
  | sign tail hmem => exact takes_blank hd hsignificant

/-! ### The operators of a level -/

theorem takes_binaryOperator (hpair : pair ∈ binaryOperators) (hrest : LikeWord rest) :
  Takes d source (.rule pair.1) (pair.2.toList ++ [' ']) rest NoNodes
  := by
  obtain ⟨op, hop, hname, hsign⟩ := exists_operator pair hpair
  have hbegins :=
    (begins_sign_iff op hop (by rwa [hname, hsign]) pair.2 (mem_binarySigns hpair)).mpr hsign
  rw [← hname, ← hsign]
  rw [← hsign] at hbegins
  apply takes_operator hd hop _ (takes_blank hd hrest.significant)
  obtain ⟨tail, htail, hguard⟩ := hbegins
  obtain rfl := List.append_cancel_left htail
  exact ⟨[' '] ++ rest, rfl, hguard⟩

theorem refuses_binaryOperator (hpair : pair ∈ binaryOperators) (h : Follows outer trail rest)
    (hsub : ∀ sign ∈ outer, sign ∈ binarySigns) (hnot : pair.2 ∉ outer) :
  Refuses d source (.rule pair.1) rest
  := by
  obtain ⟨op, hop, hname, hsign⟩ := exists_operator pair hpair
  rw [← hname]
  apply refuses_operator hd hop
  apply h.not_begins hop
  intro sign hmem hbegins
  have hsame := (begins_sign_iff op hop (by rwa [hname, hsign]) sign (hsub sign hmem)).mp hbegins
  rw [← hsame, hsign] at hmem
  exact hnot hmem

/-- Among some operators that of a sign is taken. -/
theorem takes_operatorChoice {pairs : List (String × String)} {sign : String}
    (hpairs : ∀ pair ∈ pairs, pair ∈ binaryOperators) (hmem : sign ∈ pairs.map (·.2))
    (hrest : LikeWord rest) :
  Takes d source (.choice (rules (pairs.map (·.1)))) (sign.toList ++ [' ']) rest NoNodes
  := by
  induction pairs with
  | nil => cases hmem
  | cons pair pairs ih =>
      obtain ⟨hpair, hpairs⟩ := List.forall_mem_cons.mp hpairs
      by_cases hsame : sign = pair.2
      · subst hsame
        exact (takes_binaryOperator hd hpair hrest).choice
      · have hmem := (List.mem_cons.mp hmem).resolve_left hsame
        have hsign : sign ∈ binarySigns := by
          obtain ⟨pair, hpair, rfl⟩ := List.mem_map.mp hmem
          exact mem_binarySigns (hpairs pair hpair)
        apply Takes.choice_next _ (ih hpairs hmem)
        rw [List.append_assoc]
        have hfollows : Follows [sign] [' '] (sign.toList ++ ' ' :: rest) :=
          .sign rest (List.mem_singleton_self sign)
        apply refuses_binaryOperator hd hpair hfollows
        · simpa using hsign
        · simpa using Ne.symm hsame

/-- The operator of a level is taken where its sign comes. -/
theorem Level.takes_operator {level : Level} {sign : String}
    (hlevel : ∀ pair ∈ level.operators, pair ∈ binaryOperators) (hmem : sign ∈ level.signs)
    (hrest : LikeWord rest) :
  Takes d source level.operator (sign.toList ++ [' ']) rest NoNodes
  := by
  obtain ⟨name, operators⟩ := level
  rw [Level.operator]
  split
  · rename_i name only heq
    obtain rfl : operators = [(name, only)] := heq
    obtain rfl : sign = only := List.mem_singleton.mp hmem
    exact takes_binaryOperator hd (hlevel (name, sign) (by simp)) hrest
  · exact takes_operatorChoice hd hlevel hmem hrest

theorem Level.refuses_operator {level : Level}
    (hlevel : ∀ pair ∈ level.operators, pair ∈ binaryOperators) (h : Follows outer trail rest)
    (hsub : ∀ sign ∈ outer, sign ∈ binarySigns) (hnot : ∀ sign ∈ level.signs, sign ∉ outer) :
  Refuses d source level.operator rest
  := by
  have hpair (pair : String × String) (hmem : pair ∈ level.operators) :
      Refuses d source (.rule pair.1) rest :=
    refuses_binaryOperator hd (hlevel pair hmem) h hsub (hnot pair.2 (List.mem_map_of_mem hmem))
  rw [Level.operator]
  split
  · rename_i name sign heq
    exact hpair (name, sign) (by simp [heq])
  · apply refuses_choice
    intro item hitem
    simp only [rules, List.map_map, List.mem_map] at hitem
    obtain ⟨pair, hmem, rfl⟩ := hitem
    exact hpair pair hmem

end

end

/-! ### Levels -/

/-- A node covers tokens with a blank between each two, and a blank behind them if more follows. -/
def Covers (source : String) (node : Node) (tokens : List String) : Prop :=
  node.text source = " ".intercalate tokens ∨ node.text source = " ".intercalate tokens ++ " "

/-- A node and those below it group the tokens of a segment. At each level the node covers the
segment, and its children group the segments in order into which the signs of the level split it.
Below all levels a node covers a single operand, and no node of the levels lies below it. -/
def Groups (source : String) : List Level → Node → List String → Prop
  | [], node, tokens =>
    node.label = "UnaryExpression" ∧ Covers source node tokens ∧ tokens.length = 1
      ∧ FreeOf (ladder.map (·.name)) node.children
  | level :: levels, node, tokens =>
    node.label = level.name ∧ Covers source node tokens
      ∧ List.Forall₂ (Groups source levels) node.children (tokens.splitOnP level.signs.contains)

section

variable {d : Draft} {source : String} {outer signs : List String} {trail rest : List Char}
  {level : Level} {levels : List Level} {tokens : List String} {node : Node}

theorem covers_of_text (hne : tokens ≠ []) (h : Follows outer trail rest)
    (htext : node.text source = String.ofList (ended trail tokens)) :
  Covers source node tokens
  := by
  rw [← toList_intercalate_append trail hne, String.ofList_append, String.ofList_toList] at htext
  cases h with
  | stop => exact .inl (by simpa using htext)
  | sign tail hmem => exact .inr htext

/-- Behind a segment the rounds that are left of a chain follow, or what follows the chain. -/
theorem Follows.rounds {rounds : List (String × List String)} (h : Follows outer trail rest)
    (hrounds : ∀ r ∈ rounds, r.1 ∈ signs ∧ r.2 ≠ []) :
  Follows (outer ++ signs) (if rounds = [] then trail else [' '])
    (ended trail (rounds.flatMap fun r => r.1 :: r.2) ++ rest)
  := by
  cases rounds with
  | nil =>
      cases h with
      | stop => exact .stop
      | sign tail hmem => exact .sign tail (List.mem_append_left _ hmem)
  | cons r rounds =>
      obtain ⟨hmem, hne⟩ := hrounds r List.mem_cons_self
      rw [List.flatMap_cons, List.cons_append, ended_cons (by simp [hne]), List.append_assoc]
      exact .sign _ (List.mem_append_right _ hmem)

/-- A segment with rounds behind it. -/
theorem ended_rounds (first : List String) (rounds : List (String × List String)) :
  ended trail (first ++ rounds.flatMap fun r => r.1 :: r.2)
    = ended (if rounds = [] then trail else [' ']) first
      ++ ended trail (rounds.flatMap fun r => r.1 :: r.2)
  := by
  cases rounds with
  | nil => simp [ended]
  | cons r rounds => exact ended_append (by simp)

/-- The rounds of a level are taken one by one, each with a segment as its operand. -/
theorem takes_rounds {round : Expr} {operand : String} {more : List String}
    (hround : ∀ {sign : String} {s rest : List Char} {p : List Node → Prop}, sign ∈ signs →
      LikeWord (s ++ rest) → Takes d source (.rule operand) s rest p →
      Takes d source round (sign.toList ++ ' ' :: s) rest p)
    (hstop : Refuses d source round rest) (hfollows : Follows outer trail rest)
    (hoperand : ∀ {segment : List String} {trail rest : List Char}, IsChain more segment →
      Follows (outer ++ signs) trail rest →
      Takes d source (.rule operand) (ended trail segment) rest fun nodes =>
        ∃ node, nodes = [node] ∧ Groups source levels node segment)
    (rounds : List (String × List String)) (hrounds : ∀ r ∈ rounds, r.1 ∈ signs ∧ IsChain more r.2) :
  Takes d source (.star round) (ended trail (rounds.flatMap fun r => r.1 :: r.2)) rest fun nodes =>
    List.Forall₂ (Groups source levels) nodes (rounds.map (·.2))
  := by
  induction rounds with
  | nil =>
      apply (takes_star_nil hstop).mono
      rintro _ rfl
      exact .nil
  | cons r rounds ih =>
      obtain ⟨⟨hsign, hsegment⟩, hrounds⟩ := List.forall_mem_cons.mp hrounds
      have hnext := hfollows.rounds fun r hmem => ⟨(hrounds r hmem).1, (hrounds r hmem).2.ne_nil⟩
      have hfirst := hround hsign (hsegment.likeWord _) (hoperand hsegment hnext)
      rw [List.flatMap_cons, List.cons_append, ended_cons (by simp [hsegment.ne_nil]), ended_rounds,
        ← List.cons_append, ← List.append_assoc]
      apply (hfirst.star (ih hrounds)).mono
      rintro _ ⟨_, nodes, rfl, ⟨node, rfl, hgroups⟩, hnodes⟩
      exact .cons hgroups hnodes

variable (hd : HasRules d)

include hd

/-- A level that is a rule of Java takes its operators, each with an operand behind it, and stops
where an operator of a looser level comes. -/
theorem takes_round (source : String) {round : Expr} {operand : String}
    (hlevel : ∀ pair ∈ level.operators, pair ∈ binaryOperators)
    (hround : round = level.round operand
      ∨ round = .choice [level.round operand, .seq (rules ["INSTANCEOF", "ReferenceType"])]) :
  (∀ {sign : String} {s rest : List Char} {p : List Node → Prop}, sign ∈ level.signs →
      LikeWord (s ++ rest) → Takes d source (.rule operand) s rest p →
      Takes d source round (sign.toList ++ ' ' :: s) rest p)
    ∧ ∀ {outer : List String} {trail rest : List Char}, Follows outer trail rest →
      (∀ sign ∈ outer, sign ∈ binarySigns) → (∀ sign ∈ level.signs, sign ∉ outer) →
      Refuses d source round rest
  := by
  have htakes {sign : String} {s rest : List Char} {p : List Node → Prop} (hsign : sign ∈ level.signs)
      (hlike : LikeWord (s ++ rest)) (h : Takes d source (.rule operand) s rest p) :
      Takes d source (level.round operand) (sign.toList ++ ' ' :: s) rest p := by
    rw [← List.singleton_append, ← List.append_assoc]
    exact (Level.takes_operator hd hlevel hsign hlike).skip h.last
  have hrefuses {outer : List String} {trail rest : List Char} (h : Follows outer trail rest)
      (hsub : ∀ sign ∈ outer, sign ∈ binarySigns) (hnot : ∀ sign ∈ level.signs, sign ∉ outer) :
      Refuses d source (level.round operand) rest := (Level.refuses_operator hd hlevel h hsub hnot).seq
  rcases hround with rfl | rfl
  · exact ⟨htakes, hrefuses⟩
  · refine ⟨fun hsign hlike h => (htakes hsign hlike h).choice, fun h hsub hnot => ?_⟩
    -- no test for a type comes either
    have hword : LongestWord [] _ := longestWord_nil (noUnit_of_head fun c hc =>
      ⟨(h.head hsub c hc).1, (h.head hsub c hc).2.1⟩)
    have hinstance : Refuses d source (.rule (keywordRule "instanceof").name) _ :=
      refuses_keywordRule hd (by decide) (by decide) hword (by decide)
    exact .choice (hrefuses h hsub hnot) (.choice hinstance.seq refuses_choice_nil)

/-- A single operand below all levels. -/
theorem takes_chain_operand {token : String} (h : IsOperand token) (hfollows : Follows outer trail rest)
    (hsub : ∀ sign ∈ outer, sign ∈ binarySigns) :
  Takes d source (.rule "UnaryExpression") (ended trail [token]) rest fun nodes =>
    ∃ node, nodes = [node] ∧ Groups source [] node [token]
  := by
  obtain ⟨hword, hne, hnot⟩ := h
  have hne : token.toList ≠ [] := by simpa using hne
  have hstop : NoUnit .letterOrDigit (trail ++ rest) := by
    apply noUnit_of_head
    cases hfollows with
    | stop => nofun
    | sign tail _ =>
        rintro _ ⟨⟩
        decide
  have hnot : String.ofList token.toList ∉ keywords := by rwa [String.ofList_toList]
  have hoperand : Takes d source (.rule "UnaryExpression") (ended trail [token]) rest fun nodes =>
      ∃ node, nodes = [node] ∧ node.label = "UnaryExpression"
        ∧ node.text source = String.ofList (ended trail [token])
        ∧ FreeOf (ladder.map (·.name)) node.children :=
    takes_operand hd (by decide) hne hnot (longestWord_of_noUnit hword hstop)
      (hfollows.takes_spacing hd hsub) (hfollows.endsOperand hsub)
  apply hoperand.mono
  rintro _ ⟨node, rfl, hlabel, htext, hfree⟩
  exact ⟨node, rfl, hlabel, covers_of_text (by simp) hfollows htext, rfl, hfree⟩

/-- At each level a segment is taken whole, and the nodes group it. -/
theorem takes_levels (hladder : IsLadder levels)
    (hlevels : ∀ level ∈ levels, ∀ pair ∈ level.operators, pair ∈ binaryOperators)
    (hsub : ∀ sign ∈ outer, sign ∈ binarySigns)
    (hdisjoint : (outer ++ levels.flatMap Level.signs).Nodup)
    (hchain : IsChain (levels.flatMap Level.signs) tokens) (hfollows : Follows outer trail rest) :
  Takes d source (.rule (topName levels)) (ended trail tokens) rest fun nodes =>
    ∃ node, nodes = [node] ∧ Groups source levels node tokens
  := by
  induction levels generalizing outer tokens trail rest with
  | nil =>
      cases hchain with
      | operand h => exact takes_chain_operand hd h hfollows hsub
      | operation _ hmem _ => cases hmem
  | cons level levels ih =>
      obtain ⟨hnext, x, hx, hname, hlabel, hhidden, hleaf, round, hbody, hround⟩ := hladder
      obtain ⟨hlevel, hlevels⟩ := List.forall_mem_cons.mp hlevels
      obtain ⟨htakes, hrefuses⟩ := takes_round hd source hlevel hround
      have hsigns (sign : String) (hmem : sign ∈ level.signs) : sign ∈ binarySigns := by
        obtain ⟨pair, hpair, rfl⟩ := List.mem_map.mp hmem
        exact mem_binarySigns (hlevel pair hpair)
      rw [List.flatMap_cons] at hchain hdisjoint
      have hnot (sign : String) (hmem : sign ∈ level.signs) : sign ∉ outer := fun houter =>
        (List.nodup_append.mp hdisjoint).2.2 sign houter sign (List.mem_append_left _ hmem) rfl
      -- the operands are the segments of the next level, which end at signs of this level too
      have hoperand {segment : List String} {trail rest : List Char}
          (hsegment : IsChain (levels.flatMap Level.signs) segment)
          (h : Follows (outer ++ level.signs) trail rest) :
          Takes d source (.rule (topName levels)) (ended trail segment) rest fun nodes =>
            ∃ node, nodes = [node] ∧ Groups source levels node segment := by
        apply ih hnext hlevels _ (by rwa [List.append_assoc]) hsegment h
        intro sign hmem
        exact (List.mem_append.mp hmem).elim (hsub sign) (hsigns sign)
      obtain ⟨first, rounds, rfl, hsplit, hfirst, hrounds⟩ := hchain.exists_segments hsigns
      have hne : first ++ rounds.flatMap (fun r => r.1 :: r.2) ≠ [] := by simp [hfirst.ne_nil]
      have hbegin := hoperand hfirst
        (hfollows.rounds fun r hmem => ⟨(hrounds r hmem).1, (hrounds r hmem).2.ne_nil⟩)
      have hstar := takes_rounds htakes (hrefuses hfollows hsub hnot) hfollows hoperand rounds hrounds
      have hwhole := hbegin.seq hstar.last
      rw [← ended_rounds, ← hbody] at hwhole
      have hrule := hd.takes_node (by simp [groups]) hx hhidden hwhole
      rw [hname] at hrule
      apply hrule.mono
      rintro _ ⟨node, rfl, hsame, htext, hchildren⟩
      obtain ⟨_, nodes, heq, ⟨child, rfl, hgroups⟩, hnodes⟩ := hchildren hleaf
      refine ⟨node, rfl, hsame.trans hlabel, covers_of_text hne hfollows htext, ?_⟩
      rw [hsplit, heq]
      exact .cons hgroups hnodes

end

/-! ### Expressions -/

/-- A whole text that is a chain is taken by the rule of expressions. -/
theorem takes_expression {d : Draft} (source : String) {tokens : List String} (hd : HasRules d)
    (h : IsChain binarySigns tokens) :
  Takes d source precedenceLevels[2].body (ended [] tokens) [] fun nodes => ∃ conditional node,
    nodes = [conditional] ∧ conditional.label = "ConditionalExpression"
      ∧ conditional.children = [node] ∧ Groups source ladder node tokens
  := by
  have hend (op : String × String × String) (hop : op ∈ operators) :
      Refuses d source (.rule op.1) [] := by
    apply refuses_operator hd hop
    rintro ⟨tail, hnil, -⟩
    exact (operators_plain op hop).1 (List.append_eq_nil_iff.mp hnil.symm).1
  have hlevels : ∀ level ∈ ladder, ∀ pair ∈ level.operators, pair ∈ binaryOperators :=
    fun level hlevel pair hpair => List.mem_flatMap.mpr ⟨level, hlevel, hpair⟩
  have htop : Takes d source (.rule "ConditionalOrExpression") (ended [] tokens) [] fun nodes =>
      ∃ node, nodes = [node] ∧ Groups source ladder node tokens :=
    takes_levels hd isLadder_ladder hlevels (List.forall_mem_nil _) nodup_binarySigns h .stop
  have hquery : Refuses d source (.rule "QUERY") [] :=
    hend ("QUERY", "?", "") (by simp [operators])
  have hassignment : Refuses d source (.rule "AssignmentOperator") [] := by
    apply hd.refuses_rule (x := precedenceLevels[3]) (by simp [groups])
      (List.getElem_mem _)
    apply refuses_choice
    intro item hitem
    obtain ⟨name, hname, rfl⟩ := List.mem_map.mp hitem
    have hall : ∀ name ∈ ["EQU", "PLUSEQU", "MINUSEQU", "STAREQU", "DIVEQU", "ANDEQU", "OREQU",
        "HATEQU", "MODEQU", "SLEQU", "SREQU", "BSREQU"], ∃ op ∈ operators, op.1 = name := by
      decide
    obtain ⟨op, hop, rfl⟩ := hall name hname
    exact hend op hop
  have hconditional := hd.takes_node (x := precedenceLevels[4])
    (by simp [groups]) (List.getElem_mem _) rfl
    (htop.seq_nothing (takes_star_nil hquery.seq).last)
  apply (hconditional.seq_nothing (takes_star_nil hassignment.seq).last).mono
  rintro _ ⟨conditional, rfl, hlabel, -, hchildren⟩
  obtain ⟨node, hnode, hgroups⟩ := hchildren rfl
  exact ⟨conditional, node, rfl, hlabel, hnode, hgroups⟩

end ClassTranscript.Java
