import ClassTranscript.Proofs.Transcript.Listing.Name

/-!
# How modifiers, types and lists of names take printed text

Modifiers stand before a declaration, each with a space after it. Types are basic types or dotted
names with array dimensions. Lists of types and names are printed with commas between the items, and
clauses are a keyword and such a list.
-/

namespace ClassTranscript.Transcript

open Peg

variable {source : String} {rest word : List Char}

/-! ### Modifiers -/

/-- What may follow modifiers: a word that is none, or a mark. -/
structure FollowsModifiers (rest : List Char) : Prop where
  follows : Follows 1 rest
  clear : ClearOf "@<" rest
  no_modifier : ∃ word, Heads word rest ∧ String.ofList word ∉ Java.modifiers

theorem followsModifiers_word (h : Heads word rest) (hne : word ≠ [])
    (hnot : String.ofList word ∉ Java.modifiers) :
  FollowsModifiers rest
  := by
  have hheads := h
  obtain ⟨c, cs, rfl⟩ := List.exists_cons_of_ne_nil hne
  obtain ⟨hword, tail, rfl, -⟩ := h
  have hc := hword c List.mem_cons_self
  constructor
  · apply follows_plain hc
  · apply clearOf_plain hc (by decide)
  · exact ⟨_, hheads, hnot⟩

theorem followsModifiers_mark {c : Char} (h : c ∈ marks) (hc : c ∉ " \t\r\n\x0c/@<".toList) :
  FollowsModifiers (c :: rest)
  := by
  have hclear : ClearOf " \t\r\n\x0c/@<" (c :: rest) := clearOf_cons.mpr hc
  constructor
  · apply follows_mark h (clearOf_cons.mp (hclear.mono (by decide)))
  · apply hclear.mono (by decide)
  · exact ⟨[], heads_nil (bare_cons h), by decide⟩

theorem mem_annotationRules {x : Definition} (i : Nat) (h : Java.annotationRules[i]? = some x) :
  x ∈ allDefinitions
  := by
  have hmem := List.mem_of_getElem? h
  simp [allDefinitions, Java.definitions, hmem]

theorem refuses_annotation (h : ClearOf "@" rest) :
  Refuses draft source (.rule "Annotation") rest
  := by
  apply refuses_rule (mem_annotationRules 8 rfl)
  apply Refuses.seq
  apply refuses_operator (t := "@") (by decide) rfl
  rintro c hc rfl
  apply h _ hc (by decide)

theorem FollowsModifiers.refuses (h : FollowsModifiers rest) :
  Refuses draft source (.rule "Modifier") rest
  := by
  obtain ⟨word, hheads, hnot⟩ := h.no_modifier
  apply refuses_rule (mem_typeNames 10 rfl)
  refine .choice ?_ (.choice ?_ refuses_choice_nil)
  · apply refuses_annotation (h.clear.mono (by decide))
  · apply refuses_words plainWords_modifiers hheads hnot

/-- Where neither a word nor an annotation begins there is no modifier. -/
theorem refuses_modifier (hbare : Bare rest) (h : ClearOf "@" rest) :
  Refuses draft source (.rule "Modifier") rest
  := by
  apply refuses_rule (mem_typeNames 10 rfl)
  refine .choice ?_ (.choice ?_ refuses_choice_nil)
  · apply refuses_annotation h
  · apply refuses_words plainWords_modifiers (heads_nil hbare) (by decide)

theorem first_modifier :
  ∀ w ∈ Java.modifiers, w ≠ "" ∧ ∀ u ∈ Java.modifiers, u.toList <+: w.toList → u = w
  := by
  decide

namespace ModifierWord

theorem plain (m : ModifierWord) :
  ∀ c ∈ m.word.toList, isPlainPart c = true
  := plainWords_modifiers m.word m.listed

theorem exists_eq_cons (m : ModifierWord) :
  ∃ c cs, m.word.toList = c :: cs ∧ isPlainPart c = true
  := by
  have hne : m.word.toList ≠ [] := by
    rw [Ne, String.toList_eq_nil_iff]
    apply (first_modifier m.word m.listed).1
  obtain ⟨c, cs, hcs⟩ := List.exists_cons_of_ne_nil hne
  exact ⟨c, cs, hcs, m.plain c (by simp [hcs])⟩

/-- A modifier is taken with the spacing after it. -/
theorem takes_spaced (m : ModifierWord) {s : List Char} (hbare : Bare (s ++ rest))
    (h : Takes draft source (.rule "Spacing") s rest NoNodes) :
  Takes draft source (.rule "Modifier") (m.word.toList ++ s) rest
    (OneNode source "Modifier" (m.word.toList ++ s) AnyNodes)
  := by
  have hword : Takes draft source (Expr.words Java.modifiers) m.word.toList (s ++ rest) NoNodes :=
    takes_word plainWords_modifiers m.listed (first_modifier m.word m.listed).2 hbare
  have hguard : Takes draft source (.notAhead (.rule "LetterOrDigit")) [] (s ++ rest) NoNodes :=
    takes_notAhead (refuses_letterOrDigit hbare)
  have hbody := (hword.skip (hguard.skip h.last)).any
  obtain ⟨c, cs, hcs, hc⟩ := m.exists_eq_cons
  have hannotation : Refuses draft source (.rule "Annotation") (m.word.toList ++ s ++ rest) := by
    apply refuses_annotation
    rw [hcs]
    apply clearOf_plain hc (by decide)
  exact takes_node (mem_typeNames 10 rfl) rfl rfl (hbody.choice.choice_next hannotation)

/-- A modifier is taken with the space after it. -/
theorem takes_modifier (m : ModifierWord) (h : Follows 1 rest) :
  Takes draft source (.rule "Modifier") (m.word.toList ++ [' ']) rest
    (Shows (textOf source) "Modifier" [m.word])
  := by
  obtain ⟨c, cs, hcs, hc⟩ := m.exists_eq_cons
  apply (m.takes_spaced h.bare_spaces (takes_spacing (n := 1) h.solid)).mono
  intro nodes hnode
  rw [← String.ofList_toList (s := m.word)]
  apply hnode.shows (n := 1)
  · apply Text.tight_of_forall fun c hmem => isBlank_plain (m.plain c hmem)
  · simp [hcs]

end ModifierWord

/-- Modifiers are taken with the space after each. -/
theorem takes_modifiers (ms : List ModifierWord) (h : FollowsModifiers rest) :
  Follows 1 (printModifiers ms ++ rest) ∧
    Takes draft source (.star (.rule "Modifier")) (printModifiers ms) rest
      (Shows (textOf source) "Modifier" (ms.map (·.word)))
  := by
  have hfit (m : ModifierWord) (_ : m ∈ ms) (tail : List Char) (_ : Follows 1 tail) :
      Follows 1 (m.word.toList ++ [' '] ++ tail) := by
    obtain ⟨c, cs, hcs, hc⟩ := m.exists_eq_cons
    rw [hcs]
    apply follows_plain hc
  obtain ⟨hfollows, hstar⟩ := takes_star_items (fun m : ModifierWord => m.word.toList ++ [' '])
    (fun m => Shows (textOf source) "Modifier" [m.word]) (Follows 1) ms
    (fun m _ _ htail => m.takes_modifier htail) hfit h.follows h.refuses
  use hfollows
  apply hstar.mono
  rintro _ ⟨rounds, rfl, hrounds⟩
  apply shows_flatten hrounds

/-- Modifiers may follow a token that takes a space after it. -/
theorem follows_modifiers (ms : List ModifierWord) (h : FollowsModifiers rest) :
  Follows 1 (printModifiers ms ++ rest)
  := (@takes_modifiers "" rest ms h).1

/-! ### Types -/

/-- What may follow a type that takes `n` spaces after it. -/
structure FollowsType (n : Nat) (rest : List Char) : Prop extends FollowsName n rest where
  no_dim : ClearOf "[" rest

theorem followsType_plain {c : Char} (h : isPlainPart c = true) (n : Nat) :
  FollowsType (n + 1) (c :: rest)
  where
  toFollows := follows_plain h n
  no_part := clearOf_plain h (by decide)
  no_dim := clearOf_plain h (by decide)

theorem followsType_mark {c : Char} (h : c ∈ marks) (hc : c ∉ " \t\r\n\x0c/.<[".toList) (n : Nat) :
  FollowsType n (c :: rest)
  := by
  have hclear : ClearOf " \t\r\n\x0c/.<[" (c :: rest) := clearOf_cons.mpr hc
  constructor
  · constructor
    · constructor
      · apply hclear.mono (by decide)
      · intro _
        apply bare_cons h
    · apply hclear.mono (by decide)
  · apply hclear.mono (by decide)

theorem PlainName.followsType (n : PlainName) (k : Nat) (tail : List Char) :
  FollowsType (k + 1) (n.chars ++ tail)
  := followsType_plain (isPlainPart_of_letter n.first_plain) k

/-- Basic types are no other reserved words, and none begins another. -/
theorem basicTypes_apart :
  ∀ w ∈ Java.basicTypes, w ≠ "" ∧ w ∉ Java.modifiers ∧ w ∉ Java.keywords
    ∧ ∀ u ∈ Java.basicTypes, u.toList <+: w.toList → u = w
  := by
  decide

namespace ElementType

/-- The word that a type begins with. -/
def firstWord : ElementType → List Char
  | basic word _ => word.toList
  | named name => name.first.chars

theorem firstWord_ne_nil (t : ElementType) :
  t.firstWord ≠ []
  := by
  cases t with
  | basic word listed =>
      rw [firstWord, Ne, String.toList_eq_nil_iff]
      apply (basicTypes_apart word listed).1
  | named name => apply name.first.chars_ne_nil

theorem firstWord_not_modifier (t : ElementType) :
  String.ofList t.firstWord ∉ Java.modifiers
  := by
  cases t with
  | basic word listed =>
      rw [firstWord, String.ofList_toList]
      apply (basicTypes_apart word listed).2.1
  | named name => apply name.first.not_mem modifiers_reserved

theorem firstWord_not_keyword (t : ElementType) :
  String.ofList t.firstWord ∉ Java.keywords
  := by
  cases t with
  | basic word listed =>
      rw [firstWord, String.ofList_toList]
      apply (basicTypes_apart word listed).2.2.1
  | named name => apply name.first.not_mem keywords_reserved

theorem heads (t : ElementType) (h : Bare rest) :
  Heads t.firstWord (t.chars ++ rest)
  := by
  cases t with
  | basic word listed => apply heads_append (plainWords_basicTypes word listed) h
  | named name => apply name.heads h

theorem not_blank (t : ElementType) :
  ∀ c ∈ t.chars, Text.isBlank c = false
  := by
  cases t with
  | basic word listed =>
      intro c hmem
      apply isBlank_plain (plainWords_basicTypes word listed c hmem)
  | named name => apply name.not_blank

/-- A type that is no array is taken with the spaces after it. -/
theorem takes_element (t : ElementType) {k : Nat} (h : FollowsName k rest) :
  Takes draft source (.choice (Expr.rules ["BasicType", "JavapClassType"])) (t.chars ++ spaces k)
    rest AnyNodes
  := by
  cases t with
  | basic word listed =>
      have hword : Takes draft source (Expr.words Java.basicTypes) word.toList (spaces k ++ rest)
          NoNodes :=
        takes_word plainWords_basicTypes listed (basicTypes_apart word listed).2.2.2 h.bare_spaces
      have hguard : Takes draft source (.notAhead (.rule "LetterOrDigit")) [] (spaces k ++ rest)
          NoNodes :=
        takes_notAhead (refuses_letterOrDigit h.bare_spaces)
      have hbody := hword.skip (hguard.skip (takes_spacing h.solid).last)
      apply (takes_leaf (mem_typeNames 9 rfl) rfl hbody).any.choice
  | named name =>
      apply Takes.choice_next
      · apply refuses_rule (mem_typeNames 9 rfl)
        rw [List.append_assoc]
        apply refuses_words plainWords_basicTypes (name.heads h.bare_spaces)
          (name.first.not_mem basicTypes_reserved)
      · apply (name.takes_classType h).any.choice

end ElementType

namespace ListedType

/-- A type begins with the first word of its element. -/
theorem heads (t : ListedType) (h : Bare rest) :
  Heads t.element.firstWord (t.chars ++ rest)
  := by
  rw [chars, List.append_assoc]
  apply t.element.heads
  cases t.dims with
  | zero => apply h
  | succ n => exact bare_cons (by decide)

theorem not_blank (t : ListedType) :
  ∀ c ∈ t.chars, Text.isBlank c = false
  := by
  intro c hmem
  rcases List.mem_append.mp hmem with hmem | hmem
  · apply t.element.not_blank c hmem
  · obtain ⟨dim, hdim, hmem⟩ := List.mem_flatten.mp hmem
    have hall : ∀ c ∈ ['[', ']'], Text.isBlank c = false := by decide
    rw [List.eq_of_mem_replicate hdim] at hmem
    apply hall c hmem

theorem tight (t : ListedType) :
  Text.Tight t.chars
  := Text.tight_of_forall t.not_blank

theorem chars_eq_cons (t : ListedType) :
  ∃ c cs, t.chars = c :: cs ∧ isPlainPart c = true
  := by
  obtain ⟨hword, tail, heq, -⟩ := t.heads bare_nil
  obtain ⟨c, cs, hcs⟩ := List.exists_cons_of_ne_nil t.element.firstWord_ne_nil
  rw [List.append_nil, hcs] at heq
  exact ⟨c, cs ++ tail, heq, hword c (by simp [hcs])⟩

theorem chars_ne_nil (t : ListedType) :
  t.chars ≠ []
  := by
  obtain ⟨c, cs, hcs, -⟩ := t.chars_eq_cons
  simp [hcs]

theorem clearOf (t : ListedType) {set : String} (hset : ∀ c ∈ set.toList, isPlainPart c = false)
    (tail : List Char) :
  ClearOf set (t.chars ++ tail)
  := by
  obtain ⟨c, cs, hcs, hc⟩ := t.chars_eq_cons
  rw [hcs]
  apply clearOf_plain hc hset

theorem followsModifiers (t : ListedType) (h : Bare rest) :
  FollowsModifiers (t.chars ++ rest)
  := followsModifiers_word (t.heads h) t.element.firstWord_ne_nil t.element.firstWord_not_modifier

/-- A type is taken with the spaces after it. -/
theorem takes_type (t : ListedType) {k : Nat} (h : FollowsType k rest) :
  Takes draft source (.rule "JavapType") (t.chars ++ spaces k) rest
    (Shows (textOf source) "JavapType" [String.ofList t.chars])
  := by
  have hround (dim : List Char) (hdim : dim ∈ List.replicate t.dims ['[', ']']) (j : Nat)
      (tail : List Char) (htail : FollowsName j tail) :
      Takes draft source (.rule "Dim") (id dim ++ spaces j) tail AnyNodes := by
    obtain rfl := List.eq_of_mem_replicate hdim
    have hopen : Takes draft source (.rule "LBRK") ['['] ([']'] ++ spaces j ++ tail) NoNodes := by
      apply takes_mark (t := "[") (by decide) rfl
      exact clearOf_cons.mpr (by decide)
    have hclose : Takes draft source (.rule "RBRK") ([']'] ++ spaces j) tail NoNodes :=
      takes_operator (t := "]") (by decide) rfl htail.solid
    apply (takes_leaf (mem_typeNames 12 rfl) rfl (hopen.skip hclose.last)).any
  have hbefore (dim : List Char) (hdim : dim ∈ List.replicate t.dims ['[', ']'])
      (tail : List Char) : FollowsName 0 (id dim ++ tail) := by
    obtain rfl := List.eq_of_mem_replicate hdim
    constructor
    · exact follows_mark (by decide) (by decide) 0
    · exact clearOf_cons.mpr (by decide)
  have hstop : Refuses draft source (.rule "Dim") rest := by
    apply refuses_rule (mem_typeNames 12 rfl)
    apply Refuses.seq
    apply refuses_operator (t := "[") (by decide) rfl
    rintro c hc rfl
    apply h.no_dim _ hc (by decide)
  obtain ⟨j, more, heq, hfollows, hmore⟩ :=
    takes_rounds FollowsName (List.replicate t.dims ['[', ']']) hround hbefore h.toFollowsName hstop
  have htext : t.chars ++ spaces k = (t.element.chars ++ spaces j) ++ more := by
    rw [chars, List.append_assoc, ← List.flatMap_id, heq, List.append_assoc]
  have hbody := (t.element.takes_element hfollows).seq hmore.last
  rw [← htext] at hbody
  apply (takes_leaf (mem_members 9 rfl) rfl hbody).mono
  intro nodes hnode
  apply hnode.shows t.tight t.chars_ne_nil

/-- A type is taken as a parameter. -/
theorem takes_parameter (t : ListedType) {k : Nat} (h : FollowsType k rest) :
  Takes draft source (.rule "JavapParameter") (t.chars ++ spaces k) rest
    (Shows (textOf source) "JavapParameter" [String.ofList t.chars])
  := by
  have hellipsis : Refuses draft source (.rule "ELLIPSIS") rest := by
    apply refuses_operator (t := "...") (by decide) rfl
    rintro c hc rfl
    apply h.no_part _ hc (by decide)
  have hbody := (t.takes_type h).seq_nothing (takes_optional_nil hellipsis).last
  apply (takes_leaf (mem_members 8 rfl) rfl hbody).mono
  intro nodes hnode
  apply hnode.shows t.tight t.chars_ne_nil

end ListedType

/-- No type is where neither the name of a basic type is nor an identifier. -/
theorem refuses_type (h : Heads word rest) (hnot : String.ofList word ∉ Java.basicTypes)
    (hname : Refuses draft source (.rule "JavapIdentifier") rest) :
  Refuses draft source (.rule "JavapType") rest
  := by
  apply refuses_rule (mem_members 9 rfl)
  apply Refuses.seq
  refine .choice ?_ (.choice ?_ refuses_choice_nil)
  · apply refuses_rule (mem_typeNames 9 rfl)
    apply refuses_words plainWords_basicTypes h hnot
  · apply refuses_classType hname

theorem refuses_type_of_bare (h : Bare rest) :
  Refuses draft source (.rule "JavapType") rest
  := refuses_type (heads_nil h) (by decide) (refuses_identifier h)

/-! ### Lists -/

/-- Items with commas between them are taken with the spaces after the last. -/
theorem takes_separated {α : Type} {item label : String} {print : α → List Char}
    (hitem : ∀ x j tail, FollowsType j tail →
      Takes draft source (.rule item) (print x ++ spaces j) tail
        (Shows (textOf source) label [String.ofList (print x)]))
    (hsolid : ∀ x tail, ClearOf " \t\r\n\x0c/" (print x ++ tail)) (comma : Nat) (x : α) (xs : List α)
    {k : Nat} (h : FollowsType k rest) (hstop : ClearOf "," rest) :
  Takes draft source (.seq (Expr.separated (.rule item) (.rule "COMMA")))
    (printSeparated comma ((x :: xs).map print) ++ spaces k) rest
    (Shows (textOf source) label ((x :: xs).map fun y => String.ofList (print y)))
  := by
  have hround (y : α) (_ : y ∈ xs) (j : Nat) (tail : List Char) (htail : FollowsType j tail) :
      Takes draft source (.seq [.rule "COMMA", .rule item])
        (',' :: (spaces comma ++ print y) ++ spaces j) tail
        (Shows (textOf source) label [String.ofList (print y)]) := by
    have hcomma : Takes draft source (.rule "COMMA") ([','] ++ spaces comma)
        (print y ++ spaces j ++ tail) NoNodes := by
      apply takes_operator (t := ",") (by decide) rfl
      rw [List.append_assoc]
      apply hsolid
    have hbody := hcomma.skip (hitem y j tail htail).last
    simpa using hbody
  have hbefore (y : α) (_ : y ∈ xs) (tail : List Char) :
      FollowsType 0 (',' :: (spaces comma ++ print y) ++ tail) :=
    followsType_mark (by decide) (by decide) 0
  have hrefuses : Refuses draft source (.seq [.rule "COMMA", .rule item]) rest := by
    apply Refuses.seq
    apply refuses_operator (t := ",") (by decide) rfl
    rintro c hc rfl
    apply hstop _ hc (by decide)
  obtain ⟨j, more, heq, hfollows, hmore⟩ := takes_rounds FollowsType xs hround hbefore h hrefuses
  have htext : printSeparated comma ((x :: xs).map print) ++ spaces k
      = (print x ++ spaces j) ++ more := by
    rw [List.map_cons, printSeparated, List.flatMap_map, List.append_assoc, heq, List.append_assoc]
  rw [htext]
  apply ((hitem x j _ hfollows).seq hmore.last).mono
  rintro _ ⟨ns, _, rfl, hfirst, rounds, rfl, hrounds⟩
  exact List.rel_append hfirst (shows_flatten hrounds)

/-- The nodes of a clause are none where nothing is listed, and otherwise one node with the list. -/
def ShowsClause (source : String) (label : String) (names : List DottedName) (nodes : List Node) :
    Prop :=
  match names with
  | [] => nodes = []
  | _ => ∃ node list, nodes = [node] ∧ node.label = label ∧ node.children = [list]
    ∧ list.label = "JavapTypeList"
    ∧ Shows (textOf source) "JavapClassType" (nameTexts names) list.children

section

variable {x : Definition} {w name : String} (hx : x ∈ allDefinitions)
  (hbody : x.body = .seq (Expr.rules [name, "JavapTypeList"]))
  (hw : w ∈ Java.keywords.filter fun keyword => !Java.unusedKeywords.contains keyword)
  (hname : (Java.keywordRule w).name = name)

include hx hbody hw hname

/-- A word and names are taken with the spaces after the last name. -/
theorem takes_clause (hhidden : x.hidden = false) (hleaf : x.leaf = false) (comma : Nat)
    (n : DottedName) (ns : List DottedName) {k : Nat} (h : FollowsType k rest)
    (hstop : ClearOf "," rest) :
  Takes draft source (.rule x.name)
    ((w.toList ++ spaces 1) ++ (printSeparated comma ((n :: ns).map (·.chars)) ++ spaces k)) rest
    (ShowsClause source x.label (n :: ns))
  := by
  have hnames : Takes draft source
      (.seq (Expr.separated (.rule "JavapClassType") (.rule "COMMA")))
      (printSeparated comma ((n :: ns).map (·.chars)) ++ spaces k) rest
      (Shows (textOf source) "JavapClassType" (nameTexts (n :: ns))) :=
    takes_separated (fun m _ _ htail => m.takes_classType htail.toFollowsName)
      (fun m tail => m.clearOf (by decide) tail) comma n ns h hstop
  have hlist := takes_node (mem_classHeader 4 rfl) rfl rfl hnames
  have hkeyword : Takes draft source (.rule name) (w.toList ++ spaces 1)
      (printSeparated comma ((n :: ns).map (·.chars)) ++ spaces k ++ rest) NoNodes := by
    apply takes_keyword hw hname
    rw [List.append_assoc, List.map_cons, printSeparated, List.append_assoc]
    apply n.follows 0
  apply (takes_node hx hhidden hleaf (hbody ▸ hkeyword.skip hlist.last)).mono
  rintro _ ⟨node, rfl, hlabel, -, list, hchildren, hlist, -, hshows⟩
  exact ⟨node, list, rfl, hlabel, hchildren, hlist, hshows⟩

/-- Where there are names a clause begins with spaces, which are left to what stands before it, and
takes the spaces after it. Where there are none the spaces after it are left. -/
theorem exists_clause (source : String) (hhidden : x.hidden = false) (hleaf : x.leaf = false)
    (s : Style) (before : Nat) (names : List DottedName) {k : Nat} (h : FollowsType k rest)
    (hstop : ClearOf "," rest) (hheads : Heads word rest) (hne : w.toList ≠ word) :
  ∃ j clause, printClause s before w names ++ spaces k = spaces j ++ clause
    ∧ FollowsType j (clause ++ rest) ∧ ClearOf "," (clause ++ rest)
    ∧ (∃ first, Heads first (clause ++ rest) ∧ (first = word ∨ first = w.toList))
    ∧ Takes draft source (.optional (.rule x.name)) clause rest (ShowsClause source x.label names)
  := by
  cases names with
  | nil =>
      refine ⟨k, [], (List.append_nil _).symm, h, hstop, ⟨word, hheads, .inl rfl⟩, ?_⟩
      apply takes_optional_nil
      apply refuses_rule hx
      rw [hbody]
      apply (refuses_keyword hw hname hheads hne).seq
  | cons n ns =>
      have hplain := plainWords_keywords w (List.mem_of_mem_filter hw)
      obtain ⟨c, cs, hcs⟩ := List.exists_cons_of_ne_nil (keywords_ne_nil w (List.mem_of_mem_filter hw))
      have hc := hplain c (by simp [hcs])
      have hclause : Takes draft source (.rule x.name) _ rest _ :=
        takes_clause hx hbody hw hname hhidden hleaf s.comma n ns h hstop
      have hfirst : Heads w.toList ((w.toList ++ spaces 1)
          ++ (printSeparated s.comma ((n :: ns).map (·.chars)) ++ spaces k) ++ rest) := by
        rw [List.append_assoc, List.append_assoc]
        apply heads_append hplain
        exact bare_cons (by decide)
      refine ⟨before + 1, _, ?_, ?_, ?_, ⟨w.toList, hfirst, .inr rfl⟩, hclause.optional⟩
      · simp [printClause, gap, spaces]
      · rw [hcs]
        apply followsType_plain hc
      · rw [hcs]
        apply clearOf_plain hc (by decide)

end

end ClassTranscript.Transcript
