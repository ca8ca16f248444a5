import ClassTranscript.Proofs.Text.Trim
import ClassTranscript.Proofs.Transcript.Listing.Token
import ClassTranscript.Transcript.Projection

/-!
# How names and types take printed text

Keywords and operators with the spacing after them, plain and dotted names, modifiers and types.
Each takes the spaces after it, which its text in a record is trimmed of (`Shows`). Where names
stand in a list with a mark between each two, the spaces after the last of them belong to that one
(`takes_rounds`).
-/

namespace ClassTranscript.Transcript

open Peg

variable {source : String} {rest word : List Char}

/-! ### What nodes show -/

section

variable {α β : Type} {label : String} {f : Node → β} {g : α → β} {xs : List α}

/-- The nodes have a label, and what is read off them are some values. -/
def Shows (f : Node → β) (label : String) (values : List β) (nodes : List Node) : Prop :=
  List.Forall₂ (fun node value => node.label = label ∧ f node = value) nodes values

theorem shows_singleton {value : β} {nodes : List Node} :
  Shows f label [value] nodes ↔ ∃ node, nodes = [node] ∧ node.label = label ∧ f node = value
  := by
  rw [Shows, List.forall₂_cons_right_iff]
  simp only [List.forall₂_nil_right_iff]
  constructor
  · rintro ⟨node, _, hnode, rfl, rfl⟩
    exact ⟨node, rfl, hnode⟩
  · rintro ⟨node, rfl, hnode⟩
    exact ⟨node, [], hnode, rfl, rfl⟩

/-- Rounds of which each shows a value show these values. -/
theorem shows_flatten {rounds : List (List Node)}
    (h : List.Forall₂ (fun x ns => Shows f label [g x] ns) xs rounds) :
  Shows f label (xs.map g) rounds.flatten
  := by
  induction h with
  | nil => exact .nil
  | cons hround _ ih => exact List.rel_append hround ih

end

theorem isBlank_spaces {n : Nat} :
  ∀ c ∈ spaces n, Text.isBlank c = true
  := by
  intro c hmem
  rw [List.eq_of_mem_replicate hmem]
  decide

theorem isBlank_plain {c : Char} (h : isPlainPart c = true) :
  Text.isBlank c = false
  := by
  have hrange := toNat_of_plain h
  apply Text.isBlank_eq_false <;> omega

/-- A node that covers a tight text and spaces after it shows the text. -/
theorem OneNode.shows {label : String} {cs : List Char} {n : Nat} {p : List Node → Prop}
    {nodes : List Node} (h : OneNode source label (cs ++ spaces n) p nodes) (htight : Text.Tight cs)
    (hne : cs ≠ []) :
  Shows (textOf source) label [String.ofList cs] nodes
  := by
  obtain ⟨node, rfl, hlabel, htext, -⟩ := h
  apply shows_singleton.mpr
  refine ⟨node, rfl, hlabel, ?_⟩
  rw [textOf, htext, Text.trim_append htight isBlank_spaces hne]

/-- A node that covers a tight text shows it. -/
theorem OneNode.shows_tight {label : String} {cs : List Char} {p : List Node → Prop}
    {nodes : List Node} (h : OneNode source label cs p nodes) (htight : Text.Tight cs) :
  Shows (textOf source) label [String.ofList cs] nodes
  := by
  obtain ⟨node, rfl, hlabel, htext, -⟩ := h
  apply shows_singleton.mpr
  refine ⟨node, rfl, hlabel, ?_⟩
  rw [textOf, htext, Text.trim_of_tight htight]

/-- A repetition takes what is printed for some items. The spaces after the last of them are taken
with it, and those before the first are left to what stands there. -/
theorem takes_rounds {α : Type} {print : α → List Char} {shows : α → List Node → Prop}
    {body : Expr} (Fits : Nat → List Char → Prop) (xs : List α)
    (hround : ∀ x ∈ xs, ∀ j tail, Fits j tail →
      Takes draft source body (print x ++ spaces j) tail (shows x))
    (hbefore : ∀ x ∈ xs, ∀ tail, Fits 0 (print x ++ tail)) {k : Nat} (hrest : Fits k rest)
    (hstop : Refuses draft source body rest) :
  ∃ j more, xs.flatMap print ++ spaces k = spaces j ++ more ∧ Fits j (more ++ rest)
    ∧ Takes draft source (.star body) more rest fun nodes =>
      ∃ rounds, nodes = rounds.flatten ∧ List.Forall₂ shows xs rounds
  := by
  induction xs with
  | nil =>
      refine ⟨k, [], (List.append_nil _).symm, hrest, (takes_star_nil hstop).mono ?_⟩
      rintro _ rfl
      exact ⟨[], rfl, .nil⟩
  | cons x xs ih =>
      obtain ⟨j, more, heq, hfits, hmore⟩ := ih
        (fun y hmem => hround y (List.mem_cons_of_mem _ hmem))
        fun y hmem => hbefore y (List.mem_cons_of_mem _ hmem)
      refine ⟨0, (print x ++ spaces j) ++ more, ?_, ?_, ?_⟩
      · rw [List.flatMap_cons, List.append_assoc, heq, List.append_assoc]
        rfl
      · rw [List.append_assoc, List.append_assoc]
        apply hbefore x List.mem_cons_self
      · apply ((hround x List.mem_cons_self j _ hfits).star hmore).mono
        rintro _ ⟨ns, _, rfl, hshows, rounds, rfl, hrounds⟩
        exact ⟨ns :: rounds, rfl, .cons hshows hrounds⟩

/-! ### Keywords -/

theorem plainWords_keywords :
  PlainWords Java.keywords
  := by
  decide

theorem plainWords_modifiers :
  PlainWords Java.modifiers
  := by
  decide

theorem plainWords_basicTypes :
  PlainWords Java.basicTypes
  := by
  decide

theorem keywords_ne_nil :
  ∀ w ∈ Java.keywords, w.toList ≠ []
  := by
  decide

theorem mem_keywordRules {x : Definition} (hx : x ∈ Java.keywordRules) :
  x ∈ allDefinitions
  := by
  simp [allDefinitions, Java.definitions, hx]

section

variable {w name : String}
  (hw : w ∈ Java.keywords.filter fun keyword => !Java.unusedKeywords.contains keyword)
  (hname : (Java.keywordRule w).name = name)

include hw hname

/-- A keyword is taken with the spacing after it. -/
theorem takes_spacedKeyword {s : List Char} (hbare : Bare (s ++ rest))
    (h : Takes draft source (.rule "Spacing") s rest NoNodes) :
  Takes draft source (.rule name) (w.toList ++ s) rest NoNodes
  := by
  have hmem : Java.keywordRule w ∈ Java.keywordRules :=
    List.mem_cons_of_mem _ (List.mem_map_of_mem hw)
  rw [← hname]
  apply takes_hidden (mem_keywordRules hmem) rfl
  apply (takes_guardedWord hbare).skip
  apply h.last

theorem takes_keyword {n : Nat} (h : Follows n rest) :
  Takes draft source (.rule name) (w.toList ++ spaces n) rest NoNodes
  := takes_spacedKeyword hw hname h.bare_spaces (takes_spacing h.solid)

/-- A keyword is refused where the text goes on with another word. -/
theorem refuses_keyword (h : Heads word rest) (hne : w.toList ≠ word) :
  Refuses draft source (.rule name) rest
  := by
  have hmem : Java.keywordRule w ∈ Java.keywordRules :=
    List.mem_cons_of_mem _ (List.mem_map_of_mem hw)
  rw [← hname]
  apply refuses_rule (mem_keywordRules hmem)
  apply (refuses_guardedWord (plainWords_keywords w (List.mem_of_mem_filter hw)) h hne).seq

end

/-- No keyword is where a word is that is none. -/
theorem refuses_anyKeyword (h : Heads word rest) (hnot : String.ofList word ∉ Java.keywords) :
  Refuses draft source (.rule "Keyword") rest
  := by
  apply refuses_rule (mem_keywordRules List.mem_cons_self)
  apply refuses_words plainWords_keywords h hnot

/-! ### Operators -/

theorem mem_operatorRules {o : String × String × String} (ho : o ∈ Java.operators) :
  Java.operatorRule o ∈ allDefinitions
  := by
  have hx : Java.operatorRule o ∈ Java.operatorRules := List.mem_map_of_mem ho
  simp [allDefinitions, Java.definitions, hx]

/-- An operator that nothing must not follow is taken with the spaces after it. -/
theorem takes_operator {name t : String} (ho : (name, t, "") ∈ Java.operators)
    {cs : List Char} (hcs : t.toList = cs) {n : Nat} (h : ClearOf " \t\r\n\x0c/" rest) :
  Takes draft source (.rule name) (cs ++ spaces n) rest NoNodes
  := by
  rw [← hcs]
  apply takes_hidden (mem_operatorRules ho) rfl
  apply (takes_literal t _).skip
  apply (takes_spacing h).last

/-- An operator right before something else. -/
theorem takes_mark {name t : String} (ho : (name, t, "") ∈ Java.operators) {cs : List Char}
    (hcs : t.toList = cs) (h : ClearOf " \t\r\n\x0c/" rest) :
  Takes draft source (.rule name) cs rest NoNodes
  := by
  rw [← List.append_nil cs]
  apply takes_operator ho hcs (n := 0) h

theorem refuses_operator {name t : String} (ho : (name, t, "") ∈ Java.operators) {c : Char}
    (ht : t.toList.head? = some c) (h : ∀ d, rest.head? = some d → d ≠ c) :
  Refuses draft source (.rule name) rest
  := by
  apply refuses_rule (mem_operatorRules ho)
  apply (refuses_of_head ht h).seq

/-! ### Plain names -/

namespace PlainName

theorem chars_plain (n : PlainName) :
  ∀ c ∈ n.chars, isPlainPart c = true
  := by
  intro c hmem
  rcases List.mem_cons.mp hmem with rfl | hmem
  · apply isPlainPart_of_letter n.first_plain
  · apply n.others_plain c hmem

theorem chars_ne_nil (n : PlainName) :
  n.chars ≠ []
  := List.cons_ne_nil _ _

theorem tight (n : PlainName) :
  Text.Tight n.chars
  := Text.tight_of_forall fun c hmem => isBlank_plain (n.chars_plain c hmem)

theorem heads (n : PlainName) (h : Bare rest) :
  Heads n.chars (n.chars ++ rest)
  := heads_append n.chars_plain h

theorem not_mem {words : List String} (n : PlainName) (hsub : ∀ w ∈ words, w ∈ reservedWords) :
  String.ofList n.chars ∉ words
  := fun hmem => n.not_reserved (hsub _ hmem)

/-- After a token with a space after it may stand a name. -/
theorem follows (n : PlainName) (k : Nat) (tail : List Char) :
  Follows (k + 1) (n.chars ++ tail)
  := follows_plain (isPlainPart_of_letter n.first_plain) k

theorem clearOf (n : PlainName) {set : String} (hset : ∀ c ∈ set.toList, isPlainPart c = false)
    (tail : List Char) :
  ClearOf set (n.chars ++ tail)
  := clearOf_plain (isPlainPart_of_letter n.first_plain) hset

end PlainName

theorem keywords_reserved :
  ∀ w ∈ Java.keywords, w ∈ reservedWords
  := by
  intro w hw
  simp [reservedWords, hw]

theorem modifiers_reserved :
  ∀ w ∈ Java.modifiers, w ∈ reservedWords
  := by
  intro w hw
  simp [reservedWords, hw]

theorem basicTypes_reserved :
  ∀ w ∈ Java.basicTypes, w ∈ reservedWords
  := by
  intro w hw
  simp [reservedWords, hw]

/-- The characters of an identifier are taken, and then what may follow them. -/
theorem PlainName.takes_chars (n : PlainName) {items : List Expr} {t : List Char}
    {p : List Node → Prop} (hbare : Bare (t ++ rest)) (h : Takes draft source (.seq items) t rest p) :
  Takes draft source
    (.seq (.notAhead (.rule "Keyword") :: .rule "Letter" :: .star (.rule "LetterOrDigit") :: items))
    (n.chars ++ t) rest AnyNodes
  := by
  have hothers := (takes_star_letterOrDigit n.others_plain hbare).seq h
  have hkeyword : Takes draft source (.notAhead (.rule "Keyword")) []
      ([n.first] ++ (n.others ++ t) ++ rest) NoNodes := by
    apply takes_notAhead
    have hheads := n.heads hbare
    rw [← List.append_assoc] at hheads
    apply refuses_anyKeyword hheads (n.not_mem keywords_reserved)
  apply (hkeyword.skip ((takes_letter n.first_plain).seq hothers)).any

/-- An identifier is taken with the spaces after it. -/
theorem PlainName.takes_identifier (n : PlainName) {k : Nat} (h : Follows k rest) :
  Takes draft source (.rule "JavapIdentifier") (n.chars ++ spaces k) rest
    (Shows (textOf source) "JavapIdentifier" [String.ofList n.chars])
  := by
  have hspacing : Takes draft source (.seq [.rule "InlineSpacing"]) (spaces k) rest NoNodes :=
    (takes_inlineSpacing (h.solid.mono (by decide))).last
  have hbody := n.takes_chars h.bare_spaces hspacing
  apply (takes_leaf (mem_classHeader 7 rfl) rfl hbody).mono
  intro nodes hnode
  apply hnode.shows n.tight n.chars_ne_nil

/-- No identifier is where none of its characters is. -/
theorem refuses_identifier (h : Bare rest) :
  Refuses draft source (.rule "JavapIdentifier") rest
  := by
  apply refuses_rule (mem_classHeader 7 rfl)
  have hkeyword : Takes draft source (.notAhead (.rule "Keyword")) [] rest NoNodes := by
    apply takes_notAhead
    apply refuses_anyKeyword (heads_nil h) (by decide)
  apply hkeyword.refuses_seq (refuses_letter h).seq

/-- A keyword is no identifier. -/
theorem refuses_identifier_keyword {w : String} (hw : w ∈ Java.keywords)
    (hfirst : ∀ u ∈ Java.keywords, u.toList <+: w.toList → u = w) (hrest : Bare rest) :
  Refuses draft source (.rule "JavapIdentifier") (w.toList ++ rest)
  := by
  have hword : Takes draft source (Expr.words Java.keywords) w.toList rest NoNodes :=
    takes_word plainWords_keywords hw hfirst hrest
  have hkeyword := takes_leaf (mem_keywordRules List.mem_cons_self) rfl
    (hword.seq_nothing (takes_notAhead (refuses_letterOrDigit hrest)).last)
  apply refuses_rule (mem_classHeader 7 rfl)
  apply hkeyword.refuses_notAhead.seq

/-! ### Dotted names -/

/-- What may follow a name that takes `n` spaces after it. -/
structure FollowsName (n : Nat) (rest : List Char) : Prop extends Follows n rest where
  no_part : ClearOf ".<" rest

theorem refuses_qualifiedIdentifier (h : Refuses draft source (.rule "JavapIdentifier") rest) :
  Refuses draft source (.rule "JavapQualifiedIdentifier") rest
  := by
  apply refuses_rule (mem_classHeader 6 rfl)
  apply h.seq

theorem refuses_classType (h : Refuses draft source (.rule "JavapIdentifier") rest) :
  Refuses draft source (.rule "JavapClassType") rest
  := by
  apply refuses_rule (mem_classHeader 5 rfl)
  apply (refuses_qualifiedIdentifier h).seq

namespace DottedName

theorem chars_ne_nil (n : DottedName) :
  n.chars ≠ []
  := by
  rw [chars]
  apply List.append_ne_nil_of_left_ne_nil n.first.chars_ne_nil

/-- A dotted name begins with its first part. -/
theorem heads (n : DottedName) (h : Bare rest) :
  Heads n.first.chars (n.chars ++ rest)
  := by
  rw [chars, List.append_assoc]
  apply n.first.heads
  cases n.others with
  | nil => apply h
  | cons part parts => exact bare_cons (by decide)

theorem chars_plain (n : DottedName) :
  ∀ c ∈ n.chars, isPlainPart c = true ∨ c = '.'
  := by
  intro c hmem
  rcases List.mem_append.mp hmem with hmem | hmem
  · exact .inl (n.first.chars_plain c hmem)
  · obtain ⟨part, -, hmem⟩ := List.mem_flatMap.mp hmem
    rcases List.mem_cons.mp hmem with rfl | hmem
    · exact .inr rfl
    · exact .inl (part.chars_plain c hmem)

theorem not_blank (n : DottedName) :
  ∀ c ∈ n.chars, Text.isBlank c = false
  := by
  intro c hmem
  rcases n.chars_plain c hmem with hplain | rfl
  · apply isBlank_plain hplain
  · decide

theorem tight (n : DottedName) :
  Text.Tight n.chars
  := Text.tight_of_forall n.not_blank

/-- After a token with a space after it may stand a dotted name. -/
theorem follows (n : DottedName) (k : Nat) (tail : List Char) :
  Follows (k + 1) (n.chars ++ tail)
  := by
  rw [chars, List.append_assoc]
  apply n.first.follows

theorem clearOf (n : DottedName) {set : String} (hset : ∀ c ∈ set.toList, isPlainPart c = false)
    (tail : List Char) :
  ClearOf set (n.chars ++ tail)
  := by
  rw [chars, List.append_assoc]
  apply n.first.clearOf hset

/-- A dotted name is taken with the spaces after it. -/
theorem takes_qualifiedIdentifier (n : DottedName) {k : Nat} (h : FollowsName k rest) :
  Takes draft source (.rule "JavapQualifiedIdentifier") (n.chars ++ spaces k) rest
    (Shows (textOf source) "JavapQualifiedIdentifier" [String.ofList n.chars])
  := by
  have hround (part : PlainName) (_ : part ∈ n.others) (j : Nat) (tail : List Char)
      (htail : Follows j tail) :
      Takes draft source (.seq [.rule "DOT", .rule "JavapIdentifier"])
        ('.' :: part.chars ++ spaces j) tail AnyNodes := by
    have hdot : Takes draft source (.rule "DOT") ['.'] (part.chars ++ spaces j ++ tail) NoNodes := by
      apply takes_mark (t := ".") (by decide) rfl
      rw [List.append_assoc]
      apply part.clearOf (by decide)
    apply (hdot.skip (part.takes_identifier htail).last).any
  have hbefore (part : PlainName) (_ : part ∈ n.others) (tail : List Char) :
      Follows 0 ('.' :: part.chars ++ tail) :=
    follows_mark (by decide) (by decide) 0
  have hstop : Refuses draft source (.seq [.rule "DOT", .rule "JavapIdentifier"]) rest := by
    apply Refuses.seq
    apply refuses_operator (t := ".") (by decide) rfl
    rintro c hc rfl
    apply h.no_part _ hc (by decide)
  obtain ⟨j, more, heq, hfollows, hmore⟩ :=
    takes_rounds Follows n.others hround hbefore h.toFollows hstop
  have htext : n.chars ++ spaces k = (n.first.chars ++ spaces j) ++ more := by
    rw [chars, List.append_assoc, heq, List.append_assoc]
  have hbody := (n.first.takes_identifier hfollows).seq hmore.last
  rw [← htext] at hbody
  apply (takes_leaf (mem_classHeader 6 rfl) rfl hbody).mono
  intro nodes hnode
  apply hnode.shows n.tight n.chars_ne_nil

/-- A dotted name is taken where no space follows it. -/
theorem takes_bareName (n : DottedName) (source : String) (h : FollowsName 0 rest) :
  Takes draft source (.rule "JavapQualifiedIdentifier") n.chars rest
    (Shows (textOf source) "JavapQualifiedIdentifier" [String.ofList n.chars])
  := by
  have htakes := @takes_qualifiedIdentifier source _ n _ h
  rwa [spaces, List.replicate_zero, List.append_nil] at htakes

/-- A dotted name is taken as a class. -/
theorem takes_classType (n : DottedName) {k : Nat} (h : FollowsName k rest) :
  Takes draft source (.rule "JavapClassType") (n.chars ++ spaces k) rest
    (Shows (textOf source) "JavapClassType" [String.ofList n.chars])
  := by
  have harguments : Refuses draft source (.rule "TypeArguments") rest := by
    apply refuses_rule (mem_typeNames 4 rfl)
    apply Refuses.seq
    apply refuses_operator (t := "<") (by decide) rfl
    rintro c hc rfl
    apply h.no_part _ hc (by decide)
  have hbody := (n.takes_qualifiedIdentifier h).seq_nothing (takes_optional_nil harguments).last
  apply (takes_leaf (mem_classHeader 5 rfl) rfl hbody).mono
  intro nodes hnode
  apply hnode.shows n.tight n.chars_ne_nil

end DottedName

end ClassTranscript.Transcript
