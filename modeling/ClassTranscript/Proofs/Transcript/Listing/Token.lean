import ClassTranscript.Proofs.Peg.Taking
import ClassTranscript.Proofs.Transcript.Listing.Data
import ClassTranscript.Proofs.Transcript.Nodes

/-!
# How tokens take printed text

Spacing, letters and the words of lists. A word of a list is taken where no character of an
identifier follows it (`takes_word`), and where the text goes on with an identifier that is not in
the list the words are refused, whichever of them the identifier begins with (`refuses_words`).
-/

namespace ClassTranscript.Transcript

open Peg

variable {source : String} {s t rest : List Char} {p : List Node → Prop}

/-! ### Calls of rules -/

/-- There is one node, of a label, which covers `s` and whose children satisfy `p`. -/
def OneNode (source : String) (label : String) (s : List Char) (p : List Node → Prop)
    (nodes : List Node) : Prop :=
  ∃ node, nodes = [node] ∧ node.label = label ∧ node.text source = String.ofList s
    ∧ p node.children

section

variable {x : Definition}

theorem takes_hidden (hx : x ∈ allDefinitions) (hhidden : x.hidden = true)
    (h : Takes draft source x.body s rest p) :
  Takes draft source (.rule x.name) s rest NoNodes
  := by
  rw [← definitions_draft] at hx
  apply h.hidden_rule nodup_draft hx hhidden

theorem takes_leaf (hx : x ∈ allDefinitions) (hhidden : x.hidden = false)
    (h : Takes draft source x.body s rest p) :
  Takes draft source (.rule x.name) s rest (OneNode source x.label s AnyNodes)
  := by
  rw [← definitions_draft] at hx
  apply (h.rule nodup_draft hx hhidden).mono
  rintro _ ⟨node, rfl, hlabel, htext, -⟩
  exact ⟨node, rfl, hlabel, htext, trivial⟩

theorem takes_node (hx : x ∈ allDefinitions) (hhidden : x.hidden = false) (hleaf : x.leaf = false)
    (h : Takes draft source x.body s rest p) :
  Takes draft source (.rule x.name) s rest (OneNode source x.label s p)
  := by
  rw [← definitions_draft] at hx
  apply (h.rule nodup_draft hx hhidden).mono
  rintro _ ⟨node, rfl, hlabel, htext, hp⟩
  exact ⟨node, rfl, hlabel, htext, hp hleaf⟩

theorem takes_rule (hx : x ∈ allDefinitions) (h : Takes draft source x.body s rest p) :
  Takes draft source (.rule x.name) s rest AnyNodes
  := by
  rw [← definitions_draft] at hx
  apply h.call nodup_draft hx

theorem refuses_rule (hx : x ∈ allDefinitions) (h : Refuses draft source x.body rest) :
  Refuses draft source (.rule x.name) rest
  := by
  rw [← definitions_draft] at hx
  apply h.rule nodup_draft hx

end

/-! ### Characters -/

/-- Of the first characters the plain ones are those of identifiers. -/
theorem holds_of_ascii {c : Char} (h : c.toNat < 128) :
  CharClass.letterOrDigit.holds c = isPlainPart c ∧ CharClass.letter.holds c = isPlainLetter c
  := by
  have hall : ∀ n < 128, CharClass.letterOrDigit.holds (Char.ofNat n) = isPlainPart (Char.ofNat n)
      ∧ CharClass.letter.holds (Char.ofNat n) = isPlainLetter (Char.ofNat n) := by
    decide
  have hc := hall c.toNat h
  rwa [Char.ofNat_toNat] at hc

theorem isPlainPart_of_letter {c : Char} (h : isPlainLetter c = true) :
  isPlainPart c = true
  := by
  rw [isPlainPart, h, Bool.true_or]

theorem toNat_of_plain {c : Char} (h : isPlainPart c = true) :
  0x20 < c.toNat ∧ c.toNat < 128
  := by
  simp only [isPlainPart, isPlainLetter, Bool.or_eq_true, Bool.and_eq_true, decide_eq_true_eq,
    beq_iff_eq] at h
  rcases h with (((⟨hlo, hhi⟩ | ⟨hlo, hhi⟩) | rfl) | rfl) | ⟨hlo, hhi⟩
  · have hlo : 0x61 ≤ c.toNat := hlo
    have hhi : c.toNat ≤ 0x7A := hhi
    omega
  · have hlo : 0x41 ≤ c.toNat := hlo
    have hhi : c.toNat ≤ 0x5A := hhi
    omega
  · decide
  · decide
  · have hlo : 0x30 ≤ c.toNat := hlo
    have hhi : c.toNat ≤ 0x39 := hhi
    omega

theorem not_mem_of_plain {c : Char} {set : List Char} (h : isPlainPart c = true)
    (hset : ∀ d ∈ set, isPlainPart d = false) :
  c ∉ set
  := by
  intro hmem
  rw [hset c hmem] at h
  cases h

/-! ### What may follow -/

/-- The text does not go on with one of some characters. -/
def ClearOf (set : String) (rest : List Char) : Prop :=
  ∀ c, rest.head? = some c → c ∉ set.toList

/-- The text does not go on with a character of an identifier. -/
def Bare (rest : List Char) : Prop :=
  ∀ c, rest.head? = some c → c ≠ '\\' ∧ CharClass.letterOrDigit.holds c = false

theorem ClearOf.mono {set set' : String} (h : ClearOf set rest)
    (hsub : ∀ c ∈ set'.toList, c ∈ set.toList) :
  ClearOf set' rest
  := by
  intro c hc hmem
  apply h c hc (hsub c hmem)

theorem clearOf_cons {set : String} {c : Char} :
  ClearOf set (c :: rest) ↔ c ∉ set.toList
  := by
  simp [ClearOf]

theorem clearOf_nil {set : String} :
  ClearOf set []
  := by
  rintro _ ⟨⟩

theorem bare_nil :
  Bare []
  := by
  rintro _ ⟨⟩

/-- The marks that stand between names. -/
def marks : List Char :=
  " \n\t\"(),.:;<[]\x7b\x7d".toList

theorem bare_cons {c : Char} (h : c ∈ marks) :
  Bare (c :: rest)
  := by
  have hall : ∀ c ∈ marks, c ≠ '\\' ∧ CharClass.letterOrDigit.holds c = false := by
    decide
  rintro _ ⟨⟩
  apply hall c h

theorem clearOf_plain {set : String} {c : Char} (h : isPlainPart c = true)
    (hset : ∀ d ∈ set.toList, isPlainPart d = false) :
  ClearOf set (c :: rest)
  := clearOf_cons.mpr (not_mem_of_plain h hset)

/-- What may follow a token that takes `n` spaces after it. -/
structure Follows (n : Nat) (rest : List Char) : Prop where
  solid : ClearOf " \t\r\n\x0c/" rest
  bare : n = 0 → Bare rest

theorem Follows.bare_spaces {n : Nat} (h : Follows n rest) :
  Bare (spaces n ++ rest)
  := by
  cases n with
  | zero => apply h.bare rfl
  | succ n => exact bare_cons (by decide)

/-- After a token with a space after it may stand an identifier. -/
theorem follows_plain {c : Char} (h : isPlainPart c = true) (n : Nat) :
  Follows (n + 1) (c :: rest)
  where
  solid := clearOf_plain h (by decide)
  bare := by simp

/-- After a token may stand a mark that is no white space. -/
theorem follows_mark {c : Char} (h : c ∈ marks) (hsolid : c ∉ " \t\r\n\x0c/".toList) (n : Nat) :
  Follows n (c :: rest)
  where
  solid := clearOf_cons.mpr hsolid
  bare _ := bare_cons h

/-! ### Spacing -/

theorem mem_spacing :
  Java.spacing[0] ∈ allDefinitions
  := by
  have hmem := List.getElem_mem (l := Java.spacing) (n := 0) (by decide)
  simp [allDefinitions, Java.definitions, hmem]

theorem holds_anyOf {set : String} {n : Nat} (hset : ' ' ∈ set.toList) :
  ∀ c ∈ spaces n, (CharClass.anyOf set.toList).holds c = true
  := by
  intro c hmem
  obtain rfl := List.eq_of_mem_replicate hmem
  simpa [CharClass.holds] using hset

theorem not_holds_anyOf {set : String} (h : ClearOf set rest) :
  ∀ c, rest.head? = some c → (CharClass.anyOf set.toList).holds c = false
  := by
  intro c hc
  simpa [CharClass.holds] using h c hc

/-- A text that begins with a character that does not come next is refused. -/
theorem refuses_of_head {text : String} {c : Char} (htext : text.toList.head? = some c)
    (h : ∀ d, rest.head? = some d → d ≠ c) :
  Refuses draft source (.literal text) rest
  := by
  apply refuses_literal
  rintro ⟨tail, rfl⟩
  obtain ⟨cs, hcs⟩ := List.head?_eq_some_iff.mp htext
  apply h c (by rw [hcs]; rfl) rfl

/-- No spacing is taken where neither white space nor a comment comes next. -/
theorem takes_no_spacing (h : ClearOf " \t\r\n\x0c/" rest) :
  Takes draft source Java.spacing[0].body [] rest NoNodes
  := by
  have hslash : ∀ d, rest.head? = some d → d ≠ '/' := by
    rintro d hd rfl
    apply h _ hd
    decide
  have hblank : ClearOf " \t\r\n\x0c" rest := h.mono (by decide)
  apply takes_star_nil
  refine .choice ?_ (.choice ?_ (.choice ?_ refuses_choice_nil))
  · apply (refuses_char (not_holds_anyOf hblank)).plus
  · apply (refuses_of_head (by decide) hslash).seq
  · apply (refuses_of_head (by decide) hslash).seq

/-- Spaces are taken before further spacing that begins with no white space. -/
theorem takes_spaces_spacing {n : Nat} (hrest : ClearOf " \t\r\n\x0c" (s ++ rest))
    (h : Takes draft source Java.spacing[0].body s rest AnyNodes) :
  Takes draft source Java.spacing[0].body (spaces n ++ s) rest AnyNodes
  := by
  cases n with
  | zero => apply h
  | succ n =>
      have hround : Takes draft source (.plus (Expr.oneOf " \t\r\n\x0c")) (spaces (n + 1))
          (s ++ rest) NoNodes :=
        takes_plus_chars (by simp [spaces]) (holds_anyOf (by decide)) (not_holds_anyOf hrest)
      apply (hround.choice.star h).any

theorem takes_spacing {n : Nat} (h : ClearOf " \t\r\n\x0c/" rest) :
  Takes draft source (.rule "Spacing") (spaces n) rest NoNodes
  := by
  apply takes_hidden mem_spacing rfl (p := AnyNodes)
  rw [← List.append_nil (spaces n)]
  apply takes_spaces_spacing (h.mono (by decide)) (takes_no_spacing h).any

/-- A comment with spaces around it is taken. -/
theorem takes_spacing_comment {n m : Nat} {cs : List Char} (hcs : '*' ∉ cs)
    (h : ClearOf " \t\r\n\x0c/" rest) :
  Takes draft source (.rule "Spacing") (spaces n ++ (("/*".toList ++ (cs ++ "*/".toList)) ++ spaces m))
    rest NoNodes
  := by
  have hround (c : Char) (hmem : c ∈ cs) (tail : List Char) (_ : True) :
      Takes draft source (.seq [.notAhead "*/", .any]) [c] tail NoNodes := by
    have hstar : ∀ d, ([c] ++ tail).head? = some d → d ≠ '*' := by
      rintro _ ⟨⟩ rfl
      exact hcs hmem
    apply Takes.skip (takes_notAhead (refuses_of_head (by decide) hstar)) (takes_any c tail).last
  have hstop (tail : List Char) :
      Refuses draft source (.seq [.notAhead "*/", .any]) ("*/".toList ++ tail) :=
    (takes_literal "*/" tail).refuses_notAhead.seq
  have hbody (tail : List Char) := (takes_star_items (fun c : Char => [c]) (fun _ => NoNodes)
    (fun _ => True) cs hround (fun _ _ _ _ => trivial) trivial (hstop tail)).2
  simp only [List.flatMap_singleton'] at hbody
  have hcomment (tail : List Char) :=
    (takes_literal "/*" _).seq ((hbody tail).seq (takes_literal "*/" tail).last)
  have hblank (tail : List Char) : Refuses draft source (.plus (Expr.oneOf " \t\r\n\x0c"))
      ("/*".toList ++ (cs ++ "*/".toList) ++ tail) := by
    apply Refuses.plus
    apply refuses_char
    rintro _ ⟨⟩
    decide
  have hlast : Takes draft source Java.spacing[0].body (spaces m) rest AnyNodes := by
    rw [← List.append_nil (spaces m)]
    apply takes_spaces_spacing (h.mono (by decide)) (takes_no_spacing h).any
  apply takes_hidden mem_spacing rfl (p := AnyNodes)
  apply takes_spaces_spacing (clearOf_cons.mpr (by decide))
  apply (((hcomment _).choice.choice_next (hblank _)).star hlast).any

theorem takes_inlineSpacing {n : Nat} (h : ClearOf " \t" rest) :
  Takes draft source (.rule "InlineSpacing") (spaces n) rest NoNodes
  := by
  apply takes_hidden (mem_layout 1 rfl) rfl
  apply takes_star_chars _ (holds_anyOf (by decide)) (not_holds_anyOf h)

theorem takes_rowSpacing {n : Nat} (h : ClearOf " \t" rest) :
  Takes draft source (.rule "RowSpacing") (gap n) rest NoNodes
  := by
  apply takes_hidden (mem_layout 2 rfl) rfl
  apply takes_plus_chars (by simp [spaces]) (holds_anyOf (by decide)) (not_holds_anyOf h)

theorem refuses_rowSpacing (h : ClearOf " \t" rest) :
  Refuses draft source (.rule "RowSpacing") rest
  := by
  apply refuses_rule (mem_layout 2 rfl)
  apply (refuses_char (not_holds_anyOf h)).plus

theorem takes_newline :
  Takes draft source (.rule "Newline") ['\n'] rest NoNodes
  := by
  apply takes_hidden (mem_layout 0 rfl) rfl
  apply Takes.choice_next
  · apply refuses_literal
    rintro ⟨tail, htail⟩
    cases htail
  apply Takes.choice_next
  · apply refuses_char
    rintro c ⟨⟩
    decide
  apply Takes.choice
  apply takes_char (by decide)

theorem refuses_newline (h : ClearOf "\r\n" rest) :
  Refuses draft source (.rule "Newline") rest
  := by
  have hreturn : ∀ d, rest.head? = some d → d ≠ '\r' := by
    rintro d hd rfl
    apply h _ hd
    decide
  apply refuses_rule (mem_layout 0 rfl)
  refine .choice ?_ (.choice ?_ (.choice ?_ refuses_choice_nil))
  · apply refuses_of_head (by decide) hreturn
  · apply refuses_char
    intro c hc
    simpa [CharClass.holds] using hreturn c hc
  · apply refuses_char
    rintro c hc
    simp only [CharClass.holds, beq_eq_false_iff_ne]
    rintro rfl
    apply h _ hc
    decide

/-! ### Letters -/

theorem mem_identifiers {x : Definition} (i : Nat) (h : Java.identifiers[i]? = some x) :
  x ∈ allDefinitions
  := by
  have hmem := List.mem_of_getElem? h
  simp [allDefinitions, Java.definitions, hmem]

theorem refuses_backslash {item : Expr} (h : ∀ c, rest.head? = some c → c ≠ '\\') :
  Refuses draft source (.seq ['\\', item]) rest
  := by
  apply Refuses.seq
  apply refuses_char
  intro c hc
  simpa [CharClass.holds] using h c hc

theorem takes_letter {c : Char} (h : isPlainLetter c = true) :
  Takes draft source (.rule "Letter") [c] rest AnyNodes
  := by
  have hplain := isPlainPart_of_letter h
  apply (takes_leaf (mem_identifiers 1 rfl) rfl (p := NoNodes) _).any
  apply Takes.choice_next
  · apply refuses_backslash
    rintro _ ⟨⟩ rfl
    cases h
  apply Takes.choice
  apply takes_char
  rw [(holds_of_ascii (toNat_of_plain hplain).2).2, h]

theorem takes_letterOrDigit {c : Char} (h : isPlainPart c = true) :
  Takes draft source (.rule "LetterOrDigit") [c] rest AnyNodes
  := by
  apply (takes_leaf (mem_identifiers 2 rfl) rfl (p := NoNodes) _).any
  apply Takes.choice_next
  · apply refuses_backslash
    rintro _ ⟨⟩ rfl
    cases h
  apply Takes.choice
  apply takes_char
  rw [(holds_of_ascii (toNat_of_plain h).2).1, h]

theorem refuses_letterOrDigit (h : Bare rest) :
  Refuses draft source (.rule "LetterOrDigit") rest
  := by
  apply refuses_rule (mem_identifiers 2 rfl)
  refine .choice ?_ (.choice ?_ refuses_choice_nil)
  · apply refuses_backslash fun c hc => (h c hc).1
  · apply refuses_char fun c hc => (h c hc).2

theorem refuses_letter (h : Bare rest) :
  Refuses draft source (.rule "Letter") rest
  := by
  apply refuses_rule (mem_identifiers 1 rfl)
  refine .choice ?_ (.choice ?_ refuses_choice_nil)
  · apply refuses_backslash fun c hc => (h c hc).1
  · apply refuses_char
    intro c hc
    have hnone := (h c hc).2
    simp only [CharClass.holds, Bool.or_eq_false_iff] at hnone
    apply hnone.1

/-- A repetition of the characters of identifiers takes all that come next. -/
theorem takes_star_letterOrDigit {cs : List Char} (hcs : ∀ c ∈ cs, isPlainPart c = true)
    (hrest : Bare rest) :
  Takes draft source (.star (.rule "LetterOrDigit")) cs rest AnyNodes
  := by
  induction cs with
  | nil => apply (takes_star_nil (refuses_letterOrDigit hrest)).any
  | cons c cs ih =>
      rw [← List.singleton_append]
      apply ((takes_letterOrDigit (hcs c List.mem_cons_self)).star
        (ih fun c hmem => hcs c (List.mem_cons_of_mem _ hmem))).any

/-! ### Words -/

/-- The text goes on with a word of characters of identifiers, and with no more of these. -/
def Heads (word text : List Char) : Prop :=
  (∀ c ∈ word, isPlainPart c = true) ∧ ∃ rest, text = word ++ rest ∧ Bare rest

theorem heads_append {word : List Char} (hword : ∀ c ∈ word, isPlainPart c = true)
    (hrest : Bare rest) :
  Heads word (word ++ rest)
  := ⟨hword, rest, rfl, hrest⟩

theorem heads_spaced {word : List Char} (hword : ∀ c ∈ word, isPlainPart c = true)
    (h : Bare (s ++ rest)) :
  Heads word ((word ++ s) ++ rest)
  := by
  rw [List.append_assoc]
  exact heads_append hword h

theorem heads_nil (h : Bare rest) :
  Heads [] rest
  := heads_append (by simp) h

/-- A plain word at the head of the text is a part of the longest such word. -/
theorem Heads.isPrefix {word text w : List Char} (h : Heads word text)
    (hw : ∀ c ∈ w, isPlainPart c = true) (hstart : w <+: text) :
  w <+: word
  := by
  obtain ⟨hword, rest, rfl, hrest⟩ := h
  clear hword
  induction word generalizing w with
  | nil =>
      cases w with
      | nil => apply List.prefix_refl
      | cons c w =>
          obtain ⟨tail, rfl⟩ := hstart
          have hc := hw c List.mem_cons_self
          have hnone := (hrest c rfl).2
          rw [(holds_of_ascii (toNat_of_plain hc).2).1, hc] at hnone
          cases hnone
  | cons d word ih =>
      cases w with
      | nil => apply List.nil_prefix
      | cons c w =>
          rw [List.cons_append, List.cons_prefix_cons] at hstart
          rw [List.cons_prefix_cons]
          exact ⟨hstart.1, ih (fun c hmem => hw c (List.mem_cons_of_mem _ hmem)) hstart.2⟩

/-- After a part of a word no further character of an identifier may follow, and one does. -/
theorem Heads.refuses_guard {word w tail : List Char} (h : Heads word (w ++ tail))
    (hw : ∀ c ∈ w, isPlainPart c = true) (hne : w ≠ word) (items : List Expr) :
  Refuses draft source (.seq (.notAhead (.rule "LetterOrDigit") :: items)) tail
  := by
  obtain ⟨more, rfl⟩ := h.isPrefix hw (List.prefix_append _ _)
  obtain ⟨hword, rest, heq, -⟩ := h
  rw [List.append_assoc] at heq
  obtain rfl := List.append_cancel_left heq
  cases more with
  | nil => exact absurd (List.append_nil w).symm hne
  | cons c more =>
      have hc := hword c (by simp)
      exact ((takes_letterOrDigit hc).refuses_notAhead (s := [c])).seq

/-- The characters of the words are those of identifiers. -/
def PlainWords (words : List String) : Prop :=
  ∀ w ∈ words, ∀ c ∈ w.toList, isPlainPart c = true

instance (words : List String) : Decidable (PlainWords words) :=
  inferInstanceAs (Decidable (∀ w ∈ words, ∀ c ∈ w.toList, isPlainPart c = true))

/-- A list of words takes the first of them that comes next, or none comes next. -/
theorem words_cases (source : String) (words : List String) (text : List Char) :
  (∀ w ∈ words, ¬ w.toList <+: text)
    ∨ ∃ w ∈ words, ∃ tail, text = w.toList ++ tail
      ∧ Takes draft source (Expr.words words) w.toList tail NoNodes
  := by
  induction words with
  | nil => exact .inl (by simp)
  | cons w words ih =>
      by_cases h : w.toList <+: text
      · obtain ⟨tail, rfl⟩ := h
        exact .inr ⟨w, List.mem_cons_self, tail, rfl, (takes_literal w tail).choice⟩
      · rcases ih with hnone | ⟨u, hmem, tail, rfl, htakes⟩
        · refine .inl ?_
          intro u hmem
          rcases List.mem_cons.mp hmem with rfl | hmem
          · apply h
          · apply hnone u hmem
        · refine .inr ⟨u, List.mem_cons_of_mem _ hmem, tail, rfl, ?_⟩
          apply Takes.choice_next (refuses_literal h) htakes

/-- A word of a list is taken where no character of an identifier follows, unless the word goes on
from another of the list. -/
theorem takes_word {words : List String} (hwords : PlainWords words) {w : String} (hw : w ∈ words)
    (hfirst : ∀ u ∈ words, u.toList <+: w.toList → u = w) (hrest : Bare rest) :
  Takes draft source (Expr.words words) w.toList rest NoNodes
  := by
  rcases words_cases source words (w.toList ++ rest) with hnone | ⟨u, hu, tail, htail, htakes⟩
  · exact absurd (List.prefix_append _ _) (hnone w hw)
  · have hprefix : u.toList <+: w.toList ++ rest := by
      rw [htail]
      apply List.prefix_append
    have hheads : Heads w.toList (w.toList ++ rest) := heads_append (hwords w hw) hrest
    obtain rfl := hfirst u hu (hheads.isPrefix (hwords u hu) hprefix)
    rwa [List.append_cancel_left htail]

/-- The words of a list, where no character of an identifier may follow, are refused where the text
goes on with a word that is none of them. -/
theorem refuses_words {words : List String} (hwords : PlainWords words) {word text : List Char}
    (h : Heads word text) (hnot : String.ofList word ∉ words) (items : List Expr) :
  Refuses draft source (.seq (Expr.words words :: .notAhead (.rule "LetterOrDigit") :: items)) text
  := by
  rcases words_cases source words text with hnone | ⟨w, hw, tail, rfl, htakes⟩
  · apply Refuses.seq
    apply refuses_choice
    intro item hitem
    obtain ⟨w, hw, rfl⟩ := List.mem_map.mp hitem
    apply refuses_literal (hnone w hw)
  · apply htakes.refuses_seq
    apply h.refuses_guard (hwords w hw)
    rintro rfl
    rw [String.ofList_toList] at hnot
    exact hnot hw

/-- A single word, where no character of an identifier may follow, is refused where the text goes on
with another. -/
theorem refuses_guardedWord {w : String} (hw : ∀ c ∈ w.toList, isPlainPart c = true)
    {word text : List Char} (h : Heads word text) (hne : w.toList ≠ word) :
  Refuses draft source (Java.word w) text
  := by
  by_cases hprefix : w.toList <+: text
  · obtain ⟨tail, rfl⟩ := hprefix
    apply (takes_literal w tail).refuses_seq
    apply h.refuses_guard hw hne
  · apply (refuses_literal hprefix).seq

theorem takes_guardedWord {w : String} (hrest : Bare rest) :
  Takes draft source (Java.word w) w.toList rest NoNodes
  := (takes_literal w rest).seq_nothing (takes_notAhead (refuses_letterOrDigit hrest)).last

end ClassTranscript.Transcript
