import ClassTranscript.Proofs.Java.Operators
import ClassTranscript.Proofs.Java.Significant
import ClassTranscript.Proofs.Java.Word

/-!
# Keywords and identifiers

The rules of Java that read a word read the longest word of the text or none. In each list of words
the longer of two words comes first where one begins the other (`longerFirst_keywords`), so the
first word of the list that the text begins with is the longest word if that is in the list at all.
-/

namespace ClassTranscript.Java

open Peg Peg.Expr

theorem smallLetters_keywords :
  SmallLetters keywords ∧ SmallLetters basicTypes ∧ SmallLetters modifiers
  := by
  decide

theorem longerFirst_keywords :
  LongerFirst keywords ∧ LongerFirst basicTypes ∧ LongerFirst modifiers
  := by
  decide

/-- The alternative of modifiers that are words. -/
def modifierWord : Expr :=
  .seq [words modifiers, .notAhead (.rule "LetterOrDigit"), .rule "Spacing"]

section

variable {d : Draft} {source keyword : String} {w gap text rest : List Char} (hd : HasRules d)

include hd

/-! ### Spacing -/

theorem takes_spacing (h : Takes d source spacing[0].body gap rest NoNodes) :
  Takes d source (.rule "Spacing") gap rest NoNodes
  := hd.takes_hidden (x := spacing[0]) (by simp [groups]) (List.getElem_mem _) rfl h

theorem exists_takes_spacing (text : List Char) :
  ∃ gap rest, text = gap ++ rest ∧ MaximalSpacing gap rest
    ∧ ∀ source, Takes d source (.rule "Spacing") gap rest NoNodes
  := by
  obtain ⟨gap, rest, htext, hmaximal, htakes⟩ := exists_maximalSpacing text
  exact ⟨gap, rest, htext, hmaximal, fun source => takes_spacing hd (htakes d source)⟩

/-! ### Lists of words -/

theorem takes_keyword (hmem : String.ofList w ∈ keywords) (h : LongestWord w (w ++ rest)) :
  Takes d source (.rule "Keyword") w rest AnyNodes
  := by
  apply hd.takes_rule (x := keywordRules[0]) (by simp [groups])
    (List.getElem_mem _)
  rw [← List.append_nil w]
  exact takes_guardedWords hd smallLetters_keywords.1 longerFirst_keywords.1 hmem (t := []) h
    (takes_seq_nil rest)

theorem refuses_keyword (hnot : String.ofList w ∉ keywords) (h : LongestWord w text) :
  Refuses d source (.rule "Keyword") text
  := hd.refuses_rule (x := keywordRules[0]) (by simp [groups])
    (List.getElem_mem _) (refuses_guardedWords hd smallLetters_keywords.1 hnot h [])

theorem takes_basicType (hmem : String.ofList w ∈ basicTypes) (h : LongestWord w (w ++ (gap ++ rest)))
    (hgap : Takes d source (.rule "Spacing") gap rest NoNodes) :
  Takes d source (.rule "BasicType") (w ++ gap) rest AnyNodes
  := hd.takes_rule (x := typeNames[9]) (by simp [groups]) (List.getElem_mem _)
    (takes_guardedWords hd smallLetters_keywords.2.1 longerFirst_keywords.2.1 hmem h hgap.last)

theorem refuses_basicType (hnot : String.ofList w ∉ basicTypes) (h : LongestWord w text) :
  Refuses d source (.rule "BasicType") text
  := hd.refuses_rule (x := typeNames[9]) (by simp [groups])
    (List.getElem_mem _) (refuses_guardedWords hd smallLetters_keywords.2.1 hnot h _)

/-! ### Modifiers -/

theorem takes_modifierWord (hmem : String.ofList w ∈ modifiers)
    (h : LongestWord w (w ++ (gap ++ rest)))
    (hgap : Takes d source (.rule "Spacing") gap rest NoNodes) :
  Takes d source modifierWord (w ++ gap) rest NoNodes
  := takes_guardedWords hd smallLetters_keywords.2.2 longerFirst_keywords.2.2 hmem h hgap.last

theorem refuses_modifierWord (hnot : String.ofList w ∉ modifiers) (h : LongestWord w text) :
  Refuses d source modifierWord text
  := refuses_guardedWords hd smallLetters_keywords.2.2 hnot h _

/-- A text that begins with a word begins with no annotation. -/
theorem refuses_annotation (h : LongestWord w text) (hne : w ≠ []) :
  Refuses d source (.rule "Annotation") text
  := by
  apply hd.refuses_rule (x := annotationRules[8]) (by simp [groups])
    (List.getElem_mem _)
  apply Refuses.seq
  apply refuses_operator hd (by simp [operators] : ("AT", "@", "") ∈ operators)
  rintro ⟨tail, rfl, -⟩
  obtain ⟨more, hmore⟩ := h.isPrefix
  cases h.isWord with
  | nil => exact absurd rfl hne
  | cons hu hs =>
      cases hu with
      | char hc =>
          obtain ⟨rfl, -⟩ := List.cons.inj hmore
          revert hc
          decide
      | escape _ _ => cases (List.cons.inj hmore).1

/-! ### Single keywords -/

omit hd in
theorem mem_keywordRules (hmem : keyword ∈ keywords) (hused : keyword ∉ unusedKeywords) :
  keywordRule keyword ∈ keywordRules
  := by
  apply List.mem_cons_of_mem
  apply List.mem_map_of_mem
  apply List.mem_filter_of_mem hmem
  simpa using hused

theorem takes_keywordRule (hmem : keyword ∈ keywords) (hused : keyword ∉ unusedKeywords)
    (h : LongestWord keyword.toList (keyword.toList ++ (gap ++ rest)))
    (hgap : Takes d source (.rule "Spacing") gap rest NoNodes) :
  Takes d source (.rule (keywordRule keyword).name) (keyword.toList ++ gap) rest NoNodes
  := hd.takes_hidden (by simp [groups]) (mem_keywordRules hmem hused) rfl
    ((takes_word hd (smallLetters_keywords.1 keyword hmem).1 h).skip hgap.last)

theorem refuses_keywordRule (hmem : keyword ∈ keywords) (hused : keyword ∉ unusedKeywords)
    (h : LongestWord w text) (hnot : keyword.toList ≠ w) :
  Refuses d source (.rule (keywordRule keyword).name) text
  := hd.refuses_rule (by simp [groups]) (mem_keywordRules hmem hused)
    (refuses_word hd (smallLetters_keywords.1 keyword hmem).2 h hnot).seq

/-! ### Identifiers -/

/-- A word that is not empty and no keyword is read up to its end. -/
theorem takes_identifierChars {items : List Expr} (hne : w ≠ []) (hnot : String.ofList w ∉ keywords)
    (h : LongestWord w (w ++ (gap ++ rest))) (hitems : Takes d source (.seq items) gap rest NoNodes) :
  Takes d source (.seq (.notAhead (.rule "Keyword") :: .rule "Letter"
    :: .star (.rule "LetterOrDigit") :: items)) (w ++ gap) rest AnyNodes
  := by
  have hguard : Takes d source (.notAhead (.rule "Keyword")) [] (w ++ (gap ++ rest)) NoNodes :=
    takes_notAhead (refuses_keyword hd hnot h)
  have hnoUnit := h.noUnit hne
  cases h.isWord with
  | nil => exact absurd rfl hne
  | @cons u s hu hs =>
      have hunits := (takes_units hd hs hnoUnit).seq hitems
      have hletter : Takes d source (.rule "Letter") u ((s ++ gap) ++ rest) AnyNodes :=
        takes_letter hd hu
      rw [← List.append_assoc, List.append_assoc u s gap] at hguard
      rw [List.append_assoc u s gap, ← List.nil_append (u ++ (s ++ gap))]
      exact (hguard.skip (hletter.seq hunits)).any

/-- Where the longest word is empty or a keyword no identifier is read. -/
theorem refuses_identifierChars {items : List Expr} (hnot : w = [] ∨ String.ofList w ∈ keywords)
    (h : LongestWord w text) :
  Refuses d source (.seq (.notAhead (.rule "Keyword") :: .rule "Letter" :: items)) text
  := by
  by_cases hmem : String.ofList w ∈ keywords
  · obtain ⟨rest, rfl⟩ := h.isPrefix
    exact (takes_keyword hd hmem h).refuses_notAhead.seq
  · obtain rfl := hnot.resolve_right hmem
    apply (takes_notAhead (refuses_keyword hd hmem h)).refuses_seq (s := [])
    exact (refuses_letter hd h.noUnit_of_nil).seq

theorem takes_identifier (hne : w ≠ []) (hnot : String.ofList w ∉ keywords)
    (h : LongestWord w (w ++ (gap ++ rest)))
    (hgap : Takes d source (.rule "Spacing") gap rest NoNodes) :
  Takes d source (.rule "Identifier") (w ++ gap) rest fun nodes => ∃ node, nodes = [node]
    ∧ node.label = "Identifier" ∧ node.text source = String.ofList (w ++ gap)
  := by
  apply (hd.takes_node (x := identifiers[0]) (by simp [groups])
    (List.getElem_mem _) rfl (takes_identifierChars hd hne hnot h hgap.last)).mono
  rintro _ ⟨node, rfl, hlabel, htext, -⟩
  exact ⟨node, rfl, hlabel, htext⟩

theorem refuses_identifier (hnot : w = [] ∨ String.ofList w ∈ keywords) (h : LongestWord w text) :
  Refuses d source (.rule "Identifier") text
  := hd.refuses_rule (x := identifiers[0]) (by simp [groups])
    (List.getElem_mem _) (refuses_identifierChars hd hnot h)

end

end ClassTranscript.Java
