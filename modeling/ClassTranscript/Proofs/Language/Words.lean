import ClassTranscript.Proofs.Java.Keywords
import ClassTranscript.Proofs.Language.Rules
import ClassTranscript.Proofs.Peg.JustWhere

/-!
# Whole words

The rules of Java that read a word read all of it: which of them match a text depends on the longest
word that the text begins with and on nothing else (`words_read_whole`).
-/

namespace ClassTranscript.Language

open Peg Java

/-- A parse by the rule of modifiers matches with no annotation below the node just where `p` holds,
and then goes up to the end of `taken`, unless it reaches a limit. -/
def ReadsModifierWordJust (lang : Language) (text : String) (p : Prop) (taken : List Char) : Prop :=
  ∃ id, lang.grammar.ruleId? "Modifier" = some id
    ∧ ∀ o, ∃ outcome log, parse? lang.grammar o id text = some (outcome, log)
      ∧ (outcome.limit? = none →
        (p → ∃ tree stats, outcome = .matched tree stats ∧ tree.root.children = []
            ∧ tree.stop = Text.byteLength taken)
          ∧ (¬ p → ∀ tree stats, outcome = .matched tree stats → tree.root.children ≠ []))

section

variable {lang : Language} {d : Draft} {text : String} {w gap rest : List Char}
  (hbuild : d.build = .ok lang.grammar) (hd : HasRules d)

include hbuild hd

theorem readsModifierWordJust (htext : text.toList = w ++ (gap ++ rest))
    (h : LongestWord w text.toList) (hgap : Takes d text (.rule "Spacing") gap rest NoNodes) :
  lang.ReadsModifierWordJust text (String.ofList w ∈ modifiers) (w ++ gap)
  := by
  have hx : typeNames[10] ∈ d.definitions :=
    hd.mem_of_group (by simp [groups]) (List.getElem_mem _)
  obtain ⟨id, hid, hid', hparses⟩ := exists_ruleId_of_mem hbuild hd.nodup hx
  refine ⟨id, hid, ?_⟩
  intro o
  obtain ⟨outcome, log, hparse⟩ := hparses o text
  refine ⟨outcome, log, hparse, ?_⟩
  intro hlimit
  rw [htext] at h
  constructor
  · intro hmem
    have hne : w ≠ [] := by
      rintro rfl
      exact (smallLetters_keywords.2.2 _ hmem).1 rfl
    have htakes : Takes d text typeNames[10].body (w ++ gap) rest NoNodes := by
      apply Takes.choice_next _ (takes_modifierWord hd hmem h hgap).choice
      rw [List.append_assoc]
      exact refuses_annotation hd h hne
    obtain ⟨_, hgrows, rfl⟩ := htakes (.atStart text) (.refl _)
      (htext.trans (List.append_assoc w gap rest).symm)
    cases outcome with
    | matched tree stats =>
        obtain ⟨y, there, nodes, hy, hmatch, hstop, hroot⟩ := exists_grows_of_parse? hbuild hparse
        obtain rfl := Option.some.inj (hid'.symm.trans hy)
        obtain ⟨rfl, rfl⟩ := hgrows.unique hmatch
        refine ⟨tree, stats, rfl, by rw [hroot]; rfl, ?_⟩
        rw [← hstop]
        exact Nat.zero_add _
    | mismatched m =>
        exact absurd (fails_of_mismatched hbuild hid' hparse hlimit) hgrows.not_fails
  · rintro hnot tree stats rfl
    obtain ⟨y, there, nodes, hy, hmatch, -, hroot⟩ := exists_grows_of_parse? hbuild hparse
    obtain rfl := Option.some.inj (hid'.symm.trans hy)
    obtain ⟨item, hitem, hgrows⟩ := Grows.of_choice hmatch
    rw [hroot]
    simp only [List.mem_cons, List.not_mem_nil, or_false] at hitem
    rcases hitem with rfl | rfl
    · -- the node of the annotation is a child
      have hannotation : annotationRules[8] ∈ d.definitions :=
        hd.mem_of_group (by simp [groups]) (List.getElem_mem _)
      obtain ⟨_, _, rfl, -, -⟩ := Grows.of_rule hd.nodup hannotation hgrows
      exact List.cons_ne_nil _ _
    · have hfails := refuses_modifierWord hd hnot h (.atStart text) (.refl _) htext
      exact absurd hfails hgrows.not_fails

end

/-- Words are read whole. Let `w` be the longest word that a text begins with, which may be empty,
and let spacing follow it up to something significant. Limits apart, the rule of keywords matches
just where `w` is a keyword. The rule of a single keyword, that of basic types, the alternative of
modifiers for words and the rule of identifiers match just where `w` is the keyword, a basic type, a
modifier, or neither empty nor a keyword, and each takes `w` and the spacing. -/
theorem words_read_whole (lang : Language) (text : String) :
  ∃ w gap rest, text.toList = w ++ (gap ++ rest)
    ∧ LongestWord w text.toList ∧ MaximalSpacing gap rest
    ∧ lang.grammar.MatchesJust "Keyword" text (String.ofList w ∈ keywords) w
    ∧ (∀ keyword ∈ keywords, keyword ∉ unusedKeywords →
      lang.grammar.MatchesJust (keywordRule keyword).name text (w = keyword.toList) (w ++ gap))
    ∧ lang.grammar.MatchesJust "BasicType" text (String.ofList w ∈ basicTypes) (w ++ gap)
    ∧ lang.ReadsModifierWordJust text (String.ofList w ∈ modifiers) (w ++ gap)
    ∧ lang.grammar.MatchesJust "Identifier" text (w ≠ [] ∧ String.ofList w ∉ keywords) (w ++ gap)
  := by
  obtain ⟨d, hbuild, hd⟩ := lang.exists_draft
  obtain ⟨w, hword⟩ := exists_longestWord text.toList
  obtain ⟨tail, htail⟩ := hword.isPrefix
  obtain ⟨gap, rest, rfl, hmaximal, hspacing⟩ := exists_takes_spacing hd tail
  have hgap := hspacing text
  have hsplit : text.toList = (w ++ gap) ++ rest := by rw [← htail, List.append_assoc]
  have h : LongestWord w (w ++ (gap ++ rest)) := by rwa [htail]
  refine ⟨w, gap, rest, htail.symm, hword, hmaximal, ?_, ?_, ?_,
    readsModifierWordJust hbuild hd htail.symm hword hgap, ?_⟩
  · apply matchesJust_of_takes hbuild hd.nodup (x := keywordRules[0])
      (hd.mem_of_group (by simp [groups]) (List.getElem_mem _)) htail.symm
    · exact fun hkeyword => takes_keyword hd hkeyword h
    · exact fun hnot => refuses_keyword hd hnot h
  · intro keyword hkeyword hused
    apply matchesJust_of_takes hbuild hd.nodup
      (hd.mem_of_group (by simp [groups]) (mem_keywordRules hkeyword hused)) hsplit
    · rintro rfl
      exact (takes_keywordRule hd hkeyword hused h hgap).any
    · intro hnot
      rw [List.append_assoc]
      exact refuses_keywordRule hd hkeyword hused h (Ne.symm hnot)
  · apply matchesJust_of_takes hbuild hd.nodup (x := typeNames[9])
      (hd.mem_of_group (by simp [groups]) (List.getElem_mem _)) hsplit
    · exact fun hbasic => takes_basicType hd hbasic h hgap
    · intro hnot
      rw [List.append_assoc]
      exact refuses_basicType hd hnot h
  · apply matchesJust_of_takes hbuild hd.nodup (x := identifiers[0])
      (hd.mem_of_group (by simp [groups]) (List.getElem_mem _)) hsplit
    · rintro ⟨hne, hnot⟩
      exact (takes_identifier hd hne hnot h hgap).any
    · intro hnot
      rw [List.append_assoc]
      rw [not_and_or, not_not, not_not] at hnot
      exact refuses_identifier hd hnot h

end ClassTranscript.Language
