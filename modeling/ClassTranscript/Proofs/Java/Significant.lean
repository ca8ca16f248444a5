import ClassTranscript.Proofs.Java.Omission
import ClassTranscript.Proofs.Java.Rules
import ClassTranscript.Proofs.Java.Spacing

/-!
# Significant characters

A text is `Significant` where neither white space nor a comment comes next. Where it is not, a round
of spacing takes a piece of spacing (`exists_gap_of_not_significant`), and where it is, the round fails
(`refuses_gapRound`). So the rule of spacing takes spacing that cannot go on
(`exists_maximalSpacing`), and wherever it matches the text goes on with something significant
(`significant_of_grows`).
-/

namespace ClassTranscript.Java

open Peg Peg.Expr Omission

/-- Neither white space nor a comment comes next. A comment in a block is one only if it ends. -/
structure Significant (rest : List Char) : Prop where
  not_blank : ∀ c, rest.head? = some c → c ∉ " \t\r\n\x0c".toList
  not_blockComment : ∀ cs, ¬ "/*".toList ++ (cs ++ "*/".toList) <+: rest
  not_lineComment : ¬ "//".toList <+: rest

/-- Pieces of spacing in front of `rest`. The line end that closes a comment is missing at the end
of the text only. -/
inductive IsSpacing (rest : List Char) : List Char → Prop where
  | nil : IsSpacing rest []
  | cons {g : Gap} {s : List Char} :
    g.IsSpelled →
    (∀ cs, g = .lineComment cs [] → s ++ rest = []) →
    IsSpacing rest s →
    IsSpacing rest (g.chars ++ s)

/-- Spacing behind which something significant comes. -/
structure MaximalSpacing (s rest : List Char) : Prop where
  isSpacing : IsSpacing rest s
  significant : Significant rest

variable {d : Draft} {source : String} {text rest : List Char}

theorem significant_of_head (h : ∀ c, rest.head? = some c → c ∉ " \t\r\n\x0c/".toList) :
  Significant rest
  where
  not_blank c hc hmem := h c hc (by
    have hsub : " \t\r\n\x0c".toList ⊆ " \t\r\n\x0c/".toList := by decide
    exact hsub hmem)
  not_blockComment := by
    rintro cs ⟨tail, rfl⟩
    exact h '/' rfl (by decide)
  not_lineComment := by
    rintro ⟨tail, rfl⟩
    exact h '/' rfl (by decide)

/-! ### Comments -/

/-- Characters are taken one by one up to a text that comes somewhere. -/
theorem takes_until {mark : String} (h : mark.toList <:+: text) :
  ∃ taken rest, text = taken ++ (mark.toList ++ rest)
    ∧ ∀ d source, Takes d source (.star (.seq [.notAhead (.literal mark), .any])) taken
        (mark.toList ++ rest) NoNodes
  := by
  induction text with
  | nil =>
      refine ⟨[], [], ?_, ?_⟩
      · rw [List.infix_nil.mp h]
        rfl
      · intro d source
        apply takes_star_nil (refuses_except (takes_literal mark []))
  | cons c text ih =>
      by_cases hbegins : mark.toList <+: c :: text
      · obtain ⟨rest, hrest⟩ := hbegins
        refine ⟨[], rest, hrest.symm, ?_⟩
        intro d source
        apply takes_star_nil (refuses_except (takes_literal mark rest))
      · obtain ⟨taken, rest, rfl, htakes⟩ := ih ((List.infix_cons_iff.mp h).resolve_left hbegins)
        refine ⟨c :: taken, rest, rfl, ?_⟩
        intro d source
        apply Takes.star_skip (s := [c]) _ (htakes d source)
        apply takes_except (refuses_literal hbegins)

/-- Characters are taken one by one to the end of a text in which another does not come. -/
theorem takes_beyond {mark : String} (h : ¬ mark.toList <:+: text) :
  Takes d source (.star (.seq [.notAhead (.literal mark), .any])) text [] NoNodes
  := by
  induction text with
  | nil =>
      apply takes_star_nil
      apply refuses_except_nil (refuses_literal fun hbegins => h hbegins.isInfix)
  | cons c text ih =>
      rw [List.infix_cons_iff, not_or] at h
      apply Takes.star_skip (s := [c]) _ (ih h.2)
      apply takes_except
      rw [List.append_nil]
      exact refuses_literal h.1

/-- A comment in a block is taken where one comes. -/
theorem takes_blockComment (h : ∃ cs, "/*".toList ++ (cs ++ "*/".toList) <+: text) :
  ∃ cs rest, text = (Gap.blockComment cs).chars ++ rest ∧ (Gap.blockComment cs).IsSpelled
    ∧ ∀ d source, Takes d source (.seq ["/*", .star (.seq [.notAhead "*/", .any]), "*/"])
        (Gap.blockComment cs).chars rest NoNodes
  := by
  obtain ⟨cs, tail, rfl⟩ := h
  have hmark : "*/".toList <:+: cs ++ "*/".toList ++ tail := ⟨cs, tail, rfl⟩
  obtain ⟨taken, rest, heq, hbody⟩ := takes_until hmark
  have htakes (d : Draft) (source : String) :
      Takes d source (.seq ["/*", .star (.seq [.notAhead "*/", .any]), "*/"])
        (Gap.blockComment taken).chars rest NoNodes := by
    apply (takes_literal "/*" _).skip
    apply (hbody d source).skip (takes_literal "*/" rest).last
  refine ⟨taken, rest, ?_, ?_, htakes⟩
  · simp only [Gap.chars, List.append_assoc] at heq ⊢
    rw [heq]
  · -- what a match of the comment takes ends where it first can
    obtain ⟨source, hhere⟩ := exists_source ⟨0, (Gap.blockComment taken).chars ++ rest⟩
    obtain ⟨_, hgrows, -⟩ := htakes {} source _ hhere rfl
    obtain ⟨cs, hspelled, hpasses⟩ := exists_blockComment_of_grows hgrows
    have hchars := List.append_cancel_right hpasses.1
    simp only [Gap.chars, List.append_cancel_left_eq, List.append_cancel_right_eq] at hchars
    rw [hchars]
    exact hspelled

theorem takes_star_exceptChars {cls : CharClass} {cs : List Char}
    (h : ∀ c ∈ cs, cls.holds c = false) (hrest : ∀ c, rest.head? = some c → cls.holds c = true) :
  Takes d source (.star (.seq [.notAhead (.char cls), .any])) cs rest NoNodes
  := by
  induction cs with
  | nil =>
      apply takes_star_nil
      cases rest with
      | nil => exact refuses_except_nil (refuses_char (by simp))
      | cons c rest => exact refuses_except (takes_char (hrest c rfl) rest)
  | cons c cs ih =>
      obtain ⟨hc, hcs⟩ := List.forall_mem_cons.mp h
      apply Takes.star_skip (s := [c]) _ (ih hcs)
      apply takes_except
      apply refuses_char
      rintro _ ⟨⟩
      exact hc

/-- At a line end or at the end of the text the end of a comment in a line is taken. -/
theorem takes_lineCommentEnd (h : ∀ c, text.head? = some c → c ∈ "\r\n".toList) :
  ∃ ending rest, text = ending ++ rest ∧ ending ∈ ["\r\n".toList, ['\r'], ['\n'], []]
    ∧ (ending = [] → rest = [])
    ∧ ∀ d source, Takes d source (lineEndOr [.endOfInput]) ending rest NoNodes
  := by
  cases text with
  | nil =>
      refine ⟨[], [], rfl, by simp, fun _ => rfl, ?_⟩
      intro d source
      have hends := @refuses_lineEnds d [] source (by simp)
      simp only [List.forall_mem_cons] at hends
      obtain ⟨hpair, hfirst, hsecond, -⟩ := hends
      exact .choice_next hpair (.choice_next hfirst (.choice_next hsecond takes_endOfInput.choice))
  | cons c text =>
      have hmem := h c rfl
      simp only [String.reduceToList, List.mem_cons, List.not_mem_nil, or_false] at hmem
      rcases hmem with rfl | rfl
      · by_cases hline : text.head? = some '\n'
        · obtain ⟨rest, rfl⟩ := List.head?_eq_some_iff.mp hline
          exact ⟨['\r', '\n'], rest, rfl, by simp, nofun, fun _ _ => (takes_lineEndOr _ rest).2⟩
        · exact ⟨['\r'], text, rfl, by simp, nofun,
            fun _ _ => takes_of_endsLine ⟨by decide, fun _ => hline⟩ _⟩
      · exact ⟨['\n'], text, rfl, by simp, nofun, fun _ _ => (takes_lineEndOr _ text).1⟩

/-- A comment in a line is taken where one comes. -/
theorem takes_lineComment (h : "//".toList <+: text) :
  ∃ cs ending rest, text = (Gap.lineComment cs ending).chars ++ rest
    ∧ (Gap.lineComment cs ending).IsSpelled ∧ (ending = [] → rest = [])
    ∧ ∀ d source, Takes d source (.seq
        ["//", .star (.seq [.notAhead (oneOf "\r\n"), .any]), lineEndOr [.endOfInput]])
        (Gap.lineComment cs ending).chars rest NoNodes
  := by
  obtain ⟨tail, rfl⟩ := h
  let cls : CharClass := .anyOf "\r\n".toList
  have hstop (c : Char) (hc : (tail.dropWhile fun c => !cls.holds c).head? = some c) :
      cls.holds c = true := by
    have hhead := List.head?_dropWhile_not (fun c => !cls.holds c) tail
    rw [hc] at hhead
    simpa using hhead
  have hcs (c : Char) (hmem : c ∈ tail.takeWhile fun c => !cls.holds c) : cls.holds c = false := by
    simpa using List.all_eq_true.mp List.all_takeWhile c hmem
  obtain ⟨ending, rest, heq, hending, hnil, hends⟩ :=
    takes_lineCommentEnd fun c hc => List.contains_iff_mem.mp (hstop c hc)
  refine ⟨tail.takeWhile fun c => !cls.holds c, ending, rest, ?_, ?_, hnil, ?_⟩
  · rw [Gap.chars, List.append_assoc, List.append_assoc, ← heq, List.takeWhile_append_dropWhile]
  · refine ⟨?_, hending⟩
    intro c hmem hline
    have hnot := hcs c hmem
    rw [CharClass.holds, List.contains_iff_mem.mpr hline] at hnot
    cases hnot
  · intro d source
    apply (takes_literal "//" _).skip
    refine Takes.skip ?_ (hends d source).last
    rw [← heq]
    exact takes_star_exceptChars hcs hstop

/-! ### Spacing -/

/-- Where something significant comes a round of spacing fails. -/
theorem refuses_gapRound (h : Significant rest) :
  Refuses d source gapRound rest
  := by
  apply refuses_choice
  simp only [List.forall_mem_cons]
  refine ⟨?_, ?_, (refuses_literal h.not_lineComment).seq, by simp⟩
  · apply Refuses.plus
    apply refuses_char
    intro c hc
    simpa [blanks, CharClass.holds] using h.not_blank c hc
  · by_cases hopen : "/*".toList <+: rest
    · obtain ⟨tail, rfl⟩ := hopen
      apply (takes_literal "/*" tail).refuses_seq
      have hnever : ¬ "*/".toList <:+: tail := by
        rintro ⟨cs, more, rfl⟩
        apply h.not_blockComment cs
        rw [← List.append_assoc, List.append_assoc]
        exact ⟨more, by simp only [List.append_assoc]⟩
      have hbody : Takes d source (.star (.seq [.notAhead "*/", .any])) tail [] NoNodes :=
        takes_beyond hnever
      rw [← List.append_nil tail]
      exact hbody.refuses_seq (refuses_literal (by simp)).seq
    · exact (refuses_literal hopen).seq

/-- Where nothing significant comes a round of spacing takes a piece of it. -/
theorem exists_gap_of_not_significant (h : ¬ Significant text) :
  ∃ g : Gap, ∃ rest, text = g.chars ++ rest ∧ g.IsSpelled
    ∧ (∀ cs, g = .lineComment cs [] → rest = [])
    ∧ ∀ d source, Takes d source gapRound g.chars rest NoNodes
  := by
  have hblanks (hnil : text.takeWhile blanks.holds = []) (d : Draft) (source : String) :
      Refuses d source (.plus (.char blanks)) text := by
    apply Refuses.plus
    apply refuses_char
    rw [← dropWhile_of_takeWhile_nil hnil]
    apply head?_dropWhile_holds
  by_cases hnil : text.takeWhile blanks.holds = []
  · by_cases hblock : ∃ cs, "/*".toList ++ (cs ++ "*/".toList) <+: text
    · obtain ⟨cs, rest, rfl, hspelled, htakes⟩ := takes_blockComment hblock
      refine ⟨_, rest, rfl, hspelled, ?_, ?_⟩
      · rintro _ ⟨⟩
      · exact fun d source => .choice_next (hblanks hnil d source) (htakes d source).choice
    · by_cases hline : "//".toList <+: text
      · obtain ⟨cs, ending, rest, rfl, hspelled, hends, htakes⟩ := takes_lineComment hline
        refine ⟨_, rest, rfl, hspelled, ?_, ?_⟩
        · rintro _ ⟨⟩
          exact hends rfl
        · intro d source
          apply Takes.choice_next (hblanks hnil d source)
          apply Takes.choice_next _ (htakes d source).choice
          apply Refuses.seq
          apply refuses_literal
          simp [Gap.chars]
      · refine absurd ⟨?_, fun cs hbegins => hblock ⟨cs, hbegins⟩, hline⟩ h
        intro c hc hmem
        have hhead := head?_dropWhile_holds blanks text c (by rwa [dropWhile_of_takeWhile_nil hnil])
        rw [blanks, CharClass.holds, List.contains_iff_mem.mpr hmem] at hhead
        cases hhead
  · have hall : ∀ c ∈ text.takeWhile blanks.holds, blanks.holds c = true :=
      List.all_eq_true.mp List.all_takeWhile
    refine ⟨.blanks (text.takeWhile blanks.holds), text.dropWhile blanks.holds,
      List.takeWhile_append_dropWhile.symm, ⟨hnil, ?_⟩, ?_, ?_⟩
    · intro c hmem
      exact List.contains_iff_mem.mp (hall c hmem)
    · rintro _ ⟨⟩
    · exact fun d source => (takes_plus_chars hnil hall (head?_dropWhile_holds _ _)).choice

/-- The rule of spacing takes all the spacing that comes. -/
theorem exists_maximalSpacing (text : List Char) :
  ∃ s rest, text = s ++ rest ∧ MaximalSpacing s rest
    ∧ ∀ d source, Takes d source spacing[0].body s rest NoNodes
  := by
  induction hn : text.length using Nat.strong_induction_on generalizing text with
  | _ n ih =>
      by_cases hsignificant : Significant text
      · exact ⟨[], text, rfl, ⟨.nil, hsignificant⟩,
          fun _ _ => takes_star_nil (refuses_gapRound hsignificant)⟩
      · obtain ⟨g, tail, rfl, hspelled, hends, hround⟩ := exists_gap_of_not_significant hsignificant
        obtain ⟨c, cs, hchars, -⟩ := Gap.chars_eq_cons hspelled
        rw [hchars, List.cons_append, List.length_cons, List.length_append] at hn
        obtain ⟨s, rest, rfl, ⟨hspacing, hrest⟩, hstar⟩ := ih tail.length (by omega) tail rfl
        exact ⟨g.chars ++ s, rest, (List.append_assoc _ _ _).symm, ⟨.cons hspelled hends hspacing, hrest⟩,
          fun d source => (hround d source).star_skip (hstar d source)⟩

/-- Behind what the rule of spacing matches something significant comes. -/
theorem significant_of_grows {here there : Cursor} {ns : List Node}
    (h : Grows d spacing[0].body here there ns) :
  Significant there.rest
  := by
  obtain ⟨s, rest, hrest, ⟨-, hsignificant⟩, htakes⟩ := exists_maximalSpacing here.rest
  obtain ⟨source, hhere⟩ := exists_source here
  obtain ⟨_, hgrows, -⟩ := htakes d source here hhere hrest
  rw [(h.unique hgrows).1]
  exact hsignificant

end ClassTranscript.Java
