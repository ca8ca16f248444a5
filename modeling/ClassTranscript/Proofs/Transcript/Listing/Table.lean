import ClassTranscript.Proofs.Transcript.Listing.Name
import ClassTranscript.Proofs.Transcript.Projection

/-!
# How tables take printed text

Numbers, descriptors and the names of variables, the rows made of them, and the two tables of a
member. What is shown of a row is its record.
-/

namespace ClassTranscript.Transcript

open Peg

variable {source : String} {rest : List Char}

/-! ### Numbers -/

theorem holds_range {c lo : Char} (hlo : lo ≤ c) (hhi : c ≤ '9') :
  (CharClass.range lo '9').holds c = true
  := by
  simp [CharClass.holds, hlo, hhi]

/-- No digit is where an identifier might not go on. -/
theorem not_digit_of_bare (h : Bare rest) :
  ∀ c, rest.head? = some c → (CharClass.range '0' '9').holds c = false
  := by
  intro c hc
  rw [Bool.eq_false_iff]
  intro hholds
  have hplain : isPlainPart c = true := by
    rw [isPlainPart, Bool.or_eq_true]
    exact .inr hholds
  have hnone := (h c hc).2
  rw [(holds_of_ascii (toNat_of_plain hplain).2).1, hplain] at hnone
  cases hnone

/-- The decimal numeral of a number is taken. -/
theorem takes_numeral (n : UInt32) (h : Bare rest) :
  Takes draft source (.rule "DecimalNumeral") (decimal n) rest
    (OneNode source "DecimalNumeral" (decimal n) AnyNodes)
  := by
  apply takes_leaf (mem_literals 2 rfl) rfl (p := AnyNodes)
  rcases Nat.eq_zero_or_pos n.toNat with hzero | hpos
  · rw [decimal, hzero]
    apply (takes_char (by decide) rest).any.choice
  · obtain ⟨c, cs, hcs, hlo, hhi⟩ := Text.toDigits_of_pos hpos
    have hdigits : ∀ d ∈ cs, (CharClass.range '0' '9').holds d = true := by
      intro d hmem
      have hdigit := Text.isDecimal_toDigits (n := n.toNat) d (by simp [hcs, hmem])
      apply holds_range hdigit.1 hdigit.2
    rw [decimal, hcs]
    apply Takes.choice_next
    · apply refuses_char
      rintro _ ⟨⟩
      rw [CharClass.holds, beq_eq_false_iff_ne]
      rintro rfl
      exact absurd hlo (by decide)
    · have hfirst : Takes draft source (.char (.range '1' '9')) [c] (cs ++ rest) NoNodes :=
        takes_char (holds_range hlo hhi) _
      apply (hfirst.seq (takes_star_chars cs hdigits (not_digit_of_bare h)).last).any.choice

/-- The number that a numeral covers is read off it. -/
theorem number_eq {node : Node} {n : UInt32} (h : node.text source = String.ofList (decimal n))
    (quantity : Quantity) :
  number source quantity node = .ok n.toNat
  := by
  have hdecimal : ∀ c ∈ decimal n, Text.IsDecimal c := Text.isDecimal_toDigits
  have htext : textOf source node = String.ofList (decimal n) := by
    rw [textOf, h]
    apply Text.trim_of_tight (Text.tight_of_forall fun c hmem => (hdecimal c hmem).isBlank)
  have hvalue : Text.decimalValue (decimal n) = n.toNat := Text.decimalValue_toDigits n.toNat
  have hsmall : n.toNat < UInt32.size := n.toNat_lt
  have hne : decimal n ≠ [] := Nat.toDigits_ne_nil
  rw [number, htext, String.toList_ofList, Text.numeral?_of_decimal hne hdecimal, hvalue]
  simp [Option.filter, hsmall]

theorem clearOf_decimal {set : String} (n : UInt32) (hset : ∀ c ∈ set.toList, isPlainPart c = false)
    (tail : List Char) :
  ClearOf set (decimal n ++ tail)
  := by
  obtain ⟨c, cs, hcs⟩ : ∃ c cs, decimal n = c :: cs :=
    List.exists_cons_of_ne_nil Nat.toDigits_ne_nil
  have hdecimal : Text.IsDecimal c := Text.isDecimal_toDigits (n := n.toNat) c (by
    rw [← decimal, hcs]
    apply List.mem_cons_self)
  rw [hcs]
  apply clearOf_plain _ hset
  rw [isPlainPart, Bool.or_eq_true]
  exact .inr (holds_range hdecimal.1 hdecimal.2)

/-! ### Rows of line number tables -/

/-- A row of a line number table is taken, and what is shown of it is its record. -/
theorem LineRow.takes_row (r : LineRow) (s : Style) :
  Takes draft source (.rule "LineNumberRow") (r.print s) rest
    (Shows (lineNumber source) "LineNumberRow" [.ok r.record])
  := by
  have htext : r.print s = gap s.row ++ ("line".toList ++ (gap 0 ++ (decimal r.line ++ ([':']
      ++ (gap 0 ++ (decimal r.offset ++ (spaces 0 ++ ['\n']))))))) := rfl
  have hbody : Takes draft source tables[1].body (r.print s) rest
      (Both (OneNode source "DecimalNumeral" (decimal r.line) AnyNodes)
        (Both (OneNode source "DecimalNumeral" (decimal r.offset) AnyNodes) NoNodes)) := by
    rw [htext]
    refine (takes_rowSpacing ?_).skip ((takes_literal _ _).skip ((takes_rowSpacing ?_).skip
      ((takes_numeral _ ?_).seq ((takes_char (by decide) _).skip ((takes_rowSpacing ?_).skip
        ((takes_numeral _ ?_).seq ((takes_inlineSpacing ?_).skip takes_newline.last)))))))
    · exact clearOf_cons.mpr (by decide)
    · rw [List.append_assoc]
      apply clearOf_decimal _ (by decide)
    · exact bare_cons (by decide)
    · rw [List.append_assoc]
      apply clearOf_decimal _ (by decide)
    · exact bare_cons (by decide)
    · exact clearOf_cons.mpr (by decide)
  apply (takes_node (mem_tables 1 rfl) rfl rfl hbody).mono
  rintro _ ⟨node, rfl, hlabel, -, _, _, hchildren, ⟨line, rfl, hline, hlineText, -⟩, _, _, rfl,
    ⟨offset, rfl, hoffset, hoffsetText, -⟩, rfl⟩
  apply shows_singleton.mpr
  refine ⟨node, rfl, hlabel, ?_⟩
  rw [lineNumber_eq_bind source hchildren hline hoffset, number_eq hlineText,
    number_eq hoffsetText]
  rfl

/-! ### Rows of local variable tables -/

theorem this_keyword :
  "this" ∈ Java.keywords
  := by
  decide

/-- The name of a variable is taken. -/
theorem LocalName.takes_name (n : LocalName) (h : Bare rest) :
  Takes draft source (.rule "LocalName") n.chars rest
    (OneNode source "LocalName" n.chars AnyNodes)
  := by
  apply takes_leaf (mem_tables 5 rfl) rfl (p := AnyNodes)
  cases n with
  | this => apply (takes_guardedWord h).any.choice
  | plain name =>
      have hthis : "this".toList ≠ name.chars := by
        intro heq
        apply name.not_mem keywords_reserved
        rw [← heq, String.ofList_toList]
        apply this_keyword
      have hword : ∀ c ∈ "this".toList, isPlainPart c = true :=
        plainWords_keywords _ this_keyword
      have hchars : Takes draft source
          (.seq [.notAhead (.rule "Keyword"), .rule "Letter", .star (.rule "LetterOrDigit")])
          (name.chars ++ []) rest AnyNodes :=
        name.takes_chars h (takes_seq_nil rest)
      rw [List.append_nil] at hchars
      apply Takes.choice_next _ hchars.choice
      apply refuses_guardedWord hword (name.heads h) hthis

theorem LocalName.tight (n : LocalName) :
  Text.Tight n.chars
  := by
  apply Text.tight_of_forall
  intro c hmem
  apply isBlank_plain
  cases n with
  | this => apply plainWords_keywords _ this_keyword c hmem
  | plain name => apply name.chars_plain c hmem

/-- The descriptor of a type that is no array is taken. -/
theorem ElementDescriptor.takes_descriptor (e : ElementDescriptor) :
  Takes draft source (.rule "FieldDescriptor") e.chars rest
    (OneNode source "FieldDescriptor" e.chars AnyNodes)
  := by
  apply takes_leaf (mem_descriptors 0 rfl) rfl (p := AnyNodes)
  cases e with
  | basic letter listed =>
      have hletter : (CharClass.anyOf "BCDFIJSZ".toList).holds letter = true := by
        simpa [CharClass.holds] using listed
      apply (takes_leaf (mem_descriptors 1 rfl) rfl (takes_char hletter rest)).any.choice
  | object name nonempty plain =>
      have hname : Takes draft source (.plus (Expr.noneOf ";\r\n")) name ([';'] ++ rest) NoNodes := by
        apply takes_plus_chars nonempty
        · intro c hmem
          simpa [CharClass.holds] using plain c hmem
        · rintro _ ⟨⟩
          decide
      have hbase : Refuses draft source (.rule "BaseDescriptor") ('L' :: (name ++ [';']) ++ rest) := by
        apply refuses_rule (mem_descriptors 1 rfl)
        apply refuses_char
        rintro _ ⟨⟩
        decide
      have hinner := takes_leaf (mem_descriptors 3 rfl) rfl hname
      have hend : Takes draft source (.seq [.char (.only ';')]) [';'] rest NoNodes :=
        (takes_char (by decide) rest).last
      have hbegin : Takes draft source (.char (.only 'L')) ['L'] (name ++ [';'] ++ rest) NoNodes :=
        takes_char (by decide) _
      have hobject := takes_leaf (mem_descriptors 2 rfl) rfl (hbegin.skip (hinner.seq hend))
      apply Takes.choice_next hbase hobject.any.choice

/-- A descriptor is taken. -/
theorem ListedDescriptor.takes_descriptor (t : ListedDescriptor) :
  Takes draft source (.rule "FieldDescriptor") t.chars rest
    (OneNode source "FieldDescriptor" t.chars AnyNodes)
  := by
  obtain ⟨dims, element⟩ := t
  rw [chars]
  induction dims with
  | zero => apply element.takes_descriptor
  | succ n ih =>
      have hbase : Refuses draft source (.rule "BaseDescriptor")
          ('[' :: (List.replicate n '[' ++ element.chars) ++ rest) := by
        apply refuses_rule (mem_descriptors 1 rfl)
        apply refuses_char
        rintro _ ⟨⟩
        decide
      have hobject : Refuses draft source (.rule "ObjectDescriptor")
          ('[' :: (List.replicate n '[' ++ element.chars) ++ rest) := by
        apply refuses_rule (mem_descriptors 2 rfl)
        apply Refuses.seq
        apply refuses_char
        rintro _ ⟨⟩
        decide
      have hbegin : Takes draft source (.char (.only '[')) ['[']
          (List.replicate n '[' ++ element.chars ++ rest) NoNodes :=
        takes_char (by decide) _
      have harray := takes_leaf (mem_descriptors 4 rfl) rfl (hbegin.skip ih.last)
      apply takes_leaf (mem_descriptors 0 rfl) rfl (p := AnyNodes)
      apply Takes.choice_next hbase
      apply Takes.choice_next hobject
      apply harray.any.choice

/-- No white space stands at the ends of a descriptor. -/
theorem ListedDescriptor.tight (t : ListedDescriptor) :
  Text.Tight t.chars
  := by
  have hletters : ∀ c ∈ "BCDFIJSZ".toList, Text.isBlank c = false := by decide
  have hmarks : Text.isBlank '[' = false ∧ Text.isBlank 'L' = false ∧ Text.isBlank ';' = false := by
    decide
  obtain ⟨dims, element⟩ := t
  constructor
  · cases dims with
    | succ n =>
        rintro _ ⟨⟩
        apply hmarks.1
    | zero =>
        cases element with
        | basic letter listed =>
            rintro _ ⟨⟩
            apply hletters letter listed
        | object name _ _ =>
            rintro _ ⟨⟩
            apply hmarks.2.1
  · intro c hc
    rw [chars, List.getLast?_append] at hc
    cases element with
    | basic letter listed =>
        obtain rfl : letter = c := by simpa [ElementDescriptor.chars] using hc
        apply hletters letter listed
    | object name _ _ =>
        obtain rfl : ';' = c := by
          simpa [ElementDescriptor.chars, List.getLast?_cons, List.getLast?_append] using hc
        apply hmarks.2.2

/-- After the spacing in a row may stand a text without white space at its ends. -/
theorem clearOf_of_tight {cs : List Char} (htight : Text.Tight cs) (hne : cs ≠ [])
    (tail : List Char) :
  ClearOf " \t" (cs ++ tail)
  := by
  have hblank : ∀ c ∈ " \t".toList, Text.isBlank c = true := by decide
  intro c hc hmem
  rw [List.head?_append_of_ne_nil _ hne] at hc
  have hnot := htight.head c hc
  rw [hblank c hmem] at hnot
  cases hnot

theorem LocalName.chars_ne_nil (n : LocalName) :
  n.chars ≠ []
  := by
  cases n with
  | this => decide
  | plain name => apply name.chars_ne_nil

theorem ListedDescriptor.chars_ne_nil (t : ListedDescriptor) :
  t.chars ≠ []
  := by
  apply List.append_ne_nil_of_right_ne_nil
  cases t.element with
  | basic letter _ => apply List.cons_ne_nil
  | object name _ _ => apply List.cons_ne_nil

/-- A row of a local variable table is taken, and what is shown of it is its record. -/
theorem VariableRow.takes_row (r : VariableRow) (s : Style) :
  Takes draft source (.rule "LocalVariableRow") (r.print s) rest
    (Shows (localVariable source) "LocalVariableRow" [.ok r.record])
  := by
  have htext : r.print s = gap s.row ++ (decimal r.start ++ (gap s.entries.1 ++ (decimal r.length
      ++ (gap s.entries.2.1 ++ (decimal r.slot ++ (gap s.entries.2.2.1 ++ (r.name.chars
        ++ (gap s.entries.2.2.2 ++ (r.descriptor.chars ++ (spaces 0 ++ ['\n'])))))))))) := rfl
  have hbody : Takes draft source tables[4].body (r.print s) rest
      (Both (OneNode source "DecimalNumeral" (decimal r.start) AnyNodes)
        (Both (OneNode source "DecimalNumeral" (decimal r.length) AnyNodes)
          (Both (OneNode source "DecimalNumeral" (decimal r.slot) AnyNodes)
            (Both (OneNode source "LocalName" r.name.chars AnyNodes)
              (Both (OneNode source "FieldDescriptor" r.descriptor.chars AnyNodes) NoNodes))))) := by
    rw [htext]
    refine (takes_rowSpacing ?_).skip ((takes_numeral _ ?_).seq ((takes_rowSpacing ?_).skip
      ((takes_numeral _ ?_).seq ((takes_rowSpacing ?_).skip ((takes_numeral _ ?_).seq
        ((takes_rowSpacing ?_).skip ((r.name.takes_name ?_).seq ((takes_rowSpacing ?_).skip
          (r.descriptor.takes_descriptor.seq ((takes_inlineSpacing ?_).skip
            takes_newline.last))))))))))
    · rw [List.append_assoc]
      apply clearOf_decimal _ (by decide)
    · exact bare_cons (by decide)
    · rw [List.append_assoc]
      apply clearOf_decimal _ (by decide)
    · exact bare_cons (by decide)
    · rw [List.append_assoc]
      apply clearOf_decimal _ (by decide)
    · exact bare_cons (by decide)
    · rw [List.append_assoc]
      apply clearOf_of_tight r.name.tight r.name.chars_ne_nil
    · exact bare_cons (by decide)
    · rw [List.append_assoc]
      apply clearOf_of_tight r.descriptor.tight r.descriptor.chars_ne_nil
    · exact clearOf_cons.mpr (by decide)
  apply (takes_node (mem_tables 4 rfl) rfl rfl hbody).mono
  rintro _ ⟨node, rfl, hlabel, -, _, _, hchildren, ⟨start, rfl, hstart, hstartText, -⟩, _, _, rfl,
    ⟨length, rfl, hlength, hlengthText, -⟩, _, _, rfl, ⟨slot, rfl, hslot, hslotText, -⟩, _, _, rfl,
    hname, _, _, rfl, hdescriptor, rfl⟩
  obtain ⟨name, rfl, hname, hnameText⟩ := shows_singleton.mp (hname.shows_tight r.name.tight)
  obtain ⟨descriptor, rfl, hdescriptor, hdescriptorText⟩ :=
    shows_singleton.mp (hdescriptor.shows_tight r.descriptor.tight)
  apply shows_singleton.mpr
  refine ⟨node, rfl, hlabel, ?_⟩
  rw [localVariable_eq_bind source hchildren hstart hlength hslot hname hdescriptor,
    number_eq hstartText, number_eq hlengthText, number_eq hslotText, hnameText, hdescriptorText]
  rfl

/-! ### Tables -/

/-- The headings of the columns for variables are taken. -/
theorem takes_headings (s : Style) :
  Takes draft source (.rule "LocalVariableColumns") (printHeadings s) rest NoNodes
  := by
  have htext : printHeadings s = gap s.row ++ ("Start".toList ++ (gap s.headings.1
      ++ ("Length".toList ++ (gap s.headings.2.1 ++ ("Slot".toList ++ (gap s.headings.2.2.1
        ++ ("Name".toList ++ (gap s.headings.2.2.2 ++ ("Signature".toList
          ++ (spaces 0 ++ ['\n'])))))))))) := rfl
  rw [htext]
  apply takes_hidden (mem_tables 3 rfl) rfl (p := NoNodes)
  refine (takes_rowSpacing ?_).skip ((takes_literal _ _).skip ((takes_rowSpacing ?_).skip
    ((takes_literal _ _).skip ((takes_rowSpacing ?_).skip ((takes_literal _ _).skip
      ((takes_rowSpacing ?_).skip ((takes_literal _ _).skip ((takes_rowSpacing ?_).skip
        ((takes_literal _ _).skip ((takes_inlineSpacing ?_).skip takes_newline.last))))))))))
  all_goals exact clearOf_cons.mpr (by decide)

/-- A row of no table is where no space is. -/
theorem refuses_row (h : ClearOf " \t" rest) :
  Refuses draft source (.rule "LineNumberRow") rest
    ∧ Refuses draft source (.rule "LocalVariableRow") rest
  := by
  constructor
  · apply refuses_rule (mem_tables 1 rfl)
    apply (refuses_rowSpacing h).seq
  · apply refuses_rule (mem_tables 4 rfl)
    apply (refuses_rowSpacing h).seq

/-- The title of a table is taken, and then what stands below it. -/
theorem takes_title {title : String} (htitle : ∀ tail, ClearOf " \t" (title.toList ++ tail))
    (s : Style) {items : List Expr} {t : List Char} {p : List Node → Prop}
    (h : Takes draft source (.seq items) t rest p) :
  Takes draft source
    (.seq (.rule "InlineSpacing" :: .literal title :: .rule "InlineSpacing" :: .rule "Newline"
      :: items)) (printTitle s title ++ t) rest p
  := by
  have htext : printTitle s title ++ t
      = spaces s.title ++ (title.toList ++ (spaces s.titleEnd ++ (['\n'] ++ t))) := by
    simp [printTitle]
  rw [htext]
  refine (takes_inlineSpacing ?_).skip ((takes_literal _ _).skip ((takes_inlineSpacing ?_).skip
    (takes_newline.skip h)))
  · rw [List.append_assoc]
    apply htitle
  · exact clearOf_cons.mpr (by decide)

/-- A line number table is taken, and what is shown of its rows are their records. -/
theorem takes_lineTable (s : Style) {rows : List LineRow} (hne : rows ≠ []) :
  Takes draft source (.rule "LineNumberTable") (printLines s rows) rest
    (OneNode source "LineNumberTable" (printLines s rows)
      (Shows (lineNumber source) "LineNumberRow" (rows.map fun r => .ok r.record)))
  := by
  have hstop : ClearOf " \t" (['\n'] ++ rest) := clearOf_cons.mpr (by decide)
  have hrows := (takes_plus_items (fun r : LineRow => r.print s)
    (fun r => Shows (lineNumber source) "LineNumberRow" [.ok r.record]) (fun _ => True) hne
    (fun r _ _ _ => r.takes_row s) (fun _ _ _ _ => trivial) trivial (refuses_row hstop).1).2
  apply takes_node (mem_tables 0 rfl) rfl rfl
  apply takes_title fun _ => clearOf_cons.mpr (by decide)
  apply (hrows.seq takes_newline.last).mono
  rintro _ ⟨_, _, rfl, ⟨rounds, rfl, hrounds⟩, rfl⟩
  rw [List.append_nil]
  apply shows_flatten hrounds

/-- A local variable table is taken, and what is shown of its rows are their records. -/
theorem takes_variableTable (s : Style) {rows : List VariableRow} (hne : rows ≠ []) :
  Takes draft source (.rule "LocalVariableTable") (printVariables s rows) rest
    (OneNode source "LocalVariableTable" (printVariables s rows)
      (Shows (localVariable source) "LocalVariableRow" (rows.map fun r => .ok r.record)))
  := by
  have hstop : ClearOf " \t" (['\n'] ++ rest) := clearOf_cons.mpr (by decide)
  have hrows := (takes_plus_items (fun r : VariableRow => r.print s)
    (fun r => Shows (localVariable source) "LocalVariableRow" [.ok r.record]) (fun _ => True) hne
    (fun r _ _ _ => r.takes_row s) (fun _ _ _ _ => trivial) trivial (refuses_row hstop).2).2
  apply takes_node (mem_tables 2 rfl) rfl rfl
  apply takes_title fun _ => clearOf_cons.mpr (by decide)
  apply (takes_headings s).skip
  apply (hrows.seq takes_newline.last).mono
  rintro _ ⟨_, _, rfl, ⟨rounds, rfl, hrounds⟩, rfl⟩
  rw [List.append_nil]
  apply shows_flatten hrounds

end ClassTranscript.Transcript
