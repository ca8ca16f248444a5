import ClassTranscript.Proofs.Transcript.Listing.Signature
import ClassTranscript.Proofs.Transcript.Listing.Table

/-!
# How members take printed text

A member is fields, the line of a signature and two tables. What is shown of it is its record: the
text of its signature ends before the semicolon, as what a signature declares ends with neither a
semicolon nor white space (`ListedShape.endsFirm`).
-/

namespace ClassTranscript.Transcript

open Peg

variable {source : String} {rest : List Char}

/-! ### Whole signatures -/

/-- The text ends with a character that is neither white space nor a semicolon. -/
def EndsFirm (cs : List Char) : Prop :=
  ∃ c, cs.getLast? = some c ∧ Text.isBlank c = false ∧ c ≠ ';'

theorem EndsFirm.append {cs ds : List Char} (h : EndsFirm ds) :
  EndsFirm (cs ++ ds)
  := by
  obtain ⟨c, hc, hfirm⟩ := h
  refine ⟨c, ?_, hfirm⟩
  rw [List.getLast?_append, hc, Option.some_or]

theorem DottedName.endsFirm (n : DottedName) :
  EndsFirm n.chars
  := by
  have hmem := List.getLast_mem n.chars_ne_nil
  refine ⟨_, List.getLast?_eq_some_getLast n.chars_ne_nil, n.not_blank _ hmem, ?_⟩
  intro hsemicolon
  rw [hsemicolon] at hmem
  rcases n.chars_plain _ hmem with hplain | hdot
  · cases hplain
  · cases hdot

/-- A list of names ends with the last of them. -/
theorem endsFirm_separated (comma : Nat) (n : DottedName) (ns : List DottedName) :
  EndsFirm (printSeparated comma ((n :: ns).map (·.chars)))
  := by
  rw [List.map_cons, printSeparated]
  rcases List.eq_nil_or_concat ns with rfl | ⟨ms, last, rfl⟩
  · rw [List.map_nil, List.flatMap_nil, List.append_nil]
    apply n.endsFirm
  · simp only [List.concat_eq_append, List.map_append, List.map_singleton, List.flatMap_append,
      List.flatMap_singleton, ← List.cons_append]
    exact last.endsFirm.append.append.append

theorem endsFirm_tail (s : Style) (types : List ListedType) (throws : List DottedName) :
  EndsFirm (printTail s types throws)
  := by
  cases throws with
  | nil =>
      refine ⟨')', ?_, by decide, by decide⟩
      simp [printTail, printClause, printParameters, List.getLast?_cons]
  | cons n ns =>
      have hclause : printClause s s.throws "throws" (n :: ns) = gap s.throws ++ ("throws ".toList
          ++ printSeparated s.comma ((n :: ns).map (·.chars))) := by
        simp [printClause]
      rw [printTail, hclause]
      exact (endsFirm_separated s.comma n ns).append.append.append

/-- What a signature declares ends with a mark or with the last exception. -/
theorem ListedShape.endsFirm (shape : ListedShape) (s : Style) :
  EndsFirm (shape.print s)
  := by
  cases shape with
  | method result name types throws =>
      rw [ListedShape.print, ← List.singleton_append]
      exact (endsFirm_tail s types throws).append.append.append
  | constructor name types throws => exact (endsFirm_tail s types throws).append
  | staticInitializer => exact ⟨'\x7d', rfl, by decide, by decide⟩

/-- What a signature declares begins with a word or with a mark. -/
theorem ListedShape.exists_head (shape : ListedShape) (s : Style) :
  ∃ c cs, shape.print s = c :: cs ∧ Text.isBlank c = false
  := by
  cases shape with
  | method result name types throws =>
      cases result with
      | none => exact ⟨'v', _, rfl, by decide⟩
      | some t =>
          obtain ⟨c, cs, hcs, hc⟩ := t.chars_eq_cons
          rw [ListedShape.print, resultChars, hcs]
          exact ⟨c, _, rfl, isBlank_plain hc⟩
  | constructor name types throws =>
      exact ⟨_, _, rfl, isBlank_plain (isPlainPart_of_letter name.first.first_plain)⟩
  | staticInitializer => exact ⟨'\x7b', _, rfl, by decide⟩

namespace ListedMember

theorem exists_head (m : ListedMember) (s : Style) :
  ∃ c cs, m.signature s = c :: cs ∧ Text.isBlank c = false
  := by
  rw [signature]
  cases m.modifiers with
  | nil => apply m.shape.exists_head
  | cons w ws =>
      obtain ⟨c, cs, hcs, hc⟩ := w.exists_eq_cons
      rw [printModifiers, List.flatMap_cons, hcs]
      exact ⟨c, _, rfl, isBlank_plain hc⟩

/-- The text of a signature is what is printed of it before the semicolon. -/
theorem signatureText_eq (m : ListedMember) (s : Style) {node : Node}
    (h : node.text source = String.ofList (m.signature s ++ [';', '\n'])) :
  signatureText source node = String.ofList (m.signature s)
  := by
  obtain ⟨c, cs, hhead, hc⟩ := m.exists_head s
  obtain ⟨d, hd, hblank, hsemicolon⟩ : EndsFirm (m.signature s) := (m.shape.endsFirm s).append
  have htight : Text.Tight (m.signature s ++ [';']) := by
    constructor
    · rw [hhead]
      rintro _ ⟨⟩
      apply hc
    · rw [List.getLast?_concat]
      rintro _ ⟨⟩
      decide
  have hline : m.signature s ++ [';', '\n'] = m.signature s ++ [';'] ++ ['\n'] := by simp
  have htext : textOf source node = String.ofList (m.signature s ++ [';']) := by
    rw [textOf, h, hline, Text.trim_append htight (by decide) (by simp)]
  have hdrop : Text.dropEndWhile (· == ';') (m.signature s ++ [';']) = m.signature s := by
    apply Text.dropEndWhile_append
    · rw [hd]
      rintro _ ⟨⟩
      rw [beq_eq_false_iff_ne]
      apply hsemicolon
    · simp
  rw [signatureText, htext, String.toList_ofList, hdrop, Text.trimEnd, String.toList_ofList,
    ← List.append_nil (m.signature s), Text.dropEndWhile_append _ (by simp), List.append_nil]
  rw [hd]
  rintro _ ⟨⟩
  apply hblank

end ListedMember

/-- What nodes show of the signature of a member. -/
def ShowsSignature (source : String) (s : Style) (m : ListedMember) (nodes : List Node) : Prop :=
  ∃ node, nodes = [node] ∧ node.label = "MemberSignature"
    ∧ memberShape source node = .ok m.shape.record
    ∧ signatureText source node = String.ofList (m.signature s)
    ∧ childTexts source node "Modifier" = m.modifiers.map (·.word)
    ∧ childText? source node "TypeParameters" = none

theorem refuses_typeParameters (h : ClearOf "<" rest) :
  Refuses draft source (.rule "TypeParameters") rest
  := by
  apply refuses_rule (mem_typeNames 6 rfl)
  apply Refuses.seq
  apply refuses_operator (t := "<") (by decide) rfl
  rintro c hc rfl
  apply h _ hc (by decide)

/-- The line of a signature is taken. -/
theorem ListedMember.takes_signature (m : ListedMember) (s : Style) :
  Takes draft source (.rule "MemberSignature") (m.signature s ++ [';', '\n']) rest
    (ShowsSignature source s m)
  := by
  have htext : m.signature s ++ [';', '\n'] = printModifiers m.modifiers ++ ([]
      ++ (m.shape.print s ++ ([';'] ++ (spaces 0 ++ ['\n'])))) := by
    simp [ListedMember.signature, spaces]
  have hbody : Takes draft source members[2].body (m.signature s ++ [';', '\n']) rest
      (Both (Shows (textOf source) "Modifier" (m.modifiers.map (·.word)))
        (Both (ShowsShape source m.shape.record) NoNodes)) := by
    rw [htext]
    refine (takes_modifiers _ ?_).2.seq ((takes_optional_nil (refuses_typeParameters ?_)).skip
      ((m.shape.takes_shape s).seq ((takes_char (by decide) _).skip
        ((takes_inlineSpacing ?_).skip takes_newline.last))))
    · rw [List.nil_append, List.append_assoc]
      apply m.shape.followsModifiers
    · rw [List.append_assoc]
      apply (m.shape.followsModifiers s _).clear.mono (by decide)
    · exact clearOf_cons.mpr (by decide)
  apply (takes_node (mem_members 2 rfl) rfl rfl hbody).mono
  rintro _ ⟨node, rfl, hlabel, htext, modifiers, _, hchildren, hmodifiers, _, _, rfl,
    ⟨shape, rfl, hlabels, hshape⟩, rfl⟩
  rw [List.append_nil] at hchildren
  have hother : shape.label ≠ "Modifier" ∧ shape.label ≠ "TypeParameters" := by
    constructor
    · rintro heq
      rw [heq] at hlabels
      exact absurd hlabels (by decide)
    · rintro heq
      rw [heq] at hlabels
      exact absurd hlabels (by decide)
  refine ⟨node, rfl, hlabel, ?_, m.signatureText_eq s htext, ?_, ?_⟩
  · apply hshape
    intro label hne
    apply child?_append hchildren hmodifiers.label_eq hne.symm
  · apply childTexts_append hchildren hmodifiers
    simpa using hother.1
  · rw [childText?, child?_append hchildren hmodifiers.label_eq (by decide)]
    simp [hother.2]

/-- Where neither a word nor one of the marks of a signature begins there is no signature. -/
theorem refuses_signature {rest : List Char} (hbare : Bare rest) (h : ClearOf "@<\x7b" rest) :
  Refuses draft source (.rule "MemberSignature") rest
  := by
  have hmodifiers : Takes draft source (.star (.rule "Modifier")) [] rest NoNodes :=
    takes_star_nil (refuses_modifier hbare (h.mono (by decide)))
  have hnone : Takes draft source (.optional (.rule "TypeParameters")) [] rest NoNodes :=
    takes_optional_nil (refuses_typeParameters (h.mono (by decide)))
  apply refuses_rule (mem_members 2 rfl)
  apply hmodifiers.refuses_seq
  apply hnone.refuses_seq
  apply Refuses.seq
  refine .choice ?_ (.choice ?_ (.choice ?_ refuses_choice_nil))
  · apply (refuses_named hbare).1
  · apply (refuses_named hbare).2
  · apply refuses_rule (mem_members 6 rfl)
    apply Refuses.seq
    apply refuses_char
    intro c hc
    rw [CharClass.holds, beq_eq_false_iff_ne]
    rintro rfl
    exact h _ hc (by decide)

/-! ### Members -/

/-- What nodes show of a member: its record, and those of the fields before it. -/
def ShowsMember (source : String) (s : Style) (m : ListedMember) (nodes : List Node) : Prop :=
  ∃ node, nodes = [node] ∧ node.label = "JavapMember" ∧ member source node = .ok (m.record s)
    ∧ ∃ fields signature lines locals, node.children = fields ++ [signature, lines, locals]
      ∧ Shows (field source) "JavapField" (m.fields.map fun f => .ok f.record) fields

/-- The rows of a table are those that are shown of it. -/
theorem tableRows_shows {α β : Type} {f : Node → Projected β} {g : α → β} {node child : Node}
    {table row : String} {xs : List α} (hchild : node.child? table = some child)
    (h : Shows f row (xs.map fun x => .ok (g x)) child.children) :
  ∃ rows, tableRows node table row = .ok rows ∧ rows.mapM f = .ok (xs.map g)
  := ⟨child.children, tableRows_eq hchild h.label_eq, h.mapM_eq⟩

/-- A member is taken, and what is shown of it is its record. -/
theorem ListedMember.takes_member (m : ListedMember) (s : Style) :
  Takes draft source (.rule "JavapMember") (m.print s) rest (ShowsMember source s m)
  := by
  have hclear (tail : List Char) : ClearOf "\r\n" (m.signature s ++ tail) := by
    rw [signature, List.append_assoc]
    apply (follows_modifiers m.modifiers (m.shape.followsModifiers s tail)).solid.mono (by decide)
  have hbody : Takes draft source members[0].body (m.print s) rest
      (Both (Shows (field source) "JavapField" (m.fields.map fun f => .ok f.record))
        (Both (ShowsSignature source s m)
          (Both (OneNode source "LineNumberTable" (printLines s m.lines)
              (Shows (lineNumber source) "LineNumberRow" (m.lines.map fun r => .ok r.record)))
            (Both (OneNode source "LocalVariableTable" (printVariables s m.locals)
              (Shows (localVariable source) "LocalVariableRow"
                (m.locals.map fun r => .ok r.record))) NoNodes)))) := by
    refine (takes_fields m.fields ?_ ?_).2.seq ((m.takes_signature s).seq
      ((takes_lineTable s m.lines_nonempty).seq ((takes_variableTable s m.locals_nonempty).seq
        takes_newline.last)))
    · rw [List.append_assoc, List.append_assoc]
      apply hclear
    · rw [List.append_assoc, List.append_assoc]
      apply refuses_field_of_signature m s
  apply (takes_node (mem_members 0 rfl) rfl rfl hbody).mono
  rintro _ ⟨node, rfl, hlabel, -, fields, _, hchildren, hfields, _, _, rfl,
    ⟨signature, rfl, hsignature, hshape, htext, hmodifiers, hparameters⟩, _, _, rfl,
    ⟨lines, rfl, hlines, -, hlineRows⟩, _, _, rfl, ⟨locals, rfl, hlocals, -, hlocalRows⟩, rfl⟩
  have hchild (label : String) (hne : "JavapField" ≠ label) :=
    child?_append hchildren hfields.label_eq hne
  have hsignatureChild : node.child? "MemberSignature" = some signature := by
    rw [hchild _ (by decide)]
    simp [hsignature]
  have hlinesChild : node.child? "LineNumberTable" = some lines := by
    rw [hchild _ (by decide)]
    simp [hsignature, hlines]
  have hlocalsChild : node.child? "LocalVariableTable" = some locals := by
    rw [hchild _ (by decide)]
    simp [hsignature, hlines, hlocals]
  obtain ⟨lineRows, hlineRows, hlineRecords⟩ := tableRows_shows hlinesChild hlineRows
  obtain ⟨localRows, hlocalRows, hlocalRecords⟩ := tableRows_shows hlocalsChild hlocalRows
  refine ⟨node, rfl, hlabel, ?_, fields, signature, lines, locals, hchildren, hfields⟩
  rw [member, requiredChild_eq hsignatureChild]
  simp only [bind, Except.bind, pure, Except.pure, hshape, hlineRows, hlineRecords, hlocalRows,
    hlocalRecords, htext, hmodifiers, hparameters]
  rfl

end ClassTranscript.Transcript
