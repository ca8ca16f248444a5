import ClassTranscript.Proofs.Java.Omission
import ClassTranscript.Proofs.Transcript.Listing.Token
import ClassTranscript.Proofs.Transcript.StringLiterals

/-!
# Leaving out a line end in transcripts

Most rules of transcripts do the same whether a line end of two is left out or not
(`corresponds_of_lineless`). The others end with a line end, and as long as it is not behind the first
of the two they go on to do the same (`keeps_line`, `keeps_field`): so whatever stands in front of
the two is read as before (`keepsMatching_member`).
-/

namespace ClassTranscript.Transcript

open Peg Omission

/-- The rules in which line ends are named. -/
def lineNames : List String :=
  ["Spacing", "CharLiteral", "Newline", "JavapOutput", "SourceHeader", "JavapMember", "JavapField",
   "MemberSignature", "LineNumberTable", "LineNumberRow", "LocalVariableTable",
   "LocalVariableColumns", "LocalVariableRow"]

/-- Whether no line end is named in the rule of a name. Names are compared by their codes. -/
def isLineless (name : String) : Bool :=
  !(lineNames.map textCode).any (Nat.beq (textCode name))

/-- Whether an expression is a call of one of the rules of Java in which line ends are named. -/
def callsOverLines : Expr → Bool
  | .rule name => name == "Spacing" || name == "CharLiteral"
  | _ => false

/-- Whether an expression does the same with a line end left out. -/
def sidestepsLineEnds (e : Expr) : Bool :=
  avoidsLineEnds e || callsOverLines e

theorem madeOf_isLineless :
  draft.MadeOf sidestepsLineEnds isLineless
  := madeOf_of_all (by decide +kernel)

section

variable {k : Omission} {e : Expr} {items : List Expr} {x : Definition}

theorem body?_of_mem (hx : x ∈ allDefinitions) :
  draft.body? x.name = some x.body
  := by
  rw [← definitions_draft] at hx
  apply Draft.body?_of_mem nodup_draft hx

theorem corresponds_of_lineless (h : e.madeOf sidestepsLineEnds isLineless = true) :
  Corresponds draft.body? k.Beside k.Beside e
  := by
  apply corresponds_of_madeOf madeOf_isLineless _ h
  intro e he
  rcases Bool.or_eq_true_iff.mp he with he | he
  · apply corresponds_of_avoids he
  · unfold callsOverLines at he
    split at he
    · rw [Bool.or_eq_true, beq_iff_eq, beq_iff_eq] at he
      rcases he with rfl | rfl
      · apply Corresponds.rule (body?_of_mem mem_spacing) Java.corresponds_spacing
      · apply Corresponds.rule (body?_of_mem (mem_literals 11 rfl))
        apply Java.corresponds_charLiteral hasLiterals_draft
    · cases he

/-! ### Rules that end with a line -/

theorem keepsFailing_newline :
  KeepsFailing draft.body? k.Beside (.rule "Newline")
  := by
  apply KeepsFailing.rule (body?_of_mem (mem_layout 0 rfl))
  apply keepsFailing_lineEnd

theorem keepsMatching_newline :
  KeepsMatching draft.body? k.Beside k.IsLate (.rule "Newline")
  := by
  apply KeepsMatching.rule (body?_of_mem (mem_layout 0 rfl))
  apply keepsMatching_lineEnd

theorem forall_corresponds (h : items.all (·.madeOf sidestepsLineEnds isLineless) = true) :
  ∀ item ∈ items, Corresponds draft.body? k.Beside k.Beside item
  := fun item hmem => corresponds_of_lineless (List.all_eq_true.mp h item hmem)

theorem late_of_reaches (k : Omission) :
  ∀ ⦃here there : Cursor⦄, here.Reaches there → k.IsLate here → k.IsLate there
  := fun _ _ => isLate_of_reaches

/-- Where the first items of a sequence name no line end, it does what the others do. -/
theorem keepsFailing_of_drop (n : Nat)
    (hitems : (items.take n).all (·.madeOf sidestepsLineEnds isLineless) = true)
    (h : KeepsFailing draft.body? k.Beside (.seq (items.drop n))) :
  KeepsFailing draft.body? k.Beside (.seq items)
  := by
  rw [← List.take_append_drop n items]
  apply KeepsFailing.seq_append (forall_corresponds hitems) h

theorem keepsMatching_of_drop (n : Nat)
    (hitems : (items.take n).all (·.madeOf sidestepsLineEnds isLineless) = true)
    (h : KeepsMatching draft.body? k.Beside k.IsLate (.seq (items.drop n))) :
  KeepsMatching draft.body? k.Beside k.IsLate (.seq items)
  := by
  rw [← List.take_append_drop n items]
  apply KeepsMatching.seq_append (late_of_reaches k) (forall_corresponds hitems) h

theorem not_fails_seq_nil (bodyOf : String → Option Expr) (here : Cursor) :
  ¬ Fails bodyOf (.seq []) here
  := Derives.not_fails .seqNil

/-- The rule of a line fails and matches as before. -/
theorem keeps_line (hx : x ∈ allDefinitions) (hbody : x.body = .seq items) (n : Nat)
    (hitems : (items.take n).all (·.madeOf sidestepsLineEnds isLineless) = true)
    (hline : items.drop n = [.rule "Newline"]) :
  KeepsFailing draft.body? k.Beside (.rule x.name)
    ∧ KeepsMatching draft.body? k.Beside k.IsLate (.rule x.name)
  := by
  constructor
  · apply KeepsFailing.rule (body?_of_mem hx)
    rw [hbody]
    apply keepsFailing_of_drop n hitems
    rw [hline]
    apply keepsFailing_newline.seq_first (not_fails_seq_nil _)
  · apply KeepsMatching.rule (body?_of_mem hx)
    rw [hbody]
    apply keepsMatching_of_drop n hitems
    rw [hline]
    apply keepsMatching_newline.seq (late_of_reaches k) .seq_nil

theorem keeps_lineRow :
  KeepsFailing draft.body? k.Beside (.rule "LineNumberRow")
    ∧ KeepsMatching draft.body? k.Beside k.IsLate (.rule "LineNumberRow")
  := keeps_line (mem_tables 1 rfl) rfl 8 (by decide) rfl

theorem keeps_variableRow :
  KeepsFailing draft.body? k.Beside (.rule "LocalVariableRow")
    ∧ KeepsMatching draft.body? k.Beside k.IsLate (.rule "LocalVariableRow")
  := keeps_line (mem_tables 4 rfl) rfl 11 (by decide) rfl

theorem keepsMatching_columns :
  KeepsMatching draft.body? k.Beside k.IsLate (.rule "LocalVariableColumns")
  := (keeps_line (mem_tables 3 rfl) rfl 11 (by decide) rfl).2

theorem keepsMatching_signature :
  KeepsMatching draft.body? k.Beside k.IsLate (.rule "MemberSignature")
  := (keeps_line (mem_members 2 rfl) rfl 5 (by decide) rfl).2

theorem keepsMatching_sourceHeader :
  KeepsMatching draft.body? k.Beside k.IsLate (.rule "SourceHeader")
  := (keeps_line (mem_document 1 rfl) rfl 2 (by decide) rfl).2

/-! ### Fields, tables and members -/

/-- Nothing can fail in a field but what stands in front of its line end, and the line end. -/
theorem keeps_field :
  KeepsFailing draft.body? k.Beside (.rule "JavapField")
    ∧ KeepsMatching draft.body? k.Beside k.IsLate (.rule "JavapField")
  := by
  constructor
  · apply KeepsFailing.rule (body?_of_mem (mem_members 1 rfl))
    apply keepsFailing_of_drop 5 (by decide)
    apply keepsFailing_newline.seq_first
    rintro here ⟨_, hfails⟩
    cases hfails with
    | misses hx => cases hx
    | seqStop hfails => cases hfails with | misses hx => cases hx
    | seqNext _ hfails => exact not_fails_seq_nil _ _ ⟨_, hfails⟩
  · apply KeepsMatching.rule (body?_of_mem (mem_members 1 rfl))
    apply keepsMatching_of_drop 5 (by decide)
    apply keepsMatching_newline.seq (late_of_reaches k)
    apply (keepsMatching_newline.optional keepsFailing_newline).seq (late_of_reaches k) .seq_nil

/-- What stands below the title of a table is read as before if the rest of the table is. -/
theorem keepsMatching_title {title : String} (htitle : lineless title = true)
    (h : KeepsMatching draft.body? k.Beside k.IsLate (.seq items)) :
  KeepsMatching draft.body? k.Beside k.IsLate
    (.seq (.rule "InlineSpacing" :: .literal title :: .rule "InlineSpacing" :: .rule "Newline"
      :: items))
  := by
  have hspacing : Corresponds draft.body? k.Beside k.Beside (.rule "InlineSpacing") :=
    corresponds_of_lineless (by decide)
  have hliteral : Corresponds draft.body? k.Beside k.Beside (.literal title) :=
    corresponds_of_avoids htitle
  apply hspacing.keepsMatching.seq (late_of_reaches k)
  apply hliteral.keepsMatching.seq (late_of_reaches k)
  apply hspacing.keepsMatching.seq (late_of_reaches k)
  apply keepsMatching_newline.seq (late_of_reaches k) h

theorem keepsMatching_lineTable :
  KeepsMatching draft.body? k.Beside k.IsLate (.rule "LineNumberTable")
  := by
  apply KeepsMatching.rule (body?_of_mem (mem_tables 0 rfl))
  apply keepsMatching_title (by decide)
  apply (keeps_lineRow.2.plus (late_of_reaches k) keeps_lineRow.1).seq (late_of_reaches k)
  apply keepsMatching_newline.seq (late_of_reaches k) .seq_nil

theorem keepsMatching_variableTable :
  KeepsMatching draft.body? k.Beside k.IsLate (.rule "LocalVariableTable")
  := by
  apply KeepsMatching.rule (body?_of_mem (mem_tables 2 rfl))
  apply keepsMatching_title (by decide)
  apply keepsMatching_columns.seq (late_of_reaches k)
  apply (keeps_variableRow.2.plus (late_of_reaches k) keeps_variableRow.1).seq (late_of_reaches k)
  apply keepsMatching_newline.seq (late_of_reaches k) .seq_nil

theorem keepsMatching_fields :
  KeepsMatching draft.body? k.Beside k.IsLate (.star (.rule "JavapField"))
  := keeps_field.2.star (late_of_reaches k) keeps_field.1

theorem keepsMatching_member :
  KeepsMatching draft.body? k.Beside k.IsLate (.rule "JavapMember")
  := by
  apply KeepsMatching.rule (body?_of_mem (mem_members 0 rfl))
  apply keepsMatching_fields.seq (late_of_reaches k)
  apply keepsMatching_signature.seq (late_of_reaches k)
  apply keepsMatching_lineTable.seq (late_of_reaches k)
  apply keepsMatching_variableTable.seq (late_of_reaches k)
  apply keepsMatching_newline.seq (late_of_reaches k) .seq_nil

end

end ClassTranscript.Transcript
