import ClassTranscript.Proofs.Transcript.Omission
import ClassTranscript.Proofs.Transcript.Rows

/-!
# The ends of tables

A table ends with a row and a blank line (`TableEnd`), so leaving out its last line end
(`withoutLineEnd`) is leaving out the second of two line ends. The row is then read up to where the
blank line was, and with it all that the table has above the blank line (`TableEnd.exists_listed`),
unless more rows follow.
-/

namespace ClassTranscript.Transcript

open Peg Omission

/-! ### Texts without the line end of a node -/

/-- A text without the line end at the end of what a node covers. -/
def withoutLineEnd (source : String) (node : Node) : String :=
  (⟨0, node.span.start⟩ : Span).slice source
    ++ (String.ofList (Text.dropLineEnd (node.text source).toList)
      ++ (⟨node.span.stop, source.utf8ByteSize⟩ : Span).slice source)

theorem toList_withoutLineEnd {source : String} {here there : Cursor} {node : Node}
    {before content : List Char} (hbefore : (Cursor.atStart source).Passes before here)
    (hcontent : here.Passes content there) (hspan : node.span = ⟨here.offset, there.offset⟩) :
  (withoutLineEnd source node).toList = before ++ (Text.dropLineEnd content ++ there.rest)
  := by
  have hstop := hbefore.reaches.trans hcontent.reaches
  have hfirst : (⟨0, here.offset⟩ : Span).slice source = String.ofList before :=
    Cursor.slice_eq (.refl _) hbefore.1 hbefore.2
  have hnode : node.text source = String.ofList content := by
    rw [Node.text, hspan, Cursor.slice_eq hbefore.reaches hcontent.1 hcontent.2]
  have hsize : source.utf8ByteSize = there.offset + Text.byteLength there.rest := by
    rw [hstop.offset_add_byteLength, Text.utf8ByteSize_eq_byteLength]
    exact (Nat.zero_add _).symm
  have hlast : (⟨there.offset, source.utf8ByteSize⟩ : Span).slice source
      = String.ofList there.rest := by
    have hend : there.Passes there.rest ⟨source.utf8ByteSize, []⟩ := ⟨by simp, hsize⟩
    exact Cursor.slice_eq hstop hend.1 hend.2
  rw [withoutLineEnd, hspan, hfirst, hlast, hnode]
  simp

/-! ### Rows stay in a line -/

/-- Whether an expression reads no line end. -/
def readsNoLineEnd : Expr → Bool
  | .literal text => lineless text
  | .char cls => !cls.holds '\r' && !cls.holds '\n'
  | .notAhead _ => true
  | _ => false

theorem passesOnly_of_readsNoLineEnd {e : Expr} {here there : Cursor} {ns : List Node}
    (he : readsNoLineEnd e = true) (h : Grows draft e here there ns) :
  here.PassesOnly (fun c => c ≠ '\r' ∧ c ≠ '\n') there
  := by
  unfold readsNoLineEnd at he
  split at he
  · obtain ⟨hreturn, hfeed⟩ := not_mem_of_lineless he
    exact ⟨_, h.of_literal, inOneLine_of_forall (fun _ hc => hc) hreturn hfeed⟩
  · rename_i cls
    obtain ⟨c, hc, hpasses⟩ := h.of_char
    simp only [Bool.and_eq_true, Bool.not_eq_true'] at he
    refine ⟨[c], hpasses, inOneLine_of_forall (p := (cls.holds · = true)) ?_ ?_ ?_⟩
    · simpa using hc
    · simp [he.1]
    · simp [he.2]
  · obtain ⟨rfl, -⟩ := h.of_notAhead
    apply Cursor.PassesOnly.refl
  · cases he

/-- Whether a rule is one of those for the parts of rows. -/
def isRowPart (name : String) : Bool :=
  ["InlineSpacing", "RowSpacing", "DecimalNumeral", "LocalName", "Letter", "LetterOrDigit",
    "UnicodeEscape", "FieldDescriptor", "BaseDescriptor", "ObjectDescriptor", "InternalName",
    "ArrayDescriptor"].contains name

theorem madeOf_isRowPart :
  draft.MadeOf readsNoLineEnd isRowPart
  := madeOf_of_all (by decide +kernel)

/-! ### Line ends -/

section

variable {here : Cursor} {ending left : List Char}

theorem exists_newline (hends : Text.EndsLine ending left) (hrest : here.rest = ending ++ left) :
  ∃ there ms, Derives draft.body? (.rule "Newline") here (some there) ms ∧ there.rest = left
  := by
  obtain ⟨source, hstart⟩ := exists_source here
  have htakes : Takes draft source layout[0].body ending left NoNodes := takes_of_endsLine hends []
  obtain ⟨_, hmatch⟩ := Omission.Takes.derives htakes hstart hrest
  have hmatch := Derives.rule (body?_of_mem (mem_layout 0 rfl)) hmatch
  exact ⟨_, _, hmatch, rfl⟩

theorem fails_newline (h : ClearOf "\r\n" here.rest) :
  Fails draft.body? (.rule "Newline") here
  := by
  obtain ⟨source, hstart⟩ := exists_source here
  have hrefuses : Refuses draft source (.rule "Newline") here.rest := refuses_newline h
  exact hrefuses here hstart rfl

end

/-! ### Ends of tables -/

/-- A rule of tables: what stands above the rows, and the rule of the rows. A row begins with spacing,
and but for the line end at its end it stays in a line. -/
structure TableShape where
  heads : List Expr
  row : Definition
  items : List Expr
  row_mem : row ∈ allDefinitions
  row_body : row.body = .seq (.rule "RowSpacing" :: items ++ [.rule "Newline"])
  items_lineless : (Expr.seq (.rule "RowSpacing" :: items)).madeOf sidestepsLineEnds isLineless = true
  items_inLine : (Expr.seq items).madeOf readsNoLineEnd isRowPart = true
  keeps_heads : ∀ k : Omission, KeepsMatching draft.body? k.Beside k.IsLate (.seq heads)
  keeps_row : ∀ k : Omission, KeepsMatching draft.body? k.Beside k.IsLate (.rule row.name)

/-- What stands above the blank line of a table. -/
def TableShape.listed (shape : TableShape) : List Expr :=
  shape.heads ++ [.plus (.rule shape.row.name)]

/-- The body of a rule of tables. -/
def TableShape.body (shape : TableShape) : Expr :=
  .seq (shape.listed ++ [.rule "Newline"])

/-- The items of the line of a title. -/
def titleItems (title : String) : List Expr :=
  [.rule "InlineSpacing", .literal title, .rule "InlineSpacing", .rule "Newline"]

/-- The rule of line number tables. -/
def lineShape : TableShape where
  heads := titleItems "LineNumberTable:"
  row := tables[1]
  items :=
    [.literal "line", .rule "RowSpacing", .rule "DecimalNumeral", .char (.only ':'),
     .rule "RowSpacing", .rule "DecimalNumeral", .rule "InlineSpacing"]
  row_mem := mem_tables 1 rfl
  row_body := rfl
  items_lineless := by decide
  items_inLine := by decide
  keeps_heads _ := keepsMatching_title (by decide) .seq_nil
  keeps_row _ := keeps_lineRow.2

/-- The rule of local variable tables. -/
def variableShape : TableShape where
  heads := titleItems "LocalVariableTable:" ++ [.rule "LocalVariableColumns"]
  row := tables[4]
  items :=
    Expr.rules ["DecimalNumeral", "RowSpacing", "DecimalNumeral", "RowSpacing", "DecimalNumeral",
      "RowSpacing", "LocalName", "RowSpacing", "FieldDescriptor", "InlineSpacing"]
  row_mem := mem_tables 4 rfl
  row_body := rfl
  items_lineless := by decide
  items_inLine := by decide
  keeps_heads k :=
    keepsMatching_title (by decide) (keepsMatching_columns.seq (late_of_reaches k) .seq_nil)
  keeps_row _ := keeps_variableRow.2

theorem body_lineTable :
  tables[0].body = lineShape.body
  := rfl

theorem body_variableTable :
  tables[2].body = variableShape.body
  := rfl

/-- The end of a table: its last row, which is some characters in a line and a line end, and the
blank line behind it. -/
structure TableEnd (shape : TableShape) (here there : Cursor) where
  first : Cursor
  last : Cursor
  lineStop : Cursor
  next : Cursor
  line : List Char
  ending : List Char
  blank : List Char
  heads_match : ∃ ms, Derives draft.body? (.seq shape.heads) here (some first) ms
  rounds : Rounds draft.body? (.rule shape.row.name) first last
  items_match : ∃ ms,
    Derives draft.body? (.seq (.rule "RowSpacing" :: shape.items)) last (some lineStop) ms
  line_passes : last.Passes line lineStop
  line_nonempty : line ≠ []
  line_inOneLine : Text.InOneLine line
  ending_passes : lineStop.Passes ending next
  ending_ends : Text.EndsLine ending next.rest
  blank_passes : next.Passes blank there
  blank_ends : Text.EndsLine blank there.rest

section

variable {source : String} {shape : TableShape} {here there : Cursor} {ns : List Node}

theorem TableShape.exists_end (h : Grows draft shape.body here there ns) :
  Nonempty (TableEnd shape here there)
  := by
  obtain ⟨next, _, _, -, h, hnewline⟩ := h.of_seq_append
  obtain ⟨_, blank, hblank, hpassesBlank, hnil⟩ := seq_of_newline hnewline
  obtain ⟨rfl, -⟩ := hnil.of_seq_nil
  obtain ⟨first, _, _, -, hheads, h⟩ := h.of_seq_append
  obtain ⟨_, _, _, -, hplus, hnil⟩ := h.of_seq_cons
  obtain ⟨rfl, -⟩ := hnil.of_seq_nil
  obtain ⟨last, _, hrounds, hrow, -⟩ := exists_last_of_plus hplus
  obtain ⟨_, hrow⟩ := body_of_rule shape.row_mem hrow
  rw [shape.row_body] at hrow
  obtain ⟨lineStop, _, _, -, hitems, hnewline⟩ := hrow.of_seq_append
  obtain ⟨_, ending, hending, hpasses, hnil⟩ := seq_of_newline hnewline
  obtain ⟨rfl, -⟩ := hnil.of_seq_nil
  obtain ⟨_, gap, hne, hspacing, hgap, hrest⟩ := seq_of_rowSpacing hitems
  obtain ⟨cs, hcs, hone⟩ := hrest.of_parts (Cursor.PassesOnly.refl _)
    (fun _ _ _ => Cursor.PassesOnly.trans) madeOf_isRowPart
    (fun _ _ _ _ => passesOnly_of_readsNoLineEnd) shape.items_inLine
  constructor
  exact
    { first := first
      last := last
      lineStop := lineStop
      next := next
      line := gap ++ cs
      ending := ending
      blank := blank
      heads_match := hheads.derives
      rounds := hrounds
      items_match := hitems.derives
      line_passes := hgap.append hcs
      line_nonempty := by simp [hne]
      line_inOneLine := Text.inOneLine_append.mpr ⟨hspacing.inOneLine, hone⟩
      ending_passes := hpasses
      ending_ends := hending
      blank_passes := hpassesBlank
      blank_ends := hblank }

namespace TableEnd

variable (e : TableEnd shape here there) (hquote : there.rest.head? ≠ some '\x27')

/-- The blank line is left out. -/
def omission : Omission where
  ending := e.ending
  omitted := e.blank
  rest := there.rest
  ends := by
    rw [← e.blank_passes.1]
    exact e.ending_ends
  omitted_ends := e.blank_ends
  not_quote := hquote

theorem rest_lineStop :
  e.lineStop.rest = (e.omission hquote).whole []
  := by
  rw [e.ending_passes.1, e.blank_passes.1]
  rfl

theorem reaches_last :
  here.Reaches e.last
  := by
  obtain ⟨_, hheads⟩ := e.heads_match
  exact (hheads.reaches _ rfl).trans e.rounds.reaches

theorem not_isLate_of_reaches {mid : Cursor} (h : mid.Reaches e.last) :
  ¬ (e.omission hquote).IsLate mid
  := by
  intro hlate
  apply not_isLate (e.rest_lineStop hquote)
  apply isLate_of_reaches (h.trans e.line_passes.reaches) hlate

/-- The starts of a text and of the text without the blank line are beside one another. -/
theorem beside_start {table : Node} (hstart : (Cursor.atStart source).Reaches here)
    (hspan : table.span = ⟨here.offset, there.offset⟩) :
  (e.omission hquote).Beside (.atStart source) (.atStart (withoutLineEnd source table))
  := by
  obtain ⟨before, hbefore⟩ := hstart
  obtain ⟨above, habove⟩ := e.reaches_last
  have habove : here.Passes (above ++ e.line) e.lineStop := Cursor.Passes.append habove e.line_passes
  have hpasses := (habove.append e.ending_passes).append e.blank_passes
  have hdrop : Text.dropLineEnd (above ++ e.line ++ e.ending ++ e.blank)
      = above ++ e.line ++ e.ending := by
    apply Text.dropLineEnd_append e.blank_ends.mem
    intro hblank
    have hends := e.ending_ends
    rw [e.blank_passes.1] at hends
    apply hends.getLast?_ne hblank
  have hshort := toList_withoutLineEnd hbefore hpasses hspan
  rw [hdrop] at hshort
  apply Beside.before (s := before ++ (above ++ e.line))
  · intro c hc
    rw [← List.append_assoc, List.getLast?_append_of_ne_nil _ e.line_nonempty] at hc
    apply e.line_inOneLine c (List.mem_of_getLast? hc)
  · have hwhole := (Cursor.Passes.append hbefore habove).1
    rw [e.rest_lineStop hquote, ← whole_append, List.append_nil] at hwhole
    exact hwhole
  · have hrest : (Cursor.atStart (withoutLineEnd source table)).rest
        = (withoutLineEnd source table).toList := rfl
    rw [hrest, hshort, short]
    simp [omission]

/-! ### What is left behind the last row -/

variable {here' : Cursor}

/-- The last row is read up to where the blank line was. -/
theorem exists_row {last' : Cursor} (hrel : (e.omission hquote).Beside e.last last') :
  ∃ there' ms, Derives draft.body? (.rule shape.row.name) last' (some there') ms
    ∧ (e.omission hquote).IsLeft there'.rest
  := by
  obtain ⟨_, hitems⟩ := e.items_match
  obtain ⟨_, _, hitems, hstop⟩ := corresponds_of_lineless shape.items_lineless hrel hitems
  cases hstop with
  | @some _ lineStop' hstop =>
      obtain ⟨ending, left, heq, hends, hleft⟩ := (e.omission hquote).exists_short_ending
      obtain ⟨there', _, hnewline, rfl⟩ :=
        exists_newline hends ((hstop.rest_eq (e.rest_lineStop hquote)).trans heq)
      obtain ⟨_, hrow⟩ := hitems.seq_append (.seqNext hnewline .seqNil)
      rw [← shape.row_body] at hrow
      exact ⟨there', _, .rule (body?_of_mem shape.row_mem) hrow, hleft⟩

/-- Where no row follows, the table is read up to where the blank line was. -/
theorem exists_listed (hrel : (e.omission hquote).Beside here here')
    (hstop : ∀ left, (e.omission hquote).IsLeft left →
      ∀ source, Refuses draft source (.rule shape.row.name) left) :
  ∃ there' ms, Derives draft.body? (.seq shape.listed) here' (some there') ms
    ∧ (e.omission hquote).IsLeft there'.rest
  := by
  have hlate := late_of_reaches (e.omission hquote)
  obtain ⟨_, hheads⟩ := e.heads_match
  obtain ⟨first', _, hheads, hfirst⟩ := shape.keeps_heads _ hrel hheads
    (e.not_isLate_of_reaches hquote e.rounds.reaches)
  obtain ⟨last', hrounds, hlast⟩ := e.rounds.keepsMatching hlate (shape.keeps_row _) hfirst
    (e.not_isLate_of_reaches hquote (.refl _))
  obtain ⟨there', _, hrow, hleft⟩ := e.exists_row hquote hlast
  obtain ⟨source', hthere⟩ := exists_source there'
  obtain ⟨_, hplus⟩ := hrounds.plus hrow (hstop _ hleft source' there' hthere rfl)
  obtain ⟨_, hlisted⟩ := hheads.seq_append (.seqNext hplus .seqNil)
  exact ⟨there', _, hlisted, hleft⟩

end TableEnd

end

end ClassTranscript.Transcript
