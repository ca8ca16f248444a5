import ClassTranscript.Proofs.Transcript.Reading
import ClassTranscript.Proofs.Transcript.Rows

/-!
# Tables line by line

A table of a member is lines that follow one another in the text: those of its headings, one for
each of its rows, and an empty one (`TableLines`). The tables of a member follow its signature
(`MemberTables`), and the entries of its record are what the lines of the rows say.
-/

namespace ClassTranscript.Transcript

open Peg

/-! ### Tables in lines -/

/-- The line has a title in it and nothing else but spacing. -/
def IsTitle (title : String) (content : List Char) : Prop :=
  ∃ before after, IsSpacing before ∧ IsSpacing after
    ∧ content = before ++ (title.toList ++ after)

/-- The words above the columns of a local variable table. -/
def variableColumns : List (List Char) :=
  ["Start".toList, "Length".toList, "Slot".toList, "Name".toList, "Signature".toList]

/-- The lines of a table with rows of a label: one for each heading, one for each row and an empty
line. What the row nodes are in the lines that they cover is said by `shows`. -/
structure TableLines (source label : String) (headings : List (List Char → Prop))
    (shows : Node → List Char → Prop) (table : Node) where
  /-- The number of the first line. -/
  first : Nat
  heads : List Line
  rows : List Line
  blank : Line
  consecutive : Consecutive source first (heads ++ (rows ++ [blank]))
  start_eq : (LineTable.ofText source).starts[first]? = some table.span.start
  heads_eq : List.Forall₂ (fun heading line => heading line.content) headings heads
  rows_eq : List.Forall₂ (fun row line => row.span = line.span ∧ shows row line.content)
    (table.findAll label) rows
  rows_nonempty : rows ≠ []
  blank_eq : blank.content = []
  stop_eq : table.span.stop = blank.span.stop

/-- The lines of a line number table. -/
abbrev LineNumberLines (source : String) (table : Node) : Type :=
  TableLines source "LineNumberRow" [IsTitle "LineNumberTable:"]
    (Reads LineNumber.IsWritten (lineNumber source)) table

/-- The lines of a local variable table. -/
abbrev LocalVariableLines (source : String) (table : Node) : Type :=
  TableLines source "LocalVariableRow" [IsTitle "LocalVariableTable:", InColumns variableColumns]
    (Reads LocalVariable.IsWritten (localVariable source)) table

/-- The tables of a member in their lines. The first begins where the signature ends, and the second
where the first ends. -/
structure MemberTables (source : String) (member : Node) where
  signature : Node
  lines : Node
  locals : Node
  signature_eq : member.child? "MemberSignature" = some signature
  lines_eq : member.child? "LineNumberTable" = some lines
  locals_eq : member.child? "LocalVariableTable" = some locals
  lines_start : lines.span.start = signature.span.stop
  locals_start : locals.span.start = lines.span.stop
  lineNumbers : LineNumberLines source lines
  localVariables : LocalVariableLines source locals

section

variable {source : String} {here there : Cursor} {items : List Expr} {ns : List Node} {n : Nat}

/-! ### Headings -/

theorem seq_of_title {title : String} (htitle : Text.InOneLine title.toList)
    (h : Grows draft (.seq (.rule "InlineSpacing" :: .literal title :: .rule "InlineSpacing"
      :: .rule "Newline" :: items)) here there ns) :
  ∃ mid, ∃ line : Line, here.PassesLine line mid ∧ IsTitle title line.content
    ∧ Grows draft (.seq items) mid there ns
  := by
  obtain ⟨_, before, hbefore, hpassesBefore, h⟩ := seq_of_inlineSpacing h
  obtain ⟨_, hliteral, h⟩ := h.of_seq_literal
  obtain ⟨_, after, hafter, hpassesAfter, h⟩ := seq_of_inlineSpacing h
  obtain ⟨mid, ending, hends, hending, h⟩ := seq_of_newline h
  have hline : Text.InOneLine (before ++ (title.toList ++ after)) := by
    rw [Text.inOneLine_append, Text.inOneLine_append]
    exact ⟨hbefore.inOneLine, htitle, hafter.inOneLine⟩
  have hpasses := (hpassesBefore.append (hliteral.append hpassesAfter)).append hending
  exact ⟨mid, ⟨_, _⟩, ⟨rfl, hline, ending, hends, hpasses⟩,
    ⟨before, after, hbefore, hafter, rfl⟩, h⟩

theorem seq_of_columns
    (h : Grows draft (.seq (.rule "LocalVariableColumns" :: items)) here there ns) :
  ∃ mid, ∃ line : Line, here.PassesLine line mid ∧ InColumns variableColumns line.content
    ∧ Grows draft (.seq items) mid there ns
  := by
  obtain ⟨mid, _, hcolumns, h⟩ := seq_of_hidden (mem_tables 3 rfl) rfl h
  obtain ⟨_, hstart, hcolumns⟩ := seq_of_word hcolumns
  obtain ⟨_, hlength, hcolumns⟩ := seq_of_word hcolumns
  obtain ⟨_, hslot, hcolumns⟩ := seq_of_word hcolumns
  obtain ⟨_, hname, hcolumns⟩ := seq_of_word hcolumns
  obtain ⟨_, hsignature, hcolumns⟩ := seq_of_word hcolumns
  have hrow := RowFrom.next hstart (.next hlength (.next hslot (.next hname (.next hsignature
    (rowFrom_nil hcolumns).1))))
  obtain ⟨line, hpasses, hcolumns⟩ := hrow.exists_line (by decide)
  exact ⟨mid, line, hpasses, hcolumns, h⟩

/-! ### Rows -/

/-- The rule of a name makes nodes that cover lines. -/
def RowRule (source : String) (x : Definition) (shows : Node → List Char → Prop) : Prop :=
  ∀ here there row, Covers source x here there row →
    ∃ line : Line, here.PassesLine line there ∧ shows row line.content

variable {x : Definition} {shows : Node → List Char → Prop}

/-- Rows after one another are lines after one another. -/
theorem rows_of_star (hx : x ∈ allDefinitions) (hhidden : x.hidden = false)
    (hrow : RowRule source x shows) (hstart : (Cursor.atStart source).Reaches here)
    (h : Grows draft (.star (.rule x.name)) here there ns) :
  ∃ rows, here.PassesLines rows there
    ∧ List.Forall₂ (fun row line => row.span = line.span ∧ shows row line.content) ns rows
  := by
  generalize hstar : Expr.star (.rule x.name) = e at h
  induction h with
  | starStop _ => exact ⟨[], .nil, .nil⟩
  | starNext hround _ _ ih =>
      obtain rfl := Expr.star.inj hstar
      obtain ⟨row, rfl, hnode⟩ := node_of_rule hx hhidden hstart hround
      obtain ⟨line, hline, hshows⟩ := hrow _ _ _ hnode
      obtain ⟨rows, hrows, hall⟩ := ih (hstart.trans hround.reaches) rfl
      exact ⟨line :: rows, .cons hline hrows,
        .cons ⟨hnode.span_eq.trans hline.span_eq.symm, hshows⟩ hall⟩
  | reads hreads =>
      subst hstar
      contradiction
  | _ => cases hstar

/-- The rows of a table and the empty line after them. -/
theorem rows_of_grows (hx : x ∈ allDefinitions) (hhidden : x.hidden = false)
    (hrow : RowRule source x shows) (hstart : (Cursor.atStart source).Reaches here)
    (h : Grows draft (.seq [.plus (.rule x.name), .rule "Newline"]) here there ns) :
  ∃ rows blank, here.PassesLines (rows ++ [blank]) there ∧ rows ≠ [] ∧ blank.content = []
    ∧ blank.span.stop = there.offset
    ∧ List.Forall₂ (fun row line => row.span = line.span ∧ shows row line.content) ns rows
  := by
  obtain ⟨mid, _, _, rfl, hplus, hnewline⟩ := h.of_seq_cons
  obtain ⟨_, _, _, rfl, hround, hstar⟩ := hplus.of_plus
  obtain ⟨row, rfl, hnode⟩ := node_of_rule hx hhidden hstart hround
  obtain ⟨line, hline, hshows⟩ := hrow _ _ _ hnode
  obtain ⟨rows, hrows, hall⟩ := rows_of_star hx hhidden hrow (hstart.trans hround.reaches) hstar
  obtain ⟨_, ending, hends, hending, hnil⟩ := seq_of_newline hnewline
  obtain ⟨rfl, rfl⟩ := hnil.of_seq_nil
  rw [List.append_nil]
  refine ⟨line :: rows, ⟨⟨mid.offset, there.offset⟩, []⟩, ?_, by simp, rfl, rfl,
    .cons ⟨hnode.span_eq.trans hline.span_eq.symm, hshows⟩ hall⟩
  apply (Cursor.PassesLines.cons hline hrows).append
  exact .cons ⟨rfl, by simp [Text.InOneLine], ending, hends, hending⟩ .nil

/-! ### Tables -/

/-- Headings, rows and an empty line are the lines of a table, and behind them a line starts. -/
theorem exists_tableLines {table : Node} {label : String} {headings : List (List Char → Prop)}
    {heads : List Line} {mid : Cursor} (hx : x ∈ allDefinitions) (hhidden : x.hidden = false)
    (hrow : RowRule source x shows) (hat : here.AtLine source n)
    (hspan : table.span = ⟨here.offset, there.offset⟩) (hrows : table.findAll label = ns)
    (hheads : here.PassesLines heads mid)
    (hall : List.Forall₂ (fun heading line => heading line.content) headings heads)
    (h : Grows draft (.seq [.plus (.rule x.name), .rule "Newline"]) mid there ns) :
  Nonempty (TableLines source label headings shows table) ∧ ∃ m, there.AtLine source m
  := by
  obtain ⟨rows, blank, hpasses, hne, hblank, hstop, hcovered⟩ :=
    rows_of_grows hx hhidden hrow (hat.reaches.trans hheads.reaches) h
  obtain ⟨hconsecutive, hnext⟩ := hat.passes (hheads.append hpasses)
  refine ⟨⟨?_⟩, _, hnext⟩
  exact
    { first := n
      heads := heads
      rows := rows
      blank := blank
      consecutive := hconsecutive
      start_eq := by
        rw [hspan, ← Nat.add_zero n, ← List.getElem?_drop, hat.starts_eq]
        rfl
      heads_eq := hall
      rows_eq := hrows ▸ hcovered
      rows_nonempty := hne
      blank_eq := hblank
      stop_eq := by rw [hspan, hstop] }

theorem lineRow_rule (source : String) :
  RowRule source tables[1] (Reads LineNumber.IsWritten (lineNumber source))
  := fun _ _ _ => Covers.lineRow

theorem variableRow_rule (source : String) :
  RowRule source tables[4] (Reads LocalVariable.IsWritten (localVariable source))
  := fun _ _ _ => Covers.variableRow

/-- A line number table from the start of a line on. -/
theorem Covers.lineTable {table : Node} (hat : here.AtLine source n)
    (h : Covers source tables[0] here there table) :
  Nonempty (LineNumberLines source table) ∧ ∃ m, there.AtLine source m
  := by
  obtain ⟨_, hchildren, hgrows⟩ := h.grows
  obtain ⟨_, line, hline, htitle, hgrows⟩ := seq_of_title (by decide) hgrows
  have hrows : table.findAll "LineNumberRow" = table.children := by
    rw [findAll_eq_pick, Made.pick_lines (beq_mem (by decide)) h.made]
    rfl
  apply exists_tableLines (mem_tables 1 rfl) rfl (lineRow_rule source) hat h.span_eq
    (hrows.trans hchildren) (.cons hline .nil) (.cons htitle .nil) hgrows

/-- A local variable table from the start of a line on. -/
theorem Covers.variableTable {table : Node} (hat : here.AtLine source n)
    (h : Covers source tables[2] here there table) :
  Nonempty (LocalVariableLines source table)
  := by
  obtain ⟨_, hchildren, hgrows⟩ := h.grows
  obtain ⟨_, line, hline, htitle, hgrows⟩ := seq_of_title (by decide) hgrows
  obtain ⟨_, columns, hcolumns, hwords, hgrows⟩ := seq_of_columns hgrows
  have hrows : table.findAll "LocalVariableRow" = table.children := by
    rw [findAll_eq_pick, Made.pick_locals (beq_mem (by decide)) h.made]
    rfl
  obtain ⟨hlines, -⟩ := exists_tableLines (mem_tables 4 rfl) rfl (variableRow_rule source) hat
    h.span_eq (hrows.trans hchildren) (.cons hline (.cons hcolumns .nil))
    (.cons htitle (.cons hwords .nil)) hgrows
  exact hlines

/-! ### Members -/

/-- A signature ends with a line. -/
theorem exists_atLine_of_signature (hstart : (Cursor.atStart source).Reaches here)
    (h : Grows draft members[2].body here there ns) :
  ∃ m, there.AtLine source m
  := by
  obtain ⟨_, _, _, -, hmodifiers, h⟩ := h.of_seq_cons
  obtain ⟨_, _, _, -, hparameters, h⟩ := h.of_seq_cons
  obtain ⟨_, _, _, -, hshape, h⟩ := h.of_seq_cons
  obtain ⟨_, hsemicolon, h⟩ := h.of_seq_only
  obtain ⟨_, _, -, hspacing, h⟩ := seq_of_inlineSpacing h
  obtain ⟨_, ending, hends, hending, h⟩ := seq_of_newline h
  obtain ⟨rfl, -⟩ := h.of_seq_nil
  have hshape := (hmodifiers.reaches.trans hparameters.reaches).trans hshape.reaches
  have hline := (hsemicolon.append hspacing).reaches
  exact Cursor.exists_atLine ((hstart.trans hshape).trans hline) hends hending

/-- Where the parts of a member stand, one behind the other. -/
structure MemberPlaces (source : String) (here there : Cursor) (member : Node) where
  signature : Node
  lines : Node
  locals : Node
  behindFields : Cursor
  behindSignature : Cursor
  behindLines : Cursor
  behindLocals : Cursor
  fields_grow : ∃ ns, Grows draft (.star (.rule "JavapField")) here behindFields ns
  signature_covers : Covers source members[2] behindFields behindSignature signature
  lines_covers : Covers source tables[0] behindSignature behindLines lines
  locals_covers : Covers source tables[2] behindLines behindLocals locals
  line_ends : ∃ ending, Text.EndsLine ending there.rest ∧ behindLocals.Passes ending there
  signature_eq : member.child? "MemberSignature" = some signature
  lines_eq : member.child? "LineNumberTable" = some lines
  locals_eq : member.child? "LocalVariableTable" = some locals

theorem Covers.exists_places {member : Node} (h : Covers source members[0] here there member) :
  Nonempty (MemberPlaces source here there member)
  := by
  obtain ⟨parts⟩ := h.made.exists_parts
  obtain ⟨_, hchildren, hgrows⟩ := h.grows
  obtain ⟨behindFields, fields, _, rfl, hfields, hgrows⟩ := hgrows.of_seq_cons
  have hstart := h.reaches.trans hfields.reaches
  obtain ⟨behindSignature, signature, _, rfl, hsignature, hgrows⟩ :=
    seq_of_node (mem_members 2 rfl) rfl hstart hgrows
  obtain ⟨behindLines, lines, _, rfl, hlines, hgrows⟩ :=
    seq_of_node (mem_tables 0 rfl) rfl hsignature.reaches_stop hgrows
  obtain ⟨behindLocals, locals, _, rfl, hlocals, hgrows⟩ :=
    seq_of_node (mem_tables 2 rfl) rfl hlines.reaches_stop hgrows
  obtain ⟨_, ending, hends, hending, hnil⟩ := seq_of_newline hgrows
  obtain ⟨rfl, rfl⟩ := hnil.of_seq_nil
  -- the nodes found here are the last three children, and so are those of `parts`
  have hlast := List.append_inj_right' (parts.children_eq.symm.trans hchildren) rfl
  simp only [List.cons.injEq, and_true] at hlast
  obtain ⟨hsame, hsameLines, hsameLocals⟩ := hlast
  obtain ⟨hsignatureEq, hlinesEq, hlocalsEq⟩ := parts.child?_eq
  constructor
  exact
    { signature := signature
      lines := lines
      locals := locals
      behindFields := behindFields
      behindSignature := behindSignature
      behindLines := behindLines
      behindLocals := behindLocals
      fields_grow := ⟨fields, hfields⟩
      signature_covers := hsignature
      lines_covers := hlines
      locals_covers := hlocals
      line_ends := ⟨ending, hends, hending⟩
      signature_eq := hsame ▸ hsignatureEq
      lines_eq := hsameLines ▸ hlinesEq
      locals_eq := hsameLocals ▸ hlocalsEq }

/-- The tables of a member follow its signature, line by line. -/
theorem Made.exists_tables {member : Node} (h : Made (.atStart source) "JavapMember" member) :
  Nonempty (MemberTables source member)
  := by
  obtain ⟨here, there, hmember⟩ := h.exists_covers (mem_members 0 rfl)
  obtain ⟨p⟩ := hmember.exists_places
  obtain ⟨_, -, hbody⟩ := p.signature_covers.grows
  obtain ⟨m, hat⟩ := exists_atLine_of_signature p.signature_covers.reaches hbody
  obtain ⟨⟨lineNumbers⟩, n, hnext⟩ := p.lines_covers.lineTable hat
  obtain ⟨localVariables⟩ := p.locals_covers.variableTable hnext
  constructor
  exact
    { signature := p.signature
      lines := p.lines
      locals := p.locals
      signature_eq := p.signature_eq
      lines_eq := p.lines_eq
      locals_eq := p.locals_eq
      lines_start := by rw [p.lines_covers.span_eq, p.signature_covers.span_eq]
      locals_start := by rw [p.locals_covers.span_eq, p.lines_covers.span_eq]
      lineNumbers := lineNumbers
      localVariables := localVariables }

/-- The tables of a member are all that there are in it. -/
theorem Made.findAll_tables {member lines locals : Node}
    (h : Made (.atStart source) "JavapMember" member)
    (hlines : member.child? "LineNumberTable" = some lines)
    (hlocals : member.child? "LocalVariableTable" = some locals) :
  member.findAll "LineNumberTable" = [lines] ∧ member.findAll "LocalVariableTable" = [locals]
  := by
  obtain ⟨parts⟩ := h.exists_parts
  obtain ⟨-, hlines', hlocals'⟩ := parts.child?_eq
  rw [← Option.some.inj (hlines'.symm.trans hlines), ← Option.some.inj (hlocals'.symm.trans hlocals)]
  constructor <;> rw [findAll_eq_pick, parts.pick_parts (beq_mem (by decide)) h,
    parts.made_lines.pick_lines (beq_mem (by decide)),
    parts.made_locals.pick_locals (beq_mem (by decide))] <;> simp

namespace MemberTables

variable {member : Node} (t : MemberTables source member)
  (h : Made (.atStart source) "JavapMember" member)

include h

/-- The rows in a member are those of its tables. -/
theorem findAll_rows :
  member.findAll "LineNumberRow" = t.lines.findAll "LineNumberRow"
    ∧ member.findAll "LocalVariableRow" = t.locals.findAll "LocalVariableRow"
  := by
  obtain ⟨parts⟩ := h.exists_parts
  obtain ⟨-, hlines, hlocals⟩ := parts.child?_eq
  rw [← Option.some.inj (hlines.symm.trans t.lines_eq),
    ← Option.some.inj (hlocals.symm.trans t.locals_eq)]
  constructor
  · rw [findAll_eq_pick, parts.pick_parts (beq_mem (by decide)) h,
      parts.made_locals.pick_locals (beq_mem (by decide))]
    simp [findAll_eq_pick]
  · rw [findAll_eq_pick, parts.pick_parts (beq_mem (by decide)) h,
      parts.made_lines.pick_lines (beq_mem (by decide))]
    simp [findAll_eq_pick]

end MemberTables

/-! ### Entries -/

/-- Of all entries the line of a row is written as this one. -/
def IsEntryOf {α : Type} (written : α → List Char → Prop) (entry : α) (line : Line) : Prop :=
  ∀ e, written e line.content ↔ e = entry

/-- The entries of a member are what the lines of the rows in its tables are written as. -/
structure MemberTables.Shows {member : Node} (t : MemberTables source member) (m : MemberRecord) :
    Prop where
  lineNumbers : List.Forall₂ (IsEntryOf LineNumber.IsWritten) m.lineNumbers t.lineNumbers.rows
  localVariables : List.Forall₂ (IsEntryOf LocalVariable.IsWritten) m.localVariables
    t.localVariables.rows

/-- What rows are read as is written in their lines. -/
theorem written_of_reads {α : Type} {written : α → List Char → Prop} {read : Node → Projected α}
    {rows : List Node} {entries : List α} {lines : List Line}
    (hunique : ∀ e e' content, written e content → written e' content → e = e')
    (hread : List.Forall₂ (fun row entry => read row = .ok entry) rows entries)
    (hlines : List.Forall₂ (fun row line => row.span = line.span
      ∧ Reads written read row line.content) rows lines) :
  List.Forall₂ (IsEntryOf written) entries lines
  := by
  induction hread generalizing lines with
  | nil =>
      cases hlines
      exact .nil
  | cons hentry _ ih =>
      cases hlines with
      | cons hline hlines =>
          obtain ⟨-, entry, hwritten, honly⟩ := hline
          obtain rfl := honly _ hentry
          apply List.Forall₂.cons _ (ih hlines)
          intro e
          constructor
          · intro he
            apply hunique _ _ _ he hwritten
          · rintro rfl
            apply hwritten

theorem MemberTables.shows_of_reflects {member : Node} (t : MemberTables source member)
    (h : Made (.atStart source) "JavapMember" member) {m : MemberRecord}
    (hm : ReflectsMember source member m) :
  t.Shows m
  := by
  obtain ⟨hlines, hlocals⟩ := t.findAll_rows h
  constructor
  · refine written_of_reads (fun _ _ _ => LineNumber.IsWritten.unique) hm.lineNumbers ?_
    rw [hlines]
    apply t.lineNumbers.rows_eq
  · refine written_of_reads (fun _ _ _ => LocalVariable.IsWritten.unique) hm.localVariables ?_
    rw [hlocals]
    apply t.localVariables.rows_eq

/-! ### Parsed transcripts -/

/-- The text of a row is a line with its line end. -/
theorem Made.exists_rowText {row : Node} (h : Made (.atStart source) row.label row)
    (hrow : isRow row.label = true) :
  ∃ content, Text.InOneLine content
    ∧ ∃ ending ∈ Text.lineEnds, row.text source = String.ofList (content ++ ending)
  := by
  have htext {x : Definition} {here there : Cursor} {line : Line}
      (hcovers : Covers source x here there row) (hline : here.PassesLine line there) :
      ∃ content, Text.InOneLine content
        ∧ ∃ ending ∈ Text.lineEnds, row.text source = String.ofList (content ++ ending) := by
    obtain ⟨-, hone, ending, hends, hpasses⟩ := hline
    exact ⟨_, hone, ending, hends.mem, hcovers.text_eq hpasses⟩
  rw [isRow, Bool.or_eq_true, beq_iff_eq, beq_iff_eq] at hrow
  rcases hrow with hlabel | hlabel
  · rw [hlabel] at h
    obtain ⟨_, _, hrow⟩ := h.exists_covers (mem_tables 1 rfl)
    obtain ⟨_, hline, -⟩ := hrow.lineRow
    apply htext hrow hline
  · rw [hlabel] at h
    obtain ⟨_, _, hrow⟩ := h.exists_covers (mem_tables 4 rfl)
    obtain ⟨_, hline, -⟩ := hrow.variableRow
    apply htext hrow hline

/-- What belongs to members is found in a member with tables. -/
theorem ClassParts.exists_tables {root found : Node} {label : String}
    (parts : ClassParts (.atStart source) root) (hlabel : label ∈ memberNames)
    (hfield : label ≠ "JavapField") (hroot : root.label ≠ label) (hmem : found ∈ root.findAll label) :
  ∃ member, Made (.atStart source) "JavapMember" member ∧ found ∈ member.findAll label
    ∧ Nonempty (MemberTables source member)
  := by
  rw [parts.findAll_eq hlabel hfield hroot] at hmem
  obtain ⟨member, hmember, hmem⟩ := List.mem_flatMap.mp hmem
  have hmember := parts.made_members member hmember
  exact ⟨member, hmember, hmem, hmember.exists_tables⟩

/-- Tables are read line by line. Each table of a parsed transcript is a line with its title, for
local variables a line with the columns, one line for each of its rows, and an empty line, and there
is no line end in a row but the one at its end. Where the transcript has a record the entries of each
member are the numbers, names and descriptors in the lines of the rows of the tables after its
signature. -/
theorem tables_of_parse {o : Options} {tree : Tree} {stats : Stats}
    (h : Peg.parse grammar o source = .matched tree stats) :
  (∀ table ∈ tree.root.findAll "LineNumberTable", Nonempty (LineNumberLines source table))
    ∧ (∀ table ∈ tree.root.findAll "LocalVariableTable", Nonempty (LocalVariableLines source table))
    ∧ (∀ row ∈ tree.root.descendants, isRow row.label = true →
      ∃ content, Text.InOneLine content
        ∧ ∃ ending ∈ Text.lineEnds, row.text source = String.ofList (content ++ ending))
    ∧ ∀ record, ClassRecord.ofTree source tree = .ok record →
      List.Forall₂ (fun member m => ∃ t : MemberTables source member, t.Shows m)
        (tree.root.findAll "JavapMember") record.members
  := by
  have hmade := made_of_parse h
  obtain ⟨parts⟩ := hmade.exists_classParts
  have hroot : tree.root.label ≠ "LineNumberTable" ∧ tree.root.label ≠ "LocalVariableTable" := by
    rw [hmade.label_eq]
    decide
  refine ⟨?_, ?_, ?_, ?_⟩
  · intro table hmem
    obtain ⟨member, hmember, hmem, ⟨t⟩⟩ :=
      parts.exists_tables (by decide) (by decide) hroot.1 hmem
    rw [(hmember.findAll_tables t.lines_eq t.locals_eq).1] at hmem
    rw [List.mem_singleton.mp hmem]
    exact ⟨t.lineNumbers⟩
  · intro table hmem
    obtain ⟨member, hmember, hmem, ⟨t⟩⟩ :=
      parts.exists_tables (by decide) (by decide) hroot.2 hmem
    rw [(hmember.findAll_tables t.lines_eq t.locals_eq).2] at hmem
    rw [List.mem_singleton.mp hmem]
    exact ⟨t.localVariables⟩
  · intro row hmem
    apply (hmade.descendant hmem).exists_rowText
  · intro record hrecord
    have hmembers := (hmade.reflects_class hrecord).members
    rw [parts.findAll_members hmade.label_eq] at hmembers ⊢
    apply List.Forall₂.imp _ ((List.forall₂_and_left _ _).mpr ⟨parts.made_members, hmembers⟩)
    rintro member m ⟨hmember, hm⟩
    obtain ⟨t⟩ := hmember.exists_tables
    exact ⟨t, t.shows_of_reflects hmember hm⟩

/-- The transcript of a class with a constructor has a record, and its tables stand in lines. -/
theorem tables_of_parse_greeter :
  ∃ o tree stats, Peg.parse grammar o (String.ofList (greeter.print .usual)) = .matched tree stats
    ∧ (∀ table ∈ tree.root.findAll "LineNumberTable",
      Nonempty (LineNumberLines (String.ofList (greeter.print .usual)) table))
    ∧ List.Forall₂
      (fun member m =>
        ∃ t : MemberTables (String.ofList (greeter.print .usual)) member, t.Shows m)
      (tree.root.findAll "JavapMember") (greeter.record .usual).members
  := by
  obtain ⟨n, hn⟩ := exists_parse_print greeter .usual
  obtain ⟨tree, stats, hparse, hrecord⟩ :=
    hn { limits := ⟨n, n, n⟩ } (Nat.le_refl n) (Nat.le_refl n) (Nat.le_refl n)
  obtain ⟨hlines, -, -, hshow⟩ := tables_of_parse hparse
  exact ⟨_, tree, stats, hparse, hlines, hshow _ hrecord⟩

end

end ClassTranscript.Transcript
