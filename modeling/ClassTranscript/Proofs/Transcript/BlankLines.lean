import ClassTranscript.Proofs.Transcript.TableEnds
import ClassTranscript.Proofs.Transcript.Tables

/-!
# Blank lines behind tables

Each table ends with a blank line, and a transcript without one of these is none: where the text of a
parsed transcript goes on without the last line end of a table, no parse of it matches
(`mismatched_withoutLineEnd`). All that stands in front of the blank line is read as before. Then the
line number table or the member should end, but what comes next is neither a row nor a blank line
(`MemberPlaces.fails_of_lines`, `MemberPlaces.fails_of_locals`). Without the member the fields in
front of it are read as those behind the members, and the brace is missing
(`ClassPlaces.fails_of_member`).
-/

namespace ClassTranscript.Transcript

open Peg Omission

/-! ### Members with a table that does not end -/

section

variable {source : String} {here here' there : Cursor} {member : Node}

theorem Covers.derives {x : Definition} {node : Node} (h : Covers source x here there node)
    (hx : x ∈ allDefinitions) :
  ∃ ms, Derives draft.body? (.rule x.name) here (some there) ms
  := by
  obtain ⟨_, -, hgrows⟩ := h.grows
  obtain ⟨_, hderives⟩ := hgrows.derives
  exact ⟨_, .rule (body?_of_mem hx) hderives⟩

/-- The fields before a member and its signature. -/
def memberItems : List Expr :=
  [.star (.rule "JavapField"), .rule "MemberSignature"]

/-- The tables of a member and the blank line behind them. -/
def tableItems : List Expr :=
  Expr.rules ["LineNumberTable", "LocalVariableTable", "Newline"]

theorem fails_member {mid : Cursor} {ms : List Miss}
    (hfront : Derives draft.body? (.seq memberItems) here (some mid) ms)
    (h : Fails draft.body? (.seq tableItems) mid) :
  Fails draft.body? (.rule "JavapMember") here
  := by
  have hbody : Fails draft.body? (.seq (memberItems ++ tableItems)) here := .seq_append hfront h
  apply Fails.rule (body?_of_mem (mem_members 0 rfl))
  exact hbody

/-- What stands in front of the tables of a member is read as before. -/
theorem MemberPlaces.exists_beside_signature (p : MemberPlaces source here there member)
    {k : Omission} (hnot : ¬ k.IsLate p.behindSignature) (hrel : k.Beside here here') :
  ∃ behind' ms, Derives draft.body? (.seq memberItems) here' (some behind') ms
    ∧ k.Beside p.behindSignature behind'
  := by
  have hlate := late_of_reaches k
  obtain ⟨_, hfields⟩ := p.fields_grow
  obtain ⟨_, hfields⟩ := hfields.derives
  obtain ⟨_, hsignature⟩ := p.signature_covers.derives (mem_members 2 rfl)
  have hfront : Derives draft.body? (.seq memberItems) here (some p.behindSignature) _ :=
    .seqNext hfields (.seqNext hsignature .seqNil)
  apply keepsMatching_fields.seq hlate (keepsMatching_signature.seq hlate .seq_nil) hrel hfront hnot

/-- The title of the second table comes next behind the first. -/
theorem exists_title {ns : List Node} (h : Grows draft tables[2].body here there ns) :
  ∃ gap tail, IsSpacing gap ∧ here.rest = gap ++ 'L' :: tail
  := by
  obtain ⟨_, gap, hspacing, hgap, h⟩ := seq_of_inlineSpacing h
  obtain ⟨next, htitle, -⟩ := h.of_seq_literal
  refine ⟨gap, "ocalVariableTable:".toList ++ next.rest, hspacing, ?_⟩
  rw [hgap.1, htitle.1]
  rfl

theorem clearOf_spaced {set : String} {gap tail : List Char} {c : Char} (h : IsSpacing gap)
    (hset : ∀ x ∈ c :: " \t".toList, x ∉ set.toList) :
  ClearOf set (gap ++ c :: tail)
  := by
  intro x hx
  apply hset
  cases gap with
  | nil =>
      cases hx
      apply List.mem_cons_self
  | cons y gap =>
      cases hx
      exact List.mem_cons_of_mem _ (h _ List.mem_cons_self)

/-- A title is no row of a line number table. -/
theorem refuses_lineRow_of_title {gap tail : List Char} (h : IsSpacing gap) :
  Refuses draft source (.rule "LineNumberRow") (gap ++ 'L' :: tail)
  := by
  cases gap with
  | nil => exact (refuses_row (clearOf_cons.mpr (by decide))).1
  | cons c gap =>
      have hspacing : Takes draft source (.rule "RowSpacing") (c :: gap) ('L' :: tail) NoNodes := by
        apply takes_hidden (mem_layout 2 rfl) rfl
        apply takes_plus_chars (by simp) _ (not_holds_anyOf (clearOf_cons.mpr (by decide)))
        exact fun x hx => List.contains_iff_mem.mpr (h x hx)
      apply refuses_rule (mem_tables 1 rfl)
      apply hspacing.refuses_seq
      apply (refuses_of_head (c := 'l') (by decide) _).seq
      rintro _ ⟨⟩
      decide

/-- A member is refused where the blank line of its line number table is left out: the title of the
other table stands where the blank line should. -/
theorem MemberPlaces.fails_of_lines (p : MemberPlaces source here there member)
    (e : TableEnd lineShape p.behindSignature p.behindLines) :
  ∃ hquote, ∀ here', (e.omission hquote).Beside here here' →
    Fails draft.body? (.rule "JavapMember") here'
  := by
  obtain ⟨_, -, hlocals⟩ := p.locals_covers.grows
  obtain ⟨gap, tail, hspacing, hrest⟩ := exists_title hlocals
  have hclear : ClearOf "\r\n\x27" p.behindLines.rest := by
    rw [hrest]
    exact clearOf_spaced hspacing (by decide)
  have hquote : p.behindLines.rest.head? ≠ some '\x27' := fun hhead => hclear _ hhead (by decide)
  have hleft : ∀ left, (e.omission hquote).IsLeft left → left = p.behindLines.rest := by
    rintro left (rfl | hfeed)
    · rfl
    · have hfeed : p.behindLines.rest = '\n' :: left := hfeed
      exact absurd (by decide) (hclear '\n' (by rw [hfeed]; rfl))
  refine ⟨hquote, fun here' hrel => ?_⟩
  have hnot := e.not_isLate_of_reaches hquote e.reaches_last
  obtain ⟨behind', _, hfront, hbehind⟩ := p.exists_beside_signature hnot hrel
  obtain ⟨stop', _, hlisted, hstop⟩ := e.exists_listed hquote hbehind (by
    intro left hisLeft source
    rw [hleft left hisLeft, hrest]
    exact refuses_lineRow_of_title hspacing)
  have hnewline : Fails draft.body? (.rule "Newline") stop' := by
    apply fails_newline
    rw [hleft _ hstop]
    exact hclear.mono (by decide)
  have hbody : Fails draft.body? tables[0].body behind' := by
    rw [body_lineTable]
    exact .seq_append hlisted hnewline.seq_first
  have htable : Fails draft.body? (.rule "LineNumberTable") behind' := by
    apply Fails.rule (body?_of_mem (mem_tables 0 rfl))
    exact hbody
  exact fails_member hfront htable.seq_first

/-- Where a line end comes behind the table, that line end or the text behind it is left. -/
theorem left_cases {k : Omission} {ending rest left : List Char} (hends : Text.EndsLine ending rest)
    (hrest : k.rest = ending ++ rest) (h : k.IsLeft left) :
  left = ending ++ rest ∨ left = rest
  := by
  rcases h with rfl | hfeed
  · exact .inl hrest
  · rw [hrest] at hfeed
    obtain rfl := LineTable.eq_of_head?_append hends (by rw [hfeed]; rfl)
    exact .inr (List.cons.inj hfeed).2.symm

/-- A member is refused where the blank line of its local variable table is left out: the blank line
of the member stands there instead, and then that of the member is missing. -/
theorem MemberPlaces.fails_of_locals (p : MemberPlaces source here there member)
    (e : TableEnd variableShape p.behindLines p.behindLocals)
    (hclear : ClearOf " \t\r\n" there.rest) :
  ∃ hquote, ∀ here', (e.omission hquote).Beside here here' →
    Fails draft.body? (.rule "JavapMember") here'
  := by
  obtain ⟨ending, hends, hending⟩ := p.line_ends
  obtain ⟨c, cs, heq, hc, -⟩ := exists_cons_of_endsLine hends
  have hrest : p.behindLocals.rest = ending ++ there.rest := hending.1
  have hhead : p.behindLocals.rest.head? = some c := by
    rw [hrest, heq]
    rfl
  have hquote : p.behindLocals.rest.head? ≠ some '\x27' := by
    rw [hhead]
    rcases hc with rfl | rfl <;> simp
  have hrow : ∀ left, (e.omission hquote).IsLeft left →
      ∀ source, Refuses draft source (.rule variableShape.row.name) left := by
    intro left hleft source
    apply (refuses_row _).2
    rcases left_cases hends hrest hleft with rfl | rfl
    · rw [heq]
      apply clearOf_cons.mpr
      rcases hc with rfl | rfl <;> decide
    · exact hclear.mono (by decide)
  refine ⟨hquote, fun here' hrel => ?_⟩
  have hnot := e.not_isLate_of_reaches hquote e.reaches_last
  have hreaches : p.behindSignature.Reaches p.behindLines := by
    obtain ⟨_, -, hgrows⟩ := p.lines_covers.grows
    exact hgrows.reaches
  obtain ⟨behind', _, hfront, hbehind⟩ :=
    p.exists_beside_signature (fun hlate => hnot (isLate_of_reaches hreaches hlate)) hrel
  obtain ⟨_, hlines⟩ := p.lines_covers.derives (mem_tables 0 rfl)
  obtain ⟨lines', _, hlines, hbehind⟩ := keepsMatching_lineTable hbehind hlines hnot
  obtain ⟨stop', _, hlisted, hstop⟩ := e.exists_listed hquote hbehind hrow
  apply fails_member hfront
  apply Fails.seq_next hlines
  rcases left_cases hends hrest hstop with hstop | hstop
  · -- the blank line of the member closes the table
    obtain ⟨next', _, hnewline, hnext⟩ := exists_newline hends hstop
    obtain ⟨ms, hbody⟩ := hlisted.seq_append (.seqNext hnewline .seqNil)
    have hbody : Derives draft.body? tables[2].body lines' (some next') ms := by
      rw [body_variableTable]
      exact hbody
    have htable := Derives.rule (body?_of_mem (mem_tables 2 rfl)) hbody
    apply Fails.seq_next htable
    apply Fails.seq_first
    apply fails_newline
    rw [hnext]
    exact hclear.mono (by decide)
  · -- it has become part of the line end of the row
    have hnewline : Fails draft.body? (.rule "Newline") stop' := by
      apply fails_newline
      rw [hstop]
      exact hclear.mono (by decide)
    have hbody : Fails draft.body? tables[2].body lines' := by
      rw [body_variableTable]
      exact .seq_append hlisted hnewline.seq_first
    apply Fails.seq_first
    apply Fails.rule (body?_of_mem (mem_tables 2 rfl))
    exact hbody

/-! ### Transcripts with a member that is refused -/

variable {root : Node}

/-- What stands in front of the members of a class. -/
def frontItems : List Expr :=
  [.rule "SourceHeader", .rule "ClassHeader", .char (.only '\x7b'), .rule "Newline"]

theorem body_document :
  document[0].body = .seq (frontItems ++ .plus (.rule "JavapMember") :: backItems)
  := rfl

/-- Where the members of a class stand in a text. -/
structure ClassPlaces (text : String) (root : Node) extends ClassParts (.atStart text) root where
  behindHeader : Cursor
  behindMembers : Cursor
  stop : Cursor
  front_grows : ∃ ns, Grows draft (.seq frontItems) (.atStart text) behindHeader ns
  members_grow : Grows draft (.plus (.rule "JavapMember")) behindHeader behindMembers members
  back_grows : ∃ ns, Grows draft (.seq backItems) behindMembers stop ns

theorem exists_classPlaces
    (h : Grows draft document[0].body (.atStart source) there root.children) :
  Nonempty (ClassPlaces source root)
  := by
  rw [body_document] at h
  obtain ⟨behindHeader, _, _, hchildren, hfront, h⟩ := h.of_seq_append
  obtain ⟨behindMembers, ms, fs, rfl, hms, hback⟩ := h.of_seq_cons
  obtain ⟨_, header, _, rfl, hsource, h⟩ := seq_of_node (mem_document 1 rfl) rfl (.refl _) hfront
  obtain ⟨_, kind, _, rfl, hheader, h⟩ :=
    seq_of_node (mem_classHeader 0 rfl) rfl hsource.reaches_stop h
  obtain ⟨_, -, h⟩ := h.of_seq_only
  obtain ⟨_, _, -, -, hnil⟩ := seq_of_newline h
  obtain ⟨-, rfl⟩ := hnil.of_seq_nil
  constructor
  exact
    { source := header
      header := kind
      members := ms
      fields := fs
      children_eq := hchildren
      made_source := hsource.made
      made_header := hheader.made
      made_members := made_of_plus (mem_members 0 rfl) rfl ⟨_, _, hfront.reaches, hms⟩
      made_fields := made_of_backItems ⟨_, _, hfront.reaches.trans hms.reaches, hback⟩
      behindHeader := behindHeader
      behindMembers := behindMembers
      stop := there
      front_grows := ⟨_, hfront⟩
      members_grow := hms
      back_grows := ⟨_, hback⟩ }

/-- Where a signature comes next the brace behind the members does not. -/
theorem MemberPlaces.fails_brace (p : MemberPlaces source here there member) :
  Fails draft.body? (.char (.only '\x7d')) p.behindFields
  := by
  have hstart := p.signature_covers.reaches
  obtain ⟨_, hsignature⟩ := p.signature_covers.derives (mem_members 2 rfl)
  have hbrace : Refuses draft source (.char (.only '\x7d')) p.behindFields.rest := by
    apply refuses_char
    intro x hx
    rw [CharClass.holds, beq_eq_false_iff_ne]
    rintro rfl
    obtain ⟨tail, htail⟩ := List.head?_eq_some_iff.mp hx
    have hrefuses : Refuses draft source (.rule "MemberSignature") ('\x7d' :: tail) :=
      refuses_signature (bare_cons (by decide)) (clearOf_cons.mpr (by decide))
    exact hsignature.not_fails (hrefuses p.behindFields hstart htail)
  exact hbrace p.behindFields hstart rfl

theorem keepsMatching_front {k : Omission} :
  KeepsMatching draft.body? k.Beside k.IsLate (.seq frontItems)
  := by
  have hheader : Corresponds draft.body? k.Beside k.Beside (.rule "ClassHeader") :=
    corresponds_of_lineless (by decide)
  have hbrace : Corresponds draft.body? k.Beside k.Beside (.char (.only '\x7b')) :=
    corresponds_of_avoids (by decide)
  apply keepsMatching_sourceHeader.seq (late_of_reaches k)
  apply hheader.keepsMatching.seq (late_of_reaches k)
  apply hbrace.keepsMatching.seq (late_of_reaches k)
  apply keepsMatching_newline.seq (late_of_reaches k) .seq_nil

namespace ClassPlaces

variable (c : ClassPlaces source root)

theorem exists_member (hmem : member ∈ c.members) :
  ∃ here there rest, Rounds draft.body? (.rule "JavapMember") c.behindHeader here
    ∧ Covers source members[0] here there member
    ∧ Grows draft (.star (.rule "JavapMember")) there c.behindMembers rest
  := by
  obtain ⟨here, there, _, rest, hrounds, hround, hmem, hstar⟩ :=
    exists_round_of_plus c.members_grow hmem
  obtain ⟨_, hfront⟩ := c.front_grows
  obtain ⟨node, rfl, hnode⟩ :=
    node_of_rule (mem_members 0 rfl) rfl (hfront.reaches.trans hrounds.reaches) hround
  rw [List.mem_singleton.mp hmem]
  exact ⟨here, there, rest, hrounds, hnode, hstar⟩

/-- Behind a member no white space comes next. -/
theorem clearOf_behind {rest : List Node} (hstart : (Cursor.atStart source).Reaches there)
    (h : Grows draft (.star (.rule "JavapMember")) there c.behindMembers rest) :
  ClearOf " \t\r\n" there.rest
  := by
  intro x hx hblank
  have hstop {e : Expr} {here stop : Cursor} {ns : List Node}
      (h : Grows draft (.star e) here stop ns) (hfails : Fails draft.body? e here) : stop = here := by
    cases h with
    | reads hreads => contradiction
    | starStop => rfl
    | starNext hround => exact absurd hfails hround.not_fails
  have hbare : Bare there.rest := by
    have hall : ∀ x ∈ " \t\r\n".toList, x ≠ '\\' ∧ CharClass.letterOrDigit.holds x = false := by
      decide
    intro y hy
    rw [Option.some.inj (hy.symm.trans hx)]
    apply hall x hblank
  have hclear : ClearOf "@<\x7b" there.rest := by
    have hall : ∀ x ∈ " \t\r\n".toList, x ∉ "@<\x7b".toList := by decide
    intro y hy
    rw [Option.some.inj (hy.symm.trans hx)]
    apply hall x hblank
  obtain ⟨_, hback⟩ := c.back_grows
  rw [hstop h (refuses_member hbare hclear there hstart rfl)] at hback
  obtain ⟨_, _, _, -, hfields, hbrace⟩ := hback.of_seq_cons
  have hfield := refuses_field hbare (hclear.mono (by decide)) there hstart rfl
  rw [hstop hfields hfield] at hbrace
  obtain ⟨_, hbrace, -⟩ := hbrace.of_seq_only
  rw [hbrace.1] at hx
  cases hx
  revert hblank
  decide

/-- A transcript is refused where the text goes on the same up to one of its members and no member is
found there. -/
theorem fails_of_member {source' : String} {k : Omission}
    (hrounds : Rounds draft.body? (.rule "JavapMember") c.behindHeader here)
    (p : MemberPlaces source here there member)
    (hrel : k.Beside (.atStart source) (.atStart source')) (hnot : ¬ k.IsLate p.behindSignature)
    (hfails : ∀ here', k.Beside here here' → Fails draft.body? (.rule "JavapMember") here') :
  Fails draft.body? document[0].body (.atStart source')
  := by
  have hlate := late_of_reaches k
  obtain ⟨_, hfront⟩ := c.front_grows
  obtain ⟨_, hfront⟩ := hfront.derives
  obtain ⟨_, hfields⟩ := p.fields_grow
  obtain ⟨_, hfields⟩ := hfields.derives
  have hnotFields : ¬ k.IsLate p.behindFields := by
    obtain ⟨_, -, hsignature⟩ := p.signature_covers.grows
    exact fun h => hnot (hlate hsignature.reaches h)
  have hnotHere : ¬ k.IsLate here := fun h => hnotFields (hlate (hfields.reaches _ rfl) h)
  have hnotHeader : ¬ k.IsLate c.behindHeader := fun h => hnotHere (hlate hrounds.reaches h)
  obtain ⟨behind', _, hfront, hbehind⟩ := keepsMatching_front hrel hfront hnotHeader
  obtain ⟨here', hrounds, hhere⟩ :=
    hrounds.keepsMatching hlate keepsMatching_member hbehind hnotHere
  rw [body_document]
  apply Fails.seq_append hfront
  rcases hrounds.plus_of_fails (hfails here' hhere) with hplus | ⟨_, hplus⟩
  · exact hplus.seq_first
  · -- the fields of the member are read as those behind the members, and the brace is missing
    obtain ⟨fields', _, hfields, hbehind⟩ := keepsMatching_fields hhere hfields hnotFields
    have hbrace : Corresponds draft.body? k.Beside k.Beside (.char (.only '\x7d')) :=
      corresponds_of_avoids (by decide)
    apply Fails.seq_next hplus
    apply Fails.seq_next hfields
    apply Fails.seq_first
    apply hbrace.keepsFailing hbehind p.fails_brace

end ClassPlaces

/-! ### Parsed transcripts -/

/-- Whether a label is that of a table. -/
def isTable (label : String) : Bool :=
  label == "LineNumberTable" || label == "LocalVariableTable"

/-- The rule of whole transcripts fails where the blank line of a table is left out. -/
theorem fails_withoutLineEnd {table : Node}
    (hgrows : Grows draft document[0].body (.atStart source) there root.children)
    (hmade : Made (.atStart source) "JavapOutput" root) (hmem : table ∈ root.descendants)
    (htable : isTable table.label = true) :
  Fails draft.body? document[0].body (.atStart (withoutLineEnd source table))
  := by
  obtain ⟨c⟩ := exists_classPlaces hgrows
  have hfound : table ∈ root.findAll table.label := List.mem_filter.mpr ⟨hmem, beq_self_eq_true _⟩
  rw [isTable, Bool.or_eq_true, beq_iff_eq, beq_iff_eq] at htable
  have hlabel : table.label ∈ memberNames ∧ table.label ≠ "JavapField"
      ∧ root.label ≠ table.label := by
    rw [hmade.label_eq]
    rcases htable with h | h <;> rw [h] <;> decide
  rw [c.findAll_eq hlabel.1 hlabel.2.1 hlabel.2.2] at hfound
  obtain ⟨member, hmember, hfound⟩ := List.mem_flatMap.mp hfound
  obtain ⟨here, behind, _, hrounds, hcovers, hstar⟩ := c.exists_member hmember
  obtain ⟨p⟩ := hcovers.exists_places
  have htables := hcovers.made.findAll_tables p.lines_eq p.locals_eq
  rcases htable with htable | htable
  · rw [htable, htables.1, List.mem_singleton] at hfound
    subst hfound
    obtain ⟨_, -, hbody⟩ := p.lines_covers.grows
    obtain ⟨e⟩ := lineShape.exists_end hbody
    obtain ⟨hquote, hfails⟩ := p.fails_of_lines e
    apply c.fails_of_member hrounds p _ _ hfails
    · apply e.beside_start hquote p.lines_covers.reaches p.lines_covers.span_eq
    · apply e.not_isLate_of_reaches hquote e.reaches_last
  · rw [htable, htables.2, List.mem_singleton] at hfound
    subst hfound
    obtain ⟨_, -, hlines⟩ := p.lines_covers.grows
    obtain ⟨_, -, hbody⟩ := p.locals_covers.grows
    obtain ⟨e⟩ := variableShape.exists_end hbody
    obtain ⟨hquote, hfails⟩ := p.fails_of_locals e (c.clearOf_behind hcovers.reaches_stop hstar)
    apply c.fails_of_member hrounds p _ _ hfails
    · apply e.beside_start hquote p.locals_covers.reaches p.locals_covers.span_eq
    · apply e.not_isLate_of_reaches hquote (hlines.reaches.trans e.reaches_last)

/-- The blank lines of tables are mandatory. Where the last line end of a table is left out of the
text of a parsed transcript no parse of the text matches, and a parse whose limits are all large
enough finds that the text is none of the grammar. -/
theorem mismatched_withoutLineEnd {o : Options} {tree : Tree} {stats : Stats} {table : Node}
    (h : Peg.parse grammar o source = .matched tree stats)
    (hmem : table ∈ tree.root.descendants) (htable : isTable table.label = true) :
  (∀ o, ∃ m, Peg.parse grammar o (withoutLineEnd source table) = .mismatched m)
    ∧ ∃ n, ∀ o : Options, n ≤ o.limits.depth → n ≤ o.limits.steps → n ≤ o.limits.entries →
      ∃ m, Peg.parse grammar o (withoutLineEnd source table) = .mismatched m ∧ m.cause = .grammar
  := by
  obtain ⟨_, hgrows, hmade⟩ := exists_grows_of_parse h
  have hfails := fails_withoutLineEnd hgrows hmade hmem htable
  obtain ⟨n, hn⟩ := exists_sufficient build_draft definition_root (withoutLineEnd source table)
  constructor
  · intro o
    rw [Peg.parse]
    split
    · rename_i outcome log hparse
      cases outcome with
      | matched => exact absurd hparse (not_matched_of_fails build_draft definition_root hfails)
      | mismatched m => exact ⟨m, rfl⟩
    · exact ⟨_, rfl⟩
  · use n
    intro o hdepth hsteps hentries
    obtain ⟨outcome, log, hparse, hlimit⟩ := hn o hdepth hsteps hentries
    cases outcome with
    | matched => exact absurd hparse (not_matched_of_fails build_draft definition_root hfails)
    | mismatched m =>
        refine ⟨m, parse_eq hparse, ?_⟩
        cases hcause : m.cause with
        | grammar => rfl
        | limit => simp [Outcome.limit?, hcause] at hlimit

/-- A parsed transcript has tables of both kinds. -/
theorem exists_tables_of_parse {o : Options} {tree : Tree} {stats : Stats}
    (h : Peg.parse grammar o source = .matched tree stats) :
  (∃ table ∈ tree.root.descendants, table.label = "LineNumberTable")
    ∧ ∃ table ∈ tree.root.descendants, table.label = "LocalVariableTable"
  := by
  obtain ⟨_, hgrows, -⟩ := exists_grows_of_parse h
  obtain ⟨c⟩ := exists_classPlaces hgrows
  obtain ⟨_, hfront⟩ := c.front_grows
  obtain ⟨_, _, _, hmembers, hround, -⟩ := c.members_grow.of_plus
  obtain ⟨member, rfl, hmember⟩ := node_of_rule (mem_members 0 rfl) rfl hfront.reaches hround
  obtain ⟨p⟩ := hmember.exists_places
  have hinside : member ∈ tree.root.descendants := by
    apply Node.mem_walk_of_child (Node.mem_descendants_self tree.root)
    rw [c.children_eq, hmembers]
    simp
  have hchild {table : Node} (hmem : table ∈ member.children) : table ∈ tree.root.descendants :=
    Node.mem_walk_of_child hinside hmem
  exact ⟨⟨p.lines, hchild (List.mem_of_find?_eq_some p.lines_eq), p.lines_covers.label_eq⟩,
    ⟨p.locals, hchild (List.mem_of_find?_eq_some p.locals_eq), p.locals_covers.label_eq⟩⟩

/-- No transcript is left where one of the two tables of a constructor loses its blank line. -/
theorem mismatched_withoutLineEnd_greeter :
  ∃ o tree stats lines locals,
    Peg.parse grammar o (String.ofList (greeter.print .usual)) = .matched tree stats
      ∧ lines.label = "LineNumberTable" ∧ locals.label = "LocalVariableTable"
      ∧ (∃ m, Peg.parse grammar o (withoutLineEnd (String.ofList (greeter.print .usual)) lines)
        = .mismatched m)
      ∧ ∃ m, Peg.parse grammar o (withoutLineEnd (String.ofList (greeter.print .usual)) locals)
        = .mismatched m
  := by
  obtain ⟨n, hn⟩ := exists_parse_print greeter .usual
  obtain ⟨tree, stats, hparse, -⟩ :=
    hn { limits := ⟨n, n, n⟩ } (Nat.le_refl n) (Nat.le_refl n) (Nat.le_refl n)
  obtain ⟨⟨lines, hlines, hlineLabel⟩, locals, hlocals, hlocalLabel⟩ := exists_tables_of_parse hparse
  refine ⟨_, tree, stats, lines, locals, hparse, hlineLabel, hlocalLabel, ?_, ?_⟩
  · apply (mismatched_withoutLineEnd hparse hlines (by rw [hlineLabel]; decide)).1
  · apply (mismatched_withoutLineEnd hparse hlocals (by rw [hlocalLabel]; decide)).1

end

end ClassTranscript.Transcript
