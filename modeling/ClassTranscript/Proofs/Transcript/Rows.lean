import ClassTranscript.Proofs.Text.Lines
import ClassTranscript.Proofs.Transcript.Projection
import ClassTranscript.Proofs.Transcript.Listing.Table

/-!
# The rows of tables

A row of a table is one line, in columns with spacing before each (`InColumns`). The columns are
those of an entry that the line `IsWritten` as, of which there is one at most, and the row is read as
that entry or not at all (`Covers.lineRow`, `Covers.variableRow`).
-/

namespace ClassTranscript.Transcript

open Peg

/-! ### Columns -/

/-- Spaces and tabs. -/
def IsSpacing (cs : List Char) : Prop :=
  ∀ c ∈ cs, c ∈ " \t".toList

/-- The columns of a line. There is spacing before each of them, and there may be some at the end of
the line. -/
inductive InColumns : List (List Char) → List Char → Prop where
  | stop {after : List Char} :
    IsSpacing after →
    InColumns [] after
  | next {gap column content : List Char} {columns : List (List Char)} :
    gap ≠ [] →
    IsSpacing gap →
    InColumns columns content →
    InColumns (column :: columns) (gap ++ (column ++ content))

/-- Digits that write a number. -/
structure WritesNumber (n : Nat) (cs : List Char) : Prop where
  nonempty : cs ≠ []
  decimal : ∀ c ∈ cs, Text.IsDecimal c
  value_eq : Text.decimalValue cs = n

/-- The line is that of a row of a line number table. -/
def LineNumber.IsWritten (r : LineNumber) (content : List Char) : Prop :=
  ∃ line offset, WritesNumber r.line line ∧ WritesNumber r.offset offset
    ∧ InColumns ["line".toList, line ++ [':'], offset] content

/-- The line is that of a row of a local variable table. The name has no white space in it. -/
def LocalVariable.IsWritten (v : LocalVariable) (content : List Char) : Prop :=
  ∃ start length slot name, ∃ descriptor : ListedDescriptor,
    WritesNumber v.start start ∧ WritesNumber v.length length ∧ WritesNumber v.slot slot
    ∧ v.name = String.ofList name ∧ name ≠ [] ∧ (∀ c ∈ name, Text.isBlank c = false)
    ∧ v.descriptor = String.ofList descriptor.chars
    ∧ InColumns [start, length, slot, name, descriptor.chars] content

theorem inOneLine_of_forall {p : Char → Prop} {cs : List Char} (h : ∀ c ∈ cs, p c)
    (hreturn : ¬ p '\r') (hfeed : ¬ p '\n') :
  Text.InOneLine cs
  := by
  intro c hmem
  have hc := h c hmem
  constructor <;> rintro rfl <;> contradiction

theorem IsSpacing.inOneLine {cs : List Char} (h : IsSpacing cs) :
  Text.InOneLine cs
  := inOneLine_of_forall h (by decide) (by decide)

theorem WritesNumber.inOneLine {n : Nat} {cs : List Char} (h : WritesNumber n cs) :
  Text.InOneLine cs
  := inOneLine_of_forall h.decimal (fun h => absurd h.1 (by decide))
    fun h => absurd h.1 (by decide)

theorem ListedDescriptor.inOneLine (d : ListedDescriptor) :
  Text.InOneLine d.chars
  := by
  have hreplicate : Text.InOneLine (List.replicate d.dims '[') :=
    inOneLine_of_forall (fun _ hmem => List.eq_of_mem_replicate hmem) (by decide) (by decide)
  rw [chars, Text.inOneLine_append]
  use hreplicate
  cases d.element with
  | basic letter listed =>
      apply inOneLine_of_forall (p := (· ∈ "BCDFIJSZ".toList)) _ (by decide) (by decide)
      simpa [ElementDescriptor.chars] using listed
  | object name _ plain =>
      have hname : Text.InOneLine name := inOneLine_of_forall plain (by decide) (by decide)
      have hends : Text.InOneLine ['L'] ∧ Text.InOneLine [';'] := by decide
      rw [ElementDescriptor.chars, ← List.singleton_append, Text.inOneLine_append,
        Text.inOneLine_append]
      exact ⟨hends.1, hname, hends.2⟩

theorem InColumns.inOneLine {columns : List (List Char)} {content : List Char}
    (h : InColumns columns content) (hcolumns : ∀ column ∈ columns, Text.InOneLine column) :
  Text.InOneLine content
  := by
  induction h with
  | stop hafter => apply hafter.inOneLine
  | next _ hgap _ ih =>
      obtain ⟨hcolumn, hcolumns⟩ := List.forall_mem_cons.mp hcolumns
      rw [Text.inOneLine_append, Text.inOneLine_append]
      exact ⟨hgap.inOneLine, hcolumn, ih hcolumns⟩

/-! ### One reading -/

theorem IsSpacing.isBlank {cs : List Char} (h : IsSpacing cs) :
  ∀ c ∈ cs, Text.isBlank c = true
  := by
  have hblank : ∀ c ∈ " \t".toList, Text.isBlank c = true := by decide
  intro c hmem
  apply hblank c (h c hmem)

/-- A column that is not empty and has no white space in it. -/
structure IsWord (column : List Char) : Prop where
  nonempty : column ≠ []
  solid : ∀ c ∈ column, Text.isBlank c = false

theorem WritesNumber.isWord {n : Nat} {cs : List Char} (h : WritesNumber n cs) :
  IsWord cs
  := ⟨h.nonempty, fun c hmem => (h.decimal c hmem).isBlank⟩

/-- What comes after a column begins with spacing. -/
theorem InColumns.isBlank_head {columns : List (List Char)} {content : List Char}
    (h : InColumns columns content) :
  ∀ c, content.head? = some c → Text.isBlank c = true
  := by
  intro c hc
  cases h with
  | stop hafter => apply hafter.isBlank c (List.mem_of_head? hc)
  | next hne hgap _ =>
      rw [List.head?_append_of_ne_nil _ hne] at hc
      apply hgap.isBlank c (List.mem_of_head? hc)

/-- A text is in one way some characters that satisfy a predicate and then a text that begins with
one that does not. -/
theorem eq_of_append_eq {p : Char → Bool} {xs xs' ys ys' : List Char}
    (hxs : ∀ c ∈ xs, p c = true) (hxs' : ∀ c ∈ xs', p c = true)
    (hys : ∀ c, ys.head? = some c → p c = false) (hys' : ∀ c, ys'.head? = some c → p c = false)
    (h : xs ++ ys = xs' ++ ys') :
  xs = xs' ∧ ys = ys'
  := by
  have hdrop := congrArg (List.dropWhile p) h
  rw [List.dropWhile_append_of_pos hxs, List.dropWhile_append_of_pos hxs',
    Text.dropWhile_of_head hys, Text.dropWhile_of_head hys'] at hdrop
  subst hdrop
  exact ⟨List.append_cancel_right h, rfl⟩

theorem IsWord.head {column : List Char} (h : IsWord column) (tail : List Char) :
  ∀ c, (column ++ tail).head? = some c → Text.isBlank c = false
  := by
  intro c hc
  rw [List.head?_append_of_ne_nil _ h.nonempty] at hc
  apply h.solid c (List.mem_of_head? hc)

/-- What stands behind the spacing at the front of a line is there in one way. -/
theorem InColumns.of_cons {column column' content : List Char} {columns columns' : List (List Char)}
    (h : InColumns (column :: columns) content) (h' : InColumns (column' :: columns') content)
    (hhead : ∀ tail c, (column ++ tail).head? = some c → Text.isBlank c = false)
    (hhead' : ∀ tail c, (column' ++ tail).head? = some c → Text.isBlank c = false) :
  ∃ rest rest', column ++ rest = column' ++ rest' ∧ InColumns columns rest
    ∧ InColumns columns' rest'
  := by
  generalize hsame : content = content' at h'
  cases h with
  | next _ hgap hrest =>
      cases h' with
      | next _ hgap' hrest' =>
          obtain ⟨-, heq⟩ := eq_of_append_eq hgap.isBlank hgap'.isBlank (hhead _) (hhead' _) hsame
          exact ⟨_, _, heq, hrest, hrest'⟩

/-- A line has its columns in one way, where all but the last are words and there is no white space
at the ends of the last. -/
theorem InColumns.unique {columns columns' : List (List Char)} {last last' content : List Char}
    (h : InColumns (columns ++ [last]) content) (h' : InColumns (columns' ++ [last']) content)
    (hlength : columns.length = columns'.length) (hwords : ∀ column ∈ columns, IsWord column)
    (hwords' : ∀ column ∈ columns', IsWord column) (hlast : Text.Tight last) (hne : last ≠ [])
    (hlast' : Text.Tight last') (hne' : last' ≠ []) :
  columns = columns' ∧ last = last'
  := by
  induction columns generalizing columns' content with
  | nil =>
      obtain rfl := List.length_eq_zero_iff.mp hlength.symm
      have hhead {cs : List Char} (htight : Text.Tight cs) (hne : cs ≠ []) (tail : List Char) :
          ∀ c, (cs ++ tail).head? = some c → Text.isBlank c = false := by
        intro c hc
        rw [List.head?_append_of_ne_nil _ hne] at hc
        apply htight.head c hc
      obtain ⟨after, after', heq, hafter, hafter'⟩ :=
        h.of_cons h' (hhead hlast hne) (hhead hlast' hne')
      cases hafter with
      | stop hafter =>
          cases hafter' with
          | stop hafter' =>
              have hdrop := congrArg (Text.dropEndWhile Text.isBlank) heq
              rw [Text.dropEndWhile_append hlast.last hafter.isBlank,
                Text.dropEndWhile_append hlast'.last hafter'.isBlank] at hdrop
              exact ⟨rfl, hdrop⟩
  | cons column columns ih =>
      cases columns' with
      | nil => cases hlength
      | cons column' columns' =>
          obtain ⟨hword, hmore⟩ := List.forall_mem_cons.mp hwords
          obtain ⟨hword', hmore'⟩ := List.forall_mem_cons.mp hwords'
          obtain ⟨rest, rest', heq, hrest, hrest'⟩ := h.of_cons h' hword.head hword'.head
          obtain ⟨rfl, rfl⟩ := eq_of_append_eq (p := (!Text.isBlank ·))
            (by simpa using hword.solid) (by simpa using hword'.solid)
            (by simpa using hrest.isBlank_head) (by simpa using hrest'.isBlank_head) heq
          obtain ⟨rfl, rfl⟩ := ih hrest hrest' (Nat.succ.inj hlength) hmore hmore'
          exact ⟨rfl, rfl⟩

theorem WritesNumber.eq {m n : Nat} {cs : List Char} (hm : WritesNumber m cs)
    (hn : WritesNumber n cs) :
  m = n
  := hm.value_eq.symm.trans hn.value_eq

/-- A line is that of one row of a line number table at most. -/
theorem LineNumber.IsWritten.unique {r r' : LineNumber} {content : List Char}
    (h : r.IsWritten content) (h' : r'.IsWritten content) :
  r = r'
  := by
  obtain ⟨line, offset, hline, hoffset, hcolumns⟩ := h
  obtain ⟨line', offset', hline', hoffset', hcolumns'⟩ := h'
  have hwords {n : Nat} {cs : List Char} (h : WritesNumber n cs) :
      ∀ column ∈ ["line".toList, cs ++ [':']], IsWord column := by
    have hfirst : IsWord "line".toList := ⟨by decide, by decide⟩
    have hcolon : ∀ c ∈ [':'], Text.isBlank c = false := by decide
    have hsecond : IsWord (cs ++ [':']) :=
      ⟨by simp, List.forall_mem_append.mpr ⟨h.isWord.solid, hcolon⟩⟩
    simpa using ⟨hfirst, hsecond⟩
  change InColumns (["line".toList, line ++ [':']] ++ [offset]) content at hcolumns
  change InColumns (["line".toList, line' ++ [':']] ++ [offset']) content at hcolumns'
  obtain ⟨hsame, rfl⟩ := hcolumns.unique hcolumns' rfl (hwords hline) (hwords hline')
    (Text.tight_of_forall hoffset.isWord.solid) hoffset.nonempty
    (Text.tight_of_forall hoffset'.isWord.solid) hoffset'.nonempty
  simp only [List.cons.injEq, List.append_cancel_right_eq, true_and, and_true] at hsame
  subst hsame
  exact congrArg₂ LineNumber.mk (hline.eq hline') (hoffset.eq hoffset')

/-- A line is that of one row of a local variable table at most. -/
theorem LocalVariable.IsWritten.unique {v v' : LocalVariable} {content : List Char}
    (h : v.IsWritten content) (h' : v'.IsWritten content) :
  v = v'
  := by
  obtain ⟨start, length, slot, name, d, hstart, hlength, hslot, hname, hne, hsolid, hd,
    hcolumns⟩ := h
  obtain ⟨start', length', slot', name', d', hstart', hlength', hslot', hname', hne', hsolid',
    hd', hcolumns'⟩ := h'
  change InColumns ([start, length, slot, name] ++ [d.chars]) content at hcolumns
  change InColumns ([start', length', slot', name'] ++ [d'.chars]) content at hcolumns'
  have hword : IsWord name := ⟨hne, hsolid⟩
  have hword' : IsWord name' := ⟨hne', hsolid'⟩
  obtain ⟨hsame, hdescriptor⟩ := hcolumns.unique hcolumns' rfl
    (by simp [hstart.isWord, hlength.isWord, hslot.isWord, hword])
    (by simp [hstart'.isWord, hlength'.isWord, hslot'.isWord, hword'])
    d.tight d.chars_ne_nil d'.tight d'.chars_ne_nil
  simp only [List.cons.injEq, and_true] at hsame
  obtain ⟨rfl, rfl, rfl, rfl⟩ := hsame
  cases v
  cases v'
  dsimp only at *
  rw [hstart.eq hstart', hlength.eq hlength', hslot.eq hslot', hname, hname', hd, hd', hdescriptor]

/-! ### Matches of rules -/

section

variable {source : String} {here there : Cursor} {x : Definition} {items : List Expr}
  {ns : List Node} {text : String} {cls : CharClass}

theorem body_of_rule (hx : x ∈ allDefinitions) (h : Grows draft (.rule x.name) here there ns) :
  ∃ inside, Grows draft x.body here there inside
  := by
  rw [← definitions_draft] at hx
  obtain ⟨_, inside, -, -, h⟩ := h.of_rule nodup_draft hx
  exact ⟨inside, h⟩

/-- The node is a match of a rule from one position of a text to another. -/
structure Covers (source : String) (x : Definition) (here there : Cursor) (node : Node) :
    Prop where
  made : Made (.atStart source) x.name node
  reaches : (Cursor.atStart source).Reaches here
  span_eq : node.span = ⟨here.offset, there.offset⟩
  grows : ∃ inside, node.children = (if x.leaf then [] else inside)
    ∧ Grows draft x.body here there inside

theorem Covers.label_eq {node : Node} (h : Covers source x here there node) :
  node.label = x.name
  := h.made.label_eq

theorem Covers.reaches_stop {node : Node} (h : Covers source x here there node) :
  (Cursor.atStart source).Reaches there
  := by
  obtain ⟨_, -, hgrows⟩ := h.grows
  exact h.reaches.trans hgrows.reaches

theorem Covers.text_eq {node : Node} (h : Covers source x here there node) {cs : List Char}
    (hpasses : here.Passes cs there) :
  node.text source = String.ofList cs
  := by
  rw [Node.text, h.span_eq, Cursor.slice_eq h.reaches hpasses.1 hpasses.2]

theorem Made.exists_covers (hx : x ∈ allDefinitions) {node : Node}
    (h : Made (.atStart source) x.name node) :
  ∃ here there, Covers source x here there node
  := by
  cases h.grown hx with
  | intro _ _ hstart hgrows => exact ⟨_, _, h, hstart, rfl, _, rfl, hgrows⟩

/-- A match of a rule that makes nodes leaves one node. -/
theorem node_of_rule (hx : x ∈ allDefinitions) (hhidden : x.hidden = false)
    (hstart : (Cursor.atStart source).Reaches here)
    (h : Grows draft (.rule x.name) here there ns) :
  ∃ node, ns = [node] ∧ Covers source x here there node
  := by
  rw [← definitions_draft] at hx
  obtain ⟨id, inside, rfl, hid, h⟩ := h.of_rule nodup_draft hx
  rw [Definition.nodes, hhidden, if_neg Bool.false_ne_true]
  exact ⟨_, rfl, ⟨x, rfl, .intro hid hhidden hstart h⟩, hstart, rfl, inside, rfl, h⟩

/-- A hidden rule at the head of a sequence leaves no node. -/
theorem seq_of_hidden (hx : x ∈ allDefinitions) (hhidden : x.hidden = true)
    (h : Grows draft (.seq (.rule x.name :: items)) here there ns) :
  ∃ mid inside, Grows draft x.body here mid inside ∧ Grows draft (.seq items) mid there ns
  := by
  rw [← definitions_draft] at hx
  obtain ⟨mid, _, ms, rfl, hitem, hitems⟩ := h.of_seq_cons
  obtain ⟨id, inside, rfl, -, hitem⟩ := hitem.of_rule nodup_draft hx
  rw [Definition.nodes, if_pos hhidden]
  exact ⟨mid, inside, hitem, hitems⟩

theorem seq_of_node (hx : x ∈ allDefinitions) (hhidden : x.hidden = false)
    (hstart : (Cursor.atStart source).Reaches here)
    (h : Grows draft (.seq (.rule x.name :: items)) here there ns) :
  ∃ mid node ms, ns = node :: ms ∧ Covers source x here mid node
    ∧ Grows draft (.seq items) mid there ms
  := by
  obtain ⟨mid, _, ms, rfl, hitem, hitems⟩ := h.of_seq_cons
  obtain ⟨node, rfl, hnode⟩ := node_of_rule hx hhidden hstart hitem
  exact ⟨mid, node, ms, rfl, hnode, hitems⟩

/-! ### Spacing and line ends -/

theorem isSpacing_of_holds {cs : List Char}
    (h : ∀ c ∈ cs, (CharClass.anyOf " \t".toList).holds c = true) :
  IsSpacing cs
  := fun c hmem => List.contains_iff_mem.mp (h c hmem)

theorem seq_of_inlineSpacing
    (h : Grows draft (.seq (.rule "InlineSpacing" :: items)) here there ns) :
  ∃ mid cs, IsSpacing cs ∧ here.Passes cs mid ∧ Grows draft (.seq items) mid there ns
  := by
  obtain ⟨mid, _, hspacing, hitems⟩ := seq_of_hidden (mem_layout 1 rfl) rfl h
  obtain ⟨cs, hcs, hpasses⟩ := hspacing.of_star_char
  exact ⟨mid, cs, isSpacing_of_holds hcs, hpasses, hitems⟩

theorem seq_of_rowSpacing (h : Grows draft (.seq (.rule "RowSpacing" :: items)) here there ns) :
  ∃ mid cs, cs ≠ [] ∧ IsSpacing cs ∧ here.Passes cs mid ∧ Grows draft (.seq items) mid there ns
  := by
  obtain ⟨mid, _, hspacing, hitems⟩ := seq_of_hidden (mem_layout 2 rfl) rfl h
  obtain ⟨cs, hne, hcs, hpasses⟩ := hspacing.of_plus_char
  exact ⟨mid, cs, hne, isSpacing_of_holds hcs, hpasses, hitems⟩

/-- Spacing and then a column stand between two positions. -/
def PassesColumn (here : Cursor) (column : List Char) (there : Cursor) : Prop :=
  ∃ gap, gap ≠ [] ∧ IsSpacing gap ∧ here.Passes (gap ++ column) there

theorem PassesColumn.reaches {column : List Char} (h : PassesColumn here column there) :
  here.Reaches there
  := by
  obtain ⟨_, -, -, hpasses⟩ := h
  apply hpasses.reaches

theorem PassesColumn.append {column more : List Char} {mid : Cursor}
    (h : PassesColumn here column mid) (hmore : mid.Passes more there) :
  PassesColumn here (column ++ more) there
  := by
  obtain ⟨gap, hne, hspacing, hpasses⟩ := h
  refine ⟨gap, hne, hspacing, ?_⟩
  rw [← List.append_assoc]
  exact hpasses.append hmore

theorem seq_of_word
    (h : Grows draft (.seq (.rule "RowSpacing" :: .literal text :: items)) here there ns) :
  ∃ mid, PassesColumn here text.toList mid ∧ Grows draft (.seq items) mid there ns
  := by
  obtain ⟨_, gap, hne, hspacing, hgap, h⟩ := seq_of_rowSpacing h
  obtain ⟨mid, hpasses, h⟩ := h.of_seq_literal
  exact ⟨mid, ⟨gap, hne, hspacing, hgap.append hpasses⟩, h⟩

/-- The rule of line ends takes a whole line end. -/
theorem endsLine_of_grows (h : Grows draft layout[0].body here there ns) :
  ∃ ending, Text.EndsLine ending there.rest ∧ here.Passes ending there
  := by
  cases h with
  | reads hreads => contradiction
  | choiceFirst h => exact ⟨_, ⟨by decide, fun heq => absurd heq (by decide)⟩, h.of_literal⟩
  | choiceNext hfails h =>
      cases h with
      | reads hreads => contradiction
      | choiceFirst h =>
          obtain ⟨c, hc, hpasses⟩ := h.of_char
          obtain rfl : c = '\r' := beq_iff_eq.mp hc
          refine ⟨['\r'], ⟨by decide, ?_⟩, hpasses⟩
          -- otherwise both characters would have been taken
          intro _ hfeed
          obtain ⟨rest, hrest⟩ := List.head?_eq_some_iff.mp hfeed
          have hboth : here.rest = "\r\n".toList ++ rest := by
            rw [hpasses.1, hrest]
            rfl
          have hpair := @Grows.reads draft (.literal "\r\n") _ _ ⟨_, rest⟩ rfl hboth rfl
          exact hpair.not_fails hfails
      | choiceNext _ h =>
          cases h with
          | reads hreads => contradiction
          | choiceNext _ h =>
              cases h with
              | reads hreads => contradiction
          | choiceFirst h =>
              obtain ⟨c, hc, hpasses⟩ := h.of_char
              obtain rfl : c = '\n' := beq_iff_eq.mp hc
              exact ⟨['\n'], ⟨by decide, fun heq => absurd heq (by decide)⟩, hpasses⟩

theorem seq_of_newline (h : Grows draft (.seq (.rule "Newline" :: items)) here there ns) :
  ∃ mid ending, Text.EndsLine ending mid.rest ∧ here.Passes ending mid
    ∧ Grows draft (.seq items) mid there ns
  := by
  obtain ⟨mid, _, hnewline, hitems⟩ := seq_of_hidden (mem_layout 0 rfl) rfl h
  obtain ⟨ending, hends, hpasses⟩ := endsLine_of_grows hnewline
  exact ⟨mid, ending, hends, hpasses, hitems⟩

/-! ### Numbers -/

/-- The node is a numeral of a number, and it is read as that number if at all. -/
structure IsNumeral (source : String) (n : Nat) (node : Node) : Prop where
  label_eq : node.label = "DecimalNumeral"
  eq_of_number : ∀ quantity k, number source quantity node = .ok k → k = n

theorem seq_of_numeral (hstart : (Cursor.atStart source).Reaches here)
    (h : Grows draft (.seq (.rule "RowSpacing" :: .rule "DecimalNumeral" :: items)) here there ns) :
  ∃ mid node n cs ms, ns = node :: ms ∧ IsNumeral source n node ∧ WritesNumber n cs
    ∧ PassesColumn here cs mid ∧ Grows draft (.seq items) mid there ms
  := by
  obtain ⟨_, gap, hne, hspacing, hgap, h⟩ := seq_of_rowSpacing h
  have hstart := hstart.trans hgap.reaches
  obtain ⟨mid, node, ms, rfl, hnode, hitems⟩ := seq_of_node (mem_literals 2 rfl) rfl hstart h
  obtain ⟨_, -, hgrows⟩ := hnode.grows
  obtain ⟨cs, hcs, hdecimal, hpasses⟩ := exists_digits_of_grows hgrows
  refine ⟨mid, node, Text.decimalValue cs, cs, ms, rfl, ⟨hnode.label_eq, ?_⟩,
    ⟨hcs, hdecimal, rfl⟩, ⟨gap, hne, hspacing, hgap.append hpasses⟩, hitems⟩
  intro quantity k hk
  have htext : textOf source node = String.ofList cs := by
    rw [textOf, hnode.text_eq hpasses]
    apply Text.trim_of_tight (Text.tight_of_forall fun c hmem => (hdecimal c hmem).isBlank)
  rw [number, htext, String.toList_ofList, Text.numeral?_of_decimal hcs hdecimal] at hk
  by_cases hsmall : Text.decimalValue cs < UInt32.size
  · simpa [Option.filter, hsmall] using hk.symm
  · simp [Option.filter, hsmall] at hk

/-! ### Names -/

/-- Whether an expression reads no white space. -/
def readsNoBlank : Expr → Bool
  | .literal text => text.toList.all (!Text.isBlank ·)
  | .char (.only c) => !Text.isBlank c
  | .char (.range lo hi) => 0x20 < lo.toNat && hi.toNat < 0x85
  | .char .letter => true
  | .char .letterOrDigit => true
  | .notAhead _ => true
  | _ => false

/-- White space is no character of an identifier. -/
theorem not_holds_of_isBlank {c : Char} (h : Text.isBlank c = true) :
  CharClass.letterOrDigit.holds c = false
  := by
  have hall : ∀ i ∈ Text.blank, ∀ n ∈ List.range' i.1 (i.2 + 1 - i.1),
      CharClass.letterOrDigit.holds (Char.ofNat n) = false := by
    decide +kernel
  obtain ⟨i, hmem, hlo, hhi⟩ := CodePoints.exists_of_contains h
  have hc := hall i hmem c.toNat (List.mem_range'_1.mpr ⟨hlo, by omega⟩)
  rwa [Char.ofNat_toNat] at hc

/-- There is no white space between two positions. -/
def Solid (here there : Cursor) : Prop :=
  ∃ cs, here.Passes cs there ∧ ∀ c ∈ cs, Text.isBlank c = false

theorem Solid.refl (here : Cursor) :
  Solid here here
  := Cursor.PassesOnly.refl _ here

theorem Solid.trans {a b c : Cursor} (hab : Solid a b) (hbc : Solid b c) :
  Solid a c
  := Cursor.PassesOnly.trans hab hbc

theorem solid_of_readsNoBlank {e : Expr} (he : readsNoBlank e = true)
    (h : Grows draft e here there ns) :
  Solid here there
  := by
  have hclass {cls : CharClass} (h : Grows draft (.char cls) here there ns)
      (hcls : ∀ c, cls.holds c = true → Text.isBlank c = false) : Solid here there := by
    obtain ⟨c, hc, hpasses⟩ := h.of_char
    exact ⟨[c], hpasses, by simpa using hcls c hc⟩
  have hpart (c : Char) (hc : CharClass.letterOrDigit.holds c = true) :
      Text.isBlank c = false := by
    rw [Bool.eq_false_iff]
    intro hblank
    rw [not_holds_of_isBlank hblank] at hc
    cases hc
  unfold readsNoBlank at he
  split at he
  · exact ⟨_, h.of_literal, by simpa using he⟩
  · apply hclass h
    intro c hc
    rw [beq_iff_eq.mp hc]
    simpa using he
  · apply hclass h
    intro c hc
    simp only [CharClass.holds, Bool.and_eq_true, decide_eq_true_eq] at hc he
    exact Text.isBlank_eq_false (Nat.lt_of_lt_of_le he.1 hc.1) (Nat.lt_of_le_of_lt hc.2 he.2)
  · apply hclass h
    intro c hc
    apply hpart
    rw [CharClass.holds, show isLetter c = true from hc, Bool.true_or]
  · apply hclass h hpart
  · cases h with
    | reads hreads => cases hreads
    | notAhead _ => apply Solid.refl
  · cases he

/-- Whether a rule is one of those for the characters of identifiers. -/
def isNamePart (name : String) : Bool :=
  name == "Letter" || name == "LetterOrDigit" || name == "UnicodeEscape"

theorem madeOf_nameParts :
  draft.MadeOf readsNoBlank isNamePart
  := madeOf_of_all (by decide +kernel)

/-- A match that begins with a character moves on. -/
theorem offset_ne_of_passes {mid : Cursor} {c : Char} {cs : List Char}
    (h : here.Passes (c :: cs) mid) (hreaches : mid.Reaches there) :
  there.offset ≠ here.offset
  := by
  have hsize := c.utf8Size_pos
  have hle := hreaches.offset_le
  have hoffset := h.2
  rw [Text.byteLength_cons] at hoffset
  omega

theorem offset_ne_of_letter (h : Grows draft (.rule "Letter") here there ns) :
  there.offset ≠ here.offset
  := by
  obtain ⟨_, h⟩ := body_of_rule (mem_identifiers 1 rfl) h
  obtain ⟨item, hmem, h⟩ := h.of_choice
  simp only [List.mem_cons, List.not_mem_nil, or_false] at hmem
  obtain rfl | rfl := hmem
  · obtain ⟨_, hpasses, h⟩ := h.of_seq_only
    exact offset_ne_of_passes hpasses h.reaches
  · obtain ⟨c, -, hpasses⟩ := h.of_char
    have hpasses : here.Passes [c] there := hpasses
    exact offset_ne_of_passes hpasses (.refl _)

/-- The name of a variable is not empty. -/
theorem offset_ne_of_localName (h : Grows draft tables[5].body here there ns) :
  there.offset ≠ here.offset
  := by
  obtain ⟨item, hmem, h⟩ := h.of_choice
  simp only [List.mem_cons, List.not_mem_nil, or_false] at hmem
  obtain rfl | rfl := hmem
  · obtain ⟨_, hpasses, h⟩ := h.of_seq_literal
    exact offset_ne_of_passes hpasses h.reaches
  · obtain ⟨_, _, _, -, hnot, h⟩ := h.of_seq_cons
    obtain ⟨_, _, _, -, hletter, h⟩ := h.of_seq_cons
    have hne := offset_ne_of_letter hletter
    have hbefore := hnot.reaches.offset_le
    have hletter := hletter.reaches.offset_le
    have hafter := h.reaches.offset_le
    omega

theorem seq_of_localName (hstart : (Cursor.atStart source).Reaches here)
    (h : Grows draft (.seq (.rule "RowSpacing" :: .rule "LocalName" :: items)) here there ns) :
  ∃ mid node cs ms, ns = node :: ms ∧ node.label = "LocalName"
    ∧ textOf source node = String.ofList cs ∧ cs ≠ [] ∧ (∀ c ∈ cs, Text.isBlank c = false)
    ∧ PassesColumn here cs mid ∧ Grows draft (.seq items) mid there ms
  := by
  obtain ⟨_, gap, hne, hspacing, hgap, h⟩ := seq_of_rowSpacing h
  have hstart := hstart.trans hgap.reaches
  obtain ⟨mid, node, ms, rfl, hnode, hitems⟩ := seq_of_node (mem_tables 5 rfl) rfl hstart h
  obtain ⟨_, -, hgrows⟩ := hnode.grows
  obtain ⟨cs, hpasses, hcs⟩ := hgrows.of_parts Solid.refl (fun _ _ _ => Solid.trans)
    madeOf_nameParts (fun _ _ _ _ he => solid_of_readsNoBlank he) (by decide)
  refine ⟨mid, node, cs, ms, rfl, hnode.label_eq, ?_, ?_, hcs,
    ⟨gap, hne, hspacing, hgap.append hpasses⟩, hitems⟩
  · rw [textOf, hnode.text_eq hpasses]
    apply Text.trim_of_tight (Text.tight_of_forall hcs)
  · rintro rfl
    exact offset_ne_of_localName hgrows hpasses.2

/-! ### Descriptors -/

/-- What the rule of descriptors takes is a descriptor. -/
theorem exists_descriptor (h : Grows draft (.rule "FieldDescriptor") here there ns) :
  ∃ d : ListedDescriptor, here.Passes d.chars there
  := by
  -- each dimension takes a character of what is left
  induction hlength : here.rest.length using Nat.strongRecOn generalizing here ns with
  | ind n ih =>
      obtain ⟨_, h⟩ := body_of_rule (mem_descriptors 0 rfl) h
      obtain ⟨item, hmem, h⟩ := h.of_choice
      obtain ⟨label, hlabel, rfl⟩ := List.mem_map.mp hmem
      simp only [List.mem_cons, List.not_mem_nil, or_false] at hlabel
      obtain rfl | rfl | rfl := hlabel
      · obtain ⟨_, h⟩ := body_of_rule (mem_descriptors 1 rfl) h
        obtain ⟨c, hc, hpasses⟩ := h.of_char
        exact ⟨⟨0, .basic c (List.contains_iff_mem.mp hc)⟩, hpasses⟩
      · obtain ⟨_, h⟩ := body_of_rule (mem_descriptors 2 rfl) h
        obtain ⟨_, hbegin, h⟩ := h.of_seq_only
        obtain ⟨_, _, _, -, hname, h⟩ := h.of_seq_cons
        obtain ⟨_, hname⟩ := body_of_rule (mem_descriptors 3 rfl) hname
        obtain ⟨name, hne, hplain, hname⟩ := hname.of_plus_char
        obtain ⟨_, hend, h⟩ := h.of_seq_only
        obtain ⟨rfl, -⟩ := h.of_seq_nil
        have hplain : ∀ c ∈ name, c ∉ ";\r\n".toList := by
          intro c hmem
          simpa [CharClass.holds] using hplain c hmem
        exact ⟨⟨0, .object name hne hplain⟩, hbegin.append (hname.append hend)⟩
      · obtain ⟨_, h⟩ := body_of_rule (mem_descriptors 4 rfl) h
        obtain ⟨mid, hbegin, h⟩ := h.of_seq_only
        obtain ⟨_, _, _, -, hinner, h⟩ := h.of_seq_cons
        obtain ⟨rfl, -⟩ := h.of_seq_nil
        have hshorter : mid.rest.length < n := by
          rw [← hlength, hbegin.1]
          simp
        obtain ⟨⟨dims, element⟩, hpasses⟩ := ih _ hshorter hinner rfl
        exact ⟨⟨dims + 1, element⟩, hbegin.append hpasses⟩

theorem seq_of_descriptor (hstart : (Cursor.atStart source).Reaches here)
    (h : Grows draft (.seq (.rule "RowSpacing" :: .rule "FieldDescriptor" :: items)) here there ns) :
  ∃ mid node, ∃ d : ListedDescriptor, ∃ ms, ns = node :: ms ∧ node.label = "FieldDescriptor"
    ∧ textOf source node = String.ofList d.chars ∧ PassesColumn here d.chars mid
    ∧ Grows draft (.seq items) mid there ms
  := by
  obtain ⟨_, gap, hne, hspacing, hgap, h⟩ := seq_of_rowSpacing h
  have hstart := hstart.trans hgap.reaches
  obtain ⟨mid, _, ms, rfl, hitem, hitems⟩ := h.of_seq_cons
  obtain ⟨d, hpasses⟩ := exists_descriptor hitem
  obtain ⟨node, rfl, hnode⟩ := node_of_rule (mem_descriptors 0 rfl) rfl hstart hitem
  refine ⟨mid, node, d, ms, rfl, hnode.label_eq, ?_,
    ⟨gap, hne, hspacing, hgap.append hpasses⟩, hitems⟩
  rw [textOf, hnode.text_eq hpasses]
  apply Text.trim_of_tight d.tight

/-! ### Rows -/

/-- A line in columns leads from one position to another. -/
def RowFrom (here : Cursor) (columns : List (List Char)) (there : Cursor) : Prop :=
  ∃ content ending, InColumns columns content ∧ Text.EndsLine ending there.rest
    ∧ here.Passes (content ++ ending) there

theorem RowFrom.next {column : List Char} {columns : List (List Char)} {mid : Cursor}
    (hcolumn : PassesColumn here column mid) (h : RowFrom mid columns there) :
  RowFrom here (column :: columns) there
  := by
  obtain ⟨gap, hne, hspacing, hgap⟩ := hcolumn
  obtain ⟨content, ending, hcontent, hends, hpasses⟩ := h
  refine ⟨gap ++ (column ++ content), ending, .next hne hspacing hcontent, hends, ?_⟩
  rw [← List.append_assoc gap, List.append_assoc _ content]
  exact hgap.append hpasses

theorem rowFrom_nil
    (h : Grows draft (.seq (Expr.rules ["InlineSpacing", "Newline"])) here there ns) :
  RowFrom here [] there ∧ ns = []
  := by
  obtain ⟨_, after, hafter, hpasses, h⟩ := seq_of_inlineSpacing h
  obtain ⟨_, ending, hends, hending, h⟩ := seq_of_newline h
  obtain ⟨rfl, rfl⟩ := h.of_seq_nil
  exact ⟨⟨after, ending, .stop hafter, hends, hpasses.append hending⟩, rfl⟩

/-- A line in columns is a line. -/
theorem RowFrom.exists_line {columns : List (List Char)} (h : RowFrom here columns there)
    (hcolumns : ∀ column ∈ columns, Text.InOneLine column) :
  ∃ line : Line, here.PassesLine line there ∧ InColumns columns line.content
  := by
  obtain ⟨content, ending, hcontent, hends, hpasses⟩ := h
  exact ⟨⟨_, content⟩, ⟨rfl, hcontent.inOneLine hcolumns, ending, hends, hpasses⟩, hcontent⟩

/-- The line of a row is written as an entry, and the row is read as that entry if at all. -/
def Reads {α : Type} (written : α → List Char → Prop) (read : Node → Projected α) (row : Node)
    (content : List Char) : Prop :=
  ∃ entry, written entry content ∧ ∀ e, read row = .ok e → e = entry

theorem eq_of_lineNumber {row line offset : Node} {m n : Nat}
    (hchildren : row.children = [line, offset]) (hline : IsNumeral source m line)
    (hoffset : IsNumeral source n offset) {entry : LineNumber}
    (h : lineNumber source row = .ok entry) :
  entry = ⟨m, n⟩
  := by
  rw [lineNumber_eq_bind source hchildren hline.label_eq hoffset.label_eq] at h
  obtain ⟨m', hm, h⟩ := exists_of_bind_eq_ok h
  obtain ⟨n', hn, h⟩ := exists_of_bind_eq_ok h
  rw [← Except.ok.inj h, hline.eq_of_number _ _ hm, hoffset.eq_of_number _ _ hn]

/-- A row of a line number table is a line. -/
theorem Covers.lineRow {row : Node} (h : Covers source tables[1] here there row) :
  ∃ line : Line, here.PassesLine line there
    ∧ Reads LineNumber.IsWritten (lineNumber source) row line.content
  := by
  obtain ⟨_, hchildren, hgrows⟩ := h.grows
  obtain ⟨_, hword, hgrows⟩ := seq_of_word hgrows
  have hstart := h.reaches.trans hword.reaches
  obtain ⟨_, line, m, ms, _, rfl, hline, hm, hms, hgrows⟩ := seq_of_numeral hstart hgrows
  obtain ⟨_, hcolon, hgrows⟩ := hgrows.of_seq_only
  have hstart := hstart.trans (hms.append hcolon).reaches
  obtain ⟨_, offset, n, ns, _, rfl, hoffset, hn, hns, hgrows⟩ := seq_of_numeral hstart hgrows
  obtain ⟨hend, rfl⟩ := rowFrom_nil hgrows
  have hrow := RowFrom.next hword (.next (hms.append hcolon) (.next hns hend))
  obtain ⟨l, hpasses, hcolumns⟩ := hrow.exists_line (by
    have hfixed : Text.InOneLine "line".toList ∧ Text.InOneLine [':'] := by decide
    simpa [Text.inOneLine_append, hfixed.2, hm.inOneLine, hn.inOneLine] using hfixed.1)
  refine ⟨l, hpasses, ⟨m, n⟩, ⟨ms, ns, hm, hn, hcolumns⟩, ?_⟩
  intro entry hentry
  apply eq_of_lineNumber hchildren hline hoffset hentry

theorem eq_of_localVariable {row first length slot name descriptor : Node} {k m n : Nat}
    (hchildren : row.children = [first, length, slot, name, descriptor])
    (hfirst : IsNumeral source k first) (hlength : IsNumeral source m length)
    (hslot : IsNumeral source n slot) (hname : name.label = "LocalName")
    (hdescriptor : descriptor.label = "FieldDescriptor") {entry : LocalVariable}
    (h : localVariable source row = .ok entry) :
  entry = ⟨k, m, n, textOf source name, textOf source descriptor⟩
  := by
  rw [localVariable_eq_bind source hchildren hfirst.label_eq hlength.label_eq hslot.label_eq
    hname hdescriptor] at h
  obtain ⟨k', hk, h⟩ := exists_of_bind_eq_ok h
  obtain ⟨m', hm, h⟩ := exists_of_bind_eq_ok h
  obtain ⟨n', hn, h⟩ := exists_of_bind_eq_ok h
  rw [← Except.ok.inj h, hfirst.eq_of_number _ _ hk, hlength.eq_of_number _ _ hm,
    hslot.eq_of_number _ _ hn]

/-- A row of a local variable table is a line. -/
theorem Covers.variableRow {row : Node} (h : Covers source tables[4] here there row) :
  ∃ line : Line, here.PassesLine line there
    ∧ Reads LocalVariable.IsWritten (localVariable source) row line.content
  := by
  have hstart := h.reaches
  obtain ⟨_, hchildren, hgrows⟩ := h.grows
  obtain ⟨_, first, k, ks, _, rfl, hfirst, hk, hks, hgrows⟩ := seq_of_numeral hstart hgrows
  have hstart := hstart.trans hks.reaches
  obtain ⟨_, length, m, ms, _, rfl, hlength, hm, hms, hgrows⟩ := seq_of_numeral hstart hgrows
  have hstart := hstart.trans hms.reaches
  obtain ⟨_, slot, n, ns, _, rfl, hslot, hn, hns, hgrows⟩ := seq_of_numeral hstart hgrows
  have hstart := hstart.trans hns.reaches
  obtain ⟨_, name, cs, _, rfl, hname, hnameText, hne, hcs, hpassesName, hgrows⟩ :=
    seq_of_localName hstart hgrows
  have hstart := hstart.trans hpassesName.reaches
  obtain ⟨_, descriptor, d, _, rfl, hdescriptor, hdescriptorText, hd, hgrows⟩ :=
    seq_of_descriptor hstart hgrows
  obtain ⟨hend, rfl⟩ := rowFrom_nil hgrows
  have hrow := RowFrom.next hks (.next hms (.next hns (.next hpassesName (.next hd hend))))
  have hcsLine : Text.InOneLine cs := inOneLine_of_forall hcs (by decide) (by decide)
  obtain ⟨line, hpasses, hcolumns⟩ := hrow.exists_line (by
    simp [hk.inOneLine, hm.inOneLine, hn.inOneLine, hcsLine, d.inOneLine])
  refine ⟨line, hpasses, ⟨k, m, n, String.ofList cs, String.ofList d.chars⟩,
    ⟨ks, ms, ns, cs, d, hk, hm, hn, rfl, hne, hcs, rfl, hcolumns⟩, ?_⟩
  intro entry hentry
  rw [← hnameText, ← hdescriptorText]
  apply eq_of_localVariable hchildren hfirst hlength hslot hname hdescriptor hentry

end

end ClassTranscript.Transcript
