import ClassTranscript.Proofs.Text.Slice
import ClassTranscript.Proofs.Text.Trim
import ClassTranscript.Text.Lines

/-!
# Lines of a text

A `Line` of a text is what its line table says it is (`Line.IsAt`): the text from one line start to
the next, which is some characters in one line and one line end. A position is `AtLine` of a number
where the line of that number starts. The lines passed from there on are those of the numbers that
follow (`AtLine.passes`), and every position just behind a line end is the start of a line
(`exists_atLine`).
-/

namespace ClassTranscript

namespace Text

/-- What ends a line. -/
def lineEnds : List (List Char) :=
  [['\r', '\n'], ['\r'], ['\n']]

/-- The text in front of `rest` is a line end and not the first half of one. -/
structure EndsLine (ending rest : List Char) : Prop where
  mem : ending ∈ lineEnds
  whole : ending = ['\r'] → rest.head? ≠ some '\n'

/-- A line end is trimmed off the line in front of it. -/
theorem EndsLine.trimmed {ending rest : List Char} (h : EndsLine ending rest) :
  ∀ c ∈ ending, (c == '\r' || c == '\n') = true
  := by
  have hall : lineEnds.all (·.all fun c => c == '\r' || c == '\n') = true := rfl
  exact List.all_eq_true.mp (List.all_eq_true.mp hall ending h.mem)

/-- No character of the text ends a line. -/
def InOneLine (cs : List Char) : Prop :=
  ∀ c ∈ cs, c ≠ '\r' ∧ c ≠ '\n'

instance (cs : List Char) : Decidable (InOneLine cs) :=
  List.decidableBAll _ cs

/-- What is in one line does not end in anything to be trimmed. -/
theorem InOneLine.not_trimmed {cs : List Char} (h : InOneLine cs) :
  ∀ c, cs.getLast? = some c → (c == '\r' || c == '\n') = false
  := by
  intro c hc
  simpa using h c (List.mem_of_getLast? hc)

theorem inOneLine_append {cs ds : List Char} :
  InOneLine (cs ++ ds) ↔ InOneLine cs ∧ InOneLine ds
  := List.forall_mem_append

/-! ### Texts without a line end -/

/-- A text without the line end at its end. -/
def dropLineEnd (cs : List Char) : List Char :=
  match cs.reverse with
  | '\n' :: '\r' :: rest => rest.reverse
  | '\r' :: rest => rest.reverse
  | '\n' :: rest => rest.reverse
  | _ => cs

example : dropLineEnd "a\r\n".toList = ['a'] ∧ dropLineEnd "a\n\r".toList = ['a', '\n'] := by
  decide

theorem dropLineEnd_append {cs ending : List Char} (h : ending ∈ lineEnds)
    (hwhole : ending = ['\n'] → cs.getLast? ≠ some '\r') :
  dropLineEnd (cs ++ ending) = cs
  := by
  simp only [lineEnds, List.mem_cons, List.not_mem_nil, or_false] at h
  rcases h with rfl | rfl | rfl
  · simp [dropLineEnd]
  · simp [dropLineEnd]
  · have hlast := hwhole rfl
    rw [List.getLast?_eq_head?_reverse] at hlast
    rw [dropLineEnd, List.reverse_append, List.reverse_singleton, List.singleton_append]
    split
    · rename_i heq
      rw [(List.cons.inj heq).2] at hlast
      simp at hlast
    · rename_i heq
      simp at heq
    · rename_i heq
      rw [← (List.cons.inj heq).2, List.reverse_reverse]
    · rename_i heq
      exact (heq _ rfl).elim

/-- A line end is not what is left of one whose first half stands in front of it. -/
theorem EndsLine.getLast?_ne {ending blank rest : List Char}
    (h : EndsLine ending (blank ++ rest)) (hblank : blank = ['\n']) (cs : List Char) :
  (cs ++ ending).getLast? ≠ some '\r'
  := by
  have hmem := h.mem
  simp only [lineEnds, List.mem_cons, List.not_mem_nil, or_false] at hmem
  rcases hmem with rfl | rfl | rfl
  · simp
  · exact absurd (by rw [hblank]; rfl) (h.whole rfl)
  · simp

end Text

/-- A line of a text: what it covers, its line end included, and what stands in it. -/
structure Line where
  span : Span
  content : List Char

/-- The line is the one of a number in a text, counted from zero. It ends in one line end. -/
structure Line.IsAt (line : Line) (source : String) (n : Nat) : Prop where
  start_eq : (LineTable.ofText source).starts[n]? = some line.span.start
  stop_eq : (LineTable.ofText source).starts[n + 1]? = some line.span.stop
  lineText_eq : (LineTable.ofText source).lineText (n + 1) = some (String.ofList line.content)
  slice_eq : ∃ ending ∈ Text.lineEnds,
    line.span.slice source = String.ofList (line.content ++ ending)
  in_one_line : Text.InOneLine line.content

/-- The lines follow one another in a text, the first of them with the number `n`. -/
def Consecutive (source : String) (n : Nat) (lines : List Line) : Prop :=
  ∀ (k : Nat) (line : Line), lines[k]? = some line → line.IsAt source (n + k)

/-! ### Line starts -/

namespace LineTable

open Text

variable {cs ending rest : List Char}

/-- There are no line starts within a line. -/
theorem startsFrom_of_inOneLine (h : InOneLine cs) (n : Nat) (rest : List Char) :
  startsFrom n (cs ++ rest) = startsFrom (n + byteLength cs) rest
  := by
  induction cs generalizing n with
  | nil => rfl
  | cons c cs ih =>
      obtain ⟨⟨hreturn, hfeed⟩, hcs⟩ := List.forall_mem_cons.mp h
      rw [List.cons_append, startsFrom, if_neg (not_or.mpr ⟨hreturn, hfeed⟩), ih hcs,
        byteLength_cons, Nat.add_assoc]
      rintro _ rfl
      contradiction

/-- Behind a character that ends a line on its own a line starts. -/
theorem startsFrom_cons {c : Char} (hend : c = '\r' ∨ c = '\n')
    (halone : c = '\r' → rest.head? ≠ some '\n') (n : Nat) :
  startsFrom n (c :: rest) = (n + 1) :: startsFrom (n + 1) rest
  := by
  rw [startsFrom, if_pos hend]
  rintro tail rfl rfl
  exact halone rfl rfl

/-- Behind a line end a line starts. -/
theorem startsFrom_of_endsLine (h : EndsLine ending rest) (n : Nat) :
  startsFrom n (ending ++ rest)
    = (n + byteLength ending) :: startsFrom (n + byteLength ending) rest
  := by
  obtain ⟨hmem, hwhole⟩ := h
  simp only [lineEnds, List.mem_cons, List.not_mem_nil, or_false] at hmem
  rcases hmem with rfl | rfl | rfl
  · rfl
  · apply startsFrom_cons (.inl rfl) fun _ => hwhole rfl
  · apply startsFrom_cons (.inr rfl)
    rintro ⟨⟩

/-- A line end that begins with a line feed is that line feed. -/
theorem eq_of_head?_append (h : EndsLine ending rest)
    (hhead : (ending ++ rest).head? = some '\n') :
  ending = ['\n']
  := by
  have hmem := h.mem
  simp only [lineEnds, List.mem_cons, List.not_mem_nil, or_false] at hmem
  rcases hmem with rfl | rfl | rfl
  · cases hhead
  · cases hhead
  · rfl

/-- The line start behind a line end is among those of a text, and the line starts of what follows
come after it. -/
theorem startsFrom_suffix (before : List Char) (h : EndsLine ending rest) (n : Nat) :
  (n + byteLength before + byteLength ending)
      :: startsFrom (n + byteLength before + byteLength ending) rest
    <:+ startsFrom n (before ++ (ending ++ rest))
  := by
  induction n, before using startsFrom.induct with
  | case1 n =>
      rw [List.nil_append, startsFrom_of_endsLine h]
      apply List.suffix_refl
  | case2 n cs ih =>
      rw [List.cons_append, List.cons_append, startsFrom]
      have hbytes : n + byteLength ('\r' :: '\n' :: cs) = n + 2 + byteLength cs := by
        simp only [byteLength_cons, ← Nat.add_assoc]
        rfl
      rw [hbytes]
      apply ih.trans (List.suffix_cons _ _)
  | case3 n c cs hpair hend ih =>
      have hsize : c.utf8Size = 1 := by rcases hend with rfl | rfl <;> rfl
      by_cases hjoins : c = '\r' ∧ (cs ++ (ending ++ rest)).head? = some '\n'
      · -- the two characters of one line end, of which `before` has the first
        obtain ⟨rfl, hhead⟩ := hjoins
        cases cs with
        | cons x cs =>
            obtain rfl : x = '\n' := Option.some.inj hhead
            exact (hpair cs rfl rfl).elim
        | nil =>
            obtain rfl := eq_of_head?_append h hhead
            apply List.suffix_refl
      · rw [List.cons_append, startsFrom_cons hend fun hc hhead => hjoins ⟨hc, hhead⟩,
          byteLength_cons, hsize, ← Nat.add_assoc]
        apply ih.trans (List.suffix_cons _ _)
  | case4 n c cs _ hend ih =>
      rw [List.cons_append, startsFrom, if_neg hend, byteLength_cons, ← Nat.add_assoc]
      · apply ih
      · rintro _ rfl
        exact absurd (.inl rfl) hend

end LineTable

/-! ### Passing lines -/

namespace Peg.Cursor

open Text LineTable

/-- The position is the start of the line of a number. -/
structure AtLine (here : Cursor) (source : String) (n : Nat) : Prop where
  reaches : (atStart source).Reaches here
  starts_eq : (ofText source).starts.drop n = here.offset :: startsFrom here.offset here.rest

/-- A line stands between two positions. -/
structure PassesLine (here : Cursor) (line : Line) (there : Cursor) : Prop where
  span_eq : line.span = ⟨here.offset, there.offset⟩
  in_one_line : InOneLine line.content
  passes : ∃ ending, EndsLine ending there.rest ∧ here.Passes (line.content ++ ending) there

/-- Lines stand between two positions. -/
inductive PassesLines : Cursor → List Line → Cursor → Prop where
  | nil {here : Cursor} :
    PassesLines here [] here
  | cons {line : Line} {lines : List Line} {here mid there : Cursor} :
    PassesLine here line mid →
    PassesLines mid lines there →
    PassesLines here (line :: lines) there

variable {source : String} {here mid there : Cursor} {line : Line} {lines others : List Line}
  {n : Nat}

/-- A position just behind a line end is the start of a line. -/
theorem exists_atLine {ending : List Char} (hstart : (atStart source).Reaches here)
    (hends : EndsLine ending there.rest) (hpasses : here.Passes ending there) :
  ∃ n, there.AtLine source n
  := by
  obtain ⟨before, hbefore⟩ := hstart
  have hthere : (atStart source).Passes (before ++ ending) there := Passes.append hbefore hpasses
  have hsource : source.toList = before ++ (ending ++ there.rest) := by
    rw [← List.append_assoc]
    apply hthere.1
  have hoffset : there.offset = 0 + byteLength before + byteLength ending := by
    rw [hthere.2, byteLength_append, Nat.zero_add]
    apply Nat.zero_add
  have hsuffix := startsFrom_suffix before hends 0
  rw [← hsource, ← hoffset] at hsuffix
  obtain ⟨earlier, hearlier⟩ := hsuffix
  refine ⟨earlier.length + 1, hthere.reaches, ?_⟩
  rw [ofText, ← hearlier, List.drop_succ_cons, List.drop_left]

/-- Passing a line leads from the start of the line to the start of the next. -/
theorem AtLine.next (h : here.AtLine source n) (hline : here.PassesLine line there) :
  line.IsAt source n ∧ there.AtLine source (n + 1)
  := by
  obtain ⟨hreaches, hstarts⟩ := h
  obtain ⟨hspan, hone, ending, hends, hpasses⟩ := hline
  have hdrop : (ofText source).starts.drop n
      = here.offset :: there.offset :: startsFrom there.offset there.rest := by
    rw [hstarts, hpasses.1, List.append_assoc, startsFrom_of_inOneLine hone,
      startsFrom_of_endsLine hends, Nat.add_assoc, ← byteLength_append, ← hpasses.2]
  have hfirst : (ofText source).starts[n]? = some here.offset := by
    rw [← Nat.add_zero n, ← List.getElem?_drop, hdrop]
    rfl
  have hsecond : (ofText source).starts[n + 1]? = some there.offset := by
    rw [← List.getElem?_drop, hdrop]
    rfl
  constructor
  · constructor
    · rw [hspan, hfirst]
    · rw [hspan, hsecond]
    · have hslice := slice?_eq hreaches hpasses.1 hpasses.2
      simp only [lineText, hfirst, hsecond, Option.getD_some]
      change (slice? here.offset there.offset source.toList).bind _ = _
      rw [hslice, Option.bind_some, dropEndWhile_append hone.not_trimmed hends.trimmed]
      rfl
    · refine ⟨ending, hends.mem, ?_⟩
      rw [hspan, slice_eq hreaches hpasses.1 hpasses.2]
    · apply hone
  · use hreaches.trans hpasses.reaches
    rw [← List.drop_drop, hdrop, List.drop_succ_cons, List.drop_zero]

theorem PassesLines.append (h : here.PassesLines lines mid) (h' : mid.PassesLines others there) :
  here.PassesLines (lines ++ others) there
  := by
  induction h with
  | nil => apply h'
  | cons hline _ ih => exact .cons hline (ih h')

theorem PassesLines.reaches (h : here.PassesLines lines there) :
  here.Reaches there
  := by
  induction h with
  | nil => apply Reaches.refl
  | cons hline _ ih =>
      obtain ⟨-, -, _, -, hpasses⟩ := hline
      apply hpasses.reaches.trans ih

/-- Lines that are passed follow one another in the text, and behind them the next line starts. -/
theorem AtLine.passes (h : here.AtLine source n) (hlines : here.PassesLines lines there) :
  Consecutive source n lines ∧ there.AtLine source (n + lines.length)
  := by
  induction hlines generalizing n with
  | nil =>
      use fun _ _ hk => nomatch hk
      apply h
  | @cons first _ _ _ _ hline _ ih =>
      obtain ⟨hat, hnext⟩ := h.next hline
      obtain ⟨hlines, hafter⟩ := ih hnext
      rw [List.length_cons, Nat.add_comm _ 1, ← Nat.add_assoc]
      refine ⟨?_, hafter⟩
      intro k line hk
      cases k with
      | zero =>
          obtain rfl : first = line := Option.some.inj hk
          apply hat
      | succ k =>
          rw [Nat.add_comm k, ← Nat.add_assoc]
          apply hlines k line hk

end Peg.Cursor

end ClassTranscript
