import ClassTranscript.Proofs.Text.Lines

/-!
# The lines that make up a text

A text can be cut at its line ends (`Text.CutInto`). The line table knows the pieces: each line
starts behind the ones before it (`Text.CutInto.starts_getElem?`), and what is trimmed off a line is
the one line end that belongs to it (`LineTable.lineText_partition`), so the lines with their line
ends are the text.
-/

namespace ClassTranscript

namespace Text

/-- What stands in a line, and the line end behind it. At the end of a text there is none. -/
structure EndedLine where
  content : List Char
  ending : List Char

/-- A line with its line end. -/
def EndedLine.whole (line : EndedLine) : List Char :=
  line.content ++ line.ending

/-- The text consists of lines, of which all but the last have a line end. -/
inductive CutInto : List Char → List EndedLine → Prop where
  | last {cs : List Char} :
    InOneLine cs → CutInto cs [⟨cs, []⟩]
  | line {cs ending rest : List Char} {lines : List EndedLine} :
    InOneLine cs → EndsLine ending rest → CutInto rest lines →
    CutInto (cs ++ (ending ++ rest)) (⟨cs, ending⟩ :: lines)

namespace CutInto

variable {cs : List Char} {lines : List EndedLine} {line : EndedLine} {k : Nat}

theorem flatMap_whole (h : CutInto cs lines) :
  lines.flatMap EndedLine.whole = cs
  := by
  induction h with
  | last _ => simp [EndedLine.whole]
  | line _ _ _ ih => rw [List.flatMap_cons, ih, EndedLine.whole, List.append_assoc]

/-- A character that ends no line lengthens the first line. -/
theorem exists_cons {c : Char} (hc : c ≠ '\r' ∧ c ≠ '\n') (h : CutInto cs lines) :
  ∃ lines', CutInto (c :: cs) lines'
  := by
  cases h with
  | last hone => exact ⟨_, .last (List.forall_mem_cons.mpr ⟨hc, hone⟩)⟩
  | line hone hend hrest =>
      rw [← List.cons_append]
      exact ⟨_, .line (List.forall_mem_cons.mpr ⟨hc, hone⟩) hend hrest⟩

/-- Every text can be cut into lines. -/
theorem exists_lines (cs : List Char) :
  ∃ lines, CutInto cs lines
  := by
  have hempty : InOneLine [] := by decide
  induction 0, cs using LineTable.startsFrom.induct with
  | case1 => exact ⟨_, .last hempty⟩
  | case2 n cs ih =>
      obtain ⟨lines, h⟩ := ih
      have hends : EndsLine ['\r', '\n'] cs := ⟨by decide, fun heq => absurd heq (by decide)⟩
      exact ⟨_, .line hempty hends h⟩
  | case3 n c cs hpair hend ih =>
      obtain ⟨lines, h⟩ := ih
      refine ⟨_, @line [] [c] cs _ hempty ⟨?_, ?_⟩ h⟩
      · rcases hend with rfl | rfl <;> decide
      · intro hc hhead
        obtain ⟨tail, rfl⟩ := List.head?_eq_some_iff.mp hhead
        exact hpair tail (List.head_eq_of_cons_eq hc) rfl
  | case4 n c cs hpair hend ih =>
      obtain ⟨lines, h⟩ := ih
      exact h.exists_cons (not_or.mp hend)

/-- What stands in a line is in one line, a line end follows it unless it is the last, and what
follows that are the other lines. -/
theorem of_getElem? (h : CutInto cs lines) (hline : lines[k]? = some line) :
  InOneLine line.content
    ∧ (k + 1 < lines.length →
      EndsLine line.ending ((lines.drop (k + 1)).flatMap EndedLine.whole))
    ∧ (k + 1 = lines.length → line.ending = [])
  := by
  induction h generalizing k with
  | last hone =>
      cases k with
      | zero =>
          cases hline
          exact ⟨hone, nofun, fun _ => rfl⟩
      | succ k => cases hline
  | @line cs ending rest lines hone hend hrest ih =>
      cases k with
      | zero =>
          cases hline
          refine ⟨hone, fun _ => ?_, fun hlength => ?_⟩
          · rw [List.drop_succ_cons, List.drop_zero, hrest.flatMap_whole]
            apply hend
          · cases hrest <;> cases hlength
      | succ k =>
          rw [List.getElem?_cons_succ] at hline
          obtain ⟨hone', hends, hlast⟩ := ih hline
          refine ⟨hone', fun hlt => hends (Nat.lt_of_succ_lt_succ hlt), fun hlength => ?_⟩
          apply hlast (Nat.succ.inj hlength)

open LineTable in
/-- A line starts behind the ones before it. -/
theorem starts_getElem? (h : CutInto cs lines) (n k : Nat) :
  (n :: startsFrom n cs)[k]?
    = if k < lines.length then some (n + byteLength ((lines.take k).flatMap EndedLine.whole))
      else none
  := by
  induction h generalizing n k with
  | @last cs hone =>
      have hstarts := startsFrom_of_inOneLine hone n []
      rw [List.append_nil] at hstarts
      cases k with
      | zero => rfl
      | succ k => simp [hstarts, startsFrom]
  | @line cs ending rest lines hone hend _ ih =>
      rw [startsFrom_of_inOneLine hone, startsFrom_of_endsLine hend]
      cases k with
      | zero => rfl
      | succ k =>
          rw [List.getElem?_cons_succ, ih, List.take_succ_cons, List.flatMap_cons,
            byteLength_append, EndedLine.whole, byteLength_append, List.length_cons]
          simp only [Nat.succ_lt_succ_iff, Nat.add_assoc]

end CutInto

end Text

namespace LineTable

open Text

/-- The text from where a line starts up to where the next one does, or to the end. -/
def wholeLine? (t : LineTable) (n : Nat) : Option (List Char) :=
  t.starts[n]?.bind fun start =>
    slice? start (t.starts[n + 1]?.getD t.source.utf8ByteSize) t.source.toList

variable {source : String} {lines : List EndedLine} {line : EndedLine} {n : Nat}

theorem lineText_succ (t : LineTable) (n : Nat) :
  t.lineText (n + 1)
    = (t.wholeLine? n).map fun cs =>
      String.ofList (dropEndWhile (fun c => c == '\r' || c == '\n') cs)
  := by
  simp only [lineText, wholeLine?]
  cases t.starts[n]? with
  | none => rfl
  | some start =>
      change Option.bind _ _ = _
      rw [Option.bind_some, Option.bind_some, Option.map_eq_bind]
      rfl

theorem length_eq_lineCount (h : CutInto source.toList lines) :
  lines.length = (ofText source).lineCount
  := by
  have hcount (k : Nat) : (ofText source).lineCount ≤ k ↔ lines.length ≤ k := by
    rw [lineCount, ← List.getElem?_eq_none_iff, ofText, h.starts_getElem?]
    split
    · simpa using by omega
    · simpa using by omega
  apply Nat.le_antisymm
  · apply (hcount _).mp (Nat.le_refl _)
  · apply (hcount _).mpr (Nat.le_refl _)

theorem wholeLine?_eq (h : CutInto source.toList lines) (hline : lines[n]? = some line) :
  (ofText source).wholeLine? n = some line.whole
  := by
  obtain ⟨hn, rfl⟩ := List.getElem?_eq_some_iff.mp hline
  have hsplit : source.toList = (lines.take n).flatMap EndedLine.whole
      ++ (lines[n].whole ++ (lines.drop (n + 1)).flatMap EndedLine.whole) := by
    rw [← List.flatMap_cons, List.getElem_cons_drop, ← List.flatMap_append,
      List.take_append_drop, h.flatMap_whole]
  have hstart : (ofText source).starts[n]?
      = some (byteLength ((lines.take n).flatMap EndedLine.whole)) := by
    rw [ofText, h.starts_getElem?, if_pos hn, Nat.zero_add]
  have hstop : (ofText source).starts[n + 1]?.getD source.utf8ByteSize
      = byteLength ((lines.take n).flatMap EndedLine.whole) + byteLength lines[n].whole := by
    rw [ofText, h.starts_getElem?, ← byteLength_append]
    split
    · rw [Option.getD_some, Nat.zero_add, List.take_succ_eq_append_getElem hn,
        List.flatMap_append, List.flatMap_singleton]
    · rename_i hlast
      rw [Option.getD_none, utf8ByteSize_eq_byteLength, hsplit, List.drop_of_length_le (by omega),
        List.flatMap_nil, List.append_nil]
  rw [wholeLine?, hstart, Option.bind_some]
  change slice? _ ((ofText source).starts[n + 1]?.getD source.utf8ByteSize) source.toList = _
  rw [hstop, hsplit, slice?_byteLength]

/-- Trimming takes the line end off a line and nothing of what stands in the line. -/
theorem lineText_eq (h : CutInto source.toList lines) (hline : lines[n]? = some line) :
  (ofText source).lineText (n + 1) = some (String.ofList line.content)
  := by
  obtain ⟨hone, hends, hlast⟩ := h.of_getElem? hline
  rw [lineText_succ, wholeLine?_eq h hline, Option.map_some, EndedLine.whole,
    dropEndWhile_append hone.not_trimmed]
  rcases Nat.lt_or_eq_of_le (List.getElem?_eq_some_iff.mp hline).1 with hlt | heq
  · apply (hends hlt).trimmed
  · rw [hlast heq]
    nofun

/-- The lines of a table are those from the first to the last, and make up the text: behind what
stands in a line, which is in one line, comes one line end, or nothing at the end of the text. Of
the text of a line only that line end is trimmed. -/
theorem lineText_partition (source : String) :
  (∀ n, ((ofText source).lineText n).isSome = true ↔ 1 ≤ n ∧ n ≤ (ofText source).lineCount)
    ∧ ∃ lines : List EndedLine, lines.length = (ofText source).lineCount
      ∧ source.toList = lines.flatMap EndedLine.whole
      ∧ ∀ n line, lines[n]? = some line →
        (ofText source).lineText (n + 1) = some (String.ofList line.content)
        ∧ InOneLine line.content
        ∧ (n + 1 < lines.length →
          EndsLine line.ending ((lines.drop (n + 1)).flatMap EndedLine.whole))
        ∧ (n + 1 = lines.length → line.ending = [])
        ∧ (ofText source).wholeLine? n = some line.whole
  := by
  obtain ⟨lines, h⟩ := CutInto.exists_lines source.toList
  constructor
  · intro n
    rw [← length_eq_lineCount h]
    cases n with
    | zero => simp [lineText]
    | succ n =>
        cases hline : lines[n]? with
        | some line =>
            have := (List.getElem?_eq_some_iff.mp hline).1
            rw [lineText_eq h hline]
            simp
            omega
        | none =>
            have := List.getElem?_eq_none_iff.mp hline
            rw [lineText_succ, wholeLine?, ofText, h.starts_getElem?, if_neg (by omega)]
            simp
            omega
  · refine ⟨lines, length_eq_lineCount h, h.flatMap_whole.symm, ?_⟩
    intro n line hline
    obtain ⟨hone, hends, hlast⟩ := h.of_getElem? hline
    exact ⟨lineText_eq h hline, hone, hends, hlast, wholeLine?_eq h hline⟩

example :
  (List.range 7).map (ofText "a\r\r\n\n\rb\r").lineText
    = [none, some "a", some "", some "", some "", some "b", some ""]
  := by
  cbv

end LineTable

end ClassTranscript
