import ClassTranscript.Diagnostic.Report
import ClassTranscript.Proofs.Text.Positions

/-!
# The two locations of a report

A report gives the place of a mismatch twice, in its title and behind the path. The title counts the
lines of the line table, which carriage returns end as well; behind the path stands the line of the
excerpt, which ends at a line feed only (`Excerpt.located_of_feeds`). `Mismatch.locations_agree_iff`
says by how much the two lines differ, and where the two locations are the same.
-/

namespace ClassTranscript

namespace Text

/-- How many carriage returns of `before` no line feed follows, where `after` stands behind it. -/
def loneReturns : List Char → List Char → Nat
  | [], _ => 0
  | c :: before, after =>
    (if c = '\r' ∧ (before ++ after).head? ≠ some '\n' then 1 else 0) + loneReturns before after

theorem loneReturns_append (xs ys after : List Char) :
  loneReturns (xs ++ ys) after = loneReturns xs (ys ++ after) + loneReturns ys after
  := by
  induction xs with
  | nil => rw [List.nil_append, loneReturns, Nat.zero_add]
  | cons c xs ih => rw [List.cons_append, loneReturns, loneReturns, ih, List.append_assoc,
      Nat.add_assoc]

/-- The text is empty or ends in a line feed. -/
inductive FeedEnded : List Char → Prop where
  | nil : FeedEnded []
  | line {cs rest : List Char} : '\n' ∉ cs → FeedEnded rest → FeedEnded (cs ++ '\n' :: rest)

/-- Every text consists of lines that end in line feeds and what stands behind the last. -/
theorem exists_feedEnded (cs : List Char) :
  ∃ passed current, cs = passed ++ current ∧ FeedEnded passed ∧ '\n' ∉ current
  := by
  induction cs with
  | nil => exact ⟨[], [], rfl, .nil, nofun⟩
  | cons c cs ih =>
      obtain ⟨passed, current, rfl, hpassed, hcurrent⟩ := ih
      by_cases hc : c = '\n'
      · obtain rfl := hc
        exact ⟨'\n' :: passed, current, rfl, @FeedEnded.line [] _ nofun hpassed, hcurrent⟩
      · cases hpassed with
        | nil =>
            refine ⟨[], c :: current, rfl, .nil, ?_⟩
            rw [List.mem_cons, not_or]
            exact ⟨Ne.symm hc, hcurrent⟩
        | @line cs rest hcs hrest =>
            refine ⟨(c :: cs) ++ '\n' :: rest, current, rfl, .line ?_ hrest, hcurrent⟩
            rw [List.mem_cons, not_or]
            exact ⟨Ne.symm hc, hcs⟩

theorem FeedEnded.getLast? {cs : List Char} (h : FeedEnded cs) (hne : cs ≠ []) :
  cs.getLast? = some '\n'
  := by
  induction h with
  | nil => exact absurd rfl hne
  | @line cs rest _ _ ih =>
      rw [List.getLast?_append_cons]
      cases rest with
      | nil => rfl
      | cons c rest =>
          rw [List.getLast?_cons_cons]
          apply ih (List.cons_ne_nil _ _)

/-- Only behind complete lines with nothing in front of the end is the end a line feed. -/
theorem FeedEnded.getLast?_append_iff {passed current : List Char} (h : FeedEnded passed)
    (hcurrent : '\n' ∉ current) :
  (passed ++ current).getLast? = some '\n' ↔ passed ≠ [] ∧ current = []
  := by
  by_cases hnil : current = []
  · rw [hnil, List.append_nil]
    constructor
    · rintro hlast
      refine ⟨?_, rfl⟩
      rintro rfl
      cases hlast
    · exact fun hne => h.getLast? hne.1
  · rw [List.getLast?_append_of_ne_nil _ hnil]
    constructor
    · exact fun hlast => absurd (List.mem_of_getLast? hlast) hcurrent
    · exact fun hne => absurd hne.2 hnil

end Text

open Text

/-! ### The line table -/

namespace LineTable

/-- The lines of the line table that start within a text after its beginning: one for each line
feed, and one for each carriage return that is not part of a line end of two. -/
theorem length_filter_startsFrom (n : Nat) (before after : List Char) :
  ((startsFrom n (before ++ after)).filter (· ≤ n + byteLength before)).length
    = before.count '\n' + loneReturns before after
  := by
  induction n, before using startsFrom.induct with
  | case1 n =>
      rw [List.nil_append, List.filter_eq_nil_iff.mpr]
      · rfl
      · intro x hx
        have := lt_of_mem_startsFrom hx
        rw [decide_eq_true_eq, byteLength_nil]
        omega
  | case2 n cs ih =>
      have hbytes : n + byteLength ('\r' :: '\n' :: cs) = n + 2 + byteLength cs := by
        simp only [byteLength_cons, ← Nat.add_assoc]
        rfl
      have hreturns : loneReturns ('\r' :: '\n' :: cs) after = loneReturns cs after := by
        simp [loneReturns]
      rw [hbytes, hreturns, List.cons_append, List.cons_append, startsFrom,
        List.filter_cons_of_pos (by simp), List.length_cons, ih, List.count_cons_of_ne (by decide),
        List.count_cons_self]
      omega
  | case3 n c cs hpair hend ih =>
      have hsize : c.utf8Size = 1 := by rcases hend with rfl | rfl <;> rfl
      have hbytes : n + byteLength (c :: cs) = n + 1 + byteLength cs := by
        rw [byteLength_cons, hsize, Nat.add_assoc]
      by_cases hjoins : c = '\r' ∧ (cs ++ after).head? = some '\n'
      · -- the two characters of one line end, between which the beginning stops
        obtain ⟨rfl, hhead⟩ := hjoins
        obtain rfl : cs = [] := by
          cases cs with
          | nil => rfl
          | cons x cs =>
              obtain rfl : x = '\n' := Option.some.inj hhead
              exact (hpair cs rfl rfl).elim
        obtain ⟨rest, rfl⟩ := List.head?_eq_some_iff.mp hhead
        rw [List.cons_append, List.nil_append, startsFrom, List.filter_eq_nil_iff.mpr]
        · simp [loneReturns]
        · intro x hx
          rw [decide_eq_true_eq, hbytes, byteLength_nil]
          rcases List.mem_cons.mp hx with rfl | hx
          · omega
          · have := lt_of_mem_startsFrom hx
            omega
      · rw [List.cons_append, startsFrom_cons hend fun hc hhead => hjoins ⟨hc, hhead⟩, hbytes,
          List.filter_cons_of_pos (by simp), List.length_cons, ih, loneReturns]
        rcases hend with rfl | rfl
        · rw [if_pos ⟨rfl, fun hhead => hjoins ⟨rfl, hhead⟩⟩, List.count_cons_of_ne (by decide)]
          omega
        · rw [if_neg (by simp), List.count_cons_self]
          omega
  | case4 n c cs hpair hend ih =>
      obtain ⟨hreturn, hfeed⟩ := not_or.mp hend
      have hreturns : loneReturns (c :: cs) after = loneReturns cs after := by
        simp [loneReturns, hreturn]
      rw [List.cons_append, startsFrom, if_neg hend, byteLength_cons, ← Nat.add_assoc, ih, hreturns,
        List.count_cons_of_ne hfeed]
      rintro _ rfl
      exact absurd rfl hreturn

/-- Up to the end of `before` one line starts at the beginning of the text and one behind each line
feed and each lone carriage return. -/
theorem length_filter_starts_eq {source : String} {before after : List Char}
    (hsource : source.toList = before ++ after) :
  ((ofText source).starts.filter (· ≤ byteLength before)).length
    = before.count '\n' + loneReturns before after + 1
  := by
  have hcount := length_filter_startsFrom 0 before after
  rw [Nat.zero_add] at hcount
  rw [ofText, List.filter_cons_of_pos (by simp), List.length_cons, hsource, hcount]

/-- Where no carriage return is alone a line starts behind the last line feed. -/
theorem position_of_feeds {source : String} {passed current after : List Char}
    (hsource : source.toList = passed ++ (current ++ after)) (hpassed : FeedEnded passed)
    (hcurrent : '\n' ∉ current) (hreturns : loneReturns (passed ++ current) after = 0) :
  (ofText source).position (byteLength (passed ++ current))
    = ⟨passed.count '\n' + 1, current.length + 1⟩
  := by
  have hstart : byteLength passed ∈ (ofText source).starts := by
    by_cases hnil : passed = []
    · rw [hnil]
      apply zero_mem_starts
    · obtain ⟨cs, hcs⟩ := List.getLast?_eq_some_iff.mp (hpassed.getLast? hnil)
      have hends : EndsLine ['\n'] (current ++ after) := ⟨by decide, nofun⟩
      have hmem := mem_startsFrom_of_endsLine cs hends 0
      rw [← List.append_assoc, ← hcs, ← hsource, ← byteLength_append, ← hcs, Nat.zero_add] at hmem
      exact List.mem_cons_of_mem _ hmem
  have hlines := length_filter_starts_eq (hsource.trans (List.append_assoc _ _ _).symm)
  have hgreatest : IsGreatest
      {x | x ∈ (ofText source).starts ∧ x ≤ byteLength (passed ++ current)}
      (byteLength passed) := by
    refine ⟨⟨hstart, ?_⟩, ?_⟩
    · rw [byteLength_append]
      apply Nat.le_add_right
    · -- another line start would make the lines more than the line feeds
      rintro x ⟨hx, hle⟩
      by_contra hlt
      have hmore := length_filter_le_lt hx (Nat.lt_of_not_le hlt) hle
      rw [loneReturns_append] at hreturns
      rw [length_filter_starts_eq hsource, hlines, loneReturns_append, List.count_append,
        List.count_eq_zero.mpr hcurrent] at hmore
      omega
  rw [position_append hsource hgreatest, hlines, hreturns, List.count_append,
    List.count_eq_zero.mpr hcurrent]

end LineTable

/-! ### The excerpt -/

namespace Excerpt

variable {number start : Nat} {passed current after : List Char}

theorem linesFrom_feed {cs : List Char} (h : '\n' ∉ cs) (number start : Nat)
    (read rest : List Char) :
  linesFrom number start read (cs ++ '\n' :: rest)
    = ⟨number, start, endLine (cs.reverse ++ read)⟩
      :: linesFrom (number + 1) (start + byteLength read + byteLength cs + 1) [] rest
  := by
  induction cs generalizing read with
  | nil => rfl
  | cons c cs ih =>
      obtain ⟨hc, hcs⟩ := not_or.mp (List.mem_cons.not.mp h)
      rw [List.cons_append, linesFrom, if_neg (Ne.symm hc), ih hcs, List.reverse_cons,
        List.append_assoc, List.singleton_append, byteLength_cons, byteLength_cons]
      simp only [Nat.add_assoc, Nat.add_left_comm]

/-- Lines go on behind a line that ends in a line feed. -/
theorem linesFrom_line {cs : List Char} (h : '\n' ∉ cs) (number start : Nat) (rest : List Char) :
  linesFrom number start [] (cs ++ '\n' :: rest)
    = ⟨number, start, endLine cs.reverse⟩
      :: linesFrom (number + 1) (start + byteLength cs + 1) [] rest
  := by
  rw [linesFrom_feed h, List.append_nil, byteLength_nil, Nat.add_zero start]

theorem linesFrom_last {cs : List Char} (h : '\n' ∉ cs) (number start : Nat) (read : List Char) :
  linesFrom number start read cs
    = if (read.reverse ++ cs).isEmpty then [] else [⟨number, start, read.reverse ++ cs⟩]
  := by
  induction cs generalizing read with
  | nil => simp [linesFrom]
  | cons c cs ih =>
      obtain ⟨hc, hcs⟩ := not_or.mp (List.mem_cons.not.mp h)
      rw [linesFrom, if_neg (Ne.symm hc), ih hcs, List.reverse_cons, List.append_assoc,
        List.singleton_append]

theorem start_le_of_mem {line : Line} {read cs : List Char}
    (h : line ∈ linesFrom number start read cs) :
  start ≤ line.start
  := by
  induction cs generalizing number start read with
  | nil =>
      rw [linesFrom_last List.not_mem_nil] at h
      split at h
      · cases h
      · rw [List.mem_singleton.mp h]
  | cons c cs ih =>
      rw [linesFrom] at h
      split at h
      · rcases List.mem_cons.mp h with rfl | h
        · apply Nat.le_refl
        · have := ih h
          omega
      · exact ih h

/-- The column on a line counts what stands before the offset, also where only a carriage return
before the line feed was not counted as text of the line. -/
theorem column_eq {text : List Char}
    (h : current <+: text ∨ current = text ++ ['\r']) :
  Line.column ⟨number, start, text⟩ (start + byteLength current) = current.length + 1
  := by
  rcases h with ⟨rest, rfl⟩ | rfl
  · rw [Line.column, Line.before]
    simp only [Nat.add_sub_cancel_left, takeBytes?_byteLength, Option.getD_some, byteLength_append]
    rw [if_neg (by omega)]
  · have htake : takeBytes? (byteLength (text ++ ['\r'])) text = none := by
      have happend := takeBytes?_append text [] 1
      rw [List.append_nil] at happend
      rw [byteLength_append]
      apply happend
    have hbeyond : start + byteLength text < start + byteLength (text ++ ['\r']) := by
      rw [byteLength_append]
      apply Nat.add_lt_add_left (Nat.lt_add_one _)
    rw [Line.column, Line.before]
    simp only [Nat.add_sub_cancel_left, htake, Option.getD_none, hbeyond, if_true,
      List.length_append, List.length_singleton]

/-- Ending a line takes at most a carriage return off it. -/
theorem prefix_endLine {cs : List Char} (h : current <+: cs) :
  current <+: endLine cs.reverse ∨ current = endLine cs.reverse ++ ['\r']
  := by
  unfold endLine
  split
  · rename_i rest hcs
    rw [← List.reverse_reverse cs, hcs, List.reverse_cons, List.prefix_concat_iff] at h
    apply h.symm
  · left
    rwa [List.reverse_reverse]

/-- The first of some lines that begin with a text without line feeds. -/
theorem exists_linesFrom_eq_cons (hcurrent : '\n' ∉ current) (hne : current ++ after ≠ [])
    (number start : Nat) :
  ∃ text others, linesFrom number start [] (current ++ after) = ⟨number, start, text⟩ :: others
    ∧ (∀ line ∈ others, start + byteLength current < line.start)
    ∧ Line.column ⟨number, start, text⟩ (start + byteLength current) = current.length + 1
  := by
  by_cases hfeed : '\n' ∈ after
  · obtain ⟨between, rest, rfl, hbetween⟩ := List.eq_append_cons_of_mem hfeed
    have hnone : '\n' ∉ current ++ between := by
      rw [List.mem_append, not_or]
      exact ⟨hcurrent, hbetween⟩
    have hlines := linesFrom_line hnone number start rest
    rw [List.append_assoc] at hlines
    refine ⟨_, _, hlines, ?_, column_eq (prefix_endLine (List.prefix_append _ _))⟩
    intro line hline
    have hle := start_le_of_mem hline
    rw [byteLength_append] at hle
    omega
  · have hnone : '\n' ∉ current ++ after := by
      rw [List.mem_append, not_or]
      exact ⟨hcurrent, hfeed⟩
    refine ⟨current ++ after, [], ?_, nofun, column_eq (.inl (List.prefix_append _ _))⟩
    rw [linesFrom_last hnone, if_neg (by simpa using hne)]
    rfl

/-- Among the lines of a text behind complete lines, the last that starts up to an offset is the one
that the offset stands in. -/
theorem exists_line_at (hpassed : FeedEnded passed) (hcurrent : '\n' ∉ current)
    (hne : current ++ after ≠ []) (number start : Nat) :
  ∃ line, ((linesFrom number start [] (passed ++ (current ++ after))).filter
      (·.start ≤ start + byteLength (passed ++ current))).getLast? = some line
    ∧ line.number = number + passed.count '\n'
    ∧ line.column (start + byteLength (passed ++ current)) = current.length + 1
  := by
  induction hpassed generalizing number start with
  | nil =>
      obtain ⟨text, others, hlines, hbehind, hcolumn⟩ :=
        exists_linesFrom_eq_cons hcurrent hne number start
      refine ⟨_, ?_, rfl, hcolumn⟩
      rw [List.nil_append, List.nil_append, hlines, List.filter_cons_of_pos (by simp),
        List.filter_eq_nil_iff.mpr]
      · rfl
      · intro line hline
        have := hbehind line hline
        rw [decide_eq_true_eq]
        omega
  | @line cs rest hcs _ ih =>
      obtain ⟨line, hlast, hnumber, hcolumn⟩ := ih (number + 1) (start + byteLength cs + 1)
      have hbytes : start + byteLength (cs ++ '\n' :: rest ++ current)
          = start + byteLength cs + 1 + byteLength (rest ++ current) := by
        simp only [byteLength_append, byteLength_cons, show '\n'.utf8Size = 1 from rfl]
        omega
      refine ⟨line, ?_, ?_, ?_⟩
      · rw [hbytes, List.append_assoc, List.cons_append, linesFrom_line hcs,
          List.filter_cons_of_pos (by simp; omega), List.getLast?_cons, hlast]
        rfl
      · rw [hnumber, List.count_append, List.count_cons_self, List.count_eq_zero.mpr hcs]
        omega
      · rw [hbytes, hcolumn]

/-- At the end of a text that ends in a line feed there is no further line. -/
theorem exists_line_at_end (hpassed : FeedEnded passed) (hne : passed ≠ []) (number start : Nat) :
  ∃ line, ((linesFrom number start [] passed).filter
      (·.start ≤ start + byteLength passed)).getLast? = some line
    ∧ line.number + 1 = number + passed.count '\n'
  := by
  induction hpassed generalizing number start with
  | nil => exact absurd rfl hne
  | @line cs rest hcs hrest ih =>
      have hbytes : start + byteLength (cs ++ '\n' :: rest)
          = start + byteLength cs + 1 + byteLength rest := by
        simp only [byteLength_append, byteLength_cons, show '\n'.utf8Size = 1 from rfl]
        omega
      have hcount : (cs ++ '\n' :: rest).count '\n' = rest.count '\n' + 1 := by
        rw [List.count_append, List.count_cons_self, List.count_eq_zero.mpr hcs, Nat.zero_add]
      rw [hbytes, hcount, linesFrom_line hcs, List.filter_cons_of_pos (by simp; omega),
        List.getLast?_cons]
      by_cases hnil : rest = []
      · rw [hnil]
        exact ⟨_, rfl, rfl⟩
      · obtain ⟨line, hlast, hnumber⟩ := ih hnil (number + 1) (start + byteLength cs + 1)
        rw [hlast]
        exact ⟨line, rfl, by omega⟩

/-- The line and the column that stand behind the path. -/
def located (e : Excerpt) : Position :=
  ⟨e.place.1, e.place.2⟩

/-- An excerpt counts the line feeds before its place and the characters since the last of them. -/
theorem located_of_feeds {e : Excerpt} (hsource : e.source.toList = passed ++ (current ++ after))
    (hpassed : FeedEnded passed) (hcurrent : '\n' ∉ current)
    (hstart : e.span.start = byteLength (passed ++ current))
    (hwithin : passed = [] ∨ current ++ after ≠ []) :
  e.located = ⟨passed.count '\n' + 1, current.length + 1⟩
  := by
  have hlines : lines e.source = linesFrom 1 0 [] (passed ++ (current ++ after)) := by
    rw [lines, hsource]
  rw [located, place, lineAt, List.getLastD_eq_getLast?, hlines, hstart]
  by_cases hne : current ++ after = []
  · -- an empty text has one line
    obtain rfl := hwithin.resolve_right (not_not_intro hne)
    obtain ⟨rfl, rfl⟩ := List.append_eq_nil_iff.mp hne
    rfl
  · obtain ⟨line, hlast, hnumber, hcolumn⟩ := exists_line_at hpassed hcurrent hne 1 0
    rw [Nat.zero_add] at hlast hcolumn
    rw [hlast, Option.getD_some, hnumber, hcolumn, Nat.add_comm 1]

/-- At the end of a text that ends in a line feed an excerpt is located on the line of the line
feed. -/
theorem line_located_at_end {e : Excerpt} (hsource : e.source.toList = passed)
    (hpassed : FeedEnded passed) (hstart : e.span.start = byteLength passed) (hne : passed ≠ []) :
  e.located.line = passed.count '\n'
  := by
  obtain ⟨line, hlast, hnumber⟩ := exists_line_at_end hpassed hne 1 0
  rw [Nat.zero_add, ← hsource, ← lines] at hlast
  rw [located, place, lineAt, List.getLastD_eq_getLast?, hstart, ← hsource, hlast]
  exact Nat.add_right_cancel (hnumber.trans (by rw [hsource, Nat.add_comm]))

/-- Below the title stands the path, with the line and the column behind it. -/
theorem render_eq {e : Excerpt} {path : String} (hpath : e.path = some path) (ink : Ink) :
  ∃ pad rows, e.render ink = "\n".intercalate
    (e.titleLines ink
      ++ (times pad ' ' ++ ink.margin "--> " ++ path ++ ":" ++ toString e.located) :: rows)
  := by
  have hplace : toString e.located = toString e.place.1 ++ ":" ++ toString e.place.2 := rfl
  let pad := (toString e.body.number).length
  refine ⟨pad, row ink pad none "" :: e.body.rows ink pad e.label, ?_⟩
  simp only [render, hpath, hplace, pad, Option.toList_some, List.map_cons, List.map_nil,
    List.append_assoc, List.singleton_append, String.append_assoc]

end Excerpt

namespace Peg.Mismatch

open Excerpt

theorem start_markedSpan (m : Mismatch) (source : String) :
  (m.markedSpan source).start = min m.furthest source.utf8ByteSize
  := by
  unfold markedSpan
  dsimp only
  split <;> rfl

/-- A report announces a place in its title and gives one behind the path. The line announced is
further on by the lone carriage returns before the place, and by one more at the end of a text that
ends in a line feed. Otherwise the two are the same, the column included. -/
theorem locations_agree_iff (m : Mismatch) {source : String} (path : String) (colored : Bool)
    {before after : List Char} (hsource : source.toList = before ++ after)
    (hfurthest : m.furthest = byteLength before) :
  let announced := (LineTable.ofText source).position m.furthest
  let e := m.excerpt source (some path)
  let ink := if colored then Ink.bold else Ink.plain
  m.summary source = m.describe (toString announced) ∧ e.title = m.summary source
    ∧ (∃ pad rows, m.render source (some path) colored = "\n".intercalate
      (e.titleLines ink
        ++ (times pad ' ' ++ ink.margin "--> " ++ path ++ ":" ++ toString e.located) :: rows))
    ∧ announced.line = e.located.line + loneReturns before after
      + (if after = [] ∧ before.getLast? = some '\n' then 1 else 0)
    ∧ (announced = e.located ↔
      loneReturns before after = 0 ∧ ¬ (after = [] ∧ before.getLast? = some '\n'))
  := by
  intro announced e ink
  refine ⟨rfl, rfl, render_eq rfl ink, ?_⟩
  have hstart : e.span.start = byteLength before := by
    have hsize : source.utf8ByteSize = byteLength before + byteLength after := by
      rw [utf8ByteSize_eq_byteLength, hsource, byteLength_append]
    rw [show e.span = m.markedSpan source from rfl, start_markedSpan, hfurthest, hsize]
    omega
  have hannounced : announced.line = before.count '\n' + loneReturns before after + 1 := by
    rw [show announced = (LineTable.ofText source).position m.furthest from rfl, hfurthest,
      LineTable.line_position hsource, LineTable.length_filter_starts_eq hsource]
  obtain ⟨passed, current, rfl, hpassed, hcurrent⟩ := exists_feedEnded before
  have hsplit : source.toList = passed ++ (current ++ after) := by
    rw [hsource, List.append_assoc]
  rw [List.count_append, List.count_eq_zero.mpr hcurrent, Nat.add_zero] at hannounced
  have hfeed := hpassed.getLast?_append_iff hcurrent
  by_cases hend : after = [] ∧ (passed ++ current).getLast? = some '\n'
  · obtain ⟨hne, hnil⟩ := hfeed.mp hend.2
    have hlocated : e.located.line = passed.count '\n' := by
      apply line_located_at_end _ hpassed _ hne
      · rw [show e.source = source from rfl, hsplit, hnil, hend.1, List.append_nil, List.append_nil]
      · rw [hstart, hnil, List.append_nil]
    rw [if_pos hend]
    refine ⟨by omega, fun heq => ?_, fun hboth => absurd hend hboth.2⟩
    rw [heq] at hannounced
    omega
  · have hlocated : e.located = ⟨passed.count '\n' + 1, current.length + 1⟩ := by
      apply located_of_feeds hsplit hpassed hcurrent hstart
      by_contra hnot
      rw [not_or, not_not, List.append_eq_nil_iff] at hnot
      exact hend ⟨hnot.2.2, hfeed.mpr ⟨hnot.1, hnot.2.1⟩⟩
    have hline : e.located.line = passed.count '\n' + 1 := by rw [hlocated]
    rw [if_neg hend]
    refine ⟨by omega, fun heq => ⟨?_, hend⟩, fun hboth => ?_⟩
    · rw [heq] at hannounced
      omega
    · rw [hlocated, show announced = (LineTable.ofText source).position m.furthest from rfl,
        hfurthest, LineTable.position_of_feeds hsplit hpassed hcurrent hboth.1]

/-- Between the two characters of a line end and behind it the two locations are the same. -/
theorem locations_agree_iff_pair :
  "é\r\nb".toList = ['é', '\r'] ++ ['\n', 'b'] ∧ byteLength ['é', '\r'] = 3
    ∧ (⟨3, [], .grammar, {}⟩ : Mismatch).summary "é\r\nb" = "no match at 1:3"
    ∧ (LineTable.ofText "é\r\nb").position 3
      = ((⟨3, [], .grammar, {}⟩ : Mismatch).excerpt "é\r\nb" (some "A.txt")).located
  := by
  obtain ⟨-, -, -, -, hagree⟩ := locations_agree_iff ⟨3, [], .grammar, {}⟩ "A.txt" false
    (show "é\r\nb".toList = ['é', '\r'] ++ ['\n', 'b'] from rfl) rfl
  exact ⟨rfl, rfl, by decide +kernel, hagree.mpr (by decide)⟩

/-- The two locations are not always the same. They differ behind a carriage return that stands
alone and at the end of a text that ends in a line feed. -/
theorem locations_differ :
  (⟨2, [], .grammar, {}⟩ : Mismatch).render "a\rb" (some "A.txt") false
      = "error: no match at 2:1\n --> A.txt:1:3\n  |\n1 | a␍b\n  |   ^ unexpected input"
    ∧ (⟨2, [], .grammar, {}⟩ : Mismatch).render "a\n" (some "A.txt") false
      = "error: no match at 2:1\n --> A.txt:1:3\n  |\n1 | a\n  |  ^ unexpected input"
    ∧ ¬ ∀ (m : Mismatch) (source path : String), String.Pos.Raw.IsValid source ⟨m.furthest⟩ →
      (LineTable.ofText source).position m.furthest = (m.excerpt source (some path)).located
  := by
  refine ⟨by decide +kernel, by decide +kernel, fun hall => ?_⟩
  have hvalid : String.Pos.Raw.IsValid "a\n" ⟨2⟩ :=
    isValid_byteLength (show "a\n".toList = ['a', '\n'] ++ [] from rfl)
  have heq := hall ⟨2, [], .grammar, {}⟩ "a\n" "A.txt" hvalid
  revert heq
  decide +kernel

end Peg.Mismatch

end ClassTranscript
