import ClassTranscript.Proofs.Text.Lines
import ClassTranscript.Proofs.Text.LineSearch
import Mathlib.Data.Set.Card
import Mathlib.Order.Bounds.Basic

/-!
# Positions of a text

Line starts ascend, so the search among them finds the line of an offset: the one at the last start
that is not behind the offset (`LineTable.isGreatest_start`). There is one start for the text and
one behind each line end (`LineTable.mem_startsFrom_iff`), so a position counts the line ends before
an offset and the characters since the last of them (`LineTable.position_exact`).
-/

namespace ClassTranscript

/-! ### Line ends -/

namespace Text

/-- The text between two others is a line end, and no half of one. -/
structure IsLineEnd (before ending rest : List Char) : Prop extends EndsLine ending rest where
  not_half : ending = ['\n'] → before.getLast? ≠ some '\r'

/-- A line end stands at a span of a text. -/
def LineEndAt (source : String) (span : Span) : Prop :=
  ∃ before ending rest, source.toList = before ++ (ending ++ rest)
    ∧ IsLineEnd before ending rest
    ∧ span = ⟨byteLength before, byteLength before + byteLength ending⟩

variable {before ending rest : List Char}

/-- Text in front does not matter to a line end, unless it ends in what could be a first half. -/
theorem IsLineEnd.append (h : IsLineEnd before ending rest) (front : List Char)
    (hfront : before = [] → ending = ['\n'] → front.getLast? ≠ some '\r') :
  IsLineEnd (front ++ before) ending rest
  := by
  refine ⟨h.toEndsLine, fun hfeed => ?_⟩
  by_cases hnil : before = []
  · rw [hnil, List.append_nil]
    apply hfront hnil hfeed
  · rw [List.getLast?_append_of_ne_nil _ hnil]
    apply h.not_half hfeed

/-- Of two beginnings of a text the one with no more bytes begins the other. -/
theorem exists_append_of_byteLength_le {xs ys zs ws : List Char} (h : xs ++ ys = zs ++ ws)
    (hle : byteLength xs ≤ byteLength zs) :
  ∃ between, zs = xs ++ between
  := by
  obtain ⟨between, hzs, -⟩ | ⟨between, hxs, -⟩ := List.append_eq_append_iff.mp h
  · exact ⟨between, hzs⟩
  · rw [hxs, byteLength_append] at hle
    have hnil : between = [] := byteLength_eq_zero_iff.mp (by omega)
    rw [hnil, List.append_nil] at hxs
    exact ⟨[], by rw [hxs, List.append_nil]⟩

theorem eq_of_byteLength_eq {xs ys zs ws : List Char} (h : xs ++ ys = zs ++ ws)
    (heq : byteLength xs = byteLength zs) :
  xs = zs
  := by
  obtain ⟨between, rfl⟩ := exists_append_of_byteLength_le h (Nat.le_of_eq heq)
  rw [byteLength_append] at heq
  rw [byteLength_eq_zero_iff.mp (show byteLength between = 0 by omega), List.append_nil]

/-- Where one line end stops no other does. -/
theorem LineEndAt.eq_of_stop_eq {source : String} {span span' : Span} (h : LineEndAt source span)
    (h' : LineEndAt source span') (hstop : span.stop = span'.stop) :
  span = span'
  := by
  obtain ⟨before, ending, rest, hsource, hend, rfl⟩ := h
  obtain ⟨before', ending', rest', hsource', hend', rfl⟩ := h'
  have hsplit : (before ++ ending) ++ rest = (before' ++ ending') ++ rest' := by
    rw [List.append_assoc, ← hsource, hsource', List.append_assoc]
  have heq : before ++ ending = before' ++ ending' := by
    apply eq_of_byteLength_eq hsplit
    rw [byteLength_append, byteLength_append]
    apply hstop
  -- what is left without the line end is the text in front of it
  have hbefore : before = before' := by
    rw [← dropLineEnd_append hend.mem hend.not_half, heq,
      dropLineEnd_append hend'.mem hend'.not_half]
  subst hbefore
  rw [List.append_cancel_left heq]

/-- A usable offset is the length of a beginning of the text. -/
theorem exists_of_isValid {source : String} {offset : Nat}
    (h : String.Pos.Raw.IsValid source ⟨offset⟩) :
  ∃ before after, source.toList = before ++ after ∧ offset = byteLength before
  := by
  obtain ⟨before, after, rfl, hoffset⟩ := String.Pos.Raw.isValid_iff_exists_append.mp h
  refine ⟨before.toList, after.toList, String.toList_append, ?_⟩
  rw [← utf8ByteSize_eq_byteLength]
  apply congrArg String.Pos.Raw.byteIdx hoffset

end Text

/-- A position is on an earlier line than another, or on the same one and further to the left. -/
def Position.Before (p q : Position) : Prop :=
  p.line < q.line ∨ p.line = q.line ∧ p.column < q.column

namespace LineTable

open Text

variable {source : String} {cs : List Char} {n x : Nat}

/-! ### Line starts -/

theorem lt_of_mem_startsFrom (h : x ∈ startsFrom n cs) :
  n < x
  := by
  fun_induction startsFrom n cs with
  | case1 => cases h
  | case2 n cs ih =>
      rcases List.mem_cons.mp h with rfl | h
      · omega
      · have := ih h
        omega
  | case3 n c cs hpair hend ih =>
      rcases List.mem_cons.mp h with rfl | h
      · omega
      · have := ih h
        omega
  | case4 n c cs hpair hend ih =>
      have := ih h
      omega

theorem pairwise_startsFrom (n : Nat) (cs : List Char) :
  (startsFrom n cs).Pairwise (· < ·)
  := by
  fun_induction startsFrom n cs with
  | case1 => apply List.Pairwise.nil
  | case2 n cs ih => exact .cons (fun _ => lt_of_mem_startsFrom) ih
  | case3 n c cs hpair hend ih => exact .cons (fun _ => lt_of_mem_startsFrom) ih
  | case4 n c cs hpair hend ih => apply ih

/-- Line starts ascend. -/
theorem pairwise_starts (source : String) :
  (ofText source).starts.Pairwise (· < ·)
  := .cons (fun _ => lt_of_mem_startsFrom) (pairwise_startsFrom 0 _)

/-- Behind a line end a line starts. -/
theorem mem_startsFrom_of_endsLine {ending rest : List Char} (before : List Char)
    (h : EndsLine ending rest) (n : Nat) :
  n + (byteLength before + byteLength ending) ∈ startsFrom n (before ++ (ending ++ rest))
  := by
  apply (startsFrom_suffix before h n).subset
  rw [Nat.add_assoc]
  apply List.mem_cons_self

/-- The line starts behind the first are where line ends stop. -/
theorem mem_startsFrom_iff :
  x ∈ startsFrom n cs ↔ ∃ before ending rest, cs = before ++ (ending ++ rest)
    ∧ IsLineEnd before ending rest ∧ x = n + (byteLength before + byteLength ending)
  := by
  constructor
  · intro h
    fun_induction startsFrom n cs with
    | case1 => cases h
    | case2 n cs ih =>
        rcases List.mem_cons.mp h with rfl | h
        · exact ⟨[], ['\r', '\n'], cs, rfl, ⟨⟨by decide, nofun⟩, nofun⟩, rfl⟩
        · obtain ⟨before, ending, rest, rfl, hend, rfl⟩ := ih h
          refine ⟨['\r', '\n'] ++ before, ending, rest, rfl, hend.append _ fun _ _ => by decide, ?_⟩
          rw [byteLength_append, Nat.add_assoc, Nat.add_assoc]
          rfl
    | case3 n c cs hpair hend ih =>
        have hsize : c.utf8Size = 1 := by rcases hend with rfl | rfl <;> rfl
        rcases List.mem_cons.mp h with rfl | h
        · refine ⟨[], [c], cs, rfl, ⟨⟨?_, ?_⟩, nofun⟩, by simp [hsize]⟩
          · rcases hend with rfl | rfl <;> decide
          · intro hc hhead
            obtain ⟨tail, rfl⟩ := List.head?_eq_some_iff.mp hhead
            exact hpair tail (List.head_eq_of_cons_eq hc) rfl
        · obtain ⟨before, ending, rest, rfl, hend', rfl⟩ := ih h
          refine ⟨c :: before, ending, rest, rfl, hend'.append [c] ?_, ?_⟩
          · rintro rfl rfl hc
            exact hpair rest (Option.some.inj hc) rfl
          · rw [byteLength_cons, hsize]
            omega
    | case4 n c cs hpair hend ih =>
        obtain ⟨before, ending, rest, rfl, hend', rfl⟩ := ih h
        refine ⟨c :: before, ending, rest, rfl, hend'.append [c] ?_, ?_⟩
        · rintro - - hc
          exact hend (.inl (Option.some.inj hc))
        · rw [byteLength_cons]
          omega
  · rintro ⟨before, ending, rest, rfl, hend, rfl⟩
    apply mem_startsFrom_of_endsLine before hend.toEndsLine

theorem zero_mem_starts (source : String) :
  0 ∈ (ofText source).starts
  := List.mem_cons_self

/-- A line starts behind some beginning of the text. -/
theorem exists_of_mem_starts (h : x ∈ (ofText source).starts) :
  ∃ before after, source.toList = before ++ after ∧ x = byteLength before
  := by
  rcases List.mem_cons.mp h with rfl | h
  · exact ⟨[], _, rfl, rfl⟩
  · obtain ⟨before, ending, rest, hsource, -, rfl⟩ := mem_startsFrom_iff.mp h
    refine ⟨before ++ ending, rest, by rw [hsource, List.append_assoc], ?_⟩
    rw [byteLength_append, Nat.zero_add]

/-! ### Looking up lines -/

variable {offset next : Nat}

/-- Where no line starts at an offset the search for it ends behind the first line start. -/
theorem pos_of_search_eq_error (h : search (ofText source).starts offset = .error next) :
  0 < next
  := by
  by_contra hzero
  obtain ⟨-, hentries⟩ := search_error (pairwise_starts source) h
  have hfirst := (hentries 0 (List.length_pos_of_mem (zero_mem_starts source))).2 (by omega)
  exact absurd hfirst (Nat.not_lt_zero offset)

/-- The line starts up to an offset are those of the lines up to the one that is looked up. -/
theorem filter_starts_eq_take (source : String) (offset : Nat) :
  (ofText source).lineIndex offset < (ofText source).starts.length
    ∧ (ofText source).starts.filter (· ≤ offset)
      = (ofText source).starts.take ((ofText source).lineIndex offset + 1)
  := by
  have hsorted := pairwise_starts source
  unfold lineIndex
  split
  · rename_i index hsearch
    have hfound := search_ok hsorted hsearch
    obtain ⟨hbound, hentry⟩ := List.getElem?_eq_some_iff.mp hfound
    have hentry : (ofText source).starts.getD index 0 = offset := by
      rw [List.getD_eq_getElem _ _ hbound, hentry]
    refine ⟨hbound, filter_le_eq_take fun j hj => ⟨fun hle => ?_, fun hle => ?_⟩⟩
    · rcases Nat.eq_or_lt_of_le (Nat.le_of_lt_succ hle) with rfl | hlt
      · apply Nat.le_of_eq hentry
      · apply Nat.le_of_lt
        rw [← hentry]
        apply getD_lt_getD hsorted hlt hbound
    · rw [← hentry]
      apply getD_lt_getD hsorted (by omega) hj
  · rename_i next hsearch
    have hpos := pos_of_search_eq_error hsearch
    obtain ⟨hbound, hentries⟩ := search_error hsorted hsearch
    rw [Nat.sub_add_cancel hpos]
    refine ⟨by omega, filter_le_eq_take fun j hj => ⟨fun hlt => ?_, (hentries j hj).2⟩⟩
    apply Nat.le_of_lt ((hentries j hj).1 hlt)

/-- The line that is looked up starts at the last line start up to the offset. -/
theorem isGreatest_start (source : String) (offset : Nat) :
  IsGreatest {x | x ∈ (ofText source).starts ∧ x ≤ offset}
    ((ofText source).starts.getD ((ofText source).lineIndex offset) 0)
  := by
  obtain ⟨hbound, hfilter⟩ := filter_starts_eq_take source offset
  have hmem (x : Nat) : (x ∈ (ofText source).starts ∧ x ≤ offset)
      ↔ x ∈ (ofText source).starts.take ((ofText source).lineIndex offset + 1) := by
    rw [← hfilter, List.mem_filter, decide_eq_true_eq]
  generalize (ofText source).lineIndex offset = index at *
  constructor
  · rw [Set.mem_ofPred_eq, hmem, List.getD_eq_getElem _ _ hbound]
    exact List.mem_take_iff_getElem.mpr ⟨index, by omega, rfl⟩
  · intro x hx
    rw [Set.mem_ofPred_eq, hmem] at hx
    obtain ⟨j, hj, rfl⟩ := List.mem_take_iff_getElem.mp hx
    rw [← List.getD_eq_getElem _ 0]
    rcases Nat.eq_or_lt_of_le (show j ≤ index by omega) with rfl | hlt
    · apply Nat.le_refl
    · apply Nat.le_of_lt (getD_lt_getD (pairwise_starts source) hlt hbound)

/-- The last line start up to the end of `before` lies at some place of it, and what stands behind
that place is in the line of the offset. -/
theorem exists_lineStart {before after : List Char} (hsource : source.toList = before ++ after) :
  ∃ passed current, before = passed ++ current
    ∧ IsGreatest {x | x ∈ (ofText source).starts ∧ x ≤ byteLength before} (byteLength passed)
  := by
  have hgreatest := isGreatest_start source (byteLength before)
  obtain ⟨passed, rest, hpassed, hstart⟩ := exists_of_mem_starts hgreatest.1.1
  obtain ⟨current, hbefore⟩ := exists_append_of_byteLength_le (hpassed.symm.trans hsource)
    (by rw [← hstart]; apply hgreatest.1.2)
  refine ⟨passed, current, hbefore, ?_⟩
  rw [← hstart]
  apply hgreatest

/-- A position counts the line starts up to the offset and the characters since the last of them. -/
theorem position_append {passed current rest : List Char}
    (hsource : source.toList = passed ++ (current ++ rest))
    (hstart : IsGreatest {x | x ∈ (ofText source).starts ∧ x ≤ byteLength (passed ++ current)}
      (byteLength passed)) :
  (ofText source).position (byteLength (passed ++ current))
    = ⟨((ofText source).starts.filter (· ≤ byteLength (passed ++ current))).length,
      current.length + 1⟩
  := by
  have hoffset : min (byteLength (passed ++ current)) source.utf8ByteSize
      = byteLength (passed ++ current) := by
    rw [utf8ByteSize_eq_byteLength, hsource, ← List.append_assoc, byteLength_append _ rest]
    omega
  obtain ⟨hbound, hfilter⟩ := filter_starts_eq_take source (byteLength (passed ++ current))
  have hline := (isGreatest_start source (byteLength (passed ++ current))).unique hstart
  have hslice : slice? (byteLength passed) (byteLength (passed ++ current)) source.toList
      = some current := by
    rw [hsource, byteLength_append, slice?_byteLength]
  simp only [position, ofText] at hoffset hbound hfilter hline ⊢
  rw [hoffset, hline, hslice, hfilter, List.length_take, Nat.min_eq_left hbound]

/-- The line of a position is the number of line starts up to the offset. -/
theorem line_position {before after : List Char} (hsource : source.toList = before ++ after) :
  ((ofText source).position (byteLength before)).line
    = ((ofText source).starts.filter (· ≤ byteLength before)).length
  := by
  obtain ⟨passed, current, rfl, hstart⟩ := exists_lineStart hsource
  rw [List.append_assoc] at hsource
  rw [position_append hsource hstart]

/-- There is one line start up to an offset more than there are line ends. -/
theorem length_filter_starts (source : String) (offset : Nat) :
  ((ofText source).starts.filter (· ≤ offset)).length
    = {e | LineEndAt source e ∧ e.stop ≤ offset}.ncard + 1
  := by
  have himage : Span.stop '' {e | LineEndAt source e ∧ e.stop ≤ offset}
      = ↑((startsFrom 0 source.toList).filter (· ≤ offset)).toFinset := by
    ext x
    simp only [Set.mem_image, Set.mem_ofPred_eq, List.coe_toFinset, List.mem_filter,
      decide_eq_true_eq, mem_startsFrom_iff, Nat.zero_add]
    constructor
    · rintro ⟨_, ⟨⟨before, ending, rest, hsource, hend, rfl⟩, hle⟩, rfl⟩
      exact ⟨⟨before, ending, rest, hsource, hend, rfl⟩, hle⟩
    · rintro ⟨⟨before, ending, rest, hsource, hend, rfl⟩, hle⟩
      exact ⟨_, ⟨⟨before, ending, rest, hsource, hend, rfl⟩, hle⟩, rfl⟩
  have hinjective : Set.InjOn Span.stop {e | LineEndAt source e ∧ e.stop ≤ offset} :=
    fun _ h _ h' => h.1.eq_of_stop_eq h'.1
  have hnodup : ((startsFrom 0 source.toList).filter (· ≤ offset)).Nodup :=
    ((pairwise_startsFrom 0 source.toList).imp Nat.ne_of_lt).filter _
  rw [← hinjective.ncard_image, himage, Set.ncard_coe_finset,
    List.toFinset_card_of_nodup hnodup, ofText, List.filter_cons_of_pos (by simp),
    List.length_cons]

/-- The last line start up to an offset is where the last line end stops, if there is one. -/
theorem starts_eq_insert (source : String) (offset : Nat) :
  {x | x ∈ (ofText source).starts ∧ x ≤ offset}
    = insert 0 {x | ∃ e, LineEndAt source e ∧ e.stop = x ∧ x ≤ offset}
  := by
  ext x
  simp only [ofText, Set.mem_ofPred_eq, Set.mem_insert_iff, List.mem_cons, mem_startsFrom_iff,
    Nat.zero_add]
  constructor
  · rintro ⟨rfl | ⟨before, ending, rest, hsource, hend, rfl⟩, hle⟩
    · exact .inl rfl
    · exact .inr ⟨_, ⟨before, ending, rest, hsource, hend, rfl⟩, rfl, hle⟩
  · rintro (rfl | ⟨_, ⟨before, ending, rest, hsource, hend, rfl⟩, rfl, hle⟩)
    · exact ⟨.inl rfl, Nat.zero_le _⟩
    · exact ⟨.inr ⟨before, ending, rest, hsource, hend, rfl⟩, hle⟩

/-! ### Order -/

variable {before between after : List Char}

/-- Positions ascend with the characters that are passed. -/
theorem position_before (hsource : source.toList = before ++ (between ++ after))
    (hne : between ≠ []) :
  ((ofText source).position (byteLength before)).Before
    ((ofText source).position (byteLength (before ++ between)))
  := by
  obtain ⟨passed, current, rfl, hstart⟩ := exists_lineStart hsource
  have hsource' : source.toList = (passed ++ current ++ between) ++ after := by
    rw [hsource, List.append_assoc (passed ++ current)]
  obtain ⟨passed', current', hbefore, hstart'⟩ := exists_lineStart hsource'
  have hsplit : source.toList = passed ++ (current ++ (between ++ after)) := by
    rw [hsource, List.append_assoc]
  have hsplit' : source.toList = passed' ++ (current' ++ after) := by
    rw [hsource', hbefore, List.append_assoc]
  rw [position_append hsplit hstart, hbefore, position_append hsplit' (hbefore ▸ hstart'),
    ← hbefore]
  have hle : byteLength (passed ++ current) ≤ byteLength (passed ++ current ++ between) := by
    rw [byteLength_append _ between]
    apply Nat.le_add_right
  by_cases hpassed : byteLength passed' ≤ byteLength (passed ++ current)
  · -- both offsets are in the line that starts behind `passed`
    obtain rfl : passed = passed' := by
      apply eq_of_byteLength_eq (hsplit.symm.trans hsplit')
      apply Nat.le_antisymm
      · apply hstart'.2 ⟨hstart.1.1, Nat.le_trans hstart.1.2 hle⟩
      · apply hstart.2 ⟨hstart'.1.1, hpassed⟩
    obtain rfl : current ++ between = current' := by
      rw [List.append_assoc] at hbefore
      apply List.append_cancel_left hbefore
    rcases Nat.lt_or_eq_of_le (length_filter_le_le hle (ofText source).starts) with hlt | heq
    · exact .inl hlt
    · refine .inr ⟨heq, ?_⟩
      have := List.length_pos_iff.mpr hne
      simp only [List.length_append]
      omega
  · left
    apply length_filter_le_lt hstart'.1.1 (Nat.lt_of_not_le hpassed) hstart'.1.2

/-- Among the offsets between characters a position is exact: it counts the line ends that lie
before the offset, and the characters from where the last of them stops. Offsets past the end count
as the end, positions ascend, and a search that finds no line start at an offset finds one before
it. -/
theorem position_exact (source : String) :
  (∀ offset, String.Pos.Raw.IsValid source ⟨offset⟩ →
      ∃ start between,
        IsGreatest (insert 0 {x | ∃ e, LineEndAt source e ∧ e.stop = x ∧ x ≤ offset}) start
        ∧ slice? start offset source.toList = some between
        ∧ (ofText source).position offset
          = ⟨{e | LineEndAt source e ∧ e.stop ≤ offset}.ncard + 1, between.length + 1⟩)
    ∧ (∀ offset, source.utf8ByteSize ≤ offset →
      (ofText source).position offset = (ofText source).position source.utf8ByteSize)
    ∧ (∀ m n, String.Pos.Raw.IsValid source ⟨m⟩ → String.Pos.Raw.IsValid source ⟨n⟩ → m < n →
      ((ofText source).position m).Before ((ofText source).position n))
    ∧ ∀ offset next, search (ofText source).starts offset = .error next → 0 < next
  := by
  refine ⟨?_, ?_, ?_, fun _ _ => pos_of_search_eq_error⟩
  · intro offset hvalid
    obtain ⟨before, after, hsource, rfl⟩ := exists_of_isValid hvalid
    obtain ⟨passed, current, rfl, hstart⟩ := exists_lineStart hsource
    rw [List.append_assoc] at hsource
    refine ⟨byteLength passed, current, ?_, ?_, ?_⟩
    · rw [← starts_eq_insert]
      apply hstart
    · rw [hsource, byteLength_append, slice?_byteLength]
    · rw [position_append hsource hstart, length_filter_starts]
  · intro offset hle
    simp only [position, ofText, Nat.min_eq_right hle, Nat.min_self]
  · intro m n hm hn hlt
    obtain ⟨before, after, hbefore, rfl⟩ := exists_of_isValid hm
    obtain ⟨before', after', hbefore', rfl⟩ := exists_of_isValid hn
    obtain ⟨between, rfl⟩ :=
      exists_append_of_byteLength_le (hbefore.symm.trans hbefore') (Nat.le_of_lt hlt)
    rw [List.append_assoc] at hbefore'
    apply position_before hbefore'
    rintro rfl
    simp at hlt

example :
  [0, 2, 3, 4, 9].map (ofText "é\r\n").position = [⟨1, 1⟩, ⟨1, 2⟩, ⟨1, 3⟩, ⟨2, 1⟩, ⟨2, 1⟩]
  := by
  cbv

/-- Before a carriage return with a line feed behind it, between the two, and behind them. -/
theorem position_exact_pair :
  String.Pos.Raw.IsValid "é\r\n" ⟨2⟩ ∧ String.Pos.Raw.IsValid "é\r\n" ⟨3⟩
    ∧ String.Pos.Raw.IsValid "é\r\n" ⟨4⟩
    ∧ ((ofText "é\r\n").position 2).Before ((ofText "é\r\n").position 3)
    ∧ ((ofText "é\r\n").position 3).Before ((ofText "é\r\n").position 4)
  := by
  obtain ⟨-, -, hbefore, -⟩ := position_exact "é\r\n"
  have h2 : String.Pos.Raw.IsValid "é\r\n" ⟨2⟩ :=
    isValid_byteLength (show "é\r\n".toList = ['é'] ++ ['\r', '\n'] from rfl)
  have h3 : String.Pos.Raw.IsValid "é\r\n" ⟨3⟩ :=
    isValid_byteLength (show "é\r\n".toList = ['é', '\r'] ++ ['\n'] from rfl)
  have h4 : String.Pos.Raw.IsValid "é\r\n" ⟨4⟩ :=
    isValid_byteLength (show "é\r\n".toList = ['é', '\r', '\n'] ++ [] from rfl)
  exact ⟨h2, h3, h4, hbefore 2 3 h2 h3 (by decide), hbefore 3 4 h3 h4 (by decide)⟩

end LineTable

end ClassTranscript
