import ClassTranscript.Proofs.Peg.LineEnds

/-!
# Taking line ends

Which expressions read a text alike with either line ends: those that name no line end, single
characters other than some with line ends among these, runs of characters with line ends among them,
everything up to a text, and line ends themselves, each with its two characters first
(`readsAlike_of_takesLines`). Other expressions read no line end at all (`inLine_of_staysInLine`).
-/

namespace ClassTranscript.Peg

variable {d : Draft} {cls : CharClass} {text : String} {rest : List Char}

/-- The text has neither of the characters of line ends. -/
def lineless (text : String) : Bool :=
  text.toList.all fun c => c != '\r' && c != '\n'

/-- The class holds both characters of line ends. -/
def holdsLineEnds (cls : CharClass) : Bool :=
  cls.holds '\r' && cls.holds '\n'

theorem not_mem_of_lineless (h : lineless text = true) :
  '\r' ∉ text.toList ∧ '\n' ∉ text.toList
  := by
  simp only [lineless, List.all_eq_true, Bool.and_eq_true, bne_iff_ne] at h
  exact ⟨fun hmem => (h _ hmem).1 rfl, fun hmem => (h _ hmem).2 rfl⟩

/-! ### Single characters and texts -/

theorem readsAlike_literal (h : lineless text = true) (rest : List Char) :
  ReadsAlike d (.literal text) rest
  := by
  obtain ⟨hreturn, hfeed⟩ := not_mem_of_lineless h
  by_cases hbegins : text.toList <+: rest
  · obtain ⟨left, rfl⟩ := hbegins
    apply ReadsAlike.takes
    · intro source
      apply takes_literal
    · intro source
      rw [Text.crlf_of_not_mem hfeed]
      apply takes_literal
  · apply ReadsAlike.refuses
    · intro source
      apply refuses_literal hbegins
    · intro source
      apply refuses_literal
      intro hcrlf
      apply hbegins (Text.prefix_of_prefix_crlf hreturn hcrlf)

/-- A class does not hold the first character of a text with the other line ends where it holds
neither that of the text nor a line end. -/
theorem head?_crlf_not_holds (hreturn : cls.holds '\r' = false)
    (h : ∀ c, rest.head? = some c → cls.holds c = false) :
  ∀ c, (Text.crlf rest).head? = some c → cls.holds c = false
  := by
  intro c hc
  rw [Text.head?_crlf, Option.map_eq_some_iff] at hc
  obtain ⟨x, hx, rfl⟩ := hc
  split
  · apply hreturn
  · apply h x hx

theorem readsAlike_char (hreturn : cls.holds '\r' = false) (hfeed : cls.holds '\n' = false)
    (rest : List Char) :
  ReadsAlike d (.char cls) rest
  := by
  by_cases h : ∀ c, rest.head? = some c → cls.holds c = false
  · exact .refuses (fun _ => refuses_char h)
      fun _ => refuses_char (head?_crlf_not_holds hreturn h)
  · push Not at h
    obtain ⟨c, hhead, hc⟩ := h
    obtain ⟨left, rfl⟩ := List.head?_eq_some_iff.mp hhead
    have hne : c ≠ '\n' := by
      rintro rfl
      exact hc hfeed
    have hholds : cls.holds c = true := by simpa using hc
    refine @ReadsAlike.takes _ _ [c] left (fun _ => takes_char hholds left) ?_
    intro source
    rw [Text.crlf_cons, Text.paired_of_ne hne]
    apply takes_char hholds

theorem readsAlike_endOfInput (rest : List Char) :
  ReadsAlike d .endOfInput rest
  := by
  cases rest with
  | nil => exact @ReadsAlike.takes _ _ [] [] (fun _ => takes_endOfInput) fun _ => takes_endOfInput
  | cons c rest =>
      apply ReadsAlike.refuses (fun _ => refuses_endOfInput (List.cons_ne_nil c rest))
      intro source
      apply refuses_endOfInput
      rw [ne_eq, Text.crlf_eq_nil_iff]
      apply List.cons_ne_nil

/-! ### Any character but some -/

/-- Any character takes one that what must not come next refuses. -/
theorem takes_except {e : Expr} {source : String} {c : Char}
    (h : Refuses d source e (c :: rest)) :
  Takes d source (.seq [.notAhead e, .any]) [c] rest NoNodes
  := by
  rw [← List.nil_append [c]]
  apply (takes_notAhead h).skip
  apply (takes_any c rest).last

theorem refuses_except {e : Expr} {source : String} {s : List Char} {p : List Node → Prop}
    (h : Takes d source e s rest p) :
  Refuses d source (.seq [.notAhead e, .any]) (s ++ rest)
  := h.refuses_notAhead.seq

theorem refuses_except_nil {e : Expr} {source : String} (h : Refuses d source e []) :
  Refuses d source (.seq [.notAhead e, .any]) []
  := (takes_notAhead h).refuses_seq refuses_any.seq

theorem readsAlike_exceptChar (h : holdsLineEnds cls = true) (rest : List Char) :
  ReadsAlike d (.seq [.notAhead (.char cls), .any]) rest
  := by
  obtain ⟨hreturn, hfeed⟩ := Bool.and_eq_true_iff.mp h
  cases rest with
  | nil =>
      have hnil (source : String) :
          Refuses d source (.seq [.notAhead (.char cls), .any]) [] := by
        apply refuses_except_nil
        apply refuses_char
        simp
      exact .refuses hnil hnil
  | cons c rest =>
      have hrefuses (x : Char) (left : List Char) (source : String) (hx : cls.holds x = true) :
          Refuses d source (.seq [.notAhead (.char cls), .any]) (x :: left) :=
        refuses_except (takes_char hx left)
      cases hc : cls.holds c with
      | true =>
          apply ReadsAlike.refuses fun source => hrefuses c rest source hc
          intro source
          by_cases hline : c = '\n'
          · rw [Text.crlf_cons, Text.paired, if_pos hline]
            apply hrefuses _ _ source hreturn
          · rw [Text.crlf_cons, Text.paired_of_ne hline]
            apply hrefuses _ _ source hc
      | false =>
          have hline : c ≠ '\n' := by
            rintro rfl
            rw [hfeed] at hc
            cases hc
          have htakes (left : List Char) (source : String) :
              Takes d source (.seq [.notAhead (.char cls), .any]) [c] left NoNodes := by
            apply takes_except
            apply refuses_char
            rintro _ ⟨⟩
            apply hc
          refine @ReadsAlike.takes _ _ [c] rest (htakes rest) ?_
          intro source
          rw [Text.crlf_cons, Text.paired_of_ne hline]
          apply htakes

/-! ### Runs over line ends -/

theorem head?_dropWhile_holds (cls : CharClass) (rest : List Char) :
  ∀ c, (rest.dropWhile cls.holds).head? = some c → cls.holds c = false
  := by
  intro c hc
  have hstop := List.head?_dropWhile_not cls.holds rest
  rw [hc] at hstop
  simpa using hstop

/-- A run of characters ends where the counterpart of the run ends, if line ends are among the
characters. -/
theorem holds_crlf_takeWhile (h : holdsLineEnds cls = true) (rest : List Char) :
  (∀ c ∈ Text.crlf (rest.takeWhile cls.holds), cls.holds c = true)
    ∧ ∀ c, (Text.crlf (rest.dropWhile cls.holds)).head? = some c → cls.holds c = false
  := by
  obtain ⟨hreturn, hfeed⟩ := Bool.and_eq_true_iff.mp h
  constructor
  · intro c hmem
    rcases Text.eq_of_mem_crlf hmem with rfl | hmem
    · apply hreturn
    · apply List.all_eq_true.mp List.all_takeWhile c hmem
  · intro c hc
    rw [Text.head?_crlf, Option.map_eq_some_iff] at hc
    obtain ⟨x, hx, rfl⟩ := hc
    have hnot := head?_dropWhile_holds cls rest x hx
    split
    · rename_i hline
      rw [hline, hfeed] at hnot
      cases hnot
    · apply hnot

theorem readsAlike_starChar (h : holdsLineEnds cls = true) (rest : List Char) :
  ReadsAlike d (.star (.char cls)) rest
  := by
  obtain ⟨hholds, hstop⟩ := holds_crlf_takeWhile h rest
  rw [← List.takeWhile_append_dropWhile (p := cls.holds) (l := rest)]
  apply ReadsAlike.takes
  · intro source
    apply takes_star_chars _ (List.all_eq_true.mp List.all_takeWhile)
    apply head?_dropWhile_holds
  · intro source
    apply takes_star_chars _ hholds hstop

theorem readsAlike_plusChar (h : holdsLineEnds cls = true) (rest : List Char) :
  ReadsAlike d (.plus (.char cls)) rest
  := by
  obtain ⟨hholds, hstop⟩ := holds_crlf_takeWhile h rest
  have hhead := head?_dropWhile_holds cls rest
  rw [← List.takeWhile_append_dropWhile (p := cls.holds) (l := rest)]
  by_cases hnil : rest.takeWhile cls.holds = []
  · rw [hnil, List.nil_append]
    apply ReadsAlike.refuses
    · intro source
      apply (refuses_char hhead).plus
    · intro source
      apply (refuses_char hstop).plus
  · apply ReadsAlike.takes
    · intro source
      apply takes_plus_chars hnil (List.all_eq_true.mp List.all_takeWhile) hhead
    · intro source
      apply takes_plus_chars _ hholds hstop
      rwa [ne_eq, Text.crlf_eq_nil_iff]

/-! ### Everything up to a text -/

theorem Takes.star_skip {e : Expr} {source : String} {s t : List Char}
    (h : Takes d source e s (t ++ rest) NoNodes)
    (hnext : Takes d source (.star e) t rest NoNodes) :
  Takes d source (.star e) (s ++ t) rest NoNodes
  := by
  apply (h.star hnext).mono
  rintro _ ⟨_, _, rfl, rfl, rfl⟩
  rfl

/-- Characters are taken one by one up to a text, or to the end of the input. -/
theorem takes_upTo (htext : text.isEmpty = false) (hlineless : lineless text = true)
    (rest : List Char) :
  ∃ taken left, rest = taken ++ left
    ∧ (∀ source, Takes d source (.star (.seq [.notAhead (.literal text), .any])) taken left NoNodes)
    ∧ ∀ source, Takes d source (.star (.seq [.notAhead (.literal text), .any])) (Text.crlf taken)
        (Text.crlf left) NoNodes
  := by
  obtain ⟨hreturn, hfeed⟩ := not_mem_of_lineless hlineless
  have hskip (c : Char) (cs : List Char) (h : ¬ text.toList <+: c :: cs) (source : String) :
      Takes d source (.seq [.notAhead (.literal text), .any]) [c] cs NoNodes :=
    takes_except (refuses_literal h)
  have hfirst (c : Char) (cs : List Char) (hc : c ∉ text.toList) :
      ¬ text.toList <+: c :: cs := by
    intro hbegins
    obtain ⟨t, ts, hts⟩ := List.exists_cons_of_ne_nil (l := text.toList) (by
      intro hnil
      simp [String.toList_eq_nil_iff.mp hnil] at htext)
    rw [hts, List.cons_prefix_cons] at hbegins
    apply hc
    rw [hts, hbegins.1]
    apply List.mem_cons_self
  induction rest with
  | nil =>
      have hnil (source : String) :
          Takes d source (.star (.seq [.notAhead (.literal text), .any])) [] [] NoNodes := by
        apply takes_star_nil
        apply refuses_except_nil
        apply refuses_literal
        intro hbegins
        rw [List.prefix_nil, String.toList_eq_nil_iff] at hbegins
        simp [hbegins] at htext
      exact ⟨[], [], rfl, hnil, hnil⟩
  | cons c rest ih =>
      by_cases hbegins : text.toList <+: c :: rest
      · obtain ⟨left, hleft⟩ := hbegins
        have hnil (left : List Char) (source : String) :
            Takes d source (.star (.seq [.notAhead (.literal text), .any])) []
              (text.toList ++ left) NoNodes :=
          takes_star_nil (refuses_except (takes_literal text left))
        rw [← hleft]
        refine ⟨[], text.toList ++ left, rfl, hnil left, ?_⟩
        rw [Text.crlf_append, Text.crlf_of_not_mem hfeed]
        apply hnil
      · obtain ⟨taken, left, rfl, htakes, htakes'⟩ := ih
        refine ⟨c :: taken, left, rfl, ?_, ?_⟩
        · intro source
          apply Takes.star_skip (s := [c]) (hskip c _ hbegins source) (htakes source)
        · intro source
          have hstar := htakes' source
          by_cases hline : c = '\n'
          · have hfeed' := hskip _ (Text.crlf taken ++ Text.crlf left) (hfirst _ _ hfeed) source
            have hreturn' := hskip _ ('\n' :: (Text.crlf taken ++ Text.crlf left))
              (hfirst _ _ hreturn) source
            rw [Text.crlf_cons, Text.paired, if_pos hline]
            apply Takes.star_skip (s := ['\r']) hreturn' (Takes.star_skip (s := ['\n']) hfeed' hstar)
          · rw [Text.crlf_cons, Text.paired_of_ne hline]
            apply Takes.star_skip _ hstar
            apply hskip
            intro hcrlf
            apply hbegins
            apply Text.prefix_of_prefix_crlf hreturn
            rw [Text.crlf_cons, Text.paired_of_ne hline, Text.crlf_append]
            apply hcrlf

theorem readsAlike_upTo (htext : text.isEmpty = false) (hlineless : lineless text = true)
    (rest : List Char) :
  ReadsAlike d (.star (.seq [.notAhead (.literal text), .any])) rest
  := by
  obtain ⟨taken, left, rfl, htakes, htakes'⟩ := takes_upTo (d := d) htext hlineless rest
  exact .takes htakes htakes'

/-! ### Line ends themselves -/

/-- The alternatives for line ends before some others. -/
def lineEndOr (more : List Expr) : Expr :=
  .choice (.literal "\r\n" :: .char (.only '\r') :: .char (.only '\n') :: more)

section

variable {source : String} {more : List Expr}

theorem takes_lineEndOr (more : List Expr) (rest : List Char) :
  Takes d source (lineEndOr more) ['\n'] rest NoNodes
    ∧ Takes d source (lineEndOr more) ['\r', '\n'] rest NoNodes
  := by
  constructor
  · apply Takes.choice_next (refuses_literal (by simp))
    apply Takes.choice_next (refuses_char (by simp [CharClass.holds]))
    apply (takes_char (by simp [CharClass.holds]) rest).choice
  · apply (takes_literal "\r\n" rest).choice

/-- Where no line end comes next only the other alternatives are left. -/
theorem refuses_lineEnds (h : ∀ c, rest.head? = some c → c ≠ '\r' ∧ c ≠ '\n') :
  ∀ item ∈ [.literal "\r\n", .char (.only '\r'), .char (.only '\n')], Refuses d source item rest
  := by
  have hliteral : ¬ "\r\n".toList <+: rest := by
    rintro ⟨left, rfl⟩
    exact (h '\r' rfl).1 rfl
  simp only [List.forall_mem_cons]
  refine ⟨refuses_literal hliteral, refuses_char ?_, refuses_char ?_, by simp⟩
  · intro c hc
    simpa [CharClass.holds] using (h c hc).1
  · intro c hc
    simpa [CharClass.holds] using (h c hc).2

end

theorem readsAlike_lineEndOr {more : List Expr} (hmore : ∀ item ∈ more, item = .endOfInput)
    (hreturn : '\r' ∉ rest) :
  ReadsAlike d (lineEndOr more) rest
  := by
  have hrefuses (left : List Char) (h : ∀ c, left.head? = some c → c ≠ '\r' ∧ c ≠ '\n')
      (hends : left = [] → more = []) (source : String) : Refuses d source (lineEndOr more) left := by
    apply refuses_choice
    intro item hmem
    -- the alternatives for line ends are put before the others
    rcases List.mem_append (s := [_, _, _]).mp hmem with hmem | hmem
    · apply refuses_lineEnds h item hmem
    · rw [hmore item hmem]
      apply refuses_endOfInput
      intro hnil
      rw [hends hnil] at hmem
      cases hmem
  cases rest with
  | nil =>
      cases more with
      | nil => exact .refuses (hrefuses [] (by simp) (by simp)) (hrefuses [] (by simp) (by simp))
      | cons item more =>
          have htakes (source : String) :
              Takes d source (lineEndOr (item :: more)) [] [] NoNodes := by
            have hends := @refuses_lineEnds d [] source (by simp)
            simp only [List.forall_mem_cons] at hends
            obtain ⟨hpair, hfirst, hsecond, -⟩ := hends
            rw [hmore item List.mem_cons_self]
            apply Takes.choice_next hpair
            apply Takes.choice_next hfirst
            apply Takes.choice_next hsecond
            apply takes_endOfInput.choice
          exact @ReadsAlike.takes _ _ [] [] htakes htakes
  | cons c rest =>
      rw [List.mem_cons, not_or] at hreturn
      by_cases hline : c = '\n'
      · rw [hline]
        refine @ReadsAlike.takes _ _ ['\n'] rest ?_ ?_
        · intro source
          apply (takes_lineEndOr more rest).1
        · intro source
          apply (takes_lineEndOr more _).2
      · have hhead (left : List Char) :
            ∀ x, (c :: left).head? = some x → x ≠ '\r' ∧ x ≠ '\n' := by
          rintro _ ⟨⟩
          exact ⟨Ne.symm hreturn.1, hline⟩
        apply ReadsAlike.refuses
        · apply hrefuses _ (hhead rest)
          simp
        · rw [Text.crlf_cons, Text.paired_of_ne hline]
          apply hrefuses _ (hhead _)
          simp

/-- Whether an expression names no line end or takes line ends whole. -/
def takesLines : Expr → Bool
  | .literal text => lineless text
  | .char cls => !cls.holds '\r' && !cls.holds '\n'
  | .endOfInput => true
  | .seq [.notAhead (.char cls), .any] => holdsLineEnds cls
  | .star (.char cls) => holdsLineEnds cls
  | .plus (.char cls) => holdsLineEnds cls
  | .star (.seq [.notAhead (.literal text), .any]) => !text.isEmpty && lineless text
  | .choice [.literal text, .char first, .char second] =>
    text == "\r\n" && first == .only '\r' && second == .only '\n'
  | .choice [.literal text, .char first, .char second, .endOfInput] =>
    text == "\r\n" && first == .only '\r' && second == .only '\n'
  | _ => false

theorem readsAlike_of_takesLines {e : Expr} (h : takesLines e = true) (hreturn : '\r' ∉ rest) :
  ReadsAlike d e rest
  := by
  unfold takesLines at h
  split at h
  · apply readsAlike_literal h
  · simp only [Bool.and_eq_true, Bool.not_eq_true'] at h
    apply readsAlike_char h.1 h.2
  · apply readsAlike_endOfInput
  · apply readsAlike_exceptChar h
  · apply readsAlike_starChar h
  · apply readsAlike_plusChar h
  · simp only [Bool.and_eq_true, Bool.not_eq_true'] at h
    apply readsAlike_upTo h.1 h.2
  · simp only [Bool.and_eq_true, beq_iff_eq] at h
    obtain ⟨⟨rfl, rfl⟩, rfl⟩ := h
    apply @readsAlike_lineEndOr _ _ [] (by simp) hreturn
  · simp only [Bool.and_eq_true, beq_iff_eq] at h
    obtain ⟨⟨rfl, rfl⟩, rfl⟩ := h
    apply @readsAlike_lineEndOr _ _ [.endOfInput] (by simp) hreturn
  · cases h

/-! ### Staying in a line -/

/-- There is no line feed between two positions. -/
def InLine (here there : Cursor) : Prop :=
  ∃ between, here.rest = between ++ there.rest
    ∧ there.offset = here.offset + Text.byteLength between ∧ '\n' ∉ between

theorem InLine.refl (here : Cursor) :
  InLine here here
  := ⟨[], rfl, rfl, List.not_mem_nil⟩

theorem InLine.trans {a b c : Cursor} (hab : InLine a b) (hbc : InLine b c) :
  InLine a c
  := by
  obtain ⟨xs, hxs, hb, hx⟩ := hab
  obtain ⟨ys, hys, hc, hy⟩ := hbc
  refine ⟨xs ++ ys, ?_, ?_, ?_⟩
  · rw [hxs, hys, List.append_assoc]
  · rw [hc, hb, Text.byteLength_append, Nat.add_assoc]
  · rw [List.mem_append, not_or]
    exact ⟨hx, hy⟩

/-- Whether an expression reads no line feed. -/
def staysInLine : Expr → Bool
  | .literal text => !text.toList.contains '\n'
  | .char cls => !cls.holds '\n'
  | .seq [.notAhead (.char cls), .any] => cls.holds '\n'
  | _ => false

theorem inLine_of_exceptChar {cls : CharClass} (hcls : cls.holds '\n' = true) {here there : Cursor}
    {ns : List Node} (h : Grows d (.seq [.notAhead (.char cls), .any]) here there ns) :
  InLine here there
  := by
  obtain ⟨c, hc, hrest, hoffset⟩ := h.of_exceptChar
  refine ⟨[c], hrest, hoffset, ?_⟩
  intro hmem
  obtain rfl := List.mem_singleton.mp hmem
  rw [hcls] at hc
  cases hc

theorem inLine_of_staysInLine {e : Expr} (he : staysInLine e = true) {here there : Cursor}
    {ns : List Node} (h : Grows d e here there ns) :
  InLine here there
  := by
  unfold staysInLine at he
  split at he
  · cases h with
    | reads hreads hrest hoffset =>
        obtain rfl := hreads
        exact ⟨_, hrest, hoffset, by simpa using he⟩
  · obtain ⟨c, hc, hrest, hoffset⟩ := h.of_char
    refine ⟨[c], hrest, by simpa using hoffset, ?_⟩
    intro hmem
    obtain rfl := List.mem_singleton.mp hmem
    simp [hc] at he
  · apply inLine_of_exceptChar he h
  · cases he

end ClassTranscript.Peg
