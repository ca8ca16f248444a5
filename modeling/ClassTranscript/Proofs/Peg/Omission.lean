import ClassTranscript.Proofs.Peg.Corresponding
import ClassTranscript.Proofs.Peg.TakingLines
import ClassTranscript.Proofs.Text.Lines

/-!
# Leaving out a line end

Of two line ends after one another the second is left out of a text (`Omission`). Positions of the
two texts are `Beside` one another where what lies behind them is the same but for the omission, or
the same altogether. Most expressions do the same at both (`corresponds_of_avoids`): those that name
no line end, single characters other than some with line ends among these, runs of characters with
line ends among them, and everything up to a text.
-/

namespace ClassTranscript.Peg

/-- A line end, another one behind it, which is left out, and the text behind both. -/
structure Omission where
  ending : List Char
  omitted : List Char
  rest : List Char
  ends : Text.EndsLine ending (omitted ++ rest)
  omitted_ends : Text.EndsLine omitted rest
  /-- Otherwise a line end that stands alone might stand between the quotes of a character. -/
  not_quote : rest.head? ≠ some '\x27'

namespace Omission

variable (k : Omission)

/-- The text from some characters on, with both line ends. -/
def whole (s : List Char) : List Char :=
  s ++ (k.ending ++ (k.omitted ++ k.rest))

/-- The text from some characters on, with one line end. -/
def short (s : List Char) : List Char :=
  s ++ (k.ending ++ k.rest)

/-- The position lies behind the first line end. -/
def IsLate (here : Cursor) : Prop :=
  here.rest.length ≤ (k.omitted ++ k.rest).length

/-- No line end stands at the end of the text. -/
def StaysInLine (s : List Char) : Prop :=
  ∀ c, s.getLast? = some c → c ≠ '\r' ∧ c ≠ '\n'

/-- What lies behind the positions is the same, but for the omission if it is not behind the first
line end. -/
inductive Beside (here here' : Cursor) : Prop where
  | before {s : List Char} :
    StaysInLine s →
    here.rest = k.whole s →
    here'.rest = k.short s →
    Beside here here'
  | behind :
    here'.rest = here.rest →
    k.IsLate here →
    Beside here here'

variable {k} {d : Draft} {e : Expr} {s t taken : List Char} {c : Char} {here there : Cursor}

theorem whole_append :
  k.whole (s ++ t) = s ++ k.whole t
  := by
  simp [whole]

theorem short_append :
  k.short (s ++ t) = s ++ k.short t
  := by
  simp [short]

theorem isLate_of_reaches (h : here.Reaches there) (hlate : k.IsLate here) :
  k.IsLate there
  := by
  obtain ⟨between, hrest, -⟩ := h
  rw [IsLate, hrest, List.length_append] at hlate
  rw [IsLate]
  omega

theorem StaysInLine.of_append (h : StaysInLine (s ++ t)) :
  StaysInLine t
  := by
  intro c hc
  apply h
  rw [List.getLast?_append, hc]
  rfl

/-- A line end has a character of line ends at its front. -/
theorem exists_cons_of_endsLine {ending rest : List Char} (h : Text.EndsLine ending rest) :
  ∃ c cs, ending = c :: cs ∧ (c = '\r' ∨ c = '\n') ∧ ∀ x ∈ cs, x = '\r' ∨ x = '\n'
  := by
  have hmem := h.mem
  simp only [Text.lineEnds, List.mem_cons, List.not_mem_nil, or_false] at hmem
  rcases hmem with rfl | rfl | rfl
  · exact ⟨_, _, rfl, .inl rfl, by simp⟩
  · exact ⟨_, _, rfl, .inl rfl, by simp⟩
  · exact ⟨_, _, rfl, .inr rfl, by simp⟩

/-- Where nothing stands before the first line end, a character of line ends comes next in both
texts. -/
theorem exists_head (k : Omission) :
  ∃ c cs cs', k.whole [] = c :: cs ∧ k.short [] = c :: cs' ∧ (c = '\r' ∨ c = '\n')
  := by
  obtain ⟨c, cs, heq, hc, -⟩ := exists_cons_of_endsLine k.ends
  exact ⟨c, cs ++ (k.omitted ++ k.rest), cs ++ k.rest, by rw [whole, heq]; rfl,
    by rw [short, heq]; rfl, hc⟩

/-- The position in front of both line ends does not lie behind the first. -/
theorem not_isLate (h : here.rest = k.whole []) :
  ¬ k.IsLate here
  := by
  obtain ⟨c, cs, heq, -⟩ := exists_cons_of_endsLine k.ends
  rw [IsLate, h, whole, heq]
  simp only [List.nil_append, List.length_append, List.length_cons]
  omega

/-- Beside the position in front of both line ends is the one in front of the other line end. -/
theorem Beside.rest_eq {here' : Cursor} (h : k.Beside here here') (hrest : here.rest = k.whole []) :
  here'.rest = k.short []
  := by
  cases h with
  | @before s _ hwhole hshort =>
      have hs : s ++ k.whole [] = k.whole [] := by rw [← whole_append, List.append_nil, ← hwhole, hrest]
      rw [hshort, List.append_left_eq_self.mp hs]
  | behind _ hlate => exact absurd hlate (not_isLate hrest)

/-- The position is one of some text. -/
theorem exists_source (here : Cursor) :
  ∃ source, (Cursor.atStart source).Reaches here
  := by
  have hbytes (n : Nat) : Text.byteLength (List.replicate n 'a') = n := by
    induction n with
    | zero => rfl
    | succ n ih =>
        rw [List.replicate_succ, Text.byteLength_cons, ih, Nat.add_comm]
        rfl
  use String.ofList (List.replicate here.offset 'a' ++ here.rest)
  refine ⟨List.replicate here.offset 'a', String.toList_ofList, ?_⟩
  rw [hbytes]
  exact (Nat.zero_add _).symm

/-! ### Going on alike -/

/-- The expression does the same with both line ends as with one: it fails, it takes the same and
stays in front of them, or it takes all up to one place behind them. -/
inductive GoesOnAlike (k : Omission) (d : Draft) (e : Expr) (s : List Char) : Prop where
  | refuses :
    (∀ source, Refuses d source e (k.whole s)) →
    (∀ source, Refuses d source e (k.short s)) →
    GoesOnAlike k d e s
  | stays (taken left : List Char) :
    s = taken ++ left →
    (∀ source, Takes d source e taken (k.whole left) AnyNodes) →
    (∀ source, Takes d source e taken (k.short left) AnyNodes) →
    GoesOnAlike k d e s
  | passes {taken taken' left : List Char} :
    k.whole s = taken ++ left →
    k.short s = taken' ++ left →
    left.length ≤ (k.omitted ++ k.rest).length →
    (∀ source, Takes d source e taken left AnyNodes) →
    (∀ source, Takes d source e taken' left AnyNodes) →
    GoesOnAlike k d e s

theorem Takes.derives {source : String} {p : List Node → Prop} {rest : List Char}
    (h : Takes d source e taken rest p) (hhere : (Cursor.atStart source).Reaches here)
    (hrest : here.rest = taken ++ rest) :
  ∃ ms, Derives d.body? e here (some ⟨here.offset + Text.byteLength taken, rest⟩) ms
  := by
  obtain ⟨_, hgrows, -⟩ := h here hhere hrest
  apply hgrows.derives

theorem GoesOnAlike.derives (h : k.GoesOnAlike d e s) (hstays : StaysInLine s) {here' : Cursor}
    (hwhole : here.rest = k.whole s) (hshort : here'.rest = k.short s) {r : Option Cursor}
    {ms : List Miss} (hderives : Derives d.body? e here r ms) :
  ∃ r' ms', Derives d.body? e here' r' ms' ∧ Option.Rel k.Beside r r'
  := by
  obtain ⟨source, hhere⟩ := exists_source here
  obtain ⟨source', hhere'⟩ := exists_source here'
  cases h with
  | refuses hfails hfails' =>
      obtain ⟨_, hfails⟩ := hfails source here hhere hwhole
      obtain ⟨_, hfails'⟩ := hfails' source' here' hhere' hshort
      obtain ⟨rfl, -⟩ := hderives.unique hfails
      exact ⟨_, _, hfails', .none⟩
  | stays taken left heq htakes htakes' =>
      rw [heq, whole_append] at hwhole
      rw [heq, short_append] at hshort
      obtain ⟨_, hmatch⟩ := Takes.derives (htakes source) hhere hwhole
      obtain ⟨_, hmatch'⟩ := Takes.derives (htakes' source') hhere' hshort
      obtain ⟨rfl, -⟩ := hderives.unique hmatch
      rw [heq] at hstays
      exact ⟨_, _, hmatch', .some (.before hstays.of_append rfl rfl)⟩
  | passes heq heq' hle htakes htakes' =>
      obtain ⟨_, hmatch⟩ := Takes.derives (htakes source) hhere (hwhole.trans heq)
      obtain ⟨_, hmatch'⟩ := Takes.derives (htakes' source') hhere' (hshort.trans heq')
      obtain ⟨rfl, -⟩ := hderives.unique hmatch
      exact ⟨_, _, hmatch', .some (.behind rfl hle)⟩

/-- Behind the line ends everything does the same. -/
theorem derives_behind {here' : Cursor} (hrest : here'.rest = here.rest) (hlate : k.IsLate here)
    {r : Option Cursor} {ms : List Miss} (h : Derives d.body? e here r ms) :
  ∃ r' ms', Derives d.body? e here' r' ms' ∧ Option.Rel k.Beside r r'
  := by
  obtain ⟨r', ms', h', hsame⟩ := corresponds_of_rest d e hrest h
  refine ⟨r', ms', h', ?_⟩
  cases hsame with
  | none => exact .none
  | some hsame => exact .some (.behind hsame (isLate_of_reaches (h.reaches _ rfl) hlate))

theorem corresponds_of_goesOnAlike (h : ∀ s, k.GoesOnAlike d e s) :
  Corresponds d.body? k.Beside k.Beside e
  := by
  intro here here' r ms hrel hderives
  cases hrel with
  | before hstays hwhole hshort => apply (h _).derives hstays hwhole hshort hderives
  | behind hrest hlate => apply derives_behind hrest hlate hderives

/-! ### Texts and single characters -/

/-- A text that stands in front of others and a character that it has not in it stands in front of
them. -/
theorem prefix_of_prefix_append {rest : List Char} (h : t <+: s ++ c :: rest) (hc : c ∉ t) :
  t <+: s
  := by
  rcases List.prefix_or_prefix_of_prefix h (List.prefix_append s _) with hbegins | ⟨u, rfl⟩
  · apply hbegins
  · rw [List.prefix_append_right_inj] at h
    cases u with
    | nil => simp
    | cons x u =>
        obtain ⟨rfl, -⟩ := List.cons_prefix_cons.mp h
        simp at hc

theorem not_prefix {text : String} (h : lineless text = true) (hnot : ¬ text.toList <+: s) :
  ¬ text.toList <+: k.whole s ∧ ¬ text.toList <+: k.short s
  := by
  obtain ⟨hreturn, hfeed⟩ := not_mem_of_lineless h
  obtain ⟨c, cs, cs', hwhole, hshort, hc⟩ := k.exists_head
  have hmem : c ∉ text.toList := by
    rcases hc with rfl | rfl
    · apply hreturn
    · apply hfeed
  rw [← List.append_nil s, whole_append, short_append, hwhole, hshort]
  exact ⟨fun h => hnot (prefix_of_prefix_append h hmem),
    fun h => hnot (prefix_of_prefix_append h hmem)⟩

theorem goesOnAlike_literal {text : String} (h : lineless text = true) (s : List Char) :
  k.GoesOnAlike d (.literal text) s
  := by
  by_cases hbegins : text.toList <+: s
  · obtain ⟨left, hleft⟩ := hbegins
    exact .stays _ _ hleft.symm (fun _ => (takes_literal text _).any) fun _ => (takes_literal text _).any
  · obtain ⟨hwhole, hshort⟩ := not_prefix (k := k) h hbegins
    exact .refuses (fun _ => refuses_literal hwhole) fun _ => refuses_literal hshort

/-- Either some characters stand in front of the line ends or a character of line ends comes next in
both texts. -/
theorem head?_cases (k : Omission) (s : List Char) :
  (∃ c left, s = c :: left) ∨ ∃ c cs cs', k.whole s = c :: cs ∧ k.short s = c :: cs'
    ∧ (c = '\r' ∨ c = '\n')
  := by
  cases s with
  | nil => exact .inr k.exists_head
  | cons c left => exact .inl ⟨c, left, rfl⟩

section

variable {cls : CharClass}

theorem goesOnAlike_char (hreturn : cls.holds '\r' = false) (hfeed : cls.holds '\n' = false)
    (s : List Char) :
  k.GoesOnAlike d (.char cls) s
  := by
  have hrefuses {x : Char} (hx : cls.holds x = false) (left : List Char) (source : String) :
      Refuses d source (.char cls) (x :: left) := by
    apply refuses_char
    rintro _ ⟨⟩
    apply hx
  rcases head?_cases k s with ⟨c, left, rfl⟩ | ⟨c, cs, cs', hwhole, hshort, hc⟩
  · cases hc : cls.holds c with
    | true =>
        exact .stays [c] left rfl (fun _ => (takes_char hc _).any) fun _ => (takes_char hc _).any
    | false => exact .refuses (hrefuses hc _) (hrefuses hc _)
  · have hc : cls.holds c = false := by
      rcases hc with rfl | rfl
      · apply hreturn
      · apply hfeed
    apply GoesOnAlike.refuses
    · rw [hwhole]
      apply hrefuses hc
    · rw [hshort]
      apply hrefuses hc

theorem goesOnAlike_endOfInput (s : List Char) :
  k.GoesOnAlike d .endOfInput s
  := by
  obtain ⟨c, cs, cs', hwhole, hshort, -⟩ := k.exists_head
  apply GoesOnAlike.refuses
  · intro source
    apply refuses_endOfInput
    rw [← List.append_nil s, whole_append, hwhole]
    simp
  · intro source
    apply refuses_endOfInput
    rw [← List.append_nil s, short_append, hshort]
    simp

theorem goesOnAlike_exceptChar_cons (cls : CharClass) (c : Char) (s : List Char) :
  k.GoesOnAlike d (.seq [.notAhead (.char cls), .any]) (c :: s)
  := by
  cases hc : cls.holds c with
  | true =>
      have hrefuses (left : List Char) (source : String) :
          Refuses d source (.seq [.notAhead (.char cls), .any]) (c :: left) :=
        refuses_except (takes_char hc left)
      exact .refuses (hrefuses _) (hrefuses _)
  | false =>
      have htakes (left : List Char) (source : String) :
          Takes d source (.seq [.notAhead (.char cls), .any]) [c] left AnyNodes := by
        apply Takes.any
        apply takes_except
        apply refuses_char
        rintro _ ⟨⟩
        apply hc
      exact .stays [c] s rfl (htakes _) (htakes _)

theorem goesOnAlike_exceptChar (h : holdsLineEnds cls = true) (s : List Char) :
  k.GoesOnAlike d (.seq [.notAhead (.char cls), .any]) s
  := by
  obtain ⟨hreturn, hfeed⟩ := Bool.and_eq_true_iff.mp h
  rcases head?_cases k s with ⟨c, left, rfl⟩ | ⟨c, cs, cs', hwhole, hshort, hc⟩
  · apply goesOnAlike_exceptChar_cons
  · have hc : cls.holds c = true := by
      rcases hc with rfl | rfl
      · apply hreturn
      · apply hfeed
    apply GoesOnAlike.refuses
    · rw [hwhole]
      exact fun _ => refuses_except (takes_char hc cs)
    · rw [hshort]
      exact fun _ => refuses_except (takes_char hc cs')

end

/-! ### Runs over line ends -/

/-- The characters of both line ends. -/
theorem forall_endings {p : Char → Prop} (hreturn : p '\r') (hfeed : p '\n') :
  (∀ c ∈ k.ending, p c) ∧ ∀ c ∈ k.omitted, p c
  := by
  have hall {ending rest : List Char} (h : Text.EndsLine ending rest) : ∀ c ∈ ending, p c := by
    obtain ⟨c, cs, rfl, hc, hcs⟩ := exists_cons_of_endsLine h
    intro x hmem
    have hx : x = '\r' ∨ x = '\n' := by
      rcases List.mem_cons.mp hmem with rfl | hmem
      · apply hc
      · apply hcs x hmem
    rcases hx with rfl | rfl
    · apply hreturn
    · apply hfeed
  exact ⟨hall k.ends, hall k.omitted_ends⟩

/-- What goes on up to a place behind both line ends. -/
theorem goes_over {left : List Char} (h : k.rest = taken ++ left) (s : List Char) :
  k.whole s = s ++ (k.ending ++ (k.omitted ++ taken)) ++ left
    ∧ k.short s = s ++ (k.ending ++ taken) ++ left
    ∧ left.length ≤ (k.omitted ++ k.rest).length
  := by
  rw [whole, short, h]
  simp only [List.append_assoc, List.length_append, true_and]
  omega

theorem goesOnAlike_plusChar {cls : CharClass} (h : holdsLineEnds cls = true) (s : List Char) :
  k.GoesOnAlike d (.plus (.char cls)) s
  := by
  obtain ⟨hreturn, hfeed⟩ := Bool.and_eq_true_iff.mp h
  obtain ⟨hending, homitted⟩ := forall_endings (k := k) (p := (cls.holds · = true)) hreturn hfeed
  have hrun (left : List Char) : ∀ c ∈ left.takeWhile cls.holds, cls.holds c = true :=
    List.all_eq_true.mp List.all_takeWhile
  have hstop := head?_dropWhile_holds cls
  rw [← List.takeWhile_append_dropWhile (p := cls.holds) (l := s)]
  cases hleft : s.dropWhile cls.holds with
  | nil =>
      -- the run goes over both line ends and on behind them
      have hbehind := List.takeWhile_append_dropWhile (p := cls.holds) (l := k.rest)
      obtain ⟨hwhole, hshort, hle⟩ := goes_over hbehind.symm (s.takeWhile cls.holds)
      obtain ⟨c, cs, hne, -⟩ := exists_cons_of_endsLine k.ends
      rw [List.append_nil]
      apply GoesOnAlike.passes hwhole hshort hle
      · intro source
        apply (takes_plus_chars (by simp [hne]) _ (hstop _)).any
        simp only [List.forall_mem_append]
        exact ⟨hrun s, hending, homitted, hrun k.rest⟩
      · intro source
        apply (takes_plus_chars (by simp [hne]) _ (hstop _)).any
        simp only [List.forall_mem_append]
        exact ⟨hrun s, hending, hrun k.rest⟩
  | cons x left =>
      have hx (tail : List Char) : ∀ c, (x :: left ++ tail).head? = some c → cls.holds c = false := by
        have hx := hstop s
        rw [hleft] at hx
        apply hx
      by_cases hnil : s.takeWhile cls.holds = []
      · rw [hnil, List.nil_append]
        exact .refuses (fun _ => (refuses_char (hx _)).plus) fun _ => (refuses_char (hx _)).plus
      · exact .stays _ _ rfl (fun _ => (takes_plus_chars hnil (hrun s) (hx _)).any)
          fun _ => (takes_plus_chars hnil (hrun s) (hx _)).any

/-! ### Everything up to a text -/

/-- A repetition goes on alike behind a round that takes a character. -/
theorem GoesOnAlike.star (hwhole : ∀ source, Takes d source e [c] (k.whole s) NoNodes)
    (hshort : ∀ source, Takes d source e [c] (k.short s) NoNodes)
    (h : k.GoesOnAlike d (.star e) s) :
  k.GoesOnAlike d (.star e) (c :: s)
  := by
  have hnext {rest : List Char} (hround : ∀ source, Takes d source e [c] rest NoNodes)
      (hfails : ∀ source, Refuses d source (.star e) rest) (source : String) :
      Refuses d source (.star e) (c :: rest) := by
    intro here hhere hrest
    obtain ⟨_, hround⟩ := Takes.derives (hround source) hhere hrest
    obtain ⟨_, hfails⟩ := hfails source _ (reaches_after (s := [c]) hhere hrest) rfl
    exact ⟨_, .starNext hround hfails⟩
  cases h with
  | refuses hfails hfails' => exact .refuses (hnext hwhole hfails) (hnext hshort hfails')
  | stays taken left heq htakes htakes' =>
      subst heq
      rw [whole_append] at hwhole
      rw [short_append] at hshort
      exact .stays (c :: taken) left rfl (fun source => ((hwhole source).star (htakes source)).any)
        fun source => ((hshort source).star (htakes' source)).any
  | @passes taken taken' left heq heq' hle htakes htakes' =>
      rw [heq] at hwhole
      rw [heq'] at hshort
      refine .passes ?_ ?_ hle (fun source => ((hwhole source).star (htakes source)).any)
        fun source => ((hshort source).star (htakes' source)).any
      · exact congrArg (c :: ·) heq
      · exact congrArg (c :: ·) heq'

/-- Characters that a text has not in it are taken on the way to it. -/
theorem takes_upTo_over {text source : String} {left : List Char} (htext : text.isEmpty = false)
    (hs : ∀ c ∈ s, c ∉ text.toList)
    (h : Takes d source (.star (.seq [.notAhead (.literal text), .any])) taken left NoNodes) :
  Takes d source (.star (.seq [.notAhead (.literal text), .any])) (s ++ taken) left NoNodes
  := by
  induction s with
  | nil => apply h
  | cons c s ih =>
      obtain ⟨hc, hs⟩ := List.forall_mem_cons.mp hs
      apply Takes.star_skip (s := [c]) _ (ih hs)
      apply takes_except
      apply refuses_literal
      intro hbegins
      cases ht : text.toList with
      | nil => simp [String.toList_eq_nil_iff.mp ht] at htext
      | cons t ts =>
          rw [ht, List.cons_prefix_cons] at hbegins
          rw [ht, hbegins.1] at hc
          exact hc List.mem_cons_self

theorem goesOnAlike_upTo {text : String} (htext : text.isEmpty = false) (h : lineless text = true)
    (s : List Char) :
  k.GoesOnAlike d (.star (.seq [.notAhead (.literal text), .any])) s
  := by
  induction s with
  | nil =>
      obtain ⟨hreturn, hfeed⟩ := not_mem_of_lineless h
      obtain ⟨hending, homitted⟩ := forall_endings (k := k) (p := (· ∉ text.toList)) hreturn hfeed
      obtain ⟨taken, left, hrest, htakes, -⟩ := takes_upTo (d := d) htext h k.rest
      obtain ⟨hwhole, hshort, hle⟩ := goes_over hrest []
      apply GoesOnAlike.passes hwhole hshort hle
      · intro source
        apply (takes_upTo_over htext hending (takes_upTo_over htext homitted (htakes source))).any
      · intro source
        apply (takes_upTo_over htext hending (htakes source)).any
  | cons c s ih =>
      by_cases hbegins : text.toList <+: c :: s
      · obtain ⟨left, hleft⟩ := hbegins
        have hstop (rest : List Char) (source : String) :
            Takes d source (.star (.seq [.notAhead (.literal text), .any])) []
              (text.toList ++ rest) AnyNodes :=
          (takes_star_nil (refuses_except (takes_literal text rest))).any
        rw [← hleft]
        apply GoesOnAlike.stays [] (text.toList ++ left) rfl
        · rw [whole_append]
          apply hstop
        · rw [short_append]
          apply hstop
      · obtain ⟨hwhole, hshort⟩ := not_prefix (k := k) h hbegins
        exact .star (fun _ => takes_except (refuses_literal hwhole))
          (fun _ => takes_except (refuses_literal hshort)) ih

/-- Whether an expression names no line end or has line ends among the characters that it passes
over. -/
def avoidsLineEnds : Expr → Bool
  | .literal text => lineless text
  | .char cls => !cls.holds '\r' && !cls.holds '\n'
  | .endOfInput => true
  | .seq [.notAhead (.char cls), .any] => holdsLineEnds cls
  | .plus (.char cls) => holdsLineEnds cls
  | .star (.seq [.notAhead (.literal text), .any]) => !text.isEmpty && lineless text
  | _ => false

theorem corresponds_of_avoids (h : avoidsLineEnds e = true) :
  Corresponds d.body? k.Beside k.Beside e
  := by
  apply corresponds_of_goesOnAlike
  intro s
  unfold avoidsLineEnds at h
  split at h
  · apply goesOnAlike_literal h
  · simp only [Bool.and_eq_true, Bool.not_eq_true'] at h
    apply goesOnAlike_char h.1 h.2
  · apply goesOnAlike_endOfInput
  · apply goesOnAlike_exceptChar h
  · apply goesOnAlike_plusChar h
  · simp only [Bool.and_eq_true, Bool.not_eq_true'] at h
    apply goesOnAlike_upTo h.1 h.2
  · cases h

/-- What is made of such expressions, without rules. -/
theorem corresponds_of_allAvoid (h : e.madeOf avoidsLineEnds (fun _ => false) = true) :
  Corresponds d.body? k.Beside k.Beside e
  := corresponds_of_madeOf (by simp [Draft.MadeOf]) (fun _ => corresponds_of_avoids) h

/-! ### Line ends themselves -/

section

variable {source : String} {ending left rest : List Char} {more : List Expr}

/-- A line end is taken whole. -/
theorem takes_of_endsLine (h : Text.EndsLine ending rest) (more : List Expr) :
  Takes d source (lineEndOr more) ending rest NoNodes
  := by
  have hmem := h.mem
  simp only [Text.lineEnds, List.mem_cons, List.not_mem_nil, or_false] at hmem
  rcases hmem with rfl | rfl | rfl
  · apply (takes_lineEndOr more rest).2
  · apply Takes.choice_next
    · apply refuses_literal
      rintro ⟨tail, htail⟩
      have hrest : '\n' :: tail = rest := (List.cons.inj htail).2
      apply h.whole rfl
      rw [← hrest]
      rfl
    · apply (takes_char (by decide) rest).choice
  · apply (takes_lineEndOr more rest).1

/-- What is left behind the one line end: the text behind both, or that without a line feed at its
front, which is then the second half of the line end. -/
def IsLeft (k : Omission) (left : List Char) : Prop :=
  left = k.rest ∨ k.rest = '\n' :: left

theorem exists_short_ending (k : Omission) :
  ∃ ending left, k.ending ++ k.rest = ending ++ left ∧ Text.EndsLine ending left ∧ k.IsLeft left
  := by
  by_cases hjoins : k.ending = ['\r'] ∧ k.rest.head? = some '\n'
  · obtain ⟨hending, hhead⟩ := hjoins
    obtain ⟨left, hrest⟩ := List.head?_eq_some_iff.mp hhead
    exact ⟨['\r', '\n'], left, by rw [hending, hrest]; rfl, ⟨by decide, by simp⟩, .inr hrest⟩
  · exact ⟨k.ending, k.rest, rfl, ⟨k.ends.mem, fun hreturn hhead => hjoins ⟨hreturn, hhead⟩⟩, .inl rfl⟩

/-- A line end in front of the last characters of a line is the same in both texts. -/
theorem goesOnAlike_lineEnd (hmore : ∀ item ∈ more, item = .endOfInput)
    (hstays : StaysInLine (c :: s)) :
  k.GoesOnAlike d (lineEndOr more) (c :: s)
  := by
  have htakes (taken left : List Char) (hends : ∀ rest, Text.EndsLine taken (left ++ rest))
      (heq : c :: s = taken ++ left) : k.GoesOnAlike d (lineEndOr more) (c :: s) :=
    .stays taken left heq (fun _ => (takes_of_endsLine (hends _) more).any)
      fun _ => (takes_of_endsLine (hends _) more).any
  have hrefuses (h : c ≠ '\r' ∧ c ≠ '\n') (tail : List Char) (source : String) :
      Refuses d source (lineEndOr more) (c :: tail) := by
    apply refuses_choice
    intro item hmem
    -- the alternatives for line ends are put before the others
    rcases List.mem_append (s := [_, _, _]).mp hmem with hmem | hmem
    · apply refuses_lineEnds _ item hmem
      rintro _ ⟨⟩
      apply h
    · rw [hmore item hmem]
      apply refuses_endOfInput (List.cons_ne_nil c tail)
  by_cases hfeed : c = '\n'
  · subst hfeed
    exact htakes ['\n'] s (fun rest => ⟨by decide, by simp⟩) rfl
  by_cases hreturn : c = '\r'
  · subst hreturn
    cases s with
    | nil => exact absurd rfl (hstays '\r' rfl).1
    | cons x s =>
        by_cases hx : x = '\n'
        · subst hx
          exact htakes ['\r', '\n'] s (fun rest => ⟨by decide, by simp⟩) rfl
        · exact htakes ['\r'] (x :: s) (fun rest => ⟨by decide, fun _ => by simpa using hx⟩) rfl
  · exact .refuses (hrefuses ⟨hreturn, hfeed⟩ _) (hrefuses ⟨hreturn, hfeed⟩ _)

theorem keepsFailing_lineEnd :
  KeepsFailing d.body? k.Beside (lineEndOr [])
  := by
  rintro here here' hrel ⟨_, hfails⟩
  cases hrel with
  | @before s hstays hwhole hshort =>
      cases s with
      | nil =>
          -- the first line end comes next and is taken
          obtain ⟨source, hhere⟩ := exists_source here
          have hends : Takes d source (lineEndOr []) k.ending (k.omitted ++ k.rest) NoNodes :=
            takes_of_endsLine k.ends []
          obtain ⟨_, hmatch⟩ := Takes.derives hends hhere hwhole
          cases (hfails.unique hmatch).1
      | cons c s =>
          obtain ⟨_, _, hfails, ⟨⟩⟩ :=
            (goesOnAlike_lineEnd (by simp) hstays).derives hstays hwhole hshort hfails
          exact ⟨_, hfails⟩
  | behind hrest hlate =>
      obtain ⟨_, _, hfails, ⟨⟩⟩ := derives_behind hrest hlate hfails
      exact ⟨_, hfails⟩

theorem keepsMatching_lineEnd :
  KeepsMatching d.body? k.Beside k.IsLate (lineEndOr [])
  := by
  intro here here' there _ hrel hmatch hnot
  cases hrel with
  | @before s hstays hwhole hshort =>
      cases s with
      | nil =>
          obtain ⟨source, hhere⟩ := exists_source here
          have hends : Takes d source (lineEndOr []) k.ending (k.omitted ++ k.rest) NoNodes :=
            takes_of_endsLine k.ends []
          obtain ⟨_, hmatch'⟩ := Takes.derives hends hhere hwhole
          obtain ⟨⟨⟩, -⟩ := hmatch.unique hmatch'
          exact absurd (Nat.le_refl _) hnot
      | cons c s =>
          obtain ⟨_, _, hmatch, hstop⟩ :=
            (goesOnAlike_lineEnd (by simp) hstays).derives hstays hwhole hshort hmatch
          cases hstop with
          | some hstop => exact ⟨_, _, hmatch, hstop⟩
  | behind hrest hlate =>
      obtain ⟨_, _, hmatch, hstop⟩ := derives_behind hrest hlate hmatch
      cases hstop with
      | some hstop => exact ⟨_, _, hmatch, hstop⟩

end

end Omission

end ClassTranscript.Peg
