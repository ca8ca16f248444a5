import ClassTranscript.Peg.Trace
import ClassTranscript.Proofs.Peg.CallLog
import ClassTranscript.Proofs.Peg.Packrat
import ClassTranscript.Proofs.Peg.Pruning

/-!
# Rows of a trace log

A trace log is made of rows, each about a call and inside the calls that are open there. The rows of
a parse are `Bracketed`: the row that closes a call stands inside the same open calls as the row
that opened it, and so at the same indentation. A log that shows every call has a line for each row,
and one that shows the rules that make nodes leaves out the other rows and the open calls that it
does not show (`traceLines_of_parse?`).
-/

namespace ClassTranscript.Peg

/-! ### Rows -/

/-- A rule that is called, and the offset at which it is. -/
structure CallSite where
  rule : RuleId
  offset : Nat
  deriving DecidableEq

/-- What a row tells about a call. -/
inductive RowKind where
  /-- The body of the rule is entered. -/
  | opening
  /-- The body is left; a match ended at `stop`. -/
  | closing (stop : Option Nat)
  /-- A remembered result answers the call. -/
  | memo (stop : Option Nat)
  deriving DecidableEq

/-- A row of a trace log. -/
structure LogRow where
  /-- The calls that are open around the row, the innermost first. -/
  around : List CallSite
  site : CallSite
  kind : RowKind
  deriving DecidableEq

namespace LogRow

def isOpening (row : LogRow) : Bool :=
  row.kind matches .opening

def isMemo (row : LogRow) : Bool :=
  row.kind matches .memo _

/-- What a row says. -/
def text (st : TraceStyle) (row : LogRow) : String :=
  match row.kind with
  | .opening => st.place row.site.rule row.site.offset ""
  | .closing stop =>
    st.place row.site.rule row.site.offset "" ++ " " ++ st.result row.site.offset stop
  | .memo stop =>
    st.place row.site.rule row.site.offset " (memo)" ++ " " ++ st.result row.site.offset stop

section

variable (st : TraceStyle) (around : List CallSite) (site : CallSite) (stop : Option Nat)

theorem text_opening :
  text st ⟨around, site, .opening⟩ = st.place site.rule site.offset ""
  := rfl

theorem text_closing :
  text st ⟨around, site, .closing stop⟩
    = st.place site.rule site.offset "" ++ " " ++ st.result site.offset stop
  := rfl

theorem text_memo :
  text st ⟨around, site, .memo stop⟩
    = st.place site.rule site.offset " (memo)" ++ " " ++ st.result site.offset stop
  := rfl

end

end LogRow

/-- The rows of events that happen inside some open calls. -/
def rowsInside : List CallSite → List Event → List LogRow
  | _, [] => []
  | around, .enter rule offset _ :: events =>
    ⟨around, ⟨rule, offset⟩, .opening⟩ :: rowsInside (⟨rule, offset⟩ :: around) events
  | around, .leave rule offset stop :: events =>
    ⟨around.tail, ⟨rule, offset⟩, .closing stop⟩ :: rowsInside around.tail events
  | around, .reuse rule offset stop :: events =>
    ⟨around, ⟨rule, offset⟩, .memo stop⟩ :: rowsInside around events
  | around, _ :: events => rowsInside around events

/-- The rows of a parse with the given events. -/
def logRows (events : List Event) : List LogRow :=
  rowsInside [] events

/-- Rows inside some open calls that open and close calls in pairs: the two rows of a pair are about
the same call and inside the same open calls, and the rows in between are bracketed inside that call
as well. -/
inductive Bracketed : List CallSite → List LogRow → Prop where
  | nil {around : List CallSite} : Bracketed around []
  | memo {around : List CallSite} {rows : List LogRow} (site : CallSite) (stop : Option Nat) :
    Bracketed around rows → Bracketed around (⟨around, site, .memo stop⟩ :: rows)
  | call {around : List CallSite} {inside rows : List LogRow} (site : CallSite)
    (stop : Option Nat) : Bracketed (site :: around) inside → Bracketed around rows →
    Bracketed around
      (⟨around, site, .opening⟩ :: (inside ++ ⟨around, site, .closing stop⟩ :: rows))

section

variable {events : List Event}

theorem countP_isOpening_rowsInside (around : List CallSite) (events : List Event) :
  (rowsInside around events).countP LogRow.isOpening = events.countP Event.isEnter
  := by
  induction events generalizing around with
  | nil => rfl
  | cons event events ih =>
      cases event <;> simp [rowsInside, List.countP_cons, LogRow.isOpening, Event.isEnter, ih]

theorem countP_isMemo_rowsInside (around : List CallSite) (events : List Event) :
  (rowsInside around events).countP LogRow.isMemo = events.countP Event.isReuse
  := by
  induction events generalizing around with
  | nil => rfl
  | cons event events ih =>
      cases event <;> simp [rowsInside, List.countP_cons, LogRow.isMemo, Event.isReuse, ih]

/-- Behind well nested events the same calls are open as before. -/
theorem WellNested.rowsInside_append (h : WellNested events) (around : List CallSite)
    (more : List Event) :
  rowsInside around (events ++ more) = rowsInside around events ++ rowsInside around more
  := by
  induction h generalizing around more with
  | nil => rfl
  | @aside event _ hevent _ ih =>
      cases event with
      | enter | leave => cases hevent
      | reuse | backtrack | miss | halt => simp [rowsInside, ih]
  | call rule offset tracking stop _ _ ihInside ih =>
      simp [rowsInside, ihInside, ih]

theorem WellNested.bracketed (h : WellNested events) (around : List CallSite) :
  Bracketed around (rowsInside around events)
  := by
  induction h generalizing around with
  | nil => exact .nil
  | @aside event _ hevent _ ih =>
      cases event with
      | enter | leave => cases hevent
      | reuse rule offset stop => exact .memo _ _ (ih around)
      | backtrack | miss | halt => apply ih around
  | call rule offset tracking stop hinside _ ihInside ih =>
      rw [rowsInside, hinside.rowsInside_append]
      exact .call _ _ (ihInside _) (ih around)

/-! ### Lines -/

/-- A text behind two blanks for each level. -/
def indented (level : Nat) (text : String) : String :=
  String.ofList (List.replicate (2 * level) ' ') ++ text

namespace TraceStyle

/-- Whether a log has a line for a row. -/
def showsRow (st : TraceStyle) (row : LogRow) : Bool :=
  if row.isMemo then st.verbosity != .normal else st.shows row.site.rule

/-- The line of a row, indented by the open calls that are shown. -/
def lineOf (st : TraceStyle) (row : LogRow) : String :=
  indented (row.around.countP (st.shows ·.rule)) (row.text st)

/-- The lines of some rows. -/
def linesOf (st : TraceStyle) (rows : List LogRow) : List String :=
  (rows.filter st.showsRow).map st.lineOf

theorem linesOf_append (st : TraceStyle) (rows rows' : List LogRow) :
  st.linesOf (rows ++ rows') = st.linesOf rows ++ st.linesOf rows'
  := by
  rw [linesOf, List.filter_append, List.map_append]
  rfl

end TraceStyle

/-- A log is written inside some open calls: it knows which of them it shows, and how many. -/
structure TraceLog.Inside (st : TraceStyle) (around : List CallSite) (log : TraceLog) : Prop where
  depth : log.depth = around.countP (st.shows ·.rule)
  openCalls : log.openCalls = around.map (st.shows ·.rule)

/-- The log `log'` comes after `log` with the lines of some rows, as far as those are all that it
shows. -/
def TraceLog.Grows (st : TraceStyle) (log : TraceLog) (rows : List LogRow) (log' : TraceLog) :
    Prop :=
  st.verbosity ≠ .veryVerbose → log'.lines = (st.linesOf rows).reverse ++ log.lines

variable {st : TraceStyle} {around : List CallSite} {log log' log'' : TraceLog}

namespace TraceLog

theorem Grows.append {rows rows' : List LogRow} (h : Grows st log rows log')
    (h' : Grows st log' rows' log'') :
  Grows st log (rows ++ rows') log''
  := by
  intro hquiet
  rw [h' hquiet, h hquiet, st.linesOf_append, List.reverse_append, List.append_assoc]

theorem Grows.of_hidden {row : LogRow} (hrow : st.showsRow row = false)
    (hlines : log'.lines = log.lines) :
  Grows st log [row] log'
  := by
  intro _
  rw [TraceStyle.linesOf, List.filter_cons_of_neg (by simp [hrow]), hlines]
  rfl

theorem Grows.of_shown {row : LogRow} (hrow : st.showsRow row = true)
    (hlines : log'.lines = st.lineOf row :: log.lines) :
  Grows st log [row] log'
  := by
  intro _
  rw [TraceStyle.linesOf, List.filter_cons_of_pos hrow, hlines]
  rfl

/-- A log adds the line of a row behind one level for each call that it shows. -/
theorem Inside.lines_line (h : log.Inside st around) {site : CallSite} {kind : RowKind}
    {body : String} (hbody : LogRow.text st ⟨around, site, kind⟩ = body) :
  (log.line body).lines = st.lineOf ⟨around, site, kind⟩ :: log.lines
  := by
  rw [TraceStyle.lineOf, ← h.depth, hbody]
  rfl

/-- A call that is entered is open, and shown if its rule is. -/
theorem Inside.enter (h : log.Inside st around) (rule : RuleId) (offset : Nat) (tracking : Bool) :
  (log.add st (.enter rule offset tracking)).Inside st (⟨rule, offset⟩ :: around)
    ∧ Grows st log [⟨around, ⟨rule, offset⟩, .opening⟩] (log.add st (.enter rule offset tracking))
  := by
  have hlines := h.lines_line (LogRow.text_opening st around ⟨rule, offset⟩)
  obtain ⟨hdepth, hcalls⟩ := h
  cases hshows : st.shows rule with
  | false =>
      rw [add, if_neg (by simp [hshows])]
      refine ⟨⟨?_, ?_⟩, .of_hidden hshows rfl⟩
      · simp [hdepth, hshows]
      · simp [hcalls, hshows]
  | true =>
      rw [add, if_pos hshows]
      refine ⟨⟨?_, ?_⟩, .of_shown hshows hlines⟩
      · simp [line, hdepth, hshows]
      · simp [line, hcalls, hshows]

/-- The innermost call is left, and shown if its rule is. -/
theorem Inside.leave {rule : RuleId} {offset : Nat} (h : log.Inside st (⟨rule, offset⟩ :: around))
    (stop : Option Nat) :
  (log.add st (.leave rule offset stop)).Inside st around
    ∧ Grows st log [⟨around, ⟨rule, offset⟩, .closing stop⟩] (log.add st (.leave rule offset stop))
  := by
  obtain ⟨hdepth, hcalls⟩ := h
  rw [List.map_cons] at hcalls
  cases hshows : st.shows rule with
  | false =>
      rw [add, if_neg (by simp [hcalls, hshows])]
      refine ⟨⟨?_, ?_⟩, .of_hidden hshows rfl⟩
      · simp [hdepth, hshows]
      · simp [hcalls]
  | true =>
      rw [add, if_pos (by simp [hcalls, hshows])]
      have hleft : Inside st around
          { log with depth := log.depth - 1, openCalls := log.openCalls.tail } := by
        constructor
        · simp [hdepth, hshows]
        · simp [hcalls]
      have hlines := hleft.lines_line (LogRow.text_closing st around ⟨rule, offset⟩ stop)
      exact ⟨⟨hleft.depth, hleft.openCalls⟩, .of_shown hshows hlines⟩

/-- Nothing else that happens opens or closes a call, and only what the memo answers has a row. -/
theorem Inside.aside (h : log.Inside st around) {event : Event}
    (hevent : event.isBoundary = false) :
  (log.add st event).Inside st around
    ∧ Grows st log (rowsInside around [event]) (log.add st event)
  := by
  have hline (body : String) : (log.line body).Inside st around := ⟨h.depth, h.openCalls⟩
  cases event with
  | enter | leave => cases hevent
  | reuse rule offset stop =>
      have hshows : st.showsRow ⟨around, ⟨rule, offset⟩, .memo stop⟩ = (st.verbosity != .normal) :=
        rfl
      rw [add]
      split
      · rename_i hnormal
        exact ⟨h, .of_hidden (hshows.trans (by simp [hnormal])) rfl⟩
      · rename_i hnormal
        have hlines := h.lines_line (LogRow.text_memo st around ⟨rule, offset⟩ stop)
        exact ⟨hline _, .of_shown (hshows.trans (by simp [hnormal])) hlines⟩
  | backtrack offset =>
      rw [add]
      split
      · rename_i hverbose
        exact ⟨hline _, fun hquiet => absurd hverbose hquiet⟩
      · exact ⟨h, fun _ => rfl⟩
  | miss | halt => exact ⟨h, fun _ => rfl⟩

end TraceLog

/-- Well nested events leave a log inside the calls in which they find it, with the lines of their
rows. -/
theorem WellNested.foldl_add (h : WellNested events) (hlog : log.Inside st around) :
  (events.foldl (TraceLog.add st) log).Inside st around
    ∧ log.Grows st (rowsInside around events) (events.foldl (TraceLog.add st) log)
  := by
  induction h generalizing around log with
  | nil => exact ⟨hlog, fun _ => rfl⟩
  | @aside event events hevent _ ih =>
      obtain ⟨hadded, hgrows⟩ := hlog.aside hevent
      obtain ⟨hend, hgrows'⟩ := ih hadded
      have hrows : rowsInside around (event :: events)
          = rowsInside around [event] ++ rowsInside around events :=
        (WellNested.aside hevent .nil).rowsInside_append around events
      rw [hrows]
      exact ⟨hend, hgrows.append hgrows'⟩
  | call rule offset tracking stop hinside _ ihInside ih =>
      obtain ⟨hentered, hgrows⟩ := hlog.enter rule offset tracking
      obtain ⟨hinner, hgrowsInside⟩ := ihInside hentered
      obtain ⟨hleft, hgrowsLeave⟩ := hinner.leave stop
      obtain ⟨hend, hgrows'⟩ := ih hleft
      rw [List.foldl_cons, List.foldl_append, List.foldl_cons, rowsInside,
        hinside.rowsInside_append]
      exact ⟨hend, hgrows.append (hgrowsInside.append (hgrowsLeave.append hgrows'))⟩

/-- A log that shows no more than calls has the lines of the rows. -/
theorem traceLines_eq_linesOf (h : WellNested events) (hquiet : st.verbosity ≠ .veryVerbose) :
  traceLines st events = st.linesOf (logRows events)
  := by
  have hempty : TraceLog.Inside st [] {} := ⟨rfl, rfl⟩
  rw [traceLines, (h.foldl_add hempty).2 hquiet, List.append_nil, List.reverse_reverse]
  rfl

end

/-- What a row says is the same in the two logs that show no text. -/
theorem LogRow.text_normal (g : Grammar) (source : String) (palette : Palette) (row : LogRow) :
  row.text ⟨g, source, .normal, palette⟩ = row.text ⟨g, source, .verbose, palette⟩
  := by
  unfold LogRow.text
  rcases row.kind with _ | (_ | stop) | (_ | stop) <;> rfl

namespace TraceStyle

variable (g : Grammar) (source : String) (palette : Palette) (rows : List LogRow)

theorem linesOf_verbose :
  linesOf ⟨g, source, .verbose, palette⟩ rows
    = rows.map (fun row => indented row.around.length (row.text ⟨g, source, .verbose, palette⟩))
  := by
  have hshows (rule : RuleId) : shows ⟨g, source, .verbose, palette⟩ rule = true := rfl
  have hrows : ∀ row ∈ rows, showsRow ⟨g, source, .verbose, palette⟩ row = true := by
    intro row _
    unfold showsRow
    split
    · rfl
    · apply hshows
  rw [linesOf, List.filter_eq_self.mpr hrows]
  apply List.map_congr_left
  intro row _
  have hcount : row.around.countP (shows ⟨g, source, .verbose, palette⟩ ·.rule)
      = row.around.length := List.countP_eq_length.mpr fun site _ => hshows site.rule
  rw [lineOf, hcount]

theorem linesOf_normal :
  linesOf ⟨g, source, .normal, palette⟩ rows
    = (rows.filter (fun row => !row.isMemo && !g.hides row.site.rule)).map (fun row =>
        indented (row.around.countP (!g.hides ·.rule))
          (row.text ⟨g, source, .verbose, palette⟩))
  := by
  have hshows (rule : RuleId) : shows ⟨g, source, .normal, palette⟩ rule = !g.hides rule := rfl
  have hrows : ∀ row ∈ rows, showsRow ⟨g, source, .normal, palette⟩ row
      = (!row.isMemo && !g.hides row.site.rule) := by
    intro row _
    unfold showsRow
    rw [hshows]
    cases row.isMemo <;> rfl
  rw [linesOf, List.filter_congr hrows]
  apply List.map_congr_left
  intro row _
  rw [← LogRow.text_normal]
  rfl

end TraceStyle

/-! ### Parses -/

/-- The logs of a parse, whether a limit stops it or not. However much a log shows, it ends with no
call open and no indentation. Its rows are bracketed, with one row for each body that the parse
counts as evaluated and each answer of the memo that it counts. The log that shows every call has a
line for each row, behind one level for each open call. The log that shows the rules that make nodes
has the same lines for the rows of those rules that do not come from the memo, behind one level for
each open call of such a rule. -/
theorem traceLines_of_parse? {g : Grammar} {id : RuleId} (hid : id < g.rules.size)
    (limits : Limits) (memoize : Bool) (text : String) (palette : Palette) :
  ∃ outcome events, parse? g ⟨limits, memoize, true⟩ id text = some (outcome, events)
    ∧ (∀ verbosity, (events.foldl (TraceLog.add ⟨g, text, verbosity, palette⟩) {}).depth = 0
      ∧ (events.foldl (TraceLog.add ⟨g, text, verbosity, palette⟩) {}).openCalls = [])
    ∧ Bracketed [] (logRows events)
    ∧ (logRows events).countP LogRow.isOpening = outcome.stats.evaluations
    ∧ (logRows events).countP LogRow.isMemo = outcome.stats.hits
    ∧ traceLines ⟨g, text, .verbose, palette⟩ events
      = (logRows events).map (fun row =>
          indented row.around.length (row.text ⟨g, text, .verbose, palette⟩))
    ∧ traceLines ⟨g, text, .normal, palette⟩ events
      = ((logRows events).filter (fun row => !row.isMemo && !g.hides row.site.rule)).map (fun row =>
          indented (row.around.countP (!g.hides ·.rule)) (row.text ⟨g, text, .verbose, palette⟩))
  := by
  have hparse := parseWithin?_eq (Array.getElem?_eq_getElem hid) ⟨some limits, memoize, true⟩
    (limits.steps + 1) text
  have hlogged := evaluate_logs (show Settings.traced ⟨some limits, memoize, true⟩ = true from rfl)
    g (limits.steps + 1) id text
  generalize evaluate g ⟨some limits, memoize, true⟩ (limits.steps + 1) id text = out
    at hparse hlogged
  obtain ⟨hnested, -, hevaluations, hhits⟩ := hlogged
  refine ⟨_, _, hparse, ?_, hnested.bracketed [], ?_, ?_, ?_, ?_⟩
  · intro verbosity
    have hempty : TraceLog.Inside ⟨g, text, verbosity, palette⟩ [] {} := ⟨rfl, rfl⟩
    obtain ⟨⟨hdepth, hcalls⟩, -⟩ := hnested.foldl_add hempty
    exact ⟨hdepth, hcalls⟩
  · rw [logRows, countP_isOpening_rowsInside, stats_outcomeOf, State.usage, hevaluations]
    exact (Nat.zero_add _).symm
  · rw [logRows, countP_isMemo_rowsInside, stats_outcomeOf, State.usage, hhits]
    exact (Nat.zero_add _).symm
  · rw [traceLines_eq_linesOf hnested (by simp), TraceStyle.linesOf_verbose]
  · rw [traceLines_eq_linesOf hnested (by simp), TraceStyle.linesOf_normal]

/-- Where the second alternative uses what the first remembers, two bodies are evaluated and the
memo answers once, so the log that shows every call has five lines. -/
theorem traceLines_of_parse?_reuse :
  ∃ outcome events,
    parse? (prefixDraft []).buildD ⟨{}, true, true⟩ 0 "ay" = some (outcome, events)
    ∧ Bracketed [] (logRows events)
    ∧ (logRows events).countP LogRow.isOpening = 2
    ∧ (logRows events).countP LogRow.isMemo = 1
    ∧ (traceLines ⟨(prefixDraft []).buildD, "ay", .verbose, .off⟩ events).length = 5
  := by
  obtain ⟨outcome, events, hparse, -, hbracketed, hopening, hmemo, hverbose, -⟩ :=
    traceLines_of_parse? (show 0 < (prefixDraft []).buildD.rules.size by decide) {} true "ay" .off
  have hcounts : (parse? (prefixDraft []).buildD ⟨{}, true, true⟩ 0 "ay").map
      (fun x => (x.1.stats.evaluations, x.1.stats.hits, (logRows x.2).length)) = some (2, 1, 5) :=
    rfl
  rw [hparse, Option.map_some, Option.some.injEq, Prod.mk.injEq, Prod.mk.injEq] at hcounts
  obtain ⟨hevaluations, hhits, hlength⟩ := hcounts
  refine ⟨outcome, events, hparse, hbracketed, hopening.trans hevaluations, hmemo.trans hhits, ?_⟩
  rw [hverbose, List.length_map, hlength]

example :
  (parse? (prefixDraft []).buildD ⟨{}, true, true⟩ 0 "ay").map
      (fun x => traceLines ⟨(prefixDraft []).buildD, "ay", .verbose, .off⟩ x.2)
    = some ["S @0", "  A @0", "  A @0 ✓ 0..1", "  A @0 (memo) ✓ 0..1", "S @0 ✓ 0..2"]
  := rfl

end ClassTranscript.Peg
