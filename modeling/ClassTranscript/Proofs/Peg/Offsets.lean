import ClassTranscript.Diagnostic.Report
import ClassTranscript.Proofs.Peg.Activation
import ClassTranscript.Proofs.Peg.Matching
import ClassTranscript.Proofs.Text.Slice

/-!
# Usable offsets

Wherever an evaluation stands, what is left of the text is the text from the offset on, so the
offset lies between two characters or at an end of the text. `State.OnText` is the invariant:
positions are in the text, those that are remembered and the furthest failure included. A step keeps
it (`eval_onText`), and what an evaluation begins begins with it (`Activation.Reached.onText`). What
a parse returns therefore has offsets that can be used (`parse?_offsets`).
-/

namespace ClassTranscript.Peg

/-! ### The invariant -/

/-- The positions that a state knows lie in the text from `start` on. -/
structure State.OnText (start : Cursor) (s : State) : Prop where
  here : start.Reaches s.here
  furthest : ∃ c, start.Reaches c ∧ c.offset = s.furthest
  memo : ∀ (key : Nat × RuleId) (slot : MemoSlot), s.memo[key]? = some slot → ∀ stop node,
    slot.entry = .matched stop node → start.Reaches stop

/-- A step keeps the positions of a state in the text. -/
def Step.StaysOnText (start : Cursor) (run : Step) : Prop :=
  ∀ s, s.OnText start → (run s).2.OnText start

section

variable {g : Grammar} {cfg : Settings} {start : Cursor} {s : State} {m : Mark}

namespace State.OnText

theorem goto {here : Cursor} (h : s.OnText start) (hhere : start.Reaches here)
    (nodes : List Node) :
  OnText start { s with here := here, nodes := nodes }
  := ⟨hhere, h.furthest, h.memo⟩

/-- Only positions matter. -/
theorem congr {t : State} (h : s.OnText start) (hhere : t.here = s.here)
    (hfurthest : t.furthest = s.furthest) (hmemo : t.memo = s.memo) :
  t.OnText start
  where
  here := hhere ▸ h.here
  furthest := hfurthest ▸ h.furthest
  memo := hmemo ▸ h.memo

theorem record (h : s.OnText start) (event : Event) :
  (s.record cfg event).OnText start
  := by
  rw [State.record_eq]
  exact h.congr rfl rfl rfl

theorem halt (h : s.OnText start) (limit : Limit) :
  (s.halt cfg limit).OnText start
  := by
  unfold State.halt
  split
  · apply record
    exact h.congr rfl rfl rfl
  · apply h

theorem reset (h : s.OnText start) (hm : start.Reaches m.here) :
  (s.reset m).OnText start
  := h.goto hm m.nodes

theorem backtrack (h : s.OnText start) (hm : start.Reaches m.here) :
  (s.backtrack cfg m).OnText start
  := (h.reset hm).record _

theorem countStep (h : s.OnText start) :
  s.countStep.OnText start
  := h.congr rfl rfl rfl

theorem enterPredicate (h : s.OnText start) :
  s.enterPredicate.OnText start
  := h.congr rfl rfl rfl

theorem leavePredicate (h : s.OnText start) (hm : start.Reaches m.here) :
  (s.leavePredicate m).OnText start
  := by
  apply reset _ hm
  exact h.congr rfl rfl rfl

/-- A failure is noted at a position of the text. -/
theorem miss (h : s.OnText start) (expectation : String) :
  (s.miss cfg expectation).OnText start
  := by
  apply record
  unfold State.expect
  split
  · apply h
  · split
    · exact ⟨h.here, ⟨s.here, h.here, rfl⟩, h.memo⟩
    · split
      · apply h
      · exact h.congr rfl rfl rfl

theorem enterRule (h : s.OnText start) (id : RuleId) :
  (s.enterRule cfg id).OnText start
  := by
  rw [State.enterRule_eq]
  exact h.congr rfl rfl rfl

theorem leaveRule (h : s.OnText start) (id : RuleId) (m : Mark) (matched : Bool)
    (node : Option Node) :
  (s.leaveRule cfg id m matched node).OnText start
  := by
  apply record
  exact h.congr rfl rfl rfl

/-- A result is remembered with a position of the text. -/
theorem remember (h : s.OnText start) (id : RuleId) (offset : Nat) {entry : MemoEntry}
    (hentry : ∀ stop node, entry = .matched stop node → start.Reaches stop) :
  (s.remember cfg id offset entry).OnText start
  := by
  unfold State.remember
  split
  · refine ⟨h.here, h.furthest, ?_⟩
    intro key slot hslot
    simp only [Memo.remember, Std.TreeMap.getElem?_insert] at hslot
    split at hslot
    · obtain rfl := Option.some.inj hslot
      apply hentry
    · apply h.memo key slot hslot
  · apply h.halt

/-- A remembered result leads to a position of the text. -/
theorem replay (h : s.OnText start) {policy : MemoPolicy} {id : RuleId} {entry : MemoEntry}
    (hanswer : s.answer? policy id = some entry) :
  (s.replay cfg id entry).2.OnText start
  := by
  have hhit : OnText start { s with stats := { s.stats with hits := s.stats.hits + 1 } } :=
    h.congr rfl rfl rfl
  cases entry with
  | failed => apply hhit.record
  | matched stop node =>
      apply (hhit.record _).goto
      unfold State.answer? at hanswer
      split at hanswer
      · cases hanswer
      · simp only [Memo.answer?, Option.map_eq_some_iff, Option.filter_eq_some_iff] at hanswer
        obtain ⟨slot, ⟨hslot, -⟩, hmatched⟩ := hanswer
        apply h.memo _ slot hslot stop node hmatched

end State.OnText

theorem onText_initial (text : String) :
  (State.initial text).OnText (.atStart text)
  where
  here := .refl _
  furthest := ⟨_, .refl _, rfl⟩
  memo := by simp [State.initial]

/-! ### Operators -/

variable {run : Op → Step}

theorem runSeq_onText (h : ∀ op, (run op).StaysOnText start) (hm : start.Reaches m.here)
    (ops : List Op) :
  Step.StaysOnText start (runSeq run m ops)
  := by
  induction ops with
  | nil => exact fun _ hs => hs
  | cons op ops ih =>
      intro s hs
      have hfirst := h op s hs
      rw [runSeq]
      split
      · rename_i heq
        rw [heq] at hfirst
        apply ih _ hfirst
      · rename_i heq
        rw [heq] at hfirst
        apply hfirst.reset hm

theorem runChoice_onText (h : ∀ op, (run op).StaysOnText start) (hm : start.Reaches m.here)
    (ops : List Op) :
  Step.StaysOnText start (runChoice cfg run m ops)
  := by
  induction ops with
  | nil => exact fun _ hs => hs
  | cons op ops ih =>
      intro s hs
      have hfirst := h op s hs
      rw [runChoice]
      split
      · rename_i heq
        rw [heq] at hfirst
        apply hfirst
      · rename_i heq
        rw [heq] at hfirst
        split
        · apply ih _ (hfirst.backtrack hm)
        · apply hfirst

theorem runRounds_onText {round : Step} (h : round.StaysOnText start) (n : Nat)
    (hs : s.OnText start) :
  (runRounds cfg round n s).OnText start
  := by
  induction n generalizing s with
  | zero => apply hs.halt
  | succ n ih =>
      have hround := h s hs
      rw [runRounds]
      split
      · rename_i heq
        rw [heq] at hround
        apply hround.reset hs.here
      · rename_i heq
        rw [heq] at hround
        split
        · apply hround
        · apply ih hround

theorem runPredicate_onText {body : Step} (h : body.StaysOnText start) :
  Step.StaysOnText start (runPredicate body)
  := by
  intro s hs
  apply (h _ hs.enterPredicate).leavePredicate hs.here

theorem finishCall_onText (id : RuleId) (rule : Rule) (m : Mark) (matched : Bool) :
  Step.StaysOnText start (finishCall cfg id rule m matched)
  := by
  intro s hs
  have hleave : (s.leaveRule cfg id m matched (s.nodeOf id rule m.here.offset)).OnText start :=
    hs.leaveRule id m matched (s.nodeOf id rule m.here.offset)
  cases hhalted : s.halted with
  | some limit =>
      rw [finishCall_of_halted hhalted]
      apply hleave
  | none =>
      rw [finishCall_eq hhalted rfl]
      split
      · apply hleave.remember
        intro stop node heq
        cases matched with
        | false => cases heq
        | true =>
            cases heq
            apply hleave.here
      · apply hleave

theorem runCall_onText (h : ∀ op, (run op).StaysOnText start) (id : RuleId) :
  Step.StaysOnText start (runCall g cfg run id)
  := by
  intro s hs
  unfold runCall
  split
  · apply hs
  · split
    · rename_i hanswer
      apply hs.replay hanswer
    · split
      · apply hs.halt
      · apply finishCall_onText
        apply h _ _ (hs.enterRule id)

/-- Passing a test leads to a position of the text. -/
theorem test_onText (test : Test) (expectation : String) (bound : Nat) :
  Step.StaysOnText start (evalOp g cfg bound (.test test expectation))
  := by
  intro s hs
  simp only [evalOp]
  split
  · rename_i hpass
    apply hs.goto (hs.here.trans (Test.reaches_of_pass? hpass))
  · apply hs.miss

theorem evalOp_onText {bound : Nat} (h : ∀ op, Step.StaysOnText start (eval g cfg bound op))
    (op : Op) :
  Step.StaysOnText start (evalOp g cfg bound op)
  := by
  intro s hs
  cases op with
  | test test x => apply test_onText test x bound s hs
  | seq ops => apply runSeq_onText h hs.here ops s hs
  | choice ops => apply runChoice_onText h hs.here ops s hs
  | star body => apply runRounds_onText (h body) bound hs
  | plus body =>
      have hfirst := h body s hs
      simp only [evalOp]
      split
      · rename_i heq
        rw [heq] at hfirst
        apply hfirst
      · rename_i heq
        rw [heq] at hfirst
        apply runRounds_onText (h body) bound hfirst
  | optional body =>
      have hbody := h body s hs
      simp only [evalOp]
      split
      · rename_i heq
        rw [heq] at hbody
        apply hbody
      · rename_i heq
        rw [heq] at hbody
        apply hbody.reset hs.here
  | ahead body => apply runPredicate_onText (h body) s hs
  | notAhead body => apply runPredicate_onText (h body) s hs
  | call id => apply runCall_onText h id s hs

theorem eval_onText (g : Grammar) (cfg : Settings) (start : Cursor) (bound : Nat) (op : Op) :
  Step.StaysOnText start (eval g cfg bound op)
  := by
  induction bound generalizing op with
  | zero => exact fun s hs => hs.halt _
  | succ bound ih =>
      intro s hs
      rw [eval_succ]
      split
      · apply hs
      · split
        · apply hs.countStep.halt
        · apply evalOp_onText ih op _ hs.countStep

/-! ### Activations -/

/-- The positions that an activation knows when it begins lie in the text. -/
structure Activation.OnText (start : Cursor) (a : Activation) : Prop where
  mark : start.Reaches a.mark.here
  state : a.state.OnText start

/-- An activation ends with its positions in the text. -/
theorem Activation.OnText.ending {a : Activation} (h : a.OnText start) :
  (a.ending g cfg).2.OnText start
  := by
  have heval := eval_onText g cfg start a.bound
  unfold Activation.ending
  cases hjob : a.job with
  | op op => apply heval op _ h.state
  | items ops => apply runSeq_onText heval h.mark ops _ h.state
  | alternatives ops => apply runChoice_onText heval h.mark ops _ h.state
  | rounds body => apply runRounds_onText (heval body) a.rounds h.state
  | call id => apply runCall_onText heval id _ h.state

theorem Activation.onText_ofOp (op : Op) (bound : Nat) (hs : s.OnText start) :
  (Activation.ofOp op bound s).OnText start
  := ⟨hs.here, hs⟩

/-- What begins on the way through an activation begins with its positions in the text. -/
theorem Begins.onText {a b : Activation} (hbegins : Begins g cfg a b) (h : a.OnText start) :
  b.OnText start
  := by
  obtain ⟨hmark, hstate⟩ := h
  have heval {op : Op} {bound : Nat} {s s' : State} {matched : Bool} (hs : s.OnText start)
      (heq : eval g cfg bound op s = (matched, s')) : s'.OnText start := by
    have h := eval_onText g cfg start bound op s hs
    rw [heq] at h
    apply h
  cases hbegins with
  | seq _ => exact ⟨hstate.here, hstate.countStep⟩
  | choice _ => exact ⟨hstate.here, hstate.countStep⟩
  | star _ => exact ⟨hstate.here, hstate.countStep⟩
  | plus _ => exact Activation.onText_ofOp _ _ hstate.countStep
  | plusRounds _ hbody => exact ⟨hstate.here, heval hstate.countStep hbody⟩
  | optional _ => exact Activation.onText_ofOp _ _ hstate.countStep
  | ahead _ => exact Activation.onText_ofOp _ _ hstate.countStep.enterPredicate
  | notAhead _ => exact Activation.onText_ofOp _ _ hstate.countStep.enterPredicate
  | opCall _ => exact ⟨hstate.here, hstate.countStep⟩
  | item => exact Activation.onText_ofOp _ _ hstate
  | items hitem => exact ⟨hmark, heval hstate hitem⟩
  | alternative => exact Activation.onText_ofOp _ _ hstate
  | alternatives hitem _ => exact ⟨hmark, (heval hstate hitem).backtrack hmark⟩
  | round => exact Activation.onText_ofOp _ _ hstate
  | rounds hbody _ => exact ⟨hmark, heval hstate hbody⟩
  | body _ _ _ => exact Activation.onText_ofOp _ _ (hstate.enterRule _)

/-- Whatever an evaluation begins, it begins and ends it with its positions in the text. -/
theorem Activation.Reached.onText {bound : Nat} {id : RuleId} {text : String} {a : Activation}
    (h : Activation.Reached g cfg bound id text a) :
  a.state.OnText (.atStart text) ∧ (a.ending g cfg).2.OnText (.atStart text)
  := by
  have honText : a.OnText (.atStart text) := by
    induction h with
    | refl => exact ⟨.refl _, onText_initial text⟩
    | tail _ hbegins ih => apply hbegins.onText ih
  exact ⟨honText.state, honText.ending⟩

end

/-! ### Trees and reports -/

/-- The span of a node that grows on a text fits the text. -/
theorem Grown.span_fits {d : Draft} {x : Definition} {text : String} {node : Node}
    (h : Grown d (.atStart text) x node) :
  node.span.Fits text
  := by
  cases h with
  | intro _ _ hstart hgrows => exact Cursor.fits_of_reaches hstart hgrows.reaches

/-- The spans of the nodes of a tree fit the text that was parsed. -/
theorem span_fits_of_parse? {d : Draft} {g : Grammar} (hbuild : d.build = .ok g) {o : Options}
    {id : RuleId} {text : String} {tree : Tree} {stats : Stats} {log : List Event}
    (hparse : parse? g o id text = some (.matched tree stats, log)) :
  ∀ node ∈ tree.root.descendants, node.span.Fits text
  := by
  obtain ⟨x, there, nodes, hx, hgrows, hstop, hroot⟩ := exists_grows_of_parse? hbuild hparse
  have hchildren : tree.root.children = [] ∨ tree.root.children = nodes := by
    rw [hroot]
    cases x.hidden <;> cases x.leaf <;> simp
  intro node hmem
  rw [Node.descendants_eq, List.mem_cons] at hmem
  obtain rfl | hmem := hmem
  · rw [hroot, ← hstop]
    apply Cursor.fits_of_reaches (.refl _) hgrows.reaches
  · obtain hnil | heq := hchildren
    · simp [hnil, Node.walk] at hmem
    · rw [heq] at hmem
      obtain ⟨_, hgrown⟩ := hgrows.grown node hmem
      apply hgrown.span_fits

/-- The offset of a report is that of a position of the text. -/
theorem furthest_of_outcomeOf {start : Cursor} {rule : Rule} {id : RuleId} {matched : Bool}
    {s : State} {m : Mismatch} (h : s.OnText start)
    (hm : outcomeOf rule id matched s = .mismatched m) :
  ∃ c, start.Reaches c ∧ c.offset = m.furthest
  := by
  obtain ⟨c, hc, hfurthest⟩ := h.furthest
  unfold outcomeOf at hm
  split at hm
  · cases hm
    rcases Nat.le_total s.furthest s.here.offset with hle | hle
    · exact ⟨s.here, h.here, (Nat.max_eq_right hle).symm⟩
    · exact ⟨c, hc, hfurthest.trans (Nat.max_eq_left hle).symm⟩
  · cases hm
  · cases hm
    exact ⟨c, hc, hfurthest⟩

/-- What is marked in the report on a failure at a usable offset fits the text and begins there. It
is one character, or nothing where the text ends. -/
theorem markedSpan_fits {m : Mismatch} {source : String}
    (hvalid : String.Pos.Raw.IsValid source ⟨m.furthest⟩) :
  (m.markedSpan source).Fits source ∧ (m.markedSpan source).start = m.furthest
    ∧ ((m.markedSpan source).isEmpty = true ↔ m.furthest = source.utf8ByteSize)
    ∧ (m.furthest ≠ source.utf8ByteSize →
      ∃ c, (m.markedSpan source).slice source = String.ofList [c])
  := by
  obtain ⟨before, after, rfl, hoffset⟩ := String.Pos.Raw.isValid_iff_exists_append.mp hvalid
  have hoffset : m.furthest = Text.byteLength before.toList := by
    rw [← Text.utf8ByteSize_eq_byteLength]
    exact congrArg String.Pos.Raw.byteIdx hoffset
  have hsize : (before ++ after).utf8ByteSize
      = Text.byteLength before.toList + Text.byteLength after.toList := by
    rw [Text.utf8ByteSize_eq_byteLength, String.toList_append, Text.byteLength_append]
  have hmin : min m.furthest (before ++ after).utf8ByteSize = m.furthest := by omega
  have hhere : (Cursor.atStart (before ++ after)).Reaches ⟨m.furthest, after.toList⟩ := by
    refine ⟨before.toList, ?_, ?_⟩
    · rw [Cursor.atStart, String.toList_append]
    · rw [hoffset, Cursor.atStart, Nat.zero_add]
  rw [Mismatch.markedSpan, hmin, String.toList_append, hoffset, Text.dropBytes?_byteLength,
    ← hoffset, hsize]
  cases hafter : after.toList with
  | nil =>
      have hend : m.furthest = Text.byteLength before.toList + Text.byteLength [] := hoffset
      refine ⟨Cursor.fits_of_reaches hhere (.refl _), rfl, ?_, fun hne => absurd hend hne⟩
      simp [Span.empty, Span.isEmpty, hoffset]
  | cons c cs =>
      have hpos := c.utf8Size_pos
      have hstep : (⟨m.furthest, after.toList⟩ : Cursor).Reaches ⟨m.furthest + c.utf8Size, cs⟩ :=
        ⟨[c], hafter, rfl⟩
      refine ⟨Cursor.fits_of_reaches hhere hstep, rfl, ?_, fun _ => ⟨c, ?_⟩⟩
      · simp only [Span.isEmpty, beq_iff_eq, Text.byteLength_cons]
        omega
      · apply @Cursor.slice_eq _ ⟨m.furthest, after.toList⟩ ⟨m.furthest + c.utf8Size, cs⟩ [c]
          hhere hafter rfl

/-! ### Parses -/

/-- All offsets of a parse are usable. Wherever its evaluation begins something and wherever it ends
it, the position is between characters, and what is left is the text from there on. The texts of the
nodes of a match are the bytes that their spans cover. A failure, and a limit too, is reported at a
usable offset, and what is marked there is one character, or nothing at the end of the text. -/
theorem parse?_offsets {d : Draft} {g : Grammar} (hbuild : d.build = .ok g) {id : RuleId}
    (hid : id < g.rules.size) (o : Options) (text : String) :
  (∀ cfg bound a, Activation.Reached g cfg bound id text a → ∀ s ∈ [a.state, (a.ending g cfg).2],
    String.Pos.Raw.IsValid text ⟨s.here.offset⟩
      ∧ Text.dropBytes? s.here.offset text.toList = some s.here.rest)
  ∧ ∃ outcome log, parse? g o id text = some (outcome, log)
    ∧ (∀ tree stats, outcome = .matched tree stats →
      tree.root.span = ⟨0, tree.stop⟩ ∧ ∀ node ∈ tree.root.descendants, node.span.Fits text
        ∧ (node.text text).toByteArray
          = text.toByteArray.extract node.span.start node.span.stop)
    ∧ ∀ m, outcome = .mismatched m → String.Pos.Raw.IsValid text ⟨m.furthest⟩
      ∧ (m.markedSpan text).Fits text ∧ (m.markedSpan text).start = m.furthest
      ∧ ((m.markedSpan text).isEmpty = true ↔ m.furthest = text.utf8ByteSize)
      ∧ (m.furthest ≠ text.utf8ByteSize →
        ∃ c, (m.markedSpan text).slice text = String.ofList [c])
  := by
  constructor
  · intro cfg bound a hreached s hmem
    obtain ⟨hbegin, hend⟩ := hreached.onText
    simp only [List.mem_cons, List.not_mem_nil, or_false] at hmem
    obtain rfl | rfl := hmem
    · apply Cursor.isValid_of_reaches hbegin.here
    · apply Cursor.isValid_of_reaches hend.here
  · have hrule := Array.getElem?_eq_getElem hid
    have hparse := parseWithin?_eq hrule o.settings (o.limits.steps + 1) text
    refine ⟨_, _, hparse, ?_, ?_⟩
    · intro tree stats hmatched
      rw [hmatched] at hparse
      constructor
      · obtain ⟨_, _, _, -, -, -, hroot⟩ := exists_grows_of_parse? hbuild hparse
        rw [hroot]
      · intro node hmem
        have hfits := span_fits_of_parse? hbuild hparse node hmem
        exact ⟨hfits, hfits.slice_eq⟩
    · intro m hm
      have hfirst : Activation.Reached g o.settings (o.limits.steps + 1) id text
          (.first id (o.limits.steps + 1) text) := .refl
      have honText := hfirst.onText.2
      rw [Activation.ending_first] at honText
      have hvalid : String.Pos.Raw.IsValid text ⟨m.furthest⟩ := by
        obtain ⟨c, hc, hfurthest⟩ := furthest_of_outcomeOf honText hm
        rw [← hfurthest]
        apply (Cursor.isValid_of_reaches hc).1
      exact ⟨hvalid, markedSpan_fits hvalid⟩

/-- The offset that a failure reports. -/
def Outcome.furthest? : Outcome → Option Nat
  | .matched _ _ => none
  | .mismatched m => some m.furthest

/-- A descriptor that goes on with a character of two bytes fails before it, and the character is
marked. -/
theorem parse?_offsets_of_two_bytes :
  ∃ m log, parse? descriptorDraft.buildD {} 0 "[é" = some (.mismatched m, log)
    ∧ m.furthest = 1 ∧ (m.markedSpan "[é").Fits "[é"
    ∧ ∃ c, (m.markedSpan "[é").slice "[é" = String.ofList [c]
  := by
  obtain ⟨-, outcome, log, hparse, -, hmismatch⟩ := parse?_offsets build_descriptorDraft
    (show 0 < descriptorDraft.buildD.rules.size by decide) {} "[é"
  have hfurthest : (parse? descriptorDraft.buildD {} 0 "[é").bind (·.1.furthest?) = some 1 := rfl
  rw [hparse] at hfurthest
  cases outcome with
  | matched tree stats => cases hfurthest
  | mismatched m =>
      have hone : m.furthest = 1 := Option.some.inj hfurthest
      obtain ⟨-, hfits, -, -, hchar⟩ := hmismatch m rfl
      refine ⟨m, log, hparse, hone, hfits, hchar ?_⟩
      rw [hone]
      decide

end ClassTranscript.Peg
