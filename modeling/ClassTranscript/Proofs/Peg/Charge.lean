import ClassTranscript.Proofs.Peg.Demand

/-!
# Evaluations under limits

An evaluation under limits goes the way of the same evaluation without them for as long as it
demands no more than they allow, and stops at the first demand that is too large (`eval_charges`).
`Keeps` says so of the two ends, and `Charges` of every evaluation that a step makes. The lemmas
here are those of the operators and of calls.
-/

namespace ClassTranscript.Peg

/-- The same settings without limits. -/
def Settings.unlimited (cfg : Settings) : Settings :=
  { cfg with limits := none }

/-- How an evaluation under limits ends that makes the demands `ds` and comes to `free` without
limits: the same way, or at the limit that is crossed first. -/
inductive Keeps (limits : Limits) (ds : List Demand) (free : Bool × State) :
    Bool × State → Prop where
  | within : limits.crossed? ds = none → Keeps limits ds free free
  | halted {limit : Limit} {s : State} : limits.crossed? ds = some limit →
    s.halted = some limit → Keeps limits ds free (false, s)

namespace Keeps

variable {limits : Limits} {ds es : List Demand} {free out : Bool × State}

/-- What follows demands that are met decides. -/
theorem after (h : limits.crossed? ds = none) (hrest : Keeps limits es free out) :
  Keeps limits (ds ++ es) free out
  := by
  cases hrest with
  | within hnone => exact .within (by rw [Limits.crossed?_append, h, hnone]; rfl)
  | halted hsome hhalted =>
      exact .halted (by rw [Limits.crossed?_append, h, hsome]; rfl) hhalted

/-- What follows a demand that is not met does not matter. -/
theorem stop {limit : Limit} {s : State} (h : limits.crossed? ds = some limit)
    (hhalted : s.halted = some limit) (es : List Demand) :
  Keeps limits (ds ++ es) free (false, s)
  := by
  apply Keeps.halted _ hhalted
  rw [Limits.crossed?_append, h, Option.some_or]

/-- The limit that stops an evaluation is the one that is crossed first. -/
theorem crossed?_of_halted {limit : Limit} (h : Keeps limits ds free out)
    (hout : out.2.halted = some limit) (hfree : free.2.halted = none) :
  limits.crossed? ds = some limit
  := by
  cases h with
  | within _ =>
      rw [hfree] at hout
      cases hout
  | halted hsome hhalted => rw [hsome, ← hhalted, hout]

end Keeps

/-- The step `run` is `free` under limits, where `bound` is what is left of the bound on the
nesting: wherever `free` is not stopped its counts are those of its demands, and `run` ends as it
does or at the limit that is crossed first. -/
structure Charges (limits : Limits) (bound : Nat) (asks : State → List Demand) (free run : Step) :
    Prop where
  accounts {s : State} : (free s).2.halted = none → Accounts s (asks s) (free s).2
  keeps {s : State} : (free s).2.halted = none → limits.Cover s.usage →
    limits.steps < bound + s.stats.steps → Keeps limits (asks s) (free s) (run s)

/-- Limits that cover a state and meet the demands made from there cover the state that is come
to. -/
theorem Accounts.cover {limits : Limits} {s s' : State} {ds : List Demand} (h : Accounts s ds s')
    (hcover : limits.Cover s.usage) (hnone : limits.crossed? ds = none) :
  limits.Cover s'.usage
  := (h limits).mpr ⟨hcover, Limits.crossed?_eq_none_iff.mp hnone⟩

/-- The bound on the nesting stays out of reach. -/
theorem Accounts.lt_bound {s s' : State} {ds : List Demand} {n bound : Nat}
    (h : Accounts s ds s') (hbound : n < bound + s.stats.steps) :
  n < bound + s'.stats.steps
  := by
  apply Nat.lt_of_lt_of_le hbound
  apply Nat.add_le_add_left h.steps_le

variable {g : Grammar} {cfg : Settings} {limits : Limits} {bound : Nat}
  {asks : Op → State → List Demand} {free free' run : Op → Step}

/-! ### Operators -/

section

variable (hext : ∀ op, (free op).Extends (free' op))
  (h : ∀ op, Charges limits bound (asks op) (free op) (run op))

include hext h

theorem runSeq_charges (m : Mark) (ops : List Op) :
  Charges limits bound (demandsSeq free asks ops) (runSeq free m ops) (runSeq run m ops)
  := by
  induction ops with
  | nil => exact ⟨fun _ => .nil rfl, fun _ _ _ => .within rfl⟩
  | cons op ops ih =>
      have hrest {s : State} := (runSeq_extends hext m ops).running (s := s)
      constructor
      · intro s hs
        have haccounts := (h op).accounts (s := s)
        simp only [runSeq, demandsSeq] at hs ⊢
        generalize free op s = first at hs haccounts ⊢
        obtain ⟨_ | _, s₁⟩ := first
        · rw [List.append_nil]
          apply (haccounts hs).congr rfl rfl
        · apply (haccounts (hrest hs)).trans (ih.accounts hs)
      · intro s hs hcover hbound
        have haccounts := (h op).accounts (s := s)
        have hkeeps := (h op).keeps (s := s)
        simp only [runSeq, demandsSeq] at hs ⊢
        generalize free op s = first at hs haccounts hkeeps ⊢
        generalize run op s = out at hkeeps ⊢
        obtain ⟨_ | _, s₁⟩ := first
        · cases hkeeps hs hcover hbound with
          | within hnone => exact .after hnone (.within rfl)
          | @halted _ s₂ hsome hhalted => exact .stop (s := s₂.reset m) hsome hhalted []
        · have hs₁ := hrest hs
          cases hkeeps hs₁ hcover hbound with
          | within hnone =>
              apply Keeps.after hnone
              apply ih.keeps hs ((haccounts hs₁).cover hcover hnone)
              apply (haccounts hs₁).lt_bound hbound
          | @halted _ s₂ hsome hhalted => exact .stop (s := s₂.reset m) hsome hhalted _

theorem runChoice_charges (cfg : Settings) (m : Mark) (ops : List Op) :
  Charges limits bound (demandsChoice free asks cfg.unlimited m ops)
    (runChoice cfg.unlimited free m ops) (runChoice cfg run m ops)
  := by
  induction ops with
  | nil => exact ⟨fun _ => .nil rfl, fun _ _ _ => .within rfl⟩
  | cons op ops ih =>
      have hrest {s : State} (hs : (if s.running then runChoice cfg.unlimited free m ops
          (s.backtrack cfg.unlimited m) else (false, s)).2.halted = none) : s.halted = none := by
        split at hs
        · have := (runChoice_extends hext m ops).running hs
          rwa [State.backtrack, State.record_eq] at this
        · apply hs
      have husage (s : State) : (s.backtrack cfg.unlimited m).usage = s.usage := by
        rw [State.backtrack, State.record_eq]
        rfl
      constructor
      · intro s hs
        have haccounts := (h op).accounts (s := s)
        simp only [runChoice, demandsChoice] at hs ⊢
        generalize free op s = first at hs haccounts ⊢
        obtain ⟨_ | _, s₁⟩ := first
        · have hs₁ := hrest hs
          simp only [State.running_of_not_halted hs₁, if_true] at hs ⊢
          apply (haccounts hs₁).trans
          apply (ih.accounts hs).congr (husage s₁).symm rfl
        · rw [List.append_nil]
          apply haccounts hs
      · intro s hs hcover hbound
        have haccounts := (h op).accounts (s := s)
        have hkeeps := (h op).keeps (s := s)
        simp only [runChoice, demandsChoice] at hs ⊢
        generalize free op s = first at hs haccounts hkeeps ⊢
        generalize run op s = out at hkeeps ⊢
        obtain ⟨_ | _, s₁⟩ := first
        · have hs₁ := hrest hs
          simp only [State.running_of_not_halted hs₁, if_true] at hs ⊢
          cases hkeeps hs₁ hcover hbound with
          | within hnone =>
              simp only [State.running_of_not_halted hs₁, if_true]
              apply Keeps.after hnone
              apply ih.keeps hs
              · rw [husage]
                apply (haccounts hs₁).cover hcover hnone
              · apply ((haccounts hs₁).trans (.nil (husage s₁))).lt_bound hbound
          | halted hsome hhalted =>
              simp only [State.running_of_halted hhalted]
              exact .stop hsome hhalted _
        · cases hkeeps hs hcover hbound with
          | within hnone => exact .after hnone (.within rfl)
          | halted hsome hhalted =>
              simp only [State.running_of_halted hhalted]
              exact .stop hsome hhalted []

end

section

variable {asks : State → List Demand} {free free' run : Step} {s : State}

/-- The counts after a repetition are those of the demands of its rounds. -/
theorem runRounds_accounts (hext : free.Extends free') (h : Charges limits bound asks free run)
    (cfg : Settings) (rounds : Nat)
    (hs : (runRounds cfg.unlimited free rounds s).halted = none) :
  Accounts s (demandsRounds free asks rounds s) (runRounds cfg.unlimited free rounds s)
  := by
  induction rounds generalizing s with
  | zero => exact absurd hs (State.halted_halt_ne_none _ s)
  | succ rounds ih =>
      have haccounts := h.accounts (s := s)
      simp only [runRounds, demandsRounds] at hs ⊢
      generalize free s = first at hs haccounts ⊢
      obtain ⟨_ | _, s₁⟩ := first
      · rw [List.append_nil]
        apply (haccounts hs).congr rfl rfl
      · by_cases hidle : s₁.here.offset = s.mark.here.offset
        · simp only [if_pos hidle] at hs ⊢
          rw [List.append_nil]
          apply haccounts hs
        · simp only [if_neg hidle] at hs ⊢
          apply (haccounts (runRounds_extends hext rounds hs).1).trans (ih hs)

/-- A repetition keeps to the limits as its body does. Each round takes a step, so the bound on the
rounds stays out of reach. -/
theorem runRounds_keeps (hext : free.Extends free') (h : Charges limits bound asks free run)
    (hadvance : ∀ s, (free s).2.halted = none → s.stats.steps < (free s).2.stats.steps)
    (cfg : Settings) {rounds n : Nat}
    (hs : (runRounds cfg.unlimited free rounds s).halted = none) (hcover : limits.Cover s.usage)
    (hbound : limits.steps < bound + s.stats.steps) (hrounds : limits.steps < n + s.stats.steps) :
  Keeps limits (demandsRounds free asks rounds s) (true, runRounds cfg.unlimited free rounds s)
    ((runRounds cfg run n s).running, runRounds cfg run n s)
  := by
  induction rounds generalizing s n with
  | zero => exact absurd hs (State.halted_halt_ne_none _ s)
  | succ rounds ih =>
      cases n with
      | zero =>
          have hsteps : s.stats.steps ≤ limits.steps := hcover.1
          omega
      | succ n =>
          have haccounts := h.accounts (s := s)
          have hkeeps := h.keeps (s := s)
          have hstep := hadvance s
          simp only [runRounds, demandsRounds] at hs ⊢
          generalize free s = first at hs haccounts hkeeps hstep ⊢
          generalize run s = out at hkeeps ⊢
          obtain ⟨_ | _, s₁⟩ := first
          · cases hkeeps hs hcover hbound with
            | within hnone =>
                have hs₁ : (s₁.reset s.mark).halted = none := hs
                simp only [State.running_of_not_halted hs₁]
                exact .after hnone (.within rfl)
            | @halted _ s₂ hsome hhalted =>
                have hs₂ : (s₂.reset s.mark).halted = some _ := hhalted
                simp only [State.running_of_halted hs₂]
                exact .stop hsome hs₂ []
          · by_cases hidle : s₁.here.offset = s.mark.here.offset
            · simp only [if_pos hidle] at hs ⊢
              cases hkeeps hs hcover hbound with
              | within hnone =>
                  simp only [if_pos hidle, State.running_of_not_halted hs]
                  exact .after hnone (.within rfl)
              | @halted _ s₂ hsome hhalted =>
                  have hs₂ : (s₂.reset s.mark).halted = some _ := hhalted
                  simp only [State.running_of_halted hs₂]
                  exact .stop hsome hs₂ []
            · simp only [if_neg hidle] at hs ⊢
              have hs₁ := (runRounds_extends hext rounds hs).1
              cases hkeeps hs₁ hcover hbound with
              | within hnone =>
                  simp only [if_neg hidle]
                  apply Keeps.after hnone
                  apply ih hs
                  · apply (haccounts hs₁).cover hcover hnone
                  · apply (haccounts hs₁).lt_bound hbound
                  · have : s.stats.steps < s₁.stats.steps := hstep hs₁
                    omega
              | @halted _ s₂ hsome hhalted =>
                  have hs₂ : (s₂.reset s.mark).halted = some _ := hhalted
                  simp only [State.running_of_halted hs₂]
                  exact .stop hsome hs₂ _

end

/-- A predicate keeps to the limits as its body does. -/
theorem runPredicate_charges {asks : State → List Demand} {free run : Step}
    (h : Charges limits bound asks free run) :
  Charges limits bound (fun s => asks s.enterPredicate) (runPredicate free) (runPredicate run)
  := by
  constructor
  · intro s hs
    apply (h.accounts (s := s.enterPredicate) hs).congr rfl rfl
  · intro s hs hcover hbound
    have hkeeps := h.keeps (s := s.enterPredicate) hs hcover hbound
    simp only [runPredicate]
    generalize run s.enterPredicate = out at hkeeps
    cases hkeeps with
    | within hnone => exact .within hnone
    | halted hsome hhalted => exact .halted hsome hhalted

/-! ### Calls -/

/-- What a call that is not stopped leaves once its body is evaluated. -/
theorem finishCall_eq {cfg : Settings} {id : RuleId} {rule : Rule} {m : Mark} {matched : Bool}
    {s s' : State} (hs : s.halted = none)
    (hleave : s.leaveRule cfg id m matched (s.nodeOf id rule m.here.offset) = s') :
  finishCall cfg id rule m matched s
    = if (cfg.policyOf rule).keeps matched && !s.memo.knows id m.here.offset then
        let entry := if matched then .matched s'.here (s.nodeOf id rule m.here.offset) else .failed
        let s'' := s'.remember cfg id m.here.offset entry
        (matched && s''.running, s'')
      else (matched, s')
  := by
  have hrunning : s'.running = true := by
    rw [← hleave, State.running, State.halted_leaveRule, hs, Option.isNone_none]
  have hmemo : s'.memo = s.memo := by
    rw [← hleave, State.leaveRule, State.record_eq]
  unfold finishCall
  simp only [hleave, hrunning, hmemo]
  cases cfg.policyOf rule <;> cases matched <;> cases s.memo.knows id m.here.offset <;>
    simp [MemoPolicy.keeps, hrunning]

section

variable {id : RuleId} {rule : Rule} {m : Mark} {matched : Bool} {s : State}

/-- A call that is stopped fails. -/
theorem finishCall_of_halted {limit : Limit} (h : s.halted = some limit) :
  finishCall cfg id rule m matched s
    = (false, s.leaveRule cfg id m matched (s.nodeOf id rule m.here.offset))
  := by
  have hstopped : (s.leaveRule cfg id m matched (s.nodeOf id rule m.here.offset)).running
      = false := by
    have hhalted : (s.leaveRule cfg id m matched (s.nodeOf id rule m.here.offset)).halted
        = some limit := by
      rw [State.halted_leaveRule, h]
    apply State.running_of_halted hhalted
  simp only [finishCall, hstopped, Bool.not_false, if_true]

/-- Without limits there is room for every result. -/
theorem State.remember_unlimited (cfg : Settings) (id : RuleId) (offset : Nat) (entry : MemoEntry)
    (s : State) :
  s.remember cfg.unlimited id offset entry
    = { s with memo := s.memo.remember id offset ⟨entry, !s.tracking⟩ }
  := rfl

/-- Remembering a new result demands room for it. -/
theorem State.accounts_remember (cfg : Settings) {offset : Nat}
    (h : s.memo.knows id offset = false) (entry : MemoEntry) :
  Accounts s [⟨.entries, s.memo.size + 1⟩] (s.remember cfg.unlimited id offset entry)
  := by
  intro limits
  simp only [Limits.Cover, Limits.meets_iff, List.mem_singleton, forall_eq, Limits.bound, usage,
    remember_unlimited, Memo.size_remember h]
  omega

/-- The counts after a call are those after its body and the entry that is made for it. -/
theorem finishCall_accounts (cfg : Settings) (hs : s.halted = none) :
  Accounts s (demandsEntry (cfg.policyOf rule) id m.here.offset matched s)
    (finishCall cfg.unlimited id rule m matched s).2
  := by
  have husage := State.usage_leaveRule cfg.unlimited id m matched
    (s.nodeOf id rule m.here.offset) s
  have hmemo := State.memo_leaveRule cfg.unlimited id m matched
    (s.nodeOf id rule m.here.offset) s
  generalize hleave : s.leaveRule cfg.unlimited id m matched
    (s.nodeOf id rule m.here.offset) = s' at husage hmemo
  rw [finishCall_eq hs hleave, demandsEntry, ← hmemo]
  simp only [show cfg.unlimited.policyOf rule = cfg.policyOf rule from rfl]
  split
  · rename_i hkeeps
    obtain ⟨-, hnew⟩ := Bool.and_eq_true_iff.mp hkeeps
    rw [Bool.not_eq_true'] at hnew
    apply (State.accounts_remember cfg hnew _).congr husage.symm rfl
  · exact .nil husage

/-- The end of a call keeps to the limit on remembered results. -/
theorem finishCall_keeps (hlimits : cfg.limits = some limits) (hs : s.halted = none) :
  Keeps limits (demandsEntry (cfg.policyOf rule) id m.here.offset matched s)
    (finishCall cfg.unlimited id rule m matched s) (finishCall cfg id rule m matched s)
  := by
  have hmemo := State.memo_leaveRule cfg id m matched (s.nodeOf id rule m.here.offset) s
  have hhalted := State.halted_leaveRule cfg id m matched (s.nodeOf id rule m.here.offset) s
  generalize hleave : s.leaveRule cfg id m matched (s.nodeOf id rule m.here.offset) = s'
    at hmemo hhalted
  rw [hs] at hhalted
  have hleave' : s.leaveRule cfg.unlimited id m matched (s.nodeOf id rule m.here.offset) = s' :=
    hleave
  rw [finishCall_eq hs hleave, finishCall_eq hs hleave', demandsEntry, ← hmemo]
  simp only [show cfg.unlimited.policyOf rule = cfg.policyOf rule from rfl]
  split
  · cases hmeets : limits.meets ⟨.entries, s'.memo.size + 1⟩ with
    | true =>
        have hallows : cfg.allowsEntries (s'.memo.size + 1) = true := by
          rw [Settings.allowsEntries, hlimits]
          apply hmeets
        simp only [State.remember, hallows, if_true]
        exact .within (Limits.crossed?_cons_of_meets hmeets [])
    | false =>
        have hdenies : cfg.allowsEntries (s'.memo.size + 1) = false := by
          rw [Settings.allowsEntries, hlimits]
          apply hmeets
        have hstop : (s'.halt cfg .entries).halted = some .entries := State.halted_halt hhalted
        simp only [State.remember, hdenies, Bool.false_eq_true, if_false,
          State.running_of_halted hstop, Bool.and_false]
        exact .halted (Limits.crossed?_cons_of_not_meets hmeets []) hstop
  · exact .within rfl

end

section

variable (hlimits : cfg.limits = some limits) (hext : ∀ op, (free op).Extends (free' op))
  (h : ∀ op, Charges limits bound (asks op) (free op) (run op))

include hlimits hext h

/-- A call keeps to the limits as the bodies of rules do. -/
theorem runCall_charges (g : Grammar) (id : RuleId) :
  Charges limits bound (demandsCall free asks g cfg.unlimited id)
    (runCall g cfg.unlimited free id) (runCall g cfg run id)
  := by
  constructor
  · intro s hs
    simp only [runCall, demandsCall] at hs ⊢
    cases hrule : g.rule? id with
    | none => exact .nil rfl
    | some rule =>
        simp only [hrule] at hs ⊢
        cases hanswer : s.answer? (cfg.unlimited.policyOf rule) id with
        | some entry => apply State.accounts_replay
        | none =>
            simp only [hanswer] at hs ⊢
            have hbody := halted_of_finishCall hs
            apply (State.accounts_enterRule cfg.unlimited id s).trans
            apply ((h rule.op).accounts hbody).trans
            apply finishCall_accounts cfg hbody
  · intro s hs hcover hbound
    simp only [runCall, demandsCall] at hs ⊢
    cases hrule : g.rule? id with
    | none => exact .within rfl
    | some rule =>
        simp only [hrule] at hs ⊢
        cases hanswer : s.answer? (cfg.unlimited.policyOf rule) id with
        | some entry =>
            have hanswer' : s.answer? (cfg.policyOf rule) id = some entry := hanswer
            simp only [hanswer']
            exact .within rfl
        | none =>
            have hanswer' : s.answer? (cfg.policyOf rule) id = none := hanswer
            simp only [hanswer, hanswer'] at hs ⊢
            have hbody := halted_of_finishCall hs
            have henter := State.accounts_enterRule cfg.unlimited id s
            cases hmeets : limits.meets ⟨.depth, s.depth + 1⟩ with
            | false =>
                have hdenies : cfg.allowsDepth (s.depth + 1) = false := by
                  rw [Settings.allowsDepth, hlimits]
                  apply hmeets
                have hrunning := (hext rule.op).running hbody
                rw [State.enterRule_eq] at hrunning
                simp only [hdenies, Bool.not_false, if_true]
                exact .halted (Limits.crossed?_cons_of_not_meets hmeets _)
                  (State.halted_halt hrunning)
            | true =>
                have hallows : cfg.allowsDepth (s.depth + 1) = true := by
                  rw [Settings.allowsDepth, hlimits]
                  apply hmeets
                have hnone := Limits.crossed?_cons_of_meets hmeets []
                have hfree : cfg.unlimited.allowsDepth (s.depth + 1) = true := rfl
                simp only [hallows, hfree, Bool.not_true, Bool.false_eq_true, if_false]
                apply Keeps.after hnone
                have hkeeps := (h rule.op).keeps hbody (henter.cover hcover hnone)
                  (henter.lt_bound hbound)
                rw [show s.enterRule cfg.unlimited id = s.enterRule cfg id from rfl] at hkeeps hbody
                generalize run rule.op (s.enterRule cfg id) = out at hkeeps
                cases hkeeps with
                | within hnone => exact .after hnone (finishCall_keeps (m := s.mark) hlimits hbody)
                | @halted _ s₂ hsome hhalted =>
                    rw [finishCall_of_halted hhalted]
                    apply Keeps.stop hsome
                    rw [State.halted_leaveRule, hhalted]

end

/-! ### Evaluations -/

/-- Without limits and the nesting out of reach an expression takes a step. -/
theorem steps_lt_eval {free : Nat} {op : Op} {s : State}
    (hs : (eval g cfg.unlimited free op s).2.halted = none)
    (h : Accounts s (demands g cfg.unlimited free op s) (eval g cfg.unlimited free op s).2) :
  s.stats.steps < (eval g cfg.unlimited free op s).2.stats.steps
  := by
  cases free with
  | zero => exact absurd hs (State.halted_halt_ne_none _ s)
  | succ free =>
      generalize (eval g cfg.unlimited (free + 1) op s).2 = s' at h
      have hmeets := ((h ⟨s'.stats.maxDepth, s'.stats.steps, s'.memo.size⟩).mp
        ⟨Nat.le_refl _, Nat.le_refl _, Nat.le_refl _⟩).2 _ (List.mem_cons_self ..)
      rw [Limits.meets_iff] at hmeets
      apply hmeets

section

variable {bound unbound : Nat} (hlimits : cfg.limits = some limits)
  (h : ∀ op, Charges limits bound (demands g cfg.unlimited unbound op)
    (eval g cfg.unlimited unbound op) (eval g cfg bound op))

include h

theorem star_charges (body : Op) :
  Charges limits bound
    (demandsRounds (eval g cfg.unlimited unbound body) (demands g cfg.unlimited unbound body)
      unbound)
    (evalOp g cfg.unlimited unbound (.star body)) (evalOp g cfg bound (.star body))
  := by
  have hext := eval_extends g cfg.unlimited unbound body
  constructor
  · intro s hs
    apply runRounds_accounts hext (h body) cfg unbound hs
  · intro s hs hcover hbound
    have hadvance := fun s hs => steps_lt_eval (s := s) hs ((h body).accounts hs)
    have hkeeps := runRounds_keeps hext (h body) hadvance cfg hs hcover hbound hbound
    simp only [evalOp] at hs ⊢
    rw [State.running_of_not_halted hs]
    apply hkeeps

theorem plus_charges (body : Op) :
  Charges limits bound
    (demandsOp (eval g cfg.unlimited unbound) (demands g cfg.unlimited unbound) g cfg.unlimited
      unbound (.plus body))
    (evalOp g cfg.unlimited unbound (.plus body)) (evalOp g cfg bound (.plus body))
  := by
  have hstar := star_charges h body
  have hrest {s : State}
      (hs : (runRounds cfg.unlimited (eval g cfg.unlimited unbound body) unbound s).halted = none) :
      s.halted = none :=
    (runRounds_extends (eval_extends g cfg.unlimited unbound body) unbound hs).1
  constructor
  · intro s hs
    have haccounts := (h body).accounts (s := s)
    simp only [evalOp, demandsOp] at hs ⊢
    generalize eval g cfg.unlimited unbound body s = first at hs haccounts ⊢
    obtain ⟨_ | _, s₁⟩ := first
    · rw [List.append_nil]
      apply haccounts hs
    · apply (haccounts (hrest hs)).trans (hstar.accounts hs)
  · intro s hs hcover hbound
    have haccounts := (h body).accounts (s := s)
    have hkeeps := (h body).keeps (s := s)
    simp only [evalOp, demandsOp] at hs ⊢
    generalize eval g cfg.unlimited unbound body s = first at hs haccounts hkeeps ⊢
    generalize eval g cfg bound body s = out at hkeeps ⊢
    obtain ⟨_ | _, s₁⟩ := first
    · cases hkeeps hs hcover hbound with
      | within hnone => exact .after hnone (.within rfl)
      | halted hsome hhalted => exact .stop hsome hhalted []
    · have hs₁ := hrest hs
      cases hkeeps hs₁ hcover hbound with
      | within hnone =>
          apply Keeps.after hnone
          apply hstar.keeps hs ((haccounts hs₁).cover hcover hnone)
          apply (haccounts hs₁).lt_bound hbound
      | halted hsome hhalted => exact .stop hsome hhalted _

theorem optional_charges (body : Op) :
  Charges limits bound (demands g cfg.unlimited unbound body)
    (evalOp g cfg.unlimited unbound (.optional body)) (evalOp g cfg bound (.optional body))
  := by
  constructor
  · intro s hs
    have haccounts := (h body).accounts (s := s)
    simp only [evalOp] at hs ⊢
    generalize eval g cfg.unlimited unbound body s = first at hs haccounts ⊢
    obtain ⟨_ | _, s₁⟩ := first
    · apply (haccounts hs).congr rfl rfl
    · apply haccounts hs
  · intro s hs hcover hbound
    have hkeeps := (h body).keeps (s := s)
    simp only [evalOp] at hs ⊢
    generalize eval g cfg.unlimited unbound body s = first at hs hkeeps ⊢
    generalize eval g cfg bound body s = out at hkeeps ⊢
    obtain ⟨_ | _, s₁⟩ := first
    · cases hkeeps hs hcover hbound with
      | within hnone => exact .within hnone
      | @halted _ s₂ hsome hhalted =>
          simp only [State.running_of_halted hhalted]
          exact .halted hsome hhalted
    · cases hkeeps hs hcover hbound with
      | within hnone => exact .within hnone
      | @halted _ s₂ hsome hhalted =>
          simp only [State.running_of_halted hhalted]
          exact .halted hsome hhalted

theorem predicate_charges (body : Op) (result : Bool → Bool) :
  Charges limits bound (fun s => demands g cfg.unlimited unbound body s.enterPredicate)
    (fun s =>
      let (matched, s) := runPredicate (eval g cfg.unlimited unbound body) s
      (result matched && s.running, s))
    (fun s =>
      let (matched, s) := runPredicate (eval g cfg bound body) s
      (result matched && s.running, s))
  := by
  have hpredicate := runPredicate_charges (h body)
  constructor
  · intro s hs
    apply hpredicate.accounts hs
  · intro s hs hcover hbound
    have hkeeps := hpredicate.keeps hs hcover hbound
    generalize runPredicate (eval g cfg bound body) s = out at hkeeps ⊢
    cases hkeeps with
    | within hnone => exact .within hnone
    | halted hsome hhalted =>
        simp only [State.running_of_halted hhalted, Bool.and_false]
        exact .halted hsome hhalted

include hlimits

/-- An expression keeps to the limits once its step is counted. -/
theorem evalOp_charges (op : Op) :
  Charges limits bound
    (demandsOp (eval g cfg.unlimited unbound) (demands g cfg.unlimited unbound) g cfg.unlimited
      unbound op)
    (evalOp g cfg.unlimited unbound op) (evalOp g cfg bound op)
  := by
  have hext := eval_extends g cfg.unlimited unbound
  cases op with
  | test test x =>
      refine ⟨fun _ => .nil ?_, fun _ _ _ => .within rfl⟩
      simp only [evalOp]
      split
      · rfl
      · rw [State.miss, State.record_eq, State.expect_eq]
        rfl
  | seq ops => exact ⟨(runSeq_charges hext h _ ops).accounts, (runSeq_charges hext h _ ops).keeps⟩
  | choice ops =>
      exact ⟨(runChoice_charges hext h cfg _ ops).accounts,
        (runChoice_charges hext h cfg _ ops).keeps⟩
  | star body => apply star_charges h
  | plus body => apply plus_charges h
  | optional body => apply optional_charges h
  | ahead body => apply predicate_charges h body id
  | notAhead body => apply predicate_charges h body not
  | call id => apply runCall_charges hlimits hext h

end

/-- An evaluation under limits is the same as without them, up to the first demand that they do not
meet. The bound on the nesting is out of reach where it is above the steps that are left. -/
theorem eval_charges (g : Grammar) (hlimits : cfg.limits = some limits) (unbound bound : Nat)
    (op : Op) :
  Charges limits bound (demands g cfg.unlimited unbound op) (eval g cfg.unlimited unbound op)
    (eval g cfg bound op)
  := by
  induction unbound generalizing bound op with
  | zero => exact ⟨fun hs => absurd hs (State.halted_halt_ne_none _ _),
      fun hs => absurd hs (State.halted_halt_ne_none _ _)⟩
  | succ unbound ih =>
      have hfree {s : State} (hs : (eval g cfg.unlimited (unbound + 1) op s).2.halted = none) :
          s.halted = none ∧ eval g cfg.unlimited (unbound + 1) op s
            = evalOp g cfg.unlimited unbound op s.countStep := by
        have hrunning := (eval_extends g cfg.unlimited (unbound + 1) op).running hs
        refine ⟨hrunning, ?_⟩
        rw [eval_succ, State.running_of_not_halted hrunning]
        rfl
      constructor
      · intro s hs
        obtain ⟨-, heq⟩ := hfree hs
        rw [heq] at hs ⊢
        have hop := evalOp_charges hlimits (fun op => ih bound op) op
        apply (State.accounts_countStep s).trans (hop.accounts hs)
      · intro s hs hcover hbound
        obtain ⟨hrunning, heq⟩ := hfree hs
        rw [heq] at hs ⊢
        cases bound with
        | zero =>
            have hsteps : s.stats.steps ≤ limits.steps := hcover.1
            omega
        | succ bound =>
            have hop := evalOp_charges hlimits (fun op => ih bound op) op
            rw [eval_succ, State.running_of_not_halted hrunning]
            cases hmeets : limits.meets ⟨.steps, s.stats.steps + 1⟩ with
            | false =>
                have hdenies : cfg.allowsSteps s.countStep.stats.steps = false := by
                  rw [Settings.allowsSteps, hlimits]
                  apply hmeets
                simp only [hdenies, Bool.not_true, Bool.false_eq_true, if_false, Bool.not_false,
                  if_true]
                exact .halted (Limits.crossed?_cons_of_not_meets hmeets _)
                  (State.halted_halt (s := s.countStep) hrunning)
            | true =>
                have hallows : cfg.allowsSteps s.countStep.stats.steps = true := by
                  rw [Settings.allowsSteps, hlimits]
                  apply hmeets
                have hnone := Limits.crossed?_cons_of_meets hmeets []
                simp only [hallows, Bool.not_true, Bool.false_eq_true, if_false]
                apply Keeps.after hnone
                apply hop.keeps hs ((State.accounts_countStep s).cover hcover hnone)
                simp only [State.countStep]
                omega

end ClassTranscript.Peg
