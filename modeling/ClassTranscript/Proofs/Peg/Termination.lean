import ClassTranscript.Proofs.Peg.Certificate

/-!
# Every call has a run

In a grammar with a certificate every call has a run from every position (`Certificate.settles`).
The proof is by what is left of the input, and for one position by the rank of the rule: a call made
before input is consumed is of a rule of lower rank, and any other call has less input left. Along
the way calls nest at most as deep as there are rules for each byte that is left, and once more as
deep for the end of the input.
-/

namespace ClassTranscript.Peg

/-- A job has a run from a position, and calls nest at most `depth` deep in it. -/
def Settles (g : Grammar) (job : Job) (here : Cursor) (depth : Nat) : Prop :=
  ∃ r e, Runs g job here r e ∧ e.depth ≤ depth

/-- The calls of the rules in `leading` have runs from a position, and from positions further on all
calls have, with calls nesting at most `depth` deep. -/
structure CallsSettle (g : Grammar) (depth : Nat) (leading : List RuleId) (here : Cursor) :
    Prop where
  leading : ∀ id ∈ leading, Settles g (.call id) here depth
  later : ∀ there, here.Reaches there → there.offset ≠ here.offset →
    ∀ id, Settles g (.call id) there depth

variable {g : Grammar} {depth : Nat} {here : Cursor}

theorem Settles.mono {job : Job} {depth' : Nat} (h : Settles g job here depth)
    (hle : depth ≤ depth') :
  Settles g job here depth'
  := by
  obtain ⟨r, e, hrun, hdepth⟩ := h
  exact ⟨r, e, hrun, Nat.le_trans hdepth hle⟩

/-- A call of a rule that the grammar does not have has a run. -/
theorem Settles.unknown {id : RuleId} (h : g.rule? id = none) (here : Cursor) (depth : Nat) :
  Settles g (.call id) here depth
  := ⟨none, {}, .unknown h, Nat.zero_le _⟩

namespace CallsSettle

variable {leading leading' : List RuleId}

theorem mono (h : CallsSettle g depth leading here) (hsub : leading' ⊆ leading) :
  CallsSettle g depth leading' here
  := ⟨fun id hid => h.leading id (hsub hid), h.later⟩

/-- From a position further on every call has a run. -/
theorem further {there : Cursor} (h : CallsSettle g depth leading here)
    (hreaches : here.Reaches there) (hoffset : there.offset ≠ here.offset)
    (leading' : List RuleId) :
  CallsSettle g depth leading' there
  where
  leading id _ := h.later there hreaches hoffset id
  later beyond hbeyond _ := by
    apply h.later beyond (hreaches.trans hbeyond)
    have := hreaches.offset_le
    have := hbeyond.offset_le
    omega

/-- After a match the calls settle that may lead what follows: either the match advanced, or it was
of a nullable expression and these calls lead the whole. -/
theorem next {c : Certificate g} {op : Op} {m : Match} {e : Effect}
    (h : CallsSettle g depth
      (op.leadingCalls c.nullable ++ if op.nullable c.nullable then leading' else []) here)
    (hrun : Runs g (.op op) here (some m) e) :
  CallsSettle g depth leading' m.stop
  := by
  have hreaches := hrun.reaches rfl
  by_cases hidle : m.stop.offset = here.offset
  · have hnullable : op.nullable c.nullable = true := hrun.nullable c rfl hidle
    rw [hreaches.eq_of_offset_eq hidle]
    apply h.mono
    rw [if_pos hnullable]
    apply List.subset_append_right
  · apply h.further hreaches hidle leading'

end CallsSettle

/-! ### Expressions -/

/-- A repetition has a run wherever its body has one, since its rounds advance. -/
theorem settles_rounds (c : Certificate g) {body : Op}
    (hrepeats : (Job.rounds body).repeatsNullable c.nullable = false)
    (hbody : ∀ here, CallsSettle g depth (body.leadingCalls c.nullable) here →
      Settles g (.op body) here depth) (here : Cursor)
    (hcalls : CallsSettle g depth (body.leadingCalls c.nullable) here) :
  Settles g (.rounds body) here depth
  := by
  induction hn : Text.byteLength here.rest using Nat.strongRecOn generalizing here with
  | ind n ih =>
      obtain ⟨r, e, hrun, hdepth⟩ := hbody here hcalls
      cases r with
      | none => exact ⟨_, _, .roundsNone hrun, hdepth⟩
      | some m =>
          have hadvances := hrun.advances c hrepeats
          have hreaches := hrun.reaches rfl
          have hless := hreaches.byteLength_lt hadvances
          rw [hn] at hless
          obtain ⟨r', f, hrest, hdepth'⟩ :=
            ih _ hless m.stop (hcalls.further hreaches hadvances _) rfl
          exact ⟨_, _, .roundsSome hrun hadvances hrest, Nat.max_le.mpr ⟨hdepth, hdepth'⟩⟩

mutual

/-- An expression has a run where the calls that it makes have. -/
theorem settles_op (c : Certificate g) (op : Op) (here : Cursor)
    (hrepeats : op.repeatsNullable c.nullable = false)
    (hcalls : CallsSettle g depth (op.leadingCalls c.nullable) here) :
  Settles g (.op op) here depth
  := by
  match op with
  | .test test x =>
      cases htest : test.pass? here with
      | none => exact ⟨_, _, .miss htest, Nat.zero_le _⟩
      | some next => exact ⟨_, _, .pass htest, Nat.zero_le _⟩
  | .seq ops =>
      obtain ⟨r, e, hrun, hdepth⟩ := settles_items c ops here hrepeats hcalls
      exact ⟨_, _, .seq hrun, Nat.max_le.mpr ⟨Nat.zero_le _, hdepth⟩⟩
  | .choice ops =>
      obtain ⟨r, e, hrun, hdepth⟩ := settles_alternatives c ops here hrepeats hcalls
      exact ⟨_, _, .choice hrun, Nat.max_le.mpr ⟨Nat.zero_le _, hdepth⟩⟩
  | .star body =>
      obtain ⟨-, hbody⟩ := Bool.or_eq_false_iff.mp hrepeats
      obtain ⟨r, e, hrun, hdepth⟩ :=
        settles_rounds c hrepeats (fun there => settles_op c body there hbody) here hcalls
      exact ⟨_, _, .star hrun, Nat.max_le.mpr ⟨Nat.zero_le _, hdepth⟩⟩
  | .plus body =>
      obtain ⟨-, hbody⟩ := Bool.or_eq_false_iff.mp hrepeats
      obtain ⟨r, e, hrun, hdepth⟩ := settles_op c body here hbody hcalls
      cases r with
      | none => exact ⟨_, _, .plusNone hrun, Nat.max_le.mpr ⟨Nat.zero_le _, hdepth⟩⟩
      | some m =>
          have hadvances := hrun.advances c hrepeats
          obtain ⟨r', f, hrest, hdepth'⟩ :=
            settles_rounds c hrepeats (fun there => settles_op c body there hbody) m.stop
              (hcalls.further (hrun.reaches rfl) hadvances _)
          refine ⟨_, _, .plusSome hrun hrest, Nat.max_le.mpr ⟨Nat.zero_le _, ?_⟩⟩
          apply Nat.max_le.mpr ⟨hdepth, hdepth'⟩
  | .optional body =>
      obtain ⟨r, e, hrun, hdepth⟩ := settles_op c body here hrepeats hcalls
      exact ⟨_, _, .optional hrun, Nat.max_le.mpr ⟨Nat.zero_le _, hdepth⟩⟩
  | .ahead body =>
      obtain ⟨r, e, hrun, hdepth⟩ := settles_op c body here hrepeats hcalls
      exact ⟨_, _, .ahead hrun, Nat.max_le.mpr ⟨Nat.zero_le _, hdepth⟩⟩
  | .notAhead body =>
      obtain ⟨r, e, hrun, hdepth⟩ := settles_op c body here hrepeats hcalls
      exact ⟨_, _, .notAhead hrun, Nat.max_le.mpr ⟨Nat.zero_le _, hdepth⟩⟩
  | .call id =>
      obtain ⟨r, e, hrun, hdepth⟩ := hcalls.leading id (List.mem_singleton_self id)
      exact ⟨_, _, .opCall hrun, Nat.max_le.mpr ⟨Nat.zero_le _, hdepth⟩⟩

theorem settles_items (c : Certificate g) (ops : List Op) (here : Cursor)
    (hrepeats : Op.anyRepeatsNullable c.nullable ops = false)
    (hcalls : CallsSettle g depth (Op.seqLeadingCalls c.nullable ops) here) :
  Settles g (.items ops) here depth
  := by
  match ops with
  | [] => exact ⟨_, _, .itemsNil, Nat.zero_le _⟩
  | op :: ops =>
      obtain ⟨hop, hops⟩ := Bool.or_eq_false_iff.mp hrepeats
      obtain ⟨r, e, hrun, hdepth⟩ :=
        settles_op c op here hop (hcalls.mono (List.subset_append_left _ _))
      cases r with
      | none => exact ⟨_, _, .itemsNone hrun, hdepth⟩
      | some m =>
          obtain ⟨r', f, hrest, hdepth'⟩ := settles_items c ops m.stop hops (hcalls.next hrun)
          exact ⟨_, _, .itemsSome hrun hrest, Nat.max_le.mpr ⟨hdepth, hdepth'⟩⟩

theorem settles_alternatives (c : Certificate g) (ops : List Op) (here : Cursor)
    (hrepeats : Op.anyRepeatsNullable c.nullable ops = false)
    (hcalls : CallsSettle g depth (Op.allLeadingCalls c.nullable ops) here) :
  Settles g (.alternatives ops) here depth
  := by
  match ops with
  | [] => exact ⟨_, _, .alternativesNil, Nat.zero_le _⟩
  | op :: ops =>
      obtain ⟨hop, hops⟩ := Bool.or_eq_false_iff.mp hrepeats
      obtain ⟨r, e, hrun, hdepth⟩ :=
        settles_op c op here hop (hcalls.mono (List.subset_append_left _ _))
      cases r with
      | some m => exact ⟨_, _, .alternativesSome hrun, hdepth⟩
      | none =>
          obtain ⟨r', f, hrest, hdepth'⟩ :=
            settles_alternatives c ops here hops (hcalls.mono (List.subset_append_right _ _))
          exact ⟨_, _, .alternativesNone hrun hrest, Nat.max_le.mpr ⟨hdepth, hdepth'⟩⟩

end

/-! ### Calls -/

namespace Certificate

/-- How deep calls nest in a call of a rule, where calls further on nest at most
`g.rules.size * left` deep. -/
theorem settles_of_later (c : Certificate g) (here : Cursor) (left : Nat)
    (hlater : ∀ there, here.Reaches there → there.offset ≠ here.offset →
      ∀ id, Settles g (.call id) there (g.rules.size * left))
    {id : RuleId} {rule : Rule} (hrule : g.rule? id = some rule) :
  Settles g (.call id) here (g.rules.size * left + c.rank id + 1)
  := by
  induction hn : c.rank id using Nat.strongRecOn generalizing id rule with
  | ind n ih =>
      have hcalls : CallsSettle g (g.rules.size * left + n) (rule.op.leadingCalls c.nullable)
          here := by
        constructor
        · intro callee hcallee
          -- a rule called before input is consumed has lower rank
          cases hrule' : g.rule? callee with
          | none => exact .unknown hrule' here _
          | some rule' =>
              have hlt := c.rank_lt hrule hrule' hcallee
              rw [hn] at hlt
              apply (ih _ hlt hrule' rfl).mono
              omega
        · intro there hreaches hoffset callee
          apply (hlater there hreaches hoffset callee).mono (Nat.le_add_right _ _)
      obtain ⟨r, e, hrun, hdepth⟩ :=
        settles_op c rule.op here (c.repeatsNullable hrule) hcalls
      exact ⟨_, _, .call hrule hrun, Nat.succ_le_succ hdepth⟩

/-- Every call has a run from every position. -/
theorem settles (c : Certificate g) (id : RuleId) (here : Cursor) :
  Settles g (.call id) here (g.rules.size * (Text.byteLength here.rest + 1))
  := by
  induction hn : Text.byteLength here.rest using Nat.strongRecOn
      generalizing id here with
  | ind n ih =>
      cases hrule : g.rule? id with
      | none => exact .unknown hrule here _
      | some rule =>
          have hcall := c.settles_of_later here n (fun there hreaches hoffset callee => by
            have hless := hreaches.byteLength_lt hoffset
            rw [hn] at hless
            apply (ih _ hless callee there rfl).mono
            apply Nat.mul_le_mul_left _ hless) hrule
          apply hcall.mono
          have := c.rank_lt_size hrule
          rw [Nat.mul_succ]
          omega

end Certificate

end ClassTranscript.Peg
