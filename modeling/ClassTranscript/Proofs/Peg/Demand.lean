import ClassTranscript.Proofs.Peg.Bound

/-!
# What an evaluation demands of the limits

A `Demand` is an amount that a limit has to allow for an evaluation to go on: one more step, a call
one deeper, one more remembered result. `demands` lists those of an evaluation in the order in which
they come up, which is that in which they are compared with the limits. Without limits the counts at
the end of an evaluation are the largest of its demands: the limits cover the counts exactly when
they meet every demand (`Accounts`).
-/

namespace ClassTranscript.Peg

/-- An amount that a limit has to allow. -/
structure Demand where
  limit : Limit
  amount : Nat
  deriving DecidableEq, Repr

namespace Limits

/-- The bound that a limit sets. -/
def bound (limits : Limits) : Limit → Nat
  | .depth => limits.depth
  | .steps => limits.steps
  | .entries => limits.entries

/-- Whether a demand is within its bound. -/
def meets (limits : Limits) (d : Demand) : Bool :=
  d.amount ≤ limits.bound d.limit

/-- The limit that is the first to be crossed where demands come up one after the other. -/
def crossed? (limits : Limits) (ds : List Demand) : Option Limit :=
  (ds.find? (!limits.meets ·)).map (·.limit)

/-- No count is above its bound. -/
def Cover (limits : Limits) (stats : Stats) : Prop :=
  stats.steps ≤ limits.steps ∧ stats.maxDepth ≤ limits.depth ∧ stats.entries ≤ limits.entries

@[simp]
theorem meets_iff {limits : Limits} {d : Demand} :
  limits.meets d = true ↔ d.amount ≤ limits.bound d.limit
  := decide_eq_true_iff

theorem crossed?_append (limits : Limits) (ds es : List Demand) :
  limits.crossed? (ds ++ es) = (limits.crossed? ds).or (limits.crossed? es)
  := by
  rw [crossed?, List.find?_append, Option.map_or]
  rfl

theorem crossed?_eq_none_iff {limits : Limits} {ds : List Demand} :
  limits.crossed? ds = none ↔ ∀ d ∈ ds, limits.meets d = true
  := by
  simp [crossed?]

theorem crossed?_cons_of_meets {limits : Limits} {d : Demand} (h : limits.meets d = true)
    (ds : List Demand) :
  limits.crossed? (d :: ds) = limits.crossed? ds
  := by
  simp [crossed?, h]

theorem crossed?_cons_of_not_meets {limits : Limits} {d : Demand} (h : limits.meets d = false)
    (ds : List Demand) :
  limits.crossed? (d :: ds) = some d.limit
  := by
  simp [crossed?, h]

end Limits

/-! ### The demands of an evaluation -/

section

variable (run : Op → Step) (asks : Op → State → List Demand)

/-- The demands of the items of a sequence, where `asks` gives those of each. -/
def demandsSeq : List Op → State → List Demand
  | [], _ => []
  | op :: ops, s =>
    asks op s ++
      match run op s with
      | (true, s) => demandsSeq ops s
      | (false, _) => []

/-- The demands of the alternatives of a choice. -/
def demandsChoice (cfg : Settings) (m : Mark) : List Op → State → List Demand
  | [], _ => []
  | op :: ops, s =>
    asks op s ++
      match run op s with
      | (true, _) => []
      | (false, s) => demandsChoice cfg m ops (s.backtrack cfg m)

/-- The demands of the rounds of a repetition. -/
def demandsRounds (run : Step) (asks : State → List Demand) : Nat → State → List Demand
  | 0, _ => []
  | rounds + 1, s =>
    asks s ++
      match run s with
      | (false, _) => []
      | (true, s') =>
        if s'.here.offset = s.mark.here.offset then [] else demandsRounds run asks rounds s'

/-- Whether a policy asks for a result to be remembered. -/
def MemoPolicy.keeps : MemoPolicy → Bool → Bool
  | .off, _ => false
  | .all, _ => true
  | .mismatches, matched => !matched

/-- The demand of remembering the result of a call that began at an offset, if it is remembered. -/
def demandsEntry (policy : MemoPolicy) (id : RuleId) (offset : Nat) (matched : Bool) (s : State) :
    List Demand :=
  if policy.keeps matched && !s.memo.knows id offset then [⟨.entries, s.memo.size + 1⟩] else []

/-- The demands of a call. One that a remembered result answers makes none. -/
def demandsCall (g : Grammar) (cfg : Settings) (id : RuleId) (s : State) : List Demand :=
  match g.rule? id with
  | none => []
  | some rule =>
    match s.answer? (cfg.policyOf rule) id with
    | some _ => []
    | none =>
      let (matched, s') := run rule.op (s.enterRule cfg id)
      ⟨.depth, s.depth + 1⟩
        :: (asks rule.op (s.enterRule cfg id)
          ++ demandsEntry (cfg.policyOf rule) id s.here.offset matched s')

/-- The demands of an expression once its step is counted. -/
def demandsOp (g : Grammar) (cfg : Settings) (bound : Nat) (op : Op) (s : State) : List Demand :=
  match op with
  | .test _ _ => []
  | .seq items => demandsSeq run asks items s
  | .choice alternatives => demandsChoice run asks cfg s.mark alternatives s
  | .star body => demandsRounds (run body) (asks body) bound s
  | .plus body =>
    asks body s ++
      match run body s with
      | (false, _) => []
      | (true, s) => demandsRounds (run body) (asks body) bound s
  | .optional body => asks body s
  | .ahead body => asks body s.enterPredicate
  | .notAhead body => asks body s.enterPredicate
  | .call id => demandsCall run asks g cfg id s

end

/-- The demands of the evaluation of an expression. -/
def demands (g : Grammar) (cfg : Settings) : Nat → Op → State → List Demand
  | 0, _, _ => []
  | bound + 1, op, s =>
    ⟨.steps, s.stats.steps + 1⟩
      :: demandsOp (eval g cfg bound) (demands g cfg bound) g cfg bound op s.countStep

/-- The demands of the evaluation of a rule on a text. -/
def evaluationDemands (g : Grammar) (cfg : Settings) (bound : Nat) (id : RuleId) (text : String) :
    List Demand :=
  demandsCall (eval g cfg bound) (demands g cfg bound) g cfg id (.initial text)

/-! ### Counts and demands -/

/-- The counts of a state, with the results that are remembered at it. -/
def State.usage (s : State) : Stats :=
  { s.stats with entries := s.memo.size }

/-- The counts of `s'` are those of `s` and the largest of the demands: the same limits cover them
as cover those of `s` and meet the demands. -/
def Accounts (s : State) (ds : List Demand) (s' : State) : Prop :=
  ∀ limits : Limits,
    limits.Cover s'.usage ↔ limits.Cover s.usage ∧ ∀ d ∈ ds, limits.meets d = true

namespace Accounts

variable {s s' s'' : State} {ds es : List Demand}

theorem nil (h : s'.usage = s.usage) :
  Accounts s [] s'
  := by
  intro limits
  simp [h]

theorem trans (h : Accounts s ds s') (h' : Accounts s' es s'') :
  Accounts s (ds ++ es) s''
  := by
  intro limits
  rw [h' limits, h limits, List.forall_mem_append, and_assoc]

/-- Only the counts matter. -/
theorem congr {t t' : State} (h : Accounts s ds s') (hbefore : t.usage = s.usage)
    (hafter : t'.usage = s'.usage) :
  Accounts t ds t'
  := by
  intro limits
  rw [hbefore, hafter, h limits]

/-- The steps never go down. -/
theorem steps_le (h : Accounts s ds s') :
  s.stats.steps ≤ s'.stats.steps
  := by
  have hcover := (h ⟨s'.stats.maxDepth, s'.stats.steps, s'.memo.size⟩).mp
    ⟨Nat.le_refl _, Nat.le_refl _, Nat.le_refl _⟩
  apply hcover.1.1

end Accounts

/-- A result that is not known yet is one more. -/
theorem Memo.size_remember {memo : Memo} {id : RuleId} {offset : Nat}
    (h : memo.knows id offset = false) (slot : MemoSlot) :
  (memo.remember id offset slot).size = memo.size + 1
  := by
  rw [knows] at h
  rw [remember, Std.TreeMap.size_insert, h]
  rfl

/-! ### Moves -/

namespace State

variable {s : State}

theorem accounts_countStep (s : State) :
  Accounts s [⟨.steps, s.stats.steps + 1⟩] s.countStep
  := by
  intro limits
  simp only [Limits.Cover, Limits.meets_iff, List.mem_singleton, forall_eq, Limits.bound, usage,
    countStep]
  omega

theorem accounts_enterRule (cfg : Settings) (id : RuleId) (s : State) :
  Accounts s [⟨.depth, s.depth + 1⟩] (s.enterRule cfg id)
  := by
  intro limits
  simp only [Limits.Cover, Limits.meets_iff, List.mem_singleton, forall_eq, Limits.bound, usage,
    enterRule_eq]
  omega

theorem usage_leaveRule (cfg : Settings) (id : RuleId) (m : Mark) (matched : Bool)
    (node : Option Node) (s : State) :
  (s.leaveRule cfg id m matched node).usage = s.usage
  := by
  rw [leaveRule, record_eq]
  rfl

theorem accounts_replay (cfg : Settings) (id : RuleId) (entry : MemoEntry) (s : State) :
  Accounts s [] (s.replay cfg id entry).2
  := by
  intro limits
  cases entry <;> simp [replay, record_eq, usage, Limits.Cover]

end State

end ClassTranscript.Peg
