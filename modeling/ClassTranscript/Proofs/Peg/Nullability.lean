import ClassTranscript.Proofs.Peg.Activation
import ClassTranscript.Proofs.Peg.Extension
import ClassTranscript.Proofs.Peg.Matching

/-!
# Nullable rules

The flags that a build gives to the rules are exactly the rules whose bodies are `Expr.Nullable`, so
they do not depend on the order of the definitions (`nullable_of_perm`). And they are sound for the
evaluator: wherever an evaluation stands, a body that matches there without consuming input is that
of a flagged rule, and a round of a repetition that matches has advanced. For the second half,
`Activation.Sound` says what a certificate grants to everything that an evaluation begins, and every
such job has a run of which the certificate speaks.
-/

namespace ClassTranscript.Peg

/-! ### Runs of expressions -/

namespace Certificate

variable {g : Grammar} {cfg : Settings} {start : Cursor} {bound : Nat} {op : Op} {s s' : State}

/-- An expression without nullable repetitions has a run from every position. -/
theorem exists_run (c : Certificate g) (hrepeats : op.repeatsNullable c.nullable = false)
    (here : Cursor) :
  ∃ r e, Runs g (.op op) here r e
  := by
  -- calls nest no deeper further on than they may here
  have hcalls : CallsSettle g (g.rules.size * (Text.byteLength here.rest + 1))
      (op.leadingCalls c.nullable) here := by
    constructor
    · intro id _
      apply c.settles
    · intro there hreaches _ id
      apply (c.settles id there).mono
      apply Nat.mul_le_mul_left
      have := hreaches.offset_add_byteLength
      have := hreaches.offset_le
      omega
  obtain ⟨r, e, hrun, -⟩ := settles_op c op here hrepeats hcalls
  exact ⟨r, e, hrun⟩

/-- An expression that matches has a run that ends where the evaluation goes on. -/
theorem run_of_eval (c : Certificate g) (hrepeats : op.repeatsNullable c.nullable = false)
    (hs : Ready g start s) (h : eval g cfg bound op s = (true, s')) :
  Ready g start s' ∧ ∃ m e, Runs g (.op op) s.here (some m) e ∧ s'.here = m.stop
  := by
  obtain ⟨r, e, hrun⟩ := c.exists_run hrepeats s.here
  have hends : Ends g cfg start bound s.mark s r e (eval g cfg bound op s) :=
    hrun.ends bound 0 s.mark s hs rfl fun _ => rfl
  rw [h] at hends
  generalize hout : (true, s') = out at hends
  cases hends with
  | halted _ _ => cases hout
  | completed hrunning hfollows hmark =>
      obtain ⟨hmatched, rfl⟩ := Prod.mk.inj hout
      obtain ⟨m, rfl⟩ := Option.isSome_iff_exists.mp hmatched.symm
      obtain ⟨hs', hhere⟩ := hs.next hrun hrunning hfollows hmark
      exact ⟨hs', m, e, hrun, hhere⟩

/-- After an expression that fails, going back leads to a state like the one before it. -/
theorem ready_backtrack (c : Certificate g) (hrepeats : op.repeatsNullable c.nullable = false)
    (hs : Ready g start s) (h : eval g cfg bound op s = (false, s')) (hrunning : s'.running = true) :
  Ready g start (s'.backtrack cfg s.mark)
  := by
  obtain ⟨r, e, hrun⟩ := c.exists_run hrepeats s.here
  have hends : Ends g cfg start bound s.mark s r e (eval g cfg bound op s) :=
    hrun.ends bound 0 s.mark s hs rfl fun _ => rfl
  rw [h] at hends
  generalize hout : (false, s') = out at hends
  cases hends with
  | halted hhalted _ =>
      obtain rfl := (Prod.mk.inj hout).2
      rw [State.running_of_halted hhalted] at hrunning
      cases hrunning
  | completed hnone hfollows _ =>
      obtain ⟨-, rfl⟩ := Prod.mk.inj hout
      apply (hfollows.backtrack s.mark).ready hs
      · rw [State.halted_backtrack, hnone]
      · have hback := s'.mark_backtrack cfg s.mark
        have hhere : (s'.backtrack cfg s.mark).here = s.here := congrArg Mark.here hback
        rw [hhere]
        apply hs.reaches

/-- An expression that matches without consuming input is nullable. -/
theorem nullable_of_eval (c : Certificate g) (hrepeats : op.repeatsNullable c.nullable = false)
    (hs : Ready g start s) (h : eval g cfg bound op s = (true, s'))
    (hidle : s'.here.offset = s.here.offset) :
  op.nullable c.nullable = true
  := by
  obtain ⟨-, m, e, hrun, hhere⟩ := c.run_of_eval hrepeats hs h
  rw [hhere] at hidle
  apply hrun.nullable c rfl hidle

end Certificate

/-! ### Activations -/

/-- What is true of an activation when it begins: the evaluation can go on from the state, and the
job repeats nothing nullable. -/
structure Activation.Sound {g : Grammar} (c : Certificate g) (start : Cursor) (a : Activation) :
    Prop where
  ready : Ready g start a.state
  repeatsNullable : a.job.repeatsNullable c.nullable = false
  mark_eq : a.job.GoesBack → a.mark = a.state.mark

section

variable {g : Grammar} {cfg : Settings} {start : Cursor}

/-- What begins on the way through a sound activation is sound. -/
theorem Begins.sound {a b : Activation} (hbegins : Begins g cfg a b) {c : Certificate g}
    (h : a.Sound c start) :
  b.Sound c start
  := by
  obtain ⟨hs, hrepeats, hmark⟩ := h
  cases hbegins with
  | seq _ => exact ⟨hs.countStep, hrepeats, False.elim⟩
  | choice _ => exact ⟨hs.countStep, hrepeats, fun _ => rfl⟩
  | star _ => exact ⟨hs.countStep, hrepeats, False.elim⟩
  | plus _ => exact ⟨hs.countStep, (Bool.or_eq_false_iff.mp hrepeats).2, fun _ => rfl⟩
  | plusRounds _ hbody =>
      have hrepeats' := (Bool.or_eq_false_iff.mp hrepeats).2
      exact ⟨(c.run_of_eval hrepeats' hs.countStep hbody).1, hrepeats, False.elim⟩
  | optional _ => exact ⟨hs.countStep, hrepeats, fun _ => rfl⟩
  | ahead _ => exact ⟨hs.countStep.enterPredicate, hrepeats, fun _ => rfl⟩
  | notAhead _ => exact ⟨hs.countStep.enterPredicate, hrepeats, fun _ => rfl⟩
  | opCall _ => exact ⟨hs.countStep, rfl, fun _ => rfl⟩
  | item => exact ⟨hs, (Bool.or_eq_false_iff.mp hrepeats).1, fun _ => rfl⟩
  | items hitem =>
      obtain ⟨hfirst, hrest⟩ := Bool.or_eq_false_iff.mp hrepeats
      exact ⟨(c.run_of_eval hfirst hs hitem).1, hrest, False.elim⟩
  | alternative => exact ⟨hs, (Bool.or_eq_false_iff.mp hrepeats).1, fun _ => rfl⟩
  | @alternatives _ _ _ _ m s s' hitem hrunning =>
      obtain ⟨hfirst, hrest⟩ := Bool.or_eq_false_iff.mp hrepeats
      obtain rfl : m = s.mark := hmark trivial
      exact ⟨c.ready_backtrack hfirst hs hitem hrunning, hrest,
        fun _ => (s'.mark_backtrack cfg _).symm⟩
  | round => exact ⟨hs, (Bool.or_eq_false_iff.mp hrepeats).2, fun _ => rfl⟩
  | rounds hbody _ =>
      have hrepeats' := (Bool.or_eq_false_iff.mp hrepeats).2
      exact ⟨(c.run_of_eval hrepeats' hs hbody).1, hrepeats, False.elim⟩
  | body hrule _ _ => exact ⟨hs.enterRule cfg _, c.repeatsNullable hrule, fun _ => rfl⟩

/-- A fresh evaluation can begin anywhere in a text. -/
theorem ready_of_reaches {here : Cursor} (h : start.Reaches here) :
  Ready g start { here }
  where
  running := rfl
  reaches := h
  memo := Memo.sound_empty
  depth := Nat.le_refl _

theorem Activation.Reached.sound (c : Certificate g) {bound : Nat} {id : RuleId} {text : String}
    {a : Activation} (h : Activation.Reached g cfg bound id text a) :
  a.Sound c (.atStart text)
  := by
  induction h with
  | refl => exact ⟨ready_of_reaches (.refl _), rfl, fun _ => rfl⟩
  | tail _ hbegins ih => apply hbegins.sound ih

end

/-! ### Flags -/

/-- A rule of a grammar that is built is flagged if and only if its body is nullable. -/
theorem Draft.nullable_iff_of_build {d : Draft} {g : Grammar} (hbuild : d.build = .ok g)
    {rule : Rule} (hrule : rule ∈ g.rules) :
  rule.nullable = true ↔ rule.body.Nullable (bodyOf d.definitions)
  := by
  obtain ⟨bodies, hlinked, -, -, hrules⟩ := build_eq_ok hbuild
  rw [hrules, List.mem_toArray] at hrule
  obtain ⟨id, hid⟩ := List.mem_iff_getElem?.mp hrule
  rw [← flagged_assemble hid, flagged_nullableRules (getElem?_assemble hid).2]
  apply hlinked.nullable_iff (hlinked.mem_rulesWith hrule)

theorem Draft.mem_definitions_of_build {d : Draft} {g : Grammar} (hbuild : d.build = .ok g)
    {rule : Rule} (hrule : rule ∈ g.rules) :
  rule.toDefinition ∈ d.definitions
  := by
  obtain ⟨bodies, hlinked, -, -, hrules⟩ := build_eq_ok hbuild
  rw [hrules, List.mem_toArray] at hrule
  rw [← hlinked.definitions_rulesWith]
  apply List.mem_map_of_mem hrule

theorem bodyOf_eq_some_iff {xs : List Definition} (hnames : (namesOf xs).Nodup) {name : String}
    {e : Expr} :
  bodyOf xs name = some e ↔ ∃ x ∈ xs, x.name = name ∧ x.body = e
  := by
  simp only [bodyOf, Draft.body?, Option.map_eq_some_iff]
  constructor
  · rintro ⟨x, hfind, rfl⟩
    exact ⟨x, List.mem_of_find?_eq_some hfind, by simpa using List.find?_some hfind, rfl⟩
  · rintro ⟨x, hx, rfl, rfl⟩
    cases hfind : xs.find? (·.name == x.name) with
    | none => simpa using List.find?_eq_none.mp hfind x hx
    | some y =>
        have hname : y.name = x.name := by simpa using List.find?_some hfind
        rw [List.inj_on_of_nodup_map hnames (List.mem_of_find?_eq_some hfind) hx hname]
        exact ⟨x, rfl, rfl⟩

/-- The body of a name does not depend on the order of the definitions. -/
theorem bodyOf_of_perm {xs ys : List Definition} (h : ys.Perm xs) (hnames : (namesOf xs).Nodup) :
  bodyOf ys = bodyOf xs
  := by
  have hnames' : (namesOf ys).Nodup := (h.map _).nodup_iff.mpr hnames
  funext name
  apply Option.ext
  intro e
  rw [bodyOf_eq_some_iff hnames, bodyOf_eq_some_iff hnames']
  simp only [h.mem_iff]

theorem definitions_of_build {calls : List BuilderCall} {g : Grammar}
    (hbuild : (Draft.ofCalls calls).build = .ok g) :
  (Draft.ofCalls calls).definitions = definitionsOf calls ∧ (namesOf (definitionsOf calls)).Nodup
  := (Draft.follows_ofCalls calls).fresh (Draft.redefined_of_build hbuild)

theorem nullable_iff_of_calls {calls : List BuilderCall} {g : Grammar}
    (hbuild : (Draft.ofCalls calls).build = .ok g) {rule : Rule} (hrule : rule ∈ g.rules) :
  rule.nullable = true ↔ rule.body.Nullable (bodyOf (definitionsOf calls))
  := by
  rw [← (definitions_of_build hbuild).1]
  apply Draft.nullable_iff_of_build hbuild hrule

/-- Rules of one name have the same flag in grammars of the same definitions in different orders. -/
theorem nullable_of_perm {calls calls' : List BuilderCall} {g g' : Grammar}
    (hbuild : (Draft.ofCalls calls).build = .ok g)
    (hbuild' : (Draft.ofCalls calls').build = .ok g')
    (h : (definitionsOf calls').Perm (definitionsOf calls)) {rule rule' : Rule}
    (hrule : rule ∈ g.rules) (hrule' : rule' ∈ g'.rules) (hname : rule'.name = rule.name) :
  rule'.nullable = rule.nullable
  := by
  obtain ⟨hdefinitions, hnames⟩ := definitions_of_build hbuild
  obtain ⟨hdefinitions', -⟩ := definitions_of_build hbuild'
  have hmem := Draft.mem_definitions_of_build hbuild hrule
  have hmem' := Draft.mem_definitions_of_build hbuild' hrule'
  rw [hdefinitions] at hmem
  rw [hdefinitions', h.mem_iff] at hmem'
  have hsame : rule'.toDefinition = rule.toDefinition :=
    List.inj_on_of_nodup_map hnames hmem' hmem hname
  rw [Bool.eq_iff_iff, nullable_iff_of_calls hbuild hrule, nullable_iff_of_calls hbuild' hrule',
    hsame, bodyOf_of_perm h hnames]

/-! ### Flags and evaluations -/

/-- Words with blanks after them. -/
def wordCalls : List BuilderCall :=
  [.rule { name := "Words", body := .star (.seq [.rule "Word", .rule "Blank"]) },
   .rule { name := "Word", body := .literal "w" },
   .rule { name := "Blank", body := .star (.literal " ") }]

/-- Nullability is least and sound. A rule is flagged exactly if its body is nullable, by finitely
many steps from what is written, and the order of the definitions does not matter. Wherever the body
of a rule matches without consuming input, from any position of a text or in the midst of an
evaluation, the rule is flagged. So in any evaluation a round of a repetition that matches has
advanced. -/
theorem nullable_least_and_sound {calls : List BuilderCall} {g : Grammar}
    (hbuild : (Draft.ofCalls calls).build = .ok g) :
  (∀ rule ∈ g.rules,
      (rule.nullable = true ↔ rule.body.Nullable (bodyOf (definitionsOf calls))))
    ∧ (∀ calls' g', (definitionsOf calls').Perm (definitionsOf calls) →
      (Draft.ofCalls calls').build = .ok g' → ∀ rule ∈ g.rules, ∀ rule' ∈ g'.rules,
        rule'.name = rule.name → rule'.nullable = rule.nullable)
    ∧ (∀ text here, (Cursor.atStart text).Reaches here → ∀ cfg bound, ∀ rule ∈ g.rules, ∀ s',
      eval g cfg bound rule.op { here } = (true, s') → s'.here.offset = here.offset →
        rule.nullable = true)
    ∧ ∀ cfg n id text a, Activation.Reached g cfg n id text a →
      (∀ bound, ∀ rule ∈ g.rules, ∀ s', eval g cfg bound rule.op a.state = (true, s') →
          s'.here.offset = a.state.here.offset → rule.nullable = true)
        ∧ ∀ body s', a.job = .rounds body → eval g cfg a.bound body a.state = (true, s') →
          s'.here.offset ≠ a.state.here.offset
  := by
  obtain ⟨c, hflags⟩ := Draft.exists_certificate_of_flags hbuild
  have hsound {cfg : Settings} {bound : Nat} {start : Cursor} {s s' : State} {rule : Rule}
      (hrule : rule ∈ g.rules) (hs : Ready g start s)
      (heval : eval g cfg bound rule.op s = (true, s')) (hidle : s'.here.offset = s.here.offset) :
      rule.nullable = true := by
    obtain ⟨id, hid⟩ := Array.mem_iff_getElem?.mp hrule
    rw [← hflags id rule hid]
    apply c.nullable_of_op hid
    apply c.nullable_of_eval (c.repeatsNullable hid) hs heval hidle
  refine ⟨fun rule => nullable_iff_of_calls hbuild, ?_, ?_, ?_⟩
  · intro calls' g' hperm hbuild' rule hrule rule' hrule' hname
    apply nullable_of_perm hbuild hbuild' hperm hrule hrule' hname
  · intro text here hhere cfg bound rule hrule s' heval hidle
    apply hsound hrule (ready_of_reaches hhere) heval hidle
  · intro cfg n id text a hreached
    obtain ⟨hs, hrepeats, -⟩ := hreached.sound c
    refine ⟨fun bound rule hrule s' heval hidle => hsound hrule hs heval hidle, ?_⟩
    intro body s' hjob heval hidle
    rw [hjob] at hrepeats
    obtain ⟨hadvancing, hrepeats⟩ := Bool.or_eq_false_iff.mp hrepeats
    have hnullable := c.nullable_of_eval hrepeats hs heval hidle
    rw [hnullable] at hadvancing
    cases hadvancing

/-- No blank need follow a word, so that rule matches without consuming input, and it is flagged in
whatever order the three are defined. -/
theorem blank_nullable :
  ∃ rule ∈ (Draft.ofCalls wordCalls).buildD.rules, rule.name = "Blank" ∧ rule.nullable = true
    ∧ rule.body.Nullable (bodyOf (definitionsOf wordCalls))
    ∧ ∀ rule' ∈ (Draft.ofCalls wordCalls.reverse).buildD.rules, rule'.name = "Blank" →
      rule'.nullable = true
  := by
  have hbuild : (Draft.ofCalls wordCalls).build = .ok (Draft.ofCalls wordCalls).buildD := rfl
  obtain ⟨hflag, horder, hidle, -⟩ := nullable_least_and_sound hbuild
  have hsize : 2 < (Draft.ofCalls wordCalls).buildD.rules.size := by decide
  have hmem : (Draft.ofCalls wordCalls).buildD.rules[2]
      ∈ (Draft.ofCalls wordCalls).buildD.rules := Array.getElem_mem _
  have hnullable := hidle "w" _ (.refl _) {} 3 _ hmem _ rfl rfl
  refine ⟨_, hmem, rfl, hnullable, (hflag _ hmem).mp hnullable, ?_⟩
  intro rule' hrule' hname
  have hperm := (List.reverse_perm wordCalls).filterMap BuilderCall.definition?
  rw [horder wordCalls.reverse _ hperm rfl _ hmem rule' hrule' hname, hnullable]

end ClassTranscript.Peg
