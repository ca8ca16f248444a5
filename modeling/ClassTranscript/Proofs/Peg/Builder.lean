import ClassTranscript.Proofs.Peg.Checks

/-!
# Drafts made by calls

A draft is made by calls that define a rule or name the root, in any order. As long as the names are
all different it has the definitions in the order of the calls, and once a name comes up again it
remembers the first that did (`Draft.Follows`). So for every sequence of calls the build decides
whether the definitions are well formed, and reports the first condition that they do not meet
(`build_ofCalls`).
-/

namespace ClassTranscript.Peg

/-- A call that defines a rule or names the root. -/
inductive BuilderCall where
  | rule (x : Definition)
  | root (name : String)

namespace BuilderCall

/-- The rule that a call defines. -/
def definition? : BuilderCall → Option Definition
  | .rule x => some x
  | .root _ => none

/-- The root that a call names. -/
def root? : BuilderCall → Option String
  | .rule _ => none
  | .root name => some name

end BuilderCall

/-- The rules that calls define, in order. -/
def definitionsOf (calls : List BuilderCall) : List Definition :=
  calls.filterMap BuilderCall.definition?

/-- The root that is named last. -/
def lastRoot (calls : List BuilderCall) : Option String :=
  (calls.filterMap BuilderCall.root?).getLast?

namespace Draft

/-- The draft after one more call. -/
def perform (d : Draft) : BuilderCall → Draft
  | .rule x => d.define x
  | .root name => d.withRoot name

/-- The draft that calls make. -/
def ofCalls (calls : List BuilderCall) : Draft :=
  calls.foldl perform {}

/-- What a draft has kept of the definitions `xs` that were made one after the other. -/
structure Follows (xs : List Definition) (d : Draft) : Prop where
  defines_iff : ∀ name, d.defines name = true ↔ name ∈ namesOf xs
  fresh : d.redefined = none → d.definitions = xs ∧ (namesOf xs).Nodup
  repeated {name : String} : d.redefined = some name →
    ∃ before after, namesOf xs = before ++ name :: after ∧ before.Nodup ∧ name ∈ before

variable {d : Draft} {xs : List Definition} {x : Definition}

theorem define_of_new (h : d.defines x.name = false) :
  d.define x = { d with definitions := d.definitions ++ [x] }
  := by
  rw [define, h, if_neg Bool.false_ne_true]

theorem define_of_defined (h : d.defines x.name = true) :
  d.define x = { d with
    definitions := d.definitions.map fun y => if y.name == x.name then x else y
    redefined := d.redefined <|> some x.name }
  := by
  rw [define, if_pos h]

/-- A definition adds its name to those that are defined, if it is not among them. -/
theorem defines_define {name : String} :
  (d.define x).defines name = true ↔ d.defines name = true ∨ name = x.name
  := by
  cases hx : d.defines x.name with
  | false =>
      rw [define_of_new hx]
      simp [defines, @eq_comm _ x.name]
  | true =>
      rw [define_of_defined hx]
      have hsame : ∀ y : Definition, (if y.name == x.name then x else y).name = y.name := by
        intro y
        split
        · rename_i heq
          exact (beq_iff_eq.mp heq).symm
        · rfl
      simp only [defines, List.any_map, Function.comp_def, hsame]
      constructor
      · exact .inl
      · rintro (h | rfl)
        · apply h
        · apply hx

theorem root_define (d : Draft) (x : Definition) :
  (d.define x).root = d.root
  := by
  unfold define
  split <;> rfl

namespace Follows

theorem nil :
  Follows [] {}
  := by
  constructor
  · simp [defines, namesOf]
  · simp [namesOf]
  · simp

/-- One more definition. -/
theorem define (h : Follows xs d) (x : Definition) :
  Follows (xs ++ [x]) (d.define x)
  := by
  have hnames : namesOf (xs ++ [x]) = namesOf xs ++ [x.name] := List.map_append
  constructor
  · intro name
    rw [defines_define, h.defines_iff, hnames]
    simp
  · intro hnone
    cases hx : d.defines x.name with
    | true =>
        rw [define_of_defined hx] at hnone
        simp at hnone
    | false =>
        rw [define_of_new hx] at hnone ⊢
        obtain ⟨hdefinitions, hdistinct⟩ := h.fresh hnone
        refine ⟨by rw [hdefinitions], ?_⟩
        rw [hnames, ← List.concat_eq_append, List.nodup_concat]
        refine ⟨?_, hdistinct⟩
        rw [← h.defines_iff, hx]
        apply Bool.false_ne_true
  · intro name hname
    cases hredefined : d.redefined with
    | some first =>
        -- the first name to come up again is already known
        have heq : first = name := by
          cases hx : d.defines x.name with
          | true => simpa [define_of_defined hx, hredefined] using hname
          | false => simpa [define_of_new hx, hredefined] using hname
        obtain ⟨before, after, hsplit, hbefore, hmem⟩ := h.repeated hredefined
        refine ⟨before, after ++ [x.name], ?_, hbefore, heq ▸ hmem⟩
        rw [hnames, hsplit, heq, List.append_assoc, List.cons_append]
    | none =>
        cases hx : d.defines x.name with
        | true =>
            obtain rfl : x.name = name := by
              simpa [define_of_defined hx, hredefined] using hname
            exact ⟨namesOf xs, [], hnames, (h.fresh hredefined).2, (h.defines_iff _).mp hx⟩
        | false => simp [define_of_new hx, hredefined] at hname

end Follows

theorem follows_withRoot (h : Follows xs d) (name : String) :
  Follows xs (d.withRoot name)
  := ⟨h.defines_iff, h.fresh, h.repeated⟩

theorem ofCalls_append_singleton {calls : List BuilderCall} {call : BuilderCall} :
  ofCalls (calls ++ [call]) = (ofCalls calls).perform call
  := by
  rw [ofCalls, List.foldl_append]
  rfl

theorem follows_ofCalls (calls : List BuilderCall) :
  Follows (definitionsOf calls) (ofCalls calls)
  := by
  induction calls using List.reverseRecOn with
  | nil => exact .nil
  | append_singleton calls call ih =>
      rw [ofCalls_append_singleton, definitionsOf, List.filterMap_append]
      cases call with
      | rule x => exact ih.define x
      | root name =>
          rw [show List.filterMap _ [BuilderCall.root name] = ([] : List Definition) from rfl,
            List.append_nil]
          exact follows_withRoot ih name

theorem root_ofCalls (calls : List BuilderCall) :
  (ofCalls calls).root = lastRoot calls
  := by
  induction calls using List.reverseRecOn with
  | nil => rfl
  | append_singleton calls call ih =>
      rw [ofCalls_append_singleton, lastRoot, List.filterMap_append]
      cases call with
      | rule x =>
          rw [show List.filterMap _ [BuilderCall.rule x] = ([] : List String) from rfl,
            List.append_nil]
          apply Eq.trans (root_define _ x) ih
      | root name =>
          rw [show [BuilderCall.root name].filterMap BuilderCall.root? = [name] from rfl,
            List.getLast?_append_of_ne_nil _ (by simp)]
          rfl

/-- The outcome of a draft that is made by calls is right. -/
theorem verdict_ofCalls (calls : List BuilderCall) :
  Verdict (definitionsOf calls) (lastRoot calls) (ofCalls calls).build
  := by
  have hfollows := follows_ofCalls calls
  cases hredefined : (ofCalls calls).redefined with
  | none =>
      obtain ⟨hdefinitions, hdistinct⟩ := hfollows.fresh hredefined
      rw [← hdefinitions] at hdistinct
      rw [← hdefinitions, ← root_ofCalls]
      apply verdict hredefined hdistinct
  | some name =>
      obtain ⟨before, after, hsplit, hbefore, hmem⟩ := hfollows.repeated hredefined
      rw [build_of_redefined hredefined]
      exact .duplicateRule hsplit hbefore hmem

end Draft

/-- Definitions of which a condition fails first are not well formed. -/
theorem FirstFailure.not_wellFormed {xs : List Definition} {root : Option String} {e : GrammarError}
    (h : FirstFailure xs root e) :
  ¬ WellFormed xs root
  := by
  intro hwell
  cases h with
  | duplicateRule hsplit _ hmem =>
      have hdistinct := hwell.distinct
      rw [hsplit, List.nodup_append] at hdistinct
      exact hdistinct.2.2 _ hmem _ List.mem_cons_self rfl
  | empty h => apply hwell.nonempty h
  | unknownRoot _ _ hroot hname => apply hname (hwell.rootDefined _ hroot)
  | undefinedRule _ _ _ hx _ =>
      obtain ⟨hmem, name, hname, hundefined⟩ := hx.mem
      apply hundefined (hwell.refsDefined _ hmem name hname)
  | nullableRepetition _ _ _ _ hx => apply hwell.advancing _ hx.mem.1 hx.mem.2
  | leftRecursion _ _ _ _ _ hcycle _ _ =>
      obtain ⟨name, hname, hback⟩ := hcycle.transGen
      apply hwell.acyclic name (hback name hname)

/-- A draft builds exactly when its definitions are well formed. Otherwise the error reports the
first condition that they do not meet. The rules of the grammar are the definitions in order, and
its root is the root that was named last, or the first rule. -/
theorem build_ofCalls (calls : List BuilderCall) :
  ((∃ g, (Draft.ofCalls calls).build = .ok g) ↔ WellFormed (definitionsOf calls) (lastRoot calls))
    ∧ Verdict (definitionsOf calls) (lastRoot calls) (Draft.ofCalls calls).build
  := by
  have hverdict := Draft.verdict_ofCalls calls
  refine ⟨?_, hverdict⟩
  generalize (Draft.ofCalls calls).build = r at hverdict ⊢
  cases r with
  | ok g => exact iff_of_true ⟨g, rfl⟩ hverdict.1
  | error e =>
      apply iff_of_false _ (FirstFailure.not_wellFormed hverdict)
      rintro ⟨_, ⟨⟩⟩

end ClassTranscript.Peg
