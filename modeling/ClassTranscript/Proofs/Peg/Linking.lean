import ClassTranscript.Proofs.Peg.Certificate
import ClassTranscript.Proofs.Peg.Derivation
import ClassTranscript.Proofs.Success

/-!
# Linked expressions mean what they are written as

`Expr.core` takes the sequences and choices of one item off an expression; it means the same and has
the same linked form, whose operator is then that of the core (`Translates`). A run of a linked
expression derives what the expression means (`Runs.derives`), with rules found by name on the one
side and by number on the other.
-/

namespace ClassTranscript.Peg

/-- The rules of a grammar are the definitions of a draft with their bodies linked. -/
structure LinkedFrom (d : Draft) (g : Grammar) : Prop where
  size : g.rules.size = d.definitions.length
  rule {id : RuleId} {x : Definition} : d.definitions[id]? = some x →
    ∃ rule, g.rule? id = some rule ∧ rule.toDefinition = x
      ∧ x.body.link d.ruleId? = .ok rule.op

/-- The number of a name is that of the first definition of the name. -/
theorem Draft.body?_of_ruleId? {d : Draft} {name : String} {id : RuleId}
    (h : d.ruleId? name = some id) :
  ∃ x, d.definitions[id]? = some x ∧ d.body? name = some x.body
  := by
  have hbound := (List.findIdx?_eq_some_iff_getElem.mp h).1
  use d.definitions[id], List.getElem?_eq_getElem hbound
  rw [body?, List.find?_eq_bind_findIdx?_getElem?, show List.findIdx? _ _ = some id from h,
    Option.bind_some, List.getElem?_eq_getElem hbound, Option.map_some]

namespace Expr

/-- An expression without the sequences and choices of one item around it. -/
def core : Expr → Expr
  | .seq [item] => core item
  | .choice [item] => core item
  | e => e

/-- The test that a terminal expression puts to the input. -/
def test? : Expr → Option Test
  | .literal text => some (.text text.toList)
  | .char cls => some (.char cls)
  | .any => some .any
  | .endOfInput => some .endOfInput
  | _ => none

variable {ruleOf : String → Option RuleId}

/-- How an expression is linked, given how its parts are. -/
inductive Translates (ruleOf : String → Option RuleId) : Expr → Op → Prop where
  | test {e : Expr} {test : Test} {expectation : String} : e.test? = some test →
    e.expectation = some expectation → Translates ruleOf e (.test test expectation)
  | seq {items : List Expr} {ops : List Op} : linkAll ruleOf items = .ok ops →
    Translates ruleOf (.seq items) (.seq ops)
  | choice {items : List Expr} {ops : List Op} : linkAll ruleOf items = .ok ops →
    Translates ruleOf (.choice items) (.choice ops)
  | star {body : Expr} {op : Op} : link ruleOf body = .ok op →
    Translates ruleOf (.star body) (.star op)
  | plus {body : Expr} {op : Op} : link ruleOf body = .ok op →
    Translates ruleOf (.plus body) (.plus op)
  | optional {body : Expr} {op : Op} : link ruleOf body = .ok op →
    Translates ruleOf (.optional body) (.optional op)
  | ahead {body : Expr} {op : Op} : link ruleOf body = .ok op →
    Translates ruleOf (.ahead body) (.ahead op)
  | notAhead {body : Expr} {op : Op} : link ruleOf body = .ok op →
    Translates ruleOf (.notAhead body) (.notAhead op)
  | rule {name : String} {id : RuleId} : ruleOf name = some id →
    Translates ruleOf (.rule name) (.call id)

theorem link_seq {items : List Expr} (h : ∀ item, items ≠ [item]) :
  link ruleOf (.seq items) = (linkAll ruleOf items).map .seq
  := by
  match items with
  | [] => rfl
  | [item] => exact absurd rfl (h item)
  | _ :: _ :: _ => rfl

theorem link_choice {items : List Expr} (h : ∀ item, items ≠ [item]) :
  link ruleOf (.choice items) = (linkAll ruleOf items).map .choice
  := by
  match items with
  | [] => rfl
  | [item] => exact absurd rfl (h item)
  | _ :: _ :: _ => rfl

/-- The linked form of an expression is that of its core. -/
theorem translates_of_link {e : Expr} {op : Op} (h : e.link ruleOf = .ok op) :
  Translates ruleOf e.core op
  := by
  induction e using core.induct with
  | case1 item ih =>
      rw [core]
      apply ih h
  | case2 item ih =>
      rw [core]
      apply ih h
  | case3 e hseq hchoice =>
      rw [core.eq_3 e hseq hchoice]
      cases e with
      | literal | char | any | endOfInput =>
          obtain rfl := Except.ok.inj h
          exact .test rfl rfl
      | seq items =>
          rw [link_seq fun item heq => hseq item (by rw [heq])] at h
          obtain ⟨ops, hops, rfl⟩ := exists_of_map_eq_ok h
          exact .seq hops
      | choice items =>
          rw [link_choice fun item heq => hchoice item (by rw [heq])] at h
          obtain ⟨ops, hops, rfl⟩ := exists_of_map_eq_ok h
          exact .choice hops
      | star body =>
          obtain ⟨op, hop, rfl⟩ := exists_of_map_eq_ok h
          exact .star hop
      | plus body =>
          obtain ⟨op, hop, rfl⟩ := exists_of_map_eq_ok h
          exact .plus hop
      | optional body =>
          obtain ⟨op, hop, rfl⟩ := exists_of_map_eq_ok h
          exact .optional hop
      | ahead body =>
          obtain ⟨op, hop, rfl⟩ := exists_of_map_eq_ok h
          exact .ahead hop
      | notAhead body =>
          obtain ⟨op, hop, rfl⟩ := exists_of_map_eq_ok h
          exact .notAhead hop
      | rule name =>
          rw [link] at h
          split at h
          · rename_i id hid
            obtain rfl := Except.ok.inj h
            exact .rule hid
          · cases h

end Expr

/-! ### Deriving by the core -/

namespace Derives

variable {bodyOf : String → Option Expr} {e : Expr} {here : Cursor} {r : Option Cursor}
  {ms : List Miss}

/-- A sequence of one item derives what the item does. -/
theorem seqSingle (h : Derives bodyOf e here r ms) :
  Derives bodyOf (.seq [e]) here r ms
  := by
  cases r with
  | none => exact .seqStop h
  | some there =>
      rw [← List.append_nil ms]
      exact .seqNext h .seqNil

/-- A choice of one item derives what the item does. -/
theorem choiceSingle (h : Derives bodyOf e here r ms) :
  Derives bodyOf (.choice [e]) here r ms
  := by
  cases r with
  | none =>
      rw [← List.append_nil ms]
      exact .choiceNext h .choiceNil
  | some there => exact .choiceFirst h

/-- An expression derives what its core does. -/
theorem of_core (h : Derives bodyOf e.core here r ms) :
  Derives bodyOf e here r ms
  := by
  induction e using Expr.core.induct with
  | case1 item ih =>
      rw [Expr.core] at h
      apply seqSingle (ih h)
  | case2 item ih =>
      rw [Expr.core] at h
      apply choiceSingle (ih h)
  | case3 e hseq hchoice =>
      rw [Expr.core.eq_3 e hseq hchoice] at h
      apply h

end Derives

/-! ### Terminals -/

namespace Cursor

theorem next?_eq_some {p : Char → Bool} {here there : Cursor} (h : here.next? p = some there) :
  ∃ c, p c = true ∧ here.rest = c :: there.rest ∧ there.offset = here.offset + c.utf8Size
  := by
  obtain ⟨offset, _ | ⟨c, rest⟩⟩ := here
  · simp [next?] at h
  · simp only [next?, Option.ite_none_right_eq_some, Option.some.injEq] at h
    obtain ⟨hc, rfl⟩ := h
    exact ⟨c, hc, rfl, rfl⟩

theorem next?_ne_none {p : Char → Bool} {here : Cursor} {c : Char} {rest : List Char}
    (hrest : here.rest = c :: rest) (hc : p c = true) :
  here.next? p ≠ none
  := by
  obtain ⟨offset, _⟩ := here
  obtain rfl := hrest
  simp [next?, hc]

end Cursor

namespace Expr

variable {e : Expr} {test : Test} {here there : Cursor}

/-- A test passes over what the terminal reads. -/
theorem reads_of_pass? (htest : e.test? = some test) (h : test.pass? here = some there) :
  ∃ taken, e.Reads taken there.rest ∧ here.rest = taken ++ there.rest
    ∧ there.offset = here.offset + Text.byteLength taken
  := by
  cases e with
  | literal text =>
      obtain rfl := Option.some.inj htest
      obtain ⟨hrest, hoffset⟩ := Cursor.reaches_of_after? h
      exact ⟨text.toList, rfl, hrest, hoffset⟩
  | char cls =>
      obtain rfl := Option.some.inj htest
      obtain ⟨c, hc, hrest, hoffset⟩ := Cursor.next?_eq_some h
      exact ⟨[c], ⟨c, hc, rfl⟩, hrest, by simpa using hoffset⟩
  | any =>
      obtain rfl := Option.some.inj htest
      obtain ⟨c, -, hrest, hoffset⟩ := Cursor.next?_eq_some h
      exact ⟨[c], ⟨c, rfl⟩, hrest, by simpa using hoffset⟩
  | endOfInput =>
      obtain rfl := Option.some.inj htest
      simp only [Test.pass?, Option.ite_none_right_eq_some, Option.some.injEq,
        List.isEmpty_iff] at h
      obtain ⟨hnil, rfl⟩ := h
      exact ⟨[], ⟨rfl, hnil⟩, rfl, rfl⟩
  | seq | choice | star | plus | optional | ahead | notAhead | rule => cases htest

/-- A test passes wherever the terminal reads something. -/
theorem pass?_ne_none {taken rest : List Char} (htest : e.test? = some test)
    (hrest : here.rest = taken ++ rest) (h : e.Reads taken rest) :
  test.pass? here ≠ none
  := by
  cases e with
  | literal text =>
      obtain rfl := Option.some.inj htest
      obtain rfl : taken = text.toList := h
      have hprefix := List.isPrefixOf?_eq_some_iff_append_eq.mpr hrest.symm
      simp [Test.pass?, Cursor.after?, hprefix]
  | char cls =>
      obtain rfl := Option.some.inj htest
      obtain ⟨c, hc, rfl⟩ := h
      apply Cursor.next?_ne_none hrest hc
  | any =>
      obtain rfl := Option.some.inj htest
      obtain ⟨c, rfl⟩ := h
      apply Cursor.next?_ne_none hrest rfl
  | endOfInput =>
      obtain rfl := Option.some.inj htest
      obtain ⟨rfl, rfl⟩ := h
      simp [Test.pass?, hrest]
  | seq | choice | star | plus | optional | ahead | notAhead | rule => cases htest

end Expr

/-! ### Runs -/

/-- The expressions that a job stands for, where those of an operator are cores. -/
inductive Job.Codes (ruleOf : String → Option RuleId) : Job → Expr → Prop where
  | op {e : Expr} {op : Op} : e.Translates ruleOf op → Codes ruleOf (.op op) e
  | items {items : List Expr} {ops : List Op} : Expr.linkAll ruleOf items = .ok ops →
    Codes ruleOf (.items ops) (.seq items)
  | alternatives {items : List Expr} {ops : List Op} : Expr.linkAll ruleOf items = .ok ops →
    Codes ruleOf (.alternatives ops) (.choice items)
  | rounds {body : Expr} {op : Op} : body.link ruleOf = .ok op →
    Codes ruleOf (.rounds op) (.star body)
  | call {name : String} {id : RuleId} : ruleOf name = some id →
    Codes ruleOf (.call id) (.rule name)

theorem Job.Codes.translates {ruleOf : String → Option RuleId} {op : Op} {e : Expr}
    (h : Job.Codes ruleOf (.op op) e) :
  e.Translates ruleOf op
  := by
  cases h with
  | op h => apply h

/-- What the cores of an operator derive is derived by the expressions linked to it. -/
theorem Derives.of_link {ruleOf : String → Option RuleId} {bodyOf : String → Option Expr}
    {op : Op} {here : Cursor} {r : Option Cursor} {ms : List Miss}
    (h : ∀ e, Job.Codes ruleOf (.op op) e → Derives bodyOf e here r ms) {e : Expr}
    (hlink : e.link ruleOf = .ok op) :
  Derives bodyOf e here r ms
  := by
  apply Derives.of_core
  apply h
  exact .op (Expr.translates_of_link hlink)

theorem Expr.linkAll_cons {ruleOf : String → Option RuleId} {op : Op} {ops : List Op}
    {items : List Expr} (h : linkAll ruleOf items = .ok (op :: ops)) :
  ∃ item items', items = item :: items' ∧ item.link ruleOf = .ok op
    ∧ linkAll ruleOf items' = .ok ops
  := by
  cases items with
  | nil => cases h
  | cons item items =>
      rw [linkAll] at h
      split at h
      · cases h
      · rename_i hop
        obtain ⟨ops', hops, heq⟩ := exists_of_map_eq_ok h
        obtain ⟨rfl, rfl⟩ := List.cons.inj heq
        exact ⟨item, items, rfl, hop, hops⟩

theorem Expr.linkAll_nil {ruleOf : String → Option RuleId} {items : List Expr}
    (h : linkAll ruleOf items = .ok []) :
  items = []
  := by
  cases items with
  | nil => rfl
  | cons item items =>
      rw [linkAll] at h
      split at h
      · cases h
      · obtain ⟨_, _, heq⟩ := exists_of_map_eq_ok h
        cases heq

theorem Match.map_stop_andThen (m : Match) (r : Option Match) :
  (r.map m.andThen).map (·.stop) = r.map (·.stop)
  := by
  cases r <;> rfl

/-- A run of what is linked derives what was written. -/
theorem Runs.derives {d : Draft} {g : Grammar} (c : Certificate g) (hlinked : LinkedFrom d g)
    {job : Job} {here : Cursor} {r : Option Match} {f : Effect} (h : Runs g job here r f) :
  ∀ e, job.Codes d.ruleId? e → job.repeatsNullable c.nullable = false →
    Derives d.body? e here (r.map (·.stop)) f.misses
  := by
  induction h with
  | pass hpass =>
      intro e hcodes _
      cases hcodes.translates with
      | test htest hx =>
          obtain ⟨taken, hreads, hrest, hoffset⟩ := Expr.reads_of_pass? htest hpass
          exact .reads hreads hrest hoffset
  | miss hmiss =>
      intro e hcodes _
      cases hcodes.translates with
      | test htest hx =>
          apply Derives.misses hx
          intro taken rest hrest hreads
          apply Expr.pass?_ne_none htest hrest hreads hmiss
  | seq _ ih =>
      intro e hcodes hrepeats
      cases hcodes.translates with
      | seq hitems => apply ih _ (.items hitems) hrepeats
  | choice _ ih =>
      intro e hcodes hrepeats
      cases hcodes.translates with
      | choice hitems => apply ih _ (.alternatives hitems) hrepeats
  | star _ ih =>
      intro e hcodes hrepeats
      cases hcodes.translates with
      | star hbody => apply ih _ (.rounds hbody) hrepeats
  | plusNone _ ih =>
      intro e hcodes hrepeats
      cases hcodes.translates with
      | plus hlink =>
          obtain ⟨-, hrepeats⟩ := Bool.or_eq_false_iff.mp hrepeats
          exact .plusStop (.of_link (ih · · hrepeats) hlink)
  | plusSome _ _ ih ihRounds =>
      intro e hcodes hrepeats
      cases hcodes.translates with
      | plus hlink =>
          rw [Match.map_stop_andThen]
          obtain ⟨-, hbody⟩ := Bool.or_eq_false_iff.mp hrepeats
          have hderives := Derives.plusNext (.of_link (ih · · hbody) hlink)
            (ihRounds _ (.rounds hlink) hrepeats)
          apply hderives
  | @optional _ _ r _ _ ih =>
      intro e hcodes hrepeats
      cases hcodes.translates with
      | optional hlink =>
          have hbody := Derives.of_link (ih · · hrepeats) hlink
          cases r with
          | none => exact .optionalNone hbody
          | some m => exact .optionalSome hbody
  | @ahead _ _ r _ _ ih =>
      intro e hcodes hrepeats
      cases hcodes.translates with
      | ahead hlink =>
          have hbody := Derives.of_link (ih · · hrepeats) hlink
          cases r with
          | none => exact .aheadNone hbody
          | some m => exact .aheadSome hbody
  | @notAhead _ _ r _ _ ih =>
      intro e hcodes hrepeats
      cases hcodes.translates with
      | notAhead hlink =>
          have hbody := Derives.of_link (ih · · hrepeats) hlink
          cases r with
          | none => exact .notAheadNone hbody
          | some m => exact .notAheadSome hbody
  | opCall _ ih =>
      intro e hcodes _
      cases hcodes.translates with
      | rule hname => apply ih _ (.call hname) rfl
  | itemsNil =>
      intro e hcodes _
      cases hcodes with
      | items hitems =>
          obtain rfl := Expr.linkAll_nil hitems
          exact .seqNil
  | itemsNone _ ih =>
      intro e hcodes hrepeats
      cases hcodes with
      | items hitems =>
          obtain ⟨item, items, rfl, hitem, -⟩ := Expr.linkAll_cons hitems
          obtain ⟨hop, -⟩ := Bool.or_eq_false_iff.mp hrepeats
          exact .seqStop (.of_link (ih · · hop) hitem)
  | itemsSome _ _ ih ihItems =>
      intro e hcodes hrepeats
      cases hcodes with
      | items hitems =>
          obtain ⟨item, items, rfl, hitem, hitems⟩ := Expr.linkAll_cons hitems
          obtain ⟨hop, hops⟩ := Bool.or_eq_false_iff.mp hrepeats
          rw [Match.map_stop_andThen]
          exact .seqNext (.of_link (ih · · hop) hitem) (ihItems _ (.items hitems) hops)
  | alternativesNil =>
      intro e hcodes _
      cases hcodes with
      | alternatives hitems =>
          obtain rfl := Expr.linkAll_nil hitems
          exact .choiceNil
  | alternativesNone _ _ ih ihNext =>
      intro e hcodes hrepeats
      cases hcodes with
      | alternatives hitems =>
          obtain ⟨item, items, rfl, hitem, hitems⟩ := Expr.linkAll_cons hitems
          obtain ⟨hop, hops⟩ := Bool.or_eq_false_iff.mp hrepeats
          exact .choiceNext (.of_link (ih · · hop) hitem) (ihNext _ (.alternatives hitems) hops)
  | alternativesSome _ ih =>
      intro e hcodes hrepeats
      cases hcodes with
      | alternatives hitems =>
          obtain ⟨item, items, rfl, hitem, -⟩ := Expr.linkAll_cons hitems
          obtain ⟨hop, -⟩ := Bool.or_eq_false_iff.mp hrepeats
          exact .choiceFirst (.of_link (ih · · hop) hitem)
  | roundsNone _ ih =>
      intro e hcodes hrepeats
      cases hcodes with
      | rounds hlink =>
          obtain ⟨-, hbody⟩ := Bool.or_eq_false_iff.mp hrepeats
          exact .starStop (.of_link (ih · · hbody) hlink)
  | roundsIdle hrun hidle _ =>
      intro e _ hrepeats
      -- the grammar repeats nothing nullable, so no round stays where it began
      exact absurd hidle (hrun.advances c hrepeats)
  | roundsSome _ _ _ ih ihRounds =>
      intro e hcodes hrepeats
      cases hcodes with
      | rounds hlink =>
          obtain ⟨-, hbody⟩ := Bool.or_eq_false_iff.mp hrepeats
          rw [Match.map_stop_andThen]
          exact .starNext (.of_link (ih · · hbody) hlink) (ihRounds _ (.rounds hlink) hrepeats)
  | @call id rule here r f hrule _ ih =>
      intro e hcodes _
      cases hcodes with
      | call hname =>
          obtain ⟨x, hx, hbody⟩ := Draft.body?_of_ruleId? hname
          obtain ⟨rule', hrule', -, hlink⟩ := hlinked.rule hx
          obtain rfl := Option.some.inj (hrule.symm.trans hrule')
          have hstop : (r.map (·.inRule id rule here.offset)).map (·.stop) = r.map (·.stop) := by
            cases r <;> rfl
          rw [hstop]
          exact .rule hbody (.of_link (ih · · (c.repeatsNullable hrule)) hlink)
  | unknown hnone =>
      intro e hcodes _
      cases hcodes with
      | call hname =>
          obtain ⟨x, hx, -⟩ := Draft.body?_of_ruleId? hname
          obtain ⟨rule, hrule, -⟩ := hlinked.rule hx
          rw [hnone] at hrule
          cases hrule

end ClassTranscript.Peg
