import ClassTranscript.Peg.Tree
import ClassTranscript.Proofs.Peg.Linking

/-!
# The nodes that expressions grow

`Grows d e here there nodes` says that an expression, as it is written in a draft, matches from one
position to another, and which nodes that leaves, in document order. Only what the match is made of
leaves nodes: not the alternatives that failed before the one that matched, not the body of a
predicate, and not what lies inside a hidden rule. An expression grows at most one list of nodes at
a position (`Grows.unique`), and that is the list that a run of its linked form leaves
(`Runs.grows`).
-/

namespace ClassTranscript.Peg

/-- The expression fails at a position. -/
def Fails (bodyOf : String → Option Expr) (e : Expr) (here : Cursor) : Prop :=
  ∃ misses, Derives bodyOf e here none misses

/-- The nodes that a match of a definition leaves, given those inside it. -/
def Definition.nodes (x : Definition) (id : RuleId) (span : Span) (inside : List Node) :
    List Node :=
  if x.hidden then [] else [⟨x.label, id, span, if x.leaf then [] else inside⟩]

/-- What expressions grow. -/
inductive Grows (d : Draft) : Expr → Cursor → Cursor → List Node → Prop where
  | reads {e : Expr} {taken : List Char} {here there : Cursor} :
    e.Reads taken there.rest →
    here.rest = taken ++ there.rest →
    there.offset = here.offset + Text.byteLength taken →
    Grows d e here there []
  | seqNil {here : Cursor} :
    Grows d (.seq []) here here []
  | seqNext {item : Expr} {items : List Expr} {here there stop : Cursor} {ns ms : List Node} :
    Grows d item here there ns →
    Grows d (.seq items) there stop ms →
    Grows d (.seq (item :: items)) here stop (ns ++ ms)
  | choiceFirst {item : Expr} {items : List Expr} {here there : Cursor} {ns : List Node} :
    Grows d item here there ns →
    Grows d (.choice (item :: items)) here there ns
  | choiceNext {item : Expr} {items : List Expr} {here there : Cursor} {ns : List Node} :
    Fails d.body? item here →
    Grows d (.choice items) here there ns →
    Grows d (.choice (item :: items)) here there ns
  | starStop {body : Expr} {here : Cursor} :
    Fails d.body? body here →
    Grows d (.star body) here here []
  | starNext {body : Expr} {here there stop : Cursor} {ns ms : List Node} :
    Grows d body here there ns →
    Grows d (.star body) there stop ms →
    Grows d (.star body) here stop (ns ++ ms)
  | plus {body : Expr} {here there stop : Cursor} {ns ms : List Node} :
    Grows d body here there ns →
    Grows d (.star body) there stop ms →
    Grows d (.plus body) here stop (ns ++ ms)
  | optionalNone {body : Expr} {here : Cursor} :
    Fails d.body? body here →
    Grows d (.optional body) here here []
  | optionalSome {body : Expr} {here there : Cursor} {ns : List Node} :
    Grows d body here there ns →
    Grows d (.optional body) here there ns
  | ahead {body : Expr} {here there : Cursor} {ns : List Node} :
    Grows d body here there ns →
    Grows d (.ahead body) here here []
  | notAhead {body : Expr} {here : Cursor} :
    Fails d.body? body here →
    Grows d (.notAhead body) here here []
  | rule {name : String} {id : RuleId} {x : Definition} {here there : Cursor} {ns : List Node} :
    d.ruleId? name = some id →
    d.definitions[id]? = some x →
    Grows d x.body here there ns →
    Grows d (.rule name) here there (x.nodes id ⟨here.offset, there.offset⟩ ns)

/-! ### Growing and deriving -/

theorem Derives.not_fails {bodyOf : String → Option Expr} {e : Expr} {here there : Cursor}
    {misses : List Miss} (h : Derives bodyOf e here (some there) misses) :
  ¬ Fails bodyOf e here
  := by
  rintro ⟨_, hfails⟩
  cases (h.unique hfails).1

namespace Draft

variable {d : Draft} {name : String} {id : RuleId} {x : Definition}

/-- The body of a definition that a name leads to is the body of the name. -/
theorem body?_of_definition (hid : d.ruleId? name = some id) (hx : d.definitions[id]? = some x) :
  d.body? name = some x.body
  := by
  obtain ⟨y, hy, hbody⟩ := d.body?_of_ruleId? hid
  obtain rfl := Option.some.inj (hx.symm.trans hy)
  apply hbody

theorem name_of_ruleId? (hid : d.ruleId? name = some id) (hx : d.definitions[id]? = some x) :
  x.name = name
  := by
  obtain ⟨hbound, hname, -⟩ := List.findIdx?_eq_some_iff_getElem.mp hid
  obtain ⟨_, rfl⟩ := List.getElem?_eq_some_iff.mp hx
  simpa using hname

end Draft

namespace Grows

variable {d : Draft} {e : Expr} {here there stop : Cursor} {ns ms : List Node}

/-- What grows matches. -/
theorem derives (h : Grows d e here there ns) :
  ∃ misses, Derives d.body? e here (some there) misses
  := by
  induction h with
  | reads hreads hrest hoffset => exact ⟨_, .reads hreads hrest hoffset⟩
  | seqNil => exact ⟨_, .seqNil⟩
  | seqNext _ _ ih ihNext =>
      obtain ⟨_, h⟩ := ih
      obtain ⟨_, hnext⟩ := ihNext
      exact ⟨_, .seqNext h hnext⟩
  | choiceFirst _ ih =>
      obtain ⟨_, h⟩ := ih
      exact ⟨_, .choiceFirst h⟩
  | choiceNext hfails _ ih =>
      obtain ⟨_, hfails⟩ := hfails
      obtain ⟨_, h⟩ := ih
      exact ⟨_, .choiceNext hfails h⟩
  | starStop hfails =>
      obtain ⟨_, hfails⟩ := hfails
      exact ⟨_, .starStop hfails⟩
  | starNext _ _ ih ihNext =>
      obtain ⟨_, h⟩ := ih
      obtain ⟨_, hnext⟩ := ihNext
      exact ⟨_, .starNext h hnext⟩
  | plus _ _ ih ihNext =>
      obtain ⟨_, h⟩ := ih
      obtain ⟨_, hnext⟩ := ihNext
      exact ⟨_, .plusNext h hnext⟩
  | optionalNone hfails =>
      obtain ⟨_, hfails⟩ := hfails
      exact ⟨_, .optionalNone hfails⟩
  | optionalSome _ ih =>
      obtain ⟨_, h⟩ := ih
      exact ⟨_, .optionalSome h⟩
  | ahead _ ih =>
      obtain ⟨_, h⟩ := ih
      exact ⟨_, .aheadSome h⟩
  | notAhead hfails =>
      obtain ⟨_, hfails⟩ := hfails
      exact ⟨_, .notAheadNone hfails⟩
  | rule hid hx _ ih =>
      obtain ⟨_, h⟩ := ih
      exact ⟨_, .rule (Draft.body?_of_definition hid hx) h⟩

/-- An expression that grows does not fail there. -/
theorem not_fails (h : Grows d e here there ns) :
  ¬ Fails d.body? e here
  := by
  obtain ⟨_, h⟩ := h.derives
  apply h.not_fails

/-- A terminal leaves no nodes. -/
theorem terminal_nil (he : e.expectation.isSome = true) (h : Grows d e here there ns) :
  ns = []
  := by
  cases h with
  | reads => rfl
  | _ => simp [Expr.expectation] at he

theorem stop_unique (h : Grows d e here there ns) (h' : Grows d e here stop ms) :
  there = stop
  := by
  obtain ⟨_, h⟩ := h.derives
  obtain ⟨_, h'⟩ := h'.derives
  apply Option.some.inj (h.unique h').1

/-- An expression grows at most one list of nodes at a position. -/
theorem unique (h : Grows d e here there ns) (h' : Grows d e here stop ms) :
  there = stop ∧ ns = ms
  := by
  use h.stop_unique h'
  induction h generalizing stop ms with
  | reads hreads => rw [h'.terminal_nil hreads.expectation_isSome]
  | seqNil =>
      cases h' with
      | seqNil => rfl
      | reads hreads => contradiction
  | seqNext h _ ih ihNext =>
      cases h' with
      | seqNext h' hnext =>
          obtain rfl := h.stop_unique h'
          rw [ih h', ihNext hnext]
      | reads hreads => contradiction
  | choiceFirst h ih =>
      cases h' with
      | choiceFirst h' => apply ih h'
      | choiceNext hfails _ => exact absurd hfails h.not_fails
      | reads hreads => contradiction
  | choiceNext hfails _ ih =>
      cases h' with
      | choiceFirst h' => exact absurd hfails h'.not_fails
      | choiceNext _ h' => apply ih h'
      | reads hreads => contradiction
  | starStop hfails =>
      cases h' with
      | starStop _ => rfl
      | starNext h' _ => exact absurd hfails h'.not_fails
      | reads hreads => contradiction
  | starNext h _ ih ihNext =>
      cases h' with
      | starStop hfails => exact absurd hfails h.not_fails
      | starNext h' hnext =>
          obtain rfl := h.stop_unique h'
          rw [ih h', ihNext hnext]
      | reads hreads => contradiction
  | plus h _ ih ihNext =>
      cases h' with
      | plus h' hnext =>
          obtain rfl := h.stop_unique h'
          rw [ih h', ihNext hnext]
      | reads hreads => contradiction
  | optionalNone hfails =>
      cases h' with
      | optionalNone _ => rfl
      | optionalSome h' => exact absurd hfails h'.not_fails
      | reads hreads => contradiction
  | optionalSome h ih =>
      cases h' with
      | optionalNone hfails => exact absurd hfails h.not_fails
      | optionalSome h' => apply ih h'
      | reads hreads => contradiction
  | ahead _ _ =>
      cases h' with
      | ahead _ => rfl
      | reads hreads => contradiction
  | notAhead _ =>
      cases h' with
      | notAhead _ => rfl
      | reads hreads => contradiction
  | rule hid hx h ih =>
      cases h' with
      | rule hid' hx' h' =>
          obtain rfl := Option.some.inj (hid.symm.trans hid')
          obtain rfl := Option.some.inj (hx.symm.trans hx')
          obtain rfl := h.stop_unique h'
          rw [ih h']
      | reads hreads => contradiction

/-- A match ends where it begins or further on in the same text. -/
theorem reaches (h : Grows d e here there ns) :
  here.Reaches there
  := by
  induction h with
  | reads _ hrest hoffset => exact ⟨_, hrest, hoffset⟩
  | seqNil | starStop | optionalNone | ahead | notAhead => exact .refl _
  | seqNext _ _ ih ihNext | starNext _ _ ih ihNext | plus _ _ ih ihNext => apply ih.trans ihNext
  | choiceFirst _ ih | choiceNext _ _ ih | optionalSome _ ih | rule _ _ _ ih => apply ih

/-! ### Growing by the core -/

/-- A sequence of one item grows what the item does. -/
theorem seqSingle (h : Grows d e here there ns) :
  Grows d (.seq [e]) here there ns
  := by
  rw [← List.append_nil ns]
  exact .seqNext h .seqNil

/-- An expression grows what its core does. -/
theorem of_core (h : Grows d e.core here there ns) :
  Grows d e here there ns
  := by
  induction e using Expr.core.induct with
  | case1 item ih =>
      rw [Expr.core] at h
      apply seqSingle (ih h)
  | case2 item ih =>
      rw [Expr.core] at h
      exact .choiceFirst (ih h)
  | case3 e hseq hchoice =>
      rw [Expr.core.eq_3 e hseq hchoice] at h
      apply h

end Grows

/-! ### Runs -/

/-- What the cores of an operator grow is grown by the expressions linked to it. -/
theorem Grows.of_link {d : Draft} {op : Op} {here there : Cursor} {ns : List Node}
    (h : ∀ e, Job.Codes d.ruleId? (.op op) e → Grows d e here there ns) {e : Expr}
    (hlink : e.link d.ruleId? = .ok op) :
  Grows d e here there ns
  := by
  apply Grows.of_core
  apply h
  exact .op (Expr.translates_of_link hlink)

theorem Match.nodes_inRule (m : Match) (id : RuleId) (rule : Rule) (start : Nat) :
  (m.inRule id rule start).nodes.reverse
    = rule.toDefinition.nodes id ⟨start, m.stop.offset⟩ m.nodes.reverse
  := by
  rw [inRule, node?, Definition.nodes]
  split <;> rfl

section

variable {d : Draft} {g : Grammar} {here : Cursor} {f : Effect}

/-- An expression fails where its linked form does. -/
theorem Runs.fails (c : Certificate g) (hlinked : LinkedFrom d g) {op : Op}
    (h : Runs g (.op op) here none f) {e : Expr} (hlink : e.link d.ruleId? = .ok op)
    (hrepeats : op.repeatsNullable c.nullable = false) :
  Fails d.body? e here
  := by
  use f.misses
  apply Derives.of_link _ hlink
  intro e' hcodes
  apply h.derives c hlinked e' hcodes hrepeats

/-- A run of what is linked leaves the nodes that grow on what was written. -/
theorem Runs.grows (c : Certificate g) (hlinked : LinkedFrom d g) {job : Job} {r : Option Match}
    (h : Runs g job here r f) :
  ∀ m, r = some m → ∀ e, job.Codes d.ruleId? e → job.repeatsNullable c.nullable = false →
    Grows d e here m.stop m.nodes.reverse
  := by
  induction h with
  | pass hpass =>
      rintro _ ⟨⟩ e hcodes _
      cases hcodes.translates with
      | test htest _ =>
          obtain ⟨taken, hreads, hrest, hoffset⟩ := Expr.reads_of_pass? htest hpass
          exact .reads hreads hrest hoffset
  | miss _ | plusNone _ _ | itemsNone _ _ | alternativesNil | unknown _ =>
      rintro _ ⟨⟩
  | seq _ ih =>
      intro m hm e hcodes hrepeats
      cases hcodes.translates with
      | seq hitems => apply ih m hm _ (.items hitems) hrepeats
  | choice _ ih =>
      intro m hm e hcodes hrepeats
      cases hcodes.translates with
      | choice hitems => apply ih m hm _ (.alternatives hitems) hrepeats
  | star _ ih =>
      intro m hm e hcodes hrepeats
      cases hcodes.translates with
      | star hbody => apply ih m hm _ (.rounds hbody) hrepeats
  | plusSome _ _ ih ihRounds =>
      intro m hm e hcodes hrepeats
      obtain ⟨n, hn, rfl⟩ := Option.map_eq_some_iff.mp hm
      cases hcodes.translates with
      | plus hlink =>
          obtain ⟨-, hbody⟩ := Bool.or_eq_false_iff.mp hrepeats
          rw [Match.nodes_andThen, List.reverse_append]
          exact .plus (.of_link (ih _ rfl · · hbody) hlink)
            (ihRounds n hn _ (.rounds hlink) hrepeats)
  | @optional _ _ r _ hbody ih =>
      rintro _ ⟨⟩ e hcodes hrepeats
      cases hcodes.translates with
      | optional hlink =>
          cases r with
          | none => exact .optionalNone (hbody.fails c hlinked hlink hrepeats)
          | some m => exact .optionalSome (.of_link (ih m rfl · · hrepeats) hlink)
  | ahead _ ih =>
      intro m hm e hcodes hrepeats
      obtain ⟨n, rfl, rfl⟩ := Option.map_eq_some_iff.mp hm
      cases hcodes.translates with
      | ahead hlink => exact .ahead (.of_link (ih n rfl · · hrepeats) hlink)
  | @notAhead _ _ r _ hbody _ =>
      intro m hm e hcodes hrepeats
      cases r with
      | some _ => cases hm
      | none =>
          obtain rfl := Option.some.inj hm
          cases hcodes.translates with
          | notAhead hlink => exact .notAhead (hbody.fails c hlinked hlink hrepeats)
  | opCall _ ih =>
      intro m hm e hcodes _
      cases hcodes.translates with
      | rule hname => apply ih m hm _ (.call hname) rfl
  | itemsNil =>
      rintro _ ⟨⟩ e hcodes _
      cases hcodes with
      | items hitems =>
          obtain rfl := Expr.linkAll_nil hitems
          exact .seqNil
  | itemsSome _ _ ih ihItems =>
      intro m hm e hcodes hrepeats
      obtain ⟨n, hn, rfl⟩ := Option.map_eq_some_iff.mp hm
      cases hcodes with
      | items hitems =>
          obtain ⟨item, items, rfl, hitem, hitems⟩ := Expr.linkAll_cons hitems
          obtain ⟨hop, hops⟩ := Bool.or_eq_false_iff.mp hrepeats
          rw [Match.nodes_andThen, List.reverse_append]
          exact .seqNext (.of_link (ih _ rfl · · hop) hitem) (ihItems n hn _ (.items hitems) hops)
  | alternativesNone hnone _ _ ihNext =>
      intro m hm e hcodes hrepeats
      cases hcodes with
      | alternatives hitems =>
          obtain ⟨item, items, rfl, hitem, hitems⟩ := Expr.linkAll_cons hitems
          obtain ⟨hop, hops⟩ := Bool.or_eq_false_iff.mp hrepeats
          exact .choiceNext (hnone.fails c hlinked hitem hop)
            (ihNext m hm _ (.alternatives hitems) hops)
  | alternativesSome _ ih =>
      intro m hm e hcodes hrepeats
      cases hcodes with
      | alternatives hitems =>
          obtain ⟨item, items, rfl, hitem, -⟩ := Expr.linkAll_cons hitems
          obtain ⟨hop, -⟩ := Bool.or_eq_false_iff.mp hrepeats
          exact .choiceFirst (.of_link (ih m hm · · hop) hitem)
  | roundsNone hnone _ =>
      rintro _ ⟨⟩ e hcodes hrepeats
      cases hcodes with
      | rounds hlink =>
          obtain ⟨-, hbody⟩ := Bool.or_eq_false_iff.mp hrepeats
          exact .starStop (hnone.fails c hlinked hlink hbody)
  | roundsIdle hrun hidle _ =>
      intro _ _ e _ hrepeats
      -- the grammar repeats nothing nullable, so no round stays where it began
      exact absurd hidle (hrun.advances c hrepeats)
  | roundsSome _ _ _ ih ihRounds =>
      intro m hm e hcodes hrepeats
      obtain ⟨n, hn, rfl⟩ := Option.map_eq_some_iff.mp hm
      cases hcodes with
      | rounds hlink =>
          obtain ⟨-, hbody⟩ := Bool.or_eq_false_iff.mp hrepeats
          rw [Match.nodes_andThen, List.reverse_append]
          exact .starNext (.of_link (ih _ rfl · · hbody) hlink)
            (ihRounds n hn _ (.rounds hlink) hrepeats)
  | @call id rule here r f hrule _ ih =>
      intro m hm e hcodes _
      obtain ⟨n, rfl, rfl⟩ := Option.map_eq_some_iff.mp hm
      cases hcodes with
      | call hname =>
          obtain ⟨x, hx, -⟩ := Draft.body?_of_ruleId? hname
          obtain ⟨rule', hrule', hdefinition, hlink⟩ := hlinked.rule hx
          obtain rfl := Option.some.inj (hrule.symm.trans hrule')
          rw [Match.nodes_inRule, hdefinition]
          exact .rule hname hx (.of_link (ih n rfl · · (c.repeatsNullable hrule)) hlink)

end

end ClassTranscript.Peg
