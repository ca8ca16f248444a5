import ClassTranscript.Proofs.Peg.NullableRules
import ClassTranscript.Proofs.Peg.WellFormed

/-!
# What the checks compute

The checks of a draft look at linked bodies, and know which rules are nullable by their numbers.
Where a linked expression is nullable exactly when the expression is `Nullable` as it is written, it
repeats something nullable exactly when the expression does (`Expr.repeatsNullable_link_iff`), and
its leading calls are the rules to which it leads (`Expr.mem_leadingCalls_link_iff`). An expression
that cannot be linked is one with an undefined reference, and the leftmost is reported
(`Expr.first_of_link_eq_error`).
-/

namespace ClassTranscript.Peg

section

variable {α β : Type} {r : α → β → Prop} {xs : List α} {ys : List β} {x : α}

/-- An item of a list is related to the one at its place in a list that is related item by item. -/
theorem exists_getElem?_of_forall₂ (h : List.Forall₂ r xs ys) {i : Nat} (hx : xs[i]? = some x) :
  ∃ y, ys[i]? = some y ∧ r x y
  := by
  induction h generalizing i with
  | nil => cases hx
  | cons hhead _ ih =>
      cases i with
      | zero =>
          obtain rfl := Option.some.inj hx
          exact ⟨_, rfl, hhead⟩
      | succ i => apply ih hx

theorem exists_of_forall₂ (h : List.Forall₂ r xs ys) (hx : x ∈ xs) :
  ∃ y ∈ ys, r x y
  := by
  obtain ⟨i, hi⟩ := List.mem_iff_getElem?.mp hx
  obtain ⟨y, hy, hr⟩ := exists_getElem?_of_forall₂ h hi
  exact ⟨y, List.mem_of_getElem? hy, hr⟩

end

/-! ### Linked sequences and choices -/

namespace Op

variable {known : RuleId → Bool} {ops : List Op} {id : RuleId}

/-- A sequence, where a sequence of one item is that item. -/
def sequence : List Op → Op
  | [op] => op
  | ops => .seq ops

/-- A choice, where a choice of one alternative is that alternative. -/
def choices : List Op → Op
  | [op] => op
  | ops => .choice ops

theorem allNullable_iff :
  allNullable known ops = true ↔ ∀ op ∈ ops, op.nullable known = true
  := by
  induction ops with
  | nil => simp [allNullable]
  | cons op ops ih => simp [allNullable, ih]

theorem anyNullable_iff :
  anyNullable known ops = true ↔ ∃ op ∈ ops, op.nullable known = true
  := by
  induction ops with
  | nil => simp [anyNullable]
  | cons op ops ih => simp [anyNullable, ih]

theorem anyRepeatsNullable_iff :
  anyRepeatsNullable known ops = true ↔ ∃ op ∈ ops, op.repeatsNullable known = true
  := by
  induction ops with
  | nil => simp [anyRepeatsNullable]
  | cons op ops ih => simp [anyRepeatsNullable, ih]

theorem mem_allLeadingCalls :
  id ∈ allLeadingCalls known ops ↔ ∃ op ∈ ops, id ∈ op.leadingCalls known
  := by
  induction ops with
  | nil => simp [allLeadingCalls]
  | cons op ops ih => simp [allLeadingCalls, ih]

theorem nullable_sequence :
  (sequence ops).nullable known = allNullable known ops
  := by
  match ops with
  | [op] => simp [sequence, allNullable]
  | [] | _ :: _ :: _ => rfl

theorem nullable_choices :
  (choices ops).nullable known = anyNullable known ops
  := by
  match ops with
  | [op] => simp [choices, anyNullable]
  | [] | _ :: _ :: _ => rfl

theorem repeatsNullable_sequence :
  (sequence ops).repeatsNullable known = anyRepeatsNullable known ops
  := by
  match ops with
  | [op] => simp [sequence, anyRepeatsNullable]
  | [] | _ :: _ :: _ => rfl

theorem repeatsNullable_choices :
  (choices ops).repeatsNullable known = anyRepeatsNullable known ops
  := by
  match ops with
  | [op] => simp [choices, anyRepeatsNullable]
  | [] | _ :: _ :: _ => rfl

theorem leadingCalls_sequence :
  (sequence ops).leadingCalls known = seqLeadingCalls known ops
  := by
  match ops with
  | [op] => simp [sequence, seqLeadingCalls]
  | [] | _ :: _ :: _ => rfl

theorem leadingCalls_choices :
  (choices ops).leadingCalls known = allLeadingCalls known ops
  := by
  match ops with
  | [op] => simp [choices, allLeadingCalls]
  | [] | _ :: _ :: _ => rfl

end Op

namespace Expr

variable {ruleOf : String → Option RuleId} {bodyOf : String → Option Expr} {known : RuleId → Bool}
  {e : Expr} {items : List Expr} {op : Op} {ops : List Op}

theorem linkAll_eq_ok (h : linkAll ruleOf items = .ok ops) :
  List.Forall₂ (fun item op => item.link ruleOf = .ok op) items ops
  := by
  induction items generalizing ops with
  | nil =>
      obtain rfl := Except.ok.inj h
      exact .nil
  | cons item items ih =>
      rw [linkAll] at h
      split at h
      · cases h
      · rename_i hop
        obtain ⟨ops, hops, rfl⟩ := exists_of_map_eq_ok h
        exact .cons hop (ih hops)

theorem link_seq_eq_map :
  link ruleOf (.seq items) = (linkAll ruleOf items).map Op.sequence
  := by
  match items with
  | [] => rfl
  | [item] =>
      rw [linkAll, link]
      cases link ruleOf item with
      | error _ => rfl
      | ok _ => rfl
  | item :: item' :: items =>
      rw [link_seq (by simp)]
      cases h : linkAll ruleOf (item :: item' :: items) with
      | error _ => rfl
      | ok ops =>
          obtain ⟨⟩ | ⟨-, ⟨⟩ | ⟨-, -⟩⟩ := linkAll_eq_ok h
          rfl

theorem link_choice_eq_map :
  link ruleOf (.choice items) = (linkAll ruleOf items).map Op.choices
  := by
  match items with
  | [] => rfl
  | [item] =>
      rw [linkAll, link]
      cases link ruleOf item with
      | error _ => rfl
      | ok _ => rfl
  | item :: item' :: items =>
      rw [link_choice (by simp)]
      cases h : linkAll ruleOf (item :: item' :: items) with
      | error _ => rfl
      | ok ops =>
          obtain ⟨⟩ | ⟨-, ⟨⟩ | ⟨-, -⟩⟩ := linkAll_eq_ok h
          rfl

/-- The linked form of an expression, given those of its parts. -/
inductive LinksTo (ruleOf : String → Option RuleId) : Expr → Op → Prop where
  | test {e : Expr} {test : Test} {expectation : String} : e.test? = some test →
    e.expectation = some expectation → LinksTo ruleOf e (.test test expectation)
  | seq {items : List Expr} {ops : List Op} :
    List.Forall₂ (fun item op => item.link ruleOf = .ok op) items ops →
    LinksTo ruleOf (.seq items) (.sequence ops)
  | choice {alternatives : List Expr} {ops : List Op} :
    List.Forall₂ (fun item op => item.link ruleOf = .ok op) alternatives ops →
    LinksTo ruleOf (.choice alternatives) (.choices ops)
  | star {body : Expr} {op : Op} :
    body.link ruleOf = .ok op → LinksTo ruleOf (.star body) (.star op)
  | plus {body : Expr} {op : Op} :
    body.link ruleOf = .ok op → LinksTo ruleOf (.plus body) (.plus op)
  | optional {body : Expr} {op : Op} :
    body.link ruleOf = .ok op → LinksTo ruleOf (.optional body) (.optional op)
  | ahead {body : Expr} {op : Op} :
    body.link ruleOf = .ok op → LinksTo ruleOf (.ahead body) (.ahead op)
  | notAhead {body : Expr} {op : Op} :
    body.link ruleOf = .ok op → LinksTo ruleOf (.notAhead body) (.notAhead op)
  | rule {name : String} {id : RuleId} :
    ruleOf name = some id → LinksTo ruleOf (.rule name) (.call id)

theorem linksTo_of_link (h : e.link ruleOf = .ok op) :
  e.LinksTo ruleOf op
  := by
  cases e with
  | literal | char | any | endOfInput =>
      obtain rfl := Except.ok.inj h
      exact .test rfl rfl
  | seq items =>
      rw [link_seq_eq_map] at h
      obtain ⟨ops, hops, rfl⟩ := exists_of_map_eq_ok h
      exact .seq (linkAll_eq_ok hops)
  | choice items =>
      rw [link_choice_eq_map] at h
      obtain ⟨ops, hops, rfl⟩ := exists_of_map_eq_ok h
      exact .choice (linkAll_eq_ok hops)
  | star body =>
      obtain ⟨op, hop, rfl⟩ := exists_of_map_eq_ok h
      exact .star hop
  | plus body =>
      obtain ⟨op, hop, rfl⟩ := exists_of_map_eq_ok h
      exact .plus hop
  | optional body =>
      obtain ⟨op, hop, rfl⟩ := exists_of_map_eq_ok h
      exact .optional hop
  | ahead body =>
      obtain ⟨op, hop, rfl⟩ := exists_of_map_eq_ok h
      exact .ahead hop
  | notAhead body =>
      obtain ⟨op, hop, rfl⟩ := exists_of_map_eq_ok h
      exact .notAhead hop
  | rule name =>
      rw [link] at h
      split at h
      · rename_i id hid
        obtain rfl := Except.ok.inj h
        exact .rule hid
      · cases h

/-! ### Nullable expressions -/

/-- What is linked to something nullable is nullable, if that is so of the references. -/
theorem nullable_of_link
    (hrule : ∀ name id, ruleOf name = some id → known id = true → Nullable bodyOf (.rule name))
    (h : e.link ruleOf = .ok op) (hnullable : op.nullable known = true) :
  Nullable bodyOf e
  := by
  induction e using parts_induction generalizing op with
  | h e ih =>
      cases linksTo_of_link h with
      | @test _ test _ htest _ =>
          cases e with
          | literal text =>
              obtain rfl := Option.some.inj htest
              obtain rfl := String.toList_eq_nil_iff.mp (List.isEmpty_iff.mp hnullable)
              exact .empty
          | endOfInput => exact .endOfInput
          | char | any =>
              obtain rfl := Option.some.inj htest
              cases hnullable
          | seq | choice | star | plus | optional | ahead | notAhead | rule => cases htest
      | seq hops =>
          rw [Op.nullable_sequence, Op.allNullable_iff] at hnullable
          apply Nullable.seq
          intro item hitem
          obtain ⟨op, hop, hlink⟩ := exists_of_forall₂ hops hitem
          apply ih item hitem hlink (hnullable op hop)
      | choice hops =>
          rw [Op.nullable_choices, Op.anyNullable_iff] at hnullable
          obtain ⟨op, hop, hnullable⟩ := hnullable
          obtain ⟨item, hitem, hlink⟩ := exists_of_forall₂ hops.flip hop
          exact .choice hitem (ih item hitem hlink hnullable)
      | star _ => exact .star
      | plus hbody => exact .plus (ih _ (by simp [parts]) hbody hnullable)
      | optional _ => exact .optional
      | ahead _ => exact .ahead
      | notAhead _ => exact .notAhead
      | rule hid => apply hrule _ _ hid hnullable

/-- What is nullable is linked to something nullable, if the flags contain every rule whose body
is. -/
theorem nullable_link
    (hrule : ∀ name id body, ruleOf name = some id → bodyOf name = some body →
      ∃ op, body.link ruleOf = .ok op ∧ (op.nullable known = true → known id = true))
    (hnullable : Nullable bodyOf e) (h : e.link ruleOf = .ok op) :
  op.nullable known = true
  := by
  induction hnullable generalizing op with
  | empty | endOfInput =>
      obtain rfl := Except.ok.inj h
      rfl
  | seq _ ih =>
      rw [link_seq_eq_map] at h
      obtain ⟨ops, hops, rfl⟩ := exists_of_map_eq_ok h
      rw [Op.nullable_sequence, Op.allNullable_iff]
      intro op hop
      obtain ⟨item, hitem, hlink⟩ := exists_of_forall₂ (linkAll_eq_ok hops).flip hop
      apply ih item hitem hlink
  | choice hmem _ ih =>
      rw [link_choice_eq_map] at h
      obtain ⟨ops, hops, rfl⟩ := exists_of_map_eq_ok h
      rw [Op.nullable_choices, Op.anyNullable_iff]
      obtain ⟨op, hop, hlink⟩ := exists_of_forall₂ (linkAll_eq_ok hops) hmem
      exact ⟨op, hop, ih hlink⟩
  | star | optional | ahead | notAhead =>
      obtain ⟨op, hop, rfl⟩ := exists_of_map_eq_ok h
      rfl
  | plus _ ih =>
      obtain ⟨op, hop, rfl⟩ := exists_of_map_eq_ok h
      apply ih hop
  | @rule name body hbody _ ih =>
      cases linksTo_of_link h with
      | test htest => cases htest
      | rule hid =>
          obtain ⟨op, hop, hknown⟩ := hrule name _ body hid hbody
          apply hknown (ih hop)

/-! ### Repetitions -/

/-- An expression repeats something nullable when it is a repetition of it or a part of it does. -/
theorem repeatsNullable_iff :
  RepeatsNullable bodyOf e ↔
    (∃ body, (e = .star body ∨ e = .plus body) ∧ Nullable bodyOf body)
      ∨ ∃ part ∈ e.parts, RepeatsNullable bodyOf part
  := by
  constructor
  · intro h
    cases h with
    | star h => exact .inl ⟨_, .inl rfl, h⟩
    | plus h => exact .inl ⟨_, .inr rfl, h⟩
    | inside hpart h => exact .inr ⟨_, hpart, h⟩
  · rintro (⟨body, rfl | rfl, h⟩ | ⟨part, hpart, h⟩)
    · exact .star h
    · exact .plus h
    · exact .inside hpart h

/-- Of linked parts one repeats something nullable when one of the parts does. -/
theorem anyRepeatsNullable_iff_of_forall₂
    (hparts : List.Forall₂ (fun item op => item.link ruleOf = .ok op) items ops)
    (h : ∀ item ∈ items, ∀ op, item.link ruleOf = .ok op →
      (op.repeatsNullable known = true ↔ RepeatsNullable bodyOf item)) :
  Op.anyRepeatsNullable known ops = true ↔ ∃ item ∈ items, RepeatsNullable bodyOf item
  := by
  rw [Op.anyRepeatsNullable_iff]
  constructor
  · rintro ⟨op, hop, hrepeats⟩
    obtain ⟨item, hitem, hlink⟩ := exists_of_forall₂ hparts.flip hop
    exact ⟨item, hitem, (h item hitem op hlink).mp hrepeats⟩
  · rintro ⟨item, hitem, hrepeats⟩
    obtain ⟨op, hop, hlink⟩ := exists_of_forall₂ hparts hitem
    exact ⟨op, hop, (h item hitem op hlink).mpr hrepeats⟩

/-- A linked expression repeats something nullable exactly when the expression does. -/
theorem repeatsNullable_link_iff
    (hnullable : ∀ e op, link ruleOf e = .ok op → (op.nullable known = true ↔ Nullable bodyOf e))
    (h : e.link ruleOf = .ok op) :
  op.repeatsNullable known = true ↔ RepeatsNullable bodyOf e
  := by
  induction e using parts_induction generalizing op with
  | h e ih =>
      rw [repeatsNullable_iff]
      cases linksTo_of_link h with
      | test htest _ =>
          cases e with
          | literal | char | any | endOfInput => simp [Op.repeatsNullable, parts]
          | seq | choice | star | plus | optional | ahead | notAhead | rule => cases htest
      | seq hops =>
          rw [Op.repeatsNullable_sequence,
            anyRepeatsNullable_iff_of_forall₂ hops fun item hitem _ => ih item hitem]
          simp [parts]
      | choice hops =>
          rw [Op.repeatsNullable_choices, anyRepeatsNullable_iff_of_forall₂ hops fun item hitem _ =>
            ih item hitem]
          simp [parts]
      | star hbody | plus hbody =>
          simp [Op.repeatsNullable, parts, hnullable _ _ hbody, ih _ (by simp [parts]) hbody]
      | optional hbody | ahead hbody | notAhead hbody =>
          simp [Op.repeatsNullable, parts, ih _ (by simp [parts]) hbody]
      | rule _ => simp [Op.repeatsNullable, parts]

/-! ### Leading calls -/

variable {name : String} {id : RuleId}

theorem leads_rule_iff {callee : String} :
  Leads bodyOf (.rule callee) name ↔ name = callee
  := by
  constructor
  · intro h
    cases h with
    | rule => rfl
    | operand hparts => cases hparts
  · rintro rfl
    exact .rule

theorem not_leads_of_terminal {test : Test} (htest : e.test? = some test) :
  ¬ Leads bodyOf e name
  := by
  intro h
  cases h with
  | rule | seq | choice => cases htest
  | operand hparts =>
      cases e with
      | literal | char | any | endOfInput => cases hparts
      | seq | choice | star | plus | optional | ahead | notAhead | rule => cases htest

theorem leads_operand_iff {body : Expr} (hparts : e.parts = [body]) :
  Leads bodyOf e name ↔ Leads bodyOf body name
  := by
  constructor
  · intro h
    cases h with
    | rule => cases hparts
    | @seq before after item _ hbefore h =>
        obtain ⟨-, hitem⟩ | ⟨-, hnil⟩ := List.append_eq_singleton_iff.mp hparts
        · obtain ⟨rfl, -⟩ := List.cons.inj hitem
          apply h
        · cases hnil
    | @choice alternatives item _ hmem h =>
        obtain rfl : alternatives = [body] := hparts
        obtain rfl := List.mem_singleton.mp hmem
        apply h
    | operand hparts' h =>
        obtain ⟨rfl, -⟩ := List.cons.inj (hparts'.symm.trans hparts)
        apply h
  · apply Leads.operand hparts

theorem not_leads_seq_nil :
  ¬ Leads bodyOf (.seq []) name
  := by
  generalize hseq : Expr.seq [] = e
  intro h
  cases h with
  | seq => simp at hseq
  | operand hparts =>
      subst hseq
      cases hparts
  | rule | choice => cases hseq

/-- A sequence leads to what its first item does and, if that is nullable, to what the others do. -/
theorem leads_seq_cons_iff {item : Expr} :
  Leads bodyOf (.seq (item :: items)) name ↔
    Leads bodyOf item name ∨ Nullable bodyOf item ∧ Leads bodyOf (.seq items) name
  := by
  constructor
  · generalize hseq : Expr.seq (item :: items) = e
    intro h
    cases h with
    | @seq before after e name hbefore h =>
        cases before with
        | nil =>
            obtain ⟨rfl, -⟩ := List.cons.inj (Expr.seq.inj hseq)
            exact .inl h
        | cons first before =>
            obtain ⟨rfl, rfl⟩ := List.cons.inj (Expr.seq.inj hseq)
            obtain ⟨hfirst, hbefore⟩ := List.forall_mem_cons.mp hbefore
            exact .inr ⟨hfirst, .seq hbefore h⟩
    | operand hparts h =>
        subst hseq
        obtain ⟨rfl, -⟩ := List.cons.inj hparts
        exact .inl h
    | rule | choice => cases hseq
  · rintro (h | ⟨hitem, h⟩)
    · exact @Leads.seq bodyOf [] items item name (by simp) h
    · generalize hseq : Expr.seq items = e at h
      cases h with
      | @seq before after e name hbefore h =>
          obtain rfl := Expr.seq.inj hseq
          rw [← List.cons_append]
          exact .seq (List.forall_mem_cons.mpr ⟨hitem, hbefore⟩) h
      | @operand _ body _ hparts h =>
          subst hseq
          obtain rfl : items = [body] := hparts
          exact @Leads.seq bodyOf [item] [] body name (by simpa using hitem) h
      | rule | choice => cases hseq

theorem leads_choice_iff :
  Leads bodyOf (.choice items) name ↔ ∃ item ∈ items, Leads bodyOf item name
  := by
  constructor
  · intro h
    cases h with
    | choice hmem h => exact ⟨_, hmem, h⟩
    | operand hparts h =>
        obtain rfl : items = [_] := hparts
        exact ⟨_, List.mem_singleton_self _, h⟩
  · rintro ⟨item, hmem, h⟩
    exact .choice hmem h

/-- The leading calls of linked items are the rules to which the sequence of the items leads. -/
theorem mem_seqLeadingCalls_iff
    (hnullable : ∀ e op, link ruleOf e = .ok op → (op.nullable known = true ↔ Nullable bodyOf e))
    (hitems : List.Forall₂ (fun item op => item.link ruleOf = .ok op) items ops)
    (h : ∀ item ∈ items, ∀ op, item.link ruleOf = .ok op →
      (id ∈ op.leadingCalls known ↔ ∃ name, Leads bodyOf item name ∧ ruleOf name = some id)) :
  id ∈ Op.seqLeadingCalls known ops ↔ ∃ name, Leads bodyOf (.seq items) name ∧ ruleOf name = some id
  := by
  induction hitems with
  | nil => simp [Op.seqLeadingCalls, not_leads_seq_nil]
  | @cons item op items ops hop _ ih =>
      obtain ⟨hitem, hitems⟩ := List.forall_mem_cons.mp h
      rw [Op.seqLeadingCalls, List.mem_append, hitem op hop]
      simp only [leads_seq_cons_iff, or_and_right, exists_or, ← hnullable item op hop, and_assoc,
        exists_and_left, ← ih hitems]
      split
      · rename_i hnull
        simp [hnull]
      · rename_i hnull
        simp [hnull]

/-- The leading calls of a linked expression are the rules to which the expression leads. -/
theorem mem_leadingCalls_link_iff
    (hnullable : ∀ e op, link ruleOf e = .ok op → (op.nullable known = true ↔ Nullable bodyOf e))
    (h : e.link ruleOf = .ok op) :
  id ∈ op.leadingCalls known ↔ ∃ name, Leads bodyOf e name ∧ ruleOf name = some id
  := by
  induction e using parts_induction generalizing op with
  | h e ih =>
      cases linksTo_of_link h with
      | test htest _ => simp [Op.leadingCalls, not_leads_of_terminal htest]
      | seq hops =>
          rw [Op.leadingCalls_sequence]
          apply mem_seqLeadingCalls_iff hnullable hops fun item hitem _ => ih item hitem
      | choice hops =>
          rw [Op.leadingCalls_choices, Op.mem_allLeadingCalls]
          constructor
          · rintro ⟨op, hop, hid⟩
            obtain ⟨item, hitem, hlink⟩ := exists_of_forall₂ hops.flip hop
            obtain ⟨name, hname, hid⟩ := (ih item hitem hlink).mp hid
            exact ⟨name, .choice hitem hname, hid⟩
          · rintro ⟨name, hname, hid⟩
            obtain ⟨item, hitem, hname⟩ := leads_choice_iff.mp hname
            obtain ⟨op, hop, hlink⟩ := exists_of_forall₂ hops hitem
            exact ⟨op, hop, (ih item hitem hlink).mpr ⟨name, hname, hid⟩⟩
      | star hbody | plus hbody | optional hbody | ahead hbody | notAhead hbody =>
          rw [Op.leadingCalls, ih _ (by simp [parts]) hbody]
          apply exists_congr
          intro name
          apply and_congr_left'
          exact (leads_operand_iff rfl).symm
      | rule hid => simp [Op.leadingCalls, leads_rule_iff, hid, eq_comm]

/-! ### References -/

theorem refsAll_eq_flatMap :
  refsAll items = items.flatMap refs
  := by
  induction items with
  | nil => rfl
  | cons item items ih => rw [refsAll, ih, List.flatMap_cons]

theorem refs_eq_flatMap (h : ∀ name, e ≠ .rule name) :
  e.refs = e.parts.flatMap refs
  := by
  cases e with
  | literal | char | any | endOfInput => rfl
  | seq | choice => apply refsAll_eq_flatMap
  | star | plus | optional | ahead | notAhead => simp [refs, parts]
  | rule name => exact absurd rfl (h name)

/-- An expression leads only to rules that it refers to. -/
theorem Leads.mem_refs (h : Leads bodyOf e name) :
  name ∈ e.refs
  := by
  induction h with
  | rule => apply List.mem_singleton_self
  | seq _ _ ih =>
      rw [refs_eq_flatMap (by simp)]
      simp [parts, ih]
  | choice hmem _ ih =>
      rw [refs_eq_flatMap (by simp), List.mem_flatMap]
      exact ⟨_, hmem, ih⟩
  | operand hparts _ ih =>
      rw [refs_eq_flatMap, hparts, List.flatMap_singleton]
      · apply ih
      · rintro name rfl
        cases hparts

/-- The references of an expression that can be linked are all defined. -/
theorem exists_of_mem_refs (h : e.link ruleOf = .ok op) (hname : name ∈ e.refs) :
  ∃ id, ruleOf name = some id
  := by
  induction e using parts_induction generalizing op with
  | h e ih =>
      cases linksTo_of_link h with
      | test htest _ =>
          cases e with
          | literal | char | any | endOfInput => cases hname
          | seq | choice | star | plus | optional | ahead | notAhead | rule => cases htest
      | seq hops | choice hops =>
          rw [refs_eq_flatMap (by simp), List.mem_flatMap] at hname
          obtain ⟨item, hitem, hname⟩ := hname
          obtain ⟨op, -, hlink⟩ := exists_of_forall₂ hops hitem
          apply ih item hitem hlink hname
      | star hbody | plus hbody | optional hbody | ahead hbody | notAhead hbody =>
          apply ih _ (by simp [parts]) hbody hname
      | rule hid =>
          obtain rfl := List.mem_singleton.mp hname
          exact ⟨_, hid⟩

/-- Where several expressions cannot be linked, the first that cannot is reported. -/
theorem linkAll_eq_error (h : linkAll ruleOf items = .error name) :
  ∃ before item after, items = before ++ item :: after
    ∧ (∀ x ∈ before, ∃ op, x.link ruleOf = .ok op) ∧ item.link ruleOf = .error name
  := by
  induction items with
  | nil => cases h
  | cons item items ih =>
      rw [linkAll] at h
      split at h
      · rename_i hitem
        obtain rfl := Except.error.inj h
        exact ⟨[], item, items, rfl, by simp, hitem⟩
      · rename_i op hop
        obtain ⟨before, x, after, rfl, hbefore, hx⟩ := ih (eq_error_of_map h)
        exact ⟨item :: before, x, after, rfl, List.forall_mem_cons.mpr ⟨⟨op, hop⟩, hbefore⟩, hx⟩

/-- The failure to link several expressions is about the leftmost undefined reference in them. -/
theorem first_of_linkAll_eq_error
    (h : ∀ item ∈ items, item.link ruleOf = .error name →
      First (ruleOf · = none) item.refs name)
    (hitems : linkAll ruleOf items = .error name) :
  First (ruleOf · = none) (items.flatMap refs) name
  := by
  obtain ⟨before, item, after, rfl, hbefore, hitem⟩ := linkAll_eq_error hitems
  apply First.flatMap _ (h item (by simp) hitem)
  intro x hx name hname
  obtain ⟨op, hop⟩ := hbefore x hx
  obtain ⟨id, hid⟩ := exists_of_mem_refs hop hname
  simp [hid]

/-- The failure to link an expression is about the leftmost undefined reference in it. -/
theorem first_of_link_eq_error (h : e.link ruleOf = .error name) :
  First (ruleOf · = none) e.refs name
  := by
  induction e using parts_induction with
  | h e ih =>
      cases e with
      | literal | char | any | endOfInput => cases h
      | seq items =>
          rw [link_seq_eq_map] at h
          rw [refs_eq_flatMap (by simp)]
          apply first_of_linkAll_eq_error ih (eq_error_of_map h)
      | choice items =>
          rw [link_choice_eq_map] at h
          rw [refs_eq_flatMap (by simp)]
          apply first_of_linkAll_eq_error ih (eq_error_of_map h)
      | star body | plus body | optional body | ahead body | notAhead body =>
          apply ih body (List.mem_singleton_self body) (eq_error_of_map h)
      | rule callee =>
          rw [link] at h
          split at h
          · cases h
          · rename_i hnone
            obtain rfl := Except.error.inj h
            exact ⟨[], [], rfl, hnone, by simp⟩

end Expr

end ClassTranscript.Peg
