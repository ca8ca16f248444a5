import ClassTranscript.Peg.Nullable
import Mathlib.Data.List.Forall2

/-!
# The nullable rules are the least solution of their equations

A pass over the rules only adds flags, so as many passes as there are rules come to one that adds
none. Then a rule is flagged exactly when its body is nullable under the flags
(`flagged_nullableRules`), and whatever holds of a rule whose body is nullable under rules of which
it holds is true of all flagged rules (`nullableRules_induction`).
-/

namespace ClassTranscript.Peg

namespace Op

variable {known known' : RuleId → Bool}

mutual

/-- What is nullable stays so when more rules are. -/
theorem nullable_mono (h : ∀ id, known id = true → known' id = true) (op : Op)
    (hop : op.nullable known = true) :
  op.nullable known' = true
  := by
  match op with
  | .test _ _ => apply hop
  | .seq items => apply allNullable_mono h items hop
  | .choice alternatives => apply anyNullable_mono h alternatives hop
  | .star _ => rfl
  | .plus body => apply nullable_mono h body hop
  | .optional _ => rfl
  | .ahead _ => rfl
  | .notAhead _ => rfl
  | .call id => apply h id hop

theorem allNullable_mono (h : ∀ id, known id = true → known' id = true) (ops : List Op)
    (hops : allNullable known ops = true) :
  allNullable known' ops = true
  := by
  match ops with
  | [] => rfl
  | op :: ops =>
      obtain ⟨hop, hops⟩ := Bool.and_eq_true_iff.mp hops
      apply Bool.and_eq_true_iff.mpr ⟨nullable_mono h op hop, allNullable_mono h ops hops⟩

theorem anyNullable_mono (h : ∀ id, known id = true → known' id = true) (ops : List Op)
    (hops : anyNullable known ops = true) :
  anyNullable known' ops = true
  := by
  match ops with
  | [] => apply hops
  | op :: ops =>
      apply Bool.or_eq_true_iff.mpr
      obtain hop | hops := Bool.or_eq_true_iff.mp hops
      · exact .inl (nullable_mono h op hop)
      · exact .inr (anyNullable_mono h ops hops)

end

end Op

/-! ### Flags -/

/-- Flags of as many rules, where those set in the first are set in the second. -/
abbrev FlagsLe : List Bool → List Bool → Prop :=
  List.Forall₂ fun a b => a = true → b = true

namespace FlagsLe

variable {flags flags' flags'' : List Bool}

theorem refl (flags : List Bool) :
  FlagsLe flags flags
  := List.forall₂_same.mpr fun _ _ => id

theorem trans (h : FlagsLe flags flags') (h' : FlagsLe flags' flags'') :
  FlagsLe flags flags''
  := by
  induction h generalizing flags'' with
  | nil =>
      cases h' with
      | nil => exact .nil
  | cons hhead _ ih =>
      cases h' with
      | cons hhead' htail' => exact .cons (hhead' ∘ hhead) (ih htail')

theorem set (flags : List Bool) (n : Nat) :
  FlagsLe flags (flags.set n true)
  := by
  induction flags generalizing n with
  | nil => exact .nil
  | cons flag flags ih =>
      cases n with
      | zero => exact .cons (fun _ => rfl) (refl flags)
      | succ n => exact .cons (fun h => h) (ih n)

theorem count_le (h : FlagsLe flags flags') :
  flags.count true ≤ flags'.count true
  := by
  induction h with
  | nil => apply Nat.le_refl _
  | @cons a b _ _ hhead _ ih =>
      cases a with
      | false =>
          rw [List.count_cons_of_ne (by simp)]
          apply Nat.le_trans ih List.count_le_count_cons
      | true =>
          rw [hhead rfl, List.count_cons_self, List.count_cons_self]
          apply Nat.succ_le_succ ih

/-- Where the flags differ there are more of the second. -/
theorem count_lt (h : FlagsLe flags flags') (hne : flags ≠ flags') :
  flags.count true < flags'.count true
  := by
  induction h with
  | nil => exact absurd rfl hne
  | @cons a b as bs hhead htail ih =>
      have hle := count_le htail
      cases a with
      | true =>
          obtain rfl := hhead rfl
          rw [List.count_cons_self, List.count_cons_self]
          apply Nat.succ_lt_succ (ih fun heq => hne (by rw [heq]))
      | false =>
          cases b with
          | true =>
              rw [List.count_cons_self, List.count_cons_of_ne (by simp)]
              apply Nat.lt_succ_of_le hle
          | false =>
              rw [List.count_cons_of_ne (by simp), List.count_cons_of_ne (by simp)]
              apply ih fun heq => hne (by rw [heq])

theorem antisymm (h : FlagsLe flags flags') (h' : FlagsLe flags' flags) :
  flags = flags'
  := by
  by_contra hne
  apply Nat.not_lt_of_le h'.count_le (h.count_lt hne)

end FlagsLe

theorem flagged_set {flags : List Bool} {n : Nat} (hid : n < flags.length) (i : Nat) :
  flagged (flags.set n true) i = true ↔ i = n ∨ flagged flags i = true
  := by
  unfold flagged
  rw [List.getD_eq_getElem?_getD, List.getD_eq_getElem?_getD, List.getElem?_set]
  split
  · rename_i heq
    obtain rfl := heq
    simp [hid]
  · rename_i hne
    simp [Ne.symm hne]

/-! ### Passes -/

/-- A pass only adds flags. -/
theorem sweepNullable_le (n : Nat) (bodies : List Op) (flags : List Bool) :
  FlagsLe flags (sweepNullable n bodies flags)
  := by
  induction bodies generalizing n flags with
  | nil => exact .refl flags
  | cons body bodies ih =>
      rw [sweepNullable]
      split
      · apply (FlagsLe.set flags n).trans (ih _ _)
      · apply ih

/-- A pass that adds nothing has found the flag of every rule whose body is nullable. -/
theorem flagged_of_sweepNullable_eq {n : Nat} {bodies : List Op} {flags : List Bool}
    (h : sweepNullable n bodies flags = flags) (hlength : n + bodies.length ≤ flags.length)
    {i : Nat} {op : Op} (hop : bodies[i]? = some op) (hnullable : op.nullable (flagged flags)) :
  flagged flags (n + i) = true
  := by
  induction bodies generalizing n i with
  | nil => simp at hop
  | cons body bodies ih =>
      rw [List.length_cons] at hlength
      rw [sweepNullable] at h
      split at h
      · -- the pass would have set the flag of the rule
        rename_i hset
        have heq : flags.set n true = flags := by
          apply FlagsLe.antisymm _ (.set flags n)
          have hle := sweepNullable_le (n + 1) bodies (flags.set n true)
          rwa [h] at hle
        have hid := (flagged_set (show n < flags.length by omega) n).mpr (.inl rfl)
        rw [heq] at hid
        simp [hid] at hset
      · rename_i hunset
        cases i with
        | zero =>
            obtain rfl := Option.some.inj hop
            simpa [hnullable] using hunset
        | succ i =>
            have hrest := ih h (by omega) hop
            rwa [Nat.add_right_comm] at hrest

/-- What holds of the flagged rules holds of those that a pass flags, if it holds of every rule
whose body is nullable under rules of which it holds. -/
theorem sweepNullable_induction {P : RuleId → Prop} {n : Nat} {bodies : List Op}
    {flags : List Bool} (hflags : ∀ i, flagged flags i = true → P i)
    (hlength : n + bodies.length ≤ flags.length)
    (h : ∀ (i : Nat) (op : Op) (known : RuleId → Bool), bodies[i]? = some op →
      (∀ j, known j = true → P j) → op.nullable known = true → P (n + i)) (i : Nat)
    (hi : flagged (sweepNullable n bodies flags) i = true) :
  P i
  := by
  induction bodies generalizing n flags with
  | nil => apply hflags i hi
  | cons body bodies ih =>
      rw [List.length_cons] at hlength
      have hnext (i : Nat) (op : Op) (known : RuleId → Bool) (hop : bodies[i]? = some op)
          (hknown : ∀ j, known j = true → P j) (hnullable : op.nullable known = true) :
          P (n + 1 + i) := by
        rw [Nat.add_right_comm]
        apply h (i + 1) op known hop hknown hnullable
      rw [sweepNullable] at hi
      split at hi
      · rename_i hset
        apply ih _ (by rw [List.length_set]; omega) hnext hi
        intro j hj
        obtain rfl | hj := (flagged_set (by omega) j).mp hj
        · apply h 0 body (flagged flags) rfl hflags (Bool.and_eq_true_iff.mp hset).2
        · apply hflags j hj
      · apply ih hflags (by omega) hnext hi

/-! ### Solutions -/

theorem length_settleNullable (bodies : List Op) (rounds : Nat) (flags : List Bool) :
  (settleNullable bodies rounds flags).length = flags.length
  := by
  induction rounds generalizing flags with
  | zero => rfl
  | succ rounds ih =>
      simp only [settleNullable]
      split
      · rfl
      · rw [ih, (sweepNullable_le 0 bodies flags).length_eq]

theorem length_nullableRules (bodies : List Op) :
  (nullableRules bodies).length = bodies.length
  := by
  rw [nullableRules, length_settleNullable, List.length_replicate]

/-- Passes come to one that adds nothing when there are enough of them. -/
theorem sweepNullable_settleNullable (bodies : List Op) (rounds : Nat) (flags : List Bool)
    (henough : flags.length ≤ rounds + flags.count true) :
  sweepNullable 0 bodies (settleNullable bodies rounds flags) = settleNullable bodies rounds flags
  := by
  induction rounds generalizing flags with
  | zero =>
      rw [settleNullable]
      by_contra hne
      have hle := sweepNullable_le 0 bodies flags
      have hlt := hle.count_lt (Ne.symm hne)
      have hcount := List.count_le_length (a := true) (l := sweepNullable 0 bodies flags)
      rw [← hle.length_eq] at hcount
      omega
  | succ rounds ih =>
      simp only [settleNullable]
      split
      · assumption
      · rename_i hne
        have hle := sweepNullable_le 0 bodies flags
        have hlt := hle.count_lt (Ne.symm hne)
        apply ih
        rw [← hle.length_eq]
        omega

theorem settleNullable_induction {P : RuleId → Prop} {bodies : List Op}
    (h : ∀ (id : RuleId) (op : Op) (known : RuleId → Bool), bodies[id]? = some op →
      (∀ j, known j = true → P j) → op.nullable known = true → P id) (rounds : Nat)
    (flags : List Bool) (hlength : bodies.length ≤ flags.length)
    (hflags : ∀ i, flagged flags i = true → P i) :
  ∀ i, flagged (settleNullable bodies rounds flags) i = true → P i
  := by
  induction rounds generalizing flags with
  | zero => apply hflags
  | succ rounds ih =>
      simp only [settleNullable]
      split
      · apply hflags
      · apply ih
        · rw [← (sweepNullable_le 0 bodies flags).length_eq]
          apply hlength
        · apply sweepNullable_induction hflags (by rwa [Nat.zero_add])
          intro i op known hop hknown hnullable
          rw [Nat.zero_add]
          apply h i op known hop hknown hnullable

/-- The flagged rules are the least: what holds of every rule whose body is nullable under rules of
which it holds, holds of each of them. -/
theorem nullableRules_induction {P : RuleId → Prop} {bodies : List Op}
    (h : ∀ (id : RuleId) (op : Op) (known : RuleId → Bool), bodies[id]? = some op →
      (∀ j, known j = true → P j) → op.nullable known = true → P id) {id : RuleId}
    (hid : flagged (nullableRules bodies) id = true) :
  P id
  := by
  apply settleNullable_induction h bodies.length _ _ _ id hid
  · apply Nat.le_of_eq List.length_replicate.symm
  · intro i hi
    rw [flagged, List.getD_eq_getElem?_getD, List.getElem?_replicate] at hi
    split at hi <;> cases hi

/-- A rule is flagged when its body is nullable under the flags. -/
theorem flagged_nullableRules {bodies : List Op} {id : RuleId} {op : Op}
    (h : bodies[id]? = some op) :
  flagged (nullableRules bodies) id = op.nullable (flagged (nullableRules bodies))
  := by
  have hsettled : sweepNullable 0 bodies (nullableRules bodies) = nullableRules bodies := by
    apply sweepNullable_settleNullable
    rw [List.length_replicate]
    apply Nat.le_add_right
  have hclosed {id : RuleId} {op : Op} (hop : bodies[id]? = some op)
      (hnullable : op.nullable (flagged (nullableRules bodies)) = true) :
      flagged (nullableRules bodies) id = true := by
    rw [← Nat.zero_add id]
    apply flagged_of_sweepNullable_eq hsettled _ hop hnullable
    apply Nat.le_of_eq
    rw [length_nullableRules, Nat.zero_add]
  rw [Bool.eq_iff_iff]
  constructor
  · intro hid
    have hbody : ∃ op, bodies[id]? = some op
        ∧ op.nullable (flagged (nullableRules bodies)) = true := by
      apply nullableRules_induction (P := fun id => ∃ op, bodies[id]? = some op
        ∧ op.nullable (flagged (nullableRules bodies)) = true) _ hid
      intro i op known hop hknown hnullable
      refine ⟨op, hop, op.nullable_mono ?_ hnullable⟩
      intro j hj
      obtain ⟨op', hop', hnullable'⟩ := hknown j hj
      apply hclosed hop' hnullable'
    obtain ⟨op', hop', hnullable⟩ := hbody
    obtain rfl := Option.some.inj (h.symm.trans hop')
    apply hnullable
  · apply hclosed h

end ClassTranscript.Peg
