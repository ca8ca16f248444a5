import ClassTranscript.Peg.State
import Mathlib.Data.List.Induction
import Mathlib.Data.List.Nodup
import Mathlib.Tactic.Common

/-!
# The frontier of failures

The evaluator keeps the largest offset at which a terminal failed and what the terminals that failed
there say they expected. `Frontier.add` is how it takes in one failure; `Frontier.addAll` takes in
several. A frontier `Covers` a failure that it would take in without changing. The frontier of a
list of failures holds the largest of their offsets, and each expectation at that offset once
(`Frontier.addAll_furthest`, `Frontier.mem_addAll_expected`, `Frontier.nodup_addAll`).
-/

namespace ClassTranscript.Peg

/-- A failure of a terminal: where it happened and what was expected there. -/
structure Miss where
  offset : Nat
  expectation : String
  deriving DecidableEq, Repr

/-- The largest offset of some failures, and what was expected there, the latest first. -/
structure Frontier where
  furthest : Nat := 0
  expected : List String := []
  deriving DecidableEq, Repr

namespace Frontier

/-- Takes in a failure. One further on than all before discards these, a nearer one leaves no
trace. -/
def add (f : Frontier) (m : Miss) : Frontier :=
  if m.offset < f.furthest then f
  else if f.furthest < m.offset then ⟨m.offset, [m.expectation]⟩
  else if m.expectation ∈ f.expected then f
  else ⟨f.furthest, m.expectation :: f.expected⟩

/-- Takes in failures one after the other. -/
def addAll (f : Frontier) (misses : List Miss) : Frontier :=
  misses.foldl add f

/-- The failure is nearer than the frontier, or on it and already known. -/
def Covers (f : Frontier) (m : Miss) : Prop :=
  m.offset < f.furthest ∨ m.offset = f.furthest ∧ m.expectation ∈ f.expected

@[simp]
theorem addAll_nil (f : Frontier) :
  f.addAll [] = f
  := rfl

@[simp]
theorem addAll_cons (f : Frontier) (m : Miss) (misses : List Miss) :
  f.addAll (m :: misses) = (f.add m).addAll misses
  := rfl

theorem addAll_append (f : Frontier) (ms ns : List Miss) :
  f.addAll (ms ++ ns) = (f.addAll ms).addAll ns
  := List.foldl_append

/-! ### Covered failures -/

theorem add_of_covers {f : Frontier} {m : Miss} (h : f.Covers m) :
  f.add m = f
  := by
  obtain h | ⟨h, hmem⟩ := h
  · simp only [add, if_pos h]
  · simp only [add, h, Nat.lt_irrefl, if_false, if_pos hmem]

theorem covers_add (f : Frontier) (m : Miss) :
  (f.add m).Covers m
  := by
  unfold add
  split_ifs with hnear hfar hknown
  · exact .inl hnear
  · exact .inr ⟨rfl, List.mem_singleton_self _⟩
  · exact .inr ⟨by omega, hknown⟩
  · exact .inr ⟨by simp only; omega, List.mem_cons_self⟩

/-- What a frontier covers stays covered when it takes in more. -/
theorem Covers.add {f : Frontier} {m : Miss} (h : f.Covers m) (n : Miss) :
  (f.add n).Covers m
  := by
  unfold Frontier.add
  split_ifs with hnear hfar hknown
  · apply h
  · obtain h | ⟨h, -⟩ := h
    · exact .inl (by simp only; omega)
    · exact .inl (by simp only; omega)
  · apply h
  · obtain h | ⟨h, hmem⟩ := h
    · exact .inl h
    · exact .inr ⟨h, List.mem_cons_of_mem _ hmem⟩

theorem Covers.addAll {f : Frontier} {m : Miss} (h : f.Covers m) (misses : List Miss) :
  (f.addAll misses).Covers m
  := by
  induction misses generalizing f with
  | nil => apply h
  | cons n misses ih =>
      rw [addAll_cons]
      apply ih
      apply h.add

/-- A frontier covers all that it has taken in. -/
theorem covers_addAll (f : Frontier) {misses : List Miss} {m : Miss} (h : m ∈ misses) :
  (f.addAll misses).Covers m
  := by
  induction misses generalizing f with
  | nil => simp at h
  | cons n misses ih =>
      rw [addAll_cons]
      obtain rfl | h := List.mem_cons.mp h
      · apply Covers.addAll
        apply covers_add
      · apply ih _ h

theorem addAll_of_covers {f : Frontier} {misses : List Miss} (h : ∀ m ∈ misses, f.Covers m) :
  f.addAll misses = f
  := by
  induction misses with
  | nil => rfl
  | cons n misses ih =>
      rw [addAll_cons, add_of_covers (h n List.mem_cons_self)]
      apply ih
      intro m hm
      apply h m (List.mem_cons_of_mem _ hm)

/-! ### The frontier of a list of failures -/

/-- The largest offset of some failures, zero when there are none. -/
def furthestOf (misses : List Miss) : Nat :=
  (misses.map (·.offset)).max?.getD 0

theorem furthestOf_concat (misses : List Miss) (m : Miss) :
  furthestOf (misses ++ [m]) = max (furthestOf misses) m.offset
  := by
  cases misses with
  | nil => simp [furthestOf]
  | cons n misses =>
      simp only [furthestOf, List.cons_append, List.map_cons, List.map_append, List.map_nil,
        List.max?_cons', List.foldl_append, List.foldl_cons, List.foldl_nil, Option.getD_some]

theorem offset_le_furthestOf {misses : List Miss} {m : Miss} (h : m ∈ misses) :
  m.offset ≤ furthestOf misses
  := by
  induction misses using List.reverseRecOn with
  | nil => simp at h
  | append_singleton misses n ih =>
      rw [furthestOf_concat]
      obtain h | h := List.mem_append.mp h
      · have := ih h
        omega
      · obtain rfl := List.mem_singleton.mp h
        omega

theorem addAll_furthest (misses : List Miss) :
  (addAll {} misses).furthest = furthestOf misses
  := by
  induction misses using List.reverseRecOn with
  | nil => rfl
  | append_singleton misses m ih =>
      rw [addAll_append, furthestOf_concat, ← ih]
      generalize addAll {} misses = f
      simp only [addAll_cons, addAll_nil, add]
      split_ifs with hnear hfar hknown
      · omega
      · simp only
        omega
      · omega
      · simp only
        omega

theorem nodup_addAll (misses : List Miss) :
  (addAll {} misses).expected.Nodup
  := by
  induction misses using List.reverseRecOn with
  | nil => apply List.nodup_nil
  | append_singleton misses m ih =>
      rw [addAll_append]
      generalize addAll {} misses = f at ih
      simp only [addAll_cons, addAll_nil, add]
      split_ifs with hnear hfar hknown
      · apply ih
      · apply List.nodup_singleton _
      · apply ih
      · apply List.nodup_cons.mpr ⟨hknown, ih⟩

/-- What is expected at the frontier of some failures is what those furthest on expect. -/
theorem mem_addAll_expected (misses : List Miss) (x : String) :
  x ∈ (addAll {} misses).expected ↔ ⟨furthestOf misses, x⟩ ∈ misses
  := by
  induction misses using List.reverseRecOn with
  | nil => simp
  | append_singleton misses m ih =>
      obtain ⟨offset, expectation⟩ := m
      have hmem : ∀ n ∈ misses, n.offset ≤ furthestOf misses := fun _ => offset_le_furthestOf
      have hfurthest := addAll_furthest misses
      rw [addAll_append, furthestOf_concat]
      generalize addAll {} misses = f at ih hfurthest
      simp only [addAll_cons, addAll_nil, add, hfurthest, List.mem_append, List.mem_singleton,
        Miss.mk.injEq]
      split_ifs with hnear hfar hknown
      · rw [ih, Nat.max_eq_left (by omega)]
        simp only [show furthestOf misses ≠ offset by omega, false_and, or_false]
      · rw [Nat.max_eq_right (by omega)]
        have hnew : ∀ y, (⟨offset, y⟩ : Miss) ∉ misses := by
          intro y hy
          have := hmem _ hy
          simp only at this
          omega
        simp [hnew]
      · obtain rfl : furthestOf misses = offset := by omega
        rw [ih, Nat.max_self]
        constructor
        · exact .inl
        · rintro (h | ⟨-, rfl⟩)
          · apply h
          · apply ih.mp hknown
      · obtain rfl : furthestOf misses = offset := by omega
        rw [Nat.max_self, List.mem_cons, ih]
        simp only [true_and]
        apply or_comm

end Frontier

/-! ### The frontier of an evaluation -/

namespace State

/-- The frontier that a state has recorded. -/
def frontier (s : State) : Frontier :=
  ⟨s.furthest, s.expected⟩

/-- The frontier of a state after a failure at its position. -/
def frontierAfter (s : State) (expectation : String) : Frontier :=
  if s.tracking then s.frontier.add ⟨s.here.offset, expectation⟩ else s.frontier

/-- Noting a failure changes nothing but the frontier. -/
theorem expect_eq (s : State) (expectation : String) :
  s.expect expectation
    = { s with
        furthest := (s.frontierAfter expectation).furthest
        expected := (s.frontierAfter expectation).expected }
  := by
  cases htracking : s.tracking with
  | false => simp [expect, frontierAfter, frontier, htracking]
  | true =>
      simp only [expect, frontierAfter, Frontier.add, frontier, List.contains_iff_mem, htracking,
        reduceCtorEq, false_or, if_true]
      by_cases hnear : s.here.offset < s.furthest
      · simp only [hnear, if_true]
      · by_cases hfar : s.furthest < s.here.offset
        · simp only [hnear, hfar, if_true, if_false]
        · by_cases hknown : expectation ∈ s.expected
          · simp only [hnear, hfar, hknown, if_true, if_false]
          · simp only [hnear, hfar, hknown, if_false]

end State

end ClassTranscript.Peg
