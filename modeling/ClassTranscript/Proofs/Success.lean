import Mathlib.Data.List.Forall2

/-!
# Computations that succeed

What the parts of a computation that may fail come to when the whole of it succeeds.
-/

namespace ClassTranscript

variable {ε α β : Type} {x : Except ε α} {b : β}

/-- When a computation followed by another succeeds, both do. -/
theorem exists_of_bind_eq_ok {f : α → Except ε β} (h : x >>= f = .ok b) :
  ∃ a, x = .ok a ∧ f a = .ok b
  := by
  cases x with
  | error _ => cases h
  | ok a => exact ⟨a, rfl, h⟩

/-- When a computation with its result changed succeeds, so does the computation. -/
theorem exists_of_map_eq_ok {f : α → β} (h : x.map f = .ok b) :
  ∃ a, x = .ok a ∧ b = f a
  := by
  cases x with
  | error _ => cases h
  | ok a => exact ⟨a, rfl, (Except.ok.inj h).symm⟩

/-- When a computation with its result changed fails, so does the computation. -/
theorem eq_error_of_map {f : α → β} {e : ε} (h : x.map f = .error e) :
  x = .error e
  := by
  cases x with
  | error _ =>
      obtain rfl := Except.error.inj h
      rfl
  | ok _ => cases h

/-- When a computation of each of some items succeeds, the results are those of the items. -/
theorem forall₂_of_mapM_eq_ok {f : α → Except ε β} {xs : List α} {ys : List β}
    (h : xs.mapM f = .ok ys) :
  List.Forall₂ (fun x y => f x = .ok y) xs ys
  := by
  induction xs generalizing ys with
  | nil =>
      obtain rfl := Except.ok.inj h
      exact .nil
  | cons x xs ih =>
      rw [List.mapM_cons] at h
      obtain ⟨y, hy, h⟩ := exists_of_bind_eq_ok h
      obtain ⟨ys, hys, h⟩ := exists_of_bind_eq_ok h
      obtain rfl := Except.ok.inj h
      exact .cons hy (ih hys)

end ClassTranscript
