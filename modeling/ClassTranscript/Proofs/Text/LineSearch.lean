import ClassTranscript.Text.Lines
import Mathlib.Data.List.GetD

/-!
# Searching line starts

A search halves an ascending list until one entry is left, behind which all are greater
(`LineTable.narrow_last`). So it finds an entry that is there (`LineTable.search_ok`), and fails
with the index that parts the smaller entries from the greater ones (`LineTable.search_error`). The
entries up to a number are then the first ones, as many as that index says
(`LineTable.filter_le_eq_take`).
-/

namespace ClassTranscript

namespace LineTable

variable {entries : List Nat} {x i : Nat}

/-! ### The search -/

theorem getD_lt_getD (h : entries.Pairwise (· < ·)) {i j : Nat} (hij : i < j)
    (hj : j < entries.length) :
  entries.getD i 0 < entries.getD j 0
  := by
  rw [List.getD_eq_getElem _ _ (Nat.lt_trans hij hj), List.getD_eq_getElem _ _ hj]
  apply List.pairwise_iff_getElem.mp h
  apply hij

/-- The entry that is left of a piece, behind which all entries are greater than `x`, has only
greater ones behind it, and is not greater itself unless it is the first of the list. -/
theorem narrow_last (h : entries.Pairwise (· < ·)) {base size : Nat} (hsize : 0 < size)
    (hfits : base + size ≤ entries.length) (hbase : base = 0 ∨ entries.getD base 0 ≤ x)
    (hbehind : ∀ j, base + size ≤ j → j < entries.length → x < entries.getD j 0) :
  narrow entries x base size < entries.length
    ∧ (narrow entries x base size = 0 ∨ entries.getD (narrow entries x base size) 0 ≤ x)
    ∧ ∀ j, narrow entries x base size < j → j < entries.length → x < entries.getD j 0
  := by
  fun_induction narrow entries x base size with
  | case1 base size hlong middle hle ih =>
      have hmiddle : middle = base + size / 2 := rfl
      apply ih (by omega) (by omega) (.inr hle)
      intro j hj
      apply hbehind j
      omega
  | case2 base size hlong middle hgt ih =>
      have hmiddle : middle = base + size / 2 := rfl
      apply ih (by omega) (by omega) hbase
      intro j hj hlength
      rcases Nat.eq_or_lt_of_le (show middle ≤ j by omega) with rfl | hlt
      · apply Nat.lt_of_not_le hgt
      · apply Nat.lt_trans (Nat.lt_of_not_le hgt) (getD_lt_getD h hlt hlength)
  | case3 base size hshort =>
      refine ⟨by omega, hbase, ?_⟩
      intro j hj
      apply hbehind j
      omega

/-- Halving a list leads to an entry behind which all are greater than `x`, and that is not greater
itself unless it is the first. -/
theorem narrow_whole (h : entries.Pairwise (· < ·)) (hne : entries.isEmpty = false) (x : Nat) :
  narrow entries x 0 entries.length < entries.length
    ∧ (narrow entries x 0 entries.length = 0
      ∨ entries.getD (narrow entries x 0 entries.length) 0 ≤ x)
    ∧ ∀ j, narrow entries x 0 entries.length < j → j < entries.length → x < entries.getD j 0
  := by
  have hlength : 0 < entries.length := by
    rwa [List.length_pos_iff, ← List.isEmpty_eq_false_iff]
  apply narrow_last h hlength (Nat.le_of_eq (Nat.zero_add _)) (.inl rfl)
  omega

/-- What a search finds is there. -/
theorem search_ok (h : entries.Pairwise (· < ·)) (hsearch : search entries x = .ok i) :
  entries[i]? = some x
  := by
  unfold search at hsearch
  split at hsearch
  · cases hsearch
  · rename_i hne
    obtain ⟨hbound, -, -⟩ := narrow_whole h (eq_false_of_ne_true hne) x
    generalize narrow entries x 0 entries.length = index at *
    dsimp only at hsearch
    split at hsearch
    · rename_i hentry
      cases hsearch
      rw [← hentry, List.getD_eq_getElem _ _ hbound, List.getElem?_eq_getElem hbound]
    · cases hsearch

/-- Where a search fails all entries before the index are smaller and all others are greater. -/
theorem search_error (h : entries.Pairwise (· < ·)) (hsearch : search entries x = .error i) :
  i ≤ entries.length
    ∧ ∀ j, j < entries.length → (j < i → entries.getD j 0 < x) ∧ (i ≤ j → x < entries.getD j 0)
  := by
  unfold search at hsearch
  split at hsearch
  · rename_i hnil
    cases hsearch
    rw [List.isEmpty_iff.mp hnil]
    simp
  · rename_i hne
    obtain ⟨hbound, hle, hbehind⟩ := narrow_whole h (eq_false_of_ne_true hne) x
    generalize narrow entries x 0 entries.length = index at *
    dsimp only at hsearch
    split at hsearch
    · cases hsearch
    · rename_i hentry
      cases hsearch
      refine ⟨by split <;> omega, ?_⟩
      intro j hj
      split
      · rename_i hlt
        refine ⟨fun hji => ?_, fun hij => hbehind j (by omega) hj⟩
        rcases Nat.eq_or_lt_of_le (Nat.le_of_lt_succ hji) with rfl | hless
        · apply hlt
        · apply Nat.lt_trans (getD_lt_getD h hless hbound) hlt
      · rename_i hnot
        refine ⟨fun hji => ?_, fun hij => ?_⟩
        · have : index = 0 := by omega
          omega
        · rcases Nat.eq_or_lt_of_le hij with rfl | hless
          · omega
          · apply hbehind j hless hj

/-! ### Entries up to a number -/

/-- The entries that are at most `x` are the first ones of an ascending list, as many as there are
before the first greater one. -/
theorem filter_le_eq_take {k : Nat}
    (h : ∀ j, j < entries.length →
      (j < k → entries.getD j 0 ≤ x) ∧ (k ≤ j → x < entries.getD j 0)) :
  entries.filter (· ≤ x) = entries.take k
  := by
  rw [← List.take_append_drop k entries, List.filter_append, List.filter_eq_self.mpr,
    List.filter_eq_nil_iff.mpr, List.append_nil, List.take_append_drop]
  · intro y hy
    obtain ⟨j, hj, rfl⟩ := List.mem_drop_iff_getElem.mp hy
    have := (h (k + j) (by omega)).2 (by omega)
    rw [List.getD_eq_getElem _ _ (by omega)] at this
    simpa using this
  · intro y hy
    obtain ⟨j, hj, rfl⟩ := List.mem_take_iff_getElem.mp hy
    have := (h j (by omega)).1 (by omega)
    rw [List.getD_eq_getElem _ _ (by omega)] at this
    simpa using this

theorem filter_le_filter_le {m n : Nat} (hle : m ≤ n) (entries : List Nat) :
  (entries.filter (· ≤ n)).filter (· ≤ m) = entries.filter (· ≤ m)
  := by
  rw [List.filter_filter]
  apply List.filter_congr
  intro x _
  rw [Bool.eq_iff_iff, Bool.and_eq_true, decide_eq_true_eq, decide_eq_true_eq]
  omega

theorem length_filter_le_le {m n : Nat} (hle : m ≤ n) (entries : List Nat) :
  (entries.filter (· ≤ m)).length ≤ (entries.filter (· ≤ n)).length
  := by
  rw [← filter_le_filter_le hle]
  apply List.length_filter_le

/-- An entry between two bounds makes a difference to how many entries there are up to them. -/
theorem length_filter_le_lt {m n : Nat} (hx : x ∈ entries) (hm : m < x) (hn : x ≤ n) :
  (entries.filter (· ≤ m)).length < (entries.filter (· ≤ n)).length
  := by
  rw [← filter_le_filter_le (Nat.le_trans (Nat.le_of_lt hm) hn)]
  apply List.length_filter_lt_length_iff_exists.mpr
  refine ⟨x, List.mem_filter.mpr ⟨hx, decide_eq_true hn⟩, ?_⟩
  rw [decide_eq_true_eq]
  omega

end LineTable

end ClassTranscript
