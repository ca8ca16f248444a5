import ClassTranscript.Text.Blank
import Mathlib.Data.List.Basic
import Mathlib.Data.List.TakeWhile
import Mathlib.Tactic.Common

/-!
# Trimming

White space lies between bounds (`isBlank_eq_false`). A text is `Tight` when none of it stands at
either of its ends. Trimming takes white space after a tight text away and nothing of the text itself
(`trim_append`).
-/

namespace ClassTranscript

/-- What a set holds lies in one of its intervals. -/
theorem CodePoints.exists_of_contains {s : CodePoints} {n : Nat} (h : s.contains n = true) :
  ∃ i ∈ s, i.1 ≤ n ∧ n ≤ i.2
  := by
  induction s with
  | nil => cases h
  | cons i s ih =>
      rw [contains] at h
      split at h
      · cases h
      · split at h
        · exact ⟨i, List.mem_cons_self, by omega, by omega⟩
        · obtain ⟨j, hmem, hj⟩ := ih h
          exact ⟨j, List.mem_cons_of_mem _ hmem, hj⟩

namespace Text

/-- Among the first code points only the space and the controls before it are white space. -/
theorem isBlank_eq_false {c : Char} (hlo : 0x20 < c.toNat) (hhi : c.toNat < 0x85) :
  isBlank c = false
  := by
  rw [isBlank, CodePoints.has, blank, CodePoints.contains, if_neg (by omega), if_neg (by omega),
    CodePoints.contains, if_neg (by omega), if_neg (by omega), CodePoints.contains, if_pos hhi]

/-- No white space stands at either end of the text. -/
structure Tight (cs : List Char) : Prop where
  head : ∀ c, cs.head? = some c → isBlank c = false
  last : ∀ c, cs.getLast? = some c → isBlank c = false

theorem tight_of_forall {cs : List Char} (h : ∀ c ∈ cs, isBlank c = false) :
  Tight cs
  where
  head c hc := h c (List.mem_of_head? hc)
  last c hc := h c (List.mem_of_getLast? hc)

theorem dropWhile_of_head {p : Char → Bool} {cs : List Char}
    (h : ∀ c, cs.head? = some c → p c = false) :
  cs.dropWhile p = cs
  := by
  cases cs with
  | nil => rfl
  | cons c cs => rw [List.dropWhile_cons, h c rfl, if_neg Bool.false_ne_true]

/-- What is dropped at the end of a text is dropped at the end of its second part, where the first
part ends with a character that stays. -/
theorem dropEndWhile_append_eq {p : Char → Bool} {cs : List Char} (ds : List Char)
    (hcs : ∀ c, cs.getLast? = some c → p c = false) :
  dropEndWhile p (cs ++ ds) = cs ++ dropEndWhile p ds
  := by
  have hstays : cs.reverse.dropWhile p = cs.reverse := by
    apply dropWhile_of_head
    intro c hc
    apply hcs c
    rw [← hc, List.head?_reverse]
  rw [dropEndWhile, dropEndWhile, List.reverse_append, List.dropWhile_append, hstays]
  split
  · rename_i hnil
    rw [List.isEmpty_iff.mp hnil, List.reverse_reverse, List.reverse_nil, List.append_nil]
  · rw [List.reverse_append, List.reverse_reverse]

theorem dropEndWhile_eq_nil_iff {p : Char → Bool} {cs : List Char} :
  dropEndWhile p cs = [] ↔ ∀ c ∈ cs, p c = true
  := by
  simp [dropEndWhile]

/-- What satisfies the predicate after a text whose last character does not is dropped. -/
theorem dropEndWhile_append {p : Char → Bool} {cs ds : List Char}
    (hcs : ∀ c, cs.getLast? = some c → p c = false) (hds : ∀ c ∈ ds, p c = true) :
  dropEndWhile p (cs ++ ds) = cs
  := by
  rw [dropEndWhile_append_eq ds hcs, dropEndWhile_eq_nil_iff.mpr hds, List.append_nil]

/-- What is left of a text begins as the text does. -/
theorem dropEndWhile_prefix (p : Char → Bool) (cs : List Char) :
  dropEndWhile p cs <+: cs
  := by
  rw [dropEndWhile, ← List.reverse_suffix, List.reverse_reverse]
  apply List.dropWhile_suffix

/-- Of a text that begins with a tight one only what follows that is trimmed, at its end. -/
theorem trim_append_eq {cs : List Char} (ds : List Char) (htight : Tight cs) (hne : cs ≠ []) :
  trim (String.ofList (cs ++ ds)) = String.ofList (cs ++ dropEndWhile isBlank ds)
  := by
  have hhead : ∀ c, (cs ++ ds).head? = some c → isBlank c = false := by
    intro c hc
    apply htight.head c
    rw [← hc, List.head?_append_of_ne_nil _ hne]
  rw [trim, String.toList_ofList, dropWhile_of_head hhead, dropEndWhile_append_eq ds htight.last]

/-- White space after a tight text is trimmed away. -/
theorem trim_append {cs ds : List Char} (htight : Tight cs) (hds : ∀ c ∈ ds, isBlank c = true)
    (hne : cs ≠ []) :
  trim (String.ofList (cs ++ ds)) = String.ofList cs
  := by
  rw [trim_append_eq ds htight hne, dropEndWhile_eq_nil_iff.mpr hds, List.append_nil]

theorem trim_of_tight {cs : List Char} (htight : Tight cs) :
  trim (String.ofList cs) = String.ofList cs
  := by
  have hend : dropEndWhile isBlank (cs ++ []) = cs := dropEndWhile_append htight.last (by simp)
  rw [List.append_nil] at hend
  rw [trim, String.toList_ofList, dropWhile_of_head htight.head, hend]

end Text

end ClassTranscript
