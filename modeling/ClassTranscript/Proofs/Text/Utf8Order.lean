import ClassTranscript.Text.Utf8
import Mathlib.Data.List.Basic
import Mathlib.Tactic.Common

/-!
# The order of texts and the order of their bytes

Texts are ordered by their characters. Their UTF-8 forms, ordered byte by byte, stand in the same
order, because the form of a smaller character differs from that of a larger one at a byte that both
have, and is smaller there. So sorted texts are sorted byte by byte too.
-/

namespace ClassTranscript.Text

/-- Whatever follows them, the bytes of a smaller character come before those of a larger one. -/
theorem utf8EncodeChar_append_lt {c d : Char} (h : c < d) (xs ys : Bytes) :
  String.utf8EncodeChar c ++ xs < String.utf8EncodeChar d ++ ys
  := by
  have hlt : c.val.toNat < d.val.toNat := h
  have hd : d.val.toNat < 1114112 := by
    have := d.valid
    simp only [UInt32.isValidChar, Nat.isValidChar] at this
    omega
  generalize hv : c.val.toNat = v at hlt
  generalize hw : d.val.toNat = w at hlt hd
  simp only [String.utf8EncodeChar, hv, hw]
  -- one case for each pair of lengths; a longer form has the larger first byte
  split_ifs <;>
    simp (disch := omega) only [List.cons_append, List.nil_append, List.cons_lt_cons_iff,
      UInt8.lt_iff_toNat_lt, ← UInt8.toNat_inj, UInt8.toNat_ofNat', Nat.mod_eq_of_lt] <;>
    omega

/-- The bytes of a smaller sequence of characters come before those of a larger one. -/
theorem flatMap_utf8EncodeChar_lt {cs ds : List Char} (h : cs < ds) :
  cs.flatMap String.utf8EncodeChar < ds.flatMap String.utf8EncodeChar
  := by
  induction cs generalizing ds with
  | nil =>
      cases ds with
      | nil => simp at h
      | cons d ds =>
          rw [List.flatMap_nil, List.flatMap_cons]
          obtain ⟨b, bs, hb⟩ := List.exists_cons_of_ne_nil (String.utf8EncodeChar_ne_nil (c := d))
          rw [hb, List.cons_append]
          apply List.nil_lt_cons
  | cons c cs ih =>
      cases ds with
      | nil => simp at h
      | cons d ds =>
          rw [List.flatMap_cons, List.flatMap_cons]
          obtain hcd | ⟨rfl, hcs⟩ := List.cons_lt_cons_iff.mp h
          · apply utf8EncodeChar_append_lt hcd
          · apply List.append_left_lt
            apply ih hcs

/-- The UTF-8 form of a smaller text comes before that of a larger one, byte by byte. -/
theorem encode_lt_encode {a b : String} (h : a < b) :
  encode a < encode b
  := flatMap_utf8EncodeChar_lt h

/-- Sorted texts, each there once, have ascending UTF-8 forms. -/
theorem pairwise_encode_mergeSort {texts : List String} (h : texts.Nodup) :
  (texts.mergeSort fun a b => a ≤ b).Pairwise fun a b => encode a < encode b
  := by
  have hsorted : (texts.mergeSort fun a b => a ≤ b).Pairwise fun a b => decide (a ≤ b) = true := by
    apply List.pairwise_mergeSort
    · intro a b c hab hbc
      rw [decide_eq_true_iff] at hab hbc ⊢
      apply String.le_trans hab hbc
    · intro a b
      rw [Bool.or_eq_true_iff, decide_eq_true_iff, decide_eq_true_iff]
      apply String.le_total a b
  have hdistinct := (List.mergeSort_perm texts fun a b => a ≤ b).nodup_iff.mpr h
  apply (hsorted.and hdistinct).imp
  rintro a b ⟨hle, hne⟩
  rw [decide_eq_true_iff] at hle
  apply encode_lt_encode
  by_contra hge
  apply hne (String.le_antisymm hle (String.not_lt.mp hge))

end ClassTranscript.Text
