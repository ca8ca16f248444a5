import ClassTranscript.Peg.Cursor
import Mathlib.Data.List.Basic
import Mathlib.Tactic.Common

/-!
# Positions reached from one another

`Cursor.Reaches` relates a cursor to those further on in the same text: between the two lie some
characters, which the one `Passes` on the way to the other, and the offsets differ by the bytes of
these. The positions of a text are what its start
reaches. In one text a position is determined by its offset.
-/

namespace ClassTranscript

namespace Text

@[simp]
theorem byteLength_nil :
  byteLength [] = 0
  := rfl

@[simp]
theorem byteLength_cons (c : Char) (cs : List Char) :
  byteLength (c :: cs) = c.utf8Size + byteLength cs
  := rfl

@[simp]
theorem byteLength_append (cs ds : List Char) :
  byteLength (cs ++ ds) = byteLength cs + byteLength ds
  := by
  induction cs with
  | nil => simp
  | cons c cs ih => simp [ih, Nat.add_assoc]

theorem byteLength_eq_zero_iff {cs : List Char} :
  byteLength cs = 0 ↔ cs = []
  := by
  cases cs with
  | nil => simp
  | cons c cs =>
      have := c.utf8Size_pos
      simp only [byteLength_cons, reduceCtorEq, iff_false]
      omega

/-- The bytes of a text are those of its characters. -/
theorem utf8ByteSize_eq_byteLength (text : String) :
  text.utf8ByteSize = byteLength text.toList
  := by
  rw [← String.size_toByteArray, ← String.utf8Encode_toList]
  generalize text.toList = cs
  induction cs with
  | nil => rfl
  | cons c cs ih =>
      rw [List.utf8Encode_cons, ByteArray.size_append, ih, List.utf8Encode_singleton,
        List.size_toByteArray, String.length_utf8EncodeChar, byteLength_cons]

end Text

namespace Peg

namespace Cursor

/-- The second cursor stands behind some characters that the text goes on with at the first. -/
def Passes (here : Cursor) (cs : List Char) (there : Cursor) : Prop :=
  here.rest = cs ++ there.rest ∧ there.offset = here.offset + Text.byteLength cs

theorem Passes.nil (here : Cursor) :
  here.Passes [] here
  := ⟨rfl, rfl⟩

theorem Passes.append {a b c : Cursor} {xs ys : List Char} (hab : a.Passes xs b)
    (hbc : b.Passes ys c) :
  a.Passes (xs ++ ys) c
  := by
  obtain ⟨hxs, hb⟩ := hab
  obtain ⟨hys, hc⟩ := hbc
  constructor
  · rw [hxs, hys, List.append_assoc]
  · rw [hc, hb, Text.byteLength_append, Nat.add_assoc]

/-- What is passed between two positions is passed in one way. -/
theorem Passes.chars_unique {here there : Cursor} {cs cs' : List Char} (h : here.Passes cs there)
    (h' : here.Passes cs' there) :
  cs = cs'
  := List.append_cancel_right (h.1.symm.trans h'.1)

/-- Only characters that satisfy a predicate stand between two positions. -/
def PassesOnly (p : Char → Prop) (here there : Cursor) : Prop :=
  ∃ cs, here.Passes cs there ∧ ∀ c ∈ cs, p c

theorem PassesOnly.refl (p : Char → Prop) (here : Cursor) :
  PassesOnly p here here
  := ⟨[], .nil here, by simp⟩

theorem PassesOnly.trans {p : Char → Prop} {a b c : Cursor} (hab : PassesOnly p a b)
    (hbc : PassesOnly p b c) :
  PassesOnly p a c
  := by
  obtain ⟨xs, hxs, hx⟩ := hab
  obtain ⟨ys, hys, hy⟩ := hbc
  exact ⟨xs ++ ys, hxs.append hys, List.forall_mem_append.mpr ⟨hx, hy⟩⟩

/-- The second cursor stands in the same text as the first, there or further on. -/
def Reaches (here there : Cursor) : Prop :=
  ∃ between, here.rest = between ++ there.rest
    ∧ there.offset = here.offset + Text.byteLength between

theorem Passes.reaches {here there : Cursor} {cs : List Char} (h : here.Passes cs there) :
  here.Reaches there
  := ⟨cs, h⟩

theorem Reaches.refl (here : Cursor) :
  here.Reaches here
  := (Passes.nil here).reaches

theorem Reaches.trans {a b c : Cursor} (hab : a.Reaches b) (hbc : b.Reaches c) :
  a.Reaches c
  := by
  obtain ⟨xs, hab⟩ := hab
  obtain ⟨ys, hbc⟩ := hbc
  exact (Passes.append hab hbc).reaches

theorem Reaches.offset_le {here there : Cursor} (h : here.Reaches there) :
  here.offset ≤ there.offset
  := by
  obtain ⟨_, -, h⟩ := h
  omega

/-- What lies behind a position and what lies before it make up the same number of bytes. -/
theorem Reaches.offset_add_byteLength {here there : Cursor} (h : here.Reaches there) :
  there.offset + Text.byteLength there.rest = here.offset + Text.byteLength here.rest
  := by
  obtain ⟨between, hrest, hoffset⟩ := h
  rw [hrest, hoffset, Text.byteLength_append, Nat.add_assoc]

/-- A position that is reached without passing a byte is the same position. -/
theorem Reaches.eq_of_offset_eq {here there : Cursor} (h : here.Reaches there)
    (hoffset : there.offset = here.offset) :
  there = here
  := by
  obtain ⟨between, hrest, hsum⟩ := h
  have hnil : between = [] := Text.byteLength_eq_zero_iff.mp (by omega)
  cases here
  cases there
  simp_all

/-- What is left after a position further on is shorter. -/
theorem Reaches.byteLength_lt {here there : Cursor} (h : here.Reaches there)
    (hoffset : there.offset ≠ here.offset) :
  Text.byteLength there.rest < Text.byteLength here.rest
  := by
  have := h.offset_le
  have := h.offset_add_byteLength
  omega

/-- Two positions that are reached from the same one and have the same offset are the same. -/
theorem Reaches.unique {start here there : Cursor} (hhere : start.Reaches here)
    (hthere : start.Reaches there) (hoffset : here.offset = there.offset) :
  here = there
  := by
  obtain ⟨xs, hxs, hx⟩ := hhere
  obtain ⟨ys, hys, hy⟩ := hthere
  obtain ⟨zs, rfl, hz⟩ | ⟨zs, rfl, hz⟩ := List.append_eq_append_iff.mp (hxs.symm.trans hys)
  · apply Eq.symm
    apply Reaches.eq_of_offset_eq _ hoffset.symm
    use zs, hz
    rw [hy, Text.byteLength_append, hx, Nat.add_assoc]
  · apply Reaches.eq_of_offset_eq _ hoffset
    use zs, hz
    rw [hx, Text.byteLength_append, hy, Nat.add_assoc]

theorem reaches_of_next? {p : Char → Bool} {here there : Cursor}
    (h : here.next? p = some there) :
  here.Reaches there ∧ there.offset ≠ here.offset
  := by
  obtain ⟨offset, _ | ⟨c, rest⟩⟩ := here
  · simp [next?] at h
  · simp only [next?, Option.ite_none_right_eq_some, Option.some.injEq] at h
    obtain ⟨-, rfl⟩ := h
    have := c.utf8Size_pos
    constructor
    · use [c]
      simp
    · simp only
      omega

theorem reaches_of_after? {text : List Char} {here there : Cursor}
    (h : here.after? text = some there) :
  here.rest = text ++ there.rest ∧ there.offset = here.offset + Text.byteLength text
  := by
  simp only [after?, Option.map_eq_some_iff] at h
  obtain ⟨rest, hrest, rfl⟩ := h
  rw [List.isPrefixOf?_eq_some_iff_append_eq] at hrest
  exact ⟨hrest.symm, rfl⟩

end Cursor

namespace Test

/-- Passing a test leads further on in the text, or nowhere. -/
theorem reaches_of_pass? {test : Test} {here there : Cursor} (h : test.pass? here = some there) :
  here.Reaches there
  := by
  cases test with
  | text chars => exact ⟨chars, Cursor.reaches_of_after? h⟩
  | char cls => apply (Cursor.reaches_of_next? h).1
  | any => apply (Cursor.reaches_of_next? h).1
  | endOfInput =>
      simp only [pass?, Option.ite_none_right_eq_some, Option.some.injEq] at h
      obtain ⟨-, rfl⟩ := h
      apply Cursor.Reaches.refl

/-- A test that is passed without consuming anything is one of those that can be. -/
theorem isNullable_of_pass? {test : Test} {here there : Cursor}
    (h : test.pass? here = some there) (hoffset : there.offset = here.offset) :
  test.isNullable = true
  := by
  cases test with
  | text chars =>
      obtain ⟨-, hsum⟩ := Cursor.reaches_of_after? h
      rw [isNullable, List.isEmpty_iff]
      apply Text.byteLength_eq_zero_iff.mp
      omega
  | char cls => exact absurd hoffset (Cursor.reaches_of_next? h).2
  | any => exact absurd hoffset (Cursor.reaches_of_next? h).2
  | endOfInput => rfl

end Test

end Peg

end ClassTranscript
