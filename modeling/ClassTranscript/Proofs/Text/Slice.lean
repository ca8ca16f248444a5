import ClassTranscript.Proofs.Peg.Position

/-!
# Slices between positions

The span between two positions of a text covers what lies between them, and `Fits` the text: it
begins and ends between characters, and what is read off it are the bytes that it covers.
-/

namespace ClassTranscript

namespace Text

/-- Cutting a text inside its second part is cutting the second part. -/
theorem dropBytes?_append (xs ys : List Char) (n : Nat) :
  dropBytes? (byteLength xs + n) (xs ++ ys) = dropBytes? n ys
  := by
  induction xs with
  | nil => rw [byteLength_nil, Nat.zero_add, List.nil_append]
  | cons x xs ih =>
      obtain ⟨k, hk⟩ := Nat.exists_eq_succ_of_ne_zero (Nat.pos_iff_ne_zero.mp x.utf8Size_pos)
      have hlength : byteLength (x :: xs) + n = k + byteLength xs + n + 1 := by
        rw [byteLength_cons]
        omega
      have hle : x.utf8Size ≤ k + byteLength xs + n + 1 := by omega
      have hrest : k + byteLength xs + n + 1 - x.utf8Size = byteLength xs + n := by omega
      rw [hlength, List.cons_append, dropBytes?, if_pos hle, hrest, ih]

theorem dropBytes?_byteLength (xs ys : List Char) :
  dropBytes? (byteLength xs) (xs ++ ys) = some ys
  := by
  rw [← Nat.add_zero (byteLength xs), dropBytes?_append, dropBytes?]

theorem takeBytes?_append (xs ys : List Char) (n : Nat) :
  takeBytes? (byteLength xs + n) (xs ++ ys) = (takeBytes? n ys).map (xs ++ ·)
  := by
  induction xs with
  | nil => simp
  | cons x xs ih =>
      obtain ⟨k, hk⟩ := Nat.exists_eq_succ_of_ne_zero (Nat.pos_iff_ne_zero.mp x.utf8Size_pos)
      have hlength : byteLength (x :: xs) + n = k + byteLength xs + n + 1 := by
        rw [byteLength_cons]
        omega
      have hle : x.utf8Size ≤ k + byteLength xs + n + 1 := by omega
      have hrest : k + byteLength xs + n + 1 - x.utf8Size = byteLength xs + n := by omega
      rw [hlength, List.cons_append, takeBytes?, if_pos hle, hrest, ih, Option.map_map]
      rfl

theorem takeBytes?_byteLength (xs ys : List Char) :
  takeBytes? (byteLength xs) (xs ++ ys) = some xs
  := by
  rw [← Nat.add_zero (byteLength xs), takeBytes?_append, takeBytes?, Option.map_some,
    List.append_nil]

theorem slice?_byteLength (before between after : List Char) :
  slice? (byteLength before) (byteLength before + byteLength between) (before ++ (between ++ after))
    = some between
  := by
  rw [slice?, if_pos (Nat.le_add_right _ _), dropBytes?_byteLength, Option.bind_some,
    Nat.add_sub_cancel_left, takeBytes?_byteLength]

end Text

namespace Peg.Cursor

theorem slice?_eq {source : String} {here there : Cursor} {between : List Char}
    (hstart : (atStart source).Reaches here) (hrest : here.rest = between ++ there.rest)
    (hoffset : there.offset = here.offset + Text.byteLength between) :
  Text.slice? here.offset there.offset source.toList = some between
  := by
  obtain ⟨before, hsource, hhere⟩ := hstart
  have hsource : source.toList = before ++ (between ++ there.rest) := by
    rw [← hrest]
    apply hsource
  have hhere : here.offset = Text.byteLength before := by
    rw [hhere, atStart, Nat.zero_add]
  rw [hsource, hoffset, hhere, Text.slice?_byteLength]

/-- The span between two positions of a text covers what lies between them. -/
theorem slice_eq {source : String} {here there : Cursor} {between : List Char}
    (hstart : (atStart source).Reaches here) (hrest : here.rest = between ++ there.rest)
    (hoffset : there.offset = here.offset + Text.byteLength between) :
  (⟨here.offset, there.offset⟩ : Span).slice source = String.ofList between
  := by
  rw [Span.slice, slice?_eq hstart hrest hoffset, Option.getD_some]

end Peg.Cursor

/-! ### Spans that fit -/

/-- The span begins and ends between characters of a text, and its slice is the bytes that it
covers. -/
structure Span.Fits (source : String) (span : Span) : Prop where
  start_valid : String.Pos.Raw.IsValid source ⟨span.start⟩
  stop_valid : String.Pos.Raw.IsValid source ⟨span.stop⟩
  start_le_stop : span.start ≤ span.stop
  slice_eq : (span.slice source).toByteArray = source.toByteArray.extract span.start span.stop

theorem Text.isValid_byteLength {source : String} {before after : List Char}
    (h : source.toList = before ++ after) :
  String.Pos.Raw.IsValid source ⟨byteLength before⟩
  := by
  apply String.Pos.Raw.isValid_iff_exists_append.mpr
  refine ⟨String.ofList before, String.ofList after, ?_, ?_⟩
  · rw [← String.ofList_append, ← h, String.ofList_toList]
  · rw [String.rawEndPos, utf8ByteSize_eq_byteLength, String.toList_ofList]

namespace Peg.Cursor

/-- A position of a text lies between characters, and what is left there is the text from its offset
on. -/
theorem isValid_of_reaches {source : String} {here : Cursor}
    (h : (atStart source).Reaches here) :
  String.Pos.Raw.IsValid source ⟨here.offset⟩
    ∧ Text.dropBytes? here.offset source.toList = some here.rest
  := by
  obtain ⟨before, hsource, hoffset⟩ := h
  have hsource : source.toList = before ++ here.rest := hsource
  have hoffset : here.offset = Text.byteLength before := by
    rw [hoffset, atStart, Nat.zero_add]
  rw [hoffset]
  use Text.isValid_byteLength hsource
  rw [hsource, Text.dropBytes?_byteLength]

/-- The span between two positions of a text fits the text. -/
theorem fits_of_reaches {source : String} {here there : Cursor}
    (hstart : (atStart source).Reaches here) (hreaches : here.Reaches there) :
  Span.Fits source ⟨here.offset, there.offset⟩
  where
  start_valid := (isValid_of_reaches hstart).1
  stop_valid := (isValid_of_reaches (hstart.trans hreaches)).1
  start_le_stop := hreaches.offset_le
  slice_eq := by
    obtain ⟨between, hrest, hoffset⟩ := hreaches
    rw [slice_eq hstart hrest hoffset]
    obtain ⟨before, hsource, hhere⟩ := hstart
    have hhere : here.offset = Text.byteLength before := by
      rw [hhere, atStart, Nat.zero_add]
    have hsource : source
        = String.ofList before ++ (String.ofList between ++ String.ofList there.rest) := by
      rw [← String.ofList_append, ← String.ofList_append, ← hrest]
      exact String.ofList_toList.symm.trans (congrArg String.ofList hsource)
    have hsize (cs : List Char) : (String.ofList cs).toByteArray.size = Text.byteLength cs := by
      rw [String.size_toByteArray, Text.utf8ByteSize_eq_byteLength, String.toList_ofList]
    rw [hsource, String.toByteArray_append, String.toByteArray_append, hoffset, hhere]
    have hcut := ByteArray.extract_append_size_add (a := (String.ofList before).toByteArray)
      (b := (String.ofList between).toByteArray ++ (String.ofList there.rest).toByteArray)
      (i := 0) (j := Text.byteLength between)
    rw [hsize, Nat.add_zero] at hcut
    rw [hcut, ByteArray.extract_append_eq_left (hsize between).symm]

end Peg.Cursor

end ClassTranscript
