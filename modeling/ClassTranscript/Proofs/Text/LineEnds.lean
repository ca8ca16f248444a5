import ClassTranscript.Proofs.Text.Slice
import ClassTranscript.Text.Blank

/-!
# Line ends

`crlf` puts a carriage return before each line feed of a text, and `spread` moves the offsets into
the text along. Slices move with their offsets (`slice?_spread`), and what is trimmed off a text is
trimmed off it with the other line ends as well (`trim_toCrlf`).
-/

namespace ClassTranscript.Text

/-- The characters for a character where lines end with two. -/
def paired (c : Char) : List Char :=
  if c = '\n' then ['\r', '\n'] else [c]

/-- A text with a carriage return before each line feed. -/
def crlf (cs : List Char) : List Char :=
  cs.flatMap paired

/-- A text with a carriage return before each line feed. -/
def toCrlf (text : String) : String :=
  String.ofList (crlf text.toList)

/-- The number of line feeds that begin before an offset. -/
def linesBefore : List Char → Nat → Nat
  | _, 0 => 0
  | [], _ + 1 => 0
  | c :: cs, n + 1 => (if c = '\n' then 1 else 0) + linesBefore cs (n + 1 - c.utf8Size)

/-- Where an offset into a text is when a carriage return stands before each line feed. -/
def spread (cs : List Char) (offset : Nat) : Nat :=
  offset + linesBefore cs offset

example : toCrlf "a\nb" = "a\r\nb" ∧ ([0, 1, 2, 3].map (spread "a\nb".toList)) = [0, 1, 3, 4] := by
  decide

section

variable {c : Char} {cs ds : List Char}

/-! ### The longer text -/

@[simp]
theorem crlf_nil :
  crlf [] = []
  := rfl

@[simp]
theorem crlf_cons (c : Char) (cs : List Char) :
  crlf (c :: cs) = paired c ++ crlf cs
  := rfl

@[simp]
theorem crlf_append (cs ds : List Char) :
  crlf (cs ++ ds) = crlf cs ++ crlf ds
  := List.flatMap_append

@[simp]
theorem toList_toCrlf (text : String) :
  (toCrlf text).toList = crlf text.toList
  := String.toList_ofList

theorem paired_of_ne (h : c ≠ '\n') :
  paired c = [c]
  := if_neg h

theorem paired_ne_nil (c : Char) :
  paired c ≠ []
  := by
  unfold paired
  split <;> simp

/-- A text without line feeds stays as it is. -/
theorem crlf_of_not_mem (h : '\n' ∉ cs) :
  crlf cs = cs
  := by
  induction cs with
  | nil => rfl
  | cons c cs ih =>
      rw [List.mem_cons, not_or] at h
      obtain ⟨hc, hcs⟩ := h
      rw [crlf_cons, paired_of_ne (Ne.symm hc), ih hcs, List.singleton_append]

theorem toCrlf_of_not_mem {text : String} (h : '\n' ∉ text.toList) :
  toCrlf text = text
  := by
  rw [toCrlf, crlf_of_not_mem h, String.ofList_toList]

theorem crlf_eq_nil_iff :
  crlf cs = [] ↔ cs = []
  := by
  cases cs with
  | nil => simp
  | cons c cs => simp [paired_ne_nil]

/-- The other line ends bring no characters but carriage returns. -/
theorem eq_of_mem_crlf (h : c ∈ crlf cs) :
  c = '\r' ∨ c ∈ cs
  := by
  obtain ⟨x, hx, hc⟩ := List.mem_flatMap.mp h
  unfold paired at hc
  split at hc
  · simp only [List.mem_cons, List.not_mem_nil, or_false] at hc
    rcases hc with rfl | rfl
    · left
      rfl
    · right
      simp_all
  · right
    rwa [List.mem_singleton.mp hc]

/-- What a text with the other line ends begins with, if it begins with a text that has none of
them, begins the text itself. -/
theorem prefix_of_prefix_crlf {text : List Char} (htext : '\r' ∉ text) (h : text <+: crlf cs) :
  text <+: cs
  := by
  induction text generalizing cs with
  | nil => apply List.nil_prefix
  | cons t text ih =>
      rw [List.mem_cons, not_or] at htext
      cases cs with
      | nil => simp at h
      | cons c cs =>
          by_cases hc : c = '\n'
          · rw [crlf_cons, paired, if_pos hc, List.cons_append, List.cons_prefix_cons] at h
            exact absurd h.1.symm htext.1
          · rw [crlf_cons, paired_of_ne hc, List.singleton_append, List.cons_prefix_cons] at h
            rw [List.cons_prefix_cons]
            exact ⟨h.1, ih htext.2 h.2⟩

/-- The first character of a text with the other line ends. -/
theorem head?_crlf (cs : List Char) :
  (crlf cs).head? = cs.head?.map fun c => if c = '\n' then '\r' else c
  := by
  cases cs with
  | nil => rfl
  | cons c cs =>
      by_cases hc : c = '\n'
      · simp [hc, paired]
      · simp [hc, paired_of_ne]

/-! ### Offsets -/

theorem linesBefore_cons (c : Char) (cs : List Char) (n : Nat) :
  linesBefore (c :: cs) (c.utf8Size + n) = (if c = '\n' then 1 else 0) + linesBefore cs n
  := by
  have hpos := c.utf8Size_pos
  obtain ⟨k, hk⟩ : ∃ k, c.utf8Size + n = k + 1 := ⟨c.utf8Size + n - 1, by omega⟩
  rw [hk, linesBefore, ← hk, Nat.add_sub_cancel_left]

theorem linesBefore_le (cs : List Char) {m n : Nat} (h : m ≤ n) :
  linesBefore cs m ≤ linesBefore cs n
  := by
  induction cs generalizing m n with
  | nil => cases m <;> simp [linesBefore]
  | cons c cs ih =>
      cases m with
      | zero => simp [linesBefore]
      | succ m =>
          obtain ⟨k, rfl⟩ : ∃ k, n = k + 1 := ⟨n - 1, by omega⟩
          simp only [linesBefore]
          apply Nat.add_le_add_left
          apply ih
          omega

theorem spread_zero (cs : List Char) :
  spread cs 0 = 0
  := by
  cases cs <;> rfl

/-- Offsets stay in order. -/
theorem spread_lt (cs : List Char) {m n : Nat} (h : m < n) :
  spread cs m < spread cs n
  := Nat.add_lt_add_of_lt_of_le h (linesBefore_le cs (Nat.le_of_lt h))

theorem byteLength_paired (c : Char) :
  byteLength (paired c) = c.utf8Size + if c = '\n' then 1 else 0
  := by
  unfold paired
  split
  · rename_i h
    rw [h]
    rfl
  · simp

theorem spread_cons (c : Char) (cs : List Char) (n : Nat) :
  spread (c :: cs) (c.utf8Size + n) = byteLength (paired c) + spread cs n
  := by
  rw [spread, spread, linesBefore_cons, byteLength_paired]
  omega

/-- An offset behind a first part moves by what the first part grows. -/
theorem spread_append (cs ds : List Char) (n : Nat) :
  spread (cs ++ ds) (byteLength cs + n) = byteLength (crlf cs) + spread ds n
  := by
  induction cs with
  | nil => simp
  | cons c cs ih =>
      rw [List.cons_append, byteLength_cons, Nat.add_assoc, spread_cons, ih, crlf_cons,
        byteLength_append, Nat.add_assoc]

theorem spread_byteLength (cs ds : List Char) :
  spread (cs ++ ds) (byteLength cs) = byteLength (crlf cs)
  := by
  rw [← Nat.add_zero (byteLength cs), spread_append, spread_zero, Nat.add_zero]

/-- An offset inside the first character stays. -/
theorem spread_of_lt {n : Nat} (h : n + 1 < c.utf8Size) :
  spread (c :: cs) (n + 1) = n + 1 ∧ c ≠ '\n'
  := by
  have hne : c ≠ '\n' := by
    rintro rfl
    rw [show '\n'.utf8Size = 1 from rfl] at h
    omega
  rw [spread, linesBefore, if_neg hne, Nat.sub_eq_zero_of_le (Nat.le_of_lt h)]
  exact ⟨by cases cs <;> rfl, hne⟩

/-! ### Slices -/

theorem dropBytes?_spread (cs : List Char) (n : Nat) :
  dropBytes? (spread cs n) (crlf cs) = (dropBytes? n cs).map crlf
  := by
  induction cs generalizing n with
  | nil =>
      cases n with
      | zero => rfl
      | succ n => simp [spread, linesBefore, dropBytes?]
  | cons c cs ih =>
      rcases Nat.lt_or_ge n c.utf8Size with hlt | hle
      · cases n with
        | zero => simp [spread_zero, dropBytes?]
        | succ n =>
            obtain ⟨hspread, hne⟩ : spread (c :: cs) (n + 1) = n + 1 ∧ c ≠ '\n' := spread_of_lt hlt
            rw [hspread, crlf_cons, paired_of_ne hne, List.singleton_append, dropBytes?,
              dropBytes?, if_neg (by omega), if_neg (by omega), Option.map_none]
      · obtain ⟨k, rfl⟩ := Nat.exists_eq_add_of_le hle
        have hcut := dropBytes?_append [c] cs k
        rw [byteLength_cons, byteLength_nil, Nat.add_zero, List.singleton_append] at hcut
        rw [spread_cons, crlf_cons, dropBytes?_append, ih, hcut]

theorem takeBytes?_spread (cs : List Char) (n : Nat) :
  takeBytes? (spread cs n) (crlf cs) = (takeBytes? n cs).map crlf
  := by
  induction cs generalizing n with
  | nil =>
      cases n with
      | zero => rfl
      | succ n => simp [spread, linesBefore, takeBytes?]
  | cons c cs ih =>
      rcases Nat.lt_or_ge n c.utf8Size with hlt | hle
      · cases n with
        | zero => simp [spread_zero, takeBytes?]
        | succ n =>
            obtain ⟨hspread, hne⟩ : spread (c :: cs) (n + 1) = n + 1 ∧ c ≠ '\n' := spread_of_lt hlt
            rw [hspread, crlf_cons, paired_of_ne hne, List.singleton_append, takeBytes?,
              takeBytes?, if_neg (by omega), if_neg (by omega), Option.map_none]
      · obtain ⟨k, rfl⟩ := Nat.exists_eq_add_of_le hle
        have hcut := takeBytes?_append [c] cs k
        rw [byteLength_cons, byteLength_nil, Nat.add_zero, List.singleton_append] at hcut
        rw [spread_cons, crlf_cons, takeBytes?_append, ih, hcut, Option.map_map, Option.map_map]
        rfl

theorem exists_append_of_dropBytes? {n : Nat} (h : dropBytes? n cs = some ds) :
  ∃ before, cs = before ++ ds ∧ n = byteLength before
  := by
  induction cs generalizing n with
  | nil =>
      cases n with
      | zero => exact ⟨[], Option.some.inj h, rfl⟩
      | succ n => cases h
  | cons c cs ih =>
      cases n with
      | zero => exact ⟨[], Option.some.inj h, rfl⟩
      | succ n =>
          rw [dropBytes?, Option.ite_none_right_eq_some] at h
          obtain ⟨hle, h⟩ := h
          obtain ⟨before, rfl, hn⟩ := ih h
          refine ⟨c :: before, rfl, ?_⟩
          rw [byteLength_cons]
          omega

/-- A slice of a text is also one of the text with the other line ends. -/
theorem slice?_spread (cs : List Char) (start stop : Nat) :
  slice? (spread cs start) (spread cs stop) (crlf cs) = (slice? start stop cs).map crlf
  := by
  rcases Nat.lt_or_ge stop start with hlt | hle
  · rw [slice?, slice?, if_neg (Nat.not_le.mpr (spread_lt cs hlt)), if_neg (Nat.not_le.mpr hlt),
      Option.map_none]
  · have hle' : spread cs start ≤ spread cs stop := Nat.add_le_add hle (linesBefore_le cs hle)
    rw [slice?, slice?, if_pos hle', if_pos hle, dropBytes?_spread]
    cases hdrop : dropBytes? start cs with
    | none => rfl
    | some rest =>
        obtain ⟨before, rfl, rfl⟩ := exists_append_of_dropBytes? hdrop
        obtain ⟨k, rfl⟩ := Nat.exists_eq_add_of_le hle
        rw [Option.map_some, Option.bind_some, Option.bind_some, spread_append, spread_byteLength,
          Nat.add_sub_cancel_left, Nat.add_sub_cancel_left, takeBytes?_spread]

/-! ### Trimming -/

/-- A predicate that says the same about both characters of a line end drops line ends whole. -/
theorem dropWhile_flatMap {p : Char → Bool} {f : Char → List Char} (hne : ∀ c, f c ≠ [])
    (hp : ∀ c, ∀ x ∈ f c, p x = p c) (cs : List Char) :
  (cs.flatMap f).dropWhile p = (cs.dropWhile p).flatMap f
  := by
  induction cs with
  | nil => rfl
  | cons c cs ih =>
      rw [List.flatMap_cons, List.dropWhile_cons]
      cases hc : p c with
      | true =>
          rw [if_pos rfl, List.dropWhile_append_of_pos, ih]
          intro x hx
          rw [hp c x hx, hc]
      | false =>
          obtain ⟨x, xs, hx⟩ := List.exists_cons_of_ne_nil (hne c)
          have hfalse : p x = false := by
            rw [hp c x (by simp [hx]), hc]
          rw [if_neg (by simp), List.flatMap_cons, hx, List.cons_append, List.dropWhile_cons,
            hfalse, if_neg (by simp)]

/-- The predicate says the same about both characters of a line end. -/
theorem eq_of_mem_paired {p : Char → Bool} (hp : p '\r' = p '\n') {c x : Char}
    (hx : x ∈ paired c) :
  p x = p c
  := by
  unfold paired at hx
  split at hx
  · simp only [List.mem_cons, List.not_mem_nil, or_false] at hx
    rcases hx with rfl | rfl <;> simp_all
  · rw [List.mem_singleton.mp hx]

theorem dropWhile_crlf {p : Char → Bool} (hp : p '\r' = p '\n') (cs : List Char) :
  (crlf cs).dropWhile p = crlf (cs.dropWhile p)
  := dropWhile_flatMap paired_ne_nil (fun _ _ => eq_of_mem_paired hp) cs

theorem dropEndWhile_crlf {p : Char → Bool} (hp : p '\r' = p '\n') (cs : List Char) :
  dropEndWhile p (crlf cs) = crlf (dropEndWhile p cs)
  := by
  have hreverse (cs : List Char) :
      (crlf cs).reverse = cs.reverse.flatMap fun c => (paired c).reverse := by
    rw [crlf, List.reverse_flatMap]
    rfl
  rw [dropEndWhile, hreverse, dropWhile_flatMap, dropEndWhile, ← List.reverse_inj, hreverse,
    List.reverse_reverse, List.reverse_reverse]
  · intro c
    simp [paired_ne_nil]
  · intro c x hx
    apply eq_of_mem_paired hp (List.mem_reverse.mp hx)

theorem isBlank_return :
  isBlank '\r' = isBlank '\n'
  := by
  decide

/-- Trimming a text is trimming it with the other line ends. -/
theorem trim_toCrlf (text : String) :
  trim (toCrlf text) = toCrlf (trim text)
  := by
  rw [trim, toList_toCrlf, dropWhile_crlf isBlank_return, dropEndWhile_crlf isBlank_return, toCrlf,
    trim, String.toList_ofList]

theorem trimEnd_toCrlf (text : String) :
  trimEnd (toCrlf text) = toCrlf (trimEnd text)
  := by
  rw [trimEnd, toList_toCrlf, dropEndWhile_crlf isBlank_return, toCrlf, trimEnd,
    String.toList_ofList]

end

end ClassTranscript.Text

namespace ClassTranscript.Span

/-- A span where a carriage return stands before each line feed of its text. -/
def spread (source : String) (span : Span) : Span :=
  ⟨Text.spread source.toList span.start, Text.spread source.toList span.stop⟩

theorem slice_spread (source : String) (span : Span) :
  (span.spread source).slice (Text.toCrlf source) = Text.toCrlf (span.slice source)
  := by
  rw [slice, slice, spread, Text.toList_toCrlf, Text.slice?_spread, Text.toCrlf,
    String.toList_ofList]
  cases Text.slice? span.start span.stop source.toList <;> rfl

end ClassTranscript.Span
