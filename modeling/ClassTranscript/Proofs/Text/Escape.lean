import ClassTranscript.Proofs.Text.Numeral
import ClassTranscript.Proofs.Text.Slice
import ClassTranscript.Text.Escape

/-!
# Escaped texts can be read back

A way of writing is `Separable` when what is written first can be told from what is written after
it. Escapes are: `readEscape` reads the first of them and gives what follows. So a text is
determined by its escaped form. A quote in that form is the second character of an escape
(`exists_of_quote_escape`), and a preview is cut between two characters of the text (`preview_eq`).
-/

namespace ClassTranscript.Text

/-! ### Ways of writing -/

section

variable {α : Type} {write : α → List Char}

/-- What is written first can be told from what is written after it. -/
def Separable (write : α → List Char) : Prop :=
  ∀ x y s t, write x ++ s = write y ++ t → x = y ∧ s = t

/-- What can be read back can be told from what follows it. -/
theorem Separable.of_read {read : List Char → Option (α × List Char)}
    (h : ∀ x s, read (write x ++ s) = some (x, s)) :
  Separable write
  := by
  intro x y s t heq
  have hread : some (x, s) = some (y, t) := by rw [← h x s, heq, h y t]
  apply Prod.mk.inj (Option.some.inj hread)

/-- Several things that are written up to a character with which none of them begins can be told
from what follows it. -/
theorem Separable.until (h : Separable write) {stop : Char}
    (hstop : ∀ x s, (write x ++ s).head? ≠ some stop) {xs ys : List α} {s t : List Char}
    (heq : xs.flatMap write ++ stop :: s = ys.flatMap write ++ stop :: t) :
  xs = ys ∧ s = t
  := by
  induction xs generalizing ys with
  | nil =>
      cases ys with
      | nil => exact ⟨rfl, (List.cons.inj heq).2⟩
      | cons y ys =>
          rw [List.flatMap_cons, List.append_assoc] at heq
          exact absurd (congrArg List.head? heq).symm (hstop y _)
  | cons x xs ih =>
      cases ys with
      | nil =>
          rw [List.flatMap_cons, List.append_assoc] at heq
          exact absurd (congrArg List.head? heq) (hstop x _)
      | cons y ys =>
          rw [List.flatMap_cons, List.flatMap_cons, List.append_assoc, List.append_assoc] at heq
          obtain ⟨rfl, hrest⟩ := h x y _ _ heq
          obtain ⟨rfl, rfl⟩ := ih hrest
          exact ⟨rfl, rfl⟩

end

/-! ### Escapes -/

/-- Reads a character or its escape, and gives what follows. A character that has no meaning after
a backslash stands for itself there. -/
def readEscape : List Char → Option (Char × List Char)
  | [] => none
  | '\\' :: 'n' :: s => some ('\n', s)
  | '\\' :: 'r' :: s => some ('\r', s)
  | '\\' :: 't' :: s => some ('\t', s)
  | '\\' :: 'u' :: s =>
    some (Char.ofNat (digitsValue 16 ((s.drop 1).takeWhile (· != '\x7d'))),
      ((s.drop 1).dropWhile (· != '\x7d')).drop 1)
  | '\\' :: c :: s => some (c, s)
  | c :: s => some (c, s)

theorem readEscape_of_ne {c : Char} (h : c ≠ '\\') (s : List Char) :
  readEscape (c :: s) = some (c, s)
  := by
  rw [readEscape.eq_def]
  split <;> simp_all

/-- Hexadecimal digits are neither control characters, braces, quotes nor backslashes. -/
theorem of_mem_hexadecimal {n : Nat} {c : Char} (h : c ∈ Nat.toDigits 16 n) :
  isControl c = false ∧ c ≠ '\x7d' ∧ c ≠ '"'
  := by
  have hdigit : ∀ k < 16, isControl k.digitChar = false ∧ k.digitChar ≠ '\x7d'
      ∧ k.digitChar ≠ '"' := by decide
  obtain ⟨k, hk, rfl⟩ := exists_digitChar_of_mem_toDigits (by decide) h
  apply hdigit k hk

theorem readEscape_codePointEscape (c : Char) (s : List Char) :
  readEscape (codePointEscape c ++ s) = some (c, s)
  := by
  have hdigits : ∀ d ∈ Nat.toDigits 16 c.toNat, (d != '\x7d') = true := by
    intro d hmem
    simpa using (of_mem_hexadecimal hmem).2.1
  simp only [codePointEscape, List.cons_append, List.append_assoc, List.nil_append, readEscape,
    List.drop_one, List.tail_cons, List.takeWhile_append_of_pos hdigits,
    List.dropWhile_append_of_pos hdigits]
  simp [digitsValue_toDigits]

/-- A character is escaped by a backslash and a letter or mark, by its code point, or not at all. -/
theorem escapeChar_cases (c : Char) :
  (∃ d, escapeChar c = ['\\', d] ∧ isControl d = false ∧ (d = '"' → c = '"')
      ∧ ∀ s, readEscape ('\\' :: d :: s) = some (c, s))
    ∨ escapeChar c = codePointEscape c
    ∨ escapeChar c = [c] ∧ isControl c = false ∧ c ≠ '"' ∧ c ≠ '\\'
  := by
  rw [escapeChar.eq_def]
  split
  · exact .inl ⟨'n', rfl, rfl, by decide, fun _ => rfl⟩
  · exact .inl ⟨'r', rfl, rfl, by decide, fun _ => rfl⟩
  · exact .inl ⟨'t', rfl, rfl, by decide, fun _ => rfl⟩
  · exact .inl ⟨'"', rfl, rfl, by decide, fun _ => rfl⟩
  · exact .inl ⟨'\\', rfl, rfl, by decide, fun _ => rfl⟩
  · rename_i hquote hbackslash
    split
    · exact .inr (.inl rfl)
    · rename_i hplain
      exact .inr (.inr ⟨rfl, by simpa using hplain, hquote, hbackslash⟩)

/-- The escape of a character is read back. -/
theorem readEscape_escapeChar (c : Char) (s : List Char) :
  readEscape (escapeChar c ++ s) = some (c, s)
  := by
  obtain ⟨d, heq, -, -, hread⟩ | heq | ⟨heq, -, -, hne⟩ := escapeChar_cases c
  · rw [heq]
    apply hread
  · rw [heq, readEscape_codePointEscape]
  · rw [heq]
    apply readEscape_of_ne hne

theorem separable_escapeChar :
  Separable escapeChar
  := .of_read readEscape_escapeChar

theorem head?_escapeChar_ne_quote (c : Char) (s : List Char) :
  (escapeChar c ++ s).head? ≠ some '"'
  := by
  obtain ⟨d, heq, -⟩ | heq | ⟨heq, -, hne, -⟩ := escapeChar_cases c
  · simp [heq]
  · simp [heq, codePointEscape]
  · simpa [heq] using hne

/-- A quoted text is determined together with what follows the closing quote. -/
theorem eq_of_quoted {text text' s t : List Char}
    (h : text.flatMap escapeChar ++ '"' :: s = text'.flatMap escapeChar ++ '"' :: t) :
  text = text' ∧ s = t
  := separable_escapeChar.until head?_escapeChar_ne_quote h

theorem toList_escape (text : String) :
  (escape text).toList = text.toList.flatMap escapeChar
  := String.toList_ofList

theorem toList_quote (text : String) :
  (quote text).toList = '"' :: (text.toList.flatMap escapeChar ++ ['"'])
  := by
  simp [quote, toList_escape]

theorem escape_append (s t : String) :
  escape (s ++ t) = escape s ++ escape t
  := by
  rw [escape, String.toList_append, List.flatMap_append, String.ofList_append]
  rfl

theorem escape_injective :
  Function.Injective escape
  := by
  intro s t h
  have hlists := congrArg String.toList h
  rw [toList_escape, toList_escape] at hlists
  have hquoted := congrArg (· ++ ['"']) hlists
  apply String.toList_injective
  apply (eq_of_quoted hquoted).1

/-! ### What an escaped text is made of -/

theorem isControl_of_mem_escapeChar {c d : Char} (h : d ∈ escapeChar c) :
  isControl d = false
  := by
  obtain ⟨e, heq, he, -⟩ | heq | ⟨heq, hc, -⟩ := escapeChar_cases c
  · rw [heq] at h
    obtain rfl | h := List.mem_cons.mp h
    · rfl
    · rw [List.mem_singleton.mp h]
      apply he
  · rw [heq, codePointEscape] at h
    simp only [List.mem_cons, List.mem_append, List.not_mem_nil, or_false] at h
    obtain rfl | rfl | rfl | hdigit | rfl := h
    · rfl
    · rfl
    · rfl
    · apply (of_mem_hexadecimal hdigit).1
    · rfl
  · rw [heq] at h
    rw [List.mem_singleton.mp h]
    apply hc

/-- A quote in the escape of a character is the second of two characters, and the escape is that
of a quote. -/
theorem of_quote_escapeChar {c : Char} {before after : List Char}
    (h : escapeChar c = before ++ '"' :: after) :
  c = '"' ∧ before = ['\\'] ∧ after = []
  := by
  have hmem : '"' ∈ escapeChar c := by simp [h]
  have hc : c = '"' := by
    obtain ⟨d, heq, -, hd, -⟩ | heq | ⟨heq, -, hne, -⟩ := escapeChar_cases c
    · rw [heq] at hmem
      apply hd
      simpa [eq_comm] using hmem
    · rw [heq, codePointEscape] at hmem
      simp only [List.mem_cons, List.mem_append, List.not_mem_nil, or_false] at hmem
      obtain h | h | h | h | h := hmem
      · cases h
      · cases h
      · cases h
      · exact absurd rfl (of_mem_hexadecimal h).2.2
      · cases h
    · rw [heq, List.mem_singleton] at hmem
      exact absurd hmem.symm hne
  subst hc
  obtain _ | ⟨x, _ | ⟨y, before⟩⟩ := before
  · cases h
  · obtain ⟨rfl, rfl⟩ : x = '\\' ∧ after = [] := by simpa [escapeChar, eq_comm] using h
    exact ⟨rfl, rfl, rfl⟩
  · simp [escapeChar] at h

/-- A quote in an escaped text belongs to the escape of a quote of the text. -/
theorem exists_of_quote_escape {text before after : List Char}
    (h : text.flatMap escapeChar = before ++ '"' :: after) :
  ∃ s t, text = s ++ '"' :: t ∧ before = s.flatMap escapeChar ++ ['\\']
    ∧ after = t.flatMap escapeChar
  := by
  induction text generalizing before with
  | nil => simp at h
  | cons c text ih =>
      rw [List.flatMap_cons] at h
      obtain ⟨more, hbefore, hrest⟩ | ⟨more, hescape, hafter⟩ := List.append_eq_append_iff.mp h
      · -- the quote is in what is written after the first character
        obtain ⟨s, t, rfl, hs, ht⟩ := ih hrest
        refine ⟨c :: s, t, rfl, ?_, ht⟩
        rw [hbefore, hs, List.flatMap_cons, List.append_assoc]
      · cases more with
        | nil =>
            have hempty : text.flatMap escapeChar = [] ++ '"' :: after := hafter.symm
            obtain ⟨s, t, -, hs, -⟩ := ih hempty
            simp at hs
        | cons d more =>
            obtain ⟨rfl, rfl⟩ := List.cons.inj hafter
            obtain ⟨rfl, rfl, rfl⟩ := of_quote_escapeChar hescape
            exact ⟨[], text, rfl, rfl, rfl⟩

/-! ### Previews -/

/-- A character begins behind the bytes of those before it. -/
theorem charOffsets_getElem? (n i : Nat) (cs : List Char) :
  (charOffsets n cs)[i]? = cs[i]?.map fun c => (n + byteLength (cs.take i), c)
  := by
  induction cs generalizing n i with
  | nil => rfl
  | cons c cs ih =>
      cases i with
      | zero => rfl
      | succ i =>
          rw [charOffsets, List.getElem?_cons_succ, List.getElem?_cons_succ, ih,
            List.take_succ_cons, byteLength_cons, Nat.add_assoc]

/-- A preview is the quoted beginning of the text, with an ellipsis after it where there is more. -/
theorem preview_eq (text : String) (max : Nat) :
  preview text max = quote (String.ofList (text.toList.take max))
    ++ if max < text.toList.length then "…" else ""
  := by
  rw [preview, charOffsets_getElem?]
  split
  · rename_i cut c hget
    obtain ⟨d, hd, hcut⟩ := Option.map_eq_some_iff.mp hget
    obtain ⟨rfl, rfl⟩ := Prod.mk.inj hcut
    have hlt : max < text.toList.length := (List.getElem?_eq_some_iff.mp hd).1
    have hslice := slice?_byteLength [] (text.toList.take max) (text.toList.drop max)
    rw [List.nil_append, List.take_append_drop, byteLength_nil] at hslice
    rw [if_pos hlt, Span.slice, hslice, Option.getD_some]
  · rename_i hget
    rw [Option.map_eq_none_iff, List.getElem?_eq_none_iff] at hget
    rw [if_neg (Nat.not_lt_of_le hget), List.take_of_length_le hget, String.ofList_toList,
      String.append_empty]

/-- Previews are equal just where the beginnings are, and both or neither have more. -/
theorem preview_eq_iff (s t : String) (max : Nat) :
  preview s max = preview t max ↔
    s.toList.take max = t.toList.take max ∧ (max < s.toList.length ↔ max < t.toList.length)
  := by
  have hchars (text : String) : (preview text max).toList
      = '"' :: ((text.toList.take max).flatMap escapeChar
        ++ '"' :: if max < text.toList.length then ['…'] else []) := by
    rw [preview_eq, String.toList_append, toList_quote, String.toList_ofList]
    split <;> simp
  rw [← String.toList_inj, hchars, hchars]
  constructor
  · intro h
    obtain ⟨hbeginning, hmore⟩ := eq_of_quoted (List.cons.inj h).2
    refine ⟨hbeginning, ?_⟩
    constructor
    · intro hlt
      by_contra hge
      rw [if_pos hlt, if_neg hge] at hmore
      cases hmore
    · intro hlt
      by_contra hge
      rw [if_neg hge, if_pos hlt] at hmore
      cases hmore
  · rintro ⟨hbeginning, hmore⟩
    rw [hbeginning, if_congr hmore rfl rfl]

/-- A preview is cut between characters, whatever their length in bytes and that of their
escapes. -/
example : preview "é\n\x01z" 3 = "\"é\\n\\u\x7b1\x7d\"…" := by decide

/-- A text can be read back from its escaped form, which is that of its pieces one after the other.
No character in that form is a control character, and each quote in it belongs to the escape of a
quote of the text. A preview is the quoted beginning of a text with an ellipsis just where there is
more, and tells as much of the text and no more. -/
theorem escape_lossless_preview_exact :
  Function.Injective escape
    ∧ (∀ s t, escape (s ++ t) = escape s ++ escape t)
    ∧ (∀ text, ∀ c ∈ (escape text).toList, isControl c = false)
    ∧ (∀ text before after, (escape text).toList = before ++ '"' :: after →
      ∃ s t, text = s ++ "\"" ++ t ∧ before = (escape s).toList ++ ['\\']
        ∧ after = (escape t).toList)
    ∧ (∀ text max, preview text max
      = "\"" ++ escape (String.ofList (text.toList.take (min max text.length))) ++ "\""
        ++ if max < text.length then "…" else "")
    ∧ ∀ s t max, preview s max = preview t max ↔
      s.toList.take max = t.toList.take max ∧ (max < s.length ↔ max < t.length)
  := by
  refine ⟨escape_injective, escape_append, ?_, ?_, ?_, ?_⟩
  · intro text c hmem
    rw [toList_escape, List.mem_flatMap] at hmem
    obtain ⟨_, -, hmem⟩ := hmem
    apply isControl_of_mem_escapeChar hmem
  · intro text before after h
    rw [toList_escape] at h
    obtain ⟨s, t, htext, rfl, rfl⟩ := exists_of_quote_escape h
    refine ⟨String.ofList s, String.ofList t, ?_, ?_, ?_⟩
    · rw [← String.toList_inj, htext]
      simp
    · rw [toList_escape, String.toList_ofList]
    · rw [toList_escape, String.toList_ofList]
  · intro text max
    rw [← String.length_toList, ← List.take_eq_take_min]
    apply preview_eq
  · intro s t max
    rw [← String.length_toList, ← String.length_toList]
    apply preview_eq_iff

end ClassTranscript.Text
