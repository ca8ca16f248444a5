import ClassTranscript.Java.StringEscape
import ClassTranscript.Proofs.Text.Numeral
import ClassTranscript.Proofs.Text.Trim

/-!
# Pieces of string literals

The body of a string literal is plain characters and escapes, one after the other (`Splits`). There
is one way to split a text into such pieces (`Splits.unique`), whether or not its escapes are well
formed, and decoding the text is decoding each of its pieces (`decode_of_splits`).
-/

namespace ClassTranscript.Java

/-! ### Pieces -/

/-- A piece of the body of a string literal. -/
inductive Piece where
  | plain (c : Char)
  /-- A backslash and a character. -/
  | simple (c : Char)
  /-- A backslash and octal digits. -/
  | octal (digits : List Char)
  /-- A backslash, one letter `u` more than `marks`, and what is read as hexadecimal digits. -/
  | unicode (marks : Nat) (digits : List Char)
  /-- A backslash at the end of the text. -/
  | trailing
  deriving DecidableEq, Repr

/-- The characters are the digits of an octal escape. Three digits have a value below 256. -/
def IsOctalEscape : List Char → Prop
  | [a] => isOctal a = true
  | [a, b] => isOctal a = true ∧ isOctal b = true
  | [a, b, c] => (isOctal a = true ∧ a ≤ '3') ∧ isOctal b = true ∧ isOctal c = true
  | _ => False

instance : DecidablePred IsOctalEscape
  | [] => inferInstanceAs (Decidable False)
  | [a] => inferInstanceAs (Decidable (isOctal a = true))
  | [a, b] => inferInstanceAs (Decidable (isOctal a = true ∧ isOctal b = true))
  | [a, b, c] =>
    inferInstanceAs (Decidable ((isOctal a = true ∧ a ≤ '3') ∧ isOctal b = true ∧ isOctal c = true))
  | _ :: _ :: _ :: _ :: _ => inferInstanceAs (Decidable False)

namespace Piece

/-- The characters of a piece. -/
def chars : Piece → List Char
  | .plain c => [c]
  | .simple c => ['\\', c]
  | .octal digits => '\\' :: digits
  | .unicode marks digits => '\\' :: 'u' :: (List.replicate marks 'u' ++ digits)
  | .trailing => ['\\']

theorem exists_chars (p : Piece) :
  ∃ c cs, p.chars = c :: cs
  := by
  cases p <;> exact ⟨_, _, rfl⟩

/-- The piece is as long as it can be where the text goes on with `rest`. -/
def Stands (rest : List Char) : Piece → Prop
  | .plain c => c ≠ '\\'
  | .simple c => c ≠ 'u' ∧ isOctal c = false
  | .octal digits =>
    IsOctalEscape digits ∧ ∀ c, rest.head? = some c → ¬ IsOctalEscape (digits ++ [c])
  | .unicode _ digits =>
    digits.length ≤ 4 ∧ (digits.length < 4 → rest = []) ∧ digits.head? ≠ some 'u'
  | .trailing => rest = []

/-- What a piece is decoded to. -/
def decoded : Piece → List Char
  | .plain c => [c]
  | .simple c => [(controlEscape? c).getD c]
  | .octal digits => [octalValue digits]
  | .unicode _ digits => unicodeValue digits
  | .trailing => ['\\']

end Piece

/-- The text is pieces one after the other, each as long as it can be. -/
inductive Splits : List Char → List Piece → Prop where
  | nil :
    Splits [] []
  | cons {p : Piece} {rest : List Char} {pieces : List Piece} :
    p.Stands rest →
    Splits rest pieces →
    Splits (p.chars ++ rest) (p :: pieces)

/-- The piece at the front of a text. -/
def firstPiece (c : Char) (cs : List Char) : Piece :=
  if c = '\\' then
    match cs with
    | [] => .trailing
    | d :: ds =>
      if d = 'u' then
        .unicode (ds.takeWhile (· == 'u')).length ((ds.dropWhile (· == 'u')).take 4)
      else if isOctal d then .octal (octalDigits d ds)
      else .simple d
  else .plain c

/-! ### Octal digits -/

variable {rest : List Char} {p : Piece}

theorem takeWhile_eq_nil_of_head {q : Char → Bool} {cs : List Char}
    (h : ∀ c, cs.head? = some c → q c = false) :
  cs.takeWhile q = []
  := by
  cases cs with
  | nil => rfl
  | cons c cs => rw [List.takeWhile_cons_of_neg (by simp [h c rfl])]

theorem IsOctalEscape.exists_cons {digits : List Char} (h : IsOctalEscape digits) :
  ∃ first others, digits = first :: others
  := by
  cases digits with
  | nil => cases h
  | cons first others => exact ⟨first, others, rfl⟩

theorem IsOctalEscape.forall_isOctal {digits : List Char} (h : IsOctalEscape digits) :
  ∀ c ∈ digits, isOctal c = true
  := by
  match digits, h with
  | [a], ha =>
      have ha : isOctal a = true := ha
      simp [ha]
  | [_, _], ⟨ha, hb⟩ => simp [ha, hb]
  | [_, _, _], ⟨⟨ha, _⟩, hb, hc⟩ => simp [ha, hb, hc]

theorem IsOctalEscape.first {first : Char} {digits : List Char}
    (h : IsOctalEscape (first :: digits)) :
  isOctal first = true ∧ first ≠ 'u'
  := by
  have hfirst := h.forall_isOctal first List.mem_cons_self
  use hfirst
  rintro rfl
  exact absurd hfirst (by decide)

/-- The digits of an octal escape are taken where no more of them could be. -/
theorem octalDigits_append {first : Char} {digits : List Char}
    (h : IsOctalEscape (first :: digits))
    (hlast : ∀ c, rest.head? = some c → ¬ IsOctalEscape (first :: digits ++ [c])) :
  octalDigits first (digits ++ rest) = first :: digits
  := by
  have hhead (n : Nat) (hn : ∀ c, rest.head? = some c → isOctal c = false) :
      (rest.take n).takeWhile isOctal = [] := by
    apply takeWhile_eq_nil_of_head
    intro c hc
    rw [List.head?_take] at hc
    split at hc
    · cases hc
    · apply hn c hc
  rw [octalDigits]
  match digits, h with
  | [], h =>
      have hfirst : isOctal first = true := h
      have hnone (c : Char) (hc : rest.head? = some c) : isOctal c = false := by
        simpa [IsOctalEscape, hfirst] using hlast c hc
      rw [List.nil_append, hhead _ hnone]
  | [a], ⟨hfirst, ha⟩ =>
      split
      · rename_i hsmall
        have hnone (c : Char) (hc : rest.head? = some c) : isOctal c = false := by
          simpa [IsOctalEscape, hfirst, ha, hsmall] using hlast c hc
        rw [List.singleton_append, List.take_succ_cons, List.takeWhile_cons_of_pos ha,
          hhead _ hnone]
      · rw [List.singleton_append, List.take_succ_cons, List.takeWhile_cons_of_pos ha,
          List.take_zero, List.takeWhile_nil]
  | [a, b], ⟨⟨_, hsmall⟩, ha, hb⟩ =>
      rw [if_pos hsmall, List.cons_append, List.singleton_append, List.take_succ_cons,
        List.take_succ_cons, List.take_zero, List.takeWhile_cons_of_pos ha,
        List.takeWhile_cons_of_pos hb, List.takeWhile_nil]

/-- The digits that are taken are those of an octal escape, and no more of them could be. -/
theorem exists_octal {first : Char} (h : isOctal first = true) (cs : List Char) :
  ∃ digits rest, cs = digits ++ rest ∧ (Piece.octal (first :: digits)).Stands rest
  := by
  have hfour (a b c d : Char) : ¬ IsOctalEscape [a, b, c, d] := id
  match cs with
  | [] => exact ⟨[], [], rfl, h, by simp⟩
  | a :: cs =>
      by_cases ha : isOctal a = true
      · by_cases hsmall : first ≤ '3'
        · match cs with
          | [] => exact ⟨[a], [], rfl, ⟨h, ha⟩, by simp⟩
          | b :: cs =>
              by_cases hb : isOctal b = true
              · exact ⟨[a, b], cs, rfl, ⟨⟨h, hsmall⟩, ha, hb⟩, fun c _ => hfour first a b c⟩
              · refine ⟨[a], b :: cs, rfl, ⟨h, ha⟩, ?_⟩
                rintro _ ⟨⟩ ⟨-, -, hb'⟩
                exact hb hb'
        · refine ⟨[a], cs, rfl, ⟨h, ha⟩, ?_⟩
          rintro c - ⟨⟨-, hsmall'⟩, -⟩
          exact hsmall hsmall'
      · refine ⟨[], a :: cs, rfl, h, ?_⟩
        rintro _ ⟨⟩ ⟨-, ha'⟩
        exact ha ha'

/-! ### The piece at the front -/

theorem takeWhile_marks (marks : Nat) {cs : List Char} (h : cs.head? ≠ some 'u') :
  (List.replicate marks 'u' ++ cs).takeWhile (· == 'u') = List.replicate marks 'u'
    ∧ (List.replicate marks 'u' ++ cs).dropWhile (· == 'u') = cs
  := by
  have hmarks : ∀ c ∈ List.replicate marks 'u', (c == 'u') = true := by simp
  have hhead : ∀ c, cs.head? = some c → (c == 'u') = false := by
    rintro c hc
    rw [beq_eq_false_iff_ne]
    rintro rfl
    exact h hc
  constructor
  · rw [List.takeWhile_append_of_pos hmarks, takeWhile_eq_nil_of_head hhead, List.append_nil]
  · rw [List.dropWhile_append_of_pos hmarks, Text.dropWhile_of_head hhead]

/-- The letters `u` at the front of a text. -/
theorem exists_marks (cs : List Char) :
  ∃ marks tail, cs = List.replicate marks 'u' ++ tail ∧ tail.head? ≠ some 'u'
  := by
  induction cs with
  | nil => exact ⟨0, [], rfl, by simp⟩
  | cons c cs ih =>
      by_cases hc : c = 'u'
      · obtain ⟨marks, tail, rfl, htail⟩ := ih
        exact ⟨marks + 1, tail, by rw [hc, List.replicate_succ, List.cons_append], htail⟩
      · exact ⟨0, c :: cs, rfl, by simpa using hc⟩

/-- The four characters after the marks of a Unicode escape, of which there may be fewer at the end
of the text. -/
theorem Piece.Stands.take_digits {marks : Nat} {digits : List Char}
    (h : (Piece.unicode marks digits).Stands rest) :
  (digits ++ rest).take 4 = digits ∧ (digits ++ rest).drop 4 = rest
    ∧ (digits ++ rest).head? ≠ some 'u'
  := by
  obtain ⟨hle, hshort, hhead⟩ := h
  rcases Nat.lt_or_ge digits.length 4 with hlt | hge
  · obtain rfl := hshort hlt
    rw [List.append_nil]
    exact ⟨List.take_of_length_le hle, List.drop_of_length_le hle, hhead⟩
  · obtain hlength := Nat.le_antisymm hle hge
    rw [← hlength, List.take_left, List.drop_left]
    refine ⟨rfl, rfl, ?_⟩
    rw [List.head?_append_of_ne_nil]
    · apply hhead
    · rintro rfl
      cases hge

/-- A piece that is as long as it can be is the piece at the front of the text. -/
theorem Piece.Stands.firstPiece_eq (h : p.Stands rest) {c : Char} {cs : List Char}
    (heq : p.chars ++ rest = c :: cs) :
  firstPiece c cs = p
  := by
  cases p with
  | plain d =>
      obtain ⟨rfl, rfl⟩ := List.cons.inj heq
      have hplain : d ≠ '\\' := h
      simp [firstPiece, hplain]
  | simple d =>
      obtain ⟨rfl, rfl⟩ := List.cons.inj heq
      simp [firstPiece, h.1, h.2]
  | octal digits =>
      obtain ⟨rfl, rfl⟩ := List.cons.inj heq
      obtain ⟨hdigits, hlast⟩ := h
      obtain ⟨first, digits, rfl⟩ := hdigits.exists_cons
      obtain ⟨hfirst, hmark⟩ := hdigits.first
      have htaken := octalDigits_append hdigits hlast
      simp [firstPiece, hfirst, hmark, htaken]
  | unicode marks digits =>
      obtain ⟨rfl, rfl⟩ := List.cons.inj heq
      obtain ⟨htake, -, hhead⟩ := h.take_digits
      obtain ⟨hmarks, hdrop⟩ := takeWhile_marks marks hhead
      simp [firstPiece, hmarks, hdrop, htake]
  | trailing =>
      obtain ⟨rfl, rfl⟩ := List.cons.inj heq
      obtain rfl : rest = [] := h
      rfl

/-- The piece at the front of a text is as long as it can be. -/
theorem exists_firstPiece (c : Char) (cs : List Char) :
  ∃ (p : Piece) (rest : List Char), c :: cs = p.chars ++ rest ∧ p.Stands rest
  := by
  by_cases hc : c = '\\'
  · subst hc
    match cs with
    | [] => exact ⟨.trailing, [], rfl, rfl⟩
    | d :: ds =>
        by_cases hmark : d = 'u'
        · subst hmark
          obtain ⟨marks, tail, rfl, htail⟩ := exists_marks ds
          refine ⟨.unicode marks (tail.take 4), tail.drop 4, ?_, ?_, ?_, ?_⟩
          · simp [Piece.chars]
          · apply List.length_take_le
          · rw [List.length_take, List.drop_eq_nil_iff]
            omega
          · rwa [List.head?_take, if_neg (by decide)]
        · by_cases hoctal : isOctal d = true
          · obtain ⟨digits, rest, rfl, hstands⟩ := exists_octal hoctal ds
            exact ⟨.octal (d :: digits), rest, rfl, hstands⟩
          · exact ⟨.simple d, ds, rfl, hmark, Bool.eq_false_iff.mpr hoctal⟩
  · exact ⟨.plain c, cs, rfl, hc⟩

/-- A text that begins with a piece is decoded to what the piece is and then the rest. -/
theorem Piece.Stands.decode_append (h : p.Stands rest) :
  decode (p.chars ++ rest) = p.decoded ++ decode rest
  := by
  cases p with
  | plain c =>
      have hplain : c ≠ '\\' := h
      simp [chars, decoded, decode, hplain]
  | simple c => simp [chars, decoded, decode, readEscape, h.1, h.2]
  | octal digits =>
      obtain ⟨hdigits, hlast⟩ := h
      obtain ⟨first, digits, rfl⟩ := hdigits.exists_cons
      obtain ⟨hfirst, hmark⟩ := hdigits.first
      have htaken := octalDigits_append hdigits hlast
      simp [chars, decoded, decode, readEscape, hfirst, hmark, htaken]
  | unicode marks digits =>
      obtain ⟨htake, hdrop, hhead⟩ := h.take_digits
      obtain ⟨-, hskip⟩ := takeWhile_marks marks hhead
      simp [chars, decoded, decode, readEscape, hskip, htake, hdrop]
  | trailing =>
      obtain rfl : rest = [] := h
      simp [chars, decoded, decode, readEscape]

/-! ### Pieces one after the other -/

/-- Every text is pieces. -/
theorem exists_splits (text : List Char) :
  ∃ pieces, Splits text pieces
  := by
  induction hlength : text.length using Nat.strongRecOn generalizing text with
  | ind n ih =>
      cases text with
      | nil => exact ⟨[], .nil⟩
      | cons c cs =>
          obtain ⟨p, rest, heq, hstands⟩ := exists_firstPiece c cs
          have hshorter : rest.length < n := by
            obtain ⟨d, ds, hchars⟩ := p.exists_chars
            rw [← hlength, heq, hchars, List.length_append, List.length_cons]
            omega
          obtain ⟨pieces, hpieces⟩ := ih _ hshorter rest rfl
          rw [heq]
          exact ⟨p :: pieces, .cons hstands hpieces⟩

/-- A text is pieces in one way. -/
theorem Splits.unique {text : List Char} {pieces others : List Piece} (h : Splits text pieces)
    (h' : Splits text others) :
  pieces = others
  := by
  induction h generalizing others with
  | nil =>
      generalize hnil : [] = text at h'
      cases h' with
      | nil => rfl
      | @cons q _ _ _ _ =>
          obtain ⟨d, ds, hchars⟩ := q.exists_chars
          rw [hchars] at hnil
          cases hnil
  | @cons p rest _ hp _ ih =>
      obtain ⟨d, ds, hchars⟩ := p.exists_chars
      have hfront : p.chars ++ rest = d :: (ds ++ rest) := by rw [hchars, List.cons_append]
      generalize hsame : p.chars ++ rest = text at h'
      cases h' with
      | nil =>
          rw [hfront] at hsame
          cases hsame
      | cons hq hrest =>
          obtain rfl := (hp.firstPiece_eq hfront).symm.trans (hq.firstPiece_eq (hsame ▸ hfront))
          rw [ih (List.append_cancel_left hsame ▸ hrest)]

/-- A text is decoded piece by piece. -/
theorem decode_of_splits {text : List Char} {pieces : List Piece} (h : Splits text pieces) :
  decode text = pieces.flatMap Piece.decoded
  := by
  induction h with
  | nil => rw [decode, List.flatMap_nil]
  | cons hp _ ih => rw [hp.decode_append, ih, List.flatMap_cons]

/-- A text without backslashes is plain characters. -/
theorem splits_plain {text : List Char} (h : ∀ c ∈ text, c ≠ '\\') :
  Splits text (text.map .plain)
  := by
  induction text with
  | nil => exact .nil
  | cons c cs ih =>
      obtain ⟨hc, hcs⟩ := List.forall_mem_cons.mp h
      exact .cons (p := .plain c) hc (ih hcs)

/-- A text without backslashes is decoded to itself. -/
theorem decode_of_plain {text : List Char} (h : ∀ c ∈ text, c ≠ '\\') :
  decode text = text
  := by
  rw [decode_of_splits (splits_plain h), List.flatMap_map]
  apply List.flatMap_singleton'

/-- The body of a literal is what stands between its quotes. -/
theorem literalText_quoted (text : List Char) :
  literalText (String.ofList ('"' :: (text ++ ['"']))) = String.ofList (decode text)
  := by
  rw [literalText, String.toList_ofList, literalText.body, List.getLast?_concat, if_pos rfl,
    List.dropLast_concat]

/-! ### Values -/

/-- What a letter or a mark after a backslash stands for. -/
def simpleValue : Char → Char
  | 'b' => '\x08'
  | 't' => '\t'
  | 'n' => '\n'
  | 'f' => '\x0c'
  | 'r' => '\r'
  | c => c

namespace Piece

/-- The character that a piece stands for. -/
def value : Piece → Char
  | .plain c => c
  | .simple c => simpleValue c
  | .octal digits => Char.ofNat (Text.digitsValue 8 digits)
  | .unicode _ digits => Char.ofNat (Text.digitsValue 16 digits)
  | .trailing => '\\'

/-- Whether the escape of a piece is one that stands for a character. -/
def isWellFormed : Piece → Bool
  | .plain _ => true
  | .simple c => "btnfr\"'\\".toList.contains c
  | .octal _ => true
  | .unicode _ digits =>
    digits.length == 4 && digits.all (Text.isDigit 16) && decide (Text.digitsValue 16 digits).isValidChar
  | .trailing => false

end Piece

/-- The characters are hexadecimal digits of the code point of a character. There may be a plus sign
before them. -/
def WritesChar (c : Char) (cs : List Char) : Prop :=
  ∃ digits, (cs = digits ∨ cs = '+' :: digits) ∧ digits ≠ [] ∧ (∀ d ∈ digits, Text.isDigit 16 d = true)
    ∧ Text.digitsValue 16 digits = c.toNat

/-- What a piece comes to. -/
inductive Piece.Yields : Piece → List Char → Prop where
  | wellFormed {p : Piece} :
    p.isWellFormed = true →
    Yields p [p.value]
  /-- A backslash before a character that begins no escape is lost. -/
  | stray {c : Char} :
    (Piece.simple c).isWellFormed = false →
    Yields (.simple c) [c]
  | numeral {marks : Nat} {digits : List Char} {c : Char} :
    WritesChar c digits →
    Yields (.unicode marks digits) [c]
  /-- One letter `u` is kept of a Unicode escape that names no character. -/
  | unread {marks : Nat} {digits : List Char} :
    (∀ c, ¬ WritesChar c digits) →
    Yields (.unicode marks digits) ('\\' :: 'u' :: digits)
  | trailing :
    Yields .trailing ['\\']

namespace Piece

/-- A piece with its escape decoded, or as it is written where the escape is malformed. -/
def kept (p : Piece) : List Char :=
  if p.isWellFormed then [p.value] else p.chars

/-- The malformed escapes that come out as they are written. -/
def IsKept : Piece → Prop
  | .unicode marks digits => marks = 0 ∧ ∀ c, ¬ WritesChar c digits
  | .trailing => True
  | _ => False

end Piece

/-! ### Unicode escapes -/

theorem toNat_ofNat {n : Nat} (h : n.isValidChar) :
  (Char.ofNat n).toNat = n
  := by
  rw [Char.ofNat, dif_pos h]
  rfl

theorem unicodeValue_of_writesChar {c : Char} {cs : List Char} (h : WritesChar c cs) :
  unicodeValue cs = [c]
  := by
  obtain ⟨digits, hcs, hne, hhex, hvalue⟩ := h
  have hvalid : c.toNat.isValidChar := c.valid
  have hnumber : Text.numeral? 16 0x110000 cs = some c.toNat :=
    Text.numeral?_eq_some_iff.mpr ⟨digits, hcs, hne, hhex, hvalue, by omega⟩
  simp [unicodeValue, hnumber, scalar?, hvalid, Char.ofNat_toNat]

theorem unicodeValue_of_not_writesChar {cs : List Char} (h : ∀ c, ¬ WritesChar c cs) :
  unicodeValue cs = '\\' :: 'u' :: cs
  := by
  have hnone : (Text.numeral? 16 0x110000 cs).bind scalar? = none := by
    rw [Option.bind_eq_none_iff]
    intro n hn
    rw [scalar?, if_neg]
    intro hvalid
    obtain ⟨digits, hcs, hne, hhex, rfl, -⟩ := Text.numeral?_eq_some_iff.mp hn
    exact h _ ⟨digits, hcs, hne, hhex, (toNat_ofNat hvalid).symm⟩
  rw [unicodeValue, hnone]

/-- The digits of a well-formed Unicode escape write the character that it stands for. -/
theorem writesChar_of_isWellFormed {marks : Nat} {digits : List Char}
    (h : (Piece.unicode marks digits).isWellFormed = true) :
  WritesChar (Piece.unicode marks digits).value digits
  := by
  simp only [Piece.isWellFormed, Bool.and_eq_true, beq_iff_eq, List.all_eq_true,
    decide_eq_true_eq] at h
  obtain ⟨⟨hlength, hhex⟩, hvalid⟩ := h
  refine ⟨digits, .inl rfl, ?_, hhex, (toNat_ofNat hvalid).symm⟩
  rintro rfl
  cases hlength

/-! ### Decoding -/

theorem simpleValue_eq {c : Char} :
  (controlEscape? c).getD c = simpleValue c
  := by
  unfold controlEscape?
  split <;> simp_all [simpleValue]

/-- A well-formed piece is decoded to the character that it stands for. -/
theorem Piece.decoded_of_isWellFormed (h : p.isWellFormed = true) :
  p.decoded = [p.value]
  := by
  cases p with
  | plain c => rfl
  | simple c => rw [decoded, simpleValue_eq, value]
  | octal digits => rfl
  | unicode marks digits => apply unicodeValue_of_writesChar (writesChar_of_isWellFormed h)
  | trailing => cases h

/-- A piece is as long as it can be where less of the text follows it. -/
theorem Piece.Stands.of_append {more : List Char} (h : p.Stands (rest ++ more)) :
  p.Stands rest
  := by
  cases p with
  | plain c => exact h
  | simple c => exact h
  | octal digits =>
      use h.1
      intro c hc
      apply h.2 c
      rw [List.head?_append, hc]
      rfl
  | unicode marks digits =>
      obtain ⟨hle, hshort, hhead⟩ := h
      exact ⟨hle, fun hlt => (List.append_eq_nil_iff.mp (hshort hlt)).1, hhead⟩
  | trailing => exact (List.append_eq_nil_iff.mp h).1

theorem Piece.Stands.decode_alone (h : p.Stands rest) :
  decode p.chars = p.decoded
  := by
  have hwhole : p.Stands ([] ++ rest) := h
  have halone : p.Stands [] := hwhole.of_append
  have hdecode := halone.decode_append
  rwa [List.append_nil, decode, List.append_nil] at hdecode

theorem Splits.decode_alone {text : List Char} {pieces : List Piece} (h : Splits text pieces) :
  ∀ p ∈ pieces, decode p.chars = p.decoded
  := by
  induction h with
  | nil => simp
  | cons hp _ ih => exact List.forall_mem_cons.mpr ⟨hp.decode_alone, ih⟩

theorem simpleValue_of_not_mem {c : Char} (h : (Piece.simple c).isWellFormed = false) :
  simpleValue c = c
  := by
  unfold simpleValue
  split
  · cases h
  · cases h
  · cases h
  · cases h
  · cases h
  · rfl

theorem Piece.yields_decoded (p : Piece) :
  p.Yields p.decoded
  := by
  cases hp : p.isWellFormed with
  | true =>
      rw [decoded_of_isWellFormed hp]
      exact .wellFormed hp
  | false =>
      cases p with
      | plain | octal => cases hp
      | simple c =>
          rw [decoded, simpleValue_eq, simpleValue_of_not_mem hp]
          exact .stray hp
      | unicode marks digits =>
          rw [decoded]
          by_cases h : ∃ c, WritesChar c digits
          · obtain ⟨c, hc⟩ := h
            rw [unicodeValue_of_writesChar hc]
            exact .numeral hc
          · rw [not_exists] at h
            rw [unicodeValue_of_not_writesChar h]
            exact .unread h
      | trailing => exact .trailing

/-- Of the malformed escapes a backslash at the end of the text comes out as it is written, and so
does a single `u` with characters after it that are not read as a number. -/
theorem Piece.decoded_eq_chars_iff (h : p.isWellFormed = false) :
  p.decoded = p.chars ↔ p.IsKept
  := by
  cases p with
  | plain | octal => cases h
  | simple c => simp [decoded, chars, IsKept]
  | unicode marks digits =>
      rw [decoded, IsKept]
      by_cases hwrites : ∃ c, WritesChar c digits
      · obtain ⟨c, hc⟩ := hwrites
        rw [unicodeValue_of_writesChar hc]
        constructor
        · intro heq
          simp [chars] at heq
        · rintro ⟨-, hnone⟩
          exact absurd hc (hnone c)
      · rw [not_exists] at hwrites
        rw [unicodeValue_of_not_writesChar hwrites]
        constructor
        · intro heq
          have hlength := congrArg List.length heq
          simp only [chars, List.length_cons, List.length_append, List.length_replicate] at hlength
          exact ⟨by omega, hwrites⟩
        · rintro ⟨rfl, -⟩
          rfl
  | trailing => simp [decoded, chars, IsKept]

theorem Piece.decoded_eq_kept_iff :
  p.decoded = p.kept ↔ p.isWellFormed = true ∨ p.IsKept
  := by
  cases hp : p.isWellFormed with
  | true => simp [kept, hp, decoded_of_isWellFormed hp]
  | false => simp [kept, hp, decoded_eq_chars_iff hp]

/-- A text is decoded piece by piece, each piece as if it stood alone. A well-formed escape comes to
the character that it stands for. A malformed one comes out as it is written where it is a backslash
at the end of the text, or a single `u` with characters after it that are not read as a number, and
otherwise it does not. -/
theorem decode_pieces (text : List Char) :
  ∃ pieces, Splits text pieces ∧ (∀ others, Splits text others → others = pieces)
    ∧ decode text = pieces.flatMap (fun p => decode p.chars)
    ∧ ∀ p ∈ pieces, p.Yields (decode p.chars)
      ∧ (decode p.chars = p.kept ↔ p.isWellFormed = true ∨ p.IsKept)
  := by
  obtain ⟨pieces, h⟩ := exists_splits text
  refine ⟨pieces, h, fun _ h' => h'.unique h, ?_, ?_⟩
  · rw [decode_of_splits h]
    apply List.flatMap_congr
    intro p hmem
    rw [h.decode_alone p hmem]
  · intro p hmem
    rw [h.decode_alone p hmem]
    exact ⟨p.yields_decoded, p.decoded_eq_kept_iff⟩

/-- Malformed escapes are not all kept: of two letters `u` before the number of a surrogate one is
lost, and a backslash before a letter that begins no escape is. -/
theorem decode_loses_marks :
  decode "A\\uuD800".toList = "A\\uD800".toList ∧ decode "\\q".toList = "q".toList
    ∧ ¬ ∀ text pieces, Splits text pieces → decode text = pieces.flatMap Piece.kept
  := by
  have hpieces : Splits "A\\uuD800".toList [.plain 'A', .unicode 1 "D800".toList] := by
    apply Splits.cons (p := .plain 'A') (by decide : 'A' ≠ '\\')
    exact Splits.cons (p := .unicode 1 "D800".toList) ⟨by decide, by decide, by decide⟩ .nil
  have hstray : Splits "\\q".toList [.simple 'q'] :=
    .cons (p := .simple 'q') ⟨by decide, by decide⟩ .nil
  refine ⟨decode_of_splits hpieces, decode_of_splits hstray, ?_⟩
  intro h
  have hkept := h _ _ hpieces
  rw [decode_of_splits hpieces] at hkept
  exact absurd hkept (by decide)

end ClassTranscript.Java
