/-!
# UTF-8

Texts as bytes and back. `decode?` reads well-formed UTF-8 only. `decodeLossy` reads any bytes:
where they are not well formed it puts one replacement character for each longest piece that could
have begun a character, and for each byte that begins none.
-/

namespace ClassTranscript.Text

/-- The content of a file or stream. -/
abbrev Bytes : Type :=
  List UInt8

/-- A text in UTF-8. -/
def encode (text : String) : Bytes :=
  text.toList.flatMap String.utf8EncodeChar

/-- What the first byte of a longer character tells: how many bytes follow it, the bounds on the
first of them, and the bits that it contributes. -/
structure Utf8Lead where
  following : Nat
  low : UInt8
  high : UInt8
  bits : Nat

/-- The lead that a byte is. The bounds on the second byte keep out surrogates, code points that are
too large, and characters that have a shorter form. -/
def utf8Lead? (b : UInt8) : Option Utf8Lead :=
  if 0xC2 ≤ b ∧ b ≤ 0xDF then some ⟨1, 0x80, 0xBF, b.toNat - 0xC0⟩
  else if b = 0xE0 then some ⟨2, 0xA0, 0xBF, 0⟩
  else if b = 0xED then some ⟨2, 0x80, 0x9F, 0xD⟩
  else if 0xE1 ≤ b ∧ b ≤ 0xEF then some ⟨2, 0x80, 0xBF, b.toNat - 0xE0⟩
  else if b = 0xF0 then some ⟨3, 0x90, 0xBF, 0⟩
  else if 0xF1 ≤ b ∧ b ≤ 0xF3 then some ⟨3, 0x80, 0xBF, b.toNat - 0xF0⟩
  else if b = 0xF4 then some ⟨3, 0x80, 0x8F, 4⟩
  else none

/-- Reads the bytes that follow a lead, given how many there are, the bounds on the next one and the
value so far. A byte that does not fit is left unread. -/
def followLead : Nat → UInt8 → UInt8 → Nat → Bytes → Option Char × Bytes
  | 0, _, _, value, bs => (some (Char.ofNat value), bs)
  | _ + 1, _, _, _, [] => (none, [])
  | n + 1, low, high, value, b :: bs =>
    if low ≤ b ∧ b ≤ high then followLead n 0x80 0xBF (value * 64 + (b.toNat - 0x80)) bs
    else (none, b :: bs)

/-- Reads one character from a byte and those after it, or nothing where they are not well formed,
and gives the bytes left. -/
def decodeFirst (b : UInt8) (bs : Bytes) : Option Char × Bytes :=
  if b < 0x80 then (some (Char.ofNat b.toNat), bs)
  else
    match utf8Lead? b with
    | some lead => followLead lead.following lead.low lead.high lead.bits bs
    | none => (none, bs)

theorem length_followLead_le (n : Nat) (low high : UInt8) (value : Nat) (bs : Bytes) :
  (followLead n low high value bs).2.length ≤ bs.length
  := by
  induction n generalizing low high value bs with
  | zero => simp [followLead]
  | succ n ih =>
    cases bs with
    | nil => simp [followLead]
    | cons b bs =>
      simp only [followLead]
      split
      · exact Nat.le_succ_of_le (ih _ _ _ _)
      · simp

theorem length_decodeFirst_le (b : UInt8) (bs : Bytes) :
  (decodeFirst b bs).2.length ≤ bs.length
  := by
  simp only [decodeFirst]
  split
  · simp
  · split
    · apply length_followLead_le
    · simp

/-- The characters in some bytes, with a gap for each piece that is not well formed. -/
def decodePieces : Bytes → List (Option Char)
  | [] => []
  | b :: bs => (decodeFirst b bs).1 :: decodePieces (decodeFirst b bs).2
termination_by bs => bs.length
decreasing_by
  have h := length_decodeFirst_le b bs
  simp only [List.length_cons]
  omega

/-- The text that some bytes are the UTF-8 form of. -/
def decode? (bs : Bytes) : Option String :=
  ((decodePieces bs).mapM id).map String.ofList

/-- The text in some bytes, with a replacement character for each piece that is not well formed. -/
def decodeLossy (bs : Bytes) : String :=
  String.ofList ((decodePieces bs).map (·.getD '\uFFFD'))

end ClassTranscript.Text
