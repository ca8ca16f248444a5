import ClassTranscript.Peg.Parse
import ClassTranscript.Transcript.Grammar
import ClassTranscript.Transcript.Projection

/-!
# Reading transcripts

`ClassRecord.ofTranscript` parses a whole transcript and projects the record of its class.
-/

namespace ClassTranscript.Transcript

open Peg

/-- Why a text gives no record: it is no transcript, or its tree has no record. -/
inductive ReadingError where
  | mismatch (mismatch : Mismatch)
  | projection (error : ProjectionError)

/-- The record of the class that the outcome of a parse of a transcript shows. -/
def ClassRecord.ofOutcome (text : String) : Outcome → Except ReadingError ClassRecord
  | .mismatched mismatch => .error (.mismatch mismatch)
  | .matched tree _ => (ClassRecord.ofTree text tree).mapError .projection

/-- The record of the class that a transcript shows. -/
def ClassRecord.ofTranscript (text : String) : Except ReadingError ClassRecord :=
  ClassRecord.ofOutcome text (Peg.parse grammar {} text)

end ClassTranscript.Transcript
