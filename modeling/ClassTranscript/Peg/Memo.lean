import ClassTranscript.Peg.Tree
import Std.Data.TreeMap

/-!
# Remembered results

A `Memo` remembers, for a rule and the offset at which it was called, that the call failed, or where
its match ended and which node it made. A result that was found inside a predicate is silent: no
expectations were recorded on the way to it, so it is no use to a caller that records them.
-/

namespace ClassTranscript.Peg

/-- The result of a call. -/
inductive MemoEntry where
  /-- The match ended at `stop` and made `node`, unless the rule is hidden. -/
  | matched (stop : Cursor) (node : Option Node)
  | failed

/-- A remembered result. -/
structure MemoSlot where
  entry : MemoEntry
  /-- The result was found inside a predicate. -/
  silent : Bool

/-- The order of calls: by offset, then by rule. -/
def compareCalls : Nat × RuleId → Nat × RuleId → Ordering :=
  compareLex (compareOn Prod.fst) (compareOn Prod.snd)

instance : Std.TransCmp compareCalls :=
  inferInstanceAs (Std.TransCmp (compareLex (compareOn Prod.fst) (compareOn Prod.snd)))

/-- The remembered results, by the offset and the rule of the call. -/
abbrev Memo :=
  Std.TreeMap (Nat × RuleId) MemoSlot compareCalls

namespace Memo

/-- The result remembered for a call. A caller that records expectations passes over silent
results. -/
def answer? (memo : Memo) (rule : RuleId) (offset : Nat) (tracking : Bool) : Option MemoEntry :=
  (memo[(offset, rule)]?.filter fun slot => !(tracking && slot.silent)).map (·.entry)

/-- Whether any result is remembered for a call. -/
def knows (memo : Memo) (rule : RuleId) (offset : Nat) : Bool :=
  memo.contains (offset, rule)

/-- The memo with the result of a call added. -/
def remember (memo : Memo) (rule : RuleId) (offset : Nat) (slot : MemoSlot) : Memo :=
  memo.insert (offset, rule) slot

end Memo

end ClassTranscript.Peg
