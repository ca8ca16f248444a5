import ClassTranscript.Peg.State
import ClassTranscript.Proofs.Peg.Run

/-!
# What remembered results mean

A memo is sound when each result in it is that of a run of the call, and the failures on the way to
a result that is not silent are covered by the frontier. A sound memo stays so when the frontier
takes in more failures, and when the result of a run is added whose failures the frontier covers.
-/

namespace ClassTranscript.Peg

theorem compareCalls_eq_eq_iff {a b : Nat × RuleId} :
  compareCalls a b = .eq ↔ a = b
  := by
  obtain ⟨m, i⟩ := a
  obtain ⟨n, j⟩ := b
  simp [compareCalls, compareLex, compareOn, Ordering.then_eq_eq]

/-- The result of a run that an entry stands for. -/
def MemoEntry.result : MemoEntry → Option Match
  | .matched stop node => some ⟨stop, node.toList⟩
  | .failed => none

namespace Memo

/-- The result remembered for a call is that of its run, wherever in the text that begins at `start`
it was made, and unless it is silent the frontier covers the failures of that run. -/
def Sound (g : Grammar) (start : Cursor) (f : Frontier) (memo : Memo) : Prop :=
  ∀ offset rule slot, memo[(offset, rule)]? = some slot →
    ∃ here e, start.Reaches here ∧ here.offset = offset
      ∧ Runs g (.call rule) here slot.entry.result e
      ∧ (slot.silent = false → ∀ m ∈ e.misses, f.Covers m)

variable {g : Grammar} {start : Cursor} {f : Frontier} {memo : Memo}

theorem sound_empty :
  Sound g start f ∅
  := by
  intro offset rule slot h
  simp at h

theorem Sound.addAll (h : memo.Sound g start f) (misses : List Miss) :
  memo.Sound g start (f.addAll misses)
  := by
  intro offset rule slot hslot
  obtain ⟨here, e, hreach, hoffset, hrun, hcovers⟩ := h offset rule slot hslot
  refine ⟨here, e, hreach, hoffset, hrun, ?_⟩
  intro hsilent m hm
  apply (hcovers hsilent m hm).addAll

theorem Sound.remember (h : memo.Sound g start f) {rule : RuleId} {slot : MemoSlot} {here : Cursor}
    {e : Effect} (hreach : start.Reaches here)
    (hrun : Runs g (.call rule) here slot.entry.result e)
    (hcovers : slot.silent = false → ∀ m ∈ e.misses, f.Covers m) :
  (memo.remember rule here.offset slot).Sound g start f
  := by
  intro offset' rule' slot' hslot'
  rw [Memo.remember, Std.TreeMap.getElem?_insert] at hslot'
  split at hslot'
  · rename_i heq
    obtain ⟨rfl, rfl⟩ := Prod.mk.inj (compareCalls_eq_eq_iff.mp heq)
    obtain rfl := Option.some.inj hslot'
    exact ⟨here, e, hreach, rfl, hrun, hcovers⟩
  · apply h offset' rule' slot' hslot'

/-- An answer from a sound memo is the result of the run of the call, and a caller that records
expectations has recorded all failures on the way to it. -/
theorem Sound.answer (h : memo.Sound g start f) {rule : RuleId} {here : Cursor} {tracking : Bool}
    {entry : MemoEntry} {r : Option Match} {e : Effect} (hreach : start.Reaches here)
    (hanswer : memo.answer? rule here.offset tracking = some entry)
    (hrun : Runs g (.call rule) here r e) :
  entry.result = r ∧ (tracking = true → ∀ m ∈ e.misses, f.Covers m)
  := by
  simp only [answer?, Option.map_eq_some_iff, Option.filter_eq_some_iff] at hanswer
  obtain ⟨slot, ⟨hslot, husable⟩, rfl⟩ := hanswer
  obtain ⟨here', e', hreach', hoffset, hrun', hcovers⟩ := h _ _ _ hslot
  obtain rfl := hreach'.unique hreach hoffset
  obtain ⟨rfl, rfl⟩ := hrun.unique hrun'
  refine ⟨rfl, ?_⟩
  intro htracking
  apply hcovers
  simpa [htracking] using husable

end Memo

end ClassTranscript.Peg
