import ClassTranscript.Proofs.Java.Rules
import ClassTranscript.Proofs.Peg.TakingLines

/-!
# Operators

The rule of an operator takes the text of the operator where none of the characters follows that
would make another operator of it, and is refused everywhere else.
-/

namespace ClassTranscript.Java

open Peg Peg.Expr

/-- A text begins with an operator, and not with a longer one that begins with it. The operator is
given as in the table: its rule, its text, and the characters that must not follow. -/
def Begins (op : String × String × String) (s : List Char) : Prop :=
  ∃ tail, s = op.2.1.toList ++ tail ∧ ∀ c, tail.head? = some c → c ∉ op.2.2.toList

variable {d : Draft} {source : String} {op : String × String × String} {s tail gap rest : List Char}

/-- Whether a text begins with an operator shows in its characters. -/
theorem begins_iff :
  Begins op s ↔ op.2.1.toList.isPrefixOf s = true
    ∧ (s.drop op.2.1.toList.length).head?.all (!op.2.2.toList.contains ·) = true
  := by
  simp only [List.isPrefixOf_iff_prefix, Option.all_eq_true, Bool.not_eq_true', ← Bool.not_eq_true,
    List.contains_iff_mem]
  constructor
  · rintro ⟨tail, rfl, hguard⟩
    refine ⟨List.prefix_append _ _, ?_⟩
    rw [List.drop_left]
    exact hguard
  · rintro ⟨⟨tail, rfl⟩, hguard⟩
    rw [List.drop_left] at hguard
    exact ⟨tail, rfl, hguard⟩

instance : Decidable (Begins op s) :=
  decidable_of_iff _ begins_iff.symm

theorem mem_operatorRules (h : op ∈ operators) :
  operatorRule op ∈ operatorRules
  := List.mem_map_of_mem h

section

variable (hd : HasRules d)

include hd

theorem takes_operator (hmem : op ∈ operators) (h : Begins op (op.2.1.toList ++ (gap ++ rest)))
    (hgap : Takes d source (.rule "Spacing") gap rest NoNodes) :
  Takes d source (.rule op.1) (op.2.1.toList ++ gap) rest NoNodes
  := by
  obtain ⟨name, text, guard⟩ := op
  obtain ⟨tail, htail, hguard⟩ := h
  obtain rfl := List.append_cancel_left htail
  apply hd.takes_hidden (by simp [groups]) (mem_operatorRules hmem) rfl (p := NoNodes)
  simp only [operatorRule]
  split
  · exact (takes_literal text _).skip hgap.last
  · apply (takes_literal text _).skip
    rw [← List.nil_append gap]
    refine (takes_notAhead (refuses_char ?_)).skip hgap.last
    intro c hc
    simpa [CharClass.holds] using hguard c hc

theorem refuses_operator (hmem : op ∈ operators) (h : ¬ Begins op s) :
  Refuses d source (.rule op.1) s
  := by
  obtain ⟨name, text, guard⟩ := op
  apply hd.refuses_rule (by simp [groups]) (mem_operatorRules hmem)
  simp only [operatorRule]
  by_cases hbegins : text.toList <+: s
  · obtain ⟨tail, rfl⟩ := hbegins
    have hguard : ∃ c, tail.head? = some c ∧ c ∈ guard.toList := by
      by_contra hnone
      exact h ⟨tail, rfl, fun c hc hmem => hnone ⟨c, hc, hmem⟩⟩
    obtain ⟨c, hhead, hmem⟩ := hguard
    obtain ⟨more, rfl⟩ := List.head?_eq_some_iff.mp hhead
    rw [if_neg (by
      rw [String.isEmpty_iff]
      rintro rfl
      cases hmem)]
    apply (takes_literal text _).refuses_seq
    have hholds : (CharClass.anyOf guard.toList).holds c = true := List.contains_iff_mem.mpr hmem
    exact (takes_char hholds more).refuses_notAhead.seq
  · split
    · exact (refuses_literal hbegins).seq
    · exact (refuses_literal hbegins).seq

end

end ClassTranscript.Java
