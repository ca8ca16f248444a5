import ClassTranscript.Proofs.Text.Decimal
import ClassTranscript.Proofs.Text.Slice
import ClassTranscript.Proofs.Transcript.Nodes
import ClassTranscript.Transcript.Projection

/-!
# The numerals of a transcript

`numerals node` lists the numbers in the rows at or below a node, in document order, each with what
it counts. A projection is `Checked` by some numerals when it fails at the first of them that is too
large and succeeds when none is. A number is checked by its own numeral (`Made.number_checked`), and
checked projections put after each other are checked by their numerals after each other.
-/

namespace ClassTranscript.Transcript

open Peg

/-! ### Numerals -/

/-- What the number at a place in a row counts. -/
def quantityAt (label : String) (place : Nat) : Quantity :=
  if label = "LineNumberRow" then
    if place = 0 then .lineNumber else .bytecodeOffset
  else if place = 0 then .startOffset
  else if place = 1 then .length
  else .slot

/-- The numerals of a row, each with what it counts. -/
def rowNumerals (row : Node) : List (Quantity × Node) :=
  (row.childrenLabeled "DecimalNumeral").zipIdx.map fun (node, place) =>
    (quantityAt row.label place, node)

/-- Whether a label is that of the rows of one of the two tables. -/
def isRow (label : String) : Bool :=
  label == "LineNumberRow" || label == "LocalVariableRow"

/-- The numerals in the rows at or below a node, in document order. -/
def numerals (node : Node) : List (Quantity × Node) :=
  (node.descendants.filter (isRow ·.label)).flatMap rowNumerals

/-- The number that a numeral writes has more than 32 bits. -/
def isOversized (source : String) (numeral : Quantity × Node) : Bool :=
  4294967295 < Text.decimalValue (numeral.2.text source).toList

/-! ### Checked projections -/

/-- The projection fails at the first of the numerals that is too large, and succeeds when none
is. -/
def Checked {α : Type} (source : String) (ns : List (Quantity × Node)) (p : Projected α) : Prop :=
  match ns.find? (isOversized source) with
  | some (quantity, node) => p = .error (.invalidNumber (node.text source) node.span quantity)
  | none => ∃ a, p = .ok a

section

variable {α β : Type} {source : String} {ns ms : List (Quantity × Node)} {p : Projected α}

theorem checked_ok (a : α) :
  Checked source [] (.ok a : Projected α)
  := ⟨a, rfl⟩

/-- A projection followed by another is checked by the numerals of the one and then of the other. -/
theorem Checked.bind (h : Checked source ns p) {f : α → Projected β}
    (hf : ∀ a, p = .ok a → Checked source ms (f a)) :
  Checked source (ns ++ ms) (p >>= f)
  := by
  rw [Checked] at h ⊢
  rw [List.find?_append]
  cases hfirst : ns.find? (isOversized source) with
  | some numeral =>
      rw [hfirst] at h
      rw [h]
      rfl
  | none =>
      rw [hfirst] at h
      obtain ⟨a, rfl⟩ := h
      apply hf a rfl

/-- A projection of each of some nodes is checked by their numerals. -/
theorem Checked.mapM {f : Node → Projected β} {numeralsOf : Node → List (Quantity × Node)}
    {nodes : List Node} (h : ∀ node ∈ nodes, Checked source (numeralsOf node) (f node)) :
  Checked source (nodes.flatMap numeralsOf) (nodes.mapM f)
  := by
  induction nodes with
  | nil => exact ⟨[], rfl⟩
  | cons node nodes ih =>
      rw [List.flatMap_cons, List.mapM_cons]
      apply (h node List.mem_cons_self).bind
      intro a _
      rw [← List.append_nil (nodes.flatMap numeralsOf)]
      apply (ih fun n hmem => h n (List.mem_cons_of_mem _ hmem)).bind
      intro as _
      apply checked_ok

end

/-! ### The numbers of rows -/

theorem isDecimal_of_range {lo c : Char} (hlo : '0' ≤ lo)
    (h : (CharClass.range lo '9').holds c = true) :
  Text.IsDecimal c
  := by
  simp only [CharClass.holds, Bool.and_eq_true, decide_eq_true_eq] at h
  exact ⟨Nat.le_trans hlo h.1, h.2⟩

/-- The rule of numerals takes digits. -/
theorem exists_digits_of_grows {here there : Cursor} {ns : List Node}
    (h : Grows draft Java.literals[2].body here there ns) :
  ∃ cs, cs ≠ [] ∧ (∀ c ∈ cs, Text.IsDecimal c) ∧ here.rest = cs ++ there.rest
    ∧ there.offset = here.offset + Text.byteLength cs
  := by
  cases h with
  | reads hreads => contradiction
  | choiceFirst hzero =>
      obtain ⟨c, hc, hrest, hoffset⟩ := hzero.of_char
      obtain rfl : c = '0' := beq_iff_eq.mp hc
      refine ⟨['0'], by simp, ?_, hrest, hoffset⟩
      intro c hmem
      obtain rfl := List.mem_singleton.mp hmem
      exact ⟨by decide, by decide⟩
  | choiceNext _ h =>
      cases h with
      | reads hreads => contradiction
      | choiceNext _ h =>
          cases h with
          | reads hreads => contradiction
      | choiceFirst h =>
          cases h with
          | reads hreads => contradiction
          | seqNext hfirst h =>
              cases h with
              | reads hreads => contradiction
              | seqNext hstar h =>
                  cases h with
                  | reads hreads => contradiction
                  | seqNil =>
                      obtain ⟨c, hc, hrest, hoffset⟩ := hfirst.of_char
                      obtain ⟨cs, hcs, hrest', hoffset'⟩ := hstar.of_star_char
                      refine ⟨c :: cs, by simp, ?_, by rw [hrest, hrest', List.cons_append], ?_⟩
                      · intro c' hmem
                        rcases List.mem_cons.mp hmem with rfl | hmem
                        · apply isDecimal_of_range (by decide) hc
                        · apply isDecimal_of_range (by decide) (hcs c' hmem)
                      · rw [hoffset', hoffset, Text.byteLength_cons, Nat.add_assoc]

section

variable {source : String} {node : Node}

/-- A numeral covers digits. -/
theorem Made.exists_digits (h : Made (.atStart source) "DecimalNumeral" node) :
  ∃ cs, cs ≠ [] ∧ (∀ c ∈ cs, Text.IsDecimal c) ∧ node.text source = String.ofList cs
  := by
  cases h.grown (mem_literals 2 rfl) with
  | intro _ _ hstart hgrows =>
      obtain ⟨cs, hne, hdecimal, hrest, hoffset⟩ := exists_digits_of_grows hgrows
      exact ⟨cs, hne, hdecimal, Cursor.slice_eq hstart hrest hoffset⟩

/-- The number of a numeral is checked by the numeral. -/
theorem Made.number_checked (h : Made (.atStart source) "DecimalNumeral" node)
    (quantity : Quantity) :
  Checked source [(quantity, node)] (number source quantity node)
  := by
  obtain ⟨cs, hne, hdecimal, htext⟩ := h.exists_digits
  have htrim : textOf source node = String.ofList cs := by
    rw [textOf, htext, Text.trim_of_tight]
    apply Text.tight_of_forall
    intro c hmem
    apply (hdecimal c hmem).isBlank
  rw [Checked, List.find?_singleton, number, htrim, String.toList_ofList,
    Text.numeral?_of_decimal hne hdecimal, isOversized, htext, String.toList_ofList]
  by_cases hlarge : 4294967295 < Text.decimalValue cs
  · have hbound : ¬ Text.decimalValue cs < UInt32.size := by
      rw [UInt32.size]
      omega
    simp [hlarge, hbound, Option.filter, htext]
  · have hbound : Text.decimalValue cs < UInt32.size := by
      rw [UInt32.size]
      omega
    simp [hlarge, hbound, Option.filter]

end

end ClassTranscript.Transcript
