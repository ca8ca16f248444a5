import ClassTranscript.Java.Grammar
import ClassTranscript.Proofs.Java.Literal

/-!
# The rules of Java in a draft

`HasRules d` says that a draft has the definitions of Java and that its names are all different, so
that each name leads to the definition that it has in Java. The lemmas about the rules of Java hold
of every such draft.
-/

namespace ClassTranscript.Java

open Peg

/-- A draft that has the definitions of Java. -/
structure HasRules (d : Draft) : Prop where
  nodup : (d.definitions.map (·.name)).Nodup
  mem : ∀ x ∈ definitions, x ∈ d.definitions

/-! ### Definitions by place -/

/-- The definitions of Java in the groups that they are written in. -/
def groups : List (List Definition) :=
  [spacing, identifiers, keywordRules, literals, operatorRules, typeNames, precedenceLevels,
   primaries, creators, statements, compilationUnits, classDeclarations, interfaceDeclarations,
   enumDeclarations, variableDeclarations, parameterDeclarations, annotationRules]

theorem definitions_eq_flatten :
  definitions = groups.flatten
  := by
  simp only [definitions, groups, List.flatten_cons, List.flatten_nil, List.append_assoc,
    List.append_nil]

namespace HasRules

variable {d : Draft} {source : String} {x : Definition} {group : List Definition}
  {s rest : List Char} {p : List Node → Prop} (hd : HasRules d)

include hd

theorem mem_of_group (hgroup : group ∈ groups) (hx : x ∈ group) :
  x ∈ d.definitions
  := by
  apply hd.mem
  rw [definitions_eq_flatten]
  exact List.mem_flatten_of_mem hgroup hx

theorem literals :
  HasLiterals d
  where
  nodup := hd.nodup
  mem _ hx := hd.mem_of_group (by simp [groups]) hx

theorem takes_hidden (hgroup : group ∈ groups) (hx : x ∈ group) (hhidden : x.hidden = true)
    (h : Takes d source x.body s rest p) :
  Takes d source (.rule x.name) s rest NoNodes
  := h.hidden_rule hd.nodup (hd.mem_of_group hgroup hx) hhidden

/-- A call of a rule that makes nodes leaves one node. -/
theorem takes_node (hgroup : group ∈ groups) (hx : x ∈ group) (hhidden : x.hidden = false)
    (h : Takes d source x.body s rest p) :
  Takes d source (.rule x.name) s rest fun nodes => ∃ node, nodes = [node]
    ∧ node.label = x.label ∧ node.text source = String.ofList s
    ∧ (x.leaf = false → p node.children)
  := h.rule hd.nodup (hd.mem_of_group hgroup hx) hhidden

theorem takes_rule (hgroup : group ∈ groups) (hx : x ∈ group) (h : Takes d source x.body s rest p) :
  Takes d source (.rule x.name) s rest AnyNodes
  := h.call hd.nodup (hd.mem_of_group hgroup hx)

theorem refuses_rule (hgroup : group ∈ groups) (hx : x ∈ group)
    (h : Refuses d source x.body rest) :
  Refuses d source (.rule x.name) rest
  := h.rule hd.nodup (hd.mem_of_group hgroup hx)

end HasRules

end ClassTranscript.Java
