import ClassTranscript.Proofs.Java.Precedence
import ClassTranscript.Proofs.Language.Rules
import ClassTranscript.Proofs.Peg.JustWhere

/-!
# Chains of operands

The rule of expressions matches a whole chain of operands and binary operators, and the nodes of the
levels of precedence group its operands (`expression_groups`).
-/

namespace ClassTranscript.Language

open Peg Java

/-- The levels of precedence group a chain. Of operands that are words and no keywords, with binary
operators between them and a blank between each two tokens, the rule of expressions matches all,
limits apart. Below the root stands one conditional expression, below that one node of the loosest
level, and from there on the children of each node of a level are the segments in order into which
the operators of the level split what the node covers, down to the operands. -/
theorem expression_groups (lang : Language) {tokens : List String}
    (h : IsChain binarySigns tokens) :
  ∃ id, lang.grammar.ruleId? "Expression" = some id
    ∧ ∀ o, ∃ outcome log, parse? lang.grammar o id (" ".intercalate tokens) = some (outcome, log)
      ∧ (outcome.limit? = none → ∃ tree stats conditional node, outcome = .matched tree stats
        ∧ tree.stop = (" ".intercalate tokens).utf8ByteSize
        ∧ tree.root.children = [conditional] ∧ conditional.label = "ConditionalExpression"
        ∧ conditional.children = [node] ∧ Groups (" ".intercalate tokens) ladder node tokens)
  := by
  obtain ⟨d, hbuild, hd⟩ := lang.exists_draft
  have hx : precedenceLevels[2] ∈ d.definitions :=
    hd.mem_of_group (by simp [groups]) (List.getElem_mem _)
  obtain ⟨id, hid, hid', hparses⟩ := exists_ruleId_of_mem hbuild hd.nodup hx
  refine ⟨id, hid, ?_⟩
  intro o
  obtain ⟨outcome, log, hparse⟩ := hparses o (" ".intercalate tokens)
  refine ⟨outcome, log, hparse, ?_⟩
  intro hlimit
  have htext := toList_intercalate_append [] h.ne_nil
  rw [List.append_nil] at htext
  obtain ⟨_, hgrows, conditional, node, rfl, hlabel, hnode, hgroups⟩ :=
    takes_expression (" ".intercalate tokens) hd h (.atStart _) (.refl _)
      (htext.trans (List.append_nil _).symm)
  cases outcome with
  | matched tree stats =>
      obtain ⟨y, there, nodes, hy, hmatch, hstop, hroot⟩ := exists_grows_of_parse? hbuild hparse
      obtain rfl := Option.some.inj (hid'.symm.trans hy)
      obtain ⟨rfl, rfl⟩ := hgrows.unique hmatch
      refine ⟨tree, stats, conditional, node, rfl, ?_, by rw [hroot]; rfl, hlabel, hnode, hgroups⟩
      rw [← hstop, Text.utf8ByteSize_eq_byteLength, htext]
      exact Nat.zero_add _
  | mismatched m =>
      exact absurd (fails_of_mismatched hbuild hid' hparse hlimit) hgrows.not_fails

/-- The product is an operand of the sum, and the sum one of the comparison. -/
theorem expression_groups_comparison :
  ∃ o id tree stats log conditional node,
    parse? Java.grammar o id "a + b * c <= d" = some (.matched tree stats, log)
      ∧ tree.stop = 14 ∧ tree.root.children = [conditional] ∧ conditional.children = [node]
      ∧ Groups "a + b * c <= d" ladder node ["a", "+", "b", "*", "c", "<=", "d"]
  := by
  have hoperand {token : String} (hsmall : SmallLetters [token])
      (h : token ≠ "" ∧ token ∉ keywords) : IsOperand token :=
    ⟨isWord_of_smallLetters (hsmall token List.mem_cons_self).2, h⟩
  have hchain : IsChain binarySigns ["a", "+", "b", "*", "c", "<=", "d"] := by
    apply IsChain.operation (hoperand (by decide) (by decide)) (by decide)
    apply IsChain.operation (hoperand (by decide) (by decide)) (by decide)
    apply IsChain.operation (hoperand (by decide) (by decide)) (by decide)
    exact .operand (hoperand (by decide) (by decide))
  obtain ⟨id, hid, hparses⟩ := expression_groups .java hchain
  have hx : precedenceLevels[2] ∈ Java.draft.definitions :=
    hasRules_draft.mem_of_group (by simp [groups]) (List.getElem_mem _)
  obtain ⟨id', hid', hrule, -⟩ :=
    exists_ruleId_of_mem Transcript.build_javaDraft hasRules_draft.nodup hx
  obtain rfl : id = id' := Option.some.inj (hid.symm.trans hid')
  obtain ⟨n, hn⟩ := exists_sufficient Transcript.build_javaDraft hrule "a + b * c <= d"
  obtain ⟨outcome, log, hparse, hmatch⟩ := hparses { limits := ⟨n, n, n⟩ }
  obtain ⟨_, _, hsame, hlimit⟩ :=
    hn { limits := ⟨n, n, n⟩ } (Nat.le_refl n) (Nat.le_refl n) (Nat.le_refl n)
  obtain ⟨rfl, rfl⟩ := Prod.mk.inj (Option.some.inj (hparse.symm.trans hsame))
  obtain ⟨tree, stats, conditional, node, rfl, hstop, hroot, -, hnode, hgroups⟩ := hmatch hlimit
  exact ⟨_, id, tree, stats, log, conditional, node, hparse, hstop, hroot, hnode, hgroups⟩

end ClassTranscript.Language
