import ClassTranscript.Proofs.Java.Literal
import ClassTranscript.Proofs.Peg.Matching
import ClassTranscript.Proofs.Transcript.Build

/-!
# String literals in parsed texts

The string literals in the tree of a parsed text are decoded as the grammar reads them
(`literals_decode_as_taken`).
-/

namespace ClassTranscript.Transcript

open Peg

theorem hasLiterals_draft :
  Java.HasLiterals draft
  where
  nodup := nodup_draft
  mem x hx := by simp [definitions_draft, allDefinitions, Java.definitions, hx]

section

variable {d : Draft} {g : Grammar} {o : Options} {id : RuleId} {text : String} {tree : Tree}
  {stats : Stats} {log : List Event} {node : Node}

/-- The escapes of string literals are decoded as the grammar reads them. In the tree of a parse by
any rule a node of the rule of string literals covers pieces between quotes, which rounds of the rule
take one by one, and where none of them is the escape of a surrogate the pieces are decoded to the
characters that they stand for. -/
theorem literals_decode_as_taken (hd : Java.HasLiterals d) (hbuild : d.build = .ok g)
    (hparse : parse? g o id text = some (.matched tree stats, log))
    (hmem : node ∈ tree.root.descendants) (hrule : d.ruleId? "StringLiteral" = some node.rule) :
  ∃ here pieces there, (Cursor.atStart text).Reaches here ∧ here.offset = node.span.start + 1
    ∧ Java.TakenPieces d here pieces there ∧ node.span.stop = there.offset + 1
    ∧ node.text text = String.ofList ('"' :: (pieces.flatMap Java.Piece.chars ++ ['"']))
    ∧ ((∀ p ∈ pieces, ¬ p.IsSurrogate) →
      Java.decode (pieces.flatMap Java.Piece.chars) = pieces.map Java.Piece.value
        ∧ Java.literalText (node.text text) = String.ofList (pieces.map Java.Piece.value))
  := by
  have hliteral : Java.literals[12] ∈ d.definitions := hd.mem _ (by simp [Java.literals])
  obtain ⟨_, hid, hx⟩ := Draft.exists_ruleId? hd.nodup hliteral
  obtain rfl := Option.some.inj (hid.symm.trans hrule)
  cases grown_of_parse? hbuild hparse hmem hx rfl with
  | @intro _ start stop _ _ _ hstart hgrows =>
      obtain ⟨here, hopen, hgrows⟩ := hgrows.of_seq_only
      obtain ⟨there, _, _, -, hbody, hgrows⟩ := hgrows.of_seq_cons
      obtain ⟨_, hclose, hnil⟩ := hgrows.of_seq_only
      obtain ⟨rfl, -⟩ := hnil.of_seq_nil
      obtain ⟨pieces, hpieces⟩ := Java.exists_takenPieces hd hbody
      have hpasses := hopen.append (hpieces.passes.append hclose)
      have htext : String.ofList _ = _ := (Cursor.slice_eq hstart hpasses.1 hpasses.2).symm
      refine ⟨here, pieces, there, hstart.trans hopen.reaches, hopen.2, hpieces, hclose.2,
        htext.symm, ?_⟩
      intro hscalar
      have hdecode := hpieces.decode_eq hd hscalar
      use hdecode
      rw [Node.text, ← htext, ← hdecode]
      apply Java.literalText_quoted

end

/-- A literal of an octal escape, a Unicode escape with two marks, an escaped backslash and a
letter. -/
theorem literals_decode_as_taken_escapes :
  ∃ o id tree stats log, draft.ruleId? "StringLiteral" = some id
    ∧ parse? grammar o id "\"\\101\\uu0041\\\\u\"" = some (.matched tree stats, log)
    ∧ Java.literalText (tree.root.text "\"\\101\\uu0041\\\\u\"") = "AA\\u"
  := by
  have hpieces : Java.Splits "\\101\\uu0041\\\\u".toList
      [.octal "101".toList, .unicode 1 "0041".toList, .simple '\\', .plain 'u'] := by
    apply Java.Splits.cons (p := .octal "101".toList) ⟨by decide, fun _ _ h => h⟩
    apply Java.Splits.cons (p := .unicode 1 "0041".toList) ⟨by decide, by decide, by decide⟩
    apply Java.Splits.cons (p := .simple '\\') ⟨by decide, by decide⟩
    exact .cons (p := .plain 'u') (by decide : 'u' ≠ '\\') .nil
  have hliteral := hasLiterals_draft.mem Java.literals[12] (by simp [Java.literals])
  obtain ⟨id, hid, hx⟩ := Draft.exists_ruleId? nodup_draft hliteral
  obtain ⟨nodes, hgrows, -⟩ := Java.takes_literal_of_splits hasLiterals_draft hpieces (by decide) []
    (.atStart "\"\\101\\uu0041\\\\u\"") (.refl _) rfl
  obtain ⟨n, hn⟩ := exists_matched_of_grows build_draft hx hgrows
  obtain ⟨tree, stats, log, hparse, hroot⟩ :=
    hn { limits := ⟨n, n, n⟩ } (Nat.le_refl n) (Nat.le_refl n) (Nat.le_refl n)
  refine ⟨_, id, tree, stats, log, hid, hparse, ?_⟩
  have hrule : draft.ruleId? "StringLiteral" = some tree.root.rule := by
    rw [hroot]
    exact hid
  have hself : tree.root ∈ tree.root.descendants := by
    rw [Node.descendants_eq]
    apply List.mem_cons_self
  obtain ⟨_, pieces, _, -, -, htaken, -, htext, hdecode⟩ :=
    literals_decode_as_taken hasLiterals_draft build_draft hparse hself hrule
  have hwhole : tree.root.text "\"\\101\\uu0041\\\\u\"" = "\"\\101\\uu0041\\\\u\"" := by
    rw [Node.text, hroot]
    rfl
  -- the rounds take the pieces above, as a text is pieces in one way
  have hbody : pieces.flatMap Java.Piece.chars = "\\101\\uu0041\\\\u".toList := by
    have hchars := congrArg String.toList (htext.symm.trans hwhole)
    rw [String.toList_ofList] at hchars
    exact List.append_cancel_right (List.cons.inj hchars).2
  have hsplits := htaken.splits hasLiterals_draft
  rw [hbody] at hsplits
  obtain rfl := hsplits.unique hpieces
  exact (hdecode (by decide)).2

end ClassTranscript.Transcript
