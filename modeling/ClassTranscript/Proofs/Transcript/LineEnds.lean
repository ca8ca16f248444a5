import ClassTranscript.Proofs.Transcript.Listing.Type
import ClassTranscript.Proofs.Transcript.Reading
import ClassTranscript.Proofs.Transcript.Spreading

/-!
# Line ends of transcripts

A transcript without annotations is read in the same way whether its lines end with a line feed or
with a carriage return and a line feed (`ofTranscript_toCrlf`). All rules that its reading comes to
take line ends whole (`madeOf_isRead`), except for that of annotations, which begin with a
character that is not in the text.
-/

namespace ClassTranscript.Transcript

open Peg

/-! ### The rules that are read -/

/-- The rules that transcripts are read by, annotations apart. -/
def readNames : List String :=
  ((Java.spacing ++ Java.identifiers ++ Java.keywordRules ++ Java.operatorRules ++ Java.typeNames
      ++ definitions).map (·.name)).filter (· != "DimExpr")
    ++ ["DecimalNumeral", "StringLiteral", "Escape", "OctalEscape", "UnicodeEscape"]

/-- Whether transcripts are read by the rule of a name. Names are compared by their codes. -/
def isRead (name : String) : Bool :=
  (readNames.map textCode).any (Nat.beq (textCode name))

/-- Whether an expression is a call of the rule for annotations. -/
def callsAnnotation : Expr → Bool
  | .rule name => name == "Annotation"
  | _ => false

/-- Whether an expression takes line ends whole, or matches nothing but annotations. -/
def takesLinesOrAnnotation (e : Expr) : Bool :=
  takesLines e || callsAnnotation e

theorem madeOf_isRead :
  draft.MadeOf takesLinesOrAnnotation isRead
  := madeOf_of_all (by decide +kernel)

/-- The rule of whole transcripts is made of such expressions. -/
theorem exists_root :
  ∃ x, draft.definitions[grammar.root]? = some x
    ∧ x.body.madeOf takesLinesOrAnnotation isRead = true
  := ⟨_, definition_root, by decide⟩

section

variable {text : String}

theorem clearOf_at {rest : List Char} (h : '@' ∉ rest) :
  ClearOf "@" rest
  := by
  intro c hc hmem
  obtain rfl : c = '@' := by simpa using hmem
  exact h (List.mem_of_head? hc)

/-- The parts of the rules read a text without carriage returns and without annotations alike. -/
theorem readsAlike_of_part (hreturn : '\r' ∉ text.toList) (hat : '@' ∉ text.toList) {e : Expr}
    (he : takesLinesOrAnnotation e = true) {here : Cursor}
    (hhere : (Cursor.atStart text).Reaches here) :
  ReadsAlike draft e here.rest
  := by
  obtain ⟨before, hsource, -⟩ := hhere
  have hsource : text.toList = before ++ here.rest := hsource
  rw [hsource, List.mem_append, not_or] at hreturn hat
  rcases Bool.or_eq_true_iff.mp he with he | he
  · apply readsAlike_of_takesLines he hreturn.2
  · unfold callsAnnotation at he
    split at he
    · obtain rfl := beq_iff_eq.mp he
      apply ReadsAlike.refuses
      · intro source
        apply refuses_annotation (clearOf_at hat.2)
      · intro source
        apply refuses_annotation
        apply clearOf_at
        intro hmem
        rcases Text.eq_of_mem_crlf hmem with h | h
        · cases h
        · exact hat.2 h
    · cases he

theorem exists_parse (o : Options) (text : String) :
  ∃ outcome log, parse? grammar o grammar.root text = some (outcome, log)
  := by
  obtain ⟨rule, r, e, hrule, hrun, -⟩ := Draft.exists_run build_draft definition_root text
  obtain ⟨outcome, log, hparse, -⟩ := hrun.parse? hrule o
  exact ⟨outcome, log, hparse⟩

/-- A parse of a transcript and one of it with the other line ends both match, with trees that
differ in their spans as the texts do, or both fail. -/
theorem parse_toCrlf (hreturn : '\r' ∉ text.toList) (hat : '@' ∉ text.toList) {o o' : Options}
    (hlimit : (Peg.parse grammar o text).limit? = none)
    (hlimit' : (Peg.parse grammar o' (Text.toCrlf text)).limit? = none) :
  (∃ tree stats tree' stats', Peg.parse grammar o text = .matched tree stats
      ∧ Peg.parse grammar o' (Text.toCrlf text) = .matched tree' stats'
      ∧ tree'.root = tree.root.spread text)
    ∨ ∃ m m', Peg.parse grammar o text = .mismatched m
      ∧ Peg.parse grammar o' (Text.toCrlf text) = .mismatched m'
  := by
  obtain ⟨outcome, log, hparse⟩ := exists_parse o text
  obtain ⟨outcome', log', hparse'⟩ := exists_parse o' (Text.toCrlf text)
  obtain ⟨x, hx, hbody⟩ := exists_root
  rw [parse_eq hparse] at hlimit ⊢
  rw [parse_eq hparse'] at hlimit' ⊢
  have hpart (e : Expr) (he : takesLinesOrAnnotation e = true) (here : Cursor)
      (hhere : (Cursor.atStart text).Reaches here) : ReadsAlike draft e here.rest :=
    readsAlike_of_part hreturn hat he hhere
  cases outcome with
  | matched tree stats =>
      obtain ⟨y, there, nodes, hy, hgrows, hstop, hroot⟩ := exists_grows_of_parse? build_draft hparse
      obtain rfl := Option.some.inj (hx.symm.trans hy)
      have hspread := hgrows.spread madeOf_isRead hpart (.refl _) hbody
      rw [Cursor.spread_atStart] at hspread
      cases outcome' with
      | mismatched m' =>
          exact absurd (fails_of_mismatched build_draft hx hparse' hlimit') hspread.not_fails
      | matched tree' stats' =>
          obtain ⟨y, there', nodes', hy', hgrows', hstop', hroot'⟩ :=
            exists_grows_of_parse? build_draft hparse'
          obtain rfl := Option.some.inj (hx.symm.trans hy')
          obtain ⟨rfl, rfl⟩ := hgrows'.unique hspread
          refine .inl ⟨tree, stats, tree', stats', rfl, rfl, ?_⟩
          have hspan : (⟨0, tree.stop⟩ : Span).spread text = ⟨0, tree'.stop⟩ := by
            rw [Span.spread, Text.spread_zero, ← hstop, ← hstop', Cursor.spread]
          rw [hroot, hroot', Node.spread_mk, hspan, apply_ite (List.map (Node.spread text)),
            List.map_nil]
  | mismatched m =>
      have hspread := (fails_of_mismatched build_draft hx hparse hlimit).spread madeOf_isRead hpart
        (.refl _) hbody
      rw [Cursor.spread_atStart] at hspread
      cases outcome' with
      | matched tree' stats' => exact absurd hparse' (not_matched_of_fails build_draft hx hspread)
      | mismatched m' => exact .inr ⟨m, m', rfl, rfl⟩

/-! ### Readings -/

/-- What readings of a text and of the text with the other line ends come to: records that differ in
the line ends inside their texts, the same error of the projection at the place to which it moved,
or that neither text is a transcript. -/
inductive SameReading (text : String) :
    Except ReadingError ClassRecord → Except ReadingError ClassRecord → Prop where
  | record (record : ClassRecord) :
    SameReading text (.ok record) (.ok (record.mapTexts Text.toCrlf))
  | projection (e : ProjectionError) :
    SameReading text (.error (.projection e)) (.error (.projection (e.spread text)))
  | mismatch (m m' : Mismatch) :
    SameReading text (.error (.mismatch m)) (.error (.mismatch m'))

/-- Line ends do not matter to transcripts without annotations. Where no limit stops the parses, a
text without carriage returns and the text with one before each line feed are read in the same way,
under any limits and under those of `ClassRecord.ofTranscript`. -/
theorem ofTranscript_toCrlf (hreturn : '\r' ∉ text.toList) (hat : '@' ∉ text.toList) :
  (∀ o o', (Peg.parse grammar o text).limit? = none →
      (Peg.parse grammar o' (Text.toCrlf text)).limit? = none →
      SameReading text (ClassRecord.ofOutcome text (Peg.parse grammar o text))
        (ClassRecord.ofOutcome (Text.toCrlf text) (Peg.parse grammar o' (Text.toCrlf text))))
    ∧ ((Peg.parse grammar {} text).limit? = none →
      (Peg.parse grammar {} (Text.toCrlf text)).limit? = none →
      SameReading text (ClassRecord.ofTranscript text)
        (ClassRecord.ofTranscript (Text.toCrlf text)))
  := by
  have hsame (o o' : Options) (hlimit : (Peg.parse grammar o text).limit? = none)
      (hlimit' : (Peg.parse grammar o' (Text.toCrlf text)).limit? = none) :
      SameReading text (ClassRecord.ofOutcome text (Peg.parse grammar o text))
        (ClassRecord.ofOutcome (Text.toCrlf text) (Peg.parse grammar o' (Text.toCrlf text))) := by
    rcases parse_toCrlf hreturn hat hlimit hlimit' with
      ⟨tree, stats, tree', stats', hparse, hparse', hroot⟩ | ⟨m, m', hparse, hparse'⟩
    · have hspread := (made_of_parse hparse).classRecord_spread
      rw [hparse, hparse', ClassRecord.ofOutcome, ClassRecord.ofOutcome, ClassRecord.ofTree,
        ClassRecord.ofTree, hroot, hspread]
      cases classRecord text tree.root with
      | ok record => exact .record record
      | error e => exact .projection e
    · rw [hparse, hparse']
      exact .mismatch m m'
  exact ⟨hsame, hsame {} {}⟩

/-- The transcript of a class is read with two characters at the end of each line as with one. -/
theorem ofTranscript_toCrlf_greeter :
  ∃ o, ClassRecord.ofOutcome (String.ofList (greeter.print .usual))
      (Peg.parse grammar o (String.ofList (greeter.print .usual))) = .ok (greeter.record .usual)
    ∧ ClassRecord.ofOutcome (Text.toCrlf (String.ofList (greeter.print .usual)))
        (Peg.parse grammar o (Text.toCrlf (String.ofList (greeter.print .usual))))
      = .ok ((greeter.record .usual).mapTexts Text.toCrlf)
  := by
  obtain ⟨n, hn⟩ := exists_parse_print greeter .usual
  obtain ⟨n', hn'⟩ := exists_sufficient build_draft definition_root
    (Text.toCrlf (String.ofList (greeter.print .usual)))
  obtain ⟨o, hdepth, hsteps, hentries⟩ : ∃ o : Options, n + n' ≤ o.limits.depth
      ∧ n + n' ≤ o.limits.steps ∧ n + n' ≤ o.limits.entries :=
    ⟨{ limits := ⟨n + n', n + n', n + n'⟩ }, Nat.le_refl _, Nat.le_refl _, Nat.le_refl _⟩
  obtain ⟨tree, stats, hparse, hrecord⟩ := hn o (by omega) (by omega) (by omega)
  obtain ⟨outcome, log, hparse', hlimit'⟩ := hn' o (by omega) (by omega) (by omega)
  have hreturn : '\r' ∉ (String.ofList (greeter.print .usual)).toList := by
    rw [String.toList_ofList]
    decide
  have hat : '@' ∉ (String.ofList (greeter.print .usual)).toList := by
    rw [String.toList_ofList]
    decide
  obtain ⟨hsame, -⟩ := ofTranscript_toCrlf hreturn hat
  have hsame := hsame o o (by rw [hparse]; rfl) (by rw [parse_eq hparse', hlimit'])
  use o
  rw [hparse, ClassRecord.ofOutcome, hrecord] at hsame ⊢
  generalize ClassRecord.ofOutcome _ _ = reading at hsame ⊢
  cases hsame with
  | record => exact ⟨rfl, rfl⟩

end

end ClassTranscript.Transcript
