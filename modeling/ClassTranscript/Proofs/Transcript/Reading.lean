import ClassTranscript.Proofs.Peg.Matching
import ClassTranscript.Proofs.Transcript.Listing.RoundTrip

/-!
# Reading transcripts

What a parsed transcript is read as. A tree that the grammar makes has a record unless a number in
it is too large (`ofTree_of_parse`), and the text of a printed listing is read as the record of the
listing (`ofTranscript_print`).
-/

namespace ClassTranscript.Transcript

open Peg

section

variable {text : String}

theorem ofTranscript_of_matched {tree : Tree} {stats : Stats}
    (h : Peg.parse grammar {} text = .matched tree stats) :
  ClassRecord.ofTranscript text = (ClassRecord.ofTree text tree).mapError .projection
  := by
  rw [ClassRecord.ofTranscript, h, ClassRecord.ofOutcome]

theorem ofTranscript_of_mismatched {m : Mismatch}
    (h : Peg.parse grammar {} text = .mismatched m) :
  ClassRecord.ofTranscript text = .error (.mismatch m)
  := by
  rw [ClassRecord.ofTranscript, h, ClassRecord.ofOutcome]

end

/-! ### A listing -/

/-- The name of the class below. -/
def greeterName : DottedName where
  first := ⟨'d', "emo".toList, by decide, by decide, by decide +kernel⟩
  others := [⟨'G', "reeter".toList, by decide, by decide, by decide +kernel⟩]

/-- The name of its superclass. -/
def objectName : DottedName where
  first := ⟨'j', "ava".toList, by decide, by decide, by decide +kernel⟩
  others :=
    [⟨'l', "ang".toList, by decide, by decide, by decide +kernel⟩,
     ⟨'O', "bject".toList, by decide, by decide, by decide +kernel⟩]

/-- A class with a constructor. -/
def greeter : Listing where
  sourceFile := "Greeter.java".toList
  sourceFile_plain := by decide
  kind := .classType
  modifiers := [⟨"public", by decide⟩]
  name := greeterName
  extended := [objectName]
  implemented := []
  members :=
    [{ fields := []
       modifiers := [⟨"public", by decide⟩]
       shape := .constructor greeterName [] []
       lines := [⟨3, 0⟩]
       lines_nonempty := by decide
       locals := [⟨0, 5, 0, .this, 0, .object "demo/Greeter".toList (by decide) (by decide)⟩]
       locals_nonempty := by decide }]
  members_nonempty := by decide
  fields := []

example : String.ofList (greeter.print .usual) =
    "Compiled from \"Greeter.java\"\n" ++
    "public class demo.Greeter extends java.lang.Object\x7b\n" ++
    "public demo.Greeter();\n" ++
    "  LineNumberTable:\n   line 3: 0\n\n" ++
    "  LocalVariableTable:\n   Start  Length  Slot  Name   Signature\n" ++
    "   0      5      0    this       Ldemo/Greeter;\n\n\n" ++
    "\x7d\n" := by
  decide +kernel

/-! ### Printed listings -/

/-- A parse of a printed listing comes to a tree with the record of the listing, or reports a
limit. -/
theorem parse_print (c : Listing) (s : Style) (o : Options) :
  (∃ tree stats, Peg.parse grammar o (String.ofList (c.print s)) = .matched tree stats
      ∧ ClassRecord.ofTree (String.ofList (c.print s)) tree = .ok (c.record s))
    ∨ ∃ m limit, Peg.parse grammar o (String.ofList (c.print s)) = .mismatched m
      ∧ m.cause = .limit limit
  := by
  obtain ⟨nodes, hgrows, hshows⟩ := c.takes_class s (.atStart (String.ofList (c.print s)))
    (.refl _) (by simp [Cursor.atStart])
  obtain ⟨outcome, log, hparse, hend⟩ := exists_tree_of_grows build_draft definition_root hgrows o
  rw [parse_eq hparse]
  rcases hend with ⟨tree, stats, rfl, hchildren⟩ | ⟨m, limit, rfl, hcause⟩
  · refine .inl ⟨tree, stats, rfl, ?_⟩
    have hchildren : tree.root.children = nodes := hchildren
    rw [← hchildren] at hshows
    have hrecord := hshows.classRecord_eq (made_of_parse (parse_eq hparse))
    rw [typeKind_kindWord] at hrecord
    apply hrecord
  · exact .inr ⟨m, limit, rfl, hcause⟩

/-- Where the limits are all large enough a parse of a listing printed under some header comes to a tree
that shows the listing. -/
theorem exists_parse_printOf (c : Listing) (s : Style) {header : List Char} {kind : String}
    {modifiers : List String}
    (hheader : ∀ source rest, Takes draft source (.rule "ClassHeader") header ('\x7b' :: rest)
      fun nodes => ∃ node, nodes = [node] ∧ ShowsHeader source kind modifiers c node) :
  ∃ n, ∀ o : Options, n ≤ o.limits.depth → n ≤ o.limits.steps → n ≤ o.limits.entries →
    ∃ tree stats, Peg.parse grammar o (String.ofList (c.printOf s header)) = .matched tree stats
      ∧ ShowsClass (String.ofList (c.printOf s header)) s kind modifiers c tree.root.children
  := by
  obtain ⟨nodes, hgrows, hshows⟩ := c.takes_classOf s (hheader _)
    (.atStart (String.ofList (c.printOf s header))) (.refl _) (by simp [Cursor.atStart])
  obtain ⟨n, hn⟩ := exists_matched_of_grows build_draft definition_root hgrows
  use n
  intro o hdepth hsteps hentries
  obtain ⟨tree, stats, log, hparse, hroot⟩ := hn o hdepth hsteps hentries
  refine ⟨tree, stats, parse_eq hparse, ?_⟩
  rw [hroot]
  apply hshows

theorem exists_parse_print (c : Listing) (s : Style) :
  ∃ n, ∀ o : Options, n ≤ o.limits.depth → n ≤ o.limits.steps → n ≤ o.limits.entries →
    ∃ tree stats, Peg.parse grammar o (String.ofList (c.print s)) = .matched tree stats
      ∧ ClassRecord.ofTree (String.ofList (c.print s)) tree = .ok (c.record s)
  := by
  obtain ⟨n, hn⟩ := exists_parse_printOf c s fun _ _ => c.takes_header s
  use n
  intro o hdepth hsteps hentries
  obtain ⟨tree, stats, hparse, hshows⟩ := hn o hdepth hsteps hentries
  have hrecord := hshows.classRecord_eq (made_of_parse hparse)
  rw [typeKind_kindWord] at hrecord
  exact ⟨tree, stats, hparse, hrecord⟩

/-- The text of a printed listing is read as the record of the listing, unless a limit stops the
parse; and a parse whose limits are all large enough is not stopped. -/
theorem ofTranscript_print (c : Listing) (s : Style) :
  (ClassRecord.ofTranscript (String.ofList (c.print s)) = .ok (c.record s)
      ∨ ∃ m limit, ClassRecord.ofTranscript (String.ofList (c.print s)) = .error (.mismatch m)
        ∧ m.cause = .limit limit)
    ∧ ∃ n, ∀ o : Options, n ≤ o.limits.depth → n ≤ o.limits.steps → n ≤ o.limits.entries →
      ∃ tree stats, Peg.parse grammar o (String.ofList (c.print s)) = .matched tree stats
        ∧ ClassRecord.ofTree (String.ofList (c.print s)) tree = .ok (c.record s)
  := by
  constructor
  · rcases parse_print c s {} with ⟨tree, stats, hparse, hrecord⟩ | ⟨m, limit, hparse, hcause⟩
    · left
      rw [ofTranscript_of_matched hparse, hrecord]
      rfl
    · right
      exact ⟨m, limit, ofTranscript_of_mismatched hparse, hcause⟩
  · apply exists_parse_print

/-- The transcript of the class above is read under large limits. -/
theorem ofTranscript_print_greeter :
  ∃ o tree stats, Peg.parse grammar o (String.ofList (greeter.print .usual)) = .matched tree stats
    ∧ ClassRecord.ofTree (String.ofList (greeter.print .usual)) tree = .ok (greeter.record .usual)
  := by
  obtain ⟨-, n, hn⟩ := ofTranscript_print greeter .usual
  exact ⟨{ limits := ⟨n, n, n⟩ }, hn _ (Nat.le_refl n) (Nat.le_refl n) (Nat.le_refl n)⟩

/-! ### Parsed transcripts -/

/-- The projection fits the grammar. On the tree of a parsed transcript it fails where a number in a
row is too large, and then at the first such number in document order; otherwise it gives a record
with an entry for each member, each field and each row, in document order. -/
theorem ofTree_of_parse {source : String} {o : Options} {tree : Tree} {stats : Stats}
    (h : Peg.parse grammar o source = .matched tree stats) :
  (∀ quantity numeral, (numerals tree.root).find? (isOversized source) = some (quantity, numeral) →
      ClassRecord.ofTree source tree
        = .error (.invalidNumber (numeral.text source) numeral.span quantity))
    ∧ ((∀ numeral ∈ numerals tree.root, isOversized source numeral = false) →
      ∃ record, ClassRecord.ofTree source tree = .ok record ∧ Reflects source tree.root record)
  := by
  have hmade := made_of_parse h
  have hchecked := hmade.classRecord_checked
  rw [Checked] at hchecked
  constructor
  · intro quantity numeral hfirst
    rw [hfirst] at hchecked
    apply hchecked
  · intro hsmall
    rw [List.find?_eq_none.mpr (by simpa using hsmall)] at hchecked
    obtain ⟨record, hrecord⟩ := hchecked
    exact ⟨record, hrecord, hmade.reflects_class hrecord⟩

/-- The transcript of the class above has a record with an entry for each node. -/
theorem ofTree_of_parse_greeter :
  ∃ o tree stats, Peg.parse grammar o (String.ofList (greeter.print .usual)) = .matched tree stats
    ∧ ∃ record, ClassRecord.ofTree (String.ofList (greeter.print .usual)) tree = .ok record
      ∧ Reflects (String.ofList (greeter.print .usual)) tree.root record
  := by
  obtain ⟨n, hn⟩ := exists_parse_print greeter .usual
  obtain ⟨tree, stats, hparse, hrecord⟩ :=
    hn { limits := ⟨n, n, n⟩ } (Nat.le_refl n) (Nat.le_refl n) (Nat.le_refl n)
  obtain ⟨hlarge, hsmall⟩ := ofTree_of_parse hparse
  refine ⟨_, tree, stats, hparse, hsmall ?_⟩
  -- a number that is too large would leave no record
  intro numeral hmem
  rw [Bool.eq_false_iff]
  intro hover
  cases hfirst : (numerals tree.root).find? (isOversized (String.ofList (greeter.print .usual))) with
  | none => exact List.find?_eq_none.mp hfirst numeral hmem hover
  | some entry =>
      rw [hlarge _ _ hfirst] at hrecord
      cases hrecord

end ClassTranscript.Transcript
