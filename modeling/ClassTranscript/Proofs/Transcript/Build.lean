import ClassTranscript.Proofs.Peg.Acceptance
import ClassTranscript.Proofs.Peg.Inversion
import ClassTranscript.Transcript.Grammar

/-!
# The grammar of transcripts

The draft of the grammar of transcripts has the definitions of Java and of transcripts, all of
different names (`draft_eq`), and it builds (`build_draft`). Nodes are labelled with the names of
their rules (`label_eq_name`), and the rules on the way to the members of a class and to the rows of
their tables are referred to by each other only (`confines_memberNames`).
-/

namespace ClassTranscript.Transcript

open Peg

/-- The definitions of Java and those for transcripts after them. -/
def allDefinitions : List Definition :=
  Java.definitions ++ definitions

/-- The rules that lead to members, to fields and to the rows of the tables of members. -/
def memberNames : List String :=
  ["JavapOutput", "JavapMember", "JavapField", "LineNumberTable", "LineNumberRow",
   "LocalVariableTable", "LocalVariableRow"]

theorem labels_allDefinitions :
  (allDefinitions.all fun x => x.hidden || x.label == x.name) = true
  := by
  decide +kernel

theorem refs_allDefinitions :
  (allDefinitions.all fun x =>
    memberNames.contains x.name || x.body.refs.all (!memberNames.contains ·)) = true
  := by
  decide +kernel

theorem accepts_allDefinitions :
  accepts allDefinitions rootName = true
  := by
  decide +kernel

theorem nodup_allDefinitions :
  (allDefinitions.map (·.name)).Nodup
  := Draft.nodup_of_accepts accepts_allDefinitions

theorem draft_eq :
  draft = { definitions := allDefinitions, root := some rootName }
  := by
  have hnames := nodup_allDefinitions
  have hjava : (Java.definitions.map (·.name)).Nodup := by
    rw [allDefinitions, List.map_append] at hnames
    apply (List.nodup_append.mp hnames).1
  rw [draft, Java.draft, Draft.defineAll_of_nodup (d := {}) (by simpa using hjava),
    Draft.defineAll_of_nodup (by simpa [Draft.withRoot, allDefinitions] using hnames)]
  rfl

theorem root_draft :
  draft.root = some rootName
  := rfl

theorem definitions_draft :
  draft.definitions = allDefinitions
  := by
  rw [draft_eq]

theorem nodup_draft :
  (draft.definitions.map (·.name)).Nodup
  := by
  rw [definitions_draft]
  exact nodup_allDefinitions

theorem build_draft :
  draft.build = .ok grammar
  := by
  have haccepts : accepts draft.definitions rootName = true := by
    rw [definitions_draft]
    exact accepts_allDefinitions
  obtain ⟨g, hg⟩ := Draft.exists_build (by rw [draft_eq]) root_draft haccepts
  rw [grammar, Draft.buildD, hg]
  rfl

/-- A node is labelled with the name of its rule. -/
theorem label_eq_name {start : Cursor} {x : Definition} {node : Node}
    (h : Grown draft start x node) :
  x.label = x.name
  := by
  have hx := h.mem
  rw [definitions_draft] at hx
  have hname := List.all_eq_true.mp labels_allDefinitions x hx
  rw [h.hidden, Bool.false_or, beq_iff_eq] at hname
  apply hname

/-! ### Confined rules -/

theorem confines_memberNames :
  draft.Confines memberNames
  := by
  intro x hx hname name hmem
  rw [definitions_draft] at hx
  have hrefs := List.all_eq_true.mp refs_allDefinitions x hx
  rw [List.contains_eq_mem, decide_eq_false hname, Bool.false_or, List.all_eq_true] at hrefs
  simpa using hrefs name hmem

end ClassTranscript.Transcript
