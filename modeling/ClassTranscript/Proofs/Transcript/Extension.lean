import ClassTranscript.Proofs.Peg.Extension
import ClassTranscript.Proofs.Peg.Parse
import ClassTranscript.Proofs.Transcript.Build

/-!
# Java inside transcripts

A grammar with further rules parses a text from an old rule as it did without them. The grammar of
transcripts is that of Java with further rules, and the grammar of Java builds by itself
(`build_javaDraft`), so each of its rules parses a text in either grammar in the same way
(`parse?_of_extension`).
-/

namespace ClassTranscript.Transcript

open Peg

theorem refs_javaDefinitions :
  (Java.definitions.all fun x => x.body.refs.all fun name =>
    (codedId? Java.definitions name).isSome) = true
  := by
  decide +kernel

theorem root_javaDefinitions :
  (codedId? Java.definitions Java.rootName).isSome = true
  := by
  decide

theorem mem_namesOf_of_codedId? {xs : List Definition} {name : String}
    (h : (codedId? xs name).isSome = true) :
  name ∈ namesOf xs
  := by
  by_contra hname
  rw [codedId?_eq { definitions := xs }, Draft.ruleId?_eq_none_iff.mpr hname] at h
  cases h

theorem javaDraft_eq :
  Java.draft = { definitions := Java.definitions, root := some Java.rootName }
  := by
  have hnames := nodup_allDefinitions
  rw [allDefinitions, List.map_append, List.nodup_append] at hnames
  rw [Java.draft, Draft.defineAll_of_nodup (d := {}) (by simpa using hnames.1)]
  rfl

theorem build_javaDraft :
  Java.draft.build = .ok Java.grammar
  := by
  have hwell := Draft.wellFormed_of_build build_draft nodup_draft
  rw [definitions_draft, allDefinitions] at hwell
  have hrefs : RefsDefined Java.definitions := by
    intro x hx name hname
    have hnames := List.all_eq_true.mp refs_javaDefinitions x hx
    apply mem_namesOf_of_codedId? (List.all_eq_true.mp hnames name hname)
  have hroot : RootDefined Java.definitions (some Java.rootName) := by
    rintro name ⟨⟩
    apply mem_namesOf_of_codedId? root_javaDefinitions
  have hnonempty : Java.definitions ≠ [] := by
    intro hnil
    have hname := hroot Java.rootName rfl
    rw [hnil] at hname
    cases hname
  have hjava := hwell.of_append hnonempty hroot hrefs
  obtain ⟨g, hg⟩ := Draft.exists_build_of_wellFormed (d := Java.draft) (by rw [javaDraft_eq])
    (by rw [javaDraft_eq]; exact hjava)
  rw [Java.grammar, Draft.buildD, hg]
  rfl

/-- The draft for transcripts is that for Java after further calls. -/
theorem draft_eq_foldl :
  draft =
    (definitions.map BuilderCall.rule ++ [BuilderCall.root rootName]).foldl Draft.perform Java.draft
  := by
  rw [List.foldl_append, List.foldl_map, draft]
  generalize definitions = xs
  rfl

/-- Further rules change nothing for a rule that a grammar has: it keeps its number, and it parses
every text with the same outcome and the same events. So every rule of Java parses a text in the
grammar of transcripts as in that of Java. -/
theorem parse?_of_extension :
  (∀ (d : Draft) (g g' : Grammar) (more : List BuilderCall), d.build = .ok g →
      (more.foldl Draft.perform d).build = .ok g' → ∀ name id, g.ruleId? name = some id →
      g'.ruleId? name = some id ∧ ∀ o text, parse? g' o id text = parse? g o id text)
    ∧ Java.draft.build = .ok Java.grammar
    ∧ ∀ name id, Java.grammar.ruleId? name = some id →
      grammar.ruleId? name = some id
        ∧ ∀ o text, parse? grammar o id text = parse? Java.grammar o id text
  := by
  have hextends {g g' : Grammar} (h : g'.Extends g) (name : String) (id : RuleId)
      (hid : g.ruleId? name = some id) :
      g'.ruleId? name = some id ∧ ∀ o text, parse? g' o id text = parse? g o id text := by
    obtain ⟨hrule, hid'⟩ := h.ruleId?_eq hid
    exact ⟨hid', h.parse?_eq hrule⟩
  refine ⟨?_, build_javaDraft, ?_⟩
  · intro d g g' more hbuild hbuild'
    apply hextends (Draft.extends_of_build hbuild hbuild')
  · apply hextends
    apply Draft.extends_of_build build_javaDraft
    rw [← draft_eq_foldl]
    exact build_draft

/-- Calls that add to the rules for descriptors a root for several of them. -/
def descriptorListCalls : List BuilderCall :=
  [.rule { name := "DescriptorList", body := .plus (.rule "FieldDescriptor"), memo := .mismatches },
   .root "DescriptorList"]

/-- The draft for lists of descriptors. -/
def descriptorListDraft : Draft :=
  descriptorListCalls.foldl Draft.perform descriptorDraft

theorem build_descriptorListDraft :
  descriptorListDraft.build = .ok descriptorListDraft.buildD
  := rfl

/-- A single descriptor is parsed in the grammar of lists of descriptors as in that of
descriptors. -/
theorem parse?_descriptorList :
  descriptorListDraft.buildD.root = 5
    ∧ descriptorListDraft.buildD.ruleId? "FieldDescriptor" = some 0
    ∧ ∀ o text, parse? descriptorListDraft.buildD o 0 text = parse? descriptorDraft.buildD o 0 text
  := by
  refine ⟨rfl, ?_⟩
  apply parse?_of_extension.1 _ _ _ _ build_descriptorDraft build_descriptorListDraft
  rw [Grammar.ruleId?, ← descriptorDraft.buildD.rules.toArray_toList, List.findIdx?_toArray]
  rfl

end ClassTranscript.Transcript
