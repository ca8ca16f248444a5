import ClassTranscript.Language
import ClassTranscript.Proofs.Java.Rules
import ClassTranscript.Proofs.Transcript.Extension

/-!
# The rules of Java in every language

The grammar of each language is built from a draft that has the definitions of Java
(`exists_draft`), so what holds of the rules of Java holds of them in each language.
-/

namespace ClassTranscript

open Peg

theorem Java.hasRules_draft :
  Java.HasRules Java.draft
  where
  nodup := by
    have hnames := Transcript.nodup_allDefinitions
    rw [Transcript.allDefinitions, List.map_append, List.nodup_append] at hnames
    rw [Transcript.javaDraft_eq]
    exact hnames.1
  mem x hx := by rwa [Transcript.javaDraft_eq]

theorem Transcript.hasRules_draft :
  Java.HasRules Transcript.draft
  where
  nodup := Transcript.nodup_draft
  mem x hx := by
    rw [Transcript.definitions_draft]
    exact List.mem_append_left _ hx

theorem Language.exists_draft (lang : Language) :
  ∃ d : Draft, d.build = .ok lang.grammar ∧ Java.HasRules d
  := by
  cases lang with
  | java => exact ⟨Java.draft, Transcript.build_javaDraft, Java.hasRules_draft⟩
  | transcript => exact ⟨Transcript.draft, Transcript.build_draft, Transcript.hasRules_draft⟩

end ClassTranscript
