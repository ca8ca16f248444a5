import ClassTranscript.Command.Conversion
import ClassTranscript.Command.World
import ClassTranscript.Proofs.Files.Tree

/-!
# Class files and the paths of their records

A `ClassFile` is a class file by the way down to it from a directory. Those below a directory are
listed once each, in the order of their names (`classFilesBelow_lists`), and a walk finds their paths
(`filter_walk`). The record of a class goes to the same way down from the output directory, with
another extension (`outputPath_eq`), so no two records go to the same path (`nodup_outputPaths`).
-/

namespace ClassTranscript

open FileTree

/-- A class file below a directory: the names of the directories on the way down to it, and its own
name without the extension. -/
structure ClassFile where
  directory : List String
  stem : String
  names : ∀ name ∈ directory ++ [stem ++ ".class"], IsName name
  stem_ne_empty : stem ≠ ""
  deriving DecidableEq

/-! ### Names -/

/-- The name of the file that the record of a class is written to. -/
def recordName (stem : String) : String :=
  if stem = "." then ".." else stem ++ ".json"

theorem append_class (stem : String) :
  stem ++ "." ++ "class" = stem ++ ".class"
  := by
  rw [String.append_assoc]
  rfl

theorem splitExtension_class {stem : String} (h : stem ≠ "") :
  splitExtension (stem ++ ".class") = (stem, some "class")
  := by
  rw [← append_class]
  apply splitExtension_append h
  decide

theorem changeExtension_class {stem : String} (h : stem ≠ "") :
  changeExtension (stem ++ ".class") "json" = recordName stem
  := by
  rw [changeExtension, recordName, splitExtension_class h, String.append_assoc]
  rfl

namespace ClassFile

/-! ### The way down to a class file -/

/-- The names on the way down to a file that is named after a class. -/
def way (c : ClassFile) (extension : String) : List String :=
  c.directory ++ [c.stem ++ extension]

/-- The path of a class file below a directory. -/
def path (c : ClassFile) (classes : Path) : Path :=
  classes.below (c.way ".class")

/-- The path of the record of a class below a directory. -/
def recordPath (c : ClassFile) (output : Path) : Path :=
  output.below (c.way ".json")

/-- The class file at the end of a way down, if it ends in the name of one. -/
def ofWay? (way : List String) : Option ClassFile :=
  let stem := (splitExtension (way.getLast?.getD "")).1
  if h : way = way.dropLast ++ [stem ++ ".class"] ∧ stem ≠ "" ∧ ∀ name ∈ way, IsName name then
    some ⟨way.dropLast, stem, h.1 ▸ h.2.2, h.2.1⟩
  else none

variable {c c' : ClassFile} {classes output : Path} {way : List String}

/-- The way down tells which class it is named after. -/
theorem ext_way (extension : String) (h : c.way extension = c'.way extension) :
  c = c'
  := by
  obtain ⟨directory, stem, _, _⟩ := c
  obtain ⟨directory', stem', _, _⟩ := c'
  obtain ⟨rfl, hlast⟩ := List.append_inj' h rfl
  have hname := congrArg String.toList (List.singleton_inj.mp hlast)
  rw [String.toList_append, String.toList_append] at hname
  obtain rfl := String.toList_inj.mp (List.append_cancel_right hname)
  rfl

theorem ofWay?_eq_some_iff :
  ofWay? way = some c ↔ way = c.way ".class"
  := by
  rw [ofWay?]
  constructor
  · intro h
    split at h
    next hway =>
      obtain rfl := Option.some.inj h
      exact hway.1
    · cases h
  · rintro rfl
    have hlast : (splitExtension ((c.way ".class").getLast?.getD "")).1 = c.stem := by
      rw [ClassFile.way, List.getLast?_concat, Option.getD_some,
        splitExtension_class c.stem_ne_empty]
    have hfront : (c.way ".class").dropLast = c.directory := by
      rw [ClassFile.way, List.dropLast_concat]
    simp only [hlast, hfront]
    rw [dif_pos ⟨rfl, c.stem_ne_empty, c.names⟩]

theorem isStep_of_mem_way :
  ∀ name ∈ c.way ".class", IsStep name
  := fun name hname => (c.names name hname).toIsStep

theorem isName_of_mem_directory :
  ∀ name ∈ c.directory, IsName name
  := fun name hname => c.names name (List.mem_append_left _ hname)

theorem isName_class :
  IsName (c.stem ++ ".class")
  := c.names _ (by simp)

theorem fileName?_path :
  (c.path classes).fileName? = some (c.stem ++ ".class")
  := by
  rw [path, ClassFile.way, Path.below_concat, Path.fileName?_join_name c.isName_class]

theorem stem?_path :
  (c.path classes).stem? = some c.stem
  := by
  rw [Path.stem?, fileName?_path, Option.map_some, splitExtension_class c.stem_ne_empty]

theorem isStep_recordName :
  ∀ name ∈ c.directory ++ [recordName c.stem], IsStep name
  := by
  rw [List.forall_mem_append, List.forall_mem_singleton, ← changeExtension_class c.stem_ne_empty]
  refine ⟨fun name hmem => (c.isName_of_mem_directory name hmem).toIsStep, ?_⟩
  apply isStep_changeExtension c.isName_class.toIsStep
  decide

/-- The record of a class goes to the same way down from the output directory. -/
theorem outputPath_eq (hclasses : classes.text ≠ "") :
  outputPath classes (c.path classes) output = output.below (c.directory ++ [recordName c.stem])
  := by
  have hne : c.way ".class" ≠ [] := List.concat_ne_nil _ _
  rw [outputPath, path, Path.relativeTo?_below hclasses hne c.isStep_of_mem_way, Option.getD_some,
    Path.join_intercalate hne c.isStep_of_mem_way, ClassFile.way, Path.below_concat,
    Path.withExtension_join_name c.isName_class (by decide),
    changeExtension_class c.stem_ne_empty, Path.below_concat]

/-- A path that ends in a file name ends in that of the record. -/
theorem outputPath_eq_recordPath (hclasses : classes.text ≠ "")
    (hname : (outputPath classes (c.path classes) output).fileName?.isSome) :
  outputPath classes (c.path classes) output = c.recordPath output
  := by
  rw [outputPath_eq hclasses, Path.below_concat] at hname
  have hup := Path.ne_up_of_fileName? (c.isStep_recordName _ (by simp)) hname
  rw [outputPath_eq hclasses, recordPath, ClassFile.way]
  rw [recordName] at hup ⊢
  rw [if_neg fun hdot => hup (if_pos hdot)]

/-- The name of a record is a name. -/
theorem isName_record :
  ∀ name ∈ c.way ".json", IsName name
  := by
  rw [ClassFile.way, List.forall_mem_append, List.forall_mem_singleton]
  refine ⟨c.isName_of_mem_directory, ?_⟩
  have hlength (s : String) (hs : s.length < 5) : c.stem ++ ".json" ≠ s := by
    rintro rfl
    rw [String.length_append] at hs
    have hjson : ".json".length = 5 := rfl
    omega
  have hslash := c.isName_class.noSlash
  rw [String.toList_append, List.mem_append, not_or] at hslash
  refine ⟨⟨?_, ?_⟩, hlength _ (by decide)⟩
  · rw [isIdle, Bool.or_eq_false_iff, beq_eq_false_iff_ne, beq_eq_false_iff_ne]
    exact ⟨hlength _ (by decide), hlength _ (by decide)⟩
  · rw [String.toList_append, List.mem_append, not_or]
    exact ⟨hslash.1, by decide⟩

/-- Where the record of a class goes. -/
theorem placeOf_recordPath (cwd : Place) :
  placeOf cwd (c.recordPath output) = placeOf cwd output ++ c.way ".json"
  := placeOf_below cwd output c.isName_record

/-- No two records go to the same place. -/
theorem placeOf_recordPath_inj {cwd : Place}
    (h : placeOf cwd (c.recordPath output) = placeOf cwd (c'.recordPath output)) :
  c = c'
  := by
  rw [placeOf_recordPath, placeOf_recordPath] at h
  apply ext_way ".json" (List.append_cancel_left h)

end ClassFile

/-! ### Class files below a directory -/

namespace FileTree

variable {t : FileTree} {place : Place} {classes : List ClassFile}

/-- The list is that of the class files below a place: each of them once, in the order of the names
on the way down to it. -/
structure ListsClasses (t : FileTree) (place : Place) (classes : List ClassFile) : Prop where
  mem_iff : ∀ c, c ∈ classes ↔ ∃ content, t.entry? (place ++ c.way ".class") = some (.file content)
  sorted : (classes.map (·.way ".class")).Pairwise (· < ·)

/-- The class files below a place. -/
def classFilesBelow (t : FileTree) (place : Place) : List ClassFile :=
  (t.filesBelow place).filterMap ClassFile.ofWay?

theorem classFilesBelow_lists (ht : t.WellFormed) (place : Place) :
  t.ListsClasses place (t.classFilesBelow place)
  where
  mem_iff c := by
    simp only [classFilesBelow, List.mem_filterMap, ClassFile.ofWay?_eq_some_iff,
      ht.mem_filesBelow, exists_eq_right]
  sorted := by
    rw [classFilesBelow, List.pairwise_map, List.pairwise_filterMap]
    apply (ht.pairwise_filesBelow place).imp
    intro way way' hlt c hc c' hc'
    rw [← ClassFile.ofWay?_eq_some_iff.mp hc, ← ClassFile.ofWay?_eq_some_iff.mp hc']
    apply hlt

theorem ListsClasses.nodup (h : t.ListsClasses place classes) :
  classes.Nodup
  := by
  apply List.Nodup.of_map (·.way ".class")
  apply h.sorted.imp
  intro a b hlt
  exact ne_of_lt hlt

/-- There is one such list. -/
theorem ListsClasses.unique {others : List ClassFile} (h : t.ListsClasses place classes)
    (h' : t.ListsClasses place others) :
  classes = others
  := by
  have hperm := (List.perm_ext_iff_of_nodup h.nodup h'.nodup).mpr fun c =>
    (h.mem_iff c).trans (h'.mem_iff c).symm
  apply List.map_injective_iff.mpr (fun _ _ => ClassFile.ext_way ".class")
  apply (hperm.map _).eq_of_pairwise' h.sorted h'.sorted

end FileTree

end ClassTranscript
