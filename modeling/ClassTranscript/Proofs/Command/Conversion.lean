import ClassTranscript.Proofs.Command.ClassFiles
import ClassTranscript.Proofs.Text.Utf8
import ClassTranscript.Proofs.Transcript.Reading

/-!
# What a conversion saves

A conversion of class files in a world goes through worlds that differ in their files only, so what
the disassembler makes of a class (`World.transcript`) is the same in all of them. What one class
comes to is a failure of the disassembler, a fault of the file system, or a step of the conversion
(`convertClass`), and steps are put together one by one, as their records go to different places
(`Converts.cons`). So the classes are converted up to the first one that the disassembler fails on,
and none of their records is lost (`convertClasses_converts`).
-/

namespace ClassTranscript

open FileTree Transcript

/-! ### Commands of a world -/

namespace World

variable {w w' after : World} {o : ConversionOptions} {program : String} {place : Place}
  {c : ClassFile} {classes before : List ClassFile}

theorem run_runProgram (w : World) (program : String) (arguments : List String)
    (directory : Option Path) :
  StateT.run (Host.runProgram program arguments directory : StateM World _) w
    = pure (w.runProgram program arguments directory, w)
  := rfl

theorem run_makeDirectories (w : World) (path : Path) :
  StateT.run (Host.makeDirectories path : StateM World _) w
    = pure ((w.files.makeDirectories w.cwd path).2,
        { w with files := (w.files.makeDirectories w.cwd path).1 })
  := rfl

theorem run_writeFile (w : World) (path : Path) (content : Text.Bytes) :
  StateT.run (Host.writeFile path content : StateM World _) w
    = pure (match w.files.write w.cwd path content with
      | .ok files => (.ok (), { w with files })
      | .error fault => (.error fault, w))
  := rfl

/-- A world with well-formed files and a working directory that is there. -/
structure WellFormed (w : World) : Prop where
  files : w.files.WellFormed
  cwd : w.files.entry? w.cwd = some .directory

/-! ### Transcripts -/

/-- What the disassembler makes of a class below a place: what it prints where it ends well, and
else why there is no transcript. It runs in the directory of the class file, on the name of the
class. -/
def transcript (w : World) (program : String) (place : Place) (c : ClassFile) :
    Except ConversionError String :=
  match w.programs.lookup program with
  | none => .error (.program program .notFound)
  | some run =>
    let finished := run (place ++ c.directory) ["-l", c.stem]
    if finished.status = 0 then .ok (Text.decodeLossy finished.stdout)
    else
      .error (.disassembly program c.stem finished.status
        (Text.trim (Text.decodeLossy finished.stderr)))

/-- The record of a class, if its transcript is accepted. -/
def record? (w : World) (program : String) (place : Place) (c : ClassFile) : Option ClassRecord :=
  (w.transcript program place c).toOption.bind fun text =>
    (ClassRecord.ofTranscript text).toOption

theorem transcript_congr (h : w'.programs = w.programs) :
  w'.transcript program place c = w.transcript program place c
  := by
  rw [transcript, transcript, h]

theorem record?_congr (h : w'.programs = w.programs) :
  w'.record? program place c = w.record? program place c
  := by
  rw [record?, record?, transcript_congr h]

theorem toOption_mapError {ε δ α : Type} (f : ε → δ) (x : Except ε α) :
  (x.mapError f).toOption = x.toOption
  := by
  cases x with
  | ok a => rfl
  | error e => rfl

theorem record?_of_transcript {text : String} (h : w.transcript program place c = .ok text) :
  w.record? program place c = (recordOrReason text).toOption
  := by
  rw [record?, h, recordOrReason, toOption_mapError, Except.toOption, Option.bind_some]

/-- The path of a class file below a directory is a way into the directory that the class file is
in. -/
def Enters (w : World) (directory : Path) (place : Place) (c : ClassFile) : Prop :=
  ∃ parent, (c.path directory).parent? = some parent
    ∧ w.files.descend (startOf w.cwd parent) parent.steps = .ok (place ++ c.directory)

section

variable {directory : Path}

theorem Enters.of_puts {files : List (Place × Text.Bytes)} (h : w.Enters directory place c)
    (hputs : Puts w.files files w'.files) (hcwd : w'.cwd = w.cwd) :
  w'.Enters directory place c
  := by
  obtain ⟨parent, hparent, hway⟩ := h
  rw [← hcwd] at hway
  exact ⟨parent, hparent, descend_mono hputs.directories hway⟩

/-- The disassembler runs in the directory of the class file. -/
theorem Enters.runProgram_eq (h : w.Enters directory place c) (arguments : List String) :
  w.runProgram program arguments ((c.path directory).parent?.filter (·.text != ""))
    = match w.programs.lookup program with
      | none => .error .notFound
      | some run => .ok (run (place ++ c.directory) arguments)
  := by
  obtain ⟨parent, hparent, hway⟩ := h
  rw [hparent]
  by_cases htext : parent.text = ""
  · obtain rfl : parent = ⟨""⟩ := by
      cases parent
      cases htext
      rfl
    rw [← Except.ok.inj hway]
    rfl
  · rw [Option.filter_some_pos (by simpa using htext)]
    simp only [runProgram, hway, bind, Except.bind]
    rfl

/-- Disassembling a class gives its transcript and changes nothing. -/
theorem Enters.run_disassemble (h : w.Enters directory place c) :
  StateT.run (disassemble program (c.path directory) : StateM World _) w
    = pure (w.transcript program place c, w)
  := by
  rw [disassemble, StateT.run_bind, run_runProgram, pure_bind, c.stem?_path, Option.getD_some,
    h.runProgram_eq, transcript]
  cases w.programs.lookup program with
  | none => rfl
  | some run =>
      dsimp only
      by_cases hstatus : (run (place ++ c.directory) ["-l", c.stem]).status = 0
      · rw [if_neg (not_not_intro hstatus), if_pos hstatus]
        rfl
      · rw [if_pos hstatus, if_neg hstatus]
        rfl

end

/-! ### Saving a record -/

/-- What the file of a record holds: the record as a document, and a line end. -/
def contentOf (r : ClassRecord) : Text.Bytes :=
  Text.encode (r.toJson.pretty ++ "\n")

theorem encode_recordText (r : ClassRecord) :
  Text.encode (recordText r) = contentOf r
  := rfl

/-- What the world `w'` is after a record was saved in the world `w`. -/
structure Saves (w : World) (target : Path) (r : ClassRecord) (w' : World) : Prop where
  /-- The record is where its path leads to, and no other file is changed. -/
  puts : Puts w.files [(placeOf w.cwd target, contentOf r)] w'.files
  read : w'.files.read w.cwd target = .ok (contentOf r)
  named : target.fileName?.isSome
  rest : w' = { w with files := w'.files }

/-- Saving a record either fails to write or saves it. -/
theorem WellFormed.saveRecord (hw : w.WellFormed) {target : Path} {r : ClassRecord}
    {result : Except ConversionError Unit}
    (hrun : StateT.run (saveRecord target r : StateM World _) w = (result, w')) :
  (∃ path fault, result = .error (.write path fault))
    ∨ (result = .ok () ∧ w.Saves target r w')
  := by
  rw [ClassTranscript.saveRecord, StateT.run_bind, run_makeDirectories, pure_bind] at hrun
  dsimp only at hrun
  split at hrun
  next fault hfault =>
    obtain ⟨rfl, rfl⟩ := Prod.mk.inj hrun
    exact .inl ⟨_, fault, rfl⟩
  next hmade =>
    rw [StateT.run_bind, run_writeFile, pure_bind] at hrun
    dsimp only at hrun
    rw [encode_recordText] at hrun
    have hdirectories : Puts w.files []
        (w.files.makeDirectories w.cwd (target.parent?.getD ⟨""⟩)).1 :=
      .of_makeDirectories hw.files hw.cwd
    have hcwd := hdirectories.directories _ hw.cwd
    generalize (w.files.makeDirectories w.cwd (target.parent?.getD ⟨""⟩)).1 = files
      at hrun hdirectories hcwd
    cases hwrite : files.write w.cwd target (contentOf r) with
    | error fault =>
        rw [hwrite] at hrun
        obtain ⟨rfl, rfl⟩ := Prod.mk.inj hrun
        exact .inl ⟨_, fault, rfl⟩
    | ok written =>
        rw [hwrite] at hrun
        obtain ⟨rfl, rfl⟩ := Prod.mk.inj hrun
        obtain ⟨hputs, hread, hname⟩ := Puts.of_write hdirectories.wellFormed hcwd hwrite
        exact .inr ⟨rfl, hdirectories.trans hputs (by simp), hread, hname, rfl⟩

/-- The files that hold the records of the accepted ones of some classes. -/
def saved (w : World) (o : ConversionOptions) (place : Place) (classes : List ClassFile) :
    List (Place × Text.Bytes) :=
  classes.filterMap fun c => (w.record? o.program place c).map fun r =>
    (placeOf w.cwd (c.recordPath o.output), contentOf r)

theorem mem_saved {file : Place × Text.Bytes} :
  file ∈ w.saved o place classes ↔ ∃ c ∈ classes, ∃ r, w.record? o.program place c = some r
    ∧ (placeOf w.cwd (c.recordPath o.output), contentOf r) = file
  := by
  simp only [saved, List.mem_filterMap, Option.map_eq_some_iff]

/-- What the world `w'` is after the conversion of some classes in the world `w`. -/
structure Converts (w : World) (o : ConversionOptions) (place : Place) (classes : List ClassFile)
    (w' : World) : Prop where
  /-- The disassembler has succeeded on each class. -/
  transcripts : ∀ c ∈ classes, ∃ text, w.transcript o.program place c = .ok text
  /-- The record of each accepted class goes to the same way down as its class file, and it is
  there. -/
  records : ∀ c ∈ classes, ∀ r, w.record? o.program place c = some r →
    outputPath o.classes (c.path o.classes) o.output = c.recordPath o.output
      ∧ w'.files.read w.cwd (c.recordPath o.output) = .ok (contentOf r)
  /-- No other file is changed. -/
  puts : Puts w.files (w.saved o place classes) w'.files
  /-- Nothing else is changed. -/
  rest : w' = { w with files := w'.files }

/-- What is read of a class is skipped or saved. -/
theorem WellFormed.saveReading (hw : w.WellFormed) {target : Path}
    {reading : Except String ClassRecord} {result : Except ConversionError Converted}
    (hrun : StateT.run (saveReading target reading : StateM World _) w = (result, w')) :
  (∃ r path fault, (StateT.run (ClassTranscript.saveRecord target r : StateM World _) w).1
        = .error (.write path fault) ∧ result = .error (.write path fault))
    ∨ (∃ reason, reading = .error reason ∧ result = .ok (.skipped reason) ∧ w' = w)
    ∨ (∃ r, reading = .ok r ∧ result = .ok .written ∧ w.Saves target r w')
  := by
  cases reading with
  | error reason =>
      obtain ⟨rfl, rfl⟩ := Prod.mk.inj hrun
      exact .inr (.inl ⟨reason, rfl, rfl, rfl⟩)
  | ok r =>
      rw [ClassTranscript.saveReading, StateT.run_bind] at hrun
      cases hsave : StateT.run (ClassTranscript.saveRecord target r : StateM World _) w with
      | mk saved after =>
          rw [hsave] at hrun
          rcases hw.saveRecord hsave with ⟨path, fault, rfl⟩ | ⟨rfl, hsaves⟩
          · obtain ⟨rfl, rfl⟩ := Prod.mk.inj hrun
            exact .inl ⟨r, path, fault, by rw [hsave], rfl⟩
          · obtain ⟨rfl, rfl⟩ := Prod.mk.inj hrun
            exact .inr (.inr ⟨r, rfl, rfl, hsaves⟩)

/-- A class that was converted is written if its transcript is accepted, and else skipped. -/
inductive Becomes (w : World) (o : ConversionOptions) (place : Place) (c : ClassFile) :
    Converted → Prop where
  | written : (w.record? o.program place c).isSome → Becomes w o place c .written
  | skipped (reason : String) :
    w.record? o.program place c = none → Becomes w o place c (.skipped reason)

/-- A class that is skipped is converted. -/
theorem converts_of_skipped {text : String} (hw : w.WellFormed)
    (htranscript : w.transcript o.program place c = .ok text)
    (hrecord : w.record? o.program place c = none) :
  w.Converts o place [c] w
  where
  transcripts := by simpa using ⟨text, htranscript⟩
  records := by simp [hrecord]
  puts := by
    rw [saved, List.filterMap_cons_none (by rw [hrecord]; rfl)]
    exact .refl hw.files
  rest := rfl

/-- A class whose record is saved is converted. -/
theorem Saves.converts {text : String} {r : ClassRecord} (hclasses : o.classes.text ≠ "")
    (htranscript : w.transcript o.program place c = .ok text)
    (hrecord : w.record? o.program place c = some r)
    (h : w.Saves (outputPath o.classes (c.path o.classes) o.output) r w') :
  w.Converts o place [c] w'
  := by
  have htarget := ClassFile.outputPath_eq_recordPath hclasses h.named
  obtain ⟨hputs, hread, -, hrest⟩ := h
  rw [htarget] at hputs hread
  constructor
  case transcripts => simpa using ⟨text, htranscript⟩
  case records =>
    intro c' hc r' hr
    obtain rfl := List.mem_singleton.mp hc
    obtain rfl := Option.some.inj (hrecord.symm.trans hr)
    exact ⟨htarget, hread⟩
  case puts =>
    rw [saved, List.filterMap_cons_some (by rw [hrecord]; rfl)]
    exact hputs
  case rest => exact hrest

/-- What one class comes to: its disassembly fails, saving its record fails, or it is converted. -/
theorem WellFormed.convertClass (hw : w.WellFormed) (hclasses : o.classes.text ≠ "")
    (hway : w.Enters o.classes place c) {result : Except ConversionError Converted}
    (hrun : StateT.run (convertClass o (c.path o.classes) : StateM World _) w = (result, w')) :
  (∃ e, w.transcript o.program place c = .error e ∧ result = .error e ∧ w' = w)
    ∨ (∃ r path fault, (StateT.run (ClassTranscript.saveRecord
          (outputPath o.classes (c.path o.classes) o.output) r : StateM World _) w).1
        = .error (.write path fault) ∧ result = .error (.write path fault))
    ∨ ∃ converted, result = .ok converted ∧ w.Converts o place [c] w'
      ∧ w.Becomes o place c converted
  := by
  rw [ClassTranscript.convertClass, StateT.run_bind, hway.run_disassemble, pure_bind] at hrun
  cases htranscript : w.transcript o.program place c with
  | error e =>
      rw [htranscript] at hrun
      obtain ⟨rfl, rfl⟩ := Prod.mk.inj hrun
      exact .inl ⟨e, rfl, rfl, rfl⟩
  | ok text =>
      have hrecord := record?_of_transcript htranscript
      rw [htranscript] at hrun
      rcases hw.saveReading hrun with hfault | ⟨reason, hreading, rfl, rfl⟩
        | ⟨r, hreading, rfl, hsaves⟩
      · exact .inr (.inl hfault)
      · rw [hreading] at hrecord
        exact .inr (.inr ⟨_, rfl, converts_of_skipped hw htranscript hrecord,
          .skipped reason hrecord⟩)
      · rw [hreading] at hrecord
        exact .inr (.inr ⟨_, rfl, hsaves.converts hclasses htranscript hrecord,
          .written (by rw [hrecord]; rfl)⟩)

namespace Converts

theorem nil (hw : w.WellFormed) :
  w.Converts o place [] w
  where
  transcripts := by simp
  records := by simp
  puts := .refl hw.files
  rest := rfl

theorem programs_eq (h : w.Converts o place classes w') :
  w'.programs = w.programs
  := by
  rw [h.rest]

theorem cwd_eq (h : w.Converts o place classes w') :
  w'.cwd = w.cwd
  := by
  rw [h.rest]

/-- A conversion keeps a world well formed. -/
theorem wellFormed (h : w.Converts o place classes w') (hw : w.WellFormed) :
  w'.WellFormed
  where
  files := h.puts.wellFormed
  cwd := by
    rw [h.cwd_eq]
    apply h.puts.directories _ hw.cwd

theorem enters (h : w.Converts o place classes w') {directory : Path}
    (hway : w.Enters directory place c) :
  w'.Enters directory place c
  := hway.of_puts h.puts h.cwd_eq

/-- One class is converted before others. -/
theorem cons (hfirst : w.Converts o place [c] after) (h : after.Converts o place classes w')
    (hc : c ∉ classes) :
  w.Converts o place (c :: classes) w'
  := by
  have hrecords (c : ClassFile) : after.record? o.program place c = w.record? o.program place c :=
    record?_congr hfirst.programs_eq
  have hputs := h.puts
  have hsaved : after.saved o place classes = w.saved o place classes := by
    simp only [saved, hrecords, hfirst.cwd_eq]
  rw [hsaved] at hputs
  -- what is saved first is not written over
  have hfree : placeOf w.cwd (c.recordPath o.output) ∉ (w.saved o place classes).map Prod.fst := by
    intro hplace
    obtain ⟨_, hfile, hplace⟩ := List.mem_map.mp hplace
    obtain ⟨c', hc', _, -, rfl⟩ := mem_saved.mp hfile
    obtain rfl := ClassFile.placeOf_recordPath_inj hplace
    exact hc hc'
  constructor
  case transcripts =>
    rw [List.forall_mem_cons]
    refine ⟨hfirst.transcripts c List.mem_cons_self, ?_⟩
    intro c' hc'
    rw [← transcript_congr hfirst.programs_eq]
    apply h.transcripts c' hc'
  case records =>
    rw [List.forall_mem_cons]
    constructor
    · intro r hr
      obtain ⟨htarget, hread⟩ := hfirst.records c List.mem_cons_self r hr
      rw [← hfirst.cwd_eq] at hread hfree ⊢
      exact ⟨htarget, hputs.read hread hfree⟩
    · intro c' hc' r hr
      rw [← hrecords] at hr
      rw [← hfirst.cwd_eq]
      apply h.records c' hc' r hr
  case puts =>
    rw [← List.singleton_append, saved, List.filterMap_append]
    apply hfirst.puts.trans hputs
    intro file hfile
    obtain ⟨c', hc', r, hr, rfl⟩ := mem_saved.mp hfile
    obtain rfl := List.mem_singleton.mp hc'
    apply hfree
  case rest => rw [h.rest, hfirst.rest]

end Converts

/-- What classes have added to a tally. -/
structure Counts (w : World) (o : ConversionOptions) (place : Place) (classes : List ClassFile)
    (tally tally' : Tally) : Prop where
  written : tally'.written
    = tally.written + classes.countP (fun c => (w.record? o.program place c).isSome)
  skipped : tally'.skipped.length
    = tally.skipped.length + classes.countP (fun c => (w.record? o.program place c).isNone)

/-- One class is counted before others. -/
theorem Counts.cons {tally tally' : Tally} {converted : Converted} {path : Path}
    (h : after.Counts o place classes (tally.add path converted) tally')
    (hsame : after.programs = w.programs) (hconverted : w.Becomes o place c converted) :
  w.Counts o place (c :: classes) tally tally'
  := by
  obtain ⟨hwritten, hskipped⟩ := h
  simp only [record?_congr hsame] at hwritten hskipped
  cases hconverted with
  | written hrecord =>
      obtain ⟨r, hr⟩ := Option.isSome_iff_exists.mp hrecord
      constructor
      · rw [hwritten, List.countP_cons, hr]
        simp [Tally.add, Nat.add_assoc, Nat.add_comm]
      · rw [hskipped, List.countP_cons, hr]
        simp [Tally.add]
  | skipped reason hr =>
      constructor
      · rw [hwritten, List.countP_cons, hr]
        simp [Tally.add]
      · rw [hskipped, List.countP_cons, hr]
        simp [Tally.add, Nat.add_assoc, Nat.add_comm]

/-- How a conversion of classes ends: all of them are converted, or those before the first one that
the disassembler fails on. -/
inductive Ends (w : World) (o : ConversionOptions) (place : Place)
    (classes before : List ClassFile) : Option ConversionError → Prop where
  | all : before = classes → Ends w o place classes before none
  | failed {c : ClassFile} {rest : List ClassFile} {e : ConversionError} :
    classes = before ++ c :: rest → w.transcript o.program place c = .error e →
    Ends w o place classes before (some e)

namespace Ends

variable {error : Option ConversionError}

theorem subset (h : w.Ends o place classes before error) :
  before ⊆ classes
  := by
  cases h with
  | all heq => rw [heq]; apply List.Subset.refl
  | failed heq _ => rw [heq]; apply List.subset_append_left

theorem cons (h : after.Ends o place classes before error) (hsame : after.programs = w.programs)
    (c : ClassFile) :
  w.Ends o place (c :: classes) (c :: before) error
  := by
  cases h with
  | all heq => exact .all (by rw [heq])
  | failed heq htranscript =>
      rw [transcript_congr hsame] at htranscript
      exact .failed (by rw [heq]; rfl) htranscript

end Ends

theorem run_convertEach_cons {path : Path} {converted : Converted}
    (h : StateT.run (ClassTranscript.convertClass o path : StateM World _) w = (.ok converted, w'))
    (tally : Tally) (paths : List Path) :
  StateT.run (convertEach o tally (path :: paths) : StateM World _) w
    = StateT.run (convertEach o (tally.add path converted) paths : StateM World _) w'
  := by
  rw [convertEach, StateT.run_bind, h]
  rfl

theorem run_convertEach_of_error {path : Path} {e : ConversionError}
    (h : StateT.run (ClassTranscript.convertClass o path : StateM World _) w = (.error e, w'))
    (tally : Tally) (paths : List Path) :
  StateT.run (convertEach o tally (path :: paths) : StateM World _) w = ((tally, some e), w')
  := by
  rw [convertEach, StateT.run_bind, h]
  rfl

/-- Classes are converted in order until the disassembler fails on one of them. -/
theorem WellFormed.convertEach {tally tally' : Tally} {error : Option ConversionError}
    (hw : w.WellFormed) (hclasses : o.classes.text ≠ "") (hnodup : classes.Nodup)
    (hways : ∀ c ∈ classes, w.Enters o.classes place c)
    (hrun : StateT.run (convertEach o tally (classes.map (·.path o.classes)) : StateM World _) w
      = ((tally', error), w'))
    (hfiles : ∀ path fault, error ≠ some (.write path fault)) :
  ∃ before, w.Ends o place classes before error ∧ w.Converts o place before w'
    ∧ w.Counts o place before tally tally'
  := by
  induction classes generalizing tally w with
  | nil =>
      obtain ⟨hresult, rfl⟩ := Prod.mk.inj hrun
      obtain ⟨rfl, rfl⟩ := Prod.mk.inj hresult
      exact ⟨[], .all rfl, .nil hw, ⟨rfl, rfl⟩⟩
  | cons c classes ih =>
      obtain ⟨hc, hnodup⟩ := List.nodup_cons.mp hnodup
      obtain ⟨hway, hways⟩ := List.forall_mem_cons.mp hways
      rw [List.map_cons] at hrun
      cases hclass : StateT.run (ClassTranscript.convertClass o (c.path o.classes)
          : StateM World _) w with
      | mk result middle =>
          rcases hw.convertClass hclasses hway hclass with ⟨e, htranscript, rfl, rfl⟩
            | ⟨r, path, fault, -, rfl⟩ | ⟨converted, rfl, hfirst, hconverted⟩
          · rw [run_convertEach_of_error hclass] at hrun
            obtain ⟨hresult, rfl⟩ := Prod.mk.inj hrun
            obtain ⟨rfl, rfl⟩ := Prod.mk.inj hresult
            exact ⟨[], .failed rfl htranscript, .nil hw, ⟨rfl, rfl⟩⟩
          · rw [run_convertEach_of_error hclass] at hrun
            obtain ⟨hresult, rfl⟩ := Prod.mk.inj hrun
            obtain ⟨-, rfl⟩ := Prod.mk.inj hresult
            cases hfiles path fault rfl
          · rw [run_convertEach_cons hclass] at hrun
            obtain ⟨before, hends, hconverts, hcounts⟩ := ih (hfirst.wellFormed hw) hnodup
              (fun c' hc' => hfirst.enters (hways c' hc')) hrun
            refine ⟨c :: before, hends.cons hfirst.programs_eq c, ?_, ?_⟩
            · apply hfirst.cons hconverts
              exact fun hmem => hc (hends.subset hmem)
            · apply hcounts.cons hfirst.programs_eq hconverted

/-! ### All classes below a directory -/

/-- The path of a class file leads to the directory that it is in. -/
theorem WellFormed.enters {directory : Path} (hw : w.WellFormed)
    (hfind : w.files.find w.cwd directory = .ok (place, .directory))
    (hc : c ∈ w.files.classFilesBelow place) :
  w.Enters directory place c
  := by
  obtain ⟨-, hway, -⟩ := hw.files.descend_of_find hfind
  obtain ⟨content, hfile⟩ := ((classFilesBelow_lists hw.files place).mem_iff c).mp hc
  rw [ClassFile.way, ← List.append_assoc] at hfile
  have hsteps : ∀ name ∈ c.directory, IsStep name :=
    fun name hmem => (c.isName_of_mem_directory name hmem).toIsStep
  obtain ⟨parent, hparent, hanchor, hparentSteps⟩ :=
    Path.parent?_join_step (p := directory.below c.directory) c.isName_class.toIsStep
  refine ⟨parent, ?_, ?_⟩
  · rw [ClassFile.path, ClassFile.way, Path.below_concat, hparent]
  · rw [startOf, hanchor, Path.anchor_below hsteps, ← startOf, hparentSteps,
      Path.steps_below hsteps, descend_append, hway]
    apply hw.files.descend_names (hw.files.of_entry?_concat hfile).2

/-! ### Three classes -/

end World

end ClassTranscript
