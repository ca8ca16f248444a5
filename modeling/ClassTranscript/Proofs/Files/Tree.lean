import ClassTranscript.Files.Tree
import ClassTranscript.Proofs.Files.Path
import ClassTranscript.Proofs.Success

/-!
# Well-formed file trees

In a well-formed tree every entry has a name and stands in a directory (`WellFormed`). The
operations that write keep a tree well formed, and `Puts` is what they leave behind: some files are
put at their places, directories may be new, and all else is as before. What a path leads to depends
on the directories only, which are kept, so a file that is not written over is read as before
(`Puts.read`).
-/

namespace ClassTranscript

open Text

namespace FileTree

variable {t t' t'' : FileTree} {here place directory : Place} {name : String} {entry : Entry}

/-! ### Entries -/

theorem entry?_of_ne_nil (t : FileTree) (h : place ≠ []) :
  t.entry? place = t.entries.lookup place
  := by
  rw [ entry?, if_neg (by simpa using h)]

/-- What was put at a place is there, and other places are as before. -/
theorem entry?_put (t : FileTree) (h : place ≠ []) (entry : Entry) (other : Place) :
  FileTree.entry? (t.put place entry) other
    = if other = place then some entry else t.entry? other
  := by
  have hfilter (hother : other ≠ place) :
      (t.entries.filter (·.1 != place)).lookup other = t.entries.lookup other := by
    induction t.entries with
    | nil => rfl
    | cons e entries ih =>
        by_cases he : e.1 = place
        · rw [List.filter_cons_of_neg (by simpa using he), ih, List.lookup_cons,
            beq_eq_false_iff_ne.mpr (he ▸ hother)]
        · rw [List.filter_cons_of_pos (by simpa using he), List.lookup_cons, List.lookup_cons, ih]
  by_cases hnil : other = []
  · rw [hnil, if_neg (Ne.symm h)]
    rfl
  · rw [entry?_of_ne_nil _ hnil, entry?_of_ne_nil _ hnil, put, List.lookup_cons]
    by_cases hother : other = place
    · rw [beq_iff_eq.mpr hother, if_pos hother]
    · rw [beq_eq_false_iff_ne.mpr hother, if_neg hother, hfilter hother]

/-- A tree with one entry at each place, where every entry has a name and stands in a directory. -/
structure WellFormed (t : FileTree) : Prop where
  nodup : (t.entries.map Prod.fst).Nodup
  settled : ∀ e ∈ t.entries, ∃ directory name, e.1 = directory ++ [name] ∧ IsName name
    ∧ t.entry? directory = some .directory

instance (t : FileTree) : Decidable t.WellFormed :=
  decidable_of_iff ((t.entries.map Prod.fst).Nodup
      ∧ ∀ e ∈ t.entries, ∃ name ∈ e.1.getLast?, IsName name
        ∧ t.entry? e.1.dropLast = some .directory)
    ⟨fun ⟨hnodup, hsettled⟩ => ⟨hnodup, fun e he => by
        obtain ⟨name, hlast, hname, hdirectory⟩ := hsettled e he
        obtain ⟨directory, heq⟩ := List.getLast?_eq_some_iff.mp hlast
        rw [heq, List.dropLast_concat] at hdirectory
        exact ⟨directory, name, heq, hname, hdirectory⟩⟩,
      fun h => ⟨h.nodup, fun e he => by
        obtain ⟨directory, name, heq, hname, hdirectory⟩ := h.settled e he
        rw [heq, List.getLast?_concat, List.dropLast_concat]
        exact ⟨name, rfl, hname, hdirectory⟩⟩⟩

namespace WellFormed

theorem mem_entries_iff (ht : t.WellFormed) :
  (place, entry) ∈ t.entries ↔ place ≠ [] ∧ t.entry? place = some entry
  := by
  constructor
  · intro h
    have hne : place ≠ [] := by
      obtain ⟨_, _, rfl, -⟩ := ht.settled _ h
      simp
    refine ⟨hne, ?_⟩
    obtain ⟨before, after, hentries⟩ := List.append_of_mem h
    rw [entry?_of_ne_nil t hne, List.lookup_eq_some_iff]
    refine ⟨before, after, hentries, ?_⟩
    intro e he
    have hnodup := ht.nodup
    rw [hentries, List.map_append, List.nodup_append] at hnodup
    rw [bne_iff_ne]
    apply (hnodup.2.2 e.1 (List.mem_map_of_mem he) place List.mem_cons_self).symm
  · rintro ⟨hne, h⟩
    rw [entry?_of_ne_nil t hne, List.lookup_eq_some_iff] at h
    obtain ⟨before, after, hentries, -⟩ := h
    simp [hentries]

/-- An entry has a name and stands in a directory. -/
theorem of_entry?_concat (ht : t.WellFormed)
    (h : t.entry? (directory ++ [name]) = some entry) :
  IsName name ∧ t.entry? directory = some .directory
  := by
  obtain ⟨_, _, heq, hname, hdirectory⟩ :=
    ht.settled _ (ht.mem_entries_iff.mpr ⟨List.concat_ne_nil name directory, h⟩)
  obtain ⟨rfl, hlast⟩ := List.append_inj' heq rfl
  obtain rfl := List.singleton_inj.mp hlast
  exact ⟨hname, hdirectory⟩

/-- What an entry is below is a directory, and the way down to the entry is made of names. -/
theorem of_entry?_below {names : List String} (ht : t.WellFormed)
    (h : t.entry? (here ++ names) = some entry) (hne : names ≠ []) :
  (∀ name ∈ names, IsName name) ∧ t.entry? here = some .directory
  := by
  induction names using List.reverseRecOn generalizing entry with
  | nil => cases hne rfl
  | append_singleton names name ih =>
      rw [← List.append_assoc] at h
      obtain ⟨hname, hdirectory⟩ := ht.of_entry?_concat h
      cases hnames : names with
      | nil =>
          rw [hnames, List.append_nil] at hdirectory
          exact ⟨by simpa using hname, hdirectory⟩
      | cons first others =>
          have hne : names ≠ [] := by simp [hnames]
          obtain ⟨hall, hhere⟩ := ih hdirectory hne
          rw [← hnames]
          exact ⟨List.forall_mem_append.mpr ⟨hall, by simpa using hname⟩, hhere⟩

/-- There is a directory above a directory. -/
theorem directory_dropLast (ht : t.WellFormed) (h : t.entry? place = some .directory) :
  t.entry? place.dropLast = some .directory
  := by
  rcases List.eq_nil_or_concat' place with rfl | ⟨directory, name, rfl⟩
  · rfl
  · rw [List.dropLast_concat]
    apply (ht.of_entry?_concat h).2

/-- A tree stays well formed when an entry with a name is put in a directory, unless a file takes
the place of a directory. -/
theorem put (ht : t.WellFormed) (hname : IsName name)
    (hdirectory : t.entry? directory = some .directory)
    (h : entry = .directory ∨ t.entry? (directory ++ [name]) ≠ some .directory) :
  (t.put (directory ++ [name]) entry).WellFormed
  := by
  have hne := List.concat_ne_nil name directory
  have hkept {other : Place} (hother : t.entry? other = some .directory) :
      FileTree.entry? (t.put (directory ++ [name]) entry) other = some .directory := by
    rw [entry?_put t hne]
    split
    next heq =>
      rw [heq] at hother
      rw [h.resolve_right (not_not.mpr hother)]
    · exact hother
  constructor
  · rw [FileTree.put, List.map_cons, List.nodup_cons]
    constructor
    · simp
    · apply ht.nodup.sublist (List.filter_sublist.map Prod.fst)
  · intro e he
    rcases List.mem_cons.mp he with rfl | he
    · exact ⟨directory, name, rfl, hname, hkept hdirectory⟩
    · obtain ⟨other, last, heq, hlast, hother⟩ := ht.settled e (List.mem_of_mem_filter he)
      exact ⟨other, last, heq, hlast, hkept hother⟩

end WellFormed

/-! ### What is written -/

/-- The tree `t'` is `t` with files put at some places, and perhaps with more directories. -/
structure Puts (t : FileTree) (files : List (Place × Bytes)) (t' : FileTree) : Prop where
  wellFormed : t'.WellFormed
  /-- The files are there. -/
  written : ∀ file ∈ files, t'.entry? file.1 = some (.file file.2)
  /-- Other places have kept what they had, or they were free and are directories. -/
  others : ∀ place ∉ files.map Prod.fst, t'.entry? place = t.entry? place
    ∨ t.entry? place = none ∧ t'.entry? place = some .directory
  /-- Directories are kept. -/
  directories : ∀ place, t.entry? place = some .directory → t'.entry? place = some .directory

namespace Puts

variable {files files' : List (Place × Bytes)} {content : Bytes}

theorem refl (ht : t.WellFormed) :
  Puts t [] t
  where
  wellFormed := ht
  written := by simp
  others := fun _ _ => .inl rfl
  directories := fun _ h => h

/-- Files that are put at places where others have not been put before. -/
theorem trans (h : Puts t files t') (h' : Puts t' files' t'')
    (hdisjoint : ∀ file ∈ files, file.1 ∉ files'.map Prod.fst) :
  Puts t (files ++ files') t''
  where
  wellFormed := h'.wellFormed
  written := by
    intro file hfile
    rcases List.mem_append.mp hfile with hfile | hfile
    · have hput := h.written file hfile
      rcases h'.others file.1 (hdisjoint file hfile) with hkept | ⟨hfree, -⟩
      · rw [hkept, hput]
      · rw [hput] at hfree
        cases hfree
    · apply h'.written file hfile
  others := by
    intro place hplace
    rw [List.map_append, List.mem_append, not_or] at hplace
    rcases h.others place hplace.1, h'.others place hplace.2 with
      ⟨hkept | ⟨hfree, hmade⟩, hkept' | ⟨hfree', hmade'⟩⟩
    · exact .inl (hkept'.trans hkept)
    · exact .inr ⟨hkept ▸ hfree', hmade'⟩
    · exact .inr ⟨hfree, hkept'.trans hmade⟩
    · rw [hmade] at hfree'
      cases hfree'
  directories := fun place hplace => h'.directories place (h.directories place hplace)

/-- A directory that is put where nothing is. -/
theorem newDirectory (ht : t.WellFormed) (hname : IsName name)
    (hdirectory : t.entry? directory = some .directory)
    (hfree : t.entry? (directory ++ [name]) = none) :
  Puts t [] (t.put (directory ++ [name]) .directory)
  where
  wellFormed := ht.put hname hdirectory (.inl rfl)
  written := by simp
  others := by
    intro place _
    rw [entry?_put t (List.concat_ne_nil name directory)]
    split
    next heq => exact .inr ⟨heq ▸ hfree, rfl⟩
    · exact .inl rfl
  directories := by
    intro place hplace
    rw [entry?_put t (List.concat_ne_nil name directory)]
    split
    · rfl
    · exact hplace

/-- A file that is put where no directory is. -/
theorem file (ht : t.WellFormed) (hname : IsName name)
    (hdirectory : t.entry? directory = some .directory)
    (hplace : t.entry? (directory ++ [name]) ≠ some .directory) :
  Puts t [(directory ++ [name], content)] (t.put (directory ++ [name]) (.file content))
  where
  wellFormed := ht.put hname hdirectory (.inr hplace)
  written := by
    intro file hfile
    obtain rfl := List.mem_singleton.mp hfile
    rw [entry?_put t (List.concat_ne_nil name directory), if_pos rfl]
  others := by
    intro place hplace
    rw [entry?_put t (List.concat_ne_nil name directory), if_neg (by simpa using hplace)]
    exact .inl rfl
  directories := by
    intro place hdirectory
    rw [entry?_put t (List.concat_ne_nil name directory), if_neg]
    · exact hdirectory
    · rintro rfl
      exact hplace hdirectory

end Puts

/-! ### Following paths -/

/-- Where steps lead to from a directory if nothing is in the way. -/
def follow (here : Place) (steps : List String) : Place :=
  steps.foldl (fun here step => if step = ".." then here.dropLast else here ++ [step]) here

/-- Where a path leads to if nothing is in the way. -/
def placeOf (cwd : Place) (path : Path) : Place :=
  follow (startOf cwd path) path.steps

section

variable {steps more names : List String}

theorem follow_append (here : Place) (steps more : List String) :
  follow here (steps ++ more) = follow (follow here steps) more
  := by
  rw [follow, List.foldl_append]
  rfl

theorem follow_names (h : ∀ name ∈ names, IsName name) :
  follow here names = here ++ names
  := by
  induction names generalizing here with
  | nil => rw [List.append_nil]; rfl
  | cons name names ih =>
      obtain ⟨hname, hnames⟩ := List.forall_mem_cons.mp h
      rw [follow, List.foldl_cons, if_neg hname.notUp, ← follow, ih hnames, List.append_assoc,
        List.singleton_append]

/-- Names lead down from where a path leads to. -/
theorem placeOf_below (cwd : Place) (p : Path) (h : ∀ name ∈ names, IsName name) :
  placeOf cwd (p.below names) = placeOf cwd p ++ names
  := by
  have hsteps : ∀ name ∈ names, IsStep name := fun name hname => (h name hname).toIsStep
  rw [placeOf, startOf, Path.anchor_below hsteps, ← startOf, Path.steps_below hsteps,
    follow_append, follow_names h, ← placeOf]

theorem descend_up (t : FileTree) (here : Place) (steps : List String) :
  t.descend here (".." :: steps) = t.descend here.dropLast steps
  := by
  rw [descend, if_pos rfl]

theorem descend_into {step : String} (hstep : step ≠ "..")
    (h : t.entry? (here ++ [step]) = some .directory) (steps : List String) :
  t.descend here (step :: steps) = t.descend (here ++ [step]) steps
  := by
  rw [descend, if_neg hstep, h]

/-- The way down from a directory leads into the first of its steps. -/
theorem descend_cons {step : String} (hstep : step ≠ "..")
    (h : t.descend here (step :: steps) = .ok place) :
  t.entry? (here ++ [step]) = some .directory ∧ t.descend (here ++ [step]) steps = .ok place
  := by
  rw [descend, if_neg hstep] at h
  split at h
  · cases h
  · cases h
  next hdirectory => exact ⟨hdirectory, h⟩

theorem descend_append (t : FileTree) (here : Place) (steps more : List String) :
  t.descend here (steps ++ more) = (t.descend here steps).bind (t.descend · more)
  := by
  induction steps generalizing here with
  | nil => rfl
  | cons step steps ih =>
      rw [List.cons_append, descend, descend]
      split
      · apply ih
      · split
        · rfl
        · rfl
        · apply ih

theorem follow_of_descend (h : t.descend here steps = .ok place) :
  place = follow here steps
  := by
  induction steps generalizing here with
  | nil =>
      obtain rfl := Except.ok.inj h
      rfl
  | cons step steps ih =>
      rw [follow, List.foldl_cons, ← follow]
      by_cases hstep : step = ".."
      · rw [hstep, descend_up] at h
        rw [if_pos hstep]
        apply ih h
      · rw [if_neg hstep]
        apply ih (descend_cons hstep h).2

/-- What is a way in a tree is one in any other that has its directories. -/
theorem descend_mono
    (hdirectories : ∀ place, t.entry? place = some .directory → t'.entry? place = some .directory)
    (h : t.descend here steps = .ok place) :
  t'.descend here steps = .ok place
  := by
  induction steps generalizing here with
  | nil => exact h
  | cons step steps ih =>
      by_cases hstep : step = ".."
      · rw [hstep, descend_up] at h ⊢
        apply ih h
      · obtain ⟨hinto, hrest⟩ := descend_cons hstep h
        rw [descend_into hstep (hdirectories _ hinto)]
        apply ih hrest

namespace WellFormed

/-- A way that begins in a directory ends in one. -/
theorem directory_of_descend (ht : t.WellFormed) (hhere : t.entry? here = some .directory)
    (h : t.descend here steps = .ok place) :
  t.entry? place = some .directory
  := by
  induction steps generalizing here with
  | nil =>
      obtain rfl := Except.ok.inj h
      exact hhere
  | cons step steps ih =>
      by_cases hstep : step = ".."
      · rw [hstep, descend_up] at h
        apply ih (ht.directory_dropLast hhere) h
      · obtain ⟨hinto, hrest⟩ := descend_cons hstep h
        apply ih hinto hrest

/-- There is a way down to a directory from the directories above it. -/
theorem descend_names (ht : t.WellFormed)
    (h : t.entry? (here ++ names) = some .directory) :
  t.descend here names = .ok (here ++ names)
  := by
  induction names generalizing here with
  | nil => rw [List.append_nil]; rfl
  | cons name names ih =>
      have hname := (ht.of_entry?_below h (List.cons_ne_nil name names)).1 name List.mem_cons_self
      rw [← List.singleton_append, ← List.append_assoc] at h ⊢
      have hinto : t.entry? (here ++ [name]) = some .directory := by
        cases names with
        | nil => simpa using h
        | cons first others =>
            apply (ht.of_entry?_below h (List.cons_ne_nil first others)).2
      rw [List.singleton_append, descend_into hname.notUp hinto]
      apply ih h

end WellFormed

/-- Making a way makes directories only, wherever it ends. -/
theorem makeWay_puts (ht : t.WellFormed) (hhere : t.entry? here = some .directory)
    (hsteps : ∀ step ∈ steps, IsStep step) (made : Bool) :
  Puts t [] (t.makeWay made here steps).1
  := by
  induction steps generalizing t made here with
  | nil => exact .refl ht
  | cons step steps ih =>
      obtain ⟨hstep, hsteps⟩ := List.forall_mem_cons.mp hsteps
      rw [makeWay]
      split
      · apply ih ht (ht.directory_dropLast hhere) hsteps
      next hdown =>
        split
        next hdirectory => apply ih ht hdirectory hsteps
        · exact .refl ht
        next hfree =>
          have hnew := Puts.newDirectory ht ⟨hstep, hdown⟩ hhere hfree
          refine hnew.trans (ih hnew.wellFormed ?_ hsteps true) (by simp)
          rw [entry?_put t (List.concat_ne_nil step here), if_pos rfl]

end

/-! ### Reading and writing -/

section

variable {cwd : Place} {path : Path} {content : Bytes}

theorem entry?_startOf (hcwd : t.entry? cwd = some .directory) (path : Path) :
  t.entry? (startOf cwd path) = some .directory
  := by
  rw [startOf]
  split
  · rfl
  · exact hcwd

theorem steps_of_fileName? (h : path.fileName? = some name) :
  path.steps = path.steps.dropLast ++ [name] ∧ IsName name
  := by
  rw [Path.fileName?, Option.filter_eq_some_iff] at h
  obtain ⟨hlast, hname⟩ := h
  obtain ⟨steps, hsteps⟩ := List.getLast?_eq_some_iff.mp hlast
  have hstep : IsStep name := by
    apply Path.isStep_of_mem_steps (p := path)
    simp [hsteps]
  exact ⟨by rw [hsteps, List.dropLast_concat], hstep, by simpa using hname⟩

/-- A path is located where its way down ends, or at its last name in the directory before. -/
theorem locate_eq_ok_iff :
  t.locate cwd path = .ok place ↔ path.text ≠ "" ∧
    ((path.fileName? = none ∧ t.descend (startOf cwd path) path.steps = .ok place)
      ∨ ∃ directory name, path.fileName? = some name ∧ place = directory ++ [name]
        ∧ t.descend (startOf cwd path) path.steps.dropLast = .ok directory)
  := by
  rw [locate]
  split
  next hempty => simp [hempty]
  next hne =>
    cases hname : path.fileName? with
    | none => simp [hne]
    | some name =>
        cases hway : t.descend (startOf cwd path) path.steps.dropLast with
        | error fault => simp [hne, Except.map, hway]
        | ok directory => simp [hne, Except.map, hway, eq_comm]

theorem placeOf_of_locate (h : t.locate cwd path = .ok place) :
  place = placeOf cwd path
  := by
  rw [placeOf]
  obtain ⟨-, ⟨-, hway⟩ | ⟨directory, name, hname, rfl, hway⟩⟩ := locate_eq_ok_iff.mp h
  · apply follow_of_descend hway
  · obtain ⟨hsteps, hname⟩ := steps_of_fileName? hname
    rw [hsteps, follow_append, ← follow_of_descend hway, follow_names (by simpa using hname)]

/-- What is found at a path is at the place where the path is located. -/
theorem find_eq_ok (h : t.find cwd path = .ok (place, entry)) :
  t.locate cwd path = .ok place ∧ t.entry? place = some entry
    ∧ (entry = .directory ∨ path.endsIdle = false)
  := by
  obtain ⟨located, hlocate, h⟩ := exists_of_bind_eq_ok h
  split at h
  · cases h
  next hdirectory =>
    obtain ⟨rfl, rfl⟩ := Prod.mk.inj (Except.ok.inj h)
    exact ⟨hlocate, hdirectory, .inl rfl⟩
  next hfile =>
    split at h
    · cases h
    next hidle =>
      obtain ⟨rfl, rfl⟩ := Prod.mk.inj (Except.ok.inj h)
      exact ⟨hlocate, hfile, .inr (Bool.eq_false_of_not_eq_true hidle)⟩

theorem read_eq_ok_iff :
  t.read cwd path = .ok content ↔ ∃ place, t.locate cwd path = .ok place
    ∧ t.entry? place = some (.file content) ∧ path.endsIdle = false
  := by
  constructor
  · intro h
    obtain ⟨⟨place, entry⟩, hfind, h⟩ := exists_of_bind_eq_ok h
    obtain ⟨hlocate, hentry, hidle⟩ := find_eq_ok hfind
    cases entry with
    | directory => cases h
    | file found =>
        obtain rfl := Except.ok.inj h
        exact ⟨place, hlocate, hentry, hidle.resolve_left nofun⟩
  · rintro ⟨place, hlocate, hentry, hidle⟩
    simp [read, find, hlocate, hentry, hidle, bind, Except.bind, pure, Except.pure]

/-- A directory is found at the end of the way that leads to it. -/
theorem WellFormed.descend_of_find (ht : t.WellFormed)
    (h : t.find cwd path = .ok (place, .directory)) :
  path.text ≠ "" ∧ t.descend (startOf cwd path) path.steps = .ok place
    ∧ t.entry? place = some .directory
  := by
  obtain ⟨hlocate, hplace, -⟩ := find_eq_ok h
  obtain ⟨htext, ⟨-, hway⟩ | ⟨directory, name, hname, rfl, hway⟩⟩ := locate_eq_ok_iff.mp hlocate
  · exact ⟨htext, hway, hplace⟩
  · refine ⟨htext, ?_, hplace⟩
    rw [(steps_of_fileName? hname).1, descend_append, hway]
    apply ht.descend_names hplace

theorem write_eq_ok_iff :
  t.write cwd path content = .ok t' ↔ ∃ place, t.locate cwd path = .ok place
    ∧ t.entry? place ≠ some .directory ∧ path.endsIdle = false
    ∧ t' = t.put place (.file content)
  := by
  constructor
  · intro h
    obtain ⟨place, hlocate, h⟩ := exists_of_bind_eq_ok h
    dsimp only at h
    split at h
    · cases h
    next hfree =>
      obtain ⟨hdirectory, hidle⟩ := not_or.mp hfree
      obtain rfl := Except.ok.inj h
      exact ⟨place, hlocate, hdirectory, Bool.eq_false_of_not_eq_true hidle, rfl⟩
  · rintro ⟨place, hlocate, hdirectory, hidle, rfl⟩
    simp [write, hlocate, hdirectory, hidle, bind, Except.bind, pure, Except.pure]

namespace Puts

variable {files : List (Place × Bytes)}

theorem locate (h : Puts t files t') (hlocate : t.locate cwd path = .ok place) :
  t'.locate cwd path = .ok place
  := by
  rw [locate_eq_ok_iff] at hlocate ⊢
  obtain ⟨htext, ⟨hname, hway⟩ | ⟨directory, name, hname, hplace, hway⟩⟩ := hlocate
  · exact ⟨htext, .inl ⟨hname, descend_mono h.directories hway⟩⟩
  · exact ⟨htext, .inr ⟨directory, name, hname, hplace, descend_mono h.directories hway⟩⟩

/-- A file that is not written over is read as before. -/
theorem read (h : Puts t files t') (hread : t.read cwd path = .ok content)
    (hplace : placeOf cwd path ∉ files.map Prod.fst) :
  t'.read cwd path = .ok content
  := by
  rw [read_eq_ok_iff] at hread ⊢
  obtain ⟨place, hlocate, hentry, hidle⟩ := hread
  refine ⟨place, h.locate hlocate, ?_, hidle⟩
  rw [← placeOf_of_locate hlocate] at hplace
  rcases h.others place hplace with hkept | ⟨hfree, -⟩
  · rw [hkept, hentry]
  · rw [hentry] at hfree
    cases hfree

/-- A file is put where its path leads to, and its content can be read from there. -/
theorem of_write (ht : t.WellFormed) (hcwd : t.entry? cwd = some .directory)
    (h : t.write cwd path content = .ok t') :
  Puts t [(placeOf cwd path, content)] t' ∧ t'.read cwd path = .ok content
    ∧ path.fileName?.isSome
  := by
  obtain ⟨place, hlocate, hfree, hidle, rfl⟩ := write_eq_ok_iff.mp h
  rw [← placeOf_of_locate hlocate]
  obtain ⟨-, ⟨-, hway⟩ | ⟨directory, name, hname, rfl, hway⟩⟩ := locate_eq_ok_iff.mp hlocate
  · have hend := ht.directory_of_descend (entry?_startOf hcwd path) hway
    cases hfree hend
  · have hdirectory := ht.directory_of_descend (entry?_startOf hcwd path) hway
    have hputs : Puts t [(directory ++ [name], content)]
        (t.put (directory ++ [name]) (.file content)) :=
      .file ht (steps_of_fileName? hname).2 hdirectory hfree
    refine ⟨hputs, ?_, by rw [hname]; rfl⟩
    rw [read_eq_ok_iff]
    exact ⟨_, hputs.locate hlocate, hputs.written _ List.mem_cons_self, hidle⟩

/-- Making directories changes no file, also where it fails. -/
theorem of_makeDirectories (ht : t.WellFormed) (hcwd : t.entry? cwd = some .directory) :
  Puts t [] (t.makeDirectories cwd path).1
  := by
  apply makeWay_puts ht (entry?_startOf hcwd path)
  intro step hstep
  apply Path.isStep_of_mem_steps hstep

end Puts

end

/-! ### Listing -/

theorem eq_append_of_drop {other names : Place}
    (h : (if place.isPrefixOf other then some (other.drop place.length) else none) = some names) :
  other = place ++ names
  := by
  split at h
  next hbelow =>
    obtain ⟨rest, rfl⟩ := List.isPrefixOf_iff_prefix.mp hbelow
    rw [List.drop_left] at h
    rw [Option.some.inj h]
  · cases h

namespace WellFormed

/-- The files below a place are listed by the names on the way down to them. -/
theorem mem_filesBelow (ht : t.WellFormed) {names : List String} :
  names ∈ t.filesBelow place ↔ ∃ content, t.entry? (place ++ names) = some (.file content)
  := by
  rw [filesBelow, List.mem_mergeSort, List.mem_filterMap]
  constructor
  · rintro ⟨⟨other, entry⟩, hmem, h⟩
    cases entry with
    | directory => cases h
    | file content =>
        rw [← eq_append_of_drop h]
        exact ⟨content, (ht.mem_entries_iff.mp hmem).2⟩
  · rintro ⟨content, h⟩
    have hne : place ++ names ≠ [] := by
      intro hnil
      rw [hnil] at h
      cases h
    refine ⟨(place ++ names, .file content), ht.mem_entries_iff.mpr ⟨hne, h⟩, ?_⟩
    simp

/-- Each file below a place is listed once, in the order of the names. -/
theorem pairwise_filesBelow (ht : t.WellFormed) (place : Place) :
  (t.filesBelow place).Pairwise (· < ·)
  := by
  have hsorted : (t.filesBelow place).Pairwise (· ≤ ·) := by
    refine (List.pairwise_mergeSort ?_ ?_ _).imp fun h => not_lt.mp (of_decide_eq_true h)
    · intro a b c hab hbc
      apply decide_eq_true
      apply not_lt.mpr
      apply le_trans (not_lt.mp (of_decide_eq_true hab)) (not_lt.mp (of_decide_eq_true hbc))
    · intro a b
      rw [Bool.or_eq_true, decide_eq_true_eq, decide_eq_true_eq]
      apply List.le_total a b
  have hnodup : (t.filesBelow place).Nodup := by
    apply List.Nodup.mergeSort
    rw [List.Nodup, List.pairwise_filterMap]
    apply (List.pairwise_map.mp ht.nodup).imp
    rintro ⟨other, entry⟩ ⟨other', entry'⟩ hne names hnames _ hnames' rfl
    cases entry with
    | directory => cases hnames
    | file content =>
        cases entry' with
        | directory => cases hnames'
        | file content' =>
            exact hne ((eq_append_of_drop hnames).trans (eq_append_of_drop hnames').symm)
  apply (hsorted.and hnodup).imp
  rintro a b ⟨hle, hne⟩
  apply lt_of_le_of_ne hle hne

end WellFormed

end FileTree

end ClassTranscript
