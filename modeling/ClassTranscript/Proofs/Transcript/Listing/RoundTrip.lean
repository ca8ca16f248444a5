import ClassTranscript.Proofs.Transcript.Listing.Class

/-!
# Reading printed transcripts

The tree of a printed listing is that of a whole transcript, so the fields of the class are those
before each member and those after the last, and the record that is read off the tree is the record
of the listing (`ShowsClass.classRecord_eq`). A parse of the printed listing comes to this tree,
unless it reaches a limit.
-/

namespace ClassTranscript.Transcript

open Peg

variable {source : String} {start : Cursor} {s : Style}

/-! ### Members and their fields -/

/-- The fields found in a member are those before its signature. -/
theorem ShowsMember.shows_fields {m : ListedMember} {node : Node}
    (hmade : Made start "JavapMember" node) (h : ShowsMember source s m [node]) :
  Shows (field source) "JavapField" (m.fields.map fun f => .ok f.record)
    (node.findAll "JavapField")
  := by
  obtain ⟨_, ⟨⟩, -, -, fields, signature, lines, locals, hchildren, hfields⟩ := h
  obtain ⟨parts⟩ := hmade.exists_parts
  have hsame : parts.fields = fields := by
    apply (List.append_inj' (parts.children_eq.symm.trans hchildren) rfl).1
  rw [findAll_eq_pick, parts.pick_eq (beq_mem (by decide)) hmade (by decide) (by decide), hsame]
  simpa using hfields

theorem shows_memberFields {ms : List ListedMember} {nodes : List Node}
    (hmade : ∀ n ∈ nodes, Made start "JavapMember" n)
    (h : List.Forall₂ (fun m node => ShowsMember source s m [node]) ms nodes) :
  Shows (field source) "JavapField" ((ms.flatMap (·.fields)).map fun f => .ok f.record)
    (nodes.flatMap (·.findAll "JavapField"))
  := by
  induction h with
  | nil => exact .nil
  | cons hmember _ ih =>
      rw [List.flatMap_cons, List.map_append, List.flatMap_cons]
      exact List.rel_append (hmember.shows_fields (hmade _ List.mem_cons_self))
        (ih fun n hmem => hmade n (List.mem_cons_of_mem _ hmem))

/-- The records of members are shown in their nodes. -/
theorem shows_members {ms : List ListedMember} {nodes : List Node}
    (h : List.Forall₂ (fun m node => ShowsMember source s m [node]) ms nodes) :
  Shows (member source) "JavapMember" (ms.map fun m => .ok (m.record s)) nodes
  := by
  induction h with
  | nil => exact .nil
  | cons hmember _ ih =>
      obtain ⟨_, ⟨⟩, hlabel, hrecord, -⟩ := hmember
      exact .cons ⟨hlabel, hrecord⟩ ih

/-! ### Classes -/

/-- Members and the fields after them are told apart by their labels. -/
theorem members_eq_of_append {ms ms' fs fs' : List Node} (h : ms ++ fs = ms' ++ fs')
    (hms : ∀ n ∈ ms, n.label = "JavapMember") (hms' : ∀ n ∈ ms', n.label = "JavapMember")
    (hfs : ∀ n ∈ fs, n.label = "JavapField") (hfs' : ∀ n ∈ fs', n.label = "JavapField") :
  ms = ms' ∧ fs = fs'
  := by
  have hfilter := congrArg (List.filter (·.label == "JavapMember")) h
  rw [List.filter_append, List.filter_append, filter_label (q := (· == "JavapMember")) hms,
    filter_label (q := (· == "JavapMember")) hms', filter_label (q := (· == "JavapMember")) hfs,
    filter_label (q := (· == "JavapMember")) hfs'] at hfilter
  have hsame : ms = ms' := by simpa using hfilter
  rw [hsame] at h
  exact ⟨hsame, List.append_cancel_left h⟩

/-- The record that is read off the tree of a printed listing is that of the listing, with the kind
and the modifiers that its header shows. -/
theorem ShowsClass.classRecord_eq {c : Listing} {root : Node} {kind : String}
    {modifiers : List String} (hmade : Made start "JavapOutput" root)
    (h : ShowsClass source s kind modifiers c root.children) :
  classRecord source root = .ok { c.record s with kind := typeKind kind, modifiers }
  := by
  obtain ⟨sourceHeader, header, ms, fs, hchildren, hsource, hheader, hms, hfs⟩ := h
  obtain ⟨_, literal, ⟨⟩, -, hliteral, hliteralText⟩ := hsource
  obtain ⟨parts⟩ := hmade.exists_classParts
  have hparts := parts.children_eq.symm.trans hchildren
  rw [List.cons_eq_cons, List.cons_eq_cons] at hparts
  obtain ⟨rfl, rfl, hparts⟩ := hparts
  have hmembers := shows_members hms
  obtain ⟨rfl, rfl⟩ := members_eq_of_append hparts (fun n hmem => (parts.made_members n hmem).label_eq)
    hmembers.label_eq (fun n hmem => (parts.made_fields n hmem).label_eq) hfs.label_eq
  obtain ⟨hsourceChild, hheaderChild, hmemberNodes⟩ := parts.child?_eq
  have hfieldNodes : root.findAll "JavapField"
      = parts.members.flatMap (·.findAll "JavapField") ++ parts.fields := by
    rw [findAll_eq_pick, parts.pick_eq (beq_mem (by decide)) (by rw [hmade.label_eq]; decide)]
    rfl
  have hfields : Shows (field source) "JavapField"
      ((c.members.flatMap (·.fields) ++ c.fields).map fun f => .ok f.record)
      (root.findAll "JavapField") := by
    rw [hfieldNodes, List.map_append]
    exact List.rel_append (shows_memberFields parts.made_members hms) hfs
  rw [classRecord, requiredChild_eq hsourceChild, requiredChild_eq hheaderChild]
  simp only [bind, Except.bind, pure, Except.pure, hliteral, required, hheader.kind, hheader.name,
    hheader.modifiers, hheader.typeParameters, hheader.extended, hheader.implemented, hmemberNodes,
    hfields.mapM_eq, hmembers.mapM_eq, hliteralText]
  rfl

/-- The header of a class is found by its label. -/
theorem ShowsClass.exists_header {c : Listing} {root : Node} {kind : String}
    {modifiers : List String} (hmade : Made start "JavapOutput" root)
    (h : ShowsClass source s kind modifiers c root.children) :
  ∃ header, root.child? "ClassHeader" = some header ∧ ShowsHeader source kind modifiers c header
  := by
  obtain ⟨_, header, _, _, hchildren, -, hheader, -⟩ := h
  obtain ⟨parts⟩ := hmade.exists_classParts
  have hparts := parts.children_eq.symm.trans hchildren
  rw [List.cons_eq_cons, List.cons_eq_cons] at hparts
  obtain ⟨-, rfl, -⟩ := hparts
  exact ⟨parts.header, parts.child?_eq.2.1, hheader⟩

theorem typeKind_kindWord (kind : TypeKind) :
  typeKind (kindWord kind) = kind
  := by
  cases kind <;> decide

end ClassTranscript.Transcript
