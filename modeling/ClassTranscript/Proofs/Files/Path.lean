import ClassTranscript.Files.Path
import Mathlib

/-!
# Going down from a path

A path is its pieces between the slashes, the idle ones included (`allPieces`), and joining a path
with a name puts the name behind them. So a path and the names on the way down from it (`below`)
can be told apart again: the way from the one to the other is the names (`relativeTo?_below`), and
another extension or no last name is a change of the last of them (`withExtension_join_name`,
`parent?_join_step`).
-/

namespace ClassTranscript

namespace Text

theorem pieces_eq_splitOn (separator : Char) (cs : List Char) :
  pieces separator cs = cs.splitOn separator
  := by
  induction cs with
  | nil => rw [pieces, List.splitOn_nil]
  | cons c cs ih =>
      rw [pieces, List.splitOn_cons_eq_if_modifyHead, ih]
      by_cases h : c = separator
      · simp [h]
      · obtain ⟨piece, others, hsplit⟩ := List.exists_cons_of_ne_nil (cs.splitOn_ne_nil separator)
        simp [h, hsplit]

theorem not_mem_of_mem_pieces {separator : Char} {cs piece : List Char}
    (h : piece ∈ pieces separator cs) :
  separator ∉ piece
  := by
  induction cs generalizing piece with
  | nil =>
      obtain rfl := List.mem_singleton.mp h
      apply List.not_mem_nil
  | cons c cs ih =>
      rw [pieces] at h
      split at h
      next =>
        rcases List.mem_cons.mp h with rfl | h
        · apply List.not_mem_nil
        · apply ih h
      next hc =>
        split at h
        next =>
          obtain rfl := List.mem_singleton.mp h
          simpa [eq_comm] using hc
        next first others hpieces =>
          rw [hpieces] at ih
          rcases List.mem_cons.mp h with rfl | h
          · have hfirst := ih List.mem_cons_self
            rw [List.mem_cons, not_or]
            exact ⟨Ne.symm hc, hfirst⟩
          · apply ih (List.mem_cons_of_mem first h)

end Text

/-! ### Steps and names -/

/-- A piece that leads somewhere: to a name, or up. -/
structure IsStep (piece : String) : Prop where
  notIdle : isIdle piece = false
  noSlash : '/' ∉ piece.toList

/-- A piece that leads to a name. -/
structure IsName (piece : String) : Prop extends IsStep piece where
  notUp : piece ≠ ".."

instance (piece : String) : Decidable (IsStep piece) :=
  decidable_of_iff (isIdle piece = false ∧ '/' ∉ piece.toList)
    ⟨fun h => ⟨h.1, h.2⟩, fun h => ⟨h.notIdle, h.noSlash⟩⟩

instance (piece : String) : Decidable (IsName piece) :=
  decidable_of_iff (IsStep piece ∧ piece ≠ "..")
    ⟨fun h => ⟨h.1, h.2⟩, fun h => ⟨h.toIsStep, h.notUp⟩⟩

theorem IsStep.ne_empty {piece : String} (h : IsStep piece) :
  piece ≠ ""
  := by
  rintro rfl
  cases h.notIdle

theorem IsStep.ne_dot {piece : String} (h : IsStep piece) :
  piece ≠ "."
  := by
  rintro rfl
  cases h.notIdle

theorem isStep_up :
  IsStep ".."
  := ⟨rfl, by decide⟩

theorem dropIdleEnd_concat {piece : String} (pieces : List String) (h : isIdle piece = false) :
  dropIdleEnd (pieces ++ [piece]) = pieces ++ [piece]
  := by
  simp [dropIdleEnd, h]

theorem dropIdleEnd_isPrefix (pieces : List String) :
  dropIdleEnd pieces <+: pieces
  := by
  rw [dropIdleEnd, ← List.reverse_suffix, List.reverse_reverse]
  apply List.dropWhile_suffix

theorem filter_dropIdleEnd (pieces : List String) :
  (dropIdleEnd pieces).filter (!isIdle ·) = pieces.filter (!isIdle ·)
  := by
  have hdrop (ps : List String) :
      (ps.dropWhile isIdle).filter (!isIdle ·) = ps.filter (!isIdle ·) := by
    induction ps with
    | nil => rfl
    | cons piece ps ih =>
        cases hpiece : isIdle piece with
        | true => simp [hpiece, ih]
        | false => simp [hpiece]
  rw [dropIdleEnd, List.filter_reverse, hdrop, List.filter_reverse, List.reverse_reverse]

/-! ### Extensions -/

/-- A name with something before its last dot is split there. -/
theorem splitExtension_append {stem extension : String} (hstem : stem ≠ "")
    (hextension : '.' ∉ extension.toList) :
  splitExtension (stem ++ "." ++ extension) = (stem, some extension)
  := by
  have hlist : (stem ++ "." ++ extension).toList = stem.toList ++ '.' :: extension.toList := by
    simp
  have htail : (stem.toList ++ '.' :: extension.toList).reverse.takeWhile (· != '.')
      = extension.toList.reverse := by
    rw [List.reverse_append, List.reverse_cons, List.append_assoc,
      List.takeWhile_append_of_pos, List.singleton_append, List.takeWhile_cons_of_neg (by decide),
      List.append_nil]
    intro c hc
    rw [List.mem_reverse] at hc
    rw [bne_iff_ne]
    rintro rfl
    exact hextension hc
  have hhead : (stem.toList ++ '.' :: extension.toList).take
      ((stem.toList ++ '.' :: extension.toList).length - extension.toList.length - 1)
        = stem.toList := by
    apply List.take_left'
    simp only [List.length_append, List.length_cons]
    omega
  rw [splitExtension, hlist, htail, List.reverse_reverse, hhead, if_neg, String.ofList_toList,
    String.ofList_toList]
  rw [not_or, List.isEmpty_iff, String.toList_eq_nil_iff]
  refine ⟨?_, hstem⟩
  simp only [List.length_append, List.length_cons]
  omega

/-- The name that a path ends in after it got another extension, given the one before. -/
def changeExtension (name extension : String) : String :=
  if (splitExtension name).1 = "." then ".." else (splitExtension name).1 ++ "." ++ extension

/-- The part of a name before the last dot is a part of it. -/
theorem splitExtension_isPrefix (name : String) :
  (splitExtension name).1.toList <+: name.toList
  := by
  rw [splitExtension]
  split
  · apply List.prefix_rfl
  · rw [String.toList_ofList]
    apply List.take_prefix

theorem splitExtension_ne_empty {name : String} (h : name ≠ "") :
  (splitExtension name).1 ≠ ""
  := by
  rw [splitExtension]
  split
  · apply h
  next hcut =>
    simpa using (not_or.mp hcut).2

theorem isStep_changeExtension {name extension : String} (hname : IsStep name)
    (hextension : '/' ∉ extension.toList) :
  IsStep (changeExtension name extension)
  := by
  rw [changeExtension]
  split
  · apply isStep_up
  next hne =>
    constructor
    · have hstem := splitExtension_ne_empty hname.ne_empty
      generalize (splitExtension name).1 = stem at hstem
      rw [isIdle, Bool.or_eq_false_iff, beq_eq_false_iff_ne, beq_eq_false_iff_ne]
      constructor
      · simp
      · intro hdot
        have hlength := congrArg (·.toList.length) hdot
        have hpos : 0 < stem.toList.length := by
          rw [List.length_pos_iff, ne_eq, String.toList_eq_nil_iff]
          apply hstem
        simp at hlength
        omega
    · simp only [String.toList_append, List.mem_append, not_or]
      exact ⟨⟨fun h => hname.noSlash ((splitExtension_isPrefix name).subset h), by decide⟩,
        hextension⟩

namespace Path

/-! ### All pieces -/

/-- All pieces of a path, with what it begins with. -/
def allPieces (p : Path) : List String :=
  (Text.pieces '/' p.text.toList).map String.ofList

theorem allPieces_ne_nil (p : Path) :
  p.allPieces ≠ []
  := by
  rw [allPieces, Text.pieces_eq_splitOn, ne_eq, List.map_eq_nil_iff]
  apply List.splitOn_ne_nil

theorem noSlash_of_mem_allPieces {p : Path} {piece : String} (h : piece ∈ p.allPieces) :
  '/' ∉ piece.toList
  := by
  obtain ⟨cs, hcs, rfl⟩ := List.mem_map.mp h
  rw [String.toList_ofList]
  apply Text.not_mem_of_mem_pieces hcs

/-- A path is its pieces with slashes between them. -/
theorem text_eq_intercalate (p : Path) :
  p.text = "/".intercalate p.allPieces
  := by
  rw [← String.toList_inj, String.toList_intercalate, allPieces, List.map_map]
  simp only [Function.comp_def, String.toList_ofList, List.map_id']
  rw [Text.pieces_eq_splitOn]
  symm
  apply List.intercalate_splitOn

theorem ext_allPieces {p q : Path} (h : p.allPieces = q.allPieces) :
  p = q
  := by
  have htext : p.text = q.text := by rw [text_eq_intercalate p, h, ← text_eq_intercalate]
  cases p
  cases htext
  rfl

theorem allPieces_append (left right : String) :
  (mk (left ++ "/" ++ right)).allPieces = (mk left).allPieces ++ (mk right).allPieces
  := by
  simp only [allPieces, Text.pieces_eq_splitOn, String.toList_append]
  rw [List.append_assoc, ← List.map_append]
  congr 1
  apply List.splitOn_append_cons_self

theorem allPieces_of_noSlash {piece : String} (h : '/' ∉ piece.toList) :
  (mk piece).allPieces = [piece]
  := by
  rw [allPieces, Text.pieces_eq_splitOn, List.splitOn_eq_singleton h, List.map_singleton,
    String.ofList_toList]

theorem allPieces_intercalate {pieces : List String} (hne : pieces ≠ [])
    (h : ∀ piece ∈ pieces, '/' ∉ piece.toList) :
  (mk ("/".intercalate pieces)).allPieces = pieces
  := by
  induction pieces with
  | nil => cases hne rfl
  | cons piece pieces ih =>
      obtain ⟨hpiece, hpieces⟩ := List.forall_mem_cons.mp h
      cases pieces with
      | nil => rw [String.intercalate_singleton, allPieces_of_noSlash hpiece]
      | cons next pieces =>
          rw [String.intercalate_cons_cons, allPieces_append, allPieces_of_noSlash hpiece,
            ih (List.cons_ne_nil next pieces) hpieces, List.singleton_append]

end Path

/-! ### What a path begins with -/

namespace Anchor

/-- The pieces that an anchor stands for. -/
def leading : Anchor → List String
  | root => [""]
  | dot => ["."]
  | plain => []

/-- Whether pieces after an anchor do not change what a path begins with. -/
def Leads : Anchor → List String → Prop
  | root, pieces => pieces ≠ []
  | dot, _ => True
  | plain, pieces =>
    pieces ≠ [] ∧ pieces.head? ≠ some "." ∧ (pieces.head? = some "" → pieces = [""])

/-- Names can follow any anchor. -/
theorem leads_of_isStep {anchor : Anchor} {pieces : List String}
    (h : ∀ first ∈ pieces.head?, IsStep first) (hne : pieces ≠ []) :
  anchor.Leads pieces
  := by
  cases anchor with
  | root => exact hne
  | dot => trivial
  | plain =>
      refine ⟨hne, fun hdot => (h _ hdot).ne_dot rfl, ?_⟩
      exact fun hempty => absurd rfl (h _ hempty).ne_empty

end Anchor

namespace Path

theorem allPieces_eq (p : Path) :
  p.allPieces = p.anchor.leading ++ p.pieces ∧ p.anchor.Leads p.pieces
  := by
  have hne := p.allPieces_ne_nil
  rw [anchor, pieces, parts, ← allPieces]
  split
  next piece pieces h => exact ⟨h, List.cons_ne_nil piece pieces⟩
  next h => exact ⟨h, trivial⟩
  next hroot hdot =>
    refine ⟨rfl, hne, ?_, ?_⟩
    · intro hhead
      obtain ⟨pieces, h⟩ := List.head?_eq_some_iff.mp hhead
      apply hdot _ h
    · intro hhead
      obtain ⟨pieces, h⟩ := List.head?_eq_some_iff.mp hhead
      cases pieces with
      | nil => exact h
      | cons piece pieces => cases hroot _ _ h

theorem parts_of_allPieces {p : Path} {anchor : Anchor} {pieces : List String}
    (h : p.allPieces = anchor.leading ++ pieces) (hleads : anchor.Leads pieces) :
  p.parts = (anchor, pieces)
  := by
  rw [parts, ← allPieces, h]
  cases anchor with
  | root =>
      obtain ⟨piece, pieces, rfl⟩ := List.exists_cons_of_ne_nil hleads
      rfl
  | dot => rfl
  | plain =>
      obtain ⟨hne, hdot, hempty⟩ := hleads
      rw [Anchor.leading, List.nil_append]
      split
      · cases hempty rfl
      · cases hdot rfl
      · rfl

theorem steps_eq (p : Path) :
  p.steps = p.allPieces.filter (!isIdle ·)
  := by
  obtain ⟨h, -⟩ := p.allPieces_eq
  rw [h, List.filter_append, steps]
  cases p.anchor with
  | root => rfl
  | dot => rfl
  | plain => rfl

theorem isStep_of_mem_steps {p : Path} {step : String} (h : step ∈ p.steps) :
  IsStep step
  := by
  rw [steps_eq, List.mem_filter, Bool.not_eq_true'] at h
  exact ⟨h.2, noSlash_of_mem_allPieces h.1⟩

theorem ofParts_eq {anchor : Anchor} {pieces : List String} (h : anchor = .root → pieces ≠ []) :
  ofParts anchor pieces = ⟨"/".intercalate (anchor.leading ++ pieces)⟩
  := by
  cases anchor with
  | root =>
      obtain ⟨piece, pieces, rfl⟩ := List.exists_cons_of_ne_nil (h rfl)
      rw [Anchor.leading, List.singleton_append, String.intercalate_cons_cons, String.empty_append]
      rfl
  | dot =>
      cases pieces with
      | nil => rfl
      | cons piece pieces =>
          rw [Anchor.leading, List.singleton_append, String.intercalate_cons_cons]
          rfl
  | plain => rfl

/-- The pieces of a path are put together to the path again. -/
theorem ofParts_parts (p : Path) :
  ofParts p.anchor p.pieces = p
  := by
  obtain ⟨h, hleads⟩ := p.allPieces_eq
  rw [ofParts_eq, ← h, ← text_eq_intercalate]
  intro hroot
  rw [hroot] at hleads
  exact hleads

theorem allPieces_ofParts {anchor : Anchor} {pieces : List String} (hne : pieces ≠ [])
    (h : ∀ piece ∈ pieces, '/' ∉ piece.toList) :
  (ofParts anchor pieces).allPieces = anchor.leading ++ pieces
  := by
  have hleading : ∀ piece ∈ anchor.leading, '/' ∉ piece.toList := by
    cases anchor <;> decide
  rw [ofParts_eq fun _ => hne]
  apply allPieces_intercalate
  · apply List.append_ne_nil_of_right_ne_nil _ hne
  · intro piece hpiece
    rcases List.mem_append.mp hpiece with hpiece | hpiece
    · apply hleading piece hpiece
    · apply h piece hpiece

theorem steps_ofParts (anchor : Anchor) {pieces : List String}
    (h : ∀ piece ∈ pieces, '/' ∉ piece.toList) :
  (ofParts anchor pieces).steps = pieces.filter (!isIdle ·)
  := by
  cases pieces with
  | nil => cases anchor <;> decide
  | cons piece pieces =>
      rw [steps_eq, allPieces_ofParts (List.cons_ne_nil piece pieces) h, List.filter_append]
      cases anchor with
      | root => rfl
      | dot => rfl
      | plain => rfl

theorem anchor_ofParts {anchor : Anchor} {pieces : List String}
    (h : ∀ piece ∈ pieces, '/' ∉ piece.toList) (hleads : pieces ≠ [] → anchor.Leads pieces) :
  (ofParts anchor pieces).anchor = anchor
  := by
  cases pieces with
  | nil => cases anchor <;> decide
  | cons piece pieces =>
      have hne := List.cons_ne_nil piece pieces
      rw [Path.anchor, parts_of_allPieces (allPieces_ofParts hne h) (hleads hne)]

/-! ### Joining -/

/-- Pieces without the empty one that a slash at the end leaves. -/
def opened (pieces : List String) : List String :=
  if pieces.getLast? = some "" then pieces.dropLast else pieces

theorem opened_concat {piece : String} (pieces : List String) (h : piece ≠ "") :
  opened (pieces ++ [piece]) = pieces ++ [piece]
  := by
  simp [opened, h]

theorem opened_append (front : List String) {pieces : List String} (h : pieces ≠ []) :
  opened (front ++ pieces) = front ++ opened pieces
  := by
  rw [opened, opened, List.getLast?_append_of_ne_nil _ h, List.dropLast_append_of_ne_nil h]
  split
  · rfl
  · rfl

/-- The pieces of a path end in an empty one where the path is empty or ends in a slash. -/
theorem ends_of_getLast?_allPieces {p : Path} (h : p.allPieces.getLast? = some "") :
  p.text = "" ∨ p.text.toList.getLast? = some '/'
  := by
  obtain ⟨front, hfront⟩ := List.getLast?_eq_some_iff.mp h
  rw [text_eq_intercalate, hfront]
  cases front with
  | nil => exact .inl rfl
  | cons piece front =>
      right
      rw [String.intercalate_append_of_ne_nil (List.cons_ne_nil piece front)
        (List.cons_ne_nil "" [])]
      simp

/-- What a path is joined with is put behind its last slash, or behind another one. -/
theorem allPieces_join (p : Path) {q : Path} (h : q.anchor ≠ .root) :
  (p.join q).allPieces = opened p.allPieces ++ q.allPieces
  := by
  obtain ⟨text⟩ := p
  rw [join, if_neg h]
  split
  next hends =>
    rcases hends with rfl | hends
    · rw [String.empty_append]
      rfl
    · obtain ⟨front, hfront⟩ := List.getLast?_eq_some_iff.mp hends
      obtain rfl : text = String.ofList front ++ "/" := by
        rw [← String.toList_inj, hfront]
        simp
      have hslash := allPieces_append (String.ofList front) ""
      rw [String.append_empty] at hslash
      rw [hslash, allPieces_append, show (mk "").allPieces = [""] from rfl, opened,
        List.getLast?_concat, if_pos rfl, List.dropLast_concat]
  next hends =>
    rw [allPieces_append, opened, if_neg (mt ends_of_getLast?_allPieces hends)]

/-- The pieces of a path after its anchor, as they stand before what the path is joined with. -/
def base (p : Path) : List String :=
  opened p.pieces

theorem opened_allPieces (p : Path) :
  opened p.allPieces = p.anchor.leading ++ p.base
  := by
  obtain ⟨h, hleads⟩ := p.allPieces_eq
  rw [h, base]
  cases hpieces : p.pieces with
  | cons piece pieces => apply opened_append _ (List.cons_ne_nil piece pieces)
  | nil =>
      rw [hpieces] at hleads
      cases hanchor : p.anchor with
      | dot => rfl
      | root =>
          rw [hanchor] at hleads
          cases hleads rfl
      | plain =>
          rw [hanchor] at hleads
          cases hleads.1 rfl

theorem base_isPrefix (p : Path) :
  p.base <+: p.pieces
  := by
  rw [base, opened]
  split
  · apply List.dropLast_prefix
  · apply List.prefix_rfl

theorem noSlash_of_mem_base {p : Path} {piece : String} (h : piece ∈ p.base) :
  '/' ∉ piece.toList
  := by
  obtain ⟨hall, -⟩ := p.allPieces_eq
  apply noSlash_of_mem_allPieces (p := p)
  rw [hall]
  apply List.mem_append_right _ (p.base_isPrefix.subset h)

theorem filter_base (p : Path) :
  p.base.filter (!isIdle ·) = p.steps
  := by
  rw [base, opened, steps]
  split
  next hlast =>
    obtain ⟨front, hfront⟩ := List.getLast?_eq_some_iff.mp hlast
    rw [hfront, List.dropLast_concat, List.filter_append, List.filter_cons_of_neg (by decide),
      List.filter_nil, List.append_nil]
  · rfl

/-- Pieces that begin as those before a joined name do not change what the path begins with. -/
theorem leads_of_head?_base {p : Path} {pieces : List String} {first : String}
    (hbase : p.base.head? = some first) (h : pieces.head? = some first) :
  p.anchor.Leads pieces
  := by
  obtain ⟨hall, hleads⟩ := p.allPieces_eq
  obtain ⟨_, rfl⟩ := List.head?_eq_some_iff.mp h
  obtain ⟨others, hothers⟩ := List.head?_eq_some_iff.mp hbase
  obtain ⟨rest, hpieces⟩ := p.base_isPrefix
  cases hanchor : p.anchor with
  | root => apply List.cons_ne_nil
  | dot => trivial
  | plain =>
      rw [hanchor, ← hpieces, hothers] at hleads
      obtain ⟨-, hdot, hempty⟩ := hleads
      refine ⟨List.cons_ne_nil _ _, hdot, fun hfirst => ?_⟩
      -- a path that begins with an empty piece has no other one
      have hsingle := hempty hfirst
      have hopened := hothers
      rw [base, ← hpieces, hothers, hsingle] at hopened
      cases hopened

section

variable {p : Path} {name : String}

theorem allPieces_join_step (h : IsStep name) :
  (p.join ⟨name⟩).allPieces = opened p.allPieces ++ [name]
  := by
  have hname := allPieces_of_noSlash h.noSlash
  have hparts : (mk name).parts = (.plain, [name]) := by
    apply parts_of_allPieces hname
    exact ⟨List.cons_ne_nil _ _, by simpa using h.ne_dot, fun hempty => by simpa using hempty⟩
  rw [allPieces_join p (by simp [anchor, hparts]), hname]

theorem parts_join_step (h : IsStep name) :
  (p.join ⟨name⟩).parts = (p.anchor, p.base ++ [name])
  := by
  apply parts_of_allPieces
  · rw [allPieces_join_step h, opened_allPieces, List.append_assoc]
  · cases hbase : p.base with
    | nil =>
        apply Anchor.leads_of_isStep _ (List.cons_ne_nil name [])
        rintro _ ⟨⟩
        exact h
    | cons first pieces =>
        apply @leads_of_head?_base _ _ first
        · rw [hbase, List.head?_cons]
        · rw [List.cons_append, List.head?_cons]

theorem anchor_join_step (h : IsStep name) :
  (p.join ⟨name⟩).anchor = p.anchor
  := by
  rw [anchor, parts_join_step h]

theorem pieces_join_step (h : IsStep name) :
  (p.join ⟨name⟩).pieces = p.base ++ [name]
  := by
  rw [pieces, parts_join_step h]

theorem base_join_step (h : IsStep name) :
  (p.join ⟨name⟩).base = p.base ++ [name]
  := by
  rw [base, pieces_join_step h, opened_concat _ h.ne_empty]

theorem steps_join_step (h : IsStep name) :
  (p.join ⟨name⟩).steps = p.steps ++ [name]
  := by
  rw [steps, pieces_join_step h, List.filter_append, filter_base,
    List.filter_cons_of_pos (by simp [h.notIdle]), List.filter_nil]

/-- Two dots are no file name. -/
theorem ne_up_of_fileName? (h : IsStep name) (hname : (p.join ⟨name⟩).fileName?.isSome) :
  name ≠ ".."
  := by
  rintro rfl
  rw [fileName?, steps_join_step h, List.getLast?_concat] at hname
  cases hname

theorem fileName?_join_name (h : IsName name) :
  (p.join ⟨name⟩).fileName? = some name
  := by
  rw [fileName?, steps_join_step h.toIsStep, List.getLast?_concat]
  simp [h.notUp]

theorem endsIdle_join_step (h : IsStep name) :
  (p.join ⟨name⟩).endsIdle = false
  := by
  rw [endsIdle, pieces_join_step h, List.getLast?_concat, Option.any_some, h.notIdle,
    Bool.and_false]

/-- The path of the directory that a name was joined to leads where that one does. -/
theorem parent?_join_step (h : IsStep name) :
  ∃ directory, (p.join ⟨name⟩).parent? = some directory
    ∧ directory.anchor = p.anchor ∧ directory.steps = p.steps
  := by
  have hslash : ∀ piece ∈ dropIdleEnd p.base, '/' ∉ piece.toList :=
    fun piece hpiece => noSlash_of_mem_base ((dropIdleEnd_isPrefix p.base).subset hpiece)
  refine ⟨ofParts p.anchor (dropIdleEnd p.base), ?_, ?_, ?_⟩
  · rw [parent?, pieces_join_step h, dropIdleEnd_concat _ h.notIdle, anchor_join_step h,
      List.dropLast_concat, if_neg (by simp)]
  · apply anchor_ofParts hslash
    intro hne
    obtain ⟨first, pieces, hpieces⟩ := List.exists_cons_of_ne_nil hne
    obtain ⟨rest, hrest⟩ := dropIdleEnd_isPrefix p.base
    apply @leads_of_head?_base _ _ first
    · rw [← hrest, hpieces, List.cons_append, List.head?_cons]
    · rw [hpieces, List.head?_cons]
  · rw [steps_ofParts _ hslash, filter_dropIdleEnd, filter_base]

/-- Another extension changes the name that was joined. -/
theorem withExtension_join_name (h : IsName name) {extension : String}
    (hextension : '/' ∉ extension.toList) :
  (p.join ⟨name⟩).withExtension extension = p.join ⟨changeExtension name extension⟩
  := by
  have hchange := isStep_changeExtension h.toIsStep hextension
  have hparts := ofParts_parts (p.join ⟨changeExtension name extension⟩)
  rw [anchor_join_step hchange, pieces_join_step hchange] at hparts
  rw [withExtension, stem?, fileName?_join_name h, ← hparts, pieces_join_step h.toIsStep,
    anchor_join_step h.toIsStep, endsIdle_join_step h.toIsStep,
    dropIdleEnd_concat _ h.notIdle, List.dropLast_concat, changeExtension]
  simp

end

/-! ### Below a path -/

/-- The path that names lead to on the way down from a path. -/
def below (p : Path) (names : List String) : Path :=
  names.foldl (fun p name => p.join ⟨name⟩) p

theorem below_concat (p : Path) (names : List String) (name : String) :
  p.below (names ++ [name]) = (p.below names).join ⟨name⟩
  := by
  rw [below, List.foldl_append]
  rfl

section

variable {p : Path} {names : List String}

theorem base_below (h : ∀ name ∈ names, IsStep name) :
  (p.below names).base = p.base ++ names
  := by
  induction names using List.reverseRecOn with
  | nil => rw [List.append_nil]; rfl
  | append_singleton names name ih =>
      obtain ⟨hnames, hname⟩ := List.forall_mem_append.mp h
      rw [below_concat, base_join_step (hname name List.mem_cons_self), ih hnames,
        List.append_assoc]

theorem anchor_below (h : ∀ name ∈ names, IsStep name) :
  (p.below names).anchor = p.anchor
  := by
  induction names using List.reverseRecOn with
  | nil => rfl
  | append_singleton names name ih =>
      obtain ⟨hnames, hname⟩ := List.forall_mem_append.mp h
      rw [below_concat, anchor_join_step (hname name List.mem_cons_self), ih hnames]

theorem steps_below (h : ∀ name ∈ names, IsStep name) :
  (p.below names).steps = p.steps ++ names
  := by
  have hnames : names.filter (!isIdle ·) = names := by
    rw [List.filter_eq_self]
    intro name hname
    rw [(h name hname).notIdle, Bool.not_false]
  rw [← filter_base, base_below h, List.filter_append, filter_base, hnames]

theorem pieces_below (hne : names ≠ []) (h : ∀ name ∈ names, IsStep name) :
  (p.below names).pieces = p.base ++ names
  := by
  obtain ⟨directory, name, rfl⟩ := (List.eq_nil_or_concat' names).resolve_left hne
  obtain ⟨hdirectory, hname⟩ := List.forall_mem_append.mp h
  rw [below_concat, pieces_join_step (hname name List.mem_cons_self), base_below hdirectory,
    List.append_assoc]

theorem allPieces_below (hne : names ≠ []) (h : ∀ name ∈ names, IsStep name) :
  (p.below names).allPieces = opened p.allPieces ++ names
  := by
  rw [(allPieces_eq _).1, anchor_below h, pieces_below hne h, opened_allPieces, List.append_assoc]

/-- Joining names one by one and all at once is the same. -/
theorem join_intercalate (hne : names ≠ []) (h : ∀ name ∈ names, IsStep name) :
  p.join ⟨"/".intercalate names⟩ = p.below names
  := by
  have hpieces := allPieces_intercalate hne fun name hname => (h name hname).noSlash
  have hparts : (mk ("/".intercalate names)).parts = (.plain, names) := by
    apply parts_of_allPieces hpieces
    apply Anchor.leads_of_isStep _ hne
    intro name hname
    apply h name (List.mem_of_head? hname)
  apply ext_allPieces
  rw [allPieces_below hne h, allPieces_join p (by simp [anchor, hparts]), hpieces]

/-- Taking the steps of some pieces away leaves what follows them. -/
theorem dropSteps?_filter (pieces more : List String) :
  ∃ idle, dropSteps? (pieces ++ more) (pieces.filter (!isIdle ·)) = some (idle ++ more)
    ∧ ∀ piece ∈ idle, isIdle piece = true
  := by
  induction pieces with
  | nil => exact ⟨[], by simp [dropSteps?]⟩
  | cons piece pieces ih =>
      obtain ⟨idle, hidle, hall⟩ := ih
      cases hpiece : isIdle piece with
      | true =>
          rw [List.filter_cons_of_neg (by simp [hpiece])]
          cases hsteps : pieces.filter (!isIdle ·) with
          | nil =>
              refine ⟨piece :: pieces, by rw [dropSteps?], ?_⟩
              intro other hother
              rcases List.mem_cons.mp hother with rfl | hother
              · exact hpiece
              · simpa using List.filter_eq_nil_iff.mp hsteps other hother
          | cons step steps =>
              rw [hsteps] at hidle
              refine ⟨idle, ?_, hall⟩
              rw [List.cons_append, dropSteps?, if_pos hpiece, hidle]
      | false =>
          rw [List.filter_cons_of_pos (by simp [hpiece])]
          refine ⟨idle, ?_, hall⟩
          rw [List.cons_append, dropSteps?, if_neg (by simp [hpiece]), if_pos rfl, hidle]

/-- The way from a path to what is below it is the names. -/
theorem relativeTo?_below (hp : p.text ≠ "") (hne : names ≠ [])
    (h : ∀ name ∈ names, IsStep name) :
  (p.below names).relativeTo? p = some ⟨"/".intercalate names⟩
  := by
  obtain ⟨idle, hdrop, hidle⟩ := dropSteps?_filter p.base names
  have hnames : dropIdleEnd names = names := by
    obtain ⟨directory, name, rfl⟩ := (List.eq_nil_or_concat' names).resolve_left hne
    apply dropIdleEnd_concat _ (h name (by simp)).notIdle
  have hfirst : (idle ++ names).dropWhile isIdle = names := by
    rw [List.dropWhile_append_of_pos hidle]
    obtain ⟨name, others, rfl⟩ := List.exists_cons_of_ne_nil hne
    rw [List.dropWhile_cons_of_neg]
    simp [(h name List.mem_cons_self).notIdle]
  rw [relativeTo?, if_neg hp, anchor_below h, if_neg (not_not.mpr rfl), pieces_below hne h,
    ← filter_base, hdrop, Option.map_some, hfirst, hnames]
  rfl

end

end Path

end ClassTranscript
