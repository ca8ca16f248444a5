import ClassTranscript.Java.Token
import ClassTranscript.Proofs.Peg.Inversion
import ClassTranscript.Proofs.Text.Trim

/-!
# Spacing

What the rule of spacing takes falls into white space and comments (`exists_gap_of_grows`). Of a word
with spacing after it trimming leaves the word alone just where no comment is in the spacing
(`trim_spaced_eq_iff`).
-/

namespace ClassTranscript.Java

open Peg

/-- A piece of the spacing after a token. -/
inductive Gap where
  | blanks (cs : List Char)
  | blockComment (cs : List Char)
  /-- The line end that closes the comment is missing at the end of a text. -/
  | lineComment (cs ending : List Char)
  deriving DecidableEq, Repr

namespace Gap

/-- The characters of a piece. -/
def chars : Gap → List Char
  | blanks cs => cs
  | blockComment cs => "/*".toList ++ (cs ++ "*/".toList)
  | lineComment cs ending => "//".toList ++ (cs ++ ending)

def isComment : Gap → Bool
  | blanks _ => false
  | _ => true

/-- The piece is white space or a comment that ends where it first can. -/
def IsSpelled : Gap → Prop
  | blanks cs => cs ≠ [] ∧ ∀ c ∈ cs, c ∈ " \t\r\n\x0c".toList
  | blockComment cs => ¬ "*/".toList <:+: cs ++ ['*']
  | lineComment cs ending =>
    (∀ c ∈ cs, c ∉ "\r\n".toList) ∧ ending ∈ ["\r\n".toList, ['\r'], ['\n'], []]

/-- The text of some pieces. -/
def text (gap : List Gap) : String :=
  String.ofList (gap.flatMap chars)

section

variable {g : Gap} {gap : List Gap}

theorem chars_eq_cons (h : g.IsSpelled) :
  ∃ c cs, g.chars = c :: cs ∧ c ∈ " \t\r\n\x0c/".toList
  := by
  cases g with
  | blanks cs =>
      obtain ⟨hne, hblank⟩ := h
      obtain ⟨c, cs, rfl⟩ := List.exists_cons_of_ne_nil hne
      have hsub : " \t\r\n\x0c".toList ⊆ " \t\r\n\x0c/".toList := by decide
      exact ⟨c, cs, rfl, hsub (hblank c List.mem_cons_self)⟩
  | blockComment cs => exact ⟨'/', _, rfl, by decide⟩
  | lineComment cs ending => exact ⟨'/', _, rfl, by decide⟩

/-- Of the pieces of spacing those are blank that are no comments. -/
theorem isBlank_iff (h : g.IsSpelled) :
  (∀ c ∈ g.chars, Text.isBlank c = true) ↔ g.isComment = false
  := by
  have hslash (cs : List Char) : ¬ ∀ c ∈ '/' :: cs, Text.isBlank c = true := by
    intro hall
    have hblank := hall '/' List.mem_cons_self
    contradiction
  cases g with
  | blanks cs =>
      have hall : " \t\r\n\x0c".toList.all Text.isBlank = true := by decide
      exact iff_of_true (fun c hmem => List.all_eq_true.mp hall c (h.2 c hmem)) rfl
  | blockComment cs => exact iff_of_false (hslash _) (by simp [isComment])
  | lineComment cs ending => exact iff_of_false (hslash _) (by simp [isComment])

theorem isBlank_text_iff (h : ∀ g ∈ gap, g.IsSpelled) :
  (∀ c ∈ (text gap).toList, Text.isBlank c = true) ↔ ∀ g ∈ gap, g.isComment = false
  := by
  simp only [text, String.toList_ofList, List.mem_flatMap]
  constructor
  · intro hblank g hmem
    exact (isBlank_iff (h g hmem)).mp fun c hc => hblank c ⟨g, hmem, hc⟩
  · rintro hno c ⟨g, hmem, hc⟩
    exact (isBlank_iff (h g hmem)).mpr (hno g hmem) c hc

/-- Spacing begins with white space or the sign of a comment. -/
theorem head?_text (h : ∀ g ∈ gap, g.IsSpelled) :
  ∀ c, (text gap).toList.head? = some c → c ∈ " \t\r\n\x0c/".toList
  := by
  rw [text, String.toList_ofList]
  intro c hc
  cases gap with
  | nil => cases hc
  | cons g gap =>
      obtain ⟨d, ds, hchars, hd⟩ := chars_eq_cons (h g List.mem_cons_self)
      rw [List.flatMap_cons, hchars] at hc
      obtain rfl : d = c := Option.some.inj hc
      apply hd

end

end Gap

/-! ### The rule of spacing -/

section

variable {d : Draft} {here there : Cursor} {ns : List Node}

/-- A comment in a block is taken up to the first place where it can end. -/
theorem exists_blockComment_of_grows
    (h : Grows d (.seq ["/*", .star (.seq [.notAhead "*/", .any]), "*/"]) here there ns) :
  ∃ cs, (Gap.blockComment cs).IsSpelled ∧ here.Passes (Gap.blockComment cs).chars there
  := by
  obtain ⟨mid, hopen, h⟩ := h.of_seq_literal
  obtain ⟨stop, _, _, -, hbody, h⟩ := h.of_seq_cons
  obtain ⟨_, hclose, hnil⟩ := h.of_seq_literal
  obtain ⟨rfl, -⟩ := hnil.of_seq_nil
  obtain ⟨cs, hpasses, hnot⟩ := hbody.of_star_upTo
  refine ⟨cs, ?_, hopen.append (hpasses.append hclose)⟩
  rintro ⟨before, after, heq⟩
  -- what follows the sign inside the comment holds the star before the last character
  obtain rfl | ⟨tail, c, rfl⟩ := List.eq_nil_or_concat after
  · rw [List.append_nil] at heq
    have hlast := congrArg List.getLast? heq
    simp at hlast
  · rw [List.concat_eq_append, ← List.append_assoc] at heq
    have hcs := (List.append_inj_left' heq rfl).symm
    rw [List.append_assoc] at hcs
    apply hnot before _ hcs (by simp)
    rw [List.append_assoc]
    apply List.prefix_append

/-- A comment in a line is taken with the line end. -/
theorem exists_lineComment_of_grows
    (h : Grows d (.seq
      ["//", .star (.seq [.notAhead (Expr.oneOf "\r\n"), .any]),
       .choice ["\r\n", '\r', '\n', .endOfInput]]) here there ns) :
  ∃ cs ending, (Gap.lineComment cs ending).IsSpelled
    ∧ here.Passes (Gap.lineComment cs ending).chars there
  := by
  obtain ⟨mid, hopen, h⟩ := h.of_seq_literal
  obtain ⟨stop, _, _, -, hbody, h⟩ := h.of_seq_cons
  obtain ⟨_, _, _, -, hclose, hnil⟩ := h.of_seq_cons
  obtain ⟨rfl, -⟩ := hnil.of_seq_nil
  obtain ⟨cs, hcs, hpasses⟩ := hbody.exists_pieces (f := fun c => [c])
    (p := fun c => c ∉ "\r\n".toList) fun hround => by
      obtain ⟨c, hc, hpasses⟩ := hround.of_exceptChar
      exact ⟨c, by simpa [CharClass.holds] using hc, hpasses⟩
  rw [List.flatMap_singleton'] at hpasses
  have hending : ∃ ending ∈ ["\r\n".toList, ['\r'], ['\n'], []], stop.Passes ending there := by
    obtain ⟨item, hmem, hitem⟩ := hclose.of_choice
    simp only [List.mem_cons, List.not_mem_nil, or_false] at hmem
    rcases hmem with rfl | rfl | rfl | rfl
    · exact ⟨_, by simp, hitem.of_literal⟩
    · obtain ⟨c, hc, hpasses⟩ := hitem.of_char
      obtain rfl : c = '\r' := beq_iff_eq.mp hc
      exact ⟨['\r'], by simp, hpasses⟩
    · obtain ⟨c, hc, hpasses⟩ := hitem.of_char
      obtain rfl : c = '\n' := beq_iff_eq.mp hc
      exact ⟨['\n'], by simp, hpasses⟩
    · cases hitem with
      | reads hreads hrest hoffset =>
          obtain ⟨rfl, -⟩ := hreads
          exact ⟨[], by simp, hrest, hoffset⟩
  obtain ⟨ending, hmem, hending⟩ := hending
  exact ⟨cs, ending, ⟨hcs, hmem⟩, hopen.append (hpasses.append hending)⟩

/-- The rule of spacing takes white space and comments. -/
theorem exists_gap_of_grows (h : Grows d spacing[0].body here there ns) :
  ∃ gap : List Gap, (∀ g ∈ gap, g.IsSpelled) ∧ here.Passes (Gap.text gap).toList there
  := by
  simp only [Gap.text, String.toList_ofList]
  apply h.exists_pieces
  intro _ _ _ hround
  obtain ⟨item, hmem, hitem⟩ := hround.of_choice
  simp only [List.mem_cons, List.not_mem_nil, or_false] at hmem
  rcases hmem with rfl | rfl | rfl
  · obtain ⟨cs, hne, hcs, hpasses⟩ := hitem.of_plus_char
    refine ⟨.blanks cs, ⟨hne, ?_⟩, hpasses⟩
    intro c hmem
    simpa [CharClass.holds] using hcs c hmem
  · obtain ⟨cs, hspelled, hpasses⟩ := exists_blockComment_of_grows hitem
    exact ⟨_, hspelled, hpasses⟩
  · obtain ⟨cs, ending, hspelled, hpasses⟩ := exists_lineComment_of_grows hitem
    exact ⟨_, hspelled, hpasses⟩

end

/-! ### Words with spacing after them -/

section

variable {word w : List Char} {gap : List Gap}

/-- Trimming leaves of a word and the spacing after it another such word just where no comment is in
the spacing, and then the word itself. -/
theorem trim_spaced_eq_iff (hword : Text.Tight word) (hne : word ≠ [])
    (hgap : ∀ g ∈ gap, g.IsSpelled) (hw : ∀ c ∈ w, c ∉ " \t\r\n\x0c/".toList) :
  Text.trim (String.ofList (word ++ (Gap.text gap).toList)) = String.ofList w
    ↔ word = w ∧ ∀ g ∈ gap, g.isComment = false
  := by
  rw [Text.trim_append_eq _ hword hne, String.ofList_inj, ← Gap.isBlank_text_iff hgap,
    ← Text.dropEndWhile_eq_nil_iff]
  constructor
  · rintro rfl
    obtain ⟨tail, htail⟩ := Text.dropEndWhile_prefix Text.isBlank (Gap.text gap).toList
    cases hleft : Text.dropEndWhile Text.isBlank (Gap.text gap).toList with
    | nil => exact ⟨(List.append_nil word).symm, rfl⟩
    | cons c left =>
        rw [hleft] at hw htail
        have hc := Gap.head?_text hgap c (by rw [← htail]; rfl)
        exact absurd hc (hw c (by simp))
  · rintro ⟨rfl, hnil⟩
    rw [hnil, List.append_nil]

end

end ClassTranscript.Java
