import ClassTranscript.Proofs.Java.Rules
import ClassTranscript.Proofs.Peg.TakingLines

/-!
# Words

A word is made of units: single characters that identifiers are made of, and escapes of characters.
A text falls into units in one way, so of the words at its front there is a longest
(`exists_longestWord`). The rules for the characters of identifiers take one unit each. A list of
words, none of which begins a later one, with no unit after them, takes the longest word of the text
where it is in the list, and is refused where it is not (`takes_guardedWords`,
`refuses_guardedWords`).
-/

namespace ClassTranscript.Java

open Peg Peg.Expr

/-! ### Units -/

/-- A character of a class, or the escape of a character. -/
inductive IsUnit (cls : CharClass) : List Char → Prop where
  | char {c : Char} : cls.holds c = true → IsUnit cls [c]
  | escape {marks : Nat} {digits : List Char} :
    digits.length = 4 → (∀ c ∈ digits, Text.isDigit 16 c = true) →
    IsUnit cls ('\\' :: 'u' :: (List.replicate marks 'u' ++ digits))

/-- Units of which identifiers go on, one after the other. -/
inductive AreUnits : List Char → Prop where
  | nil : AreUnits []
  | cons {u s : List Char} : IsUnit .letterOrDigit u → AreUnits s → AreUnits (u ++ s)

/-- Units of identifiers, the first of which may begin one. There may be none at all. -/
inductive IsWord : List Char → Prop where
  | nil : IsWord []
  | cons {u s : List Char} : IsUnit .letter u → AreUnits s → IsWord (u ++ s)

/-- The text does not begin with a unit. -/
def NoUnit (cls : CharClass) (text : List Char) : Prop :=
  ∀ u tail, IsUnit cls u → text ≠ u ++ tail

/-- The longest word that a text begins with. -/
structure LongestWord (w text : List Char) : Prop where
  isWord : IsWord w
  isPrefix : w <+: text
  longest : ∀ v, IsWord v → v <+: text → v.length ≤ w.length

section

variable {cls : CharClass} {u v s t w text rest : List Char}

theorem IsUnit.ne_nil (h : IsUnit cls u) :
  u ≠ []
  := by
  cases h <;> simp

theorem IsUnit.length_pos (h : IsUnit cls u) :
  0 < u.length
  := List.length_pos_iff.mpr h.ne_nil

/-- What may begin an identifier may also stand inside one. -/
theorem IsUnit.inside (h : IsUnit .letter u) :
  IsUnit .letterOrDigit u
  := by
  cases h with
  | char hc => exact .char (Bool.or_eq_true_iff.mpr (.inl hc))
  | escape hlength hhex => exact .escape hlength hhex

theorem holds_backslash :
  CharClass.letterOrDigit.holds '\\' = false ∧ CharClass.letter.holds '\\' = false
  := by
  decide

/-- Only a character of the class or a backslash begins a unit. -/
theorem noUnit_of_head (h : ∀ c, text.head? = some c → cls.holds c = false ∧ c ≠ '\\') :
  NoUnit cls text
  := by
  rintro u tail hu rfl
  cases hu with
  | char hc =>
      rw [(h _ rfl).1] at hc
      cases hc
  | escape _ _ => exact (h _ rfl).2 rfl

/-- A text begins with at most one unit. -/
theorem IsUnit.unique (hu : IsUnit .letterOrDigit u) (hv : IsUnit .letterOrDigit v)
    (h : u ++ s = v ++ t) :
  u = v ∧ s = t
  := by
  have hfirst {c : Char} (hc : CharClass.letterOrDigit.holds c = true) : c ≠ '\\' := by
    rintro rfl
    rw [holds_backslash.1] at hc
    cases hc
  cases hu with
  | char hc =>
      cases hv with
      | char _ =>
          obtain ⟨rfl, rfl⟩ := List.cons.inj h
          exact ⟨rfl, rfl⟩
      | escape _ _ => exact absurd (List.cons.inj h).1 (hfirst hc)
  | @escape marks digits hlength hhex =>
      cases hv with
      | char hc => exact absurd (List.cons.inj h).1.symm (hfirst hc)
      | @escape marks' digits' hlength' hhex' =>
          have hhead {ds more : List Char} (hds : ds.length = 4)
              (hall : ∀ c ∈ ds, Text.isDigit 16 c = true) : (ds ++ more).head? ≠ some 'u' := by
            obtain ⟨c, ds, rfl⟩ := List.exists_cons_of_length_pos (by omega : 0 < ds.length)
            rintro ⟨⟩
            exact absurd (hall 'u' List.mem_cons_self) (by decide)
          simp only [List.cons_append, List.cons.injEq, true_and, List.append_assoc] at h
          have hmarks := congrArg (List.takeWhile (· == 'u')) h
          have hrest := congrArg (List.dropWhile (· == 'u')) h
          rw [(takeWhile_marks marks (hhead hlength hhex)).1,
            (takeWhile_marks marks' (hhead hlength' hhex')).1] at hmarks
          rw [(takeWhile_marks marks (hhead hlength hhex)).2,
            (takeWhile_marks marks' (hhead hlength' hhex')).2] at hrest
          obtain ⟨rfl, rfl⟩ := List.append_inj hrest (hlength.trans hlength'.symm)
          exact ⟨by rw [hmarks], rfl⟩

/-! ### Texts of units -/

theorem AreUnits.append (hs : AreUnits s) (ht : AreUnits t) :
  AreUnits (s ++ t)
  := by
  induction hs with
  | nil => exact ht
  | cons hu _ ih =>
      rw [List.append_assoc]
      exact .cons hu ih

/-- After some of the units of a text the others are left. -/
theorem AreUnits.of_append (hs : AreUnits s) (h : AreUnits (s ++ t)) :
  AreUnits t
  := by
  induction hs with
  | nil => exact h
  | @cons u s hu _ ih =>
      apply ih
      generalize htext : u ++ s ++ t = text at h
      cases h with
      | nil => exact absurd (List.append_eq_nil_iff.mp (List.append_eq_nil_iff.mp htext).1).1 hu.ne_nil
      | cons hv h =>
          rw [List.append_assoc] at htext
          obtain ⟨-, rfl⟩ := hu.unique hv htext
          exact h

/-- Units are no longer than those up to where no unit follows. -/
theorem AreUnits.length_le (hs : AreUnits s) (hrest : NoUnit .letterOrDigit rest) (ht : AreUnits t)
    {tail : List Char} (h : t ++ tail = s ++ rest) :
  t.length ≤ s.length
  := by
  induction ht generalizing s with
  | nil => apply Nat.zero_le
  | @cons v t hv _ ih =>
      rw [List.append_assoc] at h
      cases hs with
      | nil => exact absurd h.symm (hrest _ _ hv)
      | cons hu hs =>
          rw [List.append_assoc] at h
          obtain ⟨rfl, hafter⟩ := hv.unique hu h
          have hle := ih hs hafter
          simp only [List.length_append]
          omega

/-- A text goes on with units up to where none follows. -/
theorem exists_units (text : List Char) :
  ∃ s rest, text = s ++ rest ∧ AreUnits s ∧ NoUnit .letterOrDigit rest
  := by
  induction hn : text.length using Nat.strong_induction_on generalizing text with
  | _ n ih =>
      by_cases hnone : NoUnit .letterOrDigit text
      · exact ⟨[], text, rfl, .nil, hnone⟩
      · simp only [NoUnit, not_forall, ne_eq, not_not] at hnone
        obtain ⟨u, tail, hu, rfl⟩ := hnone
        have hpos := hu.length_pos
        simp only [List.length_append] at hn
        obtain ⟨s, rest, rfl, hs, hrest⟩ := ih tail.length (by omega) tail rfl
        exact ⟨u ++ s, rest, (List.append_assoc u s rest).symm, .cons hu hs, hrest⟩

/-! ### Words -/

theorem IsWord.areUnits (h : IsWord w) :
  AreUnits w
  := by
  cases h with
  | nil => exact .nil
  | cons hu hs => exact .cons hu.inside hs

/-- A word goes on with units. -/
theorem IsWord.append (h : IsWord w) (hne : w ≠ []) (ht : AreUnits t) :
  IsWord (w ++ t)
  := by
  cases h with
  | nil => exact absurd rfl hne
  | cons hu hs =>
      rw [List.append_assoc]
      exact .cons hu (hs.append ht)

/-- A text that begins with nothing that may begin an identifier begins with no word but the empty
one. -/
theorem longestWord_nil (h : NoUnit .letter text) :
  LongestWord [] text
  := by
  refine ⟨.nil, List.nil_prefix, ?_⟩
  rintro v hv ⟨tail, rfl⟩
  cases hv with
  | nil => apply Nat.le_refl
  | cons hu _ => exact absurd (List.append_assoc _ _ _) (h _ _ hu)

/-- A word behind which no unit comes is the longest. -/
theorem longestWord_of_noUnit (hw : IsWord w) (hrest : NoUnit .letterOrDigit rest) :
  LongestWord w (w ++ rest)
  := by
  refine ⟨hw, List.prefix_append w rest, ?_⟩
  rintro v hv ⟨tail, htail⟩
  exact hw.areUnits.length_le hrest hv.areUnits htail

theorem exists_longestWord (text : List Char) :
  ∃ w, LongestWord w text
  := by
  by_cases hnone : NoUnit .letter text
  · exact ⟨[], longestWord_nil hnone⟩
  · simp only [NoUnit, not_forall, ne_eq, not_not] at hnone
    obtain ⟨u, tail, hu, rfl⟩ := hnone
    obtain ⟨s, rest, rfl, hs, hrest⟩ := exists_units tail
    refine ⟨u ++ s, ?_⟩
    rw [← List.append_assoc]
    exact longestWord_of_noUnit (.cons hu hs) hrest

namespace LongestWord

/-- A word at the front of the text begins the longest. -/
theorem prefix_of_isWord (h : LongestWord w text) (hv : IsWord v) (hbegins : v <+: text) :
  v <+: w
  := List.prefix_of_prefix_length_le hbegins h.isPrefix (h.longest v hv hbegins)

theorem unique (h : LongestWord w text) (hv : LongestWord v text) :
  w = v
  := (hv.prefix_of_isWord h.isWord h.isPrefix).eq_of_length_le
    (h.longest v hv.isWord hv.isPrefix)

/-- No unit follows the longest word. -/
theorem noUnit (h : LongestWord w (w ++ rest)) (hne : w ≠ []) :
  NoUnit .letterOrDigit rest
  := by
  rintro u tail hu rfl
  have hword := h.isWord.append hne (.cons hu .nil)
  rw [List.append_nil] at hword
  have hle := h.longest _ hword ⟨tail, List.append_assoc w u tail⟩
  have hpos := hu.length_pos
  simp only [List.length_append] at hle
  omega

/-- Where the longest word is empty the text begins with nothing that may begin an identifier. -/
theorem noUnit_of_nil (h : LongestWord [] text) :
  NoUnit .letter text
  := by
  rintro u tail hu rfl
  have hword : IsWord (u ++ []) := .cons hu .nil
  rw [List.append_nil] at hword
  have hle := h.longest u hword (List.prefix_append u tail)
  exact absurd hu.length_pos (by simpa using hle)

/-- After a word that is not the longest the text goes on with a unit. -/
theorem exists_unit (h : LongestWord w (v ++ rest)) (hv : IsWord v) (hvw : v ≠ w) :
  ∃ u tail, IsUnit .letterOrDigit u ∧ rest = u ++ tail
  := by
  obtain ⟨more, rfl⟩ := h.prefix_of_isWord hv (List.prefix_append v rest)
  obtain ⟨tail, htail⟩ := h.isPrefix
  rw [List.append_assoc] at htail
  obtain rfl := List.append_cancel_left htail
  have hmore := hv.areUnits.of_append h.isWord.areUnits
  cases hmore with
  | nil => exact absurd (List.append_nil v).symm hvw
  | cons hu _ => exact ⟨_, _, hu, List.append_assoc _ _ _⟩

end LongestWord

end

/-! ### The rules for units -/

section

variable {d : Draft} {source : String} {cls : CharClass} {u s rest : List Char}

theorem refuses_hexDigit (h : ∀ c, rest.head? = some c → Text.isDigit 16 c = false) :
  Refuses d source hexDigit rest
  := by
  have hnone (c : Char) (hc : rest.head? = some c) : ¬ (('a' ≤ c ∧ c ≤ 'f') ∨ ('A' ≤ c ∧ c ≤ 'F')
      ∨ ('0' ≤ c ∧ c ≤ '9')) := by
    rw [← isDigit_sixteen_iff, h c hc]
    exact Bool.false_ne_true
  simp only [not_or] at hnone
  refine .choice ?_ (.choice ?_ (.choice ?_ refuses_choice_nil))
  · apply refuses_range fun c hc => (hnone c hc).1
  · apply refuses_range fun c hc => (hnone c hc).2.1
  · apply refuses_range fun c hc => (hnone c hc).2.2

/-- Hexadecimal digits are refused where there are too few of them. -/
theorem refuses_hexDigits (n : Nat)
    (h : ∀ digits tail, digits.length = n → (∀ c ∈ digits, Text.isDigit 16 c = true) →
      rest ≠ digits ++ tail) :
  Refuses d source (.seq (List.replicate n hexDigit)) rest
  := by
  induction n generalizing rest with
  | zero => exact absurd rfl (h [] rest rfl (by simp))
  | succ n ih =>
      by_cases hhead : ∃ c tail, rest = c :: tail ∧ Text.isDigit 16 c = true
      · obtain ⟨c, tail, rfl, hc⟩ := hhead
        apply (takes_hexDigit hc tail).refuses_seq (s := [c])
        apply ih
        rintro digits more hlength hhex rfl
        apply h (c :: digits) more (by simp [hlength]) _ rfl
        exact List.forall_mem_cons.mpr ⟨hc, hhex⟩
      · apply Refuses.seq
        apply refuses_hexDigit
        intro c hc
        obtain ⟨tail, rfl⟩ := List.head?_eq_some_iff.mp hc
        rw [Bool.eq_false_iff]
        exact fun hdigit => hhead ⟨c, tail, rfl, hdigit⟩

theorem refuses_unicodeEscape (hd : HasRules d)
    (h : ∀ u tail, IsUnit .letter ('\\' :: 'u' :: u) → rest ≠ 'u' :: (u ++ tail)) :
  Refuses d source (.rule "UnicodeEscape") rest
  := by
  apply hd.refuses_rule (x := literals[15]) (by simp [groups]) (List.getElem_mem _)
  obtain ⟨marks, tail, rfl, htail⟩ := exists_marks rest
  have hstop : ∀ c, tail.head? = some c → (CharClass.only 'u').holds c = false := by
    intro c hc
    rw [CharClass.holds, beq_eq_false_iff_ne]
    rintro rfl
    exact htail hc
  cases marks with
  | zero => exact (refuses_char hstop).plus.seq
  | succ marks =>
      have hmarks : Takes d source (.plus 'u') (List.replicate (marks + 1) 'u') tail NoNodes := by
        apply takes_plus_chars (by simp) _ hstop
        intro c hmem
        rw [List.eq_of_mem_replicate hmem]
        rfl
      apply hmarks.refuses_seq
      apply refuses_hexDigits 4
      rintro digits more hlength hhex rfl
      apply h (List.replicate marks 'u' ++ digits) more (.escape hlength hhex)
      rw [List.replicate_succ, List.cons_append, List.append_assoc]

/-- The body of a rule for a character of an identifier. -/
def unitOf (cls : CharClass) : Expr :=
  .choice [.seq ['\\', .rule "UnicodeEscape"], .char cls]

theorem takes_unitOf (hd : HasRules d) (hcls : cls.holds '\\' = false) (hu : IsUnit cls u) :
  Takes d source (unitOf cls) u rest AnyNodes
  := by
  cases hu with
  | @char c hc =>
      apply Takes.any
      apply Takes.choice_next
      · apply Refuses.seq
        apply refuses_char
        rintro _ ⟨⟩
        rw [CharClass.holds, beq_eq_false_iff_ne]
        rintro rfl
        rw [hcls] at hc
        cases hc
      · apply (takes_char hc rest).choice
  | @escape marks digits hlength hhex =>
      have hbegin : Takes d source '\\' ['\\'] ('u' :: (List.replicate marks 'u' ++ digits) ++ rest)
          NoNodes := takes_char (by decide) _
      exact (hbegin.skip (takes_unicodeEscape hd.literals hlength hhex).last).choice

theorem refuses_unitOf (hd : HasRules d) (h : NoUnit cls rest) :
  Refuses d source (unitOf cls) rest
  := by
  refine .choice ?_ (.choice ?_ refuses_choice_nil)
  · by_cases hhead : ∃ tail, rest = '\\' :: tail
    · obtain ⟨tail, rfl⟩ := hhead
      have hbegin : Takes d source '\\' ['\\'] tail NoNodes := takes_char (by decide) _
      apply hbegin.refuses_seq
      apply Refuses.seq
      apply refuses_unicodeEscape hd
      rintro u more hu rfl
      have hunit : IsUnit cls ('\\' :: 'u' :: u) := by
        generalize hescape : '\\' :: 'u' :: u = escape at hu
        cases hu with
        | char _ => simp at hescape
        | escape hlength hhex => exact .escape hlength hhex
      exact h _ more hunit rfl
    · apply Refuses.seq
      apply refuses_char
      intro c hc
      rw [CharClass.holds, beq_eq_false_iff_ne]
      rintro rfl
      exact hhead (List.head?_eq_some_iff.mp hc)
  · apply refuses_char
    intro c hc
    obtain ⟨tail, rfl⟩ := List.head?_eq_some_iff.mp hc
    rw [Bool.eq_false_iff]
    exact fun hholds => h [c] tail (.char hholds) rfl

theorem takes_letter (hd : HasRules d) (hu : IsUnit .letter u) :
  Takes d source (.rule "Letter") u rest AnyNodes
  := hd.takes_rule (x := identifiers[1]) (by simp [groups])
    (List.getElem_mem _) (takes_unitOf hd holds_backslash.2 hu)

theorem refuses_letter (hd : HasRules d) (h : NoUnit .letter rest) :
  Refuses d source (.rule "Letter") rest
  := hd.refuses_rule (x := identifiers[1]) (by simp [groups])
    (List.getElem_mem _) (refuses_unitOf hd h)

theorem takes_letterOrDigit (hd : HasRules d) (hu : IsUnit .letterOrDigit u) :
  Takes d source (.rule "LetterOrDigit") u rest AnyNodes
  := hd.takes_rule (x := identifiers[2]) (by simp [groups])
    (List.getElem_mem _) (takes_unitOf hd holds_backslash.1 hu)

theorem refuses_letterOrDigit (hd : HasRules d) (h : NoUnit .letterOrDigit rest) :
  Refuses d source (.rule "LetterOrDigit") rest
  := hd.refuses_rule (x := identifiers[2]) (by simp [groups])
    (List.getElem_mem _) (refuses_unitOf hd h)

/-- A repetition takes all units that follow. -/
theorem takes_units (hd : HasRules d) (hs : AreUnits s) (hrest : NoUnit .letterOrDigit rest) :
  Takes d source (.star (.rule "LetterOrDigit")) s rest AnyNodes
  := by
  induction hs with
  | nil => exact (takes_star_nil (refuses_letterOrDigit hd hrest)).any
  | cons hu _ ih => exact ((takes_letterOrDigit hd hu).star ih).any

end

/-! ### Lists of words -/

/-- The words are not empty and consist of small letters. -/
def SmallLetters (words : List String) : Prop :=
  ∀ w ∈ words, w.toList ≠ [] ∧ ∀ c ∈ w.toList, 'a' ≤ c ∧ c ≤ 'z'

instance (words : List String) : Decidable (SmallLetters words) :=
  have (w : String) : Decidable (∀ c ∈ w.toList, 'a' ≤ c ∧ c ≤ 'z') :=
    List.decidableBAll _ w.toList
  List.decidableBAll (fun w : String => w.toList ≠ [] ∧ ∀ c ∈ w.toList, 'a' ≤ c ∧ c ≤ 'z') words

/-- No word begins a later one. -/
def LongerFirst (words : List String) : Prop :=
  words.Pairwise fun u v => ¬ u.toList <+: v.toList

instance (words : List String) : Decidable (LongerFirst words) :=
  inferInstanceAs (Decidable (words.Pairwise fun u v => ¬ u.toList <+: v.toList))

theorem holds_smallLetter {c : Char} (h : 'a' ≤ c ∧ c ≤ 'z') :
  CharClass.letter.holds c = true
  := by
  have hall : ∀ n < 26, CharClass.letter.holds (Char.ofNat (97 + n)) = true := by decide
  have hlo : 97 ≤ c.toNat := h.1
  have hhi : c.toNat ≤ 122 := h.2
  have hc := hall (c.toNat - 97) (by omega)
  rwa [Nat.add_sub_cancel' hlo, Char.ofNat_toNat] at hc

theorem areUnits_of_smallLetters {cs : List Char} (h : ∀ c ∈ cs, 'a' ≤ c ∧ c ≤ 'z') :
  AreUnits cs
  := by
  induction cs with
  | nil => exact .nil
  | cons c cs ih =>
      obtain ⟨hc, hcs⟩ := List.forall_mem_cons.mp h
      exact .cons (IsUnit.inside (.char (holds_smallLetter hc))) (ih hcs)

theorem isWord_of_smallLetters {cs : List Char} (h : ∀ c ∈ cs, 'a' ≤ c ∧ c ≤ 'z') :
  IsWord cs
  := by
  cases cs with
  | nil => exact .nil
  | cons c cs =>
      obtain ⟨hc, hcs⟩ := List.forall_mem_cons.mp h
      exact .cons (.char (holds_smallLetter hc)) (areUnits_of_smallLetters hcs)

section

variable {d : Draft} {source : String} {words : List String} {word : String}
  {w t text rest : List Char} {items : List Expr} {p : List Node → Prop} (hd : HasRules d)

include hd

/-- What no unit may follow is refused after a word that is not the longest. -/
theorem refuses_guard (hsmall : ∀ c ∈ word.toList, 'a' ≤ c ∧ c ≤ 'z')
    (h : LongestWord w (word.toList ++ rest)) (hnot : word.toList ≠ w) :
  Refuses d source (.seq (.notAhead (.rule "LetterOrDigit") :: items)) rest
  := by
  obtain ⟨u, tail, hu, rfl⟩ := h.exists_unit (isWord_of_smallLetters hsmall) hnot
  exact (takes_letterOrDigit hd hu).refuses_notAhead.seq

/-- A single word that no unit may follow is taken where it is the longest word. -/
theorem takes_word (hne : word.toList ≠ []) (h : LongestWord word.toList (word.toList ++ rest)) :
  Takes d source (Java.word word) word.toList rest NoNodes
  := (takes_literal word rest).seq_nothing
    (takes_notAhead (refuses_letterOrDigit hd (h.noUnit hne))).last

theorem refuses_word (hsmall : ∀ c ∈ word.toList, 'a' ≤ c ∧ c ≤ 'z')
    (h : LongestWord w text) (hnot : word.toList ≠ w) :
  Refuses d source (Java.word word) text
  := by
  by_cases hbegins : word.toList <+: text
  · obtain ⟨tail, rfl⟩ := hbegins
    exact (takes_literal word tail).refuses_seq (refuses_guard hd hsmall h hnot)
  · exact (refuses_literal hbegins).seq

omit hd in
/-- The first word of a list that the text begins with is the longest word, where that is in the
list. -/
theorem takes_words (hsmall : SmallLetters words) (hfirst : LongerFirst words)
    (hmem : String.ofList w ∈ words) (h : LongestWord w (w ++ rest)) :
  Takes d source (Expr.words words) w rest NoNodes
  := by
  induction words with
  | nil => cases hmem
  | cons word words ih =>
      obtain ⟨⟨hne, hchars⟩, hsmall⟩ := List.forall_mem_cons.mp hsmall
      obtain ⟨hnot, hfirst⟩ := List.pairwise_cons.mp hfirst
      rcases List.mem_cons.mp hmem with rfl | hmem
      · apply Takes.choice
        simpa using takes_literal (String.ofList w) rest
      · apply Takes.choice_next _ (ih hsmall hfirst hmem)
        apply refuses_literal
        intro hbegins
        apply hnot _ hmem
        rw [String.toList_ofList]
        exact h.prefix_of_isWord (isWord_of_smallLetters hchars) hbegins

/-- The words of a list, where no unit may follow them, take the longest word of the text if it is in
the list. -/
theorem takes_guardedWords (hsmall : SmallLetters words) (hfirst : LongerFirst words)
    (hmem : String.ofList w ∈ words) (h : LongestWord w (w ++ (t ++ rest)))
    (hitems : Takes d source (.seq items) t rest p) :
  Takes d source (.seq (Expr.words words :: .notAhead (.rule "LetterOrDigit") :: items)) (w ++ t)
    rest p
  := by
  have hne : w ≠ [] := by
    have hne := (hsmall _ hmem).1
    rwa [String.toList_ofList] at hne
  have hguard : Takes d source (.notAhead (.rule "LetterOrDigit")) [] (t ++ rest) NoNodes :=
    takes_notAhead (refuses_letterOrDigit hd (h.noUnit hne))
  apply (takes_words hsmall hfirst hmem h).skip
  rw [← List.nil_append t]
  exact hguard.skip hitems

/-- The words of a list, where no unit may follow them, are refused if the longest word of the text
is not in the list. -/
theorem refuses_guardedWords (hsmall : SmallLetters words) (hnot : String.ofList w ∉ words)
    (h : LongestWord w text) (items : List Expr) :
  Refuses d source (.seq (Expr.words words :: .notAhead (.rule "LetterOrDigit") :: items)) text
  := by
  -- the list takes the first of its words that the text begins with, if there is one
  have hcases : (∀ word ∈ words, ¬ word.toList <+: text) ∨ ∃ word ∈ words, ∃ tail,
      text = word.toList ++ tail ∧ Takes d source (Expr.words words) word.toList tail NoNodes := by
    clear hsmall hnot
    induction words with
    | nil => exact .inl (by simp)
    | cons word words ih =>
        by_cases hbegins : word.toList <+: text
        · obtain ⟨tail, rfl⟩ := hbegins
          exact .inr ⟨word, List.mem_cons_self, tail, rfl, (takes_literal word tail).choice⟩
        · rcases ih with hnone | ⟨v, hmem, tail, rfl, htakes⟩
          · exact .inl (List.forall_mem_cons.mpr ⟨hbegins, hnone⟩)
          · exact .inr ⟨v, List.mem_cons_of_mem _ hmem, tail, rfl,
              Takes.choice_next (refuses_literal hbegins) htakes⟩
  rcases hcases with hnone | ⟨word, hmem, tail, rfl, htakes⟩
  · apply Refuses.seq
    apply refuses_choice
    intro item hitem
    obtain ⟨word, hmem, rfl⟩ := List.mem_map.mp hitem
    exact refuses_literal (hnone word hmem)
  · obtain ⟨-, hchars⟩ := hsmall word hmem
    apply htakes.refuses_seq
    apply refuses_guard hd hchars h
    rintro rfl
    rw [String.ofList_toList] at hnot
    exact hnot hmem

end

end ClassTranscript.Java
