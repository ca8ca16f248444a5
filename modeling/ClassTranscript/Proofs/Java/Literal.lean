import ClassTranscript.Java.Literal
import ClassTranscript.Proofs.Java.StringEscape
import ClassTranscript.Proofs.Peg.TakingLines

/-!
# How the rule of string literals splits its text

The rule of string literals takes the body of a literal in rounds, one piece in each
(`TakenPieces`). The pieces are those that the body is decoded by, so each well-formed escape is
decoded to the character that it stands for (`TakenPieces.decode_eq`).
-/

namespace ClassTranscript.Java

open Peg Peg.Expr

/-- A draft that has the literals of Java. -/
structure HasLiterals (d : Draft) : Prop where
  nodup : (d.definitions.map (·.name)).Nodup
  mem : ∀ x ∈ literals, x ∈ d.definitions

/-- A character of a string literal outside escapes. -/
def plainChar : Expr :=
  .seq [.notAhead (oneOf "\r\n\"\\"), .any]

/-- The letters and marks after a backslash. -/
def simpleEscape : Expr :=
  oneOf "btnfr\"'\\"

/-- What the rule of string literals repeats. -/
def literalRound : Expr :=
  .choice [.rule "Escape", plainChar]

/-- The rule of string literals takes a piece between two positions by one of its alternatives. -/
inductive Piece.Taken (d : Draft) (here there : Cursor) : Piece → Prop where
  | plain {c : Char} {ns : List Node} :
    Grows d plainChar here there ns →
    here.Passes [c] there →
    Taken d here there (.plain c)
  | simple {after : Cursor} {c : Char} {ns : List Node} :
    here.Passes ['\\'] after →
    Grows d simpleEscape after there ns →
    after.Passes [c] there →
    Taken d here there (.simple c)
  | octal {after : Cursor} {digits : List Char} {ns : List Node} :
    here.Passes ['\\'] after →
    Grows d (.rule "OctalEscape") after there ns →
    after.Passes digits there →
    Taken d here there (.octal digits)
  | unicode {after : Cursor} {marks : Nat} {digits : List Char} {ns : List Node} :
    here.Passes ['\\'] after →
    Grows d (.rule "UnicodeEscape") after there ns →
    after.Passes ('u' :: (List.replicate marks 'u' ++ digits)) there →
    digits.length = 4 →
    (∀ c ∈ digits, Text.isDigit 16 c = true) →
    Taken d here there (.unicode marks digits)

/-- The rounds of the rule of string literals take one piece each, up to where no round is left. -/
inductive TakenPieces (d : Draft) : Cursor → List Piece → Cursor → Prop where
  | stop {here : Cursor} :
    Fails d.body? literalRound here →
    TakenPieces d here [] here
  | next {here mid there : Cursor} {p : Piece} {pieces : List Piece} {ns : List Node} :
    Grows d literalRound here mid ns →
    p.Taken d here mid →
    TakenPieces d mid pieces there →
    TakenPieces d here (p :: pieces) there

section

variable {d : Draft} {here there : Cursor} {ns : List Node}

/-! ### Runs of classes -/

/-- A sequence of classes takes a character of each. -/
theorem exists_chars_of_seq {classes : List CharClass}
    (h : Grows d (.seq (classes.map .char)) here there ns) :
  ∃ cs, List.Forall₂ (fun cls c => cls.holds c = true) classes cs ∧ here.Passes cs there
  := by
  induction classes generalizing here ns with
  | nil =>
      obtain ⟨rfl, -⟩ := h.of_seq_nil
      exact ⟨[], .nil, .nil _⟩
  | cons cls classes ih =>
      obtain ⟨mid, _, _, -, hitem, h⟩ := h.of_seq_cons
      obtain ⟨c, hc, hrest, hoffset⟩ := hitem.of_char
      obtain ⟨cs, hcs, hpasses⟩ := ih h
      have hfirst : here.Passes [c] mid := ⟨hrest, hoffset⟩
      exact ⟨c :: cs, .cons hc hcs, hfirst.append hpasses⟩

/-- A sequence of classes matches where a character of each comes next. -/
theorem grows_of_chars {classes : List CharClass} {cs rest : List Char}
    (h : List.Forall₂ (fun cls c => cls.holds c = true) classes cs) (hrest : here.rest = cs ++ rest) :
  Grows d (.seq (classes.map .char)) here ⟨here.offset + Text.byteLength cs, rest⟩ []
  := by
  induction h generalizing here with
  | nil =>
      rw [after_nothing hrest]
      exact .seqNil
  | @cons cls c _ cs hc _ ih =>
      have hitem : Grows d (.char cls) here ⟨here.offset + c.utf8Size, cs ++ rest⟩ [] := by
        have hreads : (Expr.char cls).Reads [c] (cs ++ rest) := ⟨c, hc, rfl⟩
        exact .reads hreads hrest rfl
      have hnext := @ih ⟨here.offset + c.utf8Size, cs ++ rest⟩ rfl
      rw [Nat.add_assoc] at hnext
      exact .seqNext hitem hnext

theorem takes_of_chars {source : String} {classes : List CharClass} {cs : List Char}
    (h : List.Forall₂ (fun cls c => cls.holds c = true) classes cs) (rest : List Char) :
  Takes d source (.seq (classes.map .char)) cs rest NoNodes
  := fun _ _ hrest => ⟨[], grows_of_chars h hrest, rfl⟩

/-- A sequence of classes is refused where no characters of each come next. -/
theorem refuses_of_chars {source : String} {classes : List CharClass} {rest : List Char}
    (h : ∀ cs tail, rest = cs ++ tail → ¬ List.Forall₂ (fun cls c => cls.holds c = true) classes cs) :
  Refuses d source (.seq (classes.map .char)) rest
  := by
  induction classes generalizing rest with
  | nil => exact absurd .nil (h [] rest rfl)
  | cons cls classes ih =>
      by_cases hhead : ∃ c tail, rest = c :: tail ∧ cls.holds c = true
      · obtain ⟨c, tail, rfl, hc⟩ := hhead
        apply (takes_char hc tail).refuses_seq (s := [c])
        apply ih
        rintro cs tail rfl hcs
        exact h (c :: cs) tail rfl (.cons hc hcs)
      · apply Refuses.seq
        apply refuses_char
        intro c hc
        obtain ⟨tail, rfl⟩ := List.head?_eq_some_iff.mp hc
        rw [Bool.eq_false_iff]
        intro hholds
        exact hhead ⟨c, tail, rfl, hholds⟩

/-! ### Octal digits -/

theorem holds_range {lo hi c : Char} :
  (CharClass.range lo hi).holds c = true ↔ lo ≤ c ∧ c ≤ hi
  := by
  rw [CharClass.holds, Bool.and_eq_true, decide_eq_true_eq, decide_eq_true_eq]

theorem toNat_le_iff {c d : Char} :
  c ≤ d ↔ c.toNat ≤ d.toNat
  := Iff.rfl

theorem isOctal_iff {c : Char} :
  isOctal c = true ↔ '0' ≤ c ∧ c ≤ '7'
  := by
  have hdigits : '0'.toNat = 0x30 ∧ '7'.toNat = 0x37 ∧ '9'.toNat = 0x39 := ⟨rfl, rfl, rfl⟩
  have hletters : 'a'.toNat = 0x61 ∧ 'A'.toNat = 0x41 := ⟨rfl, rfl⟩
  simp only [isOctal, Text.digit?, toNat_le_iff, Option.isSome_filter]
  split_ifs <;> simp only [Option.any_some, Option.any_none, decide_eq_true_eq,
    Bool.false_eq_true, false_iff] <;> omega

theorem isDigit_sixteen_iff {c : Char} :
  Text.isDigit 16 c = true ↔ ('a' ≤ c ∧ c ≤ 'f') ∨ ('A' ≤ c ∧ c ≤ 'F') ∨ ('0' ≤ c ∧ c ≤ '9')
  := by
  have hdigits : '0'.toNat = 0x30 ∧ '9'.toNat = 0x39 := ⟨rfl, rfl⟩
  have hletters : 'a'.toNat = 0x61 ∧ 'f'.toNat = 0x66 ∧ 'A'.toNat = 0x41 ∧ 'F'.toNat = 0x46 :=
    ⟨rfl, rfl, rfl, rfl⟩
  simp only [Text.isDigit, Text.digit?, toNat_le_iff, Option.isSome_filter]
  split_ifs <;> simp only [Option.any_some, Option.any_none, decide_eq_true_eq,
    Bool.false_eq_true, false_iff] <;> omega

/-- The classes of two octal digits. -/
def twoOctal : List CharClass :=
  [.range '0' '7', .range '0' '7']

/-- The classes of three octal digits with a value below 256. -/
def threeOctal : List CharClass :=
  [.range '0' '3', .range '0' '7', .range '0' '7']

theorem holds_octal_iff {c : Char} :
  (CharClass.range '0' '7').holds c = true ↔ isOctal c = true
  := by
  rw [holds_range, isOctal_iff]

theorem holds_twoOctal_iff {cs : List Char} :
  List.Forall₂ (fun cls c => cls.holds c = true) twoOctal cs ↔ cs.length = 2 ∧ IsOctalEscape cs
  := by
  match cs with
  | [] | [_] | _ :: _ :: _ :: _ => simp [twoOctal]
  | [a, b] => simp [twoOctal, IsOctalEscape, holds_octal_iff]

theorem holds_threeOctal_iff {cs : List Char} :
  List.Forall₂ (fun cls c => cls.holds c = true) threeOctal cs ↔ cs.length = 3 ∧ IsOctalEscape cs
  := by
  have hfirst {c : Char} :
      (CharClass.range '0' '3').holds c = true ↔ isOctal c = true ∧ c ≤ '3' := by
    have hle : '3'.toNat ≤ '7'.toNat := by decide
    rw [holds_range, isOctal_iff]
    simp only [toNat_le_iff]
    omega
  match cs with
  | [] | [_] | [_, _] | _ :: _ :: _ :: _ :: _ => simp [threeOctal]
  | [a, b, c] => simp [threeOctal, IsOctalEscape, holds_octal_iff, hfirst]

theorem body_octalEscape :
  literals[14].body
    = .choice [.seq (threeOctal.map .char), .seq (twoOctal.map .char), range '0' '7']
  := rfl

theorem IsOctalEscape.length_le {digits : List Char} (h : IsOctalEscape digits) :
  digits.length ≤ 3
  := by
  match digits, h with
  | [_], _ | [_, _], _ | [_, _, _], _ => simp

/-- What the rule of octal escapes takes is octal digits, and no more of them could be taken. -/
theorem exists_octal_of_grows (hd : HasLiterals d) (h : Grows d (.rule "OctalEscape") here there ns) :
  ∃ digits, here.Passes digits there ∧ (Piece.octal digits).Stands there.rest
  := by
  -- where one more digit could be taken an alternative before would have matched
  have hlonger {classes : List CharClass} {digits : List Char} {c : Char}
      (hfails : Fails d.body? (.seq (classes.map .char)) here) (hpasses : here.Passes digits there)
      (hnext : there.rest.head? = some c) :
      ¬ List.Forall₂ (fun cls c => cls.holds c = true) classes (digits ++ [c]) := by
    intro hholds
    obtain ⟨rest, hrest⟩ := List.head?_eq_some_iff.mp hnext
    have hlong : here.rest = (digits ++ [c]) ++ rest := by
      rw [hpasses.1, hrest, List.append_assoc, List.singleton_append]
    exact (grows_of_chars hholds hlong).not_fails hfails
  obtain ⟨_, _, -, -, h⟩ := h.of_rule (x := literals[14]) hd.nodup (hd.mem _ (by simp [literals]))
  rw [body_octalEscape] at h
  cases h with
  | reads hreads => contradiction
  | choiceFirst h =>
      obtain ⟨digits, hholds, hpasses⟩ := exists_chars_of_seq h
      obtain ⟨hlength, hdigits⟩ := holds_threeOctal_iff.mp hholds
      refine ⟨digits, hpasses, hdigits, ?_⟩
      intro c _ hfour
      have hle := hfour.length_le
      simp only [List.length_append, hlength, List.length_singleton] at hle
      omega
  | choiceNext hthree h =>
      cases h with
      | reads hreads => contradiction
      | choiceFirst h =>
          obtain ⟨digits, hholds, hpasses⟩ := exists_chars_of_seq h
          obtain ⟨hlength, hdigits⟩ := holds_twoOctal_iff.mp hholds
          refine ⟨digits, hpasses, hdigits, ?_⟩
          intro c hnext hmore
          apply hlonger hthree hpasses hnext
          exact holds_threeOctal_iff.mpr ⟨by simp [hlength], hmore⟩
      | choiceNext htwo h =>
          obtain ⟨item, hmem, h⟩ := h.of_choice
          obtain rfl := List.mem_singleton.mp hmem
          obtain ⟨a, ha, hpasses⟩ := h.of_char
          have hpasses : here.Passes [a] there := hpasses
          refine ⟨[a], hpasses, holds_octal_iff.mp ha, ?_⟩
          intro c hnext hmore
          apply hlonger htwo hpasses hnext
          exact holds_twoOctal_iff.mpr ⟨rfl, hmore⟩

/-! ### Unicode escapes -/

theorem exists_hexDigit (h : Grows d hexDigit here there ns) :
  ∃ c, Text.isDigit 16 c = true ∧ here.Passes [c] there
  := by
  obtain ⟨item, hmem, h⟩ := h.of_choice
  simp only [List.mem_cons, List.not_mem_nil, or_false] at hmem
  obtain rfl | rfl | rfl := hmem
  · obtain ⟨c, hc, hpasses⟩ := h.of_char
    exact ⟨c, isDigit_sixteen_iff.mpr (.inl (holds_range.mp hc)), hpasses⟩
  · obtain ⟨c, hc, hpasses⟩ := h.of_char
    exact ⟨c, isDigit_sixteen_iff.mpr (.inr (.inl (holds_range.mp hc))), hpasses⟩
  · obtain ⟨c, hc, hpasses⟩ := h.of_char
    exact ⟨c, isDigit_sixteen_iff.mpr (.inr (.inr (holds_range.mp hc))), hpasses⟩

/-- What the rule of Unicode escapes takes is letters `u` and four hexadecimal digits. -/
theorem exists_unicode_of_grows (hd : HasLiterals d)
    (h : Grows d (.rule "UnicodeEscape") here there ns) :
  ∃ marks digits, here.Passes ('u' :: (List.replicate marks 'u' ++ digits)) there
    ∧ digits.length = 4 ∧ ∀ c ∈ digits, Text.isDigit 16 c = true
  := by
  obtain ⟨_, _, -, -, h⟩ := h.of_rule (x := literals[15]) hd.nodup (hd.mem _ (by simp [literals]))
  obtain ⟨_, _, _, -, hmarks, h⟩ := h.of_seq_cons
  obtain ⟨_, _, _, -, ha, h⟩ := h.of_seq_cons
  obtain ⟨_, _, _, -, hb, h⟩ := h.of_seq_cons
  obtain ⟨_, _, _, -, hc, h⟩ := h.of_seq_cons
  obtain ⟨_, _, _, -, he, h⟩ := h.of_seq_cons
  obtain ⟨rfl, -⟩ := h.of_seq_nil
  obtain ⟨cs, hne, hcs, hmarks⟩ := hmarks.of_plus_char
  obtain ⟨a, hahex, ha⟩ := exists_hexDigit ha
  obtain ⟨b, hbhex, hb⟩ := exists_hexDigit hb
  obtain ⟨c, hchex, hc⟩ := exists_hexDigit hc
  obtain ⟨e, hehex, he⟩ := exists_hexDigit he
  obtain ⟨m, cs, rfl⟩ := List.exists_cons_of_ne_nil hne
  have hcs : m :: cs = 'u' :: List.replicate cs.length 'u' := by
    rw [← List.replicate_succ, List.eq_replicate_iff]
    exact ⟨by simp, fun c hmem => beq_iff_eq.mp (hcs c hmem)⟩
  refine ⟨cs.length, [a, b, c, e], ?_, rfl, by simp [hahex, hbhex, hchex, hehex]⟩
  have hpasses := hmarks.append (ha.append (hb.append (hc.append he)))
  rw [hcs] at hpasses
  exact hpasses

/-! ### Rounds -/

namespace Piece

/-- The escape of a piece is that of a surrogate. -/
def IsSurrogate : Piece → Prop
  | .unicode _ digits =>
    0xD800 ≤ Text.digitsValue 16 digits ∧ Text.digitsValue 16 digits ≤ 0xDFFF
  | _ => False

instance : DecidablePred IsSurrogate
  | .unicode _ digits =>
    inferInstanceAs (Decidable
      (0xD800 ≤ Text.digitsValue 16 digits ∧ Text.digitsValue 16 digits ≤ 0xDFFF))
  | .plain _ | .simple _ | .octal _ | .trailing => inferInstanceAs (Decidable False)

variable {p : Piece}

theorem Taken.passes (h : p.Taken d here there) :
  here.Passes p.chars there
  := by
  cases h with
  | plain _ hpasses => exact hpasses
  | simple hbegin _ hpasses => exact hbegin.append hpasses
  | octal hbegin _ hpasses => exact hbegin.append hpasses
  | unicode hbegin _ hpasses _ _ => exact hbegin.append hpasses

/-- The letters and marks that may follow a backslash. -/
theorem mem_of_simpleEscape {c : Char} (h : Grows d simpleEscape here there ns)
    (hpasses : here.Passes [c] there) :
  c ∈ "btnfr\"'\\".toList
  := by
  obtain ⟨c', hc, hpasses'⟩ := h.of_char
  have hpasses' : here.Passes [c'] there := hpasses'
  obtain rfl := List.singleton_inj.mp (hpasses.chars_unique hpasses')
  exact List.contains_iff_mem.mp hc

theorem ne_u_of_simple {c : Char} (h : c ∈ "btnfr\"'\\".toList) :
  c ≠ 'u' ∧ isOctal c = false
  := by
  have hall : "btnfr\"'\\".toList.all (fun c => c ≠ 'u' ∧ isOctal c = false) = true := by decide
  simpa using List.all_eq_true.mp hall c h

/-- A piece that is taken is as long as it can be. -/
theorem Taken.stands (hd : HasLiterals d) (h : p.Taken d here there) :
  p.Stands there.rest
  := by
  cases h with
  | plain hgrows hpasses =>
      obtain ⟨c, hc, hpasses'⟩ := hgrows.of_exceptChar
      obtain rfl := List.singleton_inj.mp (hpasses.chars_unique hpasses')
      rintro rfl
      cases hc
  | simple _ hgrows hpasses =>
      apply ne_u_of_simple (mem_of_simpleEscape hgrows hpasses)
  | octal _ hgrows hpasses =>
      obtain ⟨digits, hdigits, hstands⟩ := exists_octal_of_grows hd hgrows
      rwa [hpasses.chars_unique hdigits]
  | @unicode _ _ digits _ _ _ _ hlength hhex =>
      refine ⟨hlength.le, fun hlt => absurd hlength hlt.ne, ?_⟩
      intro hhead
      exact absurd (hhex _ (List.mem_of_head? hhead)) (by decide)

theorem Taken.isWellFormed (h : p.Taken d here there) (hp : ¬ p.IsSurrogate) :
  p.isWellFormed = true
  := by
  cases h with
  | plain _ _ => rfl
  | simple _ hgrows hpasses =>
      apply List.contains_iff_mem.mpr (mem_of_simpleEscape hgrows hpasses)
  | octal _ _ _ => rfl
  | @unicode _ _ digits _ _ _ _ hlength hhex =>
      have hbound := Text.digitsValue_lt hhex
      have hvalid : (Text.digitsValue 16 digits).isValidChar := by
        rw [hlength] at hbound
        rw [IsSurrogate] at hp
        omega
      simpa [Piece.isWellFormed, hlength, hvalid] using hhex

/-- Each round takes a piece. -/
theorem exists_taken (hd : HasLiterals d) (h : Grows d literalRound here there ns) :
  ∃ p : Piece, p.Taken d here there
  := by
  obtain ⟨item, hmem, h⟩ := h.of_choice
  simp only [List.mem_cons, List.not_mem_nil, or_false] at hmem
  obtain rfl | rfl := hmem
  · obtain ⟨_, _, -, -, h⟩ := h.of_rule (x := literals[13]) hd.nodup (hd.mem _ (by simp [literals]))
    obtain ⟨after, _, _, -, hbegin, h⟩ := h.of_seq_cons
    obtain ⟨_, _, _, -, h, hnil⟩ := h.of_seq_cons
    obtain ⟨rfl, -⟩ := hnil.of_seq_nil
    obtain ⟨c, hc, hbegin⟩ := hbegin.of_char
    obtain rfl := beq_iff_eq.mp hc
    obtain ⟨item, hmem, h⟩ := h.of_choice
    simp only [List.mem_cons, List.not_mem_nil, or_false] at hmem
    obtain rfl | rfl | rfl := hmem
    · obtain ⟨c, -, hpasses⟩ := h.of_char
      exact ⟨.simple c, .simple hbegin h hpasses⟩
    · obtain ⟨digits, hpasses, -⟩ := exists_octal_of_grows hd h
      exact ⟨.octal digits, .octal hbegin h hpasses⟩
    · obtain ⟨marks, digits, hpasses, hlength, hhex⟩ := exists_unicode_of_grows hd h
      exact ⟨.unicode marks digits, .unicode hbegin h hpasses hlength hhex⟩
  · obtain ⟨c, -, hpasses⟩ := Grows.of_exceptChar h
    exact ⟨.plain c, .plain h hpasses⟩

end Piece

/-! ### The whole body -/

/-- The repetition takes pieces. -/
theorem exists_takenPieces (hd : HasLiterals d) (h : Grows d (.star literalRound) here there ns) :
  ∃ pieces, TakenPieces d here pieces there
  := by
  generalize hstar : Expr.star literalRound = e at h
  induction h with
  | starStop hfails =>
      obtain rfl := Expr.star.inj hstar
      exact ⟨[], .stop hfails⟩
  | starNext hround _ _ ih =>
      obtain rfl := Expr.star.inj hstar
      obtain ⟨p, hp⟩ := Piece.exists_taken hd hround
      obtain ⟨pieces, hpieces⟩ := ih rfl
      exact ⟨p :: pieces, .next hround hp hpieces⟩
  | reads hreads =>
      subst hstar
      contradiction
  | _ => cases hstar

namespace TakenPieces

variable {pieces : List Piece}

theorem passes (h : TakenPieces d here pieces there) :
  here.Passes (pieces.flatMap Piece.chars) there
  := by
  induction h with
  | stop _ => exact .nil _
  | next _ hp _ ih => exact hp.passes.append ih

/-- The pieces that are taken are those that the body is decoded by. -/
theorem splits (hd : HasLiterals d) (h : TakenPieces d here pieces there) :
  Splits (pieces.flatMap Piece.chars) pieces
  := by
  induction h with
  | stop _ => exact .nil
  | next _ hp hpieces ih =>
      have hstands := hp.stands hd
      rw [hpieces.passes.1] at hstands
      exact .cons hstands.of_append ih

theorem isWellFormed (h : TakenPieces d here pieces there) (hp : ∀ p ∈ pieces, ¬ p.IsSurrogate) :
  ∀ p ∈ pieces, p.isWellFormed = true
  := by
  induction h with
  | stop _ => simp
  | next _ htaken _ ih =>
      obtain ⟨hfirst, hothers⟩ := List.forall_mem_cons.mp hp
      exact List.forall_mem_cons.mpr ⟨htaken.isWellFormed hfirst, ih hothers⟩

/-- Where none of the pieces is a surrogate the body is decoded to what they stand for. -/
theorem decode_eq (hd : HasLiterals d) (h : TakenPieces d here pieces there)
    (hp : ∀ p ∈ pieces, ¬ p.IsSurrogate) :
  decode (pieces.flatMap Piece.chars) = pieces.map Piece.value
  := by
  rw [decode_of_splits (h.splits hd), List.map_eq_flatMap]
  apply List.flatMap_congr
  intro p hmem
  apply Piece.decoded_of_isWellFormed (h.isWellFormed hp p hmem)

end TakenPieces

/-! ### Literals that are taken -/

/-- The piece is one that the rule of string literals may take. -/
def Piece.IsSpelled : Piece → Prop
  | .plain c => c ∉ "\r\n\"\\".toList
  | .simple c => c ∈ "btnfr\"'\\".toList
  | .octal digits => IsOctalEscape digits
  | .unicode _ digits => digits.length = 4 ∧ ∀ c ∈ digits, Text.isDigit 16 c = true
  | .trailing => False

instance : DecidablePred Piece.IsSpelled
  | .plain c => inferInstanceAs (Decidable (c ∉ "\r\n\"\\".toList))
  | .simple c => inferInstanceAs (Decidable (c ∈ "btnfr\"'\\".toList))
  | .octal digits => inferInstanceAs (Decidable (IsOctalEscape digits))
  | .unicode _ digits =>
    have := digits.decidableBAll (Text.isDigit 16 · = true)
    inferInstanceAs (Decidable (digits.length = 4 ∧ ∀ c ∈ digits, Text.isDigit 16 c = true))
  | .trailing => inferInstanceAs (Decidable False)

section

variable {source : String} {rest : List Char} {p : Piece}

theorem takes_range {lo hi c : Char} (h : lo ≤ c ∧ c ≤ hi) (rest : List Char) :
  Takes d source (range lo hi) [c] rest NoNodes
  := takes_char (holds_range.mpr h) rest

theorem refuses_range {lo hi : Char} (h : ∀ c, rest.head? = some c → ¬ (lo ≤ c ∧ c ≤ hi)) :
  Refuses d source (range lo hi) rest
  := by
  apply refuses_char
  intro c hc
  rw [Bool.eq_false_iff, ne_eq, holds_range]
  apply h c hc

theorem takes_hexDigit {c : Char} (h : Text.isDigit 16 c = true) (rest : List Char) :
  Takes d source hexDigit [c] rest NoNodes
  := by
  rw [isDigit_sixteen_iff] at h
  by_cases hlower : 'a' ≤ c ∧ c ≤ 'f'
  · apply (takes_range hlower rest).choice
  · apply Takes.choice_next (refuses_range (by rintro _ ⟨⟩; exact hlower))
    by_cases hupper : 'A' ≤ c ∧ c ≤ 'F'
    · apply (takes_range hupper rest).choice
    · apply Takes.choice_next (refuses_range (by rintro _ ⟨⟩; exact hupper))
      apply (takes_range ((h.resolve_left hlower).resolve_left hupper) rest).choice

/-- A rule of literals takes what its body does. -/
theorem HasLiterals.takes_rule (hd : HasLiterals d) {x : Definition} {s : List Char}
    {q : List Node → Prop} (hx : x ∈ literals) (hhidden : x.hidden = false)
    (h : Takes d source x.body s rest q) :
  Takes d source (.rule x.name) s rest AnyNodes
  := (h.rule hd.nodup (hd.mem x hx) hhidden).any

theorem IsOctalEscape.of_append_singleton {digits : List Char} {c : Char} (hne : digits ≠ [])
    (h : IsOctalEscape (digits ++ [c])) :
  IsOctalEscape digits
  := by
  match digits, h with
  | [], _ => exact absurd rfl hne
  | [_], ⟨ha, _⟩ => exact ha
  | [_, _], ⟨⟨ha, _⟩, hb, _⟩ => exact ⟨ha, hb⟩
  | _ :: _ :: _ :: _, h =>
      have hle := h.length_le
      simp only [List.length_append, List.length_cons] at hle
      omega

/-- The first digits of an octal escape are those of one. -/
theorem IsOctalEscape.of_append {digits more : List Char} (hne : digits ≠ [])
    (h : IsOctalEscape (digits ++ more)) :
  IsOctalEscape digits
  := by
  induction more using List.reverseRecOn with
  | nil => rwa [List.append_nil] at h
  | append_singleton more c ih =>
      rw [← List.append_assoc] at h
      apply ih (h.of_append_singleton _)
      exact List.append_ne_nil_of_left_ne_nil hne more

/-- Where no more digits could be taken a sequence of more digits is refused. -/
theorem refuses_longer {classes : List CharClass} {digits : List Char} {n : Nat}
    (hclasses : ∀ cs, List.Forall₂ (fun cls c => cls.holds c = true) classes cs →
      cs.length = n ∧ IsOctalEscape cs) (hn : digits.length < n)
    (h : (Piece.octal digits).Stands rest) :
  Refuses d source (.seq (classes.map .char)) (digits ++ rest)
  := by
  apply refuses_of_chars
  intro cs tail heq hholds
  obtain ⟨rfl, hmore⟩ := hclasses cs hholds
  obtain ⟨more, rfl, rfl⟩ : ∃ more, cs = digits ++ more ∧ rest = more ++ tail := by
    rcases List.append_eq_append_iff.mp heq with ⟨more, hcs, hrest⟩ | ⟨more, hdigits, -⟩
    · exact ⟨more, hcs, hrest⟩
    · rw [hdigits, List.length_append] at hn
      omega
  cases more with
  | nil => simp at hn
  | cons c more =>
      apply h.2 c rfl
      rw [← List.singleton_append, ← List.append_assoc] at hmore
      exact hmore.of_append (by simp)

/-- Octal digits are taken where no more of them could be. -/
theorem takes_octalEscape (hd : HasLiterals d) {digits : List Char}
    (h : (Piece.octal digits).Stands rest) :
  Takes d source (.rule "OctalEscape") digits rest AnyNodes
  := by
  have hbody : Takes d source literals[14].body digits rest NoNodes := by
    have hthree (hn : digits.length < 3) := @refuses_longer d source rest _ digits _
      (fun _ => holds_threeOctal_iff.mp) hn h
    have htwo (hn : digits.length < 2) := @refuses_longer d source rest _ digits _
      (fun _ => holds_twoOctal_iff.mp) hn h
    rw [body_octalEscape]
    match digits, h with
    | [a], ⟨ha, _⟩ =>
        apply Takes.choice_next (hthree (by simp))
        apply Takes.choice_next (htwo (by simp))
        apply (takes_char (holds_octal_iff.mpr ha) rest).choice
    | [_, _], ⟨hdigits, _⟩ =>
        apply Takes.choice_next (hthree (by simp))
        apply (takes_of_chars (holds_twoOctal_iff.mpr ⟨rfl, hdigits⟩) rest).choice
    | [_, _, _], ⟨hdigits, _⟩ =>
        apply (takes_of_chars (holds_threeOctal_iff.mpr ⟨rfl, hdigits⟩) rest).choice
  apply hd.takes_rule (by simp [literals]) rfl hbody

theorem takes_unicodeEscape (hd : HasLiterals d) {marks : Nat} {digits : List Char}
    (hlength : digits.length = 4) (hhex : ∀ c ∈ digits, Text.isDigit 16 c = true) :
  Takes d source (.rule "UnicodeEscape") ('u' :: (List.replicate marks 'u' ++ digits)) rest AnyNodes
  := by
  match digits, hlength with
  | [a, b, c, e], _ =>
      simp only [List.forall_mem_cons] at hhex
      obtain ⟨ha, hb, hc, he, -⟩ := hhex
      have hmarks : Takes d source (.plus 'u') (List.replicate (marks + 1) 'u')
          ([a] ++ ([b] ++ ([c] ++ [e])) ++ rest) NoNodes := by
        apply takes_plus_chars (by simp)
        · intro m hmem
          rw [List.eq_of_mem_replicate hmem]
          rfl
        · rintro _ ⟨⟩
          rw [CharClass.holds, beq_eq_false_iff_ne]
          rintro rfl
          cases ha
      have hbody := hmarks.skip ((takes_hexDigit ha _).skip ((takes_hexDigit hb _).skip
        ((takes_hexDigit hc _).skip (takes_hexDigit he rest).last)))
      apply hd.takes_rule (x := literals[15]) (by simp [literals]) rfl hbody

theorem refuses_octalEscape (hd : HasLiterals d) (h : ∀ c, rest.head? = some c → isOctal c = false) :
  Refuses d source (.rule "OctalEscape") rest
  := by
  have hnone : ∀ c, rest.head? = some c → ¬ ('0' ≤ c ∧ c ≤ '7') := by
    intro c hc
    rw [← isOctal_iff, h c hc]
    exact Bool.false_ne_true
  have hfirst : ∀ c, rest.head? = some c → ¬ ('0' ≤ c ∧ c ≤ '3') := by
    rintro c hc ⟨hlo, hhi⟩
    have hle : '3'.toNat ≤ '7'.toNat := by decide
    exact hnone c hc ⟨hlo, Nat.le_trans hhi hle⟩
  apply Refuses.rule hd.nodup (hd.mem literals[14] (by simp [literals]))
  refine .choice ?_ (.choice ?_ (.choice ?_ refuses_choice_nil))
  · apply (refuses_range hfirst).seq
  · apply (refuses_range hnone).seq
  · apply refuses_range hnone

/-- What follows a backslash is taken as an escape. -/
theorem takes_escape (hd : HasLiterals d) {s : List Char} {q : List Node → Prop}
    (h : Takes d source
      (.choice [simpleEscape, .rule "OctalEscape", .rule "UnicodeEscape"]) s rest q) :
  Takes d source literalRound ('\\' :: s) rest AnyNodes
  := by
  have hbegin : Takes d source '\\' ['\\'] (s ++ rest) NoNodes := takes_char (by decide) _
  have hrule := hd.takes_rule (x := literals[13]) (by simp [literals]) rfl (hbegin.skip h.last)
  apply hrule.choice

/-- A piece is taken in one round where it is as long as it can be. -/
theorem Piece.IsSpelled.takes (hd : HasLiterals d) (h : p.IsSpelled) (hstands : p.Stands rest) :
  Takes d source literalRound p.chars rest AnyNodes
  := by
  have hsimple {c : Char} {tail : List Char} (hc : c ∉ "btnfr\"'\\".toList) :
      Refuses d source simpleEscape (c :: tail) := by
    apply refuses_char
    rintro _ ⟨⟩
    simpa [CharClass.holds] using hc
  cases p with
  | plain c =>
      apply Takes.any
      apply Takes.choice_next
      · apply Refuses.rule hd.nodup (hd.mem literals[13] (by simp [literals]))
        apply Refuses.seq
        apply refuses_char
        rintro _ ⟨⟩
        rw [CharClass.holds, beq_eq_false_iff_ne]
        exact hstands
      · apply Takes.choice
        apply takes_except
        apply refuses_char
        rintro _ ⟨⟩
        rw [CharClass.holds, List.contains_eq_mem, decide_eq_false h]
  | simple c =>
      apply takes_escape hd
      apply Takes.choice
      apply takes_char
      exact List.contains_iff_mem.mpr h
  | octal digits =>
      have hdigits : IsOctalEscape digits := h
      obtain ⟨first, digits, rfl⟩ := hdigits.exists_cons
      have hfirst := hdigits.first.1
      apply takes_escape hd
      apply Takes.choice_next
      · apply hsimple
        intro hmem
        rw [(ne_u_of_simple hmem).2] at hfirst
        cases hfirst
      · apply (takes_octalEscape hd hstands).choice
  | unicode marks digits =>
      apply takes_escape hd
      apply Takes.choice_next (hsimple (by decide))
      apply Takes.choice_next
      · apply refuses_octalEscape hd
        rintro _ ⟨⟩
        decide
      · apply (takes_unicodeEscape hd h.1 h.2).choice
  | trailing => cases h

/-- A quote after the text of a piece leaves the piece as long as it can be. -/
theorem Piece.Stands.before_quote {text : List Char} (h : p.Stands text) (hp : p.IsSpelled)
    (rest : List Char) :
  p.Stands (text ++ '"' :: rest)
  := by
  cases p with
  | plain | simple => exact h
  | octal digits =>
      use h.1
      intro c hc hmore
      cases text with
      | nil =>
          obtain rfl := Option.some.inj hc
          have hmore : IsOctalEscape (digits ++ ['"']) := hmore
          exact absurd (hmore.forall_isOctal '"' (by simp)) (by decide)
      | cons d text => exact h.2 c hc hmore
  | unicode marks digits => exact ⟨h.1, fun hlt => absurd hp.1 hlt.ne, h.2.2⟩
  | trailing => cases hp

theorem refuses_round_quote (hd : HasLiterals d) (rest : List Char) :
  Refuses d source literalRound ('"' :: rest)
  := by
  refine .choice ?_ (.choice ?_ refuses_choice_nil)
  · apply Refuses.rule hd.nodup (hd.mem literals[13] (by simp [literals]))
    apply Refuses.seq
    apply refuses_char
    rintro _ ⟨⟩
    decide
  · have hquote : Takes d source (oneOf "\r\n\"\\") ['"'] rest NoNodes := takes_char (by decide) rest
    apply hquote.refuses_notAhead.seq

/-- A literal of pieces that its rule may take is taken. -/
theorem takes_literal_of_splits (hd : HasLiterals d) {text : List Char} {pieces : List Piece}
    (h : Splits text pieces) (hspelled : ∀ p ∈ pieces, p.IsSpelled) (rest : List Char) :
  Takes d source literals[12].body (['"'] ++ (text ++ ['"'])) rest AnyNodes
  := by
  have hstar : Takes d source (.star literalRound) text (['"'] ++ rest) AnyNodes := by
    induction h with
    | nil => apply (takes_star_nil (refuses_round_quote hd rest)).any
    | cons hp _ ih =>
        obtain ⟨hfirst, hothers⟩ := List.forall_mem_cons.mp hspelled
        apply ((hfirst.takes hd (hp.before_quote hfirst rest)).star (ih hothers)).any
  have hquote (rest : List Char) : Takes d source '"' ['"'] rest NoNodes :=
    takes_char (by decide) rest
  apply ((hquote _).skip (hstar.seq (hquote rest).last)).any

end

end

end ClassTranscript.Java
