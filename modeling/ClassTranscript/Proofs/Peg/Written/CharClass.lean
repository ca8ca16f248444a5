import ClassTranscript.Peg.CharClass
import ClassTranscript.Proofs.Text.Escape

/-!
# Written classes can be read back

Between the brackets of a class stand members, escaped where they would be taken for something else,
and the marks of ranges and of excluded sets. What stands there can be read back (`ofSymbols`), but
for the class of letters, which is written like a set of characters: `merged` takes that set for the
class. So a written class is determined but for that, together with what follows it
(`merged_eq_of_write`).
-/

namespace ClassTranscript.Peg.CharClass

/-- What stands between the brackets of the class of letters. -/
def letterName : List Char :=
  [':', 'l', 'e', 't', 't', 'e', 'r', ':']

/-- The class in the place of those that are written alike: the class of letters for the set of the
characters that its name is written with. -/
def merged : CharClass → CharClass
  | .anyOf set => if set = letterName then .letter else .anyOf set
  | cls => cls

theorem merged_merged (cls : CharClass) :
  cls.merged.merged = cls.merged
  := by
  cases cls with
  | anyOf set =>
      rw [merged]
      split
      · rfl
      · rename_i hne
        rw [merged, if_neg hne]
  | only | range | noneOf | letter | letterOrDigit => rfl

theorem write_merged (cls : CharClass) :
  cls.merged.write = cls.write
  := by
  cases cls with
  | anyOf set =>
      rw [merged]
      split
      · rename_i heq
        rw [heq]
        rfl
      · rfl
  | only | range | noneOf | letter | letterOrDigit => rfl

/-! ### Members -/

/-- A member is written as itself after a backslash, as a bare quote, or as it is in texts. -/
theorem writeMember_cases (c : Char) :
  (writeMember c = ['\\', c] ∧ (c = ']' ∨ c = '-' ∨ c = '^'))
    ∨ (writeMember c = [c] ∧ c = '"')
    ∨ writeMember c = Text.escapeChar c ∧ c ≠ ']' ∧ c ≠ '-' ∧ c ≠ '^'
  := by
  rw [writeMember]
  split
  · rename_i hmark
    exact .inl ⟨rfl, hmark⟩
  · rename_i hmark
    split
    · rename_i hquote
      exact .inr (.inl ⟨by rw [hquote], hquote⟩)
    · exact .inr (.inr ⟨rfl, by simpa using hmark⟩)

theorem readEscape_writeMember (c : Char) (s : List Char) :
  Text.readEscape (writeMember c ++ s) = some (c, s)
  := by
  obtain ⟨heq, rfl | rfl | rfl⟩ | ⟨heq, rfl⟩ | ⟨heq, -⟩ := writeMember_cases c
  · rfl
  · rfl
  · rfl
  · rfl
  · rw [heq]
    apply Text.readEscape_escapeChar

/-- No member begins with a mark or with the closing bracket. -/
theorem exists_writeMember_eq (c : Char) :
  ∃ d s, writeMember c = d :: s ∧ d ≠ ']' ∧ d ≠ '-' ∧ d ≠ '^'
  := by
  obtain ⟨heq, -⟩ | ⟨heq, rfl⟩ | ⟨heq, hmark⟩ := writeMember_cases c
  · exact ⟨'\\', [c], heq, by decide⟩
  · exact ⟨'"', [], heq, by decide⟩
  · obtain ⟨d, hescape, -⟩ | hescape | ⟨hescape, -⟩ := Text.escapeChar_cases c
    · exact ⟨'\\', [d], heq.trans hescape, by decide⟩
    · exact ⟨'\\', _, heq.trans hescape, by decide⟩
    · exact ⟨c, [], heq.trans hescape, hmark⟩

/-! ### What stands between brackets -/

/-- A member of a class, or a mark with a meaning there. -/
inductive Symbol where
  | member (c : Char)
  /-- The mark between the ends of a range. -/
  | dash
  /-- The mark of a set of characters that are excluded. -/
  | caret
  deriving DecidableEq

namespace Symbol

/-- The written form of a member or mark. -/
def write : Symbol → List Char
  | .member c => writeMember c
  | .dash => ['-']
  | .caret => ['^']

/-- Reads the first member or mark, and gives what follows. -/
def read : List Char → Option (Symbol × List Char)
  | '-' :: s => some (.dash, s)
  | '^' :: s => some (.caret, s)
  | s => (Text.readEscape s).map fun (c, rest) => (.member c, rest)

theorem read_write (x : Symbol) (s : List Char) :
  read (x.write ++ s) = some (x, s)
  := by
  cases x with
  | dash | caret => rfl
  | member c =>
      have hread := readEscape_writeMember c s
      obtain ⟨d, rest, heq, -, hdash, hcaret⟩ := exists_writeMember_eq c
      rw [heq, List.cons_append] at hread
      rw [write, heq, List.cons_append, read.eq_def]
      split
      · rename_i hd
        exact absurd (List.cons.inj hd).1 hdash
      · rename_i hd
        exact absurd (List.cons.inj hd).1 hcaret
      · rw [hread, Option.map_some]

theorem head?_write_ne (x : Symbol) (s : List Char) :
  (x.write ++ s).head? ≠ some ']'
  := by
  cases x with
  | dash | caret => simp [write]
  | member c =>
      obtain ⟨d, rest, heq, hbracket, -⟩ := exists_writeMember_eq c
      simpa [write, heq] using hbracket

/-- The character of a member. -/
def member? : Symbol → Option Char
  | .member c => some c
  | _ => none

theorem filterMap_member? (set : List Char) :
  (set.map member).filterMap member? = set
  := by
  induction set with
  | nil => rfl
  | cons c set ih => rw [List.map_cons, List.filterMap_cons, member?, ih]

end Symbol

/-- What stands between the brackets of the class of letters, digits and other numbers: the two
hyphens of its name are not escaped. -/
def letterOrDigitName : List Symbol :=
  [':', 'l', 'e', 't', 't', 'e', 'r'].map .member ++ .dash :: ['o', 'r'].map .member
    ++ .dash :: ['d', 'i', 'g', 'i', 't', ':'].map .member

/-- What stands between the brackets of a class. A single character has none. -/
def symbols : CharClass → List Symbol
  | .only _ => []
  | .range lo hi => [.member lo, .dash, .member hi]
  | .anyOf set => set.map .member
  | .noneOf set => .caret :: set.map .member
  | .letter => letterName.map .member
  | .letterOrDigit => letterOrDigitName

/-- The class that has these members and marks between its brackets. -/
def ofSymbols : List Symbol → CharClass
  | [.member lo, .dash, .member hi] => .range lo hi
  | .caret :: set => .noneOf (set.filterMap Symbol.member?)
  | set =>
    if .dash ∈ set then .letterOrDigit else (CharClass.anyOf (set.filterMap Symbol.member?)).merged

theorem ofSymbols_symbols {cls : CharClass} (h : ∀ c, cls ≠ .only c) :
  ofSymbols cls.symbols = cls.merged
  := by
  cases cls with
  | only c => exact absurd rfl (h c)
  | range lo hi => rfl
  | noneOf set =>
      rw [symbols, ofSymbols, Symbol.filterMap_member?]
      rfl
  | letter | letterOrDigit => rfl
  | anyOf set =>
      have hdash : .dash ∉ set.map Symbol.member := by simp
      rw [symbols, ofSymbols.eq_def]
      split
      · rename_i heq
        simp [heq] at hdash
      · rename_i heq
        have hcaret : .caret ∉ set.map Symbol.member := by simp
        simp [heq] at hcaret
      · rw [if_neg hdash, Symbol.filterMap_member?]

theorem flatMap_member (set : List Char) :
  (set.map Symbol.member).flatMap Symbol.write = set.flatMap writeMember
  := List.flatMap_map _ _ _

/-- A class is written between brackets unless it is a single character. -/
theorem write_eq {cls : CharClass} (h : ∀ c, cls ≠ .only c) :
  cls.write = '[' :: (cls.symbols.flatMap Symbol.write ++ [']'])
  := by
  cases cls with
  | only c => exact absurd rfl (h c)
  | letter | letterOrDigit => rfl
  | range lo hi =>
      have hsymbols : (symbols (.range lo hi)).flatMap Symbol.write
          = writeMember lo ++ '-' :: writeMember hi := by
        simp [symbols, Symbol.write]
      rw [hsymbols, List.append_assoc]
      rfl
  | anyOf set =>
      rw [symbols, flatMap_member]
      rfl
  | noneOf set =>
      rw [symbols, List.flatMap_cons, flatMap_member]
      rfl

/-! ### Classes -/

/-- The first character of a class tells whether it is a single character. -/
theorem exists_write_eq (cls : CharClass) :
  ∃ d s, cls.write = d :: s ∧ ((∃ c, cls = .only c) ∧ d = '\x27' ∨ (∀ c, cls ≠ .only c) ∧ d = '[')
  := by
  cases cls with
  | only c => exact ⟨'\x27', _, rfl, .inl ⟨⟨c, rfl⟩, rfl⟩⟩
  | range | anyOf | noneOf | letter | letterOrDigit =>
      exact ⟨'[', _, write_eq (by simp), .inr ⟨by simp, rfl⟩⟩

/-- A written class is determined together with what follows it, but for a set that is written like
the class of letters. -/
theorem merged_eq_of_write {a b : CharClass} {s t : List Char} (h : a.write ++ s = b.write ++ t) :
  a.merged = b.merged ∧ s = t
  := by
  obtain ⟨d, sa, ha, hda⟩ := exists_write_eq a
  obtain ⟨e, sb, hb, hdb⟩ := exists_write_eq b
  have hfirst : d = e := by
    rw [ha, hb] at h
    apply (List.cons.inj h).1
  subst hfirst
  rcases hda with ⟨⟨c, rfl⟩, rfl⟩ | ⟨hna, rfl⟩
  · obtain ⟨⟨c', rfl⟩, -⟩ | ⟨-, hd⟩ := hdb
    · have hescapes : Text.escapeChar c ++ '\x27' :: s = Text.escapeChar c' ++ '\x27' :: t := by
        simpa using (List.cons.inj h).2
      obtain ⟨rfl, hrest⟩ := Text.separable_escapeChar _ _ _ _ hescapes
      exact ⟨rfl, (List.cons.inj hrest).2⟩
    · cases hd
  · obtain ⟨-, hd⟩ | ⟨hnb, -⟩ := hdb
    · cases hd
    · rw [write_eq hna, write_eq hnb, List.cons_append, List.cons_append, List.append_assoc,
        List.append_assoc] at h
      obtain ⟨hsymbols, hrest⟩ :=
        (Text.Separable.of_read Symbol.read_write).until Symbol.head?_write_ne (List.cons.inj h).2
      rw [← ofSymbols_symbols hna, ← ofSymbols_symbols hnb, hsymbols]
      exact ⟨rfl, hrest⟩

end ClassTranscript.Peg.CharClass
