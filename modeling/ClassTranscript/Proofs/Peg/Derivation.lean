import ClassTranscript.Peg.Grammar
import ClassTranscript.Proofs.Peg.Frontier
import ClassTranscript.Proofs.Peg.Position

/-!
# The meaning of parsing expressions

`Derives bodyOf e here r misses` is the meaning of an expression at a position, as it is written:
references are by name, and `bodyOf` gives the bodies of the rules. The result `r` is the position
at which the match ends, or `none` for a failure, and `misses` are the failures of terminals outside
predicates on the way to it, in order. A choice commits to the first alternative that matches, a
repetition goes on for as long as its body matches, and predicates consume nothing. An expression
means at most one thing at a position (`Derives.unique`).
-/

namespace ClassTranscript.Peg

/-- The terminal expression reads the characters `taken` from an input that goes on with `rest`. -/
def Expr.Reads : Expr → List Char → List Char → Prop
  | .literal text, taken, _ => taken = text.toList
  | .char cls, taken, _ => ∃ c, cls.holds c = true ∧ taken = [c]
  | .any, taken, _ => ∃ c, taken = [c]
  | .endOfInput, taken, rest => taken = [] ∧ rest = []
  | _, _, _ => False

/-- The body of the rule of a name. -/
def Draft.body? (d : Draft) (name : String) : Option Expr :=
  (d.definitions.find? (·.name == name)).map (·.body)

/-- What expressions derive. -/
inductive Derives (bodyOf : String → Option Expr) :
    Expr → Cursor → Option Cursor → List Miss → Prop where
  | reads {e : Expr} {taken : List Char} {here there : Cursor} :
    e.Reads taken there.rest →
    here.rest = taken ++ there.rest →
    there.offset = here.offset + Text.byteLength taken →
    Derives bodyOf e here (some there) []
  | misses {e : Expr} {expectation : String} {here : Cursor} :
    e.expectation = some expectation →
    (∀ taken rest, here.rest = taken ++ rest → ¬ e.Reads taken rest) →
    Derives bodyOf e here none [⟨here.offset, expectation⟩]
  | seqNil {here : Cursor} :
    Derives bodyOf (.seq []) here (some here) []
  | seqStop {item : Expr} {items : List Expr} {here : Cursor} {ms : List Miss} :
    Derives bodyOf item here none ms →
    Derives bodyOf (.seq (item :: items)) here none ms
  | seqNext {item : Expr} {items : List Expr} {here there : Cursor} {r : Option Cursor}
      {ms ns : List Miss} :
    Derives bodyOf item here (some there) ms →
    Derives bodyOf (.seq items) there r ns →
    Derives bodyOf (.seq (item :: items)) here r (ms ++ ns)
  | choiceNil {here : Cursor} :
    Derives bodyOf (.choice []) here none []
  | choiceFirst {item : Expr} {items : List Expr} {here there : Cursor} {ms : List Miss} :
    Derives bodyOf item here (some there) ms →
    Derives bodyOf (.choice (item :: items)) here (some there) ms
  | choiceNext {item : Expr} {items : List Expr} {here : Cursor} {r : Option Cursor}
      {ms ns : List Miss} :
    Derives bodyOf item here none ms →
    Derives bodyOf (.choice items) here r ns →
    Derives bodyOf (.choice (item :: items)) here r (ms ++ ns)
  | starStop {body : Expr} {here : Cursor} {ms : List Miss} :
    Derives bodyOf body here none ms →
    Derives bodyOf (.star body) here (some here) ms
  | starNext {body : Expr} {here there : Cursor} {r : Option Cursor} {ms ns : List Miss} :
    Derives bodyOf body here (some there) ms →
    Derives bodyOf (.star body) there r ns →
    Derives bodyOf (.star body) here r (ms ++ ns)
  | plusStop {body : Expr} {here : Cursor} {ms : List Miss} :
    Derives bodyOf body here none ms →
    Derives bodyOf (.plus body) here none ms
  | plusNext {body : Expr} {here there : Cursor} {r : Option Cursor} {ms ns : List Miss} :
    Derives bodyOf body here (some there) ms →
    Derives bodyOf (.star body) there r ns →
    Derives bodyOf (.plus body) here r (ms ++ ns)
  | optionalNone {body : Expr} {here : Cursor} {ms : List Miss} :
    Derives bodyOf body here none ms →
    Derives bodyOf (.optional body) here (some here) ms
  | optionalSome {body : Expr} {here there : Cursor} {ms : List Miss} :
    Derives bodyOf body here (some there) ms →
    Derives bodyOf (.optional body) here (some there) ms
  | aheadNone {body : Expr} {here : Cursor} {ms : List Miss} :
    Derives bodyOf body here none ms →
    Derives bodyOf (.ahead body) here none []
  | aheadSome {body : Expr} {here there : Cursor} {ms : List Miss} :
    Derives bodyOf body here (some there) ms →
    Derives bodyOf (.ahead body) here (some here) []
  | notAheadNone {body : Expr} {here : Cursor} {ms : List Miss} :
    Derives bodyOf body here none ms →
    Derives bodyOf (.notAhead body) here (some here) []
  | notAheadSome {body : Expr} {here there : Cursor} {ms : List Miss} :
    Derives bodyOf body here (some there) ms →
    Derives bodyOf (.notAhead body) here none []
  | rule {name : String} {body : Expr} {here : Cursor} {r : Option Cursor} {ms : List Miss} :
    bodyOf name = some body →
    Derives bodyOf body here r ms →
    Derives bodyOf (.rule name) here r ms

/-! ### Terminals -/

namespace Expr

/-- A terminal reads at most one text from the front of an input. -/
theorem Reads.unique {e : Expr} {taken taken' rest rest' : List Char} (h : e.Reads taken rest)
    (h' : e.Reads taken' rest') (heq : taken ++ rest = taken' ++ rest') :
  taken = taken' ∧ rest = rest'
  := by
  have hlength : taken.length = taken'.length := by
    cases e with
    | literal text => rw [show taken = _ from h, show taken' = _ from h']
    | char cls =>
        obtain ⟨_, -, rfl⟩ := h
        obtain ⟨_, -, rfl⟩ := h'
        rfl
    | any =>
        obtain ⟨_, rfl⟩ := h
        obtain ⟨_, rfl⟩ := h'
        rfl
    | endOfInput => rw [h.1, h'.1]
    | seq | choice | star | plus | optional | ahead | notAhead | rule => apply h.elim
  apply List.append_inj heq hlength

/-- Only terminals read anything. -/
theorem Reads.expectation_isSome {e : Expr} {taken rest : List Char} (h : e.Reads taken rest) :
  e.expectation.isSome = true
  := by
  cases e with
  | literal | char | any | endOfInput => rfl
  | seq | choice | star | plus | optional | ahead | notAhead | rule => apply h.elim

end Expr

namespace Derives

variable {bodyOf : String → Option Expr} {e : Expr} {here : Cursor} {r r' : Option Cursor}
  {ms ms' : List Miss}

/-- What a terminal derives. -/
theorem terminal_unique (h : e.expectation.isSome = true) (hr : Derives bodyOf e here r ms)
    (hr' : Derives bodyOf e here r' ms') :
  r = r' ∧ ms = ms'
  := by
  cases hr with
  | @reads _ taken _ there hreads hrest hoffset =>
      cases hr' with
      | @reads _ taken' _ there' hreads' hrest' hoffset' =>
          obtain ⟨rfl, hsame⟩ := hreads.unique hreads' (hrest.symm.trans hrest')
          cases there
          cases there'
          simp_all
      | misses _ hnone => exact absurd hreads (hnone _ _ hrest)
      | _ => simp [Expr.expectation] at h
  | misses hx hnone =>
      cases hr' with
      | reads hreads hrest _ => exact absurd hreads (hnone _ _ hrest)
      | misses hx' _ =>
          obtain rfl := Option.some.inj (hx.symm.trans hx')
          exact ⟨rfl, rfl⟩
      | _ => simp [Expr.expectation] at h
  | _ => simp [Expr.expectation] at h

/-- An expression derives at most one thing at a position. -/
theorem unique (h : Derives bodyOf e here r ms) (h' : Derives bodyOf e here r' ms') :
  r = r' ∧ ms = ms'
  := by
  induction h generalizing r' ms' with
  | reads hreads hrest hoffset =>
      apply terminal_unique hreads.expectation_isSome (.reads hreads hrest hoffset) h'
  | misses hx hnone => apply terminal_unique (by rw [hx]; rfl) (.misses hx hnone) h'
  | seqNil =>
      cases h' with
      | seqNil => exact ⟨rfl, rfl⟩
      | reads hreads | misses hx => contradiction
  | seqStop _ ih =>
      cases h' with
      | seqStop h' => apply ih h'
      | seqNext h' _ => simpa using (ih h').1
      | reads hreads | misses hx => contradiction
  | seqNext _ _ ih ihNext =>
      cases h' with
      | seqStop h' => simpa using (ih h').1
      | seqNext h' hnext =>
          obtain ⟨⟨⟩, rfl⟩ := ih h'
          obtain ⟨rfl, rfl⟩ := ihNext hnext
          exact ⟨rfl, rfl⟩
      | reads hreads | misses hx => contradiction
  | choiceNil =>
      cases h' with
      | choiceNil => exact ⟨rfl, rfl⟩
      | reads hreads | misses hx => contradiction
  | choiceFirst _ ih =>
      cases h' with
      | choiceFirst h' => apply ih h'
      | choiceNext h' _ => simpa using (ih h').1
      | reads hreads | misses hx => contradiction
  | choiceNext _ _ ih ihNext =>
      cases h' with
      | choiceFirst h' => simpa using (ih h').1
      | choiceNext h' hnext =>
          obtain ⟨-, rfl⟩ := ih h'
          obtain ⟨rfl, rfl⟩ := ihNext hnext
          exact ⟨rfl, rfl⟩
      | reads hreads | misses hx => contradiction
  | starStop _ ih =>
      cases h' with
      | starStop h' => exact ⟨rfl, (ih h').2⟩
      | starNext h' _ => simpa using (ih h').1
      | reads hreads | misses hx => contradiction
  | starNext _ _ ih ihNext =>
      cases h' with
      | starStop h' => simpa using (ih h').1
      | starNext h' hnext =>
          obtain ⟨⟨⟩, rfl⟩ := ih h'
          obtain ⟨rfl, rfl⟩ := ihNext hnext
          exact ⟨rfl, rfl⟩
      | reads hreads | misses hx => contradiction
  | plusStop _ ih =>
      cases h' with
      | plusStop h' => exact ⟨rfl, (ih h').2⟩
      | plusNext h' _ => simpa using (ih h').1
      | reads hreads | misses hx => contradiction
  | plusNext _ _ ih ihNext =>
      cases h' with
      | plusStop h' => simpa using (ih h').1
      | plusNext h' hnext =>
          obtain ⟨⟨⟩, rfl⟩ := ih h'
          obtain ⟨rfl, rfl⟩ := ihNext hnext
          exact ⟨rfl, rfl⟩
      | reads hreads | misses hx => contradiction
  | optionalNone _ ih =>
      cases h' with
      | optionalNone h' => exact ⟨rfl, (ih h').2⟩
      | optionalSome h' => simpa using (ih h').1
      | reads hreads | misses hx => contradiction
  | optionalSome _ ih =>
      cases h' with
      | optionalNone h' => simpa using (ih h').1
      | optionalSome h' => apply ih h'
      | reads hreads | misses hx => contradiction
  | aheadNone _ ih =>
      cases h' with
      | aheadNone _ => exact ⟨rfl, rfl⟩
      | aheadSome h' => simpa using (ih h').1
      | reads hreads | misses hx => contradiction
  | aheadSome _ ih =>
      cases h' with
      | aheadNone h' => simpa using (ih h').1
      | aheadSome _ => exact ⟨rfl, rfl⟩
      | reads hreads | misses hx => contradiction
  | notAheadNone _ ih =>
      cases h' with
      | notAheadNone _ => exact ⟨rfl, rfl⟩
      | notAheadSome h' => simpa using (ih h').1
      | reads hreads | misses hx => contradiction
  | notAheadSome _ ih =>
      cases h' with
      | notAheadNone h' => simpa using (ih h').1
      | notAheadSome _ => exact ⟨rfl, rfl⟩
      | reads hreads | misses hx => contradiction
  | rule hbody _ ih =>
      cases h' with
      | rule hbody' h' =>
          obtain rfl := Option.some.inj (hbody.symm.trans hbody')
          apply ih h'
      | reads hreads | misses hx => contradiction

/-- A match ends where it begins or further on in the same text. -/
theorem reaches (h : Derives bodyOf e here r ms) :
  ∀ there, r = some there → here.Reaches there
  := by
  induction h with
  | reads _ hrest hoffset =>
      rintro _ ⟨⟩
      exact ⟨_, hrest, hoffset⟩
  | misses | seqStop | choiceNil | plusStop | aheadNone | notAheadSome =>
      rintro _ ⟨⟩
  | seqNil | starStop | optionalNone | aheadSome | notAheadNone =>
      rintro _ ⟨⟩
      exact .refl _
  | seqNext _ _ ih ihNext | starNext _ _ ih ihNext | plusNext _ _ ih ihNext =>
      intro there hr
      apply (ih _ rfl).trans (ihNext there hr)
  | choiceFirst _ ih | choiceNext _ _ _ ih | optionalSome _ ih | rule _ _ ih => apply ih

end Derives

end ClassTranscript.Peg
