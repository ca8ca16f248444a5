import ClassTranscript.Java.Token
import ClassTranscript.Proofs.Java.Literal
import ClassTranscript.Proofs.Peg.Omission

/-!
# Leaving out a line end in Java

The rules of spacing and of character literals do the same whether a line end of two is left out or
not (`corresponds_spacing`, `corresponds_charLiteral`). A comment in a line may end between the two
line ends. Spacing then goes over the rest of the white space, and it does not matter how much of
that there is.
-/

namespace ClassTranscript.Java

open Peg Expr Omission

variable {k : Omission} {d : Draft} {here here' : Cursor} {r : Option Cursor} {ms : List Miss}

/-! ### Spacing -/

/-- White space. -/
def blanks : CharClass :=
  .anyOf " \t\r\n\x0c".toList

/-- A round of spacing: white space or a comment. -/
def gapRound : Expr :=
  .choice
    [.plus (.char blanks), .seq ["/*", .star (.seq [.notAhead "*/", .any]), "*/"],
     .seq ["//", .star (.seq [.notAhead (oneOf "\r\n"), .any]), lineEndOr [.endOfInput]]]

theorem spacing_body :
  spacing[0].body = .star gapRound
  := rfl

/-- Behind the white space that follows, the text is the same. -/
def SameBehindBlanks (here here' : Cursor) : Prop :=
  here'.rest.dropWhile blanks.holds = here.rest.dropWhile blanks.holds

/-- A round takes the white space that follows, if there is any. -/
theorem derives_gapRound (h : here.rest.takeWhile blanks.holds ≠ []) :
  ∃ there ms, Derives d.body? gapRound here (some there) ms
    ∧ there.rest = here.rest.dropWhile blanks.holds
  := by
  obtain ⟨source, hhere⟩ := exists_source here
  have hround : Takes d source (.plus (.char blanks)) (here.rest.takeWhile blanks.holds)
      (here.rest.dropWhile blanks.holds) NoNodes :=
    takes_plus_chars h (List.all_eq_true.mp List.all_takeWhile) (head?_dropWhile_holds _ _)
  obtain ⟨_, hderives⟩ := Takes.derives hround.choice hhere List.takeWhile_append_dropWhile.symm
  exact ⟨_, _, hderives, rfl⟩

theorem dropWhile_of_takeWhile_nil {cs : List Char} (h : cs.takeWhile blanks.holds = []) :
  cs.dropWhile blanks.holds = cs
  := by
  have heq := List.takeWhile_append_dropWhile (p := blanks.holds) (l := cs)
  rwa [h, List.nil_append] at heq

/-- How much white space follows does not matter to spacing. -/
theorem derives_spacing_of_same (hsame : SameBehindBlanks here here')
    (h : Derives d.body? (.star gapRound) here r ms) :
  ∃ r' ms', Derives d.body? (.star gapRound) here' r' ms'
    ∧ Option.Rel (fun there there' => there'.rest = there.rest) r r'
  := by
  -- the repetition goes on behind the white space
  obtain ⟨mid, _, hmid, hmatch⟩ : ∃ mid ms, mid.rest = here.rest.dropWhile blanks.holds
      ∧ Derives d.body? (.star gapRound) mid r ms := by
    by_cases hnil : here.rest.takeWhile blanks.holds = []
    · exact ⟨here, _, (dropWhile_of_takeWhile_nil hnil).symm, h⟩
    · obtain ⟨mid, _, hround, hmid⟩ := derives_gapRound (d := d) hnil
      cases h with
      | reads hreads | misses hx => contradiction
      | starStop hfails => cases (hround.unique hfails).1
      | starNext hround' hnext =>
          obtain ⟨⟨⟩, -⟩ := hround.unique hround'
          exact ⟨mid, _, hmid, hnext⟩
  rw [← hsame] at hmid
  by_cases hnil : here'.rest.takeWhile blanks.holds = []
  · rw [dropWhile_of_takeWhile_nil hnil] at hmid
    apply corresponds_of_rest d _ hmid.symm hmatch
  · obtain ⟨mid', _, hround, hmid'⟩ := derives_gapRound (d := d) hnil
    obtain ⟨r', _, hnext, hstop⟩ := corresponds_of_rest d _ (hmid'.trans hmid.symm) hmatch
    exact ⟨r', _, .starNext hround hnext, hstop⟩

/-- A comment in a line that ends at the first line end ends in front of white space that differs. -/
theorem corresponds_lineEnd :
  Corresponds d.body? k.Beside
    (fun there there' => k.Beside there there' ∨ k.IsLate there ∧ SameBehindBlanks there there')
    (lineEndOr [.endOfInput])
  := by
  intro here here' r ms hrel h
  cases hrel with
  | @before s hstays hwhole hshort =>
      cases s with
      | nil =>
          obtain ⟨source, hhere⟩ := exists_source here
          obtain ⟨source', hhere'⟩ := exists_source here'
          obtain ⟨ending, left, heq, hends, hleft⟩ := k.exists_short_ending
          have htakes : Takes d source (lineEndOr [.endOfInput]) k.ending (k.omitted ++ k.rest)
            NoNodes := takes_of_endsLine k.ends _
          have htakes' : Takes d source' (lineEndOr [.endOfInput]) ending left NoNodes :=
            takes_of_endsLine hends _
          obtain ⟨_, hmatch⟩ := Takes.derives htakes hhere hwhole
          obtain ⟨_, hmatch'⟩ := Takes.derives htakes' hhere' (hshort.trans heq)
          obtain ⟨rfl, -⟩ := h.unique hmatch
          refine ⟨_, _, hmatch', .some (.inr ⟨Nat.le_refl _, ?_⟩)⟩
          obtain ⟨-, homitted⟩ := forall_endings (k := k) (p := (blanks.holds · = true)) (by decide)
            (by decide)
          rw [SameBehindBlanks, List.dropWhile_append_of_pos homitted]
          rcases hleft with rfl | hrest
          · rfl
          · rw [hrest]
            rfl
      | cons c s =>
          obtain ⟨r', ms', h', hstop⟩ :=
            (goesOnAlike_lineEnd (by simp) hstays).derives hstays hwhole hshort h
          refine ⟨r', ms', h', ?_⟩
          cases hstop with
          | none => exact .none
          | some hstop => exact .some (.inl hstop)
  | behind hrest hlate =>
      obtain ⟨r', ms', h', hstop⟩ := derives_behind hrest hlate h
      refine ⟨r', ms', h', ?_⟩
      cases hstop with
      | none => exact .none
      | some hstop => exact .some (.inl hstop)

theorem corresponds_gapRound :
  Corresponds d.body? k.Beside
    (fun there there' => k.Beside there there' ∨ k.IsLate there ∧ SameBehindBlanks there there')
    gapRound
  := by
  have havoid {e : Expr} (h : e.madeOf avoidsLineEnds (fun _ => false) = true) :
      Corresponds d.body? k.Beside k.Beside e := corresponds_of_allAvoid h
  apply Corresponds.choice
  simp only [List.forall_mem_cons]
  refine ⟨?_, ?_, ?_, by simp⟩
  · apply (havoid (by decide)).mono
    exact fun _ _ => .inl
  · apply (havoid (by decide)).mono
    exact fun _ _ => .inl
  · apply (havoid (by decide)).seq
    apply (havoid (by decide)).seq
    apply corresponds_lineEnd.seq .seq_nil

/-- The rule of spacing does the same with a line end left out. -/
theorem corresponds_spacing :
  Corresponds d.body? k.Beside k.Beside spacing[0].body
  := by
  rw [spacing_body]
  intro here here' r ms hrel h
  generalize hstar : Expr.star gapRound = e at h
  induction h generalizing here' with
  | starStop hfails =>
      obtain rfl := Expr.star.inj hstar
      obtain ⟨_, _, hfails, ⟨⟩⟩ := corresponds_gapRound hrel hfails
      exact ⟨_, _, .starStop hfails, .some hrel⟩
  | starNext hround hnext _ ih =>
      obtain rfl := Expr.star.inj hstar
      obtain ⟨_, _, hround', hmid⟩ := corresponds_gapRound hrel hround
      cases hmid with
      | some hmid =>
          rcases hmid with hmid | ⟨hlate, hsame⟩
          · obtain ⟨r', _, hnext', hstop⟩ := ih hmid rfl
            exact ⟨r', _, .starNext hround' hnext', hstop⟩
          · obtain ⟨r', _, hnext', hstop⟩ := derives_spacing_of_same hsame hnext
            refine ⟨r', _, .starNext hround' hnext', ?_⟩
            cases hstop with
            | none => exact .none
            | some hrest =>
                exact .some (.behind hrest (isLate_of_reaches (hnext.reaches _ rfl) hlate))
  | reads hreads | misses hx =>
      subst hstar
      contradiction
  | _ => cases hstar

/-! ### Character literals -/

/-- A character of a character literal outside escapes. -/
def quotedChar : Expr :=
  .seq [.notAhead (oneOf "'\\"), .any]

/-- Behind the first character of a line end no quote comes next, with both line ends or with one. -/
theorem exists_head_not_quote (k : Omission) :
  ∃ c cs cs', k.whole [] = c :: cs ∧ k.short [] = c :: cs' ∧ (c = '\r' ∨ c = '\n')
    ∧ cs.head? ≠ some '\x27' ∧ cs'.head? ≠ some '\x27'
  := by
  have hne {x : Char} {xs : List Char} (hx : x = '\r' ∨ x = '\n') :
      (x :: xs).head? ≠ some '\x27' := by
    rcases hx with rfl | rfl <;> simp
  obtain ⟨c, cs, hending, hc, hcs⟩ := exists_cons_of_endsLine k.ends
  obtain ⟨x, xs, homitted, hx, -⟩ := exists_cons_of_endsLine k.omitted_ends
  refine ⟨c, cs ++ (k.omitted ++ k.rest), cs ++ k.rest, by rw [whole, hending]; rfl,
    by rw [short, hending]; rfl, hc, ?_⟩
  cases cs with
  | nil =>
      rw [homitted]
      exact ⟨hne hx, k.not_quote⟩
  | cons y ys => exact ⟨hne (hcs y List.mem_cons_self), hne (hcs y List.mem_cons_self)⟩

section

variable (hd : HasLiterals d)

include hd

theorem corresponds_escape :
  Corresponds d.body? k.Beside k.Beside (.rule "Escape")
  := by
  have havoid {e : Expr} (h : e.madeOf avoidsLineEnds (fun _ => false) = true) :
      Corresponds d.body? k.Beside k.Beside e := corresponds_of_allAvoid h
  have hbody (i : Nat) {x : Definition} (hx : literals[i]? = some x) :
      d.body? x.name = some x.body :=
    Draft.body?_of_mem hd.nodup (hd.mem x (List.mem_of_getElem? hx))
  apply Corresponds.rule (hbody 13 rfl)
  apply (havoid (by decide)).seq
  apply Corresponds.seq _ .seq_nil
  apply Corresponds.choice
  simp only [List.forall_mem_cons]
  refine ⟨havoid (by decide), .rule (hbody 14 rfl) (havoid (by decide)),
    .rule (hbody 15 rfl) (havoid (by decide)), by simp⟩

/-- A character literal does not go over the line ends, with both of them or with one. -/
theorem refuses_quoted {source : String} {c : Char} {rest : List Char} (hc : c = '\r' ∨ c = '\n')
    (hrest : rest.head? ≠ some '\x27') :
  Refuses d source (.seq [.choice [.rule "Escape", quotedChar], '\x27']) (c :: rest)
  := by
  have hescape : Refuses d source (.rule "Escape") (c :: rest) := by
    apply Refuses.rule hd.nodup (hd.mem literals[13] (by simp [literals]))
    apply Refuses.seq
    apply refuses_char
    rintro _ ⟨⟩
    rcases hc with rfl | rfl <;> rfl
  have hquoted : Takes d source quotedChar [c] rest NoNodes := by
    apply takes_except
    apply refuses_char
    rintro _ ⟨⟩
    rcases hc with rfl | rfl <;> rfl
  apply (Takes.choice_next hescape hquoted.choice).refuses_seq (s := [c])
  apply Refuses.seq
  apply refuses_char
  intro x hx
  rw [CharClass.holds, beq_eq_false_iff_ne]
  rintro rfl
  exact hrest hx

/-- The rule of character literals does the same with a line end left out. -/
theorem corresponds_charLiteral :
  Corresponds d.body? k.Beside k.Beside literals[11].body
  := by
  have hquote : Corresponds d.body? k.Beside k.Beside (.char (.only '\x27')) :=
    corresponds_of_avoids (by decide)
  apply Corresponds.seq hquote
  intro here here' r ms hrel h
  cases hrel with
  | @before s hstays hwhole hshort =>
      cases s with
      | nil =>
          have hrefuses : k.GoesOnAlike d (.seq [.choice [.rule "Escape", quotedChar], '\x27']) [] := by
            obtain ⟨c, cs, cs', hwhole, hshort, hc, hcs, hcs'⟩ := exists_head_not_quote k
            apply GoesOnAlike.refuses
            · rw [hwhole]
              exact fun _ => refuses_quoted hd hc hcs
            · rw [hshort]
              exact fun _ => refuses_quoted hd hc hcs'
          apply hrefuses.derives hstays hwhole hshort h
      | cons c s =>
          let inside (here here' : Cursor) : Prop :=
            here.rest = k.whole (c :: s) ∧ here'.rest = k.short (c :: s)
          have hescape : Corresponds d.body? inside k.Beside (.rule "Escape") :=
            fun _ _ _ _ h => corresponds_escape hd (.before hstays h.1 h.2)
          have hquoted : Corresponds d.body? inside k.Beside quotedChar :=
            fun _ _ _ _ h => (goesOnAlike_exceptChar_cons _ c s).derives hstays h.1 h.2
          have hchoice : Corresponds d.body? inside k.Beside (.choice [.rule "Escape", quotedChar]) := by
            apply Corresponds.choice
            simp only [List.forall_mem_cons]
            exact ⟨hescape, hquoted, by simp⟩
          apply (hchoice.seq (hquote.seq .seq_nil)) ⟨hwhole, hshort⟩ h
  | behind hrest hlate => apply derives_behind hrest hlate h

end

end ClassTranscript.Java
