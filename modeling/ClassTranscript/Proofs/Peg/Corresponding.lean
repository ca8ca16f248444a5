import ClassTranscript.Proofs.Peg.Inversion
import ClassTranscript.Proofs.Peg.Parts
import Mathlib.Logic.Relation

/-!
# Corresponding positions

Positions of two texts may be related in such a way that an expression does the same at both
(`Corresponds`): it fails at both, or matches up to related positions. Where the parts of some rules
do, so does whatever is made of them (`corresponds_of_madeOf`).

Other expressions do so only as long as they do not pass certain positions. They fail where they
fail at a related position (`KeepsFailing`), and of their matches at least those that end in time
have counterparts (`KeepsMatching`).
-/

namespace ClassTranscript.Peg

/-- At positions related by `rel` the expression fails at both or matches at both, up to positions
related by `stop`. -/
def Corresponds (bodyOf : String → Option Expr) (rel stop : Cursor → Cursor → Prop) (e : Expr) :
    Prop :=
  ∀ ⦃here here' : Cursor⦄ ⦃r : Option Cursor⦄ ⦃ms : List Miss⦄, rel here here' →
    Derives bodyOf e here r ms → ∃ r' ms', Derives bodyOf e here' r' ms' ∧ Option.Rel stop r r'

/-- Where the expression fails it also fails at related positions. -/
def KeepsFailing (bodyOf : String → Option Expr) (rel : Cursor → Cursor → Prop) (e : Expr) : Prop :=
  ∀ ⦃here here' : Cursor⦄, rel here here' → Fails bodyOf e here → Fails bodyOf e here'

/-- Matches that do not end late have matches at related positions, up to related positions. -/
def KeepsMatching (bodyOf : String → Option Expr) (rel : Cursor → Cursor → Prop)
    (late : Cursor → Prop) (e : Expr) : Prop :=
  ∀ ⦃here here' there : Cursor⦄ ⦃ms : List Miss⦄, rel here here' →
    Derives bodyOf e here (some there) ms → ¬ late there →
    ∃ there' ms', Derives bodyOf e here' (some there') ms' ∧ rel there there'

/-! ### Expressions made of parts -/

section

variable {d : Draft} {part : Expr → Bool} {named : String → Bool} {rel : Cursor → Cursor → Prop}
  (hmade : d.MadeOf part named) (hpart : ∀ e, part e = true → Corresponds d.body? rel rel e)

include hmade hpart

/-- What is derived at a position has its counterpart at related positions. -/
theorem Derives.corresponds {e : Expr} {here here' : Cursor} {r : Option Cursor} {ms : List Miss}
    (h : Derives d.body? e here r ms) (hrel : rel here here') (he : e.madeOf part named = true) :
  ∃ r' ms', Derives d.body? e here' r' ms' ∧ Option.Rel rel r r'
  := by
  induction h generalizing here' with
  | reads hreads hrest hoffset =>
      have he := Expr.part_of_madeOf hreads.expectation_isSome he
      apply hpart _ he hrel (.reads hreads hrest hoffset)
  | misses hx hnone =>
      have he := Expr.part_of_madeOf (by rw [hx]; rfl) he
      apply hpart _ he hrel (.misses hx hnone)
  | seqNil => exact ⟨_, _, .seqNil, .some hrel⟩
  | seqStop hitem ih =>
      rcases Bool.or_eq_true_iff.mp he with he | he
      · apply hpart _ he hrel (.seqStop hitem)
      · obtain ⟨_, _, hitem, ⟨⟩⟩ := ih hrel (Bool.and_eq_true_iff.mp he).1
        exact ⟨_, _, .seqStop hitem, .none⟩
  | seqNext hitem hnext ih ihNext =>
      rcases Bool.or_eq_true_iff.mp he with he | he
      · apply hpart _ he hrel (.seqNext hitem hnext)
      · obtain ⟨heItem, heItems⟩ := Bool.and_eq_true_iff.mp he
        obtain ⟨_, _, hitem, hmid⟩ := ih hrel heItem
        cases hmid with
        | some hmid =>
            obtain ⟨_, _, hnext, hstop⟩ := ihNext hmid (by simp [Expr.madeOf, heItems])
            exact ⟨_, _, .seqNext hitem hnext, hstop⟩
  | choiceNil => exact ⟨_, _, .choiceNil, .none⟩
  | choiceFirst hitem ih =>
      rcases Bool.or_eq_true_iff.mp he with he | he
      · apply hpart _ he hrel (.choiceFirst hitem)
      · obtain ⟨_, _, hitem, hstop⟩ := ih hrel (Bool.and_eq_true_iff.mp he).1
        cases hstop with
        | some hstop => exact ⟨_, _, .choiceFirst hitem, .some hstop⟩
  | choiceNext hitem hnext ih ihNext =>
      rcases Bool.or_eq_true_iff.mp he with he | he
      · apply hpart _ he hrel (.choiceNext hitem hnext)
      · obtain ⟨heItem, heItems⟩ := Bool.and_eq_true_iff.mp he
        obtain ⟨_, _, hitem, ⟨⟩⟩ := ih hrel heItem
        obtain ⟨_, _, hnext, hstop⟩ := ihNext hrel (by simp [Expr.madeOf, heItems])
        exact ⟨_, _, .choiceNext hitem hnext, hstop⟩
  | starStop hbody ih =>
      rcases Bool.or_eq_true_iff.mp he with he | he
      · apply hpart _ he hrel (.starStop hbody)
      · obtain ⟨_, _, hbody, ⟨⟩⟩ := ih hrel he
        exact ⟨_, _, .starStop hbody, .some hrel⟩
  | starNext hbody hnext ih ihNext =>
      rcases Bool.or_eq_true_iff.mp he with hpart' | heBody
      · apply hpart _ hpart' hrel (.starNext hbody hnext)
      · obtain ⟨_, _, hbody, hmid⟩ := ih hrel heBody
        cases hmid with
        | some hmid =>
            obtain ⟨_, _, hnext, hstop⟩ := ihNext hmid he
            exact ⟨_, _, .starNext hbody hnext, hstop⟩
  | plusStop hbody ih =>
      rcases Bool.or_eq_true_iff.mp he with he | he
      · apply hpart _ he hrel (.plusStop hbody)
      · obtain ⟨_, _, hbody, ⟨⟩⟩ := ih hrel he
        exact ⟨_, _, .plusStop hbody, .none⟩
  | plusNext hbody hnext ih ihNext =>
      rcases Bool.or_eq_true_iff.mp he with he | he
      · apply hpart _ he hrel (.plusNext hbody hnext)
      · obtain ⟨_, _, hbody, hmid⟩ := ih hrel he
        cases hmid with
        | some hmid =>
            obtain ⟨_, _, hnext, hstop⟩ := ihNext hmid (by simp [Expr.madeOf, he])
            exact ⟨_, _, .plusNext hbody hnext, hstop⟩
  | optionalNone hbody ih =>
      rcases Bool.or_eq_true_iff.mp he with he | he
      · apply hpart _ he hrel (.optionalNone hbody)
      · obtain ⟨_, _, hbody, ⟨⟩⟩ := ih hrel he
        exact ⟨_, _, .optionalNone hbody, .some hrel⟩
  | optionalSome hbody ih =>
      rcases Bool.or_eq_true_iff.mp he with he | he
      · apply hpart _ he hrel (.optionalSome hbody)
      · obtain ⟨_, _, hbody, hstop⟩ := ih hrel he
        cases hstop with
        | some hstop => exact ⟨_, _, .optionalSome hbody, .some hstop⟩
  | aheadNone hbody ih =>
      rcases Bool.or_eq_true_iff.mp he with he | he
      · apply hpart _ he hrel (.aheadNone hbody)
      · obtain ⟨_, _, hbody, ⟨⟩⟩ := ih hrel he
        exact ⟨_, _, .aheadNone hbody, .none⟩
  | aheadSome hbody ih =>
      rcases Bool.or_eq_true_iff.mp he with he | he
      · apply hpart _ he hrel (.aheadSome hbody)
      · obtain ⟨_, _, hbody, ⟨⟩⟩ := ih hrel he
        exact ⟨_, _, .aheadSome hbody, .some hrel⟩
  | notAheadNone hbody ih =>
      rcases Bool.or_eq_true_iff.mp he with he | he
      · apply hpart _ he hrel (.notAheadNone hbody)
      · obtain ⟨_, _, hbody, ⟨⟩⟩ := ih hrel he
        exact ⟨_, _, .notAheadNone hbody, .some hrel⟩
  | notAheadSome hbody ih =>
      rcases Bool.or_eq_true_iff.mp he with he | he
      · apply hpart _ he hrel (.notAheadSome hbody)
      · obtain ⟨_, _, hbody, ⟨⟩⟩ := ih hrel he
        exact ⟨_, _, .notAheadSome hbody, .none⟩
  | rule hbody h ih =>
      rcases Bool.or_eq_true_iff.mp he with he | hname
      · apply hpart _ he hrel (.rule hbody h)
      · obtain ⟨_, _, h, hstop⟩ := ih hrel (hmade.body hname hbody)
        exact ⟨_, _, .rule hbody h, hstop⟩

theorem corresponds_of_madeOf {e : Expr} (he : e.madeOf part named = true) :
  Corresponds d.body? rel rel e
  := fun _ _ _ _ hrel h => h.corresponds hmade hpart hrel he

end

/-! ### Positions with the same text behind them -/

mutual

/-- Every expression is made of terminals. -/
theorem madeOf_terminals (e : Expr) :
  e.madeOf (·.expectation.isSome) (fun _ => true) = true
  := by
  cases e with
  | literal | char | any | endOfInput => rfl
  | seq items | choice items => rw [Expr.madeOf, allMadeOf_terminals items, Bool.or_true]
  | star body | plus body | optional body | ahead body | notAhead body =>
      rw [Expr.madeOf, madeOf_terminals body, Bool.or_true]
  | rule name => rw [Expr.madeOf, Bool.or_true]

theorem allMadeOf_terminals (items : List Expr) :
  Expr.allMadeOf (·.expectation.isSome) (fun _ => true) items = true
  := by
  cases items with
  | nil => rfl
  | cons item items =>
      rw [Expr.allMadeOf, madeOf_terminals item, allMadeOf_terminals items, Bool.and_true]

end

/-- Whatever is derived depends on the text behind a position only. -/
theorem corresponds_of_rest (d : Draft) (e : Expr) :
  Corresponds d.body? (fun here here' => here'.rest = here.rest)
    (fun there there' => there'.rest = there.rest) e
  := by
  apply corresponds_of_madeOf (fun _ _ _ => madeOf_terminals _) _ (madeOf_terminals e)
  intro e he here here' r ms hrel h
  cases h with
  | @reads _ taken _ there hreads hrest _ =>
      have hmatch : Derives d.body? e here' (some ⟨here'.offset + Text.byteLength taken, there.rest⟩)
          [] := .reads hreads (hrel.trans hrest) rfl
      exact ⟨_, _, hmatch, .some rfl⟩
  | misses hx hnone => exact ⟨_, _, .misses hx (by rwa [hrel]), .none⟩
  | _ => cases he

/-! ### Sequences -/

theorem Derives.seq_append {bodyOf : String → Option Expr} {items more : List Expr}
    {here mid : Cursor} {r : Option Cursor} {ms ns : List Miss}
    (h : Derives bodyOf (.seq items) here (some mid) ms) (hmore : Derives bodyOf (.seq more) mid r ns) :
  ∃ ns', Derives bodyOf (.seq (items ++ more)) here r ns'
  := by
  induction items generalizing here ms with
  | nil =>
      cases h with
      | reads hreads => contradiction
      | seqNil => exact ⟨_, hmore⟩
  | cons item items ih =>
      cases h with
      | reads hreads => contradiction
      | seqNext hitem h =>
          obtain ⟨_, h⟩ := ih h
          exact ⟨_, .seqNext hitem h⟩

namespace Fails

variable {bodyOf : String → Option Expr} {item body : Expr} {items more : List Expr} {name : String}
  {here mid : Cursor} {ms : List Miss}

theorem rule (hbody : bodyOf name = some body) (h : Fails bodyOf body here) :
  Fails bodyOf (.rule name) here
  := by
  obtain ⟨_, h⟩ := h
  exact ⟨_, .rule hbody h⟩

theorem seq_first (h : Fails bodyOf item here) :
  Fails bodyOf (.seq (item :: items)) here
  := by
  obtain ⟨_, h⟩ := h
  exact ⟨_, .seqStop h⟩

theorem seq_next (hitem : Derives bodyOf item here (some mid) ms)
    (h : Fails bodyOf (.seq items) mid) :
  Fails bodyOf (.seq (item :: items)) here
  := by
  obtain ⟨_, h⟩ := h
  exact ⟨_, .seqNext hitem h⟩

theorem seq_append (hitems : Derives bodyOf (.seq items) here (some mid) ms)
    (h : Fails bodyOf (.seq more) mid) :
  Fails bodyOf (.seq (items ++ more)) here
  := by
  obtain ⟨_, h⟩ := h
  apply hitems.seq_append h

end Fails

/-! ### Operators -/

section

variable {bodyOf : String → Option Expr} {rel between stop stop' : Cursor → Cursor → Prop}
  {late : Cursor → Prop} {item body : Expr} {items more : List Expr} {name : String}

namespace Corresponds

theorem mono (h : Corresponds bodyOf rel stop body)
    (hstop : ∀ there there', stop there there' → stop' there there') :
  Corresponds bodyOf rel stop' body
  := by
  intro here here' r ms hrel hderives
  obtain ⟨r', ms', hderives', hsame⟩ := h hrel hderives
  refine ⟨r', ms', hderives', ?_⟩
  cases hsame with
  | none => exact .none
  | some hsame => exact .some (hstop _ _ hsame)

theorem rule (hbody : bodyOf name = some body) (h : Corresponds bodyOf rel stop body) :
  Corresponds bodyOf rel stop (.rule name)
  := by
  intro here here' r ms hrel hderives
  cases hderives with
  | reads hreads | misses hx => contradiction
  | rule hbody' hderives =>
      obtain rfl := Option.some.inj (hbody.symm.trans hbody')
      obtain ⟨_, _, hderives, hstop⟩ := h hrel hderives
      exact ⟨_, _, .rule hbody hderives, hstop⟩

theorem seq_nil :
  Corresponds bodyOf rel rel (.seq [])
  := by
  intro here here' r ms hrel hderives
  cases hderives with
  | reads hreads | misses hx => contradiction
  | seqNil => exact ⟨_, _, .seqNil, .some hrel⟩

theorem seq (hitem : Corresponds bodyOf rel between item)
    (h : Corresponds bodyOf between stop (.seq items)) :
  Corresponds bodyOf rel stop (.seq (item :: items))
  := by
  intro here here' r ms hrel hderives
  cases hderives with
  | reads hreads | misses hx => contradiction
  | seqStop hfails =>
      obtain ⟨_, _, hfails, ⟨⟩⟩ := hitem hrel hfails
      exact ⟨_, _, .seqStop hfails, .none⟩
  | seqNext hmatch hnext =>
      obtain ⟨_, _, hmatch, hmid⟩ := hitem hrel hmatch
      cases hmid with
      | some hmid =>
          obtain ⟨_, _, hnext, hstop⟩ := h hmid hnext
          exact ⟨_, _, .seqNext hmatch hnext, hstop⟩

theorem choice (h : ∀ item ∈ items, Corresponds bodyOf rel stop item) :
  Corresponds bodyOf rel stop (.choice items)
  := by
  induction items with
  | nil =>
      intro here here' r ms hrel hderives
      cases hderives with
      | reads hreads | misses hx => contradiction
      | choiceNil => exact ⟨_, _, .choiceNil, .none⟩
  | cons item items ih =>
      obtain ⟨hitem, hitems⟩ := List.forall_mem_cons.mp h
      intro here here' r ms hrel hderives
      cases hderives with
      | reads hreads | misses hx => contradiction
      | choiceFirst hmatch =>
          obtain ⟨_, _, hmatch, hstop⟩ := hitem hrel hmatch
          cases hstop with
          | some hstop => exact ⟨_, _, .choiceFirst hmatch, .some hstop⟩
      | choiceNext hfails hnext =>
          obtain ⟨_, _, hfails, ⟨⟩⟩ := hitem hrel hfails
          obtain ⟨_, _, hnext, hstop⟩ := ih hitems hrel hnext
          exact ⟨_, _, .choiceNext hfails hnext, hstop⟩

theorem keepsFailing (h : Corresponds bodyOf rel stop body) :
  KeepsFailing bodyOf rel body
  := by
  rintro here here' hrel ⟨_, hfails⟩
  obtain ⟨_, _, hfails, ⟨⟩⟩ := h hrel hfails
  exact ⟨_, hfails⟩

theorem keepsMatching (h : Corresponds bodyOf rel rel body) :
  KeepsMatching bodyOf rel late body
  := by
  intro here here' there _ hrel hmatch _
  obtain ⟨_, _, hmatch, hstop⟩ := h hrel hmatch
  cases hstop with
  | some hstop => exact ⟨_, _, hmatch, hstop⟩

end Corresponds

namespace KeepsFailing

theorem rule (hbody : bodyOf name = some body) (h : KeepsFailing bodyOf rel body) :
  KeepsFailing bodyOf rel (.rule name)
  := by
  rintro here here' hrel ⟨_, hfails⟩
  cases hfails with
  | misses hx => cases hx
  | rule hbody' hfails =>
      obtain rfl := Option.some.inj (hbody.symm.trans hbody')
      exact (h hrel ⟨_, hfails⟩).rule hbody

theorem seq (hitem : Corresponds bodyOf rel rel item) (h : KeepsFailing bodyOf rel (.seq items)) :
  KeepsFailing bodyOf rel (.seq (item :: items))
  := by
  rintro here here' hrel ⟨_, hfails⟩
  cases hfails with
  | misses hx => cases hx
  | seqStop hfails => exact (hitem.keepsFailing hrel ⟨_, hfails⟩).seq_first
  | seqNext hmatch hfails =>
      obtain ⟨_, _, hmatch, hmid⟩ := hitem hrel hmatch
      cases hmid with
      | some hmid => exact .seq_next hmatch (h hmid ⟨_, hfails⟩)

/-- A sequence of which only the first item can fail. -/
theorem seq_first (h : KeepsFailing bodyOf rel item)
    (hitems : ∀ here, ¬ Fails bodyOf (.seq items) here) :
  KeepsFailing bodyOf rel (.seq (item :: items))
  := by
  rintro here here' hrel ⟨_, hfails⟩
  cases hfails with
  | misses hx => cases hx
  | seqStop hfails => exact (h hrel ⟨_, hfails⟩).seq_first
  | seqNext _ hfails => exact absurd ⟨_, hfails⟩ (hitems _)

theorem seq_append (hitems : ∀ item ∈ items, Corresponds bodyOf rel rel item)
    (h : KeepsFailing bodyOf rel (.seq more)) :
  KeepsFailing bodyOf rel (.seq (items ++ more))
  := by
  induction items with
  | nil => apply h
  | cons item items ih =>
      obtain ⟨hitem, hitems⟩ := List.forall_mem_cons.mp hitems
      apply seq hitem (ih hitems)

end KeepsFailing

namespace KeepsMatching

theorem rule (hbody : bodyOf name = some body) (h : KeepsMatching bodyOf rel late body) :
  KeepsMatching bodyOf rel late (.rule name)
  := by
  intro here here' there _ hrel hmatch hnot
  cases hmatch with
  | reads hreads => contradiction
  | rule hbody' hmatch =>
      obtain rfl := Option.some.inj (hbody.symm.trans hbody')
      obtain ⟨_, _, hmatch, hstop⟩ := h hrel hmatch hnot
      exact ⟨_, _, .rule hbody hmatch, hstop⟩

theorem seq_nil :
  KeepsMatching bodyOf rel late (.seq [])
  := by
  intro here here' there _ hrel hmatch _
  cases hmatch with
  | reads hreads => contradiction
  | seqNil => exact ⟨_, _, .seqNil, hrel⟩

theorem optional (h : KeepsMatching bodyOf rel late body) (hfailing : KeepsFailing bodyOf rel body) :
  KeepsMatching bodyOf rel late (.optional body)
  := by
  intro here here' there _ hrel hmatch hnot
  cases hmatch with
  | reads hreads => contradiction
  | optionalNone hfails =>
      obtain ⟨_, hfails⟩ := hfailing hrel ⟨_, hfails⟩
      exact ⟨_, _, .optionalNone hfails, hrel⟩
  | optionalSome hmatch =>
      obtain ⟨_, _, hmatch, hstop⟩ := h hrel hmatch hnot
      exact ⟨_, _, .optionalSome hmatch, hstop⟩

section

variable (hlate : ∀ ⦃here there : Cursor⦄, here.Reaches there → late here → late there)

include hlate

theorem seq (hitem : KeepsMatching bodyOf rel late item)
    (h : KeepsMatching bodyOf rel late (.seq items)) :
  KeepsMatching bodyOf rel late (.seq (item :: items))
  := by
  intro here here' there _ hrel hmatch hnot
  cases hmatch with
  | reads hreads => contradiction
  | seqNext hfirst hnext =>
      have hmid := fun hmid => hnot (hlate (hnext.reaches _ rfl) hmid)
      obtain ⟨_, _, hfirst, hrel⟩ := hitem hrel hfirst hmid
      obtain ⟨_, _, hnext, hstop⟩ := h hrel hnext hnot
      exact ⟨_, _, .seqNext hfirst hnext, hstop⟩

theorem seq_append (hitems : ∀ item ∈ items, Corresponds bodyOf rel rel item)
    (h : KeepsMatching bodyOf rel late (.seq more)) :
  KeepsMatching bodyOf rel late (.seq (items ++ more))
  := by
  induction items with
  | nil => apply h
  | cons item items ih =>
      obtain ⟨hitem, hitems⟩ := List.forall_mem_cons.mp hitems
      apply seq hlate hitem.keepsMatching (ih hitems)

theorem star (h : KeepsMatching bodyOf rel late body) (hfailing : KeepsFailing bodyOf rel body) :
  KeepsMatching bodyOf rel late (.star body)
  := by
  intro here here' there _ hrel hmatch hnot
  generalize hstar : Expr.star body = e at hmatch
  generalize hr : some there = r at hmatch
  induction hmatch generalizing here' with
  | starStop hfails =>
      obtain rfl := Expr.star.inj hstar
      obtain rfl := Option.some.inj hr
      obtain ⟨_, hfails⟩ := hfailing hrel ⟨_, hfails⟩
      exact ⟨_, _, .starStop hfails, hrel⟩
  | starNext hround hnext _ ih =>
      obtain rfl := Expr.star.inj hstar
      subst hr
      have hmid := fun hmid => hnot (hlate (hnext.reaches _ rfl) hmid)
      obtain ⟨_, _, hround, hrel⟩ := h hrel hround hmid
      obtain ⟨_, _, hnext, hstop⟩ := ih hrel rfl rfl
      exact ⟨_, _, .starNext hround hnext, hstop⟩
  | reads hreads | misses hx =>
      subst hstar
      contradiction
  | _ => cases hstar

theorem plus (h : KeepsMatching bodyOf rel late body) (hfailing : KeepsFailing bodyOf rel body) :
  KeepsMatching bodyOf rel late (.plus body)
  := by
  intro here here' there _ hrel hmatch hnot
  cases hmatch with
  | reads hreads => contradiction
  | plusNext hround hnext =>
      have hmid := fun hmid => hnot (hlate (hnext.reaches _ rfl) hmid)
      obtain ⟨_, _, hround, hrel⟩ := h hrel hround hmid
      obtain ⟨_, _, hnext, hstop⟩ := star hlate h hfailing hrel hnext hnot
      exact ⟨_, _, .plusNext hround hnext, hstop⟩

end

end KeepsMatching

end

/-! ### Rounds of a repetition -/

/-- Rounds of a repetition lead from one position to another. -/
def Rounds (bodyOf : String → Option Expr) (body : Expr) : Cursor → Cursor → Prop :=
  Relation.ReflTransGen fun here there => ∃ ms, Derives bodyOf body here (some there) ms

namespace Rounds

variable {bodyOf : String → Option Expr} {body : Expr} {here mid there : Cursor}
  {r : Option Cursor} {ms : List Miss}

theorem reaches (h : Rounds bodyOf body here there) :
  here.Reaches there
  := by
  induction h with
  | refl => apply Cursor.Reaches.refl
  | tail _ hround ih =>
      obtain ⟨_, hround⟩ := hround
      apply ih.trans (hround.reaches _ rfl)

theorem star (h : Rounds bodyOf body here mid) (hstar : Derives bodyOf (.star body) mid r ms) :
  ∃ ms', Derives bodyOf (.star body) here r ms'
  := by
  induction h using Relation.ReflTransGen.head_induction_on with
  | refl => exact ⟨_, hstar⟩
  | head hround _ ih =>
      obtain ⟨_, hround⟩ := hround
      obtain ⟨_, hnext⟩ := ih
      exact ⟨_, .starNext hround hnext⟩

/-- A repetition that must match once fails where its first round does, and goes on up to the round
that fails otherwise. -/
theorem plus_of_fails (h : Rounds bodyOf body here there) (hfails : Fails bodyOf body there) :
  Fails bodyOf (.plus body) here ∨ ∃ ms, Derives bodyOf (.plus body) here (some there) ms
  := by
  obtain ⟨_, hfails⟩ := hfails
  obtain rfl | ⟨mid, ⟨_, hround⟩, h⟩ := Relation.ReflTransGen.cases_head h
  · exact .inl ⟨_, .plusStop hfails⟩
  · obtain ⟨_, hstar⟩ := star h (.starStop hfails)
    exact .inr ⟨_, .plusNext hround hstar⟩

/-- A repetition matches up to where a last round ends. -/
theorem plus (h : Rounds bodyOf body here mid) (hround : Derives bodyOf body mid (some there) ms)
    (hfails : Fails bodyOf body there) :
  ∃ ms, Derives bodyOf (.plus body) here (some there) ms
  := by
  obtain ⟨_, hfails⟩ := hfails
  obtain ⟨_, ⟨_, hfirst⟩, hrest⟩ := Relation.TransGen.head'_iff.mp (.tail' h ⟨_, hround⟩)
  obtain ⟨_, hstar⟩ := star hrest (.starStop hfails)
  exact ⟨_, .plusNext hfirst hstar⟩

theorem keepsMatching {rel : Cursor → Cursor → Prop} {late : Cursor → Prop} {here' : Cursor}
    (hlate : ∀ ⦃here there : Cursor⦄, here.Reaches there → late here → late there)
    (hbody : KeepsMatching bodyOf rel late body) (h : Rounds bodyOf body here there)
    (hrel : rel here here') (hnot : ¬ late there) :
  ∃ there', Rounds bodyOf body here' there' ∧ rel there there'
  := by
  induction h with
  | refl => exact ⟨_, .refl, hrel⟩
  | tail hrounds hround ih =>
      obtain ⟨_, hround⟩ := hround
      obtain ⟨mid', hrounds, hmid⟩ := ih fun hmid => hnot (hlate (hround.reaches _ rfl) hmid)
      obtain ⟨there', _, hround, hstop⟩ := hbody hmid hround hnot
      exact ⟨there', hrounds.tail ⟨_, hround⟩, hstop⟩

end Rounds

section

variable {d : Draft} {e : Expr} {here mid there : Cursor} {xs ys ns : List Node} {node : Node}

/-- A round and those after it come down to some rounds and a last one. -/
theorem exists_last_of_star (hround : Grows d e here mid xs) (hstar : Grows d (.star e) mid there ys) :
  ∃ last ms, Rounds d.body? e here last ∧ Grows d e last there ms ∧ Fails d.body? e there
  := by
  generalize he : Expr.star e = f at hstar
  induction hstar generalizing here xs with
  | starStop hfails =>
      obtain rfl := Expr.star.inj he
      exact ⟨_, _, .refl, hround, hfails⟩
  | starNext hnext _ _ ih =>
      obtain rfl := Expr.star.inj he
      obtain ⟨last, ms, hrounds, hlast⟩ := ih hnext rfl
      exact ⟨last, ms, hrounds.head hround.derives, hlast⟩
  | reads hreads =>
      subst he
      contradiction
  | _ => cases he

theorem exists_last_of_plus (h : Grows d (.plus e) here there ns) :
  ∃ last ms, Rounds d.body? e here last ∧ Grows d e last there ms ∧ Fails d.body? e there
  := by
  obtain ⟨_, _, _, -, hround, hstar⟩ := h.of_plus
  apply exists_last_of_star hround hstar

/-- The round that a node of a repetition is left by. -/
theorem exists_round_of_star (h : Grows d (.star e) here there ns) (hmem : node ∈ ns) :
  ∃ start stop ms rest, Rounds d.body? e here start ∧ Grows d e start stop ms ∧ node ∈ ms
    ∧ Grows d (.star e) stop there rest
  := by
  generalize he : Expr.star e = f at h
  induction h with
  | starStop _ => cases hmem
  | starNext hround hnext _ ih =>
      obtain rfl := Expr.star.inj he
      rcases List.mem_append.mp hmem with hmem | hmem
      · exact ⟨_, _, _, _, .refl, hround, hmem, hnext⟩
      · obtain ⟨start, stop, ms, rest, hrounds, hlast⟩ := ih hmem rfl
        exact ⟨start, stop, ms, rest, hrounds.head hround.derives, hlast⟩
  | reads hreads =>
      subst he
      contradiction
  | _ => cases he

theorem exists_round_of_plus (h : Grows d (.plus e) here there ns) (hmem : node ∈ ns) :
  ∃ start stop ms rest, Rounds d.body? e here start ∧ Grows d e start stop ms ∧ node ∈ ms
    ∧ Grows d (.star e) stop there rest
  := by
  obtain ⟨_, _, _, rfl, hround, hstar⟩ := h.of_plus
  rcases List.mem_append.mp hmem with hmem | hmem
  · exact ⟨_, _, _, _, .refl, hround, hmem, hstar⟩
  · obtain ⟨start, stop, ms, rest, hrounds, hlast⟩ := exists_round_of_star hstar hmem
    exact ⟨start, stop, ms, rest, hrounds.head hround.derives, hlast⟩

end

end ClassTranscript.Peg
