import ClassTranscript.Proofs.Peg.Corresponding
import ClassTranscript.Proofs.Peg.Evaluation
import ClassTranscript.Proofs.Peg.Taking

/-!
# Rules take or refuse

What an expression derives it also grows (`Derives.exists_grows`), and of a rule of a grammar that is
built something is derived everywhere. So at every place a rule takes something or refuses the text
(`takes_or_refuses`).
-/

namespace ClassTranscript.Peg

variable {d : Draft} {g : Grammar} {e : Expr} {x : Definition} {here : Cursor} {r : Option Cursor}
  {ms : List Miss}

/-- The body of a name is that of a definition that the name leads to. -/
theorem Draft.exists_definition_of_body? {name : String} {body : Expr} (h : d.body? name = some body) :
  ∃ id x, d.ruleId? name = some id ∧ d.definitions[id]? = some x ∧ x.body = body
  := by
  cases hid : d.ruleId? name with
  | none =>
      obtain ⟨x, hx, -⟩ := Option.map_eq_some_iff.mp h
      have hnone := List.findIdx?_eq_none_iff.mp hid x (List.mem_of_find?_eq_some hx)
      have hname := List.find?_some hx
      rw [hnone] at hname
      cases hname
  | some id =>
      obtain ⟨x, hx, hbody⟩ := d.body?_of_ruleId? hid
      exact ⟨id, x, rfl, hx, Option.some.inj (hbody.symm.trans h)⟩

/-- What is derived is grown. -/
theorem Derives.exists_grows (h : Derives d.body? e here r ms) :
  ∀ there, r = some there → ∃ ns, Grows d e here there ns
  := by
  induction h with
  | reads hreads hrest hoffset =>
      rintro _ ⟨⟩
      exact ⟨_, .reads hreads hrest hoffset⟩
  | misses | seqStop | choiceNil | plusStop | aheadNone | notAheadSome =>
      rintro _ ⟨⟩
  | seqNil =>
      rintro _ ⟨⟩
      exact ⟨_, .seqNil⟩
  | seqNext _ _ ih ihNext =>
      intro there hthere
      obtain ⟨_, hitem⟩ := ih _ rfl
      obtain ⟨_, hitems⟩ := ihNext there hthere
      exact ⟨_, .seqNext hitem hitems⟩
  | choiceFirst _ ih =>
      intro there hthere
      obtain ⟨_, hitem⟩ := ih there hthere
      exact ⟨_, .choiceFirst hitem⟩
  | choiceNext hfails _ _ ih =>
      intro there hthere
      obtain ⟨_, hitems⟩ := ih there hthere
      exact ⟨_, .choiceNext ⟨_, hfails⟩ hitems⟩
  | starStop hfails _ =>
      rintro _ ⟨⟩
      exact ⟨_, .starStop ⟨_, hfails⟩⟩
  | starNext _ _ ih ihNext =>
      intro there hthere
      obtain ⟨_, hround⟩ := ih _ rfl
      obtain ⟨_, hrounds⟩ := ihNext there hthere
      exact ⟨_, .starNext hround hrounds⟩
  | plusNext _ _ ih ihNext =>
      intro there hthere
      obtain ⟨_, hround⟩ := ih _ rfl
      obtain ⟨_, hrounds⟩ := ihNext there hthere
      exact ⟨_, .plus hround hrounds⟩
  | optionalNone hfails _ =>
      rintro _ ⟨⟩
      exact ⟨_, .optionalNone ⟨_, hfails⟩⟩
  | optionalSome _ ih =>
      intro there hthere
      obtain ⟨_, hbody⟩ := ih there hthere
      exact ⟨_, .optionalSome hbody⟩
  | aheadSome _ ih =>
      rintro _ ⟨⟩
      obtain ⟨_, hbody⟩ := ih _ rfl
      exact ⟨_, .ahead hbody⟩
  | notAheadNone hfails _ =>
      rintro _ ⟨⟩
      exact ⟨_, .notAhead ⟨_, hfails⟩⟩
  | rule hbody _ ih =>
      intro there hthere
      obtain ⟨_, hgrows⟩ := ih there hthere
      obtain ⟨_, x, hid, hx, rfl⟩ := Draft.exists_definition_of_body? hbody
      exact ⟨_, .rule hid hx hgrows⟩

/-- At every place a rule takes something or refuses the text. -/
theorem takes_or_refuses (hbuild : d.build = .ok g) (hnames : (d.definitions.map (·.name)).Nodup)
    (hx : x ∈ d.definitions) (text : List Char) :
  (∃ taken rest, text = taken ++ rest
      ∧ ∀ source, Takes d source (.rule x.name) taken rest AnyNodes)
    ∨ ∀ source, Refuses d source (.rule x.name) text
  := by
  obtain ⟨id, hid, hid'⟩ := Draft.exists_ruleId? hnames hx
  have hbody := Draft.body?_of_definition hid hid'
  obtain ⟨_, r, _, -, -, -, hderives⟩ := Draft.exists_run hbuild hid' (String.ofList text)
  have hstart : (Cursor.atStart (String.ofList text)).rest = text := String.toList_ofList
  -- what is derived depends on the text behind a position only
  have hanywhere (here : Cursor) (hhere : here.rest = text) :
      ∃ r' ms, Derives d.body? (.rule x.name) here r' ms
        ∧ Option.Rel (fun there there' => there'.rest = there.rest) (r.map (·.stop)) r' := by
    obtain ⟨r', ms, h, hstop⟩ :=
      corresponds_of_rest d x.body (hhere.trans hstart.symm) hderives
    exact ⟨r', ms, .rule hbody h, hstop⟩
  cases hr : r.map (·.stop) with
  | none =>
      refine .inr fun _ here _ hhere => ?_
      obtain ⟨_, ms, h, hstop⟩ := hanywhere here hhere
      rw [hr] at hstop
      cases hstop
      exact ⟨ms, h⟩
  | some stop =>
      rw [hr] at hderives
      obtain ⟨taken, htaken, -⟩ := hderives.reaches stop rfl
      rw [hstart] at htaken
      refine .inl ⟨taken, stop.rest, htaken, fun _ here _ hhere => ?_⟩
      obtain ⟨_, ms, h, hstop⟩ := hanywhere here (hhere.trans htaken.symm)
      rw [hr] at hstop
      cases hstop with
      | @some _ there hsame =>
          obtain ⟨ns, hgrows⟩ := h.exists_grows there rfl
          obtain ⟨taken', htaken', hoffset⟩ := h.reaches there rfl
          rw [hhere, hsame] at htaken'
          obtain rfl := List.append_cancel_right htaken'
          have hthere : there = ⟨here.offset + Text.byteLength taken, stop.rest⟩ := by
            rw [← hsame, ← hoffset]
          rw [← hthere]
          exact ⟨ns, hgrows, trivial⟩

end ClassTranscript.Peg
