import ClassTranscript.Proofs.Peg.Growth

/-!
# Expressions made of parts

`Expr.madeOf part named` says that an expression is put together from expressions that satisfy
`part` and from calls of the rules whose names satisfy `named`. Where the bodies of these rules are
made of parts too (`Draft.MadeOf`), what every match of a part has is had by every match
(`Grows.nodes_of_parts`, `Grows.of_parts`).
-/

namespace ClassTranscript.Peg

namespace Expr

mutual

/-- Whether an expression is put together from expressions that satisfy `part` and from calls of the
rules whose names satisfy `named`. -/
def madeOf (part : Expr → Bool) (named : String → Bool) : Expr → Bool
  | .literal text => part (.literal text)
  | .char cls => part (.char cls)
  | .any => part .any
  | .endOfInput => part .endOfInput
  | .seq items => part (.seq items) || allMadeOf part named items
  | .choice items => part (.choice items) || allMadeOf part named items
  | .star body => part (.star body) || madeOf part named body
  | .plus body => part (.plus body) || madeOf part named body
  | .optional body => part (.optional body) || madeOf part named body
  | .ahead body => part (.ahead body) || madeOf part named body
  | .notAhead body => part (.notAhead body) || madeOf part named body
  | .rule name => part (.rule name) || named name

/-- Whether several expressions are put together like that. -/
def allMadeOf (part : Expr → Bool) (named : String → Bool) : List Expr → Bool
  | [] => true
  | item :: items => madeOf part named item && allMadeOf part named items

end

section

variable {part : Expr → Bool} {named : String → Bool} {e : Expr}

/-- A terminal is one of the parts. -/
theorem part_of_madeOf (he : e.expectation.isSome = true) (h : e.madeOf part named = true) :
  part e = true
  := by
  cases e with
  | literal | char | any | endOfInput => apply h
  | seq | choice | star | plus | optional | ahead | notAhead | rule => cases he

end

end Expr

/-- The rules of some names are made of parts. -/
def Draft.MadeOf (d : Draft) (part : Expr → Bool) (named : String → Bool) : Prop :=
  ∀ x ∈ d.definitions, named x.name = true → x.body.madeOf part named = true

section

variable {d : Draft} {part : Expr → Bool} {named : String → Bool} {name : String}

theorem Draft.MadeOf.body (h : d.MadeOf part named) (hname : named name = true) {body : Expr}
    (hbody : d.body? name = some body) :
  body.madeOf part named = true
  := by
  obtain ⟨x, hx, rfl⟩ := Option.map_eq_some_iff.mp hbody
  have hsame := List.find?_some hx
  rw [beq_iff_eq] at hsame
  apply h x (List.mem_of_find?_eq_some hx)
  rwa [hsame]

/-- A relation between two positions and the nodes left between them, which holds wherever a part
matches, goes on from match to match and from the body of a rule to a call of it, holds wherever an
expression made of the parts matches. -/
theorem Grows.nodes_of_parts {r : Cursor → Cursor → List Node → Prop} (hnil : ∀ c, r c c [])
    (happend : ∀ a b c xs ys, r a b xs → r b c ys → r a c (xs ++ ys))
    (hrule : ∀ here there ns (x : Definition) id, named x.name = true → r here there ns →
      r here there (x.nodes id ⟨here.offset, there.offset⟩ ns))
    (hmade : d.MadeOf part named)
    (hpart : ∀ e here there ns, part e = true → Grows d e here there ns → r here there ns)
    {e : Expr} {here there : Cursor} {ns : List Node} (h : Grows d e here there ns)
    (he : e.madeOf part named = true) :
  r here there ns
  := by
  induction h with
  | reads hreads hrest hoffset =>
      have hpart' := Expr.part_of_madeOf hreads.expectation_isSome he
      apply hpart _ _ _ _ hpart' (.reads hreads hrest hoffset)
  | seqNil | starStop _ | optionalNone _ | ahead _ _ | notAhead _ => apply hnil
  | seqNext h hnext ih ihNext =>
      rcases Bool.or_eq_true_iff.mp he with he | he
      · apply hpart _ _ _ _ he (.seqNext h hnext)
      · obtain ⟨hitem, hitems⟩ := Bool.and_eq_true_iff.mp he
        apply happend _ _ _ _ _ (ih hitem) (ihNext (by simp [Expr.madeOf, hitems]))
  | choiceFirst h ih =>
      rcases Bool.or_eq_true_iff.mp he with he | he
      · apply hpart _ _ _ _ he (.choiceFirst h)
      · apply ih (Bool.and_eq_true_iff.mp he).1
  | choiceNext hfails h ih =>
      rcases Bool.or_eq_true_iff.mp he with he | he
      · apply hpart _ _ _ _ he (.choiceNext hfails h)
      · apply ih
        simp [Expr.madeOf, (Bool.and_eq_true_iff.mp he).2]
  | starNext h hnext ih ihNext =>
      rcases Bool.or_eq_true_iff.mp he with hpart' | hbody
      · apply hpart _ _ _ _ hpart' (.starNext h hnext)
      · apply happend _ _ _ _ _ (ih hbody) (ihNext he)
  | plus h hnext ih ihNext =>
      rcases Bool.or_eq_true_iff.mp he with he | hbody
      · apply hpart _ _ _ _ he (.plus h hnext)
      · apply happend _ _ _ _ _ (ih hbody) (ihNext (by simp [Expr.madeOf, hbody]))
  | optionalSome h ih =>
      rcases Bool.or_eq_true_iff.mp he with he | hbody
      · apply hpart _ _ _ _ he (.optionalSome h)
      · apply ih hbody
  | rule hid hx h ih =>
      rcases Bool.or_eq_true_iff.mp he with he | hname
      · apply hpart _ _ _ _ he (.rule hid hx h)
      · apply hrule _ _ _ _ _ (by rwa [Draft.name_of_ruleId? hid hx])
        apply ih
        apply hmade.body hname (Draft.body?_of_definition hid hx)

/-- A relation between positions that holds wherever a part matches, and goes on from match to match,
holds wherever an expression made of the parts matches. -/
theorem Grows.of_parts {r : Cursor → Cursor → Prop} (hrefl : ∀ c, r c c)
    (htrans : ∀ a b c, r a b → r b c → r a c) (hmade : d.MadeOf part named)
    (hpart : ∀ e here there ns, part e = true → Grows d e here there ns → r here there) {e : Expr}
    {here there : Cursor} {ns : List Node} (h : Grows d e here there ns)
    (he : e.madeOf part named = true) :
  r here there
  := h.nodes_of_parts (r := fun here there _ => r here there) hrefl
    (fun a b c _ _ => htrans a b c) (fun _ _ _ _ _ _ h => h) hmade hpart he

end

end ClassTranscript.Peg
