import ClassTranscript.Proofs.Peg.Corresponding
import ClassTranscript.Proofs.Peg.Taking
import ClassTranscript.Proofs.Text.LineEnds

/-!
# Line ends

A text is read in the same way whether its lines end with a line feed or with a carriage return and
a line feed, where the rules are made of expressions that read the two alike (`ReadsAlike`): such
that name no line end, and such that take line ends whole. What is derived at a position of the one
text is derived at the counterpart of the position in the other (`Derives.spread`), and what grows
there has its spans moved (`Grows.spread`).
-/

namespace ClassTranscript.Peg

/-! ### Counterparts -/

/-- The counterpart of a position in the text whose lines end with two characters. -/
def Cursor.spread (source : String) (here : Cursor) : Cursor :=
  ⟨Text.spread source.toList here.offset, Text.crlf here.rest⟩

namespace Node

mutual

/-- A node with its spans moved to where a carriage return stands before each line feed. -/
def spread (source : String) : Node → Node
  | ⟨label, rule, span, children⟩ => ⟨label, rule, span.spread source, spreadAll source children⟩

/-- Several nodes with their spans moved. -/
def spreadAll (source : String) : List Node → List Node
  | [] => []
  | node :: nodes => spread source node :: spreadAll source nodes

end

section

variable {source : String}

theorem spreadAll_eq_map (nodes : List Node) :
  spreadAll source nodes = nodes.map (spread source)
  := by
  induction nodes with
  | nil => rfl
  | cons node nodes ih => rw [spreadAll, ih, List.map_cons]

theorem spread_mk (label : String) (rule : RuleId) (span : Span) (children : List Node) :
  (⟨label, rule, span, children⟩ : Node).spread source
    = ⟨label, rule, span.spread source, children.map (spread source)⟩
  := by
  rw [spread, spreadAll_eq_map]

theorem spread_eq (node : Node) :
  node.spread source
    = ⟨node.label, node.rule, node.span.spread source, node.children.map (spread source)⟩
  := by
  cases node
  apply spread_mk

end

end Node

section

variable {d : Draft} {source : String} {here there : Cursor}

theorem Cursor.spread_atStart (source : String) :
  (Cursor.atStart source).spread source = .atStart (Text.toCrlf source)
  := by
  rw [spread, atStart, atStart, Text.spread_zero, Text.toList_toCrlf]

/-- The counterpart of a position behind some characters is behind these with the other line
ends. -/
theorem Cursor.spread_after (hhere : (Cursor.atStart source).Reaches here) {taken rest : List Char}
    (hrest : here.rest = taken ++ rest) :
  (⟨here.offset + Text.byteLength taken, rest⟩ : Cursor).spread source
    = ⟨(here.spread source).offset + Text.byteLength (Text.crlf taken), Text.crlf rest⟩
  := by
  obtain ⟨before, hsource, hoffset⟩ := hhere
  have hsource : source.toList = before ++ (taken ++ rest) := hrest ▸ hsource
  have hoffset : here.offset = Text.byteLength before := by
    rw [hoffset, atStart, Nat.zero_add]
  rw [spread, spread, hoffset, hsource, Text.spread_append, Text.spread_byteLength,
    Text.spread_byteLength]

theorem Cursor.reaches_spread (hhere : (Cursor.atStart source).Reaches here) :
  (Cursor.atStart (Text.toCrlf source)).Reaches (here.spread source)
  := by
  obtain ⟨before, hsource, hoffset⟩ := hhere
  rw [← spread_atStart]
  have hspread := spread_after (.refl _) hsource
  rw [← hoffset] at hspread
  rw [hspread]
  refine ⟨Text.crlf before, ?_, rfl⟩
  rw [spread, hsource, Text.crlf_append]

theorem Definition.map_nodes (x : Definition) (id : RuleId) (span : Span) (ns : List Node) :
  (x.nodes id span ns).map (Node.spread source)
    = x.nodes id (span.spread source) (ns.map (Node.spread source))
  := by
  unfold Definition.nodes
  cases x.hidden <;> cases x.leaf <;> simp [Node.spread_eq]

/-! ### Reading alike -/

/-- The expression does the same where a text goes on with `rest` and where it goes on with that and
the other line ends: it fails at both or takes at both the same and leaves no nodes. -/
inductive ReadsAlike (d : Draft) (e : Expr) : List Char → Prop where
  | refuses {rest : List Char} :
    (∀ source, Refuses d source e rest) →
    (∀ source, Refuses d source e (Text.crlf rest)) →
    ReadsAlike d e rest
  | takes {taken rest : List Char} :
    (∀ source, Takes d source e taken rest NoNodes) →
    (∀ source, Takes d source e (Text.crlf taken) (Text.crlf rest) NoNodes) →
    ReadsAlike d e (taken ++ rest)

namespace ReadsAlike

variable {e : Expr}

theorem derives (h : ReadsAlike d e here.rest) (hhere : (Cursor.atStart source).Reaches here)
    {r : Option Cursor} {ms : List Miss} (hderives : Derives d.body? e here r ms) :
  ∃ ms', Derives d.body? e (here.spread source) (r.map (·.spread source)) ms'
  := by
  generalize hrest : here.rest = rest at h
  cases h with
  | refuses hfails hfails' =>
      obtain ⟨_, hnone⟩ := hfails source here hhere hrest
      obtain ⟨rfl, -⟩ := hderives.unique hnone
      apply hfails' _ _ (Cursor.reaches_spread hhere)
      rw [Cursor.spread, hrest]
  | takes htakes htakes' =>
      obtain ⟨_, hgrows, -⟩ := htakes source here hhere hrest
      obtain ⟨_, hsome⟩ := hgrows.derives
      obtain ⟨rfl, -⟩ := hderives.unique hsome
      obtain ⟨_, hgrows', -⟩ := htakes' _ _ (Cursor.reaches_spread hhere)
        (by rw [Cursor.spread, hrest, Text.crlf_append])
      rw [Option.map_some, Cursor.spread_after hhere hrest]
      apply hgrows'.derives

theorem grows (h : ReadsAlike d e here.rest) (hhere : (Cursor.atStart source).Reaches here)
    {ns : List Node} (hgrows : Grows d e here there ns) :
  Grows d e (here.spread source) (there.spread source) (ns.map (Node.spread source))
  := by
  generalize hrest : here.rest = rest at h
  cases h with
  | refuses hfails _ => exact absurd (hfails source here hhere hrest) hgrows.not_fails
  | takes htakes htakes' =>
      obtain ⟨_, hgrows', rfl⟩ := htakes source here hhere hrest
      obtain ⟨rfl, rfl⟩ := hgrows.unique hgrows'
      obtain ⟨_, hspread, rfl⟩ := htakes' _ _ (Cursor.reaches_spread hhere)
        (by rw [Cursor.spread, hrest, Text.crlf_append])
      rw [Cursor.spread_after hhere hrest]
      apply hspread

end ReadsAlike

/-! ### Derivations and nodes -/

section

variable {part : Expr → Bool} {named : String → Bool} (hmade : d.MadeOf part named)
  (hpart : ∀ e, part e = true → ∀ here, (Cursor.atStart source).Reaches here →
    ReadsAlike d e here.rest)

include hmade hpart

/-- What is derived at a position is derived at its counterpart. -/
theorem Derives.spread {e : Expr} {r : Option Cursor} {ms : List Miss}
    (h : Derives d.body? e here r ms) (hhere : (Cursor.atStart source).Reaches here)
    (he : e.madeOf part named = true) :
  ∃ ms', Derives d.body? e (here.spread source) (r.map (·.spread source)) ms'
  := by
  let rel (here here' : Cursor) : Prop :=
    (Cursor.atStart source).Reaches here ∧ here' = here.spread source
  have hparts (e : Expr) (he : part e = true) : Corresponds d.body? rel rel e := by
    rintro here _ r ms ⟨hhere, rfl⟩ h
    obtain ⟨ms', h'⟩ := (hpart e he here hhere).derives hhere h
    refine ⟨_, ms', h', ?_⟩
    cases r with
    | none => exact .none
    | some there => exact .some ⟨hhere.trans (h.reaches there rfl), rfl⟩
  obtain ⟨r', ms', h', hstop⟩ := h.corresponds hmade hparts ⟨hhere, rfl⟩ he
  cases hstop with
  | none => exact ⟨ms', h'⟩
  | some hstop =>
      obtain ⟨-, rfl⟩ := hstop
      exact ⟨ms', h'⟩

theorem Fails.spread {e : Expr} (h : Fails d.body? e here)
    (hhere : (Cursor.atStart source).Reaches here) (he : e.madeOf part named = true) :
  Fails d.body? e (here.spread source)
  := by
  obtain ⟨_, h⟩ := h
  apply Derives.spread hmade hpart h hhere he

/-- What grows at a position grows at its counterpart, with the spans moved. -/
theorem Grows.spread {e : Expr} {ns : List Node} (h : Grows d e here there ns)
    (hhere : (Cursor.atStart source).Reaches here) (he : e.madeOf part named = true) :
  Grows d e (here.spread source) (there.spread source) (ns.map (Node.spread source))
  := by
  induction h with
  | reads hreads hrest hoffset =>
      have he := Expr.part_of_madeOf hreads.expectation_isSome he
      apply (hpart _ he _ hhere).grows hhere (.reads hreads hrest hoffset)
  | seqNil => exact .seqNil
  | seqNext hitem hnext ih ihNext =>
      rcases Bool.or_eq_true_iff.mp he with he | he
      · apply (hpart _ he _ hhere).grows hhere (.seqNext hitem hnext)
      · obtain ⟨heItem, heItems⟩ := Bool.and_eq_true_iff.mp he
        rw [List.map_append]
        exact .seqNext (ih hhere heItem)
          (ihNext (hhere.trans hitem.reaches) (by simp [Expr.madeOf, heItems]))
  | choiceFirst hitem ih =>
      rcases Bool.or_eq_true_iff.mp he with he | he
      · apply (hpart _ he _ hhere).grows hhere (.choiceFirst hitem)
      · exact .choiceFirst (ih hhere (Bool.and_eq_true_iff.mp he).1)
  | choiceNext hfails hnext ih =>
      rcases Bool.or_eq_true_iff.mp he with he | he
      · apply (hpart _ he _ hhere).grows hhere (.choiceNext hfails hnext)
      · obtain ⟨heItem, heItems⟩ := Bool.and_eq_true_iff.mp he
        exact .choiceNext (hfails.spread hmade hpart hhere heItem)
          (ih hhere (by simp [Expr.madeOf, heItems]))
  | starStop hfails =>
      rcases Bool.or_eq_true_iff.mp he with he | he
      · apply (hpart _ he _ hhere).grows hhere (.starStop hfails)
      · exact .starStop (hfails.spread hmade hpart hhere he)
  | starNext hbody hnext ih ihNext =>
      rcases Bool.or_eq_true_iff.mp he with hpart' | heBody
      · apply (hpart _ hpart' _ hhere).grows hhere (.starNext hbody hnext)
      · rw [List.map_append]
        exact .starNext (ih hhere heBody) (ihNext (hhere.trans hbody.reaches) he)
  | plus hbody hnext ih ihNext =>
      rcases Bool.or_eq_true_iff.mp he with he | he
      · apply (hpart _ he _ hhere).grows hhere (.plus hbody hnext)
      · rw [List.map_append]
        exact .plus (ih hhere he) (ihNext (hhere.trans hbody.reaches) (by simp [Expr.madeOf, he]))
  | optionalNone hfails =>
      rcases Bool.or_eq_true_iff.mp he with he | he
      · apply (hpart _ he _ hhere).grows hhere (.optionalNone hfails)
      · exact .optionalNone (hfails.spread hmade hpart hhere he)
  | optionalSome hbody ih =>
      rcases Bool.or_eq_true_iff.mp he with he | he
      · apply (hpart _ he _ hhere).grows hhere (.optionalSome hbody)
      · exact .optionalSome (ih hhere he)
  | ahead hbody ih =>
      rcases Bool.or_eq_true_iff.mp he with he | he
      · apply (hpart _ he _ hhere).grows hhere (.ahead hbody)
      · exact .ahead (ih hhere he)
  | notAhead hfails =>
      rcases Bool.or_eq_true_iff.mp he with he | he
      · apply (hpart _ he _ hhere).grows hhere (.notAhead hfails)
      · exact .notAhead (hfails.spread hmade hpart hhere he)
  | rule hid hx h ih =>
      rcases Bool.or_eq_true_iff.mp he with he | hname
      · apply (hpart _ he _ hhere).grows hhere (.rule hid hx h)
      · rw [Definition.map_nodes]
        apply Grows.rule hid hx
        apply ih hhere (hmade.body hname (Draft.body?_of_definition hid hx))

end

end

end ClassTranscript.Peg
