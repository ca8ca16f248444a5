import ClassTranscript.Proofs.Peg.TreeShape

/-!
# What the nodes of a match can be

`Leaves d start e nodes` says that the nodes are those of some match of an expression, wherever it
begins. One lemma for each operator tells what a match of it from one position to another is made
of, and one what nodes it can leave, so that the nodes below a node are read off the body of its
rule. A draft whose names are all different has one
definition for each name, and a call of a rule that makes nodes leaves one node of that definition
(`Leaves.of_rule`).
-/

namespace ClassTranscript.Peg

/-! ### Definitions by name -/

namespace Draft

variable {d : Draft} {name : String} {id : RuleId} {x y : Definition}

/-- Where the names are all different, definitions of the same name are the same. -/
theorem eq_of_name (hnames : (d.definitions.map (·.name)).Nodup) (hx : x ∈ d.definitions)
    (hy : y ∈ d.definitions) (hname : x.name = y.name) :
  x = y
  := List.inj_on_of_nodup_map hnames hx hy hname

/-- Where the names are all different, the name of a definition leads to it. -/
theorem exists_ruleId? (hnames : (d.definitions.map (·.name)).Nodup) (hx : x ∈ d.definitions) :
  ∃ id, d.ruleId? x.name = some id ∧ d.definitions[id]? = some x
  := by
  cases hid : d.ruleId? x.name with
  | none => simpa using List.findIdx?_eq_none_iff.mp hid x hx
  | some id =>
      obtain ⟨y, hy, -⟩ := d.body?_of_ruleId? hid
      obtain rfl := eq_of_name hnames (List.mem_of_getElem? hy) hx (name_of_ruleId? hid hy)
      exact ⟨id, rfl, hy⟩

/-- Where the names are all different, each leads to the body of its definition. -/
theorem body?_of_mem (hnames : (d.definitions.map (·.name)).Nodup) (hx : x ∈ d.definitions) :
  d.body? x.name = some x.body
  := by
  obtain ⟨id, hid, hid'⟩ := exists_ruleId? hnames hx
  apply body?_of_definition hid hid'

/-- The root of a built grammar is the definition that the draft names. -/
theorem definition_of_root {g : Grammar} (hnames : (d.definitions.map (·.name)).Nodup)
    (hbuild : d.build = .ok g) (hroot : d.root = some x.name) (hx : x ∈ d.definitions) :
  d.definitions[g.root]? = some x
  := by
  obtain ⟨bodies, ⟨-, -, hid, -⟩, -⟩ := build_eq_ok hbuild
  obtain ⟨id, hname, hid'⟩ := exists_ruleId? hnames hx
  simp only [rootId, hroot, hname] at hid
  rw [← Except.ok.inj hid, hid']

end Draft

/-! ### Matches between two positions -/

namespace Grows

variable {d : Draft} {cls : CharClass} {text : String} {e : Expr} {items : List Expr}
  {here there : Cursor} {ns : List Node}

theorem of_literal (h : Grows d (.literal text) here there ns) :
  here.Passes text.toList there
  := by
  cases h with
  | reads hreads hrest hoffset =>
      obtain rfl := hreads
      exact ⟨hrest, hoffset⟩

theorem of_char (h : Grows d (.char cls) here there ns) :
  ∃ c, cls.holds c = true ∧ here.rest = c :: there.rest
    ∧ there.offset = here.offset + c.utf8Size
  := by
  cases h with
  | reads hreads hrest hoffset =>
      obtain ⟨c, hc, rfl⟩ := hreads
      exact ⟨c, hc, hrest, by simpa using hoffset⟩

/-- A repetition passes pieces one after the other when each of its rounds passes one. -/
theorem exists_pieces {α : Type} {f : α → List Char} {p : α → Prop}
    (hround : ∀ {mid after : Cursor} {ms : List Node}, Grows d e mid after ms →
      ∃ a, p a ∧ mid.Passes (f a) after)
    (h : Grows d (.star e) here there ns) :
  ∃ as : List α, (∀ a ∈ as, p a) ∧ here.Passes (as.flatMap f) there
  := by
  generalize hstar : Expr.star e = whole at h
  induction h with
  | starStop _ => exact ⟨[], by simp, .nil _⟩
  | starNext hfirst _ _ ih =>
      obtain rfl := Expr.star.inj hstar
      obtain ⟨a, ha, hpasses⟩ := hround hfirst
      obtain ⟨as, has, hnext⟩ := ih rfl
      exact ⟨a :: as, by simpa using ⟨ha, has⟩, hpasses.append hnext⟩
  | reads hreads =>
      subst hstar
      contradiction
  | _ => cases hstar

/-- A repetition of a class takes characters of the class. -/
theorem of_star_char (h : Grows d (.star (.char cls)) here there ns) :
  ∃ cs, (∀ c ∈ cs, cls.holds c = true) ∧ here.Passes cs there
  := by
  obtain ⟨cs, hcs, hpasses⟩ := h.exists_pieces (f := fun c => [c]) fun hround => by
    obtain ⟨c, hc, hpasses⟩ := hround.of_char
    exact ⟨c, hc, hpasses⟩
  rw [List.flatMap_singleton'] at hpasses
  exact ⟨cs, hcs, hpasses⟩

theorem of_plus (h : Grows d (.plus e) here there ns) :
  ∃ mid xs ys, ns = xs ++ ys ∧ Grows d e here mid xs ∧ Grows d (.star e) mid there ys
  := by
  cases h with
  | plus hround hstar => exact ⟨_, _, _, rfl, hround, hstar⟩
  | reads hreads => contradiction

/-- A repetition of a class that is not empty takes at least one character of the class. -/
theorem of_plus_char (h : Grows d (.plus (.char cls)) here there ns) :
  ∃ cs, cs ≠ [] ∧ (∀ c ∈ cs, cls.holds c = true) ∧ here.Passes cs there
  := by
  obtain ⟨mid, _, _, -, hround, hstar⟩ := h.of_plus
  obtain ⟨c, hc, hrest, hoffset⟩ := hround.of_char
  obtain ⟨cs, hcs, hpasses⟩ := hstar.of_star_char
  have hfirst : here.Passes [c] mid := ⟨hrest, hoffset⟩
  exact ⟨c :: cs, by simp, by simpa using ⟨hc, hcs⟩, hfirst.append hpasses⟩

theorem of_seq_nil (h : Grows d (.seq []) here there ns) :
  there = here ∧ ns = []
  := by
  cases h with
  | seqNil => exact ⟨rfl, rfl⟩
  | reads hreads => contradiction

theorem of_seq_cons (h : Grows d (.seq (e :: items)) here there ns) :
  ∃ mid xs ys, ns = xs ++ ys ∧ Grows d e here mid xs ∧ Grows d (.seq items) mid there ys
  := by
  cases h with
  | seqNext hitem hitems => exact ⟨_, _, _, rfl, hitem, hitems⟩
  | reads hreads => contradiction

theorem of_seq_append {more : List Expr} (h : Grows d (.seq (items ++ more)) here there ns) :
  ∃ mid xs ys, ns = xs ++ ys ∧ Grows d (.seq items) here mid xs ∧ Grows d (.seq more) mid there ys
  := by
  induction items generalizing here ns with
  | nil => exact ⟨here, [], ns, rfl, .seqNil, h⟩
  | cons item items ih =>
      obtain ⟨_, xs, _, rfl, hitem, h⟩ := h.of_seq_cons
      obtain ⟨mid, ys, zs, rfl, hitems, hmore⟩ := ih h
      exact ⟨mid, xs ++ ys, zs, (List.append_assoc xs ys zs).symm, .seqNext hitem hitems, hmore⟩

theorem of_seq_literal (h : Grows d (.seq (.literal text :: items)) here there ns) :
  ∃ mid, here.Passes text.toList mid ∧ Grows d (.seq items) mid there ns
  := by
  obtain ⟨mid, _, ms, rfl, hitem, hitems⟩ := h.of_seq_cons
  rw [hitem.terminal_nil rfl]
  exact ⟨mid, hitem.of_literal, hitems⟩

/-- A sequence that begins with a lone character passes it. -/
theorem of_seq_only {c : Char} (h : Grows d (.seq (.char (.only c) :: items)) here there ns) :
  ∃ mid, here.Passes [c] mid ∧ Grows d (.seq items) mid there ns
  := by
  obtain ⟨mid, _, ms, rfl, hitem, hitems⟩ := h.of_seq_cons
  rw [hitem.terminal_nil rfl]
  obtain ⟨d, hd, hpasses⟩ := hitem.of_char
  obtain rfl : d = c := beq_iff_eq.mp hd
  exact ⟨mid, hpasses, hitems⟩

theorem of_notAhead (h : Grows d (.notAhead e) here there ns) :
  there = here ∧ ns = [] ∧ Fails d.body? e here
  := by
  cases h with
  | reads hreads => contradiction
  | notAhead hfails => exact ⟨rfl, rfl, hfails⟩

theorem of_choice (h : Grows d (.choice items) here there ns) :
  ∃ item ∈ items, Grows d item here there ns
  := by
  induction items with
  | nil =>
      cases h with
      | reads hreads => contradiction
  | cons item items ih =>
      cases h with
      | choiceFirst h => exact ⟨item, List.mem_cons_self, h⟩
      | choiceNext _ h =>
          obtain ⟨item, hmem, h⟩ := ih h
          exact ⟨item, List.mem_cons_of_mem _ hmem, h⟩
      | reads hreads => contradiction

/-- Any character but where something comes next takes a character where that fails. -/
theorem of_except (h : Grows d (.seq [.notAhead e, .any]) here there ns) :
  ∃ c, here.Passes [c] there ∧ Fails d.body? e here
  := by
  obtain ⟨_, _, _, -, hnot, h⟩ := h.of_seq_cons
  obtain ⟨_, _, _, -, hany, h⟩ := h.of_seq_cons
  obtain ⟨rfl, -⟩ := h.of_seq_nil
  obtain ⟨rfl, -, hfails⟩ := hnot.of_notAhead
  cases hany with
  | reads hreads hrest hoffset =>
      obtain ⟨c, rfl⟩ := hreads
      exact ⟨c, ⟨hrest, hoffset⟩, hfails⟩

/-- Any character but those of a class takes a character that is not one of these. -/
theorem of_exceptChar (h : Grows d (.seq [.notAhead (.char cls), .any]) here there ns) :
  ∃ c, cls.holds c = false ∧ here.Passes [c] there
  := by
  obtain ⟨c, hpasses, hfails⟩ := h.of_except
  refine ⟨c, ?_, hpasses⟩
  rw [Bool.eq_false_iff]
  intro hc
  have hreads : (Expr.char cls).Reads [c] there.rest := ⟨c, hc, rfl⟩
  exact (Derives.reads hreads hpasses.1 hpasses.2).not_fails hfails

/-- Characters are taken one by one up to the first place where a text comes next. -/
theorem of_star_upTo {text : String}
    (h : Grows d (.star (.seq [.notAhead (.literal text), .any])) here there ns) :
  ∃ cs, here.Passes cs there
    ∧ ∀ before after, cs = before ++ after → after ≠ [] → ¬ text.toList <+: after ++ there.rest
  := by
  generalize hstar : Expr.star _ = whole at h
  induction h with
  | starStop _ => exact ⟨[], .nil _, by simp⟩
  | @starNext _ here mid there _ _ hround _ _ ih =>
      obtain rfl := Expr.star.inj hstar
      obtain ⟨c, hpasses, hfails⟩ := hround.of_except
      obtain ⟨cs, hnext, hnot⟩ := ih rfl
      refine ⟨c :: cs, hpasses.append hnext, ?_⟩
      intro before after heq hne
      cases before with
      | nil =>
          rintro ⟨tail, htail⟩
          obtain rfl : c :: cs = after := heq
          have hrest : here.rest = text.toList ++ tail := by
            rw [htail, hpasses.1, hnext.1]
            rfl
          have hreads : (Expr.literal text).Reads text.toList tail := rfl
          have hderives : Derives d.body? (.literal text) here
              (some ⟨here.offset + Text.byteLength text.toList, tail⟩) [] :=
            .reads hreads hrest rfl
          exact hderives.not_fails hfails
      | cons b before => apply hnot before after (List.cons.inj heq).2 hne
  | reads hreads =>
      subst hstar
      contradiction
  | _ => cases hstar

/-- A call of a rule is a match of its body. -/
theorem of_rule {x : Definition} (hnames : (d.definitions.map (·.name)).Nodup)
    (hx : x ∈ d.definitions) (h : Grows d (.rule x.name) here there ns) :
  ∃ id inside, ns = x.nodes id ⟨here.offset, there.offset⟩ inside
    ∧ d.definitions[id]? = some x ∧ Grows d x.body here there inside
  := by
  generalize hname : x.name = name at h
  cases h with
  | rule hid hy h =>
      obtain rfl := Draft.eq_of_name hnames hx (List.mem_of_getElem? hy)
        (hname.trans (Draft.name_of_ruleId? hid hy).symm)
      exact ⟨_, _, rfl, hy, h⟩
  | reads hreads => contradiction

end Grows

/-! ### Matches anywhere -/

/-- The nodes are those of a match of the expression at a position reached from `start`. -/
def Leaves (d : Draft) (start : Cursor) (e : Expr) (nodes : List Node) : Prop :=
  ∃ here there, start.Reaches here ∧ Grows d e here there nodes

namespace Leaves

variable {d : Draft} {start : Cursor} {e : Expr} {items : List Expr} {ns : List Node}

theorem of_terminal (h : Leaves d start e ns) (he : e.expectation.isSome = true) :
  ns = []
  := by
  obtain ⟨_, _, -, h⟩ := h
  apply h.terminal_nil he

theorem of_seq_nil (h : Leaves d start (.seq []) ns) :
  ns = []
  := by
  obtain ⟨_, _, -, h⟩ := h
  apply h.of_seq_nil.2

theorem of_seq_cons (h : Leaves d start (.seq (e :: items)) ns) :
  ∃ xs ys, ns = xs ++ ys ∧ Leaves d start e xs ∧ Leaves d start (.seq items) ys
  := by
  obtain ⟨_, _, hstart, h⟩ := h
  obtain ⟨_, xs, ys, rfl, hitem, hitems⟩ := h.of_seq_cons
  exact ⟨xs, ys, rfl, ⟨_, _, hstart, hitem⟩, ⟨_, _, hstart.trans hitem.reaches, hitems⟩⟩

/-- An item that leaves nothing at the head of a sequence may be passed over. -/
theorem of_seq_skip (h : Leaves d start (.seq (e :: items)) ns)
    (hskip : ∀ xs, Leaves d start e xs → xs = []) :
  Leaves d start (.seq items) ns
  := by
  obtain ⟨xs, ys, rfl, hitem, hitems⟩ := h.of_seq_cons
  rw [hskip xs hitem, List.nil_append]
  apply hitems

theorem of_choice (h : Leaves d start (.choice items) ns) :
  ∃ item ∈ items, Leaves d start item ns
  := by
  obtain ⟨here, there, hstart, h⟩ := h
  obtain ⟨item, hmem, h⟩ := h.of_choice
  exact ⟨item, hmem, here, there, hstart, h⟩

/-- The nodes of a repetition are those of its rounds. -/
theorem of_star (h : Leaves d start (.star e) ns) :
  ∃ rounds : List (List Node), ns = rounds.flatten ∧ ∀ xs ∈ rounds, Leaves d start e xs
  := by
  obtain ⟨here, there, hstart, h⟩ := h
  generalize hstar : Expr.star e = f at h
  induction h with
  | starStop _ => exact ⟨[], rfl, by simp⟩
  | starNext hround _ _ ih =>
      obtain rfl := Expr.star.inj hstar
      obtain ⟨rounds, rfl, hrounds⟩ := ih (hstart.trans hround.reaches) rfl
      refine ⟨_ :: rounds, rfl, ?_⟩
      intro xs hmem
      cases hmem with
      | head => exact ⟨_, _, hstart, hround⟩
      | tail _ hmem => apply hrounds xs hmem
  | reads hreads =>
      subst hstar
      contradiction
  | _ => cases hstar

theorem of_plus (h : Leaves d start (.plus e) ns) :
  ∃ rounds : List (List Node), rounds ≠ [] ∧ ns = rounds.flatten
    ∧ ∀ xs ∈ rounds, Leaves d start e xs
  := by
  obtain ⟨here, there, hstart, h⟩ := h
  obtain ⟨_, _, _, rfl, hround, hstar⟩ := h.of_plus
  obtain ⟨rounds, rfl, hrounds⟩ := of_star ⟨_, _, hstart.trans hround.reaches, hstar⟩
  refine ⟨_ :: rounds, by simp, rfl, ?_⟩
  intro xs hmem
  cases hmem with
  | head => exact ⟨_, _, hstart, hround⟩
  | tail _ hmem => apply hrounds xs hmem

section

variable {x : Definition}

/-- A call of a rule that makes nodes leaves one node. -/
theorem of_rule (hnames : (d.definitions.map (·.name)).Nodup) (hx : x ∈ d.definitions)
    (hhidden : x.hidden = false) (h : Leaves d start (.rule x.name) ns) :
  ∃ node, ns = [node] ∧ Grown d start x node
  := by
  obtain ⟨here, there, hstart, h⟩ := h
  obtain ⟨id, inside, rfl, hy, h⟩ := h.of_rule hnames hx
  rw [Definition.nodes, hhidden, if_neg Bool.false_ne_true]
  exact ⟨_, rfl, .intro hy hhidden hstart h⟩

/-- A call of a hidden rule leaves no node. -/
theorem of_hidden (hnames : (d.definitions.map (·.name)).Nodup) (hx : x ∈ d.definitions)
    (hhidden : x.hidden = true) (h : Leaves d start (.rule x.name) ns) :
  ns = []
  := by
  obtain ⟨here, there, -, h⟩ := h
  obtain ⟨id, inside, rfl, -, -⟩ := h.of_rule hnames hx
  rw [Definition.nodes, if_pos hhidden]

/-- A repetition of calls of a rule that makes nodes leaves nodes of its definition. -/
theorem of_star_rule (hnames : (d.definitions.map (·.name)).Nodup) (hx : x ∈ d.definitions)
    (hhidden : x.hidden = false) (h : Leaves d start (.star (.rule x.name)) ns) :
  ∀ node ∈ ns, Grown d start x node
  := by
  obtain ⟨rounds, rfl, hrounds⟩ := h.of_star
  intro node hmem
  obtain ⟨xs, hxs, hmem⟩ := List.mem_flatten.mp hmem
  obtain ⟨_, rfl, hgrown⟩ := (hrounds xs hxs).of_rule hnames hx hhidden
  rw [List.mem_singleton.mp hmem]
  apply hgrown

end

end Leaves

/-! ### Nodes -/

namespace Grown

variable {d : Draft} {start : Cursor} {x : Definition} {node : Node}

theorem label_eq (h : Grown d start x node) :
  node.label = x.label
  := by
  cases h
  rfl

theorem mem (h : Grown d start x node) :
  x ∈ d.definitions
  := by
  cases h with
  | intro hx => apply List.mem_of_getElem? hx

theorem hidden (h : Grown d start x node) :
  x.hidden = false
  := by
  cases h with
  | intro _ hhidden => apply hhidden

theorem children_of_leaf (h : Grown d start x node) (hleaf : x.leaf = true) :
  node.children = []
  := by
  cases h
  rw [hleaf, if_pos rfl]

/-- The children of a node that shows what is inside it are those of a match of the body. -/
theorem leaves (h : Grown d start x node) (hleaf : x.leaf = false) :
  Leaves d start x.body node.children
  := by
  cases h with
  | intro _ _ hstart hgrows =>
      simp only [hleaf, Bool.false_eq_true, if_false]
      exact ⟨_, _, hstart, hgrows⟩

end Grown

end ClassTranscript.Peg
