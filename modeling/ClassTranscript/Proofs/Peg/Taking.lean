import ClassTranscript.Proofs.Peg.Inversion
import ClassTranscript.Proofs.Text.Slice

/-!
# What expressions take

`Takes d source e s rest p` says that wherever a text goes on with `s` and then `rest`, an
expression matches `s` and leaves nodes that satisfy `p`; `Refuses d source e rest` says that it
fails where the text goes on with `rest`. The rules of both are those of matching, read from the
text to be matched: they put a match of a printed text together from matches of its pieces. What is
taken and what is left are given as lists of characters, so that no offsets come up.
-/

namespace ClassTranscript.Peg

/-- Wherever the text goes on with `s` and then `rest`, the expression takes `s` and leaves nodes
that satisfy `p`. -/
def Takes (d : Draft) (source : String) (e : Expr) (s rest : List Char)
    (p : List Node → Prop) : Prop :=
  ∀ here, (Cursor.atStart source).Reaches here → here.rest = s ++ rest →
    ∃ nodes, Grows d e here ⟨here.offset + Text.byteLength s, rest⟩ nodes ∧ p nodes

/-- Wherever the text goes on with `rest`, the expression fails. -/
def Refuses (d : Draft) (source : String) (e : Expr) (rest : List Char) : Prop :=
  ∀ here, (Cursor.atStart source).Reaches here → here.rest = rest → Fails d.body? e here

/-- The nodes are some that satisfy `p` and then some that satisfy `q`. -/
def Both (p q : List Node → Prop) (nodes : List Node) : Prop :=
  ∃ ns ms, nodes = ns ++ ms ∧ p ns ∧ q ms

/-- There are no nodes. -/
def NoNodes (nodes : List Node) : Prop :=
  nodes = []

/-- Nothing is said about the nodes. -/
def AnyNodes (_ : List Node) : Prop :=
  True

variable {d : Draft} {source : String} {e f whole item body : Expr} {items : List Expr}
  {s t rest : List Char} {p q : List Node → Prop}

theorem Takes.mono (h : Takes d source e s rest p) (hpq : ∀ nodes, p nodes → q nodes) :
  Takes d source e s rest q
  := by
  intro here hhere hrest
  obtain ⟨nodes, hgrows, hp⟩ := h here hhere hrest
  exact ⟨nodes, hgrows, hpq nodes hp⟩

theorem Takes.any (h : Takes d source e s rest p) :
  Takes d source e s rest AnyNodes
  := h.mono fun _ _ => trivial

/-! ### Terminals -/

theorem takes_of_reads (h : e.Reads s rest) :
  Takes d source e s rest NoNodes
  := by
  intro here _ hrest
  exact ⟨[], .reads h hrest rfl, rfl⟩

theorem takes_literal (text : String) (rest : List Char) :
  Takes d source (.literal text) text.toList rest NoNodes
  := takes_of_reads rfl

theorem takes_char {cls : CharClass} {c : Char} (h : cls.holds c = true) (rest : List Char) :
  Takes d source (.char cls) [c] rest NoNodes
  := takes_of_reads ⟨c, h, rfl⟩

theorem takes_any (c : Char) (rest : List Char) :
  Takes d source .any [c] rest NoNodes
  := takes_of_reads ⟨c, rfl⟩

theorem takes_endOfInput :
  Takes d source .endOfInput [] [] NoNodes
  := takes_of_reads ⟨rfl, rfl⟩

theorem refuses_literal {text : String} (h : ¬ text.toList <+: rest) :
  Refuses d source (.literal text) rest
  := by
  intro here _ hrest
  refine ⟨_, .misses rfl ?_⟩
  intro taken rest' htaken hreads
  obtain rfl : taken = text.toList := hreads
  apply h
  rw [← hrest, htaken]
  apply List.prefix_append

theorem refuses_char {cls : CharClass} (h : ∀ c, rest.head? = some c → cls.holds c = false) :
  Refuses d source (.char cls) rest
  := by
  intro here _ hrest
  refine ⟨_, .misses rfl ?_⟩
  intro taken rest' htaken hreads
  obtain ⟨c, hc, rfl⟩ := hreads
  have hhead : rest.head? = some c := by
    rw [← hrest, htaken]
    rfl
  rw [h c hhead] at hc
  cases hc

theorem refuses_any :
  Refuses d source .any []
  := by
  intro here _ hrest
  refine ⟨_, .misses rfl ?_⟩
  intro taken rest' htaken hreads
  obtain ⟨c, rfl⟩ := hreads
  rw [hrest] at htaken
  cases htaken

theorem refuses_endOfInput (h : rest ≠ []) :
  Refuses d source .endOfInput rest
  := by
  intro here _ hrest
  refine ⟨_, .misses rfl ?_⟩
  intro taken rest' htaken hreads
  obtain ⟨rfl, rfl⟩ := hreads
  exact h (hrest.symm.trans htaken)

/-! ### Sequences -/

/-- The position after nothing is taken. -/
theorem after_nothing {here : Cursor} (hrest : here.rest = [] ++ rest) :
  (⟨here.offset + Text.byteLength [], rest⟩ : Cursor) = here
  := by
  rw [← List.nil_append rest, ← hrest]
  rfl

theorem takes_seq_nil (rest : List Char) :
  Takes d source (.seq []) [] rest NoNodes
  := by
  intro here _ hrest
  rw [after_nothing hrest]
  exact ⟨[], .seqNil, rfl⟩

/-- The position after what is taken. -/
theorem reaches_after {here : Cursor} (hhere : (Cursor.atStart source).Reaches here)
    (hrest : here.rest = s ++ rest) :
  (Cursor.atStart source).Reaches ⟨here.offset + Text.byteLength s, rest⟩
  := hhere.trans ⟨s, hrest, rfl⟩

/-- Where an expression grows out of two others, one after the other, it takes what they take. -/
theorem Takes.andThen (h : Takes d source e s (t ++ rest) p) (hnext : Takes d source f t rest q)
    (hgrows : ∀ {here middle there : Cursor} {ns ms : List Node},
      Grows d e here middle ns → Grows d f middle there ms → Grows d whole here there (ns ++ ms)) :
  Takes d source whole (s ++ t) rest (Both p q)
  := by
  intro here hhere hrest
  rw [List.append_assoc] at hrest
  obtain ⟨ns, hfirst, hp⟩ := h here hhere hrest
  obtain ⟨ms, hsecond, hq⟩ := hnext _ (reaches_after hhere hrest) rfl
  refine ⟨ns ++ ms, ?_, ns, ms, rfl, hp, hq⟩
  rw [Text.byteLength_append, ← Nat.add_assoc]
  apply hgrows hfirst hsecond

theorem Takes.seq (h : Takes d source item s (t ++ rest) p)
    (hnext : Takes d source (.seq items) t rest q) :
  Takes d source (.seq (item :: items)) (s ++ t) rest (Both p q)
  := h.andThen hnext .seqNext

/-- An item that leaves no nodes at the head of a sequence. -/
theorem Takes.skip (h : Takes d source item s (t ++ rest) NoNodes)
    (hnext : Takes d source (.seq items) t rest q) :
  Takes d source (.seq (item :: items)) (s ++ t) rest q
  := by
  apply (h.seq hnext).mono
  rintro _ ⟨_, ms, rfl, rfl, hq⟩
  apply hq

/-- An item after which the sequence takes nothing more. -/
theorem Takes.seq_nothing (h : Takes d source item s rest p)
    (hnext : Takes d source (.seq items) [] rest NoNodes) :
  Takes d source (.seq (item :: items)) s rest p
  := by
  rw [← List.append_nil s]
  apply (Takes.seq (by rwa [List.nil_append]) hnext).mono
  rintro _ ⟨ns, _, rfl, hp, rfl⟩
  rwa [List.append_nil]

/-- An item at the end of a sequence. -/
theorem Takes.last (h : Takes d source item s rest p) :
  Takes d source (.seq [item]) s rest p
  := h.seq_nothing (takes_seq_nil rest)

theorem Refuses.seq (h : Refuses d source item rest) :
  Refuses d source (.seq (item :: items)) rest
  := by
  intro here hhere hrest
  obtain ⟨_, h⟩ := h here hhere hrest
  exact ⟨_, .seqStop h⟩

/-- A sequence fails where what is left of it fails after its first item. -/
theorem Takes.refuses_seq (h : Takes d source item s rest p)
    (hnext : Refuses d source (.seq items) rest) :
  Refuses d source (.seq (item :: items)) (s ++ rest)
  := by
  intro here hhere hrest
  obtain ⟨_, hgrows, -⟩ := h here hhere hrest
  obtain ⟨_, hderives⟩ := hgrows.derives
  obtain ⟨_, hfails⟩ := hnext _ (reaches_after hhere hrest) rfl
  exact ⟨_, .seqNext hderives hfails⟩

/-! ### Choices -/

theorem Takes.choice (h : Takes d source item s rest p) :
  Takes d source (.choice (item :: items)) s rest p
  := by
  intro here hhere hrest
  obtain ⟨nodes, hgrows, hp⟩ := h here hhere hrest
  exact ⟨nodes, .choiceFirst hgrows, hp⟩

theorem Takes.choice_next (hitem : Refuses d source item (s ++ rest))
    (h : Takes d source (.choice items) s rest p) :
  Takes d source (.choice (item :: items)) s rest p
  := by
  intro here hhere hrest
  obtain ⟨nodes, hgrows, hp⟩ := h here hhere hrest
  exact ⟨nodes, .choiceNext (hitem here hhere hrest) hgrows, hp⟩

theorem refuses_choice_nil :
  Refuses d source (.choice []) rest
  := fun _ _ _ => ⟨_, .choiceNil⟩

theorem Refuses.choice (hitem : Refuses d source item rest)
    (h : Refuses d source (.choice items) rest) :
  Refuses d source (.choice (item :: items)) rest
  := by
  intro here hhere hrest
  obtain ⟨_, hfails⟩ := hitem here hhere hrest
  obtain ⟨_, hnext⟩ := h here hhere hrest
  exact ⟨_, .choiceNext hfails hnext⟩

/-- A choice fails where all its alternatives do. -/
theorem refuses_choice (h : ∀ item ∈ items, Refuses d source item rest) :
  Refuses d source (.choice items) rest
  := by
  induction items with
  | nil => apply refuses_choice_nil
  | cons item items ih =>
      obtain ⟨hitem, hitems⟩ := List.forall_mem_cons.mp h
      apply Refuses.choice hitem (ih hitems)

/-! ### Repetitions and options -/

theorem takes_star_nil (h : Refuses d source body rest) :
  Takes d source (.star body) [] rest NoNodes
  := by
  intro here hhere hrest
  rw [after_nothing hrest]
  exact ⟨[], .starStop (h here hhere hrest), rfl⟩

theorem Takes.star (h : Takes d source body s (t ++ rest) p)
    (hnext : Takes d source (.star body) t rest q) :
  Takes d source (.star body) (s ++ t) rest (Both p q)
  := h.andThen hnext .starNext

/-- The last round of a repetition. -/
theorem Takes.star_last (h : Takes d source body s rest p) (hstop : Refuses d source body rest) :
  Takes d source (.star body) s rest p
  := by
  rw [← List.append_nil s]
  apply (Takes.star (by rwa [List.nil_append]) (takes_star_nil hstop)).mono
  rintro _ ⟨ns, _, rfl, hp, rfl⟩
  rwa [List.append_nil]

theorem Takes.plus (h : Takes d source body s (t ++ rest) p)
    (hnext : Takes d source (.star body) t rest q) :
  Takes d source (.plus body) (s ++ t) rest (Both p q)
  := h.andThen hnext .plus

theorem Refuses.plus (h : Refuses d source body rest) :
  Refuses d source (.plus body) rest
  := by
  intro here hhere hrest
  obtain ⟨_, h⟩ := h here hhere hrest
  exact ⟨_, .plusStop h⟩

theorem takes_optional_nil (h : Refuses d source body rest) :
  Takes d source (.optional body) [] rest NoNodes
  := by
  intro here hhere hrest
  rw [after_nothing hrest]
  exact ⟨[], .optionalNone (h here hhere hrest), rfl⟩

theorem Takes.optional (h : Takes d source body s rest p) :
  Takes d source (.optional body) s rest p
  := by
  intro here hhere hrest
  obtain ⟨nodes, hgrows, hp⟩ := h here hhere hrest
  exact ⟨nodes, .optionalSome hgrows, hp⟩

section

variable {α : Type} (print : α → List Char) (shows : α → List Node → Prop)

/-- A repetition takes items printed one after the other. Each is taken where what follows it is
fit to, and items and the rest are. -/
theorem takes_star_items (Fit : List Char → Prop) (xs : List α)
    (hitem : ∀ x ∈ xs, ∀ tail, Fit tail → Takes d source body (print x) tail (shows x))
    (hfit : ∀ x ∈ xs, ∀ tail, Fit tail → Fit (print x ++ tail)) (hrest : Fit rest)
    (hstop : Refuses d source body rest) :
  Fit (xs.flatMap print ++ rest) ∧ Takes d source (.star body) (xs.flatMap print) rest
    fun nodes => ∃ rounds, nodes = rounds.flatten ∧ List.Forall₂ shows xs rounds
  := by
  induction xs with
  | nil =>
      use hrest
      apply (takes_star_nil hstop).mono
      rintro _ rfl
      exact ⟨[], rfl, .nil⟩
  | cons x xs ih =>
      obtain ⟨htail, hstar⟩ := ih (fun y hmem => hitem y (List.mem_cons_of_mem _ hmem))
        fun y hmem => hfit y (List.mem_cons_of_mem _ hmem)
      rw [List.flatMap_cons, List.append_assoc]
      use hfit x List.mem_cons_self _ htail
      apply ((hitem x List.mem_cons_self _ htail).star hstar).mono
      rintro _ ⟨ns, _, rfl, hshows, rounds, rfl, hrounds⟩
      exact ⟨ns :: rounds, rfl, .cons hshows hrounds⟩

/-- A repetition of at least one item takes items printed one after the other. -/
theorem takes_plus_items (Fit : List Char → Prop) {xs : List α} (hne : xs ≠ [])
    (hitem : ∀ x ∈ xs, ∀ tail, Fit tail → Takes d source body (print x) tail (shows x))
    (hfit : ∀ x ∈ xs, ∀ tail, Fit tail → Fit (print x ++ tail)) (hrest : Fit rest)
    (hstop : Refuses d source body rest) :
  Fit (xs.flatMap print ++ rest) ∧ Takes d source (.plus body) (xs.flatMap print) rest
    fun nodes => ∃ rounds, nodes = rounds.flatten ∧ List.Forall₂ shows xs rounds
  := by
  obtain ⟨x, xs, rfl⟩ := List.exists_cons_of_ne_nil hne
  obtain ⟨htail, hstar⟩ := takes_star_items print shows Fit xs
    (fun y hmem => hitem y (List.mem_cons_of_mem _ hmem))
    (fun y hmem => hfit y (List.mem_cons_of_mem _ hmem)) hrest hstop
  rw [List.flatMap_cons, List.append_assoc]
  use hfit x List.mem_cons_self _ htail
  apply ((hitem x List.mem_cons_self _ htail).plus hstar).mono
  rintro _ ⟨ns, _, rfl, hshows, rounds, rfl, hrounds⟩
  exact ⟨ns :: rounds, rfl, .cons hshows hrounds⟩

end

/-- A repetition of a class takes characters of the class up to one that is not. -/
theorem takes_star_chars {cls : CharClass} (cs : List Char)
    (h : ∀ c ∈ cs, cls.holds c = true) (hrest : ∀ c, rest.head? = some c → cls.holds c = false) :
  Takes d source (.star (.char cls)) cs rest NoNodes
  := by
  induction cs with
  | nil => apply takes_star_nil (refuses_char hrest)
  | cons c cs ih =>
      rw [← List.singleton_append]
      apply ((takes_char (h c List.mem_cons_self) _).star
        (ih fun c hmem => h c (List.mem_cons_of_mem _ hmem))).mono
      rintro _ ⟨_, _, rfl, rfl, rfl⟩
      rfl

theorem takes_plus_chars {cls : CharClass} {cs : List Char} (hne : cs ≠ [])
    (h : ∀ c ∈ cs, cls.holds c = true) (hrest : ∀ c, rest.head? = some c → cls.holds c = false) :
  Takes d source (.plus (.char cls)) cs rest NoNodes
  := by
  obtain ⟨c, cs, rfl⟩ := List.exists_cons_of_ne_nil hne
  rw [← List.singleton_append]
  apply ((takes_char (h c List.mem_cons_self) _).plus
    (takes_star_chars cs (fun c hmem => h c (List.mem_cons_of_mem _ hmem)) hrest)).mono
  rintro _ ⟨_, _, rfl, rfl, rfl⟩
  rfl

/-! ### Predicates -/

theorem takes_notAhead (h : Refuses d source body rest) :
  Takes d source (.notAhead body) [] rest NoNodes
  := by
  intro here hhere hrest
  rw [after_nothing hrest]
  exact ⟨[], .notAhead (h here hhere hrest), rfl⟩

theorem Takes.refuses_notAhead (h : Takes d source body s rest p) :
  Refuses d source (.notAhead body) (s ++ rest)
  := by
  intro here hhere hrest
  obtain ⟨_, hgrows, -⟩ := h here hhere hrest
  obtain ⟨_, hderives⟩ := hgrows.derives
  exact ⟨_, .notAheadSome hderives⟩

/-! ### Rules -/

section

variable {x : Definition} (hnames : (d.definitions.map (·.name)).Nodup) (hx : x ∈ d.definitions)

include hnames hx

theorem Takes.hidden_rule (hhidden : x.hidden = true) (h : Takes d source x.body s rest p) :
  Takes d source (.rule x.name) s rest NoNodes
  := by
  intro here hhere hrest
  obtain ⟨id, hid, hid'⟩ := Draft.exists_ruleId? hnames hx
  obtain ⟨nodes, hgrows, -⟩ := h here hhere hrest
  refine ⟨_, .rule hid hid' hgrows, ?_⟩
  rw [NoNodes, Definition.nodes, if_pos hhidden]

/-- A call of a rule that makes nodes leaves one node, which covers what is taken. -/
theorem Takes.rule (hhidden : x.hidden = false) (h : Takes d source x.body s rest p) :
  Takes d source (.rule x.name) s rest fun nodes => ∃ node, nodes = [node]
    ∧ node.label = x.label ∧ node.text source = String.ofList s
    ∧ (x.leaf = false → p node.children)
  := by
  intro here hhere hrest
  obtain ⟨id, hid, hid'⟩ := Draft.exists_ruleId? hnames hx
  obtain ⟨nodes, hgrows, hp⟩ := h here hhere hrest
  refine ⟨_, .rule hid hid' hgrows, ?_⟩
  rw [Definition.nodes, if_neg (by simp [hhidden])]
  refine ⟨_, rfl, rfl, Cursor.slice_eq hhere hrest rfl, ?_⟩
  intro hleaf
  simpa [hleaf] using hp

/-- A call of a rule takes what the body of the rule does. -/
theorem Takes.call (h : Takes d source x.body s rest p) :
  Takes d source (.rule x.name) s rest AnyNodes
  := by
  intro here hhere hrest
  obtain ⟨id, hid, hid'⟩ := Draft.exists_ruleId? hnames hx
  obtain ⟨nodes, hgrows, -⟩ := h here hhere hrest
  exact ⟨_, .rule hid hid' hgrows, trivial⟩

theorem Refuses.rule (h : Refuses d source x.body rest) :
  Refuses d source (.rule x.name) rest
  := by
  intro here hhere hrest
  obtain ⟨id, hid, hid'⟩ := Draft.exists_ruleId? hnames hx
  obtain ⟨_, h⟩ := h here hhere hrest
  exact ⟨_, .rule (Draft.body?_of_definition hid hid') h⟩

end

end ClassTranscript.Peg
