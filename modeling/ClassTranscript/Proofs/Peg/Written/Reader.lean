import ClassTranscript.Proofs.Peg.Written.Token

/-!
# Written expressions can be read back

The tokens of an expression are read by a machine that keeps the open parentheses on a stack, each a
`Group` of what has been read inside it. It comes to the expression in its `reduced` form, in which
no sequence or choice has one item and classes that are written alike are one (`reads_tokens`). So
two expressions are written alike exactly where their reduced forms are equal.
-/

namespace ClassTranscript.Peg

/-- A character of the names of rules: an ASCII letter or digit, an underscore or a dollar sign. -/
def isNameChar (c : Char) : Bool :=
  c.isAlphanum || c == '_' || c == '$'

/-- A name that rules can be told by: an identifier other than the one that stands for the end of
the input. -/
structure IsRuleName (name : String) : Prop where
  nonempty : name ≠ ""
  chars : ∀ c ∈ name.toList, isNameChar c = true
  other : name ≠ "EOI"

instance (name : String) : Decidable (IsRuleName name) :=
  decidable_of_iff (name ≠ "" ∧ name.toList.all isNameChar = true ∧ name ≠ "EOI")
    ⟨fun h => ⟨h.1, List.all_eq_true.mp h.2.1, h.2.2⟩,
      fun h => ⟨h.nonempty, List.all_eq_true.mpr h.chars, h.other⟩⟩

namespace Expr

mutual

/-- An expression with the item in the place of every sequence and choice of one item, and with one
class for those that are written alike. -/
def reduced : Expr → Expr
  | .literal text => .literal text
  | .char cls => .char cls.merged
  | .any => .any
  | .endOfInput => .endOfInput
  | .seq [item] => reduced item
  | .seq items => .seq (reducedAll items)
  | .choice [item] => reduced item
  | .choice items => .choice (reducedAll items)
  | .star body => .star (reduced body)
  | .plus body => .plus (reduced body)
  | .optional body => .optional (reduced body)
  | .ahead body => .ahead (reduced body)
  | .notAhead body => .notAhead (reduced body)
  | .rule name => .rule name

/-- The reduced forms of several expressions. -/
def reducedAll : List Expr → List Expr
  | [] => []
  | item :: items => reduced item :: reducedAll items

end

theorem reducedAll_eq_map (items : List Expr) :
  reducedAll items = items.map reduced
  := by
  induction items with
  | nil => rfl
  | cons item items ih => rw [reducedAll, ih, List.map_cons]

section

variable (first second : Expr) (rest : List Expr)

theorem reduced_seq :
  (seq (first :: second :: rest)).reduced = .seq (reducedAll (first :: second :: rest))
  := rfl

theorem reduced_choice :
  (choice (first :: second :: rest)).reduced = .choice (reducedAll (first :: second :: rest))
  := rfl

end

/-- The reduced form of an expression is written like the expression. -/
theorem write_reduced (e : Expr) :
  ∀ strength, e.reduced.write strength = e.write strength
  := by
  have hall {items : List Expr} (h : ∀ item ∈ items, ∀ k, item.reduced.write k = item.write k)
      (k : Nat) : writeAll k (reducedAll items) = writeAll k items := by
    rw [reducedAll_eq_map, writeAll_eq_map, writeAll_eq_map, List.map_map]
    apply List.map_congr_left
    intro item hitem
    apply h item hitem
  induction e using written_induction with
  | literal | any | endOfInput | seqNone | choiceNone | rule =>
      intro strength
      rfl
  | char cls =>
      intro strength
      apply cls.write_merged
  | seqOne item ih | choiceOne item ih => apply ih
  | seqMore first second rest ih =>
      intro strength
      rw [reduced_seq, write_seq, ← hall ih]
      rfl
  | choiceMore first second rest ih =>
      intro strength
      rw [reduced_choice, write_choice, ← hall ih]
      rfl
  | star body ih | plus body ih | optional body ih | ahead body ih | notAhead body ih =>
      intro strength
      simp only [reduced, write, ih]

/-- The expression of some items: the item itself where there is one. -/
def joined (join : List Expr → Expr) : List Expr → Expr
  | [item] => item
  | items => join items

end Expr

/-! ### The machine -/

/-- What has been read of an operand: letters of a name, or a whole expression. -/
inductive Operand where
  | letters (cs : List Char)
  | whole (e : Expr)

namespace Operand

/-- The expression that an operand is. The empty choice is written as nothing. -/
def expr : Operand → Expr
  | .letters [] => .choice []
  | .letters cs => if cs = ['E', 'O', 'I'] then .endOfInput else .rule (String.ofList cs)
  | .whole e => e

/-- An operand with one more letter. -/
def add : Operand → Char → Operand
  | .letters cs, c => .letters (cs ++ [c])
  | .whole e, _ => .whole e

end Operand

/-- What has been read between two parentheses: the alternatives before the last bar, the items of
the alternative after it up to the last space, and the beginning of an item. -/
structure Group where
  alternatives : List Expr := []
  items : List Expr := []
  /-- The predicate that stands before the operand. -/
  sign : Expr → Expr := id
  operand : Operand := .letters []

namespace Group

variable (g : Group)

/-- The item that has been begun. -/
def item : Expr :=
  g.sign g.operand.expr

/-- The alternative that has been begun. -/
def alternative : Expr :=
  Expr.joined .seq (g.items ++ [g.item])

/-- The expression that has been read. -/
def value : Expr :=
  Expr.joined .choice (g.alternatives ++ [g.alternative])

/-- The alternatives before the last bar are these, and the items after it those. -/
def HasItems (xs ys : List Expr) : Prop :=
  g.alternatives = xs ∧ g.items ++ [g.item] = ys

/-- The alternatives are these. -/
def HasAlternatives (xs : List Expr) : Prop :=
  g.alternatives ++ [g.alternative] = xs

/-- The group with an operand in the place of what has been read of one. -/
def put (e : Expr) : Group :=
  { g with operand := .whole e }

/-- What a token other than a parenthesis makes of a group. -/
def read : Token → Group
  | .literal text => g.put (.literal text)
  | .char cls => g.put (.char cls)
  | .bar => { alternatives := g.alternatives ++ [g.alternative] }
  | .plain ' ' => { alternatives := g.alternatives, items := g.items ++ [g.item] }
  | .plain '.' => g.put .any
  | .plain '*' => g.put (.star g.operand.expr)
  | .plain '+' => g.put (.plus g.operand.expr)
  | .plain '?' => g.put (.optional g.operand.expr)
  | .plain '&' => { g with sign := .ahead }
  | .plain '!' => { g with sign := .notAhead }
  | .plain c => { g with operand := g.operand.add c }

/-- The operand that a group is when it is closed. Nothing between parentheses is the empty
sequence. -/
def closed : Expr :=
  match g.value with
  | .choice [] => .seq []
  | e => e

end Group

/-- What a token makes of the open groups, the innermost first. -/
def readToken : List Group → Token → List Group
  | gs, .plain '(' => {} :: gs
  | g :: outer :: gs, .plain ')' => outer.put g.closed :: gs
  | g :: gs, t => g.read t :: gs
  | [], _ => []

/-- What several tokens make of the open groups. -/
def readTokens (gs : List Group) (ts : List Token) : List Group :=
  ts.foldl readToken gs

theorem readTokens_append (gs : List Group) (xs ys : List Token) :
  readTokens gs (xs ++ ys) = readTokens (readTokens gs xs) ys
  := List.foldl_append

theorem readTokens_cons (gs : List Group) (t : Token) (ts : List Token) :
  readTokens gs (t :: ts) = readTokens (readToken gs t) ts
  := rfl

/-- A letter is added to the operand. -/
theorem readToken_letter {c : Char} (hc : isNameChar c = true) (g : Group) (gs : List Group) :
  readToken (g :: gs) (.plain c) = { g with operand := g.operand.add c } :: gs
  := by
  have hne (d : Char) (hd : isNameChar d = false) : c ≠ d := by
    rintro rfl
    rw [hc] at hd
    cases hd
  have hread : g.read (.plain c) = { g with operand := g.operand.add c } := by
    simp only [Group.read, hne ' ' rfl, hne '.' rfl, hne '*' rfl, hne '+' rfl, hne '?' rfl,
      hne '&' rfl, hne '!' rfl, imp_self]
  have hopen := hne '(' rfl
  have hclose := hne ')' rfl
  rw [readToken.eq_def]
  split <;> simp_all

/-! ### What the machine comes to -/

/-- Where an operand is due, the tokens leave an expression as the operand. -/
def ReadsOperand (e : Expr) (ts : List Token) : Prop :=
  ∀ g gs, g.operand = .letters [] →
    ∃ o : Operand, o.expr = e ∧ readTokens (g :: gs) ts = { g with operand := o } :: gs

/-- Where some expressions have been read and the group that is due behind them is the innermost,
the tokens add more expressions, so that the group has all of them. -/
def Adds (due : List Expr → Group) (has : Group → List Expr → Prop) (es : List Expr)
    (ts : List Token) : Prop :=
  ∀ before gs, ∃ g, readTokens (due before :: gs) ts = g :: gs ∧ has g (before ++ es)

/-- Items are added behind those of the same alternative. -/
def AddsItems (es : List Expr) (ts : List Token) : Prop :=
  ∀ xs, Adds (fun ys => { alternatives := xs, items := ys }) (·.HasItems xs) es ts

/-- Alternatives are added behind others. -/
def AddsAlternatives (es : List Expr) (ts : List Token) : Prop :=
  Adds (fun xs => { alternatives := xs }) Group.HasAlternatives es ts

/-- Where an expression is due, the tokens leave it as what has been read. -/
def ReadsWhole (e : Expr) (ts : List Token) : Prop :=
  ∀ gs, ∃ g, readTokens ({} :: gs) ts = g :: gs ∧ g.value = e

/-- The tokens are read as an expression wherever one of a binding strength is due. -/
def ReadsAt : Nat → Expr → List Token → Prop
  | 0, e, ts => ReadsWhole e ts
  | 1, e, ts => AddsAlternatives [e] ts
  | 2, e, ts => AddsItems [e] ts
  | _, e, ts => ReadsOperand e ts

section

variable {e : Expr} {ts : List Token}

theorem ReadsOperand.addsItems (h : ReadsOperand e ts) :
  AddsItems [e] ts
  := by
  intro xs ys gs
  obtain ⟨o, ho, hread⟩ := h { alternatives := xs, items := ys } gs rfl
  rw [← ho]
  exact ⟨_, hread, rfl, rfl⟩

/-- Items are the alternative that has been begun. -/
theorem AddsItems.addsAlternatives {es : List Expr} (h : AddsItems es ts) :
  AddsAlternatives [Expr.joined .seq es] ts
  := by
  intro xs gs
  obtain ⟨g, hread, hxs, hitems⟩ := h xs [] gs
  refine ⟨g, hread, ?_⟩
  rw [Group.HasAlternatives, Group.alternative, hxs, hitems]
  rfl

/-- Alternatives are the expression that has been read. -/
theorem AddsAlternatives.readsWhole {es : List Expr} (h : AddsAlternatives es ts) :
  ReadsWhole (Expr.joined .choice es) ts
  := by
  intro gs
  obtain ⟨g, hread, halternatives⟩ := h [] gs
  exact ⟨g, hread, congrArg (Expr.joined .choice) halternatives⟩

/-- What is read where a strong operator is due is read where a weaker one is. -/
theorem ReadsAt.of_le {weak strong : Nat} (h : ReadsAt strong e ts) (hle : weak ≤ strong) :
  ReadsAt weak e ts
  := by
  induction hle with
  | refl => apply h
  | @step k _ ih =>
      apply ih
      match k with
      | 0 => exact AddsAlternatives.readsWhole h
      | 1 => exact AddsItems.addsAlternatives h
      | 2 => exact ReadsOperand.addsItems h
      | _ + 3 => exact h

theorem ReadsOperand.readsAt (h : ReadsOperand e ts) (strength : Nat) :
  ReadsAt strength e ts
  := by
  have hstrong : ReadsAt (strength + 3) e ts := h
  apply hstrong.of_le (Nat.le_add_right strength 3)

/-- In parentheses anything but the empty choice is read as an operand. -/
theorem ReadsWhole.parenthesized (h : ReadsWhole e ts) (hne : e ≠ .choice []) :
  ReadsOperand e (.plain '(' :: (ts ++ [.plain ')']))
  := by
  intro g gs _
  obtain ⟨inner, hread, hvalue⟩ := h (g :: gs)
  have hclosed : inner.closed = e := by
    rw [Group.closed.eq_def, hvalue]
    split
    · exact absurd rfl hne
    · rfl
  have hopen : readToken (g :: gs) (.plain '(') = {} :: g :: gs := rfl
  refine ⟨.whole e, rfl, ?_⟩
  rw [readTokens_cons, hopen, readTokens_append, hread, ← hclosed]
  rfl

/-- Parentheses where they are needed make an operator be read wherever its expression is due. -/
theorem ReadsAt.enclose {own : Nat} (h : ReadsAt own e ts) (hne : e ≠ .choice []) (strength : Nat) :
  ReadsAt strength e (Expr.encloseTokens (own < strength) ts)
  := by
  by_cases hneeded : own < strength
  · have hwhole : ReadsWhole e ts := h.of_le (Nat.zero_le own)
    rw [Expr.encloseTokens, if_pos (decide_eq_true hneeded)]
    apply (hwhole.parenthesized hne).readsAt
  · rw [Expr.encloseTokens, if_neg (by simpa using hneeded)]
    apply h.of_le (Nat.le_of_not_lt hneeded)

/-- A token that makes an expression out of the operand before it. -/
theorem ReadsOperand.suffix (h : ReadsOperand e ts) (t : Token) (f : Expr → Expr)
    (ht : ∀ g gs, readToken (g :: gs) t = g.put (f g.operand.expr) :: gs)
    (hne : f e ≠ .choice []) (strength : Nat) :
  ReadsAt strength (f e) (Expr.encloseTokens (3 < strength) (ts ++ [t]))
  := by
  have hread : ReadsAt 3 (f e) (ts ++ [t]) := by
    intro g gs hg
    obtain ⟨o, ho, hread⟩ := h g gs hg
    refine ⟨.whole (f e), rfl, ?_⟩
    rw [readTokens_append, hread, readTokens_cons, ht, ho]
    rfl
  apply hread.enclose hne

/-- A token that says what the operand after it is wrapped in. -/
theorem ReadsOperand.signed (h : ReadsOperand e ts) (t : Token) (f : Expr → Expr)
    (ht : ∀ g gs, readToken (g :: gs) t = { g with sign := f } :: gs)
    (hne : f e ≠ .choice []) (strength : Nat) :
  ReadsAt strength (f e) (Expr.encloseTokens (2 < strength) (t :: ts))
  := by
  have hread : ReadsAt 2 (f e) (t :: ts) := by
    intro xs ys gs
    obtain ⟨o, ho, hread⟩ := h { alternatives := xs, items := ys, sign := f } gs rfl
    refine ⟨{ alternatives := xs, items := ys, sign := f, operand := o }, ?_, rfl, ?_⟩
    · rw [readTokens_cons, ht, hread]
    · rw [← ho]
      rfl
  apply hread.enclose hne

end

/-- Letters are added to the operand one after the other. -/
theorem readTokens_letters {cs : List Char} (hcs : ∀ c ∈ cs, isNameChar c = true) (g : Group)
    (gs : List Group) (before : List Char) (hg : g.operand = .letters before) :
  readTokens (g :: gs) (cs.map .plain) = { g with operand := .letters (before ++ cs) } :: gs
  := by
  induction cs generalizing g before with
  | nil =>
      rw [List.append_nil, ← hg]
      rfl
  | cons c cs ih =>
      obtain ⟨hc, hcs⟩ := List.forall_mem_cons.mp hcs
      rw [List.map_cons, readTokens_cons, readToken_letter hc, hg,
        ih hcs _ (before ++ [c]) rfl, List.append_assoc, List.singleton_append]

/-- The letters of the name of a rule are read as a call of the rule. -/
theorem IsRuleName.expr_letters {name : String} (h : IsRuleName name) :
  (Operand.letters name.toList).expr = .rule name
  := by
  have hne : name.toList ≠ [] := by simpa using h.nonempty
  have hother : name.toList ≠ ['E', 'O', 'I'] := by
    intro heq
    apply h.other
    rw [← String.toList_inj, heq]
    decide
  obtain ⟨c, cs, heq⟩ := List.exists_cons_of_ne_nil hne
  rw [heq] at hother
  rw [heq, Operand.expr.eq_2 _ (by simp), if_neg hother, ← heq, String.ofList_toList]

theorem readsOperand_letters {cs : List Char} (hcs : ∀ c ∈ cs, isNameChar c = true) :
  ReadsOperand (Operand.letters cs).expr (cs.map .plain)
  := by
  intro g gs hg
  exact ⟨.letters cs, rfl, readTokens_letters hcs g gs [] hg⟩

namespace Expr

/-- Where the separator leaves a group that is due, expressions with the separator between each two
are added one after the other. -/
theorem adds_intercalate {due : List Expr → Group} {has : Group → List Expr → Prop}
    {sep : List Token}
    (hsep : ∀ g gs before, has g before → readTokens (g :: gs) sep = due before :: gs)
    {strength : Nat} {items : List Expr} (hne : items ≠ [])
    (h : ∀ item ∈ items, Adds due has [item.reduced] (item.tokens strength)) :
  Adds due has (reducedAll items) (sep.intercalate (tokensAll strength items))
  := by
  induction items with
  | nil => exact absurd rfl hne
  | cons item items ih =>
      obtain ⟨hitem, hitems⟩ := List.forall_mem_cons.mp h
      intro before gs
      obtain ⟨g, hread, hg⟩ := hitem before gs
      cases items with
      | nil =>
          refine ⟨g, ?_, hg⟩
          rw [← hread, tokensAll, tokensAll, List.intercalate_singleton]
      | cons second rest =>
          obtain ⟨g', hread', hg'⟩ := ih (by simp) hitems (before ++ [item.reduced]) gs
          rw [List.append_assoc] at hg'
          refine ⟨g', ?_, hg'⟩
          have hsplit : sep.intercalate (tokensAll strength (item :: second :: rest))
              = item.tokens strength ++ sep
                ++ sep.intercalate (tokensAll strength (second :: rest)) :=
            List.intercalate_cons_cons
          rw [hsplit, readTokens_append, readTokens_append, hread, hsep _ _ _ hg, hread']

/-- Items are written with a space between each two. -/
theorem addsItems_intercalate {items : List Expr} (hne : items ≠ [])
    (h : ∀ item ∈ items, AddsItems [item.reduced] (item.tokens 2)) :
  AddsItems (reducedAll items) ([.plain ' '].intercalate (tokensAll 2 items))
  := by
  intro xs
  apply adds_intercalate _ hne fun item hitem => h item hitem xs
  rintro g gs _ ⟨rfl, rfl⟩
  rfl

/-- Alternatives are written with a bar between each two. -/
theorem addsAlternatives_intercalate {items : List Expr} (hne : items ≠ [])
    (h : ∀ item ∈ items, AddsAlternatives [item.reduced] (item.tokens 1)) :
  AddsAlternatives (reducedAll items) ([.bar].intercalate (tokensAll 1 items))
  := by
  apply adds_intercalate _ hne h
  rintro g gs _ rfl
  rfl

/-- The tokens of an expression are read as its reduced form wherever one of the binding strength is
due. -/
theorem reads_tokens {e : Expr} (h : ∀ name ∈ e.refs, IsRuleName name) :
  ∀ strength, ReadsAt strength e.reduced (e.tokens strength)
  := by
  induction e using written_induction with
  | literal text =>
      have hread : ReadsOperand (.literal text) [.literal text] :=
        fun g gs _ => ⟨.whole (.literal text), rfl, rfl⟩
      apply hread.readsAt
  | char cls =>
      have hread : ReadsOperand (.char cls.merged) [.char cls.merged] :=
        fun g gs _ => ⟨.whole (.char cls.merged), rfl, rfl⟩
      apply hread.readsAt
  | any =>
      have hread : ReadsOperand .any [.plain '.'] := fun g gs _ => ⟨.whole .any, rfl, rfl⟩
      apply hread.readsAt
  | endOfInput =>
      have hletters : ['E', 'O', 'I'].all isNameChar = true := by decide
      apply (readsOperand_letters (List.all_eq_true.mp hletters)).readsAt
  | rule name =>
      have hname := h name (List.mem_singleton_self name)
      have hread := readsOperand_letters hname.chars
      rw [hname.expr_letters] at hread
      apply hread.readsAt
  | seqNone =>
      have hread : ReadsOperand (.seq []) [.plain '(', .plain ')'] :=
        fun g gs _ => ⟨.whole (.seq []), rfl, rfl⟩
      apply hread.readsAt
  | choiceNone =>
      -- nothing is read, and an operand that has not been begun is the empty choice
      have hread : ReadsOperand (.choice []) [] :=
        fun g gs hg => ⟨g.operand, by rw [hg]; rfl, rfl⟩
      apply hread.readsAt
  | seqOne item ih | choiceOne item ih =>
      apply ih (forall_refs_of_part h (List.mem_singleton_self item))
  | seqMore first second rest ih =>
      have hitems := addsItems_intercalate (List.cons_ne_nil first (second :: rest))
        fun item hitem => ih item hitem (forall_refs_of_part h hitem) 2
      have hread : ReadsAt 1 (seq (first :: second :: rest)).reduced _ := hitems.addsAlternatives
      apply hread.enclose (by simp [reduced_seq])
  | choiceMore first second rest ih =>
      have halternatives := addsAlternatives_intercalate (List.cons_ne_nil first (second :: rest))
        fun item hitem => ih item hitem (forall_refs_of_part h hitem) 1
      have hread : ReadsAt 0 (choice (first :: second :: rest)).reduced _ :=
        halternatives.readsWhole
      apply hread.enclose (by simp [reduced_choice, reducedAll])
  | star body ih =>
      have hbody : ReadsOperand _ _ := ih h 4
      apply hbody.suffix (.plain '*') .star (fun _ _ => rfl) (by simp)
  | plus body ih =>
      have hbody : ReadsOperand _ _ := ih h 4
      apply hbody.suffix (.plain '+') .plus (fun _ _ => rfl) (by simp)
  | optional body ih =>
      have hbody : ReadsOperand _ _ := ih h 4
      apply hbody.suffix (.plain '?') .optional (fun _ _ => rfl) (by simp)
  | ahead body ih =>
      have hbody : ReadsOperand _ _ := ih h 3
      apply hbody.signed (.plain '&') .ahead (fun _ _ => rfl) (by simp)
  | notAhead body ih =>
      have hbody : ReadsOperand _ _ := ih h 3
      apply hbody.signed (.plain '!') .notAhead (fun _ _ => rfl) (by simp)

/-- Parentheses, predicates and the empty choice are read as they are written. -/
example :
    let e := star (.choice [.literal "a", .seq [.ahead (.plus .any), .choice []]])
    (readTokens [{}] (e.tokens 0)).map Group.value = [e] := rfl

/-! ### Displayed expressions -/

theorem fits_of_isNameChar {c : Char} (h : isNameChar c = true) :
  (Token.plain c).Fits
  := by
  refine ⟨?_, ?_, ?_, ?_⟩ <;>
  · rintro rfl
    cases h

/-- Two expressions are displayed alike exactly where they are equal after the item is put in the
place of every sequence and choice of one item, and the class of letters in the place of the set
that is written like it. -/
theorem toString_eq_iff_reduced_eq {a b : Expr} (ha : ∀ name ∈ a.refs, IsRuleName name)
    (hb : ∀ name ∈ b.refs, IsRuleName name) :
  toString a = toString b ↔ a.reduced = b.reduced
  := by
  have hwrite : toString a = toString b ↔ a.write 0 = b.write 0 := String.ofList_inj
  rw [hwrite]
  constructor
  · intro h
    have hfits {e : Expr} (he : ∀ name ∈ e.refs, IsRuleName name) : ∀ t ∈ e.tokens 0, t.Fits :=
      fits_tokens (fun name hname c hc => fits_of_isNameChar ((he name hname).chars c hc)) 0
    have htokens : a.tokens 0 = b.tokens 0 := by
      apply Token.eq_of_flatMap_write (hfits ha) (hfits hb)
      rw [flatMap_tokens, flatMap_tokens, h]
    obtain ⟨g, hread, hvalue⟩ := reads_tokens ha 0 []
    obtain ⟨g', hread', hvalue'⟩ := reads_tokens hb 0 []
    rw [← htokens, hread] at hread'
    rw [← hvalue, ← hvalue', (List.cons.inj hread').1]
  · intro h
    rw [← write_reduced a, h, write_reduced]

/-- Sequences and choices of one item do not show, and the set that is written like the class of
letters is not told from it; the nesting of sequences shows. -/
theorem display_of_letters :
  toString (seq [choice [rule "Start"], star (.char (.anyOf CharClass.letterName))])
      = toString (seq [rule "Start", seq [star (.char .letter)]])
    ∧ toString (seq [rule "A", seq [rule "B", rule "C"]])
      ≠ toString (seq [rule "A", rule "B", rule "C"])
  := by
  constructor
  · apply (toString_eq_iff_reduced_eq (by decide) (by decide)).mpr
    rfl
  · intro h
    have hreduced := (toString_eq_iff_reduced_eq (by decide) (by decide)).mp h
    simp [reduced, reducedAll] at hreduced

end Expr

end ClassTranscript.Peg
