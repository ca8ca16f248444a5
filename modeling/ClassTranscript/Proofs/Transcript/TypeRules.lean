import ClassTranscript.Proofs.Java.Keywords
import ClassTranscript.Proofs.Language.Rules
import ClassTranscript.Proofs.Peg.Deciding
import ClassTranscript.Proofs.Peg.JustWhere
import ClassTranscript.Proofs.Transcript.Listing.Name

/-!
# Types in transcripts

Transcripts have rules for types of their own, which stay in a line. Where a text has no white space
and no slash, these and the rules of Java match the same (`type_rules_agree`), but for one kind of
type: a name that goes on with a dot behind type arguments. The rule of transcripts stops in front of
that dot.
-/

namespace ClassTranscript.Transcript

open Peg Peg.Expr

/-- There is no white space in the text and no slash. -/
def Unspaced (text : List Char) : Prop :=
  ∀ c ∈ text, c ∉ " \t\r\n\x0c/".toList

/-- The text goes on with a dot and an identifier. -/
def DotName (text : List Char) : Prop :=
  ∃ w rest, text = '.' :: (w ++ rest) ∧ w ≠ [] ∧ String.ofList w ∉ Java.keywords
    ∧ Java.LongestWord w (w ++ rest)

variable {source : String} {s t taken text rest : List Char}

instance (text : List Char) : Decidable (Unspaced text) :=
  text.decidableBAll (· ∉ " \t\r\n\x0c/".toList)

theorem Unspaced.right (h : Unspaced (s ++ t)) :
  Unspaced t
  := fun c hmem => h c (List.mem_append_right s hmem)

theorem Unspaced.clearOf (h : Unspaced s) :
  ClearOf " \t\r\n\x0c/" s
  := fun c hc => h c (List.mem_of_head? hc)

theorem mem_draft {x : Definition} (hx : x ∈ allDefinitions) :
  x ∈ draft.definitions
  := by
  rwa [definitions_draft]

/-! ### Names -/

theorem takes_identifiers (source : String) {w : List Char} (hne : w ≠ [])
    (hnot : String.ofList w ∉ Java.keywords) (hword : Java.LongestWord w (w ++ rest))
    (h : Unspaced rest) :
  Takes draft source (.rule "Identifier") w rest AnyNodes
    ∧ Takes draft source (.rule "JavapIdentifier") w rest AnyNodes
  := by
  have hspacing : Takes draft source (.rule "Spacing") [] rest NoNodes :=
    takes_spacing (n := 0) h.clearOf
  have hinline : Takes draft source (.rule "InlineSpacing") [] rest NoNodes :=
    takes_inlineSpacing (n := 0) (h.clearOf.mono (by decide))
  rw [← List.append_nil w]
  constructor
  · exact (Java.takes_identifier hasRules_draft hne hnot hword hspacing).any
  · exact takes_rule (mem_classHeader 7 rfl)
      (Java.takes_identifierChars hasRules_draft hne hnot hword hinline.last)

/-- At each place both rules of identifiers take the same, or both refuse the text. -/
theorem identifiers_agree (source : String) (h : Unspaced s) :
  (∃ w rest, s = w ++ rest ∧ w ≠ [] ∧ String.ofList w ∉ Java.keywords
      ∧ Java.LongestWord w (w ++ rest)
      ∧ Takes draft source (.rule "Identifier") w rest AnyNodes
      ∧ Takes draft source (.rule "JavapIdentifier") w rest AnyNodes)
    ∨ (∀ w, Java.LongestWord w s → w = [] ∨ String.ofList w ∈ Java.keywords)
      ∧ Refuses draft source (.rule "Identifier") s
      ∧ Refuses draft source (.rule "JavapIdentifier") s
  := by
  obtain ⟨w, hword⟩ := Java.exists_longestWord s
  obtain ⟨rest, rfl⟩ := hword.isPrefix
  by_cases hident : w ≠ [] ∧ String.ofList w ∉ Java.keywords
  · obtain ⟨hne, hnot⟩ := hident
    exact .inl ⟨w, rest, rfl, hne, hnot, hword, takes_identifiers source hne hnot hword h.right⟩
  · rw [not_and_or, not_not, not_not] at hident
    refine .inr ⟨?_, ?_, ?_⟩
    · intro v hv
      rwa [hv.unique hword]
    · exact Java.refuses_identifier hasRules_draft hident hword
    · exact refuses_rule (mem_classHeader 7 rfl) (Java.refuses_identifierChars hasRules_draft hident hword)

theorem refuses_dotName {items : List Expr} (h : s.head? ≠ some '.') :
  Refuses draft source (.seq (.rule "DOT" :: items)) s
  := by
  apply Refuses.seq
  apply refuses_operator (t := ".") (by decide) rfl
  rintro _ hc rfl
  exact h hc

/-- Behind a dot too. -/
theorem dotNames_agree (source : String) (h : Unspaced s) :
  (∃ w rest, s = '.' :: (w ++ rest) ∧ DotName s
      ∧ Takes draft source (.rule "DOT") ['.'] (w ++ rest) NoNodes
      ∧ Takes draft source (.rule "Identifier") w rest AnyNodes
      ∧ Takes draft source (.rule "JavapIdentifier") w rest AnyNodes)
    ∨ ¬ DotName s ∧ ∀ items,
      Refuses draft source (.seq (.rule "DOT" :: .rule "Identifier" :: items)) s
        ∧ Refuses draft source (.seq (.rule "DOT" :: .rule "JavapIdentifier" :: items)) s
  := by
  by_cases hhead : s.head? = some '.'
  · obtain ⟨s, rfl⟩ := List.head?_eq_some_iff.mp hhead
    have hs : Unspaced s := Unspaced.right (s := ['.']) h
    have htakes : Takes draft source (.rule "DOT") ['.'] s NoNodes :=
      takes_mark (t := ".") (by decide) rfl hs.clearOf
    rcases identifiers_agree source hs with ⟨w, rest, rfl, hne, hnot, hword, hboth⟩ | ⟨hnone, hno, hno'⟩
    · exact .inl ⟨w, rest, rfl, ⟨w, rest, rfl, hne, hnot, hword⟩, htakes, hboth⟩
    · refine .inr ⟨?_, fun items => ⟨htakes.refuses_seq hno.seq, htakes.refuses_seq hno'.seq⟩⟩
      rintro ⟨w, rest, heq, hne, hnot, hword⟩
      obtain rfl := (List.cons.inj heq).2
      exact (hnone w hword).elim hne hnot
  · refine .inr ⟨?_, fun items => ⟨refuses_dotName hhead, refuses_dotName hhead⟩⟩
    rintro ⟨w, rest, rfl, -⟩
    exact hhead rfl

theorem refuses_dim (h : ¬ ['[', ']'] <+: s) (hs : Unspaced s) :
  Refuses draft source (.rule "Dim") s
  := by
  apply refuses_rule (mem_typeNames 12 rfl)
  by_cases hhead : s.head? = some '['
  · obtain ⟨tail, rfl⟩ := List.head?_eq_some_iff.mp hhead
    have htail : Unspaced tail := hs.right (s := ['['])
    have hfirst : Takes draft source (.rule "LBRK") ['['] tail NoNodes :=
      takes_mark (t := "[") (by decide) rfl htail.clearOf
    apply hfirst.refuses_seq
    apply Refuses.seq
    apply refuses_operator (t := "]") (by decide) rfl
    rintro _ hc rfl
    obtain ⟨more, rfl⟩ := List.head?_eq_some_iff.mp hc
    exact h ⟨more, rfl⟩
  · apply Refuses.seq
    apply refuses_operator (t := "[") (by decide) rfl
    rintro _ hc rfl
    exact hhead hc

/-- Dimensions end in a bracket, if there are any. -/
theorem exists_dims (source : String) (h : Unspaced s) :
  ∃ dims rest, s = dims ++ rest ∧ Takes draft source (.star (.rule "Dim")) dims rest AnyNodes
    ∧ (dims = [] ∨ dims.getLast? = some ']')
  := by
  induction hn : s.length using Nat.strong_induction_on generalizing s with
  | _ n ih =>
      by_cases hpair : ['[', ']'] <+: s
      · obtain ⟨tail, rfl⟩ := hpair
        obtain ⟨dims, rest, rfl, hstar, hlast⟩ :=
          ih tail.length (by simp at hn; omega) h.right rfl
        have hfirst : Takes draft source (.rule "LBRK") ['['] ([']'] ++ (dims ++ rest)) NoNodes :=
          takes_mark (t := "[") (by decide) rfl (h.right (s := ['['])).clearOf
        have hsecond : Takes draft source (.rule "RBRK") [']'] (dims ++ rest) NoNodes :=
          takes_mark (t := "]") (by decide) rfl h.right.clearOf
        have hdim : Takes draft source (.rule "Dim") ['[', ']'] (dims ++ rest) AnyNodes :=
          takes_rule (mem_typeNames 12 rfl) (hfirst.skip hsecond.last)
        refine ⟨['[', ']'] ++ dims, rest, (List.append_assoc _ _ _).symm, (hdim.star hstar).any,
          .inr ?_⟩
        rw [List.getLast?_append]
        rcases hlast with rfl | hlast
        · rfl
        · rw [hlast]
          rfl
      · exact ⟨[], s, rfl, (takes_star_nil (refuses_dim hpair h)).any, .inl rfl⟩

/-! ### Type arguments -/

theorem refuses_typeArguments (h : s.head? ≠ some '<') :
  Refuses draft source (.rule "TypeArguments") s
  := by
  apply refuses_rule (mem_typeNames 4 rfl)
  apply Refuses.seq
  apply refuses_operator (t := "<") (by decide) rfl
  rintro _ hc rfl
  exact h hc

/-- A match that ends with an operator ends behind the text of it. -/
theorem exists_front_of_sign (name text : String) (items : List Expr) {here stop : Cursor}
    {nodes : List Node} (hop : (name, text, "") ∈ Java.operators)
    (hhere : (Cursor.atStart source).Reaches here) (h : Unspaced here.rest)
    (hgrows : Grows draft (.seq (items ++ [.rule name])) here stop nodes) :
  ∃ front, here.rest = front ++ text.toList ++ stop.rest
  := by
  have hx : Java.operatorRule (name, text, "") ∈ draft.definitions := 
    mem_draft (mem_operatorRules hop)
  obtain ⟨mid, _, _, -, hfront, hlast⟩ := hgrows.of_seq_append
  obtain ⟨_, _, _, -, hsign, hnil⟩ := hlast.of_seq_cons
  obtain ⟨rfl, -⟩ := hnil.of_seq_nil
  obtain ⟨_, _, -, -, hbody⟩ := Grows.of_rule nodup_draft hx hsign
  obtain ⟨there, hpasses, hspacing⟩ := Grows.of_seq_literal hbody
  obtain ⟨front, hpassed, -⟩ := hfront.reaches
  refine ⟨front, ?_⟩
  rw [hpassed, hpasses.1, ← List.append_assoc] at h ⊢
  -- no spacing is taken behind the text
  obtain ⟨_, hnothing, -⟩ := (takes_spacing (n := 0) h.right.clearOf).last there
    (hhere.trans (hfront.reaches.trans hpasses.reaches)) rfl
  obtain rfl := (hspacing.unique hnothing).1
  rfl

/-- Type arguments end in an angle bracket, if there are any. -/
theorem exists_typeArguments (source : String) (h : Unspaced s) :
  ∃ t rest, s = t ++ rest
    ∧ Takes draft source (.optional (.rule "TypeArguments")) t rest AnyNodes
    ∧ (t = [] ∨ t.getLast? = some '>')
  := by
  have hx : Java.typeNames[4] ∈ draft.definitions := mem_draft (mem_typeNames 4 rfl)
  rcases takes_or_refuses build_draft nodup_draft hx s with ⟨t, rest, rfl, htakes⟩ | hrefuses
  · refine ⟨t, rest, rfl, (htakes source).optional, .inr ?_⟩
    have hstart : (Cursor.atStart (String.ofList (t ++ rest))).rest = t ++ rest := String.toList_ofList
    obtain ⟨_, hgrows, -⟩ := htakes _ _ (.refl _) hstart
    obtain ⟨_, _, -, -, hbody⟩ := hgrows.of_rule nodup_draft hx
    obtain ⟨front, hfront⟩ := exists_front_of_sign "RPOINT" ">" [.rule "LPOINT", .rule "TypeArgument", _]
      (by simp [Java.operators]) (.refl _) (by rwa [hstart]) hbody
    rw [hstart] at hfront
    obtain rfl := List.append_cancel_right hfront
    simp
  · exact ⟨[], s, rfl, (takes_optional_nil (hrefuses source)).any, .inl rfl⟩

/-- What a type of Java goes on with: a name that can have type arguments. -/
def argumentedName : Expr :=
  .seq [.rule "DOT", .rule "Identifier", .optional (.rule "TypeArguments")]

theorem takes_argumentedName {w : List Char}
    (hdot : Takes draft source (.rule "DOT") ['.'] (w ++ (t ++ rest)) NoNodes)
    (hident : Takes draft source (.rule "Identifier") w (t ++ rest) AnyNodes)
    (harguments : Takes draft source (.optional (.rule "TypeArguments")) t rest AnyNodes) :
  Takes draft source argumentedName (['.'] ++ (w ++ t)) rest AnyNodes
  := by
  rw [← List.append_assoc] at hdot
  exact (hdot.skip (hident.seq harguments.last)).any

/-- A type of Java goes on just where a dot and an identifier follow. -/
theorem exists_argumentedNames (source : String) (h : Unspaced s) :
  ∃ more rest, s = more ++ rest ∧ Takes draft source (.star argumentedName) more rest AnyNodes
    ∧ (more = [] ↔ ¬ DotName s)
  := by
  induction hn : s.length using Nat.strong_induction_on generalizing s with
  | _ n ih =>
      rcases dotNames_agree source h with ⟨w, tail, rfl, hname, hdot, hident, -⟩ | ⟨hnone, hno⟩
      · have htail : Unspaced tail := h.right (s := '.' :: w)
        obtain ⟨t, tail, rfl, harguments, -⟩ := exists_typeArguments source htail
        obtain ⟨more, rest, rfl, hmore, -⟩ :=
          ih tail.length (by simp at hn; omega) htail.right rfl
        refine ⟨['.'] ++ (w ++ t) ++ more, rest, by simp,
          ((takes_argumentedName hdot hident harguments).star hmore).any, ?_⟩
        simpa using hname
      · exact ⟨[], s, rfl, (takes_star_nil (hno _).1).any, by simpa using hnone⟩

/-- What a type goes on with behind its first identifier. The rule of transcripts takes names and
type arguments. The rule of Java takes these and what a name behind the arguments goes on with, which
it splits at the first arguments that it takes. -/
theorem exists_names (source : String) (h : Unspaced s) :
  ∃ names t more rest, s = names ++ (t ++ (more ++ rest))
    ∧ Takes draft source (.star (.seq [.rule "DOT", .rule "JavapIdentifier"])) names
        (t ++ (more ++ rest)) AnyNodes
    ∧ Takes draft source (.optional (.rule "TypeArguments")) t (more ++ rest) AnyNodes
    ∧ (∃ first others, names ++ (t ++ more) = first ++ others
      ∧ Takes draft source (.optional (.rule "TypeArguments")) first (others ++ rest) AnyNodes
      ∧ Takes draft source (.star argumentedName) others rest AnyNodes)
    ∧ (t = [] ∧ more = [] ∨ t.getLast? = some '>')
    ∧ (more = [] ↔ ¬ DotName (more ++ rest))
  := by
  induction hn : s.length using Nat.strong_induction_on generalizing s with
  | _ n ih =>
      rcases dotNames_agree source h with
        ⟨w, tail, rfl, -, hdot, hident, hident'⟩ | ⟨hnone, hno⟩
      · have htail : Unspaced tail := h.right (s := '.' :: w)
        obtain ⟨names, t, more, rest, rfl, hnames, harguments, ⟨first, others, heq, hfirst, hothers⟩,
          hrest⟩ := ih tail.length (by simp at hn; omega) htail rfl
        have hbehind : names ++ (t ++ (more ++ rest)) = first ++ (others ++ rest) := by
          rw [← List.append_assoc first, ← heq]
          simp
        refine ⟨['.'] ++ w ++ names, t, more, rest, by simp, ?_, harguments,
          ⟨[], ['.'] ++ (w ++ first) ++ others, by simpa using heq, ?_, ?_⟩, hrest⟩
        · exact ((hdot.skip hident'.last).star hnames).any
        · exact (takes_optional_nil (refuses_typeArguments (by simp))).any
        · rw [hbehind] at hdot hident
          exact ((takes_argumentedName hdot hident hfirst).star hothers).any
      · obtain ⟨t, tail, rfl, harguments, hlast⟩ := exists_typeArguments source h
        obtain ⟨more, rest, rfl, hmore, hiff⟩ := exists_argumentedNames source h.right
        refine ⟨[], t, more, rest, rfl, (takes_star_nil (hno []).2).any, harguments,
          ⟨t, more, rfl, harguments, hmore⟩, ?_, hiff⟩
        refine hlast.imp_left fun ht => ⟨ht, ?_⟩
        rw [hiff]
        simpa [ht] using hnone

/-! ### Class types -/

theorem takes_javapClassType {w names : List Char}
    (hident : Takes draft source (.rule "JavapIdentifier") w (names ++ (t ++ rest)) AnyNodes)
    (hnames : Takes draft source (.star (.seq [.rule "DOT", .rule "JavapIdentifier"])) names
      (t ++ rest) AnyNodes)
    (harguments : Takes draft source (.optional (.rule "TypeArguments")) t rest AnyNodes) :
  Takes draft source (.rule "JavapClassType") (w ++ names ++ t) rest AnyNodes
  := by
  have hname : Takes draft source (.rule "JavapQualifiedIdentifier") (w ++ names) (t ++ rest)
      AnyNodes :=
    takes_rule (mem_classHeader 6 rfl) (hident.seq hnames.last)
  exact takes_rule (mem_classHeader 5 rfl)
    (hname.seq harguments.last)

theorem refuses_javapClassType (h : Refuses draft source (.rule "JavapIdentifier") s) :
  Refuses draft source (.rule "JavapClassType") s
  := by
  have hname : Refuses draft source (.rule "JavapQualifiedIdentifier") s :=
    refuses_rule (mem_classHeader 6 rfl) h.seq
  exact refuses_rule (mem_classHeader 5 rfl) hname.seq

theorem takes_classType {w names : List Char}
    (hident : Takes draft source (.rule "Identifier") w (names ++ rest) AnyNodes)
    (hnames : Takes draft source (.seq [.optional (.rule "TypeArguments"), .star argumentedName])
      names rest AnyNodes) :
  Takes draft source (.rule "ClassType") (w ++ names) rest AnyNodes
  := takes_rule (mem_typeNames 2 rfl) (hident.seq hnames)

/-- A class type, for both rules. -/
theorem classTypes_agree (source : String) (h : Unspaced s) :
  (∃ taken more rest, s = taken ++ (more ++ rest)
      ∧ Takes draft source (.rule "JavapClassType") taken (more ++ rest) AnyNodes
      ∧ Takes draft source (.rule "ClassType") (taken ++ more) rest AnyNodes
      ∧ (more ≠ [] → taken.getLast? = some '>')
      ∧ (more = [] ↔ ¬ DotName (more ++ rest)))
    ∨ Refuses draft source (.rule "JavapClassType") s ∧ Refuses draft source (.rule "ClassType") s
  := by
  rcases identifiers_agree source h with
    ⟨w, tail, rfl, -, -, -, hident, hident'⟩ | ⟨-, hno, hno'⟩
  · obtain ⟨names, t, more, rest, rfl, hnames, harguments, ⟨first, others, heq, hfirst, hothers⟩,
      hlast, hmore⟩ := exists_names source h.right
    refine .inl ⟨w ++ names ++ t, more, rest, by simp,
      takes_javapClassType hident' hnames harguments, ?_, ?_, hmore⟩
    · rw [List.append_assoc, List.append_assoc]
      apply takes_classType (by simpa using hident)
      rw [heq]
      exact (hfirst.seq hothers.last).any
    · intro hne
      rcases hlast with ⟨-, hnil⟩ | hlast
      · exact absurd hnil hne
      · rw [List.getLast?_append, hlast]
        rfl
  · exact .inr ⟨refuses_javapClassType hno',
      refuses_rule (mem_typeNames 2 rfl) hno.seq⟩

/-! ### Types -/

/-- A type in the rules of both: a basic type or one of a rule for class types, and dimensions. -/
def typeOf (classType : String) : Expr :=
  .seq [.choice (rules ["BasicType", classType]), .star (.rule "Dim")]

theorem takes_typeOf {classType : String} {dims : List Char}
    (hno : Refuses draft source (.rule "BasicType") (taken ++ (dims ++ rest)))
    (hclass : Takes draft source (.rule classType) taken (dims ++ rest) AnyNodes)
    (hdims : Takes draft source (.star (.rule "Dim")) dims rest AnyNodes) :
  Takes draft source (typeOf classType) (taken ++ dims) rest (Both AnyNodes AnyNodes)
  := (Takes.choice_next hno hclass.choice).seq hdims.last

theorem refuses_typeOf {classType : String} (hno : Refuses draft source (.rule "BasicType") s)
    (hclass : Refuses draft source (.rule classType) s) :
  Refuses draft source (typeOf classType) s
  := (hno.choice (hclass.choice refuses_choice_nil)).seq

theorem takes_javapType {p : List Node → Prop}
    (h : Takes draft source (typeOf "JavapClassType") s rest p) :
  Takes draft source (.rule "JavapType") s rest AnyNodes
  := takes_rule (mem_members 9 rfl) h

theorem takes_type {p : List Node → Prop} (h : Takes draft source (typeOf "ClassType") s rest p) :
  Takes draft source (.rule "Type") s rest AnyNodes
  := takes_rule (mem_typeNames 0 rfl) h

/-- A basic type and its dimensions, for both rules. -/
theorem basicTypes_agree (source : String) {w : List Char} (hbasic : String.ofList w ∈ Java.basicTypes)
    (hword : Java.LongestWord w s) (h : Unspaced s) :
  ∃ taken rest, s = taken ++ rest
    ∧ (∀ classType, Takes draft source (typeOf classType) taken rest AnyNodes)
    ∧ taken.getLast? ≠ some '>'
  := by
  obtain ⟨tail, rfl⟩ := hword.isPrefix
  obtain ⟨dims, rest, rfl, hdims, hbracket⟩ := exists_dims source h.right
  have htakes : Takes draft source (.rule "BasicType") (w ++ []) (dims ++ rest) AnyNodes :=
    Java.takes_basicType hasRules_draft hbasic hword (takes_spacing (n := 0) h.right.clearOf)
  rw [List.append_nil] at htakes
  refine ⟨w ++ dims, rest, (List.append_assoc _ _ _).symm,
    fun classType => (htakes.choice.seq hdims.last).any, ?_⟩
  rw [List.getLast?_append]
  rcases hbracket with rfl | hbracket
  · have hlast : ∀ word ∈ Java.basicTypes, word.toList.getLast? ≠ some '>' := by
      decide
    simpa using hlast _ hbasic
  · simp [hbracket]

/-- A type, for both rules. -/
theorem types_agree (source : String) (h : Unspaced s) :
  (∃ taken more rest, s = taken ++ (more ++ rest)
      ∧ Takes draft source (.rule "JavapType") taken (more ++ rest) AnyNodes
      ∧ Takes draft source (.rule "Type") (taken ++ more) rest AnyNodes
      ∧ (more = [] ↔ ¬ (taken.getLast? = some '>' ∧ DotName (more ++ rest))))
    ∨ Refuses draft source (.rule "JavapType") s ∧ Refuses draft source (.rule "Type") s
  := by
  obtain ⟨w, hword⟩ := Java.exists_longestWord s
  by_cases hbasic : String.ofList w ∈ Java.basicTypes
  · obtain ⟨taken, rest, rfl, htakes, hlast⟩ := basicTypes_agree source hbasic hword h
    refine .inl ⟨taken, [], rest, rfl, takes_javapType (htakes _), ?_, by simp [hlast]⟩
    rw [List.append_nil]
    exact takes_type (htakes _)
  have hno : Refuses draft source (.rule "BasicType") s :=
    Java.refuses_basicType hasRules_draft hbasic hword
  rcases classTypes_agree source h with
    ⟨taken, more, tail, rfl, hclass, hclass', hlast, hmore⟩ | ⟨hnone, hnone'⟩
  · obtain ⟨dims, rest, rfl, hdims, hbracket⟩ := exists_dims source h.right.right
    have htype : Takes draft source (.rule "Type") (taken ++ more ++ dims) rest AnyNodes :=
      takes_type (takes_typeOf (by simpa using hno) hclass' hdims)
    by_cases hnil : more = []
    · -- both rules take the dimensions
      subst hnil
      refine .inl ⟨taken ++ dims, [], rest, by simp, ?_, by simpa using htype, ?_⟩
      · exact takes_javapType (takes_typeOf hno hclass hdims)
      · refine iff_of_true rfl ?_
        rintro ⟨hangle, hname⟩
        rcases hbracket with rfl | hbracket
        · exact hmore.mp rfl hname
        · rw [List.getLast?_append, hbracket] at hangle
          cases hangle
    · -- a name follows the arguments, and no dimensions stand in front of its dot
      refine .inl ⟨taken, more ++ dims, rest, by simp, ?_, by simpa using htype, ?_⟩
      · rw [← List.append_nil taken]
        refine takes_javapType (takes_typeOf (by simpa using hno) (by simpa using hclass)
          (takes_star_nil (refuses_dim ?_ ?_)).any)
        · obtain ⟨w, tail, hdot, -⟩ := not_not.mp (mt hmore.mpr hnil)
          rw [List.append_assoc, hdot]
          rintro ⟨_, hopen⟩
          cases hopen
        · rw [List.append_assoc]
          exact h.right
      · refine iff_of_false (by simp [hnil]) (not_not.mpr ⟨hlast hnil, ?_⟩)
        rw [List.append_assoc]
        exact not_not.mp (mt hmore.mpr hnil)
  · exact .inr
      ⟨refuses_rule (mem_members 9 rfl)
        (refuses_typeOf hno hnone),
       refuses_rule (mem_typeNames 0 rfl) (refuses_typeOf hno hnone')⟩

/-- Where a text has no white space and no slash, the rule of types in transcripts matches just
where that of Java does, and as far, unless a dot and an identifier follow type arguments: then the
rule of Java goes on. -/
theorem type_rules_agree {text : String} (h : Unspaced text.toList) :
  ∃ p taken more rest, text.toList = taken ++ (more ++ rest)
    ∧ grammar.MatchesJust "JavapType" text p taken
    ∧ grammar.MatchesJust "Type" text p (taken ++ more)
    ∧ (more = [] ↔ ¬ (taken.getLast? = some '>' ∧ DotName (more ++ rest)))
  := by
  have hline {p : Prop} {taken rest : List Char} (htext : text.toList = taken ++ rest)
      (htakes : p → Takes draft text (.rule "JavapType") taken rest AnyNodes)
      (hrefuses : ¬ p → Refuses draft text (.rule "JavapType") (taken ++ rest)) :
      grammar.MatchesJust "JavapType" text p taken :=
    matchesJust_of_takes build_draft nodup_draft (mem_draft (mem_members 9 rfl)) htext htakes
      hrefuses
  have hjava {p : Prop} {taken rest : List Char} (htext : text.toList = taken ++ rest)
      (htakes : p → Takes draft text (.rule "Type") taken rest AnyNodes)
      (hrefuses : ¬ p → Refuses draft text (.rule "Type") (taken ++ rest)) :
      grammar.MatchesJust "Type" text p taken :=
    matchesJust_of_takes build_draft nodup_draft (mem_draft (mem_typeNames 0 rfl)) htext htakes
      hrefuses
  rcases types_agree text h with ⟨taken, more, rest, htext, htakes, htakes', hmore⟩ | ⟨hno, hno'⟩
  · refine ⟨True, taken, more, rest, htext, ?_, ?_, hmore⟩
    · exact hline htext (fun _ => htakes) (absurd trivial)
    · rw [← List.append_assoc] at htext
      exact hjava htext (fun _ => htakes') (absurd trivial)
  · refine ⟨False, [], [], text.toList, rfl, ?_, ?_, by simp⟩
    · exact hline rfl False.elim (fun _ => hno)
    · exact hjava rfl False.elim (fun _ => hno')

theorem type_rules_agree_array :
  Unspaced "a.b<c>[]".toList ∧ ∃ p taken more rest, "a.b<c>[]".toList = taken ++ (more ++ rest)
    ∧ grammar.MatchesJust "JavapType" "a.b<c>[]" p taken
    ∧ grammar.MatchesJust "Type" "a.b<c>[]" p (taken ++ more)
    ∧ (more = [] ↔ ¬ (taken.getLast? = some '>' ∧ DotName (more ++ rest)))
  := ⟨by decide, type_rules_agree (by decide)⟩

/-! ### A name behind type arguments -/

/-- An identifier alone is a type argument. -/
theorem takes_typeArguments {w : List Char} (hne : w ≠ []) (hnot : String.ofList w ∉ Java.keywords)
    (hbasic : String.ofList w ∉ Java.basicTypes) (h : Java.LongestWord w (w ++ ('>' :: rest)))
    (hs : Unspaced (w ++ ('>' :: rest))) :
  Takes draft source (.rule "TypeArguments") (['<'] ++ (w ++ ['>'])) rest AnyNodes
  := by
  have hopen : Takes draft source (.rule "LPOINT") ['<'] (w ++ ['>'] ++ rest) NoNodes :=
    takes_mark (t := "<") (by decide) rfl (by simpa using hs.clearOf)
  have hclose : Takes draft source (.rule "RPOINT") ['>'] rest NoNodes :=
    takes_mark (t := ">") (by decide) rfl (Unspaced.right (s := ['>']) hs.right).clearOf
  have hdim : Refuses draft source (.rule "Dim") ('>' :: rest) := by
    apply refuses_dim _ hs.right
    rintro ⟨_, hbracket⟩
    cases hbracket
  have hcomma : Refuses draft source (.rule "COMMA") ('>' :: rest) := by
    apply refuses_operator (t := ",") (by decide) rfl
    rintro _ ⟨⟩
    decide
  have hclass : Takes draft source (.rule "ClassType") w ('>' :: rest) AnyNodes := by
    rw [← List.append_nil w]
    apply takes_classType (takes_identifiers source hne hnot h hs.right).1
    exact ((takes_optional_nil (refuses_typeArguments (by simp))).seq_nothing
      (takes_star_nil (refuses_dotName (by simp))).last).any
  have hreference : Takes draft source (.rule "ReferenceType") w ('>' :: rest) AnyNodes :=
    takes_rule (mem_typeNames 1 rfl)
      (.choice_next (Java.refuses_basicType hasRules_draft hbasic h).seq
        (hclass.seq_nothing (takes_star_nil hdim).last).choice)
  have hargument : Takes draft source (.rule "TypeArgument") w (['>'] ++ rest) AnyNodes :=
    takes_rule (mem_typeNames 5 rfl) hreference.choice
  have hrest : Takes draft source
      (.seq [.star (.seq [.rule "COMMA", .rule "TypeArgument"]), .rule "RPOINT"]) ['>'] rest NoNodes :=
    (takes_star_nil hcomma.seq).skip hclose.last
  exact takes_rule (mem_typeNames 4 rfl)
    (hopen.skip (hargument.seq hrest))

/-- A name behind type arguments is taken by the rule of Java alone. -/
theorem takes_nameBehindArguments (source : String) :
  Takes draft source (.rule "JavapType") "a<b>".toList ".c".toList AnyNodes
    ∧ Takes draft source (.rule "Type") "a<b>.c".toList [] AnyNodes
  := by
  have hword {c : Char} {rest : List Char} (hsmall : 'a' ≤ c ∧ c ≤ 'z') (hrest : Bare rest) :
      Java.LongestWord [c] ([c] ++ rest) :=
    Java.longestWord_of_noUnit (Java.isWord_of_smallLetters (by simpa using hsmall))
      (Java.noUnit_of_head fun c hc => (hrest c hc).symm)
  have ha : Java.LongestWord ['a'] "a<b>.c".toList := hword (by decide) (bare_cons (by decide))
  have hb : Java.LongestWord ['b'] "b>.c".toList := by
    apply hword (by decide)
    rintro _ ⟨⟩
    decide
  have hc : Java.LongestWord ['c'] "c".toList := hword (by decide) bare_nil
  have hno : Refuses draft source (.rule "BasicType") "a<b>.c".toList :=
    Java.refuses_basicType hasRules_draft (by decide) ha
  have htail : Unspaced "<b>.c".toList := by decide
  obtain ⟨hjava, hline⟩ := takes_identifiers source (w := ['a']) (by decide) (by decide) ha htail
  have harguments : Takes draft source (.optional (.rule "TypeArguments")) "<b>".toList ".c".toList
      AnyNodes :=
    (takes_typeArguments (w := ['b']) (by decide) (by decide) (by decide) hb (by decide)).optional
  constructor
  · have hclass : Takes draft source (.rule "JavapClassType") "a<b>".toList ".c".toList AnyNodes :=
      takes_javapClassType hline (takes_star_nil (refuses_dotName (by simp))).any harguments
    have hdim : Refuses draft source (.rule "Dim") ".c".toList := refuses_dim (by decide) (by decide)
    exact takes_javapType (takes_typeOf hno hclass (takes_star_nil hdim).any)
  · have hdot : Takes draft source (.rule "DOT") ['.'] ['c'] NoNodes :=
      takes_mark (t := ".") (by decide) rfl (clearOf_cons.mpr (by decide))
    have hname : Takes draft source (.rule "Identifier") ['c'] [] AnyNodes :=
      (takes_identifiers source (by decide) (by decide) hc (by decide)).1
    have hround : Takes draft source argumentedName (['.'] ++ (['c'] ++ [])) [] AnyNodes :=
      takes_argumentedName hdot hname (takes_optional_nil (refuses_typeArguments (by simp))).any
    have hnames : Takes draft source (.star argumentedName) ".c".toList [] AnyNodes :=
      hround.star_last (refuses_dotName (by simp))
    have hclass : Takes draft source (.rule "ClassType") "a<b>.c".toList [] AnyNodes :=
      takes_classType hjava (harguments.seq hnames.last).any
    have hdim : Refuses draft source (.rule "Dim") [] := refuses_dim (by decide) (by decide)
    exact takes_type (takes_typeOf hno hclass (takes_star_nil hdim).any)

theorem types_differ_behind_arguments :
  Unspaced "a<b>.c".toList ∧ ∃ o line java tree stats log tree' stats' log',
    grammar.ruleId? "JavapType" = some line ∧ grammar.ruleId? "Type" = some java
      ∧ parse? grammar o line "a<b>.c" = some (.matched tree stats, log) ∧ tree.stop = 4
      ∧ parse? grammar o java "a<b>.c" = some (.matched tree' stats', log') ∧ tree'.stop = 6
  := by
  use by decide
  obtain ⟨htakes, htakes'⟩ := takes_nameBehindArguments "a<b>.c"
  obtain ⟨line, hline, n, hn⟩ := exists_matched_of_takes build_draft nodup_draft
    (mem_draft (mem_members 9 rfl)) rfl htakes
  obtain ⟨java, hjava, m, hm⟩ := exists_matched_of_takes build_draft nodup_draft
    (mem_draft (mem_typeNames 0 rfl)) (List.append_nil _).symm htakes'
  obtain ⟨tree, stats, log, hparse, hstop⟩ := hn { limits := ⟨max n m, max n m, max n m⟩ }
    (Nat.le_max_left n m) (Nat.le_max_left n m) (Nat.le_max_left n m)
  obtain ⟨tree', stats', log', hparse', hstop'⟩ := hm { limits := ⟨max n m, max n m, max n m⟩ }
    (Nat.le_max_right n m) (Nat.le_max_right n m) (Nat.le_max_right n m)
  exact ⟨_, line, java, tree, stats, log, tree', stats', log', hline, hjava, hparse, hstop, hparse',
    hstop'⟩

end ClassTranscript.Transcript
