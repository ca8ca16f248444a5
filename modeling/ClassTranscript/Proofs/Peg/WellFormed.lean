import ClassTranscript.Proofs.Peg.Cycle
import ClassTranscript.Proofs.Peg.TreeShape

/-!
# Well-formed definitions

What it takes for definitions to make a grammar, said of their bodies as they are written. An
expression is `Nullable` when it may succeed without consuming input, `RepeatsNullable` when it has
a repetition of a nullable expression in it, and `Leads` to the rules that it may call before it
consumes input; none of the three depends on how they are computed. `WellFormed xs root` lists the
conditions on definitions, and `FirstFailure xs root e` says that `e` reports the first of them that
is not met.
-/

namespace ClassTranscript.Peg

open Relation

/-- The first item of a list of which `p` holds. -/
def First {α : Type} (p : α → Prop) (xs : List α) (x : α) : Prop :=
  ∃ before after, xs = before ++ x :: after ∧ p x ∧ ∀ y ∈ before, ¬ p y

namespace First

variable {α β : Type} {xs before after : List α} {x : α}

theorem mem {p : α → Prop} (h : First p xs x) :
  x ∈ xs ∧ p x
  := by
  obtain ⟨before, after, rfl, hx, -⟩ := h
  exact ⟨by simp, hx⟩

theorem of_find? {p : α → Bool} (h : xs.find? p = some x) :
  First (p · = true) xs x
  := by
  obtain ⟨hx, before, after, hsplit, hbefore⟩ := List.find?_eq_some_iff_append.mp h
  exact ⟨before, after, hsplit, hx, by simpa using hbefore⟩

theorem of_getElem? {p : α → Prop} {i : Nat} (hi : xs[i]? = some x) (hx : p x)
    (hbefore : ∀ j < i, ∀ y, xs[j]? = some y → ¬ p y) :
  First p xs x
  := by
  obtain ⟨hlt, rfl⟩ := List.getElem?_eq_some_iff.mp hi
  refine ⟨xs.take i, xs.drop (i + 1), ?_, hx, ?_⟩
  · rw [← List.drop_eq_getElem_cons hlt, List.take_append_drop]
  · intro y hy
    obtain ⟨j, hj, rfl⟩ := List.mem_take_iff_getElem.mp hy
    apply hbefore j (by omega)
    apply List.getElem?_eq_getElem

theorem map {p : α → Prop} {q : β → Prop} {f : α → β} (h : First p xs x)
    (hf : ∀ x ∈ xs, p x ↔ q (f x)) :
  First q (xs.map f) (f x)
  := by
  obtain ⟨before, after, rfl, hx, hbefore⟩ := h
  refine ⟨before.map f, after.map f, by simp, (hf x (by simp)).mp hx, ?_⟩
  intro y hy
  obtain ⟨z, hz, rfl⟩ := List.mem_map.mp hy
  rw [← hf z (by simp [hz])]
  apply hbefore z hz

/-- The first one of lists that are joined. -/
theorem flatMap {p : β → Prop} {f : α → List β} {y : β}
    (hbefore : ∀ x ∈ before, ∀ y ∈ f x, ¬ p y) (h : First p (f x) y) :
  First p ((before ++ x :: after).flatMap f) y
  := by
  obtain ⟨front, back, hsplit, hy, hfront⟩ := h
  refine ⟨before.flatMap f ++ front, back ++ after.flatMap f, ?_, hy, ?_⟩
  · simp [hsplit]
  · intro z hz
    obtain hz | hz := List.mem_append.mp hz
    · obtain ⟨w, hw, hz⟩ := List.mem_flatMap.mp hz
      apply hbefore w hw z hz
    · apply hfront z hz

end First

/-! ### Expressions -/

namespace Expr

/-- The expressions that an expression is directly composed of. -/
def parts : Expr → List Expr
  | .literal _ | .char _ | .any | .endOfInput | .rule _ => []
  | .seq items => items
  | .choice alternatives => alternatives
  | .star body | .plus body | .optional body | .ahead body | .notAhead body => [body]

/-- An expression may succeed without consuming input, by finitely many steps. -/
inductive Nullable (bodyOf : String → Option Expr) : Expr → Prop where
  | empty : Nullable bodyOf (.literal "")
  | endOfInput : Nullable bodyOf .endOfInput
  | seq {items : List Expr} :
    (∀ item ∈ items, Nullable bodyOf item) → Nullable bodyOf (.seq items)
  | choice {alternatives : List Expr} {e : Expr} :
    e ∈ alternatives → Nullable bodyOf e → Nullable bodyOf (.choice alternatives)
  | star {body : Expr} : Nullable bodyOf (.star body)
  | plus {body : Expr} : Nullable bodyOf body → Nullable bodyOf (.plus body)
  | optional {body : Expr} : Nullable bodyOf (.optional body)
  | ahead {body : Expr} : Nullable bodyOf (.ahead body)
  | notAhead {body : Expr} : Nullable bodyOf (.notAhead body)
  | rule {name : String} {body : Expr} :
    bodyOf name = some body → Nullable bodyOf body → Nullable bodyOf (.rule name)

/-- An expression has a repetition of a nullable expression in it. -/
inductive RepeatsNullable (bodyOf : String → Option Expr) : Expr → Prop where
  | star {body : Expr} : Nullable bodyOf body → RepeatsNullable bodyOf (.star body)
  | plus {body : Expr} : Nullable bodyOf body → RepeatsNullable bodyOf (.plus body)
  | inside {e part : Expr} :
    part ∈ e.parts → RepeatsNullable bodyOf part → RepeatsNullable bodyOf e

/-- An expression may call a rule before it consumes input: the items of a sequence that come before
the call are nullable. An operator with one operand leads to what the operand does. -/
inductive Leads (bodyOf : String → Option Expr) : Expr → String → Prop where
  | rule {name : String} : Leads bodyOf (.rule name) name
  | seq {before after : List Expr} {e : Expr} {name : String} :
    (∀ item ∈ before, Nullable bodyOf item) → Leads bodyOf e name →
    Leads bodyOf (.seq (before ++ e :: after)) name
  | choice {alternatives : List Expr} {e : Expr} {name : String} :
    e ∈ alternatives → Leads bodyOf e name → Leads bodyOf (.choice alternatives) name
  | operand {e body : Expr} {name : String} :
    e.parts = [body] → Leads bodyOf body name → Leads bodyOf e name

/-- What holds of every expression of whose parts it holds, holds of all expressions. -/
theorem parts_induction {P : Expr → Prop} (h : ∀ e, (∀ part ∈ e.parts, P part) → P e) (e : Expr) :
  P e
  := by
  apply h
  intro part hpart
  have hlt : sizeOf part < sizeOf e := by
    cases e with
    | literal | char | any | endOfInput | rule => cases hpart
    | seq items | choice items =>
        have hmem := List.sizeOf_lt_of_mem (show part ∈ items from hpart)
        simp only [seq.sizeOf_spec, choice.sizeOf_spec]
        omega
    | star body | plus body | optional body | ahead body | notAhead body =>
        obtain rfl := List.mem_singleton.mp hpart
        simp only [star.sizeOf_spec, plus.sizeOf_spec, optional.sizeOf_spec, ahead.sizeOf_spec,
          notAhead.sizeOf_spec]
        omega
  exact parts_induction h part
termination_by sizeOf e

end Expr

/-! ### Definitions -/

section

variable (xs : List Definition) (root : Option String)

/-- The names of definitions. -/
def namesOf : List String :=
  xs.map (·.name)

/-- The body of the rule of a name. -/
def bodyOf : String → Option Expr :=
  Draft.body? { definitions := xs }

/-- A rule may call another before it consumes input. -/
def Calls (name callee : String) : Prop :=
  ∃ x ∈ xs, x.name = name ∧ x.body.Leads (bodyOf xs) callee

/-- The root, if it is named, is the name of a definition. -/
def RootDefined : Prop :=
  ∀ name ∈ root, name ∈ namesOf xs

/-- Every reference is to a definition. -/
def RefsDefined : Prop :=
  ∀ x ∈ xs, ∀ name ∈ x.body.refs, name ∈ namesOf xs

/-- No body repeats a nullable expression. -/
def Advancing : Prop :=
  ∀ x ∈ xs, ¬ x.body.RepeatsNullable (bodyOf xs)

/-- The conditions on definitions. -/
structure WellFormed : Prop where
  distinct : (namesOf xs).Nodup
  nonempty : xs ≠ []
  rootDefined : RootDefined xs root
  refsDefined : RefsDefined xs
  advancing : Advancing xs
  /-- No rule leads back to itself before it consumes input. -/
  acyclic : ∀ name, ¬ TransGen (Calls xs) name name

/-- The error reports the first of the conditions that definitions do not meet, and the first place
at which they do not meet it. -/
inductive FirstFailure : GrammarError → Prop where
  /-- The names before it are all different, and it is one of them. -/
  | duplicateRule {name : String} {before after : List String} :
    namesOf xs = before ++ name :: after → before.Nodup → name ∈ before →
    FirstFailure (.duplicateRule name)
  | empty : xs = [] → FirstFailure .empty
  | unknownRoot {name : String} :
    (namesOf xs).Nodup → xs ≠ [] → root = some name → name ∉ namesOf xs →
    FirstFailure (.unknownRoot name)
  /-- The leftmost undefined reference of the first definition that has one. -/
  | undefinedRule {x : Definition} {name : String} :
    (namesOf xs).Nodup → xs ≠ [] → RootDefined xs root →
    First (fun x => ∃ name ∈ x.body.refs, name ∉ namesOf xs) xs x →
    First (· ∉ namesOf xs) x.body.refs name →
    FirstFailure (.undefinedRule x.name name)
  | nullableRepetition {x : Definition} :
    (namesOf xs).Nodup → xs ≠ [] → RootDefined xs root → RefsDefined xs →
    First (fun x => x.body.RepeatsNullable (bodyOf xs)) xs x →
    FirstFailure (.nullableRepetition x.name)
  /-- A cycle that the first definition that leads into any leads into. -/
  | leftRecursion {x : Definition} {cycle : List String} :
    (namesOf xs).Nodup → xs ≠ [] → RootDefined xs root → RefsDefined xs → Advancing xs →
    IsCycle (Calls xs) cycle →
    First (fun x => LeadsIntoCycle (Calls xs) x.name) xs x →
    (∃ name ∈ cycle, ReflTransGen (Calls xs) x.name name) →
    FirstFailure (.leftRecursion cycle)

end

end ClassTranscript.Peg
