import ClassTranscript.Proofs.Peg.Acyclic
import Mathlib.Data.List.Chain
import Mathlib.Logic.Relation

/-!
# Cycles that a search finds

`IsCycle r walk` says that a list is a walk along a relation that comes back to where it began and
passes through nothing else twice. A search that closes a cycle gives one that its rule leads into
(`cycle_of_searchFrom`). So `findCycle` finds a cycle exactly where there is one
(`findCycle_eq_none_iff`), and the one that it gives is led into by the first rule that leads into
any (`cycle_of_findCycle`).
-/

namespace ClassTranscript.Peg

open Relation

section

variable {α β : Type} {r : α → α → Prop} {p : β → β → Prop}

/-- A walk along `r` that ends where it begins and passes through nothing else twice. -/
def IsCycle (r : α → α → Prop) (walk : List α) : Prop :=
  ∃ x xs, walk = x :: (xs ++ [x]) ∧ (x :: xs).Nodup ∧ walk.IsChain r

/-- Following `r` one can come to something that leads back to itself. -/
def LeadsIntoCycle (r : α → α → Prop) (a : α) : Prop :=
  ∃ b, ReflTransGen r a b ∧ TransGen r b b

/-- Along a walk everything is reached from its beginning. -/
theorem reflTransGen_of_isChain {x y : α} {xs : List α} (h : (x :: xs).IsChain r)
    (hy : y ∈ x :: xs) :
  ReflTransGen r x y
  := by
  induction xs generalizing x with
  | nil =>
      obtain rfl := List.mem_singleton.mp hy
      exact .refl
  | cons z xs ih =>
      obtain ⟨hstep, hrest⟩ := List.isChain_cons_cons.mp h
      obtain rfl | hy := List.mem_cons.mp hy
      · exact .refl
      · exact .head hstep (ih hrest hy)

namespace IsCycle

variable {walk : List α}

/-- From everything on a cycle a walk of at least one step goes on to where the cycle begins. -/
theorem transGen (h : IsCycle r walk) :
  ∃ x ∈ walk, ∀ a ∈ walk, TransGen r a x
  := by
  obtain ⟨x, xs, rfl, -, hchain⟩ := h
  refine ⟨x, List.mem_cons_self, ?_⟩
  intro a ha
  have hmem : a ∈ x :: xs := by
    simp only [List.mem_cons, List.mem_append, List.not_mem_nil, or_false] at ha ⊢
    tauto
  obtain ⟨before, after, hsplit⟩ := List.append_of_mem hmem
  rw [← List.cons_append, hsplit, List.append_assoc] at hchain
  have hrest : (a :: (after ++ [x])).IsChain r := hchain.right_of_append
  cases after with
  | nil => exact .single (List.isChain_cons_cons.mp hrest).1
  | cons y after =>
      obtain ⟨hstep, hrest⟩ := List.isChain_cons_cons.mp hrest
      exact .head' hstep (reflTransGen_of_isChain hrest (by simp))

theorem exists_step (h : IsCycle r walk) {a : α} (ha : a ∈ walk) :
  ∃ b, r a b
  := by
  obtain ⟨x, -, hback⟩ := h.transGen
  obtain ⟨b, hstep, -⟩ := TransGen.head'_iff.mp (hback a ha)
  exact ⟨b, hstep⟩

theorem leadsIntoCycle (h : IsCycle r walk) {a : α} (ha : a ∈ walk) :
  LeadsIntoCycle r a
  := by
  obtain ⟨x, hx, hback⟩ := h.transGen
  exact ⟨x, (hback a ha).to_reflTransGen, hback x hx⟩

/-- The image of a cycle. -/
theorem map {f : α → β} (h : IsCycle r walk) (hstep : ∀ a b, r a b → p (f a) (f b))
    (hf : ∀ a ∈ walk, ∀ b ∈ walk, f a = f b → a = b) :
  IsCycle p (walk.map f)
  := by
  obtain ⟨x, xs, rfl, hnodup, hchain⟩ := h
  refine ⟨f x, xs.map f, by simp, ?_, ?_⟩
  · rw [← List.map_cons]
    apply List.Nodup.map_on _ hnodup
    intro a ha b hb
    apply hf a _ b _
    · rw [← List.cons_append]
      apply List.mem_append_left _ ha
    · rw [← List.cons_append]
      apply List.mem_append_left _ hb
  · apply List.isChain_map_of_isChain f hstep hchain

end IsCycle

/-- What leads into a cycle does so in the image. -/
theorem LeadsIntoCycle.map {f : α → β} {a : α} (h : LeadsIntoCycle r a)
    (hstep : ∀ a b, r a b → p (f a) (f b)) :
  LeadsIntoCycle p (f a)
  := by
  obtain ⟨b, hreach, hcycle⟩ := h
  exact ⟨f b, hreach.lift f hstep, hcycle.lift f hstep⟩

end

/-! ### Searches -/

/-- A fold that fails does so at the first item at which its step fails. -/
theorem exists_of_foldlM_eq_error {ε α β : Type} {f : β → α → Except ε β} {xs : List α} {init : β}
    {e : ε} (h : xs.foldlM f init = .error e) :
  ∃ before x after acc, xs = before ++ x :: after ∧ before.foldlM f init = .ok acc
    ∧ f acc x = .error e
  := by
  induction xs generalizing init with
  | nil => cases h
  | cons y ys ih =>
      rw [List.foldlM_cons] at h
      cases hy : f init y with
      | error e' =>
          rw [hy] at h
          obtain rfl := Except.error.inj h
          exact ⟨[], y, ys, init, rfl, rfl, hy⟩
      | ok acc =>
          rw [hy] at h
          obtain ⟨before, x, after, acc', rfl, hbefore, hx⟩ := ih h
          refine ⟨y :: before, x, after, acc', rfl, ?_, hx⟩
          rw [List.foldlM_cons, hy]
          apply hbefore

/-- Where the innermost of the open rules, each called by the next, calls one of them, they close a
cycle. -/
theorem isCycle_closeCycle {calls : RuleId → List RuleId} {id callee : RuleId}
    {path : List RuleId} (hchain : (id :: path).IsChain fun a b => a ∈ calls b)
    (hnodup : (id :: path).Nodup) (hcallee : callee ∈ calls id) (hopen : callee ∈ id :: path) :
  IsCycle (fun a b => b ∈ calls a) (closeCycle (id :: path) callee)
  := by
  obtain ⟨inner, outer, hpath, hinner⟩ := List.eq_append_cons_of_mem hopen
  have htake : (id :: path).takeWhile (· != callee) = inner := by
    have hne : ∀ x ∈ inner, (x != callee) = true := by
      intro x hx
      rw [bne_iff_ne]
      rintro rfl
      apply hinner hx
    rw [hpath, List.takeWhile_append_of_pos hne]
    simp
  rw [closeCycle, htake]
  rw [hpath] at hchain hnodup
  refine ⟨callee, inner.reverse, List.cons_append, ?_, ?_⟩
  · rw [← List.nodup_reverse, List.reverse_cons, List.reverse_reverse]
    apply List.Nodup.sublist _ hnodup
    rw [List.append_cons inner callee outer]
    apply List.sublist_append_left
  · -- from the callee inwards, and from the innermost rule back to the callee
    have hinwards : (callee :: inner.reverse).IsChain fun a b => b ∈ calls a := by
      rw [← List.reverse_concat, List.isChain_reverse]
      rw [List.append_cons] at hchain
      apply hchain.left_of_append
    apply hinwards.append (List.isChain_singleton callee)
    intro x hx y hy
    obtain rfl := Option.some.inj hy
    have hhead : x = id := by
      cases inner with
      | nil =>
          obtain ⟨rfl, -⟩ := List.cons.inj hpath
          simpa using hx.symm
      | cons z inner =>
          obtain ⟨rfl, -⟩ := List.cons.inj hpath
          simpa [List.getLast?_cons] using hx.symm
    rw [hhead]
    apply hcallee

/-- A search that fails gives a cycle, and its rule leads into it. -/
theorem cycle_of_searchFrom {calls : RuleId → List RuleId} {bound : Nat}
    {path done cycle : List RuleId} {id : RuleId}
    (h : searchFrom calls bound path done id = .error cycle)
    (hchain : (id :: path).IsChain fun a b => a ∈ calls b) (hnodup : (id :: path).Nodup) :
  IsCycle (fun a b => b ∈ calls a) cycle
    ∧ ∃ x ∈ cycle, ReflTransGen (fun a b => b ∈ calls a) id x
  := by
  induction bound generalizing path done id with
  | zero => cases h
  | succ bound ih =>
      rw [searchFrom] at h
      cases hfold : (calls id).foldlM (fun done callee =>
          if (id :: path).contains callee then .error (closeCycle (id :: path) callee)
          else if done.contains callee then .ok done
          else searchFrom calls bound (id :: path) done callee) done with
      | ok done' =>
          rw [hfold] at h
          cases h
      | error cycle' =>
          rw [hfold] at h
          obtain rfl := Except.error.inj h
          obtain ⟨before, callee, after, done', hsplit, -, hvisit⟩ :=
            exists_of_foldlM_eq_error hfold
          have hcallee : callee ∈ calls id := by simp [hsplit]
          split at hvisit
          · rename_i hopen
            obtain rfl := Except.error.inj hvisit
            refine ⟨isCycle_closeCycle hchain hnodup hcallee (List.contains_iff_mem.mp hopen),
              callee, List.mem_cons_self, .single hcallee⟩
          · rename_i hopen
            split at hvisit
            · cases hvisit
            · obtain ⟨hcycle, x, hx, hreach⟩ := ih hvisit
                (List.isChain_cons_cons.mpr ⟨hcallee, hchain⟩)
                (List.nodup_cons.mpr ⟨by simpa using hopen, hnodup⟩)
              exact ⟨hcycle, x, hx, .head hcallee hreach⟩

/-! ### Graphs -/

/-- The relation of a graph that is given by the successors of each of its rules. -/
def Succeeds (edges : List (List RuleId)) (a b : RuleId) : Prop :=
  b ∈ edges.getD a []

theorem Succeeds.lt_length {edges : List (List RuleId)} {a b : RuleId} (h : Succeeds edges a b) :
  a < edges.length
  := by
  by_contra hge
  rw [Succeeds, List.getD_eq_getElem?_getD, List.getElem?_eq_none (Nat.le_of_not_lt hge)] at h
  simp at h

/-- What leads to a rule of the graph, in no step or more, is a rule of the graph. -/
theorem lt_length_of_reflTransGen {edges : List (List RuleId)} {a b : RuleId}
    (h : ReflTransGen (Succeeds edges) a b) (hb : b < edges.length) :
  a < edges.length
  := by
  obtain rfl | ⟨c, hstep, -⟩ := h.cases_head
  · apply hb
  · apply hstep.lt_length

/-- Where a rank falls along the edges of a part of a graph that is closed under them, nothing there
leads into a cycle. -/
theorem not_leadsIntoCycle_of_rank {edges : List (List RuleId)} (rank : RuleId → Nat)
    (P : RuleId → Prop)
    (h : ∀ a b, P a → Succeeds edges a b → b < edges.length → P b ∧ rank b < rank a) {a : RuleId}
    (ha : P a) :
  ¬ LeadsIntoCycle (Succeeds edges) a
  := by
  have hfalls {a b : RuleId} (hreach : ReflTransGen (Succeeds edges) a b) (hb : b < edges.length)
      (ha : P a) : P b ∧ rank b ≤ rank a := by
    induction hreach using ReflTransGen.head_induction_on with
    | refl => exact ⟨ha, Nat.le_refl _⟩
    | head hstep hrest ih =>
        obtain ⟨hpart, hlt⟩ := h _ _ ha hstep (lt_length_of_reflTransGen hrest hb)
        obtain ⟨hend, hle⟩ := ih hpart
        exact ⟨hend, Nat.le_trans hle (Nat.le_of_lt hlt)⟩
  rintro ⟨b, hreach, hcycle⟩
  obtain ⟨c, hstep, hback⟩ := TransGen.head'_iff.mp hcycle
  have hb := hstep.lt_length
  obtain ⟨hpart, hlt⟩ := h b c (hfalls hreach hb ha).1 hstep (lt_length_of_reflTransGen hback hb)
  apply Nat.not_lt_of_le (hfalls hback hb hpart).2 hlt

/-- The cycle that is found is one of the graph, and of the rules that lead into a cycle the first
leads into it. -/
theorem cycle_of_findCycle {edges : List (List RuleId)} {cycle : List RuleId}
    (h : findCycle edges = some cycle) :
  IsCycle (Succeeds edges) cycle
    ∧ ∃ first < edges.length, (∃ x ∈ cycle, ReflTransGen (Succeeds edges) first x)
      ∧ ∀ id < first, ¬ LeadsIntoCycle (Succeeds edges) id
  := by
  rw [findCycle] at h
  split at h
  · rename_i cycle' hfold
    obtain rfl := Option.some.inj h
    obtain ⟨before, first, after, done, hsplit, hbefore, hvisit⟩ := exists_of_foldlM_eq_error hfold
    split at hvisit
    · cases hvisit
    · obtain ⟨hcycle, hreach⟩ := cycle_of_searchFrom hvisit (List.isChain_singleton first)
        (List.nodup_singleton first)
      have hrange : before = List.range first := by
        rw [List.range_eq_range', List.range'_eq_append_iff] at hsplit
        obtain ⟨k, -, hbefore, hrest⟩ := hsplit
        obtain ⟨hfirst, -⟩ := List.range'_eq_cons_iff.mp hrest.symm
        rw [Nat.mul_one, Nat.zero_add] at hfirst
        rw [hbefore, hfirst, List.range_eq_range']
      have hfirst : first < edges.length := by
        apply List.mem_range.mp
        rw [hsplit]
        simp
      refine ⟨hcycle, first, hfirst, hreach, ?_⟩
      have hvisited := visited_searches hbefore trivial
      obtain ⟨rank, hrank⟩ := hvisited.exhausted.exists_rank
      intro id hid
      apply not_leadsIntoCycle_of_rank rank (· ∈ done)
      · intro a b ha hstep hb
        exact ⟨hvisited.exhausted.mem_of_calls ha hstep hb,
          (hrank a ha hstep.lt_length).2 b hstep hb⟩
      · apply hvisited.mem id _ (Nat.lt_trans hid hfirst)
        rw [hrange]
        apply List.mem_range.mpr hid
  · cases h

/-- No cycle is found exactly when there is none. -/
theorem findCycle_eq_none_iff {edges : List (List RuleId)} :
  findCycle edges = none ↔ ∀ id, ¬ TransGen (Succeeds edges) id id
  := by
  constructor
  · intro h id hcycle
    obtain ⟨rank, hrank⟩ := exists_rank_of_findCycle h
    obtain ⟨c, hstep, -⟩ := TransGen.head'_iff.mp hcycle
    apply not_leadsIntoCycle_of_rank rank (· < edges.length) _ hstep.lt_length
    · exact ⟨id, .refl, hcycle⟩
    · intro a b ha hstep hb
      exact ⟨hb, (hrank a ha).2 b hstep hb⟩
  · intro h
    cases hfind : findCycle edges with
    | none => rfl
    | some cycle =>
        obtain ⟨x, hx, hback⟩ := (cycle_of_findCycle hfind).1.transGen
        exact absurd (hback x hx) (h x)

/-- The first cycle that is closed need not lead through the rule that was searched from. -/
example : findCycle [[1, 3], [2], [0, 1], []] = some [0, 1, 2, 0] ∧
    findCycle [[3, 1], [2], [1], []] = some [1, 2, 1] := by decide

/-- A search is right about every graph. It finds no cycle exactly where no rule leads back to
itself, and what it finds begins and ends with one rule, passes through no other twice, and follows
the edges. -/
theorem findCycle_exact (edges : List (List RuleId)) :
  (findCycle edges = none ↔ ∀ id, ¬ TransGen (Succeeds edges) id id)
    ∧ ∀ cycle, findCycle edges = some cycle →
      ∃ x xs, cycle = x :: (xs ++ [x]) ∧ (x :: xs).Nodup ∧ cycle.IsChain (Succeeds edges)
  := by
  refine ⟨findCycle_eq_none_iff, ?_⟩
  intro cycle hfind
  obtain ⟨x, xs, hcycle, hnodup, hchain⟩ := (cycle_of_findCycle hfind).1
  exact ⟨x, xs, hcycle, hnodup, hchain⟩

end ClassTranscript.Peg
