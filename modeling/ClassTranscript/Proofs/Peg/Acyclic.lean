import ClassTranscript.Peg.LeadingCall
import ClassTranscript.Proofs.Success
import Mathlib.Data.Finset.Card
import Mathlib.Data.Finset.Range

/-!
# Searches that find no cycle

A search for cycles that finds none has listed the rules so that what a rule calls is listed before
it (`Exhausted`). The places of the rules in that order are a rank that falls along calls
(`exists_rank_of_findCycle`). The bound on the search is never reached: the open rules are distinct,
so no more of them are open at once than there are.
-/

namespace ClassTranscript.Peg

variable {calls : RuleId → List RuleId} {n : Nat}

/-- The rules below `n` that are called by a rule of the list come after it in the list. -/
def Exhausted (calls : RuleId → List RuleId) (n : Nat) : List RuleId → Prop
  | [] => True
  | id :: done => (∀ callee ∈ calls id, callee < n → callee ∈ done) ∧ Exhausted calls n done

/-- A search that began with the rules `done` and ended with `done'` has been through `ids`. -/
structure Visited (calls : RuleId → List RuleId) (n : Nat) (ids done done' : List RuleId) :
    Prop where
  exhausted : Exhausted calls n done'
  subset : done ⊆ done'
  mem : ∀ id ∈ ids, id < n → id ∈ done'

namespace Exhausted

variable {done : List RuleId}

theorem mem_of_calls (h : Exhausted calls n done) {id callee : RuleId} (hid : id ∈ done)
    (hcallee : callee ∈ calls id) (hlt : callee < n) :
  callee ∈ done
  := by
  induction done with
  | nil => simp at hid
  | cons x done ih =>
      apply List.mem_cons_of_mem
      obtain rfl | hid := List.mem_cons.mp hid
      · apply h.1 callee hcallee hlt
      · apply ih h.2 hid

end Exhausted

/-! ### Ranks -/

/-- The rank falls along the calls of the rules of the list below `n`, and takes no more values on
them than there are such rules. -/
def Ranks (calls : RuleId → List RuleId) (n : Nat) (done : List RuleId) (rank : RuleId → Nat) :
    Prop :=
  ∀ id ∈ done, id < n →
    rank id < (done.toFinset.filter (· < n)).card
      ∧ ∀ callee ∈ calls id, callee < n → rank callee < rank id

namespace Ranks

variable {done : List RuleId} {rank : RuleId → Nat} {x : RuleId}

/-- A rule that is there already, or is not below `n`, needs no rank of its own. -/
theorem skip (h : Ranks calls n done rank) (hx : x < n → x ∈ done) :
  Ranks calls n (x :: done) rank
  := by
  intro id hid hidlt
  have hmem : id ∈ done := by
    obtain rfl | hid := List.mem_cons.mp hid
    · apply hx hidlt
    · apply hid
  obtain ⟨hbound, hfalls⟩ := h id hmem hidlt
  refine ⟨Nat.lt_of_lt_of_le hbound ?_, hfalls⟩
  apply Finset.card_le_card
  apply Finset.filter_subset_filter
  rw [List.toFinset_cons]
  apply Finset.subset_insert

/-- A new rule, which calls rules of the list, gets a rank above all those given so far. -/
theorem extend (h : Ranks calls n done rank) (hdone : Exhausted calls n (x :: done))
    (hlt : x < n) (hnew : x ∉ done) :
  Ranks calls n (x :: done) (Function.update rank x (done.toFinset.filter (· < n)).card)
  := by
  have hcard : ((x :: done).toFinset.filter (· < n)).card
      = (done.toFinset.filter (· < n)).card + 1 := by
    rw [List.toFinset_cons, Finset.filter_insert, if_pos hlt, Finset.card_insert_of_notMem]
    simp [hnew]
  have hold : ∀ id ∈ done, id ≠ x := fun id hid heq => hnew (heq ▸ hid)
  intro id hid hidlt
  rw [hcard]
  obtain rfl | hid := List.mem_cons.mp hid
  · rw [Function.update_self]
    refine ⟨Nat.lt_succ_self _, ?_⟩
    intro callee hcallee hcalleelt
    have hmem := hdone.1 callee hcallee hcalleelt
    rw [Function.update_of_ne (hold callee hmem)]
    apply (h callee hmem hcalleelt).1
  · obtain ⟨hbound, hfalls⟩ := h id hid hidlt
    rw [Function.update_of_ne (hold id hid)]
    refine ⟨Nat.lt_succ_of_lt hbound, ?_⟩
    intro callee hcallee hcalleelt
    have hmem := hdone.2.mem_of_calls hid hcallee hcalleelt
    rw [Function.update_of_ne (hold callee hmem)]
    apply hfalls callee hcallee hcalleelt

end Ranks

/-- The rules of an exhausted list have a rank. -/
theorem Exhausted.exists_rank {done : List RuleId} (h : Exhausted calls n done) :
  ∃ rank, Ranks calls n done rank
  := by
  induction done with
  | nil =>
      use fun _ => 0
      intro id hid
      simp at hid
  | cons x done ih =>
      obtain ⟨rank, hrank⟩ := ih h.2
      by_cases hx : x < n ∧ x ∉ done
      · use Function.update rank x (done.toFinset.filter (· < n)).card
        apply hrank.extend h hx.1 hx.2
      · use rank
        apply hrank.skip
        intro hlt
        by_contra hnew
        apply hx ⟨hlt, hnew⟩

/-! ### Searches -/

/-- Visits one after the other have been through all the rules. -/
theorem visited_foldlM {ε : Type} {visit : List RuleId → RuleId → Except ε (List RuleId)}
    {ids : List RuleId}
    (hvisit : ∀ id ∈ ids, ∀ done done', visit done id = .ok done' → Exhausted calls n done →
      Visited calls n [id] done done') (done done' : List RuleId)
    (h : ids.foldlM visit done = .ok done') (hdone : Exhausted calls n done) :
  Visited calls n ids done done'
  := by
  induction ids generalizing done with
  | nil =>
      obtain rfl := Except.ok.inj h
      exact ⟨hdone, List.Subset.refl _, by simp⟩
  | cons id ids ih =>
      rw [List.foldlM_cons] at h
      obtain ⟨done₁, hfirst, hrest⟩ := exists_of_bind_eq_ok h
      have hone := hvisit id List.mem_cons_self done done₁ hfirst hdone
      have hall := ih (fun x hx => hvisit x (List.mem_cons_of_mem _ hx)) done₁ hrest hone.exhausted
      refine ⟨hall.exhausted, List.Subset.trans hone.subset hall.subset, ?_⟩
      intro x hx hlt
      obtain rfl | hx := List.mem_cons.mp hx
      · apply hall.subset (hone.mem x (List.mem_singleton_self x) hlt)
      · apply hall.mem x hx hlt

/-- A rule that is already done need not be searched from. -/
theorem visited_known {ε : Type} {done done' : List RuleId} {id : RuleId}
    {search : Except ε (List RuleId)} (hdone : Exhausted calls n done)
    (h : (if done.contains id then .ok done else search) = .ok done')
    (hsearch : search = .ok done' → Visited calls n [id] done done') :
  Visited calls n [id] done done'
  := by
  split at h
  · rename_i hknown
    obtain rfl := Except.ok.inj h
    refine ⟨hdone, List.Subset.refl _, ?_⟩
    intro x hx _
    obtain rfl := List.mem_singleton.mp hx
    apply List.contains_iff_mem.mp hknown
  · apply hsearch h

/-- A search from a rule that finds no cycle has been through the rule. -/
theorem visited_searchFrom (hcalls : ∀ id, n ≤ id → calls id = []) (bound : Nat)
    (path done done' : List RuleId) (id : RuleId)
    (h : searchFrom calls bound path done id = .ok done') (hdone : Exhausted calls n done)
    (hnodup : (id :: path).Nodup) (hpath : ∀ x ∈ path, x < n) (hbound : n ≤ bound + path.length) :
  Visited calls n [id] done done'
  := by
  induction bound generalizing path done done' id with
  | zero =>
      obtain rfl := Except.ok.inj h
      refine ⟨hdone, List.Subset.refl _, ?_⟩
      intro x hx hlt
      obtain rfl := List.mem_singleton.mp hx
      -- no room is left for another open rule below n
      have hsub : (x :: path) ⊆ List.range n := by
        intro y hy
        rw [List.mem_range]
        obtain rfl | hy := List.mem_cons.mp hy
        · apply hlt
        · apply hpath y hy
      have hlength := (List.subperm_of_subset hnodup hsub).length_le
      rw [List.length_cons, List.length_range] at hlength
      omega
  | succ bound ih =>
      rw [searchFrom] at h
      obtain ⟨done₁, hfold, hresult⟩ := exists_of_bind_eq_ok h
      obtain rfl := Except.ok.inj hresult
      have hvisited : Visited calls n (calls id) done done₁ := by
        apply visited_foldlM _ done done₁ hfold hdone
        intro callee hcallee d d' hvisit hd
        have hid : id < n := by
          by_contra hge
          rw [hcalls id (Nat.le_of_not_lt hge)] at hcallee
          simp at hcallee
        split at hvisit
        · cases hvisit
        · rename_i hopen
          apply visited_known hd hvisit
          intro hsearch
          apply ih (id :: path) d d' callee hsearch hd
          · apply List.nodup_cons.mpr
            rw [List.contains_iff_mem] at hopen
            exact ⟨hopen, hnodup⟩
          · intro x hx
            obtain rfl | hx := List.mem_cons.mp hx
            · apply hid
            · apply hpath x hx
          · rw [List.length_cons]
            omega
      refine ⟨⟨hvisited.mem, hvisited.exhausted⟩, ?_, ?_⟩
      · apply List.subset_cons_of_subset id hvisited.subset
      · intro x hx _
        obtain rfl := List.mem_singleton.mp hx
        apply List.mem_cons_self

/-- Searches from some rules, one after the other, that find no cycle have been through them. -/
theorem visited_searches {edges : List (List RuleId)} {ids done done' : List RuleId}
    (h : ids.foldlM (fun done id =>
      if done.contains id then .ok done
      else searchFrom (fun id => edges.getD id []) edges.length [] done id) done = .ok done')
    (hdone : Exhausted (fun id => edges.getD id []) edges.length done) :
  Visited (fun id => edges.getD id []) edges.length ids done done'
  := by
  apply visited_foldlM _ done done' h hdone
  intro id _ d d' hvisit hd
  apply visited_known hd hvisit
  intro hsearch
  apply visited_searchFrom _ _ [] d d' id hsearch hd (List.nodup_singleton id) (by simp)
    (Nat.le_refl _)
  intro x hx
  rw [List.getD_eq_getElem?_getD, List.getElem?_eq_none hx, Option.getD_none]

/-- The leading calls in a graph in which no cycle is found go down in a rank. -/
theorem exists_rank_of_findCycle {edges : List (List RuleId)} (h : findCycle edges = none) :
  ∃ rank : RuleId → Nat, ∀ id < edges.length,
    rank id < edges.length
      ∧ ∀ callee ∈ edges.getD id [], callee < edges.length → rank callee < rank id
  := by
  rw [findCycle] at h
  split at h
  · cases h
  · rename_i done hfold
    have hvisited := visited_searches hfold trivial
    obtain ⟨rank, hrank⟩ := hvisited.exhausted.exists_rank
    use rank
    intro id hid
    obtain ⟨hbound, hfalls⟩ := hrank id (hvisited.mem id (List.mem_range.mpr hid) hid) hid
    refine ⟨Nat.lt_of_lt_of_le hbound ?_, hfalls⟩
    apply Nat.le_trans _ (Nat.le_of_eq (Finset.card_range edges.length))
    apply Finset.card_le_card
    intro x hx
    apply Finset.mem_range.mpr (Finset.mem_filter.mp hx).2

end ClassTranscript.Peg
