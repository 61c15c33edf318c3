import Rejoin.Isa
import Rejoin.Proofs.Machine.Building
import Rejoin.Proofs.Machine.Lookup

/-!
# Neighbours in a block

Looking forward from an instruction finds the nearest one after it that satisfies a predicate,
looking back the nearest one before it. `Func.neighbours_exact` says this in terms of places in a
block: both searches stay in the block, skip what does not satisfy the predicate and nothing else,
and one undoes the other.

`Func.Adjacent` cuts a block at its two instructions. The places are read off such a cut, and two
places give a cut: `adjacentIn_iff_getElem?`.
-/

namespace Rejoin

/-! ## Places in a row -/

/-- A row is cut at each of its places. -/
theorem exists_cut_of_getElem? {α : Type} {row : List α} {k : Nat} {a : α} (h : row[k]? = some a) :
    ∃ before after, row = before ++ a :: after ∧ before.length = k := by
  obtain ⟨hlt, rfl⟩ := List.getElem?_eq_some_iff.mp h
  exact ⟨row.take k, row.drop (k + 1), by simp, List.length_take_of_le (Nat.le_of_lt hlt)⟩

private theorem length_cut {α : Type} (before between : List α) (a : α) :
    (before ++ a :: between).length = before.length + 1 + between.length := by
  rw [List.length_append, List.length_cons]
  omega

/-- The places between two cuts are the places of what stands between them. -/
theorem getElem?_between {α : Type} {before between after : List α} {a b : α} {i : Nat}
    (hi : i < between.length) :
    (before ++ a :: between ++ b :: after)[before.length + 1 + i]? = between[i]? := by
  have hlt : before.length + 1 + i < (before ++ a :: between).length := by
    rw [length_cut]
    omega
  rw [List.getElem?_append_left hlt, List.getElem?_append_right (by omega),
    show before.length + 1 + i - before.length = i + 1 by omega, List.getElem?_cons_succ]

/-- Adjacency by places: nothing at a place between those of `x` and `y` satisfies `p`. -/
theorem adjacentIn_iff_getElem? {p : Inst BlockId → Bool} {insts : List (InstId × Inst BlockId)}
    {x y : InstId} :
    AdjacentIn p insts x y ↔ ∃ (m n : Nat) (instX instY : Inst BlockId), m < n ∧
      insts[m]? = some (x, instX) ∧ insts[n]? = some (y, instY) ∧
      ∀ k entry, m < k → k < n → insts[k]? = some entry → p entry.2 = false := by
  constructor
  · rintro ⟨before, between, after, instX, instY, rfl, hnone⟩
    have hlength := length_cut before between (x, instX)
    refine ⟨before.length, (before ++ (x, instX) :: between).length, instX, instY, by omega,
      by simp, ?_, fun k entry hm hn hentry => hnone entry ?_⟩
    · rw [List.getElem?_append_right (Nat.le_refl _), Nat.sub_self]
      rfl
    · obtain ⟨i, rfl⟩ := Nat.exists_eq_add_of_le (Nat.succ_le_of_lt hm)
      rw [Nat.succ_eq_add_one, getElem?_between (by omega)] at hentry
      exact List.mem_of_getElem? hentry
  · rintro ⟨m, n, instX, instY, hlt, hx, hy, hnone⟩
    -- cut the row at `y`, and what comes before `y` at `x`
    obtain ⟨first, after, rfl, rfl⟩ := exists_cut_of_getElem? hy
    rw [List.getElem?_append_left hlt] at hx
    obtain ⟨before, between, rfl, rfl⟩ := exists_cut_of_getElem? hx
    refine ⟨before, between, after, instX, instY, rfl, fun entry hentry => ?_⟩
    obtain ⟨i, hi, rfl⟩ := List.getElem_of_mem hentry
    have hlength := length_cut before between (x, instX)
    refine hnone (before.length + 1 + i) between[i] (by omega) (by omega) ?_
    rw [getElem?_between hi, List.getElem?_eq_getElem hi]

namespace Func

variable {f : Func} {p : Inst BlockId → Bool} {x y : InstId}

/-- The instruction numbered `x` is at place `k` of the block numbered `b`. -/
def StandsAt (f : Func) (b : BlockId) (k : Nat) (x : InstId) : Prop :=
  ∃ block inst, f.block? b = some block ∧ block.insts[k]? = some (x, inst)

/-- The instruction numbered `x` exists and satisfies `p`. -/
def Satisfies (f : Func) (p : Inst BlockId → Bool) (x : InstId) : Prop :=
  ∃ inst, f.inst? x = some inst ∧ p inst = true

section Consistent

variable (hf : f.Consistent)

include hf

/-- An unknown instruction has no neighbours. -/
theorem next?_prev?_of_not_mem (hx : x ∉ f.insts.map Prod.fst) (p : Inst BlockId → Bool) :
    f.next? x p = none ∧ f.prev? x p = none := by
  have howner : f.owner? x = none := by
    rw [owner?, (parent?_eq_none_iff hf).mpr hx, Option.bind_none]
  rw [next?, prev?, howner]
  exact ⟨rfl, rfl⟩

theorem satisfies_iff_of_mem {inst : Inst BlockId} (h : (x, inst) ∈ f.insts) :
    f.Satisfies p x ↔ p inst = true := by
  rw [Satisfies, (inst?_eq_some_iff hf).mpr h]
  simp

/-- Adjacency by places in a block of the function. -/
theorem adjacent_iff_standsAt :
    f.Adjacent p x y ↔ ∃ b m n, f.StandsAt b m x ∧ f.StandsAt b n y ∧ m < n ∧
      ∀ k z, m < k → k < n → f.StandsAt b k z → ¬f.Satisfies p z := by
  constructor
  · rintro ⟨block, hblock, hadjacent⟩
    obtain ⟨m, n, instX, instY, hlt, hx, hy, hnone⟩ := adjacentIn_iff_getElem?.mp hadjacent
    obtain ⟨b, hb⟩ := hf.exists_block?_of_mem hblock
    refine ⟨b, m, n, ⟨block, instX, hb, hx⟩, ⟨block, instY, hb, hy⟩, hlt, ?_⟩
    -- what stands between in the block is an instruction of the function
    rintro k z hm hn ⟨other, inst, hother, hz⟩
    obtain rfl := Option.some.inj (hb.symm.trans hother)
    have hmem : (z, inst) ∈ f.insts := mem_insts_iff.mpr ⟨block, hblock, List.mem_of_getElem? hz⟩
    rw [satisfies_iff_of_mem hf hmem, hnone k _ hm hn hz]
    exact Bool.false_ne_true
  · rintro ⟨b, m, n, ⟨block, instX, hb, hx⟩, ⟨other, instY, hother, hy⟩, hlt, hnone⟩
    obtain rfl := Option.some.inj (hb.symm.trans hother)
    have hblock := mem_blocks_of_block? hb
    refine ⟨block, hblock, adjacentIn_iff_getElem?.mpr ⟨m, n, instX, instY, hlt, hx, hy, ?_⟩⟩
    rintro k ⟨z, inst⟩ hm hn hz
    have hmem : (z, inst) ∈ f.insts := mem_insts_iff.mpr ⟨block, hblock, List.mem_of_getElem? hz⟩
    have hnot := hnone k z hm hn ⟨block, inst, hb, hz⟩
    rwa [satisfies_iff_of_mem hf hmem, Bool.not_eq_true] at hnot

end Consistent

/-- **Neighbours are exact.** In a function that is built step by step, looking forward from `i`
leads to `j` just if `j` is in the block of `i`, comes after `i` and satisfies `p`, and nothing
between them does. Looking back is the same with `j` before `i`. From an unknown number neither
leads anywhere, and between two instructions that satisfy `p` the one leads forth just if the other
leads back. -/
theorem neighbours_exact (hf : f.Built) (p : Inst BlockId → Bool) (i j : InstId) :
    (f.next? i p = some j ↔ ∃ b m n, f.StandsAt b m i ∧ f.StandsAt b n j ∧ m < n ∧
        f.Satisfies p j ∧ ∀ k x, m < k → k < n → f.StandsAt b k x → ¬f.Satisfies p x) ∧
      (f.prev? i p = some j ↔ ∃ b m n, f.StandsAt b m i ∧ f.StandsAt b n j ∧ n < m ∧
        f.Satisfies p j ∧ ∀ k x, n < k → k < m → f.StandsAt b k x → ¬f.Satisfies p x) ∧
      (i ∉ f.insts.map Prod.fst → f.next? i p = none ∧ f.prev? i p = none) ∧
      (f.Satisfies p i → f.Satisfies p j → (f.next? i p = some j ↔ f.prev? j p = some i)) := by
  have hids := hf.consistent
  have hnext : f.next? i p = some j ↔ f.Adjacent p i j ∧ f.Satisfies p j := next?_eq_some_iff hids
  have hprev : ∀ i j, f.prev? j p = some i ↔ f.Adjacent p i j ∧ f.Satisfies p i := fun i j =>
    prev?_eq_some_iff hids
  refine ⟨?_, ?_, fun hi => next?_prev?_of_not_mem hids hi p, fun hi hj => ?_⟩
  · rw [hnext, adjacent_iff_standsAt hids]
    constructor
    · rintro ⟨⟨b, m, n, hm, hn, hlt, hnone⟩, hj⟩
      exact ⟨b, m, n, hm, hn, hlt, hj, hnone⟩
    · rintro ⟨b, m, n, hm, hn, hlt, hj, hnone⟩
      exact ⟨⟨b, m, n, hm, hn, hlt, hnone⟩, hj⟩
  · -- here `j` comes first, so the places change their roles
    rw [hprev, adjacent_iff_standsAt hids]
    constructor
    · rintro ⟨⟨b, n, m, hn, hm, hlt, hnone⟩, hj⟩
      exact ⟨b, m, n, hm, hn, hlt, hj, hnone⟩
    · rintro ⟨b, m, n, hm, hn, hlt, hj, hnone⟩
      exact ⟨⟨b, n, m, hn, hm, hlt, hnone⟩, hj⟩
  · rw [hnext, hprev, and_iff_left hj, and_iff_left hi]

/-- A compare and the branch that reads its flags, with a note to the debugger between them. -/
def notedCompareFunc : Func :=
  .ofBlocks "@f"
    [("entry", [.op "cmp" [.value "%a", .int 0] none, .op "dbg.value" [.value "%a"] none,
        .branch none 1 1]),
      ("exit", [.ret none])]

/-- The compare and the branch in `notedCompareFunc` are neighbours as far as code goes. The block
ends with the branch, so looking forward from it does not lead to the return. -/
theorem neighbours_exact_notedCompareFunc :
    notedCompareFunc.Built ∧ notedCompareFunc.next? 0 Isa.x86.isSubstantive = some 2 ∧
      notedCompareFunc.prev? 2 Isa.x86.isSubstantive = some 0 ∧
      notedCompareFunc.next? 0 (fun _ => true) = some 1 ∧
      notedCompareFunc.next? 2 (fun _ => true) = none ∧
      notedCompareFunc.next? 4 (fun _ => true) = none := by
  have hf : notedCompareFunc.Built := built_ofBlocks _ _
  have hcompare : notedCompareFunc.Satisfies Isa.x86.isSubstantive 0 := ⟨_, rfl, by decide⟩
  have hbranch : notedCompareFunc.Satisfies Isa.x86.isSubstantive 2 := ⟨_, rfl, by decide⟩
  have hnext : notedCompareFunc.next? 0 Isa.x86.isSubstantive = some 2 := by decide +kernel
  obtain ⟨-, -, -, hback⟩ := neighbours_exact hf Isa.x86.isSubstantive 0 2
  obtain ⟨-, -, hunknown, -⟩ := neighbours_exact hf (fun _ => true) 4 0
  exact ⟨hf, hnext, (hback hcompare hbranch).mp hnext, by decide +kernel, by decide +kernel,
    (hunknown (by decide +kernel)).1⟩

end Func

end Rejoin
