import Mathlib.Order.Bounds.Basic
import Rejoin.Proofs.Dependence.Analysis

/-!
# Data dependence from any seeds

A branch that is fused with something found is left out if it has been worked through by then, so
what is found of the seeds depends on their order. Nothing else does:
`DataFlow.closure_iff_least_closed` compares the numbers that are found with the least set that has
the seeds and is closed under the two rules of data dependence, `DataFlow.SeedClosed`.
-/

namespace Rejoin

namespace DataFlow

variable {flow : DataFlow} {seeds seeds' : List InstId} {C : Set InstId} {x k : InstId}

/-- The instruction has a number and consumes what a member of `C` gives. -/
def FedBy (flow : DataFlow) (C : Set InstId) (x : InstId) : Prop :=
  flow.isNumbered x = true ∧ ∃ producer ∈ C, x ∈ flow.consumers producer

/-- Compares are fused with branches, and the instruction is a conditional branch that is the next
code after something fed by `C`. -/
def FusedWith (flow : DataFlow) (C : Set InstId) (k : InstId) : Prop :=
  flow.isa.fuses = true ∧ flow.func.IsCondBranch k ∧
    ∃ x, flow.FedBy C x ∧ flow.func.next? x flow.isa.isSubstantive = some k

/-- The rules of data dependence on the seeds. -/
structure SeedClosed (flow : DataFlow) (seeds : List InstId) (C : Set InstId) : Prop where
  /-- The seeds are members. -/
  seed : ∀ x ∈ seeds, x ∈ C
  /-- What a member feeds is a member. -/
  fed : ∀ x, flow.FedBy C x → x ∈ C
  /-- The branch fused with it is a member too. -/
  fused : ∀ k, flow.FusedWith C k → k ∈ C

/-- The seeds and what depends on them. -/
def reached (flow : DataFlow) (seeds : List InstId) : Set InstId :=
  {x | x ∈ seeds ∨ x ∈ flow.closure seeds}

/-- Numbers are collected for exactly what is found. -/
theorem exists_mem_collect_closure_iff (hagrees : flow.numbering.Agrees) :
    (∃ n ∈ flow.numbering.collect (flow.closure seeds), flow.numbering.number? x = some n) ↔
      x ∈ flow.closure seeds := by
  rw [hagrees.exists_mem_collect_iff]
  exact and_iff_left_of_imp isNumbered_of_mem_closure

/-- What is fed is found, be it a seed or not. -/
theorem mem_closure_of_fedBy (h : flow.FedBy (flow.reached seeds) x) :
    x ∈ flow.closure seeds := by
  obtain ⟨hnumbered, producer, hproducer, hx⟩ := h
  exact mem_closure_of_consumer hproducer hx hnumbered

section Numbered

variable (hbranch : ∀ k, flow.func.IsCondBranch k → flow.isNumbered k = true)

include hbranch

/-- Only what is fed and the branches fused with it are found. -/
theorem fedBy_or_fusedWith_of_mem_closure (h : x ∈ flow.closure seeds) :
    flow.FedBy (flow.reached seeds) x ∨ flow.FusedWith (flow.reached seeds) x := by
  obtain ⟨producer, hproducer, c, hc, hnumbered, rfl | hfused⟩ := exists_consumer_of_mem_closure h
  · exact Or.inl ⟨hnumbered, producer, hproducer, hc⟩
  · obtain ⟨hfuses, hx, hnext⟩ := (fusedBranch?_eq_some_iff hbranch).mp hfused
    exact Or.inr ⟨hfuses, hx, c, ⟨hnumbered, producer, hproducer, hc⟩, hnext⟩

/-- What is reached from the seeds is closed. -/
theorem seedClosed_reached : flow.SeedClosed seeds (flow.reached seeds) where
  seed := fun x hx => Or.inl hx
  fed := fun x hx => Or.inr (mem_closure_of_fedBy hx)
  fused := by
    rintro k ⟨hfuses, hk, c, ⟨hnumbered, producer, hproducer, hc⟩, hnext⟩
    exact mem_of_fusedBranch? hproducer hc hnumbered
      ((fusedBranch?_eq_some_iff hbranch).mpr ⟨hfuses, hk, hnext⟩)

/-- The seeds and what depends on them are the least closed set. -/
theorem isLeast_reached : IsLeast {C | flow.SeedClosed seeds C} (flow.reached seeds) := by
  refine ⟨seedClosed_reached hbranch, fun C hC x hx => ?_⟩
  rcases hx with hx | hx
  · exact hC.seed x hx
  · -- every step of the work stays in `C`
    refine (runs_closure flow seeds).forall_mem (· ∈ C) (· ∈ C) (fun _ => id) ?_ hC.seed x hx
    intro processed y z _ hy hz
    obtain ⟨c, hc, hnumbered, rfl | ⟨hfused, -⟩⟩ := mem_found_iff.mp hz
    · exact hC.fed z ⟨hnumbered, y, hy, hc⟩
    · obtain ⟨hfuses, hk, hnext⟩ := (fusedBranch?_eq_some_iff hbranch).mp hfused
      exact hC.fused z ⟨hfuses, hk, c, ⟨hnumbered, y, hy, hc⟩, hnext⟩

/-- What is reached does not depend on the order of the seeds. -/
theorem reached_eq (hseeds : ∀ x, x ∈ seeds' ↔ x ∈ seeds) :
    flow.reached seeds' = flow.reached seeds := by
  have hclosed : ∀ C, flow.SeedClosed seeds' C ↔ flow.SeedClosed seeds C := by
    intro C
    constructor
    · rintro ⟨hseed, hfed, hfused⟩
      exact ⟨fun x hx => hseed x ((hseeds x).mpr hx), hfed, hfused⟩
    · rintro ⟨hseed, hfed, hfused⟩
      exact ⟨fun x hx => hseed x ((hseeds x).mp hx), hfed, hfused⟩
  have hleast : IsLeast {C | flow.SeedClosed seeds' C} (flow.reached seeds') :=
    isLeast_reached hbranch
  simp only [hclosed] at hleast
  exact hleast.unique (isLeast_reached hbranch)

/-- Something that is found with the seeds in one order but not in another is a seed, and is found
as a fused branch. -/
theorem seed_of_mem_closure_of_not_mem (hseeds : ∀ x, x ∈ seeds' ↔ x ∈ seeds)
    (hx : x ∈ flow.closure seeds) (hnot : x ∉ flow.closure seeds') :
    x ∈ seeds ∧ flow.func.IsCondBranch x := by
  have hreached := reached_eq hbranch hseeds
  have hmem : x ∈ flow.reached seeds' := by
    rw [hreached]
    exact Or.inr hx
  refine ⟨(hseeds x).mp (hmem.resolve_right hnot), ?_⟩
  rcases fedBy_or_fusedWith_of_mem_closure hbranch hx with hfed | hfused
  · rw [← hreached] at hfed
    exact absurd (mem_closure_of_fedBy hfed) hnot
  · exact hfused.2.1

/-- Where the closures of two orders differ, they do at a seed that is a branch. -/
theorem seed_of_closure_differ (hseeds : ∀ x, x ∈ seeds' ↔ x ∈ seeds)
    (h : ¬(x ∈ flow.closure seeds ↔ x ∈ flow.closure seeds')) :
    x ∈ seeds ∧ flow.func.IsCondBranch x := by
  by_cases hx : x ∈ flow.closure seeds
  · exact seed_of_mem_closure_of_not_mem hbranch hseeds hx fun hx' => h (iff_of_true hx hx')
  · have hx' : x ∈ flow.closure seeds' := by
      by_contra hnot
      exact h (iff_of_false hx hnot)
    obtain ⟨hseed, hk⟩ :=
      seed_of_mem_closure_of_not_mem hbranch (fun x => (hseeds x).symm) hx' hx
    exact ⟨(hseeds x).mp hseed, hk⟩

end Numbered

/-- For any function, numbered by any instruction set, any consumers and any seeds, the search along
data ends. Apart from the seeds, it finds the numbers of the members of the least set `C` that has
the seeds and is closed under the rules of data dependence. A seed that `C` feeds is found, and a
seed that is found is fed by `C` or is a branch fused with something fed by `C`. Two orders of the
same seeds differ only in seeds that are conditional branches. -/
theorem closure_iff_least_closed (f : Func) (isa numberingIsa : Isa) (functionId : UInt32)
    (consumers : InstId → List InstId) (seeds : List InstId) :
    let flow : DataFlow := ⟨f, isa, .ofFunc numberingIsa functionId f, consumers⟩
    let numbers := fun seeds => flow.numbering.collect (flow.closure seeds)
    flow.Runs [] seeds (flow.closure seeds) ∧
      (∃ C, IsLeast {C | flow.SeedClosed seeds C} C ∧
        (∀ x ∉ seeds, (∃ n ∈ numbers seeds, flow.numbering.number? x = some n) ↔ x ∈ C) ∧
        (∀ x ∈ seeds, flow.FedBy C x →
          ∃ n ∈ numbers seeds, flow.numbering.number? x = some n) ∧
        ∀ x ∈ seeds, (∃ n ∈ numbers seeds, flow.numbering.number? x = some n) →
          flow.FedBy C x ∨ flow.FusedWith C x) ∧
      ∀ seeds', (∀ x, x ∈ seeds' ↔ x ∈ seeds) →
        ∀ n, ¬(n ∈ numbers seeds ↔ n ∈ numbers seeds') →
          ∃ x ∈ seeds, flow.numbering.inst? n = some x ∧ f.IsCondBranch x := by
  intro flow numbers
  have hbranch : ∀ k, flow.func.IsCondBranch k → flow.isNumbered k = true :=
    fun _ hk => Func.IsCondBranch.isSome_number? hk
  have hfound (x : InstId) : (∃ n ∈ numbers seeds, flow.numbering.number? x = some n) ↔
      x ∈ flow.closure seeds :=
    exists_mem_collect_closure_iff (Numbering.agrees_ofFunc numberingIsa functionId f)
  refine ⟨runs_closure flow seeds, ⟨flow.reached seeds, isLeast_reached hbranch, ?_, ?_, ?_⟩, ?_⟩
  · intro x hx
    rw [hfound]
    exact (or_iff_right hx).symm
  · intro x _ hfed
    exact (hfound x).mpr (mem_closure_of_fedBy hfed)
  · intro x _ hx
    exact fedBy_or_fusedWith_of_mem_closure hbranch ((hfound x).mp hx)
  · intro seeds' hseeds n hdiffer
    -- the number is found with one order only, and so is its instruction
    obtain ⟨x, hinst, hx⟩ := Numbering.exists_inst?_of_collect_differ hdiffer
    obtain ⟨hseed, hk⟩ := seed_of_closure_differ hbranch hseeds hx
    exact ⟨x, hseed, hinst, hk⟩

/-- A function that loads a value and branches on a compare of it. -/
def comparedFunc : Func := .ofBlocks "@f"
  [("entry", [.op "load" [.value "%p"] (some "%x"), .op "cmp" [.value "%x", .int 0] none,
    .branch none 0 0])]

/-- The branch of `comparedFunc` is found from the load and itself as seeds, unless it comes
first. -/
theorem closure_iff_least_closed_comparedFunc :
    let flow : DataFlow := ⟨comparedFunc, .x86, .ofFunc .x86 (functionId 0) comparedFunc,
      (DefUse.ofFunc comparedFunc).consumers⟩
    flow.numbering.collect (flow.closure [0, 2]) = [1, 2] ∧
      flow.numbering.collect (flow.closure [2, 0]) = [1] ∧
      ∃ x ∈ [0, 2], flow.numbering.inst? 2 = some x ∧ comparedFunc.IsCondBranch x := by
  intro flow
  have hfirst : flow.numbering.collect (flow.closure [0, 2]) = [1, 2] := by decide +kernel
  have hlast : flow.numbering.collect (flow.closure [2, 0]) = [1] := by decide +kernel
  obtain ⟨-, -, horder⟩ := closure_iff_least_closed comparedFunc .x86 .x86 (functionId 0)
    (DefUse.ofFunc comparedFunc).consumers [0, 2]
  refine ⟨hfirst, hlast, horder [2, 0] (fun x => ?_) 2 ?_⟩
  · simp [or_comm]
  · simp only [flow] at hfirst hlast
    simp [hfirst, hlast]

end DataFlow

end Rejoin
