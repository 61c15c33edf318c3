import Mathlib.Data.Finset.Card
import Mathlib.Data.List.TakeWhile
import Rejoin.Dependence.Closure
import Rejoin.Proofs.Dependence.Numbering

/-!
# What the data closure finds

The closure works through instructions one at a time, and what one of them adds is
`DataFlow.found`. The work comes to an end, `DataFlow.runs_closure`, and facts about the whole of it
follow by induction on its steps:

* `DataFlow.forall_mem_closure_cons` — a property that every step passes on to what it finds holds
  of everything found;
* `DataFlow.mem_closure_of_consumer` and `DataFlow.mem_of_fusedBranch?` — the closure has the
  numbered consumers of the seeds and of everything found, and the branches fused with these, unless
  they are seeds;
* `DataFlow.exists_consumer_of_mem_closure` — it has nothing else.
-/

namespace Rejoin

namespace DataFlow

variable {flow : DataFlow} {x y c : InstId} {processed frontier results seeds : List InstId}

/-- At an instruction its numbered consumers are found, and the branches these are fused with unless
they have been processed. -/
theorem mem_found_iff :
    y ∈ flow.found processed x ↔ ∃ c ∈ flow.consumers x, flow.isNumbered c = true ∧
      (y = c ∨ flow.fusedBranch? c = some y ∧ y ∉ processed) := by
  simp only [found, List.mem_flatMap, List.mem_filter, List.mem_cons, Option.mem_toList,
    Option.filter_eq_some_iff, Bool.not_eq_true', List.contains_eq_mem,
    decide_eq_false_iff_not, and_assoc]

/-- Only numbered instructions are found. -/
theorem isNumbered_of_mem_found (h : y ∈ flow.found processed x) : flow.isNumbered y = true := by
  obtain ⟨c, -, hc, rfl | ⟨hfused, -⟩⟩ := mem_found_iff.mp h
  · exact hc
  · rw [fusedBranch?] at hfused
    split at hfused
    · rw [Option.filter_eq_some_iff, Bool.and_eq_true] at hfused
      exact hfused.2.2
    · cases hfused

/-- Either all of the frontier is processed and the run ends, or it works through the first
instruction that is not. -/
theorem follow_succ_cases (flow : DataFlow) (fuel : Nat) (processed frontier : List InstId) :
    (flow.follow (fuel + 1) processed frontier = [] ∧ ∀ x ∈ frontier, x ∈ processed) ∨
      ∃ skipped id rest, frontier = skipped ++ id :: rest ∧ (∀ x ∈ skipped, x ∈ processed) ∧
        id ∉ processed ∧
        flow.follow (fuel + 1) processed frontier =
          flow.found (id :: processed) id ++
            flow.follow fuel (id :: processed) (rest ++ flow.found (id :: processed) id) := by
  have hsplit := List.takeWhile_append_dropWhile (p := fun id => processed.contains id)
    (l := frontier)
  have hskipped : ∀ x ∈ frontier.takeWhile fun id => processed.contains id, x ∈ processed := by
    intro x hx
    simpa using List.mem_takeWhile_imp hx
  rw [follow]
  cases hdrop : frontier.dropWhile fun id => processed.contains id with
  | nil =>
    rw [hdrop, List.append_nil] at hsplit
    rw [hsplit] at hskipped
    exact Or.inl ⟨rfl, hskipped⟩
  | cons id rest =>
    rw [hdrop] at hsplit
    -- dropping stops at the first instruction that has not been processed
    have hid : id ∉ processed := by
      have hhead := List.head?_dropWhile_not (fun id => processed.contains id) frontier
      rw [hdrop] at hhead
      simpa using hhead
    exact Or.inr ⟨_, id, rest, hsplit.symm, hskipped, hid, rfl⟩

/-- The closure is given by what each step finds. -/
theorem closure_congr {flow' : DataFlow} (hfound : flow'.found = flow.found)
    (hlength : flow'.numbering.numbers.length = flow.numbering.numbers.length)
    (seeds : List InstId) : flow'.closure seeds = flow.closure seeds := by
  have hfollow (fuel : Nat) (processed frontier : List InstId) :
      flow'.follow fuel processed frontier = flow.follow fuel processed frontier := by
    induction fuel generalizing processed frontier with
    | zero => rfl
    | succ fuel ih => simp only [follow, hfound, ih]
  rw [closure, closure, hlength, hfollow]

/-- The work on a frontier, with nothing that bounds it: instructions are taken from the front,
those already processed are passed over, and what the others add goes to the back. The work ends,
and gives everything found, when the frontier is empty. -/
inductive Runs (flow : DataFlow) : List InstId → List InstId → List InstId → Prop
  | done (processed : List InstId) : Runs flow processed [] []
  | skip {processed rest results : List InstId} {id : InstId} (hid : id ∈ processed)
      (hrest : Runs flow processed rest results) : Runs flow processed (id :: rest) results
  | work {processed rest results : List InstId} {id : InstId} (hid : id ∉ processed)
      (hrest : Runs flow (id :: processed) (rest ++ flow.found (id :: processed) id) results) :
      Runs flow processed (id :: rest) (flow.found (id :: processed) id ++ results)

/-- Instructions that have been processed may stand in front of the queue. -/
theorem Runs.skip_append {skipped : List InstId} (hskipped : ∀ x ∈ skipped, x ∈ processed)
    (h : flow.Runs processed frontier results) :
    flow.Runs processed (skipped ++ frontier) results := by
  induction skipped with
  | nil => exact h
  | cons id rest ih =>
    rw [List.forall_mem_cons] at hskipped
    exact .skip hskipped.1 (ih hskipped.2)

/-- With enough fuel for the instructions of `all` that are not processed, the work ends. -/
theorem runs_follow {all : Finset InstId} (hall : ∀ x, flow.isNumbered x = true → x ∈ all)
    {fuel : Nat} (hfuel : (all \ processed.toFinset).card ≤ fuel)
    (hfrontier : ∀ x ∈ frontier, x ∈ all) :
    flow.Runs processed frontier (flow.follow fuel processed frontier) := by
  induction fuel generalizing processed frontier with
  | zero =>
    -- all of `all` is processed, and the frontier is part of it
    have hempty := Finset.sdiff_eq_empty_iff_subset.mp
      (Finset.card_eq_zero.mp (Nat.le_zero.mp hfuel))
    have hdone : ∀ x ∈ frontier, x ∈ processed := fun x hx =>
      List.mem_toFinset.mp (hempty (hfrontier x hx))
    simpa [follow] using (Runs.done processed).skip_append hdone
  | succ fuel ih =>
    rcases follow_succ_cases flow fuel processed frontier with
      ⟨hend, hdone⟩ | ⟨skipped, id, rest, rfl, hskipped, hid, hnext⟩
    · rw [hend]
      simpa using (Runs.done processed).skip_append hdone
    · -- there is one instruction less to process
      have hidAll : id ∈ all \ processed.toFinset := by
        simp [hfrontier id (by simp), hid]
      rw [hnext]
      refine Runs.skip_append hskipped (.work hid (ih ?_ ?_))
      · rw [List.toFinset_cons, Finset.sdiff_insert, Finset.card_erase_of_mem hidAll]
        omega
      · rw [List.forall_mem_append]
        exact ⟨fun x hx => hfrontier x (by simp [hx]),
          fun x hx => hall x (isNumbered_of_mem_found hx)⟩

/-- The closure is worked through to the end. -/
theorem runs_closure (flow : DataFlow) (seeds : List InstId) :
    flow.Runs [] seeds (flow.closure seeds) := by
  -- only seeds and numbered instructions are ever in the frontier
  let all : Finset InstId := (seeds ++ flow.numbering.numbers.map Prod.fst).toFinset
  have hall : ∀ x, flow.isNumbered x = true → x ∈ all := by
    intro x hx
    have hkey : x ∈ flow.numbering.numbers.map Prod.fst := isSome_lookup_iff.mp hx
    exact List.mem_toFinset.mpr (List.mem_append_right seeds hkey)
  have hfuel : (all \ ([] : List InstId).toFinset).card ≤
      seeds.length + flow.numbering.numbers.length := by
    rw [List.toFinset_nil, Finset.sdiff_empty, ← List.length_map Prod.fst, ← List.length_append]
    exact List.toFinset_card_le _
  have hseeds : ∀ x ∈ seeds, x ∈ all := by
    intro x hx
    simp [all, hx]
  exact runs_follow hall hfuel hseeds

/-- A property that every step passes on to what it finds, from all of `source` to `target`, holds
of everything found. -/
theorem Runs.forall_mem (source target : InstId → Prop) (htarget : ∀ x, target x → source x)
    (h : flow.Runs processed frontier results)
    (hstep : ∀ processed' x y, processed ⊆ processed' → source x →
      y ∈ flow.found processed' x → target y)
    (hfrontier : ∀ x ∈ frontier, source x) : ∀ y ∈ results, target y := by
  induction h with
  | done => exact List.forall_mem_nil _
  | skip _ _ ih => exact ih hstep (List.forall_mem_cons.mp hfrontier).2
  | @work processed rest results id _ _ ih =>
    obtain ⟨hid, hrest⟩ := List.forall_mem_cons.mp hfrontier
    -- what is found now is in `target`, hence in `source`, and may join the frontier
    have hnew : ∀ y ∈ flow.found (id :: processed) id, target y := fun y hy =>
      hstep _ id y (List.subset_cons_self id processed) hid hy
    refine List.forall_mem_append.mpr ⟨hnew, ih (fun processed' x y hsub => ?_) ?_⟩
    · exact hstep processed' x y (List.Subset.trans (List.subset_cons_self id processed) hsub)
    · exact List.forall_mem_append.mpr ⟨hrest, fun x hx => htarget x (hnew x hx)⟩

/-- Whatever is found was added by an instruction of the frontier or by something found. -/
theorem Runs.exists_mem_found (h : flow.Runs processed frontier results) (hy : y ∈ results) :
    ∃ x processed', (x ∈ frontier ∨ x ∈ results) ∧ y ∈ flow.found processed' x := by
  -- the run is followed back to the step that put `y` into the results
  induction h with
  | done => exact absurd hy List.not_mem_nil
  | skip _ _ ih =>
    obtain ⟨x, processed', hx, hadded⟩ := ih hy
    exact ⟨x, processed', hx.imp_left (List.mem_cons_of_mem _), hadded⟩
  | @work processed rest results id _ _ ih =>
    rcases List.mem_append.mp hy with hy | hy
    · exact ⟨id, _, Or.inl List.mem_cons_self, hy⟩
    · obtain ⟨x, processed', hx, hadded⟩ := ih hy
      refine ⟨x, processed', ?_, hadded⟩
      grind

/-- Every instruction that comes up is worked through, and what is processed by then was processed
before or has come up. -/
theorem Runs.exists_found_subset (h : flow.Runs processed frontier results)
    (hx : x ∈ frontier ∨ x ∈ results) (hprocessed : x ∉ processed) :
    ∃ processed', (∀ y ∈ processed', y ∈ processed ∨ y ∈ frontier ∨ y ∈ results) ∧
      flow.found processed' x ⊆ results := by
  induction h with
  | done => simp at hx
  | skip hid _ ih =>
    have hne : x ≠ _ := fun heq => hprocessed (heq ▸ hid)
    obtain ⟨processed', hsub, hfound⟩ := ih (by simpa [hne] using hx) hprocessed
    refine ⟨processed', fun y hy => ?_, hfound⟩
    exact (hsub y hy).imp_right fun hy => hy.imp_left (List.mem_cons_of_mem _)
  | @work processed rest results id _ _ ih =>
    by_cases hxid : x = id
    · subst hxid
      -- `x` is worked on now, and what it finds is put into the results
      refine ⟨x :: processed, fun y hy => ?_, List.subset_append_left _ _⟩
      rcases List.mem_cons.mp hy with rfl | hy
      · exact Or.inr (Or.inl List.mem_cons_self)
      · exact Or.inl hy
    · -- `x` is still to come
      have hlater : x ∈ rest ++ flow.found (id :: processed) id ∨ x ∈ results := by
        grind
      obtain ⟨processed', hsub, hfound⟩ := ih hlater (by simp [hxid, hprocessed])
      refine ⟨processed', fun y hy => ?_, List.Subset.trans hfound (List.subset_append_right _ _)⟩
      have hy := hsub y hy
      grind

/-- Only numbered instructions are in the closure. -/
theorem isNumbered_of_mem_closure (h : y ∈ flow.closure seeds) : flow.isNumbered y = true := by
  obtain ⟨x, processed, -, hfound⟩ := (runs_closure flow seeds).exists_mem_found h
  exact isNumbered_of_mem_found hfound

/-- A property that every step passes on to what it finds holds of everything in the closure. The
first seed is processed at every step. -/
theorem forall_mem_closure_cons (source target : InstId → Prop) {first : InstId}
    (htarget : ∀ x, target x → source x)
    (hstep : ∀ processed x y, first ∈ processed → source x →
      y ∈ flow.found processed x → target y)
    (hfirst : source first) (hseeds : ∀ x ∈ seeds, source x) :
    ∀ y ∈ flow.closure (first :: seeds), target y := by
  have hrun := runs_closure flow (first :: seeds)
  generalize flow.closure (first :: seeds) = results at hrun
  cases hrun with
  | skip hfirst => cases hfirst
  | work _ hrest =>
    have hnew : ∀ y ∈ flow.found [first] first, target y := fun y hy =>
      hstep [first] first y List.mem_cons_self hfirst hy
    refine List.forall_mem_append.mpr ⟨hnew, hrest.forall_mem source target htarget ?_ ?_⟩
    · exact fun processed x y hsub => hstep processed x y (hsub List.mem_cons_self)
    · exact List.forall_mem_append.mpr ⟨hseeds, fun x hx => htarget x (hnew x hx)⟩

/-- The numbered consumers of the seeds and of everything in the closure are in the closure. -/
theorem mem_closure_of_consumer (hx : x ∈ seeds ∨ x ∈ flow.closure seeds)
    (hc : c ∈ flow.consumers x) (hnumbered : flow.isNumbered c = true) :
    c ∈ flow.closure seeds := by
  obtain ⟨processed, -, hfound⟩ :=
    (runs_closure flow seeds).exists_found_subset hx List.not_mem_nil
  exact hfound (mem_found_iff.mpr ⟨c, hc, hnumbered, Or.inl rfl⟩)

/-- A branch fused with such a consumer is in the closure too, unless it is a seed. -/
theorem mem_of_fusedBranch? (hx : x ∈ seeds ∨ x ∈ flow.closure seeds)
    (hc : c ∈ flow.consumers x) (hnumbered : flow.isNumbered c = true)
    (hy : flow.fusedBranch? c = some y) : y ∈ seeds ∨ y ∈ flow.closure seeds := by
  obtain ⟨processed, hprocessed, hfound⟩ :=
    (runs_closure flow seeds).exists_found_subset hx List.not_mem_nil
  by_cases hmem : y ∈ processed
  · exact (hprocessed y hmem).resolve_left List.not_mem_nil
  · exact Or.inr (hfound (mem_found_iff.mpr ⟨c, hc, hnumbered, Or.inr ⟨hy, hmem⟩⟩))

/-- The closure has nothing else. -/
theorem exists_consumer_of_mem_closure (h : y ∈ flow.closure seeds) :
    ∃ x, (x ∈ seeds ∨ x ∈ flow.closure seeds) ∧ ∃ c ∈ flow.consumers x,
      flow.isNumbered c = true ∧ (y = c ∨ flow.fusedBranch? c = some y) := by
  obtain ⟨x, processed, hx, hfound⟩ := (runs_closure flow seeds).exists_mem_found h
  obtain ⟨c, hc, hnumbered, hy⟩ := mem_found_iff.mp hfound
  exact ⟨x, hx, c, hc, hnumbered, hy.imp_right And.left⟩

end DataFlow

end Rejoin
