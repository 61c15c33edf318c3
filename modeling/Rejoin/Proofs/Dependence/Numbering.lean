import Rejoin.Dependence.Numbering
import Rejoin.Proofs.Machine.Lookup

/-!
# Numbers of instructions

A numbering keeps the number of each instruction in one table and the instructions in the order of
their numbers in another. One loop fills both, and each of its steps keeps them in agreement:
`Numbering.Agrees.add` and `Numbering.agrees_ofFunc`. So the numbers of a function without repeated
instructions go both ways: an instruction has a number exactly when it is substantive,
`Numbering.exists_number?_iff`, and a number belongs to one instruction,
`Numbering.Agrees.number?_eq_some_iff`. The numbers collected from a list of instructions are those
of its substantive ones, `Numbering.Agrees.mem_collect_iff`, in ascending order.
-/

namespace Rejoin

namespace Numbering

variable {numbering : Numbering} {id : InstId} {n : Nat} {ids : List InstId}

/-- The two tables of a numbering agree. -/
structure Agrees (numbering : Numbering) : Prop where
  /-- The number kept for an instruction is a place of the instruction. -/
  getElem?_order : ∀ id n, numbering.number? id = some n → numbering.order[n]? = some id
  /-- A number is kept for exactly the instructions that have a place. -/
  isSome_number?_iff : ∀ id, (numbering.number? id).isSome = true ↔ id ∈ numbering.order
  /-- As many numbers are kept as there are places. -/
  length_numbers : numbering.numbers.length = numbering.size

/-- Before anything is numbered the tables agree. -/
theorem agrees_empty (functionId : UInt32) : Agrees { functionId } where
  getElem?_order := by simp [number?]
  isSome_number?_iff := by simp [number?]
  length_numbers := rfl

namespace Agrees

variable (h : numbering.Agrees)

include h

/-- The next number is a new place at the end, so the tables still agree. -/
theorem add (id : InstId) : (numbering.add id).Agrees := by
  refine ⟨fun other n hn => ?_, fun other => ?_, ?_⟩
  · rw [number?, Numbering.add, List.lookup_cons] at hn
    rw [Numbering.add]
    -- the entry in front is the new one, and all others are as they were
    by_cases heq : other = id
    · subst heq
      simp only [beq_self_eq_true, Option.some.injEq] at hn
      subst hn
      simp
    · have hbeq : (other == id) = false := by simpa using heq
      rw [hbeq] at hn
      have hold := h.getElem?_order other n hn
      rwa [List.getElem?_append_left (List.getElem?_eq_some_iff.mp hold).1]
  · have hold := h.isSome_number?_iff other
    rw [number?, isSome_lookup_iff] at hold ⊢
    rw [Numbering.add, List.map_cons, List.mem_cons, hold, List.mem_append, List.mem_singleton,
      or_comm]
  · simpa [Numbering.add, size] using h.length_numbers

/-- A visit numbers the instruction or leaves the tables as they are. -/
theorem visit (isa : Isa) (entry : InstId × Inst BlockId) : (numbering.visit isa entry).Agrees := by
  rw [Numbering.visit]
  split
  · exact h.add entry.1
  · exact h

/-- Where no instruction has two places, the two tables are inverse. -/
theorem number?_eq_some_iff (hnodup : numbering.order.Nodup) :
    numbering.number? id = some n ↔ numbering.order[n]? = some id := by
  refine ⟨h.getElem?_order id n, fun hget => ?_⟩
  obtain ⟨m, hm⟩ := Option.isSome_iff_exists.mp
    ((h.isSome_number?_iff id).mpr (List.mem_of_getElem? hget))
  obtain ⟨hlt, heq⟩ := List.getElem?_eq_some_iff.mp hget
  obtain ⟨hlt', heq'⟩ := List.getElem?_eq_some_iff.mp (h.getElem?_order id m hm)
  rw [hm, (List.Nodup.getElem_inj_iff hnodup).mp (heq'.trans heq.symm)]

/-- The numbers in use are below the number of instructions. -/
theorem lt_size_of_number? (hn : numbering.number? id = some n) : n < numbering.size :=
  (List.getElem?_eq_some_iff.mp (h.getElem?_order id n hn)).1

/-- A number belongs to one instruction. -/
theorem number?_inj {other : InstId} (hid : numbering.number? id = some n)
    (hother : numbering.number? other = some n) : id = other :=
  Option.some.inj ((h.getElem?_order id n hid).symm.trans (h.getElem?_order other n hother))

end Agrees

/-- The entries are the places with their instructions. -/
theorem mem_entries_iff : (n, id) ∈ numbering.entries ↔ numbering.order[n]? = some id := by
  simp only [entries, List.mem_map, Prod.exists, Prod.mk.injEq, List.mk_mem_zipIdx_iff_getElem?]
  constructor
  · rintro ⟨_, _, h, rfl, rfl⟩
    exact h
  · intro h
    exact ⟨id, n, h, rfl, rfl⟩

/-- A number is collected if the instruction at its place is in the list. -/
theorem mem_collect_iff_getElem? :
    n ∈ numbering.collect ids ↔ ∃ id ∈ ids, numbering.order[n]? = some id := by
  simp only [collect, List.mem_map, List.mem_filter, Prod.exists, List.contains_iff_mem]
  constructor
  · rintro ⟨_, id, ⟨hentry, hid⟩, rfl⟩
    exact ⟨id, hid, mem_entries_iff.mp hentry⟩
  · rintro ⟨id, hid, hget⟩
    exact ⟨n, id, ⟨mem_entries_iff.mpr hget, hid⟩, rfl⟩

theorem lt_size_of_mem_collect (h : n ∈ numbering.collect ids) : n < numbering.size := by
  obtain ⟨id, -, hget⟩ := mem_collect_iff_getElem?.mp h
  exact (List.getElem?_eq_some_iff.mp hget).1

/-- From more instructions more numbers are collected. -/
theorem collect_subset {ids' : List InstId} (h : ids ⊆ ids') :
    numbering.collect ids ⊆ numbering.collect ids' := by
  intro n hn
  obtain ⟨id, hid, hget⟩ := mem_collect_iff_getElem?.mp hn
  exact mem_collect_iff_getElem?.mpr ⟨id, h hid, hget⟩

/-- The numbers collected from a list are those of its instructions. -/
theorem Agrees.mem_collect_iff (h : numbering.Agrees) (hnodup : numbering.order.Nodup) :
    n ∈ numbering.collect ids ↔ ∃ id ∈ ids, numbering.number? id = some n := by
  simp only [mem_collect_iff_getElem?, h.number?_eq_some_iff hnodup]

/-- A number that is collected from one of two lists only belongs to an instruction that is in one
of them only. -/
theorem exists_inst?_of_collect_differ {ids' : List InstId}
    (h : ¬(n ∈ numbering.collect ids ↔ n ∈ numbering.collect ids')) :
    ∃ id, numbering.inst? n = some id ∧ ¬(id ∈ ids ↔ id ∈ ids') := by
  by_contra! hsame
  refine h ?_
  rw [mem_collect_iff_getElem?, mem_collect_iff_getElem?]
  constructor
  · rintro ⟨id, hid, hget⟩
    exact ⟨id, (hsame id hget).mp hid, hget⟩
  · rintro ⟨id, hid, hget⟩
    exact ⟨id, (hsame id hget).mpr hid, hget⟩

/-- The number of an instruction is collected if the instruction is in the list. -/
theorem Agrees.exists_mem_collect_iff (h : numbering.Agrees) :
    (∃ n ∈ numbering.collect ids, numbering.number? id = some n) ↔
      id ∈ ids ∧ (numbering.number? id).isSome = true := by
  constructor
  · rintro ⟨n, hn, hnumber⟩
    obtain ⟨other, hother, horder⟩ := mem_collect_iff_getElem?.mp hn
    obtain rfl := Option.some.inj ((h.getElem?_order id n hnumber).symm.trans horder)
    exact ⟨hother, Option.isSome_of_eq_some hnumber⟩
  · rintro ⟨hid, hsome⟩
    obtain ⟨n, hn⟩ := Option.isSome_iff_exists.mp hsome
    exact ⟨n, mem_collect_iff_getElem?.mpr ⟨id, hid, h.getElem?_order id n hn⟩, hn⟩

/-- What is collected does not depend on the order of the list. -/
theorem collect_eq_of_mem_iff {ids' : List InstId} (h : ∀ id, id ∈ ids' ↔ id ∈ ids) :
    numbering.collect ids' = numbering.collect ids := by
  have hcontains : ∀ id, ids'.contains id = ids.contains id := by
    intro id
    rw [Bool.eq_iff_iff, List.contains_iff_mem, List.contains_iff_mem]
    exact h id
  simp only [collect, hcontains]

/-- Collected numbers are in ascending order, each once. -/
theorem pairwise_collect : (numbering.collect ids).Pairwise (· < ·) := by
  have hentries : numbering.entries.map Prod.fst = List.range numbering.order.length := by
    rw [entries, List.map_map, List.range_eq_range', ← List.zipIdx_map_snd]
    rfl
  have hsub : (numbering.collect ids).Sublist (List.range numbering.order.length) := by
    rw [collect, ← hentries]
    exact List.filter_sublist.map Prod.fst
  exact List.pairwise_lt_range.sublist hsub

section Func

variable {f : Func} {isa : Isa} {functionId : UInt32}

/-- The loop that numbers a row of instructions keeps the tables in agreement. -/
theorem Agrees.foldl_visit (h : numbering.Agrees) (isa : Isa)
    (insts : List (InstId × Inst BlockId)) :
    (insts.foldl (Numbering.visit isa) numbering).Agrees := by
  induction insts generalizing numbering with
  | nil => exact h
  | cons entry rest ih => exact ih (h.visit isa entry)

/-- The two tables of the numbering of a function agree. -/
theorem agrees_ofFunc (isa : Isa) (functionId : UInt32) (f : Func) :
    (ofFunc isa functionId f).Agrees :=
  (agrees_empty functionId).foldl_visit isa f.insts

/-- The loop gives the next numbers to the substantive instructions of the row, in order. -/
theorem foldl_visit_eq (isa : Isa) (insts : List (InstId × Inst BlockId)) (numbering : Numbering) :
    insts.foldl (visit isa) numbering =
      ((insts.filter fun entry => isa.isSubstantive entry.2).map Prod.fst).foldl add numbering := by
  induction insts generalizing numbering with
  | nil => rfl
  | cons entry rest ih =>
    rw [List.foldl_cons, ih, visit]
    cases hsub : isa.isSubstantive entry.2 with
    | false => simp [hsub]
    | true => simp [hsub]

/-- Numbered instructions are appended to the order. -/
theorem order_foldl_add (ids : List InstId) (numbering : Numbering) :
    (ids.foldl add numbering).order = numbering.order ++ ids := by
  induction ids generalizing numbering with
  | nil => simp
  | cons id rest ih => simp [ih, add]

/-- Giving out numbers leaves the function as it is. -/
theorem functionId_foldl_add (ids : List InstId) (numbering : Numbering) :
    (ids.foldl add numbering).functionId = numbering.functionId := by
  induction ids generalizing numbering with
  | nil => rfl
  | cons id rest ih => rw [List.foldl_cons, ih, add]

/-- The instructions in the order of their numbers are the substantive ones in layout order. -/
theorem order_ofFunc (isa : Isa) (functionId : UInt32) (f : Func) :
    (ofFunc isa functionId f).order =
      (f.insts.filter fun entry => isa.isSubstantive entry.2).map Prod.fst := by
  rw [ofFunc, foldl_visit_eq, order_foldl_add, List.nil_append]

@[simp]
theorem functionId_ofFunc (isa : Isa) (functionId : UInt32) (f : Func) :
    (ofFunc isa functionId f).functionId = functionId := by
  rw [ofFunc, foldl_visit_eq, functionId_foldl_add]

/-- The identifier of the function has no part in the numbers. -/
theorem ofFunc_eq_with (isa : Isa) (functionId functionId' : UInt32) (f : Func) :
    ofFunc isa functionId' f = { ofFunc isa functionId f with functionId := functionId' } := by
  have hfold (ids : List InstId) (numbering : Numbering) :
      ids.foldl add { numbering with functionId := functionId' } =
        { ids.foldl add numbering with functionId := functionId' } := by
    induction ids generalizing numbering with
    | nil => rfl
    | cons id rest ih => exact ih (numbering.add id)
  rw [ofFunc, ofFunc, foldl_visit_eq, foldl_visit_eq]
  exact hfold _ { functionId }

/-- Functions with the same substantive instructions in the same order are numbered alike. -/
theorem ofFunc_eq_of_order {f' : Func}
    (h : (ofFunc isa functionId f').order = (ofFunc isa functionId f).order) :
    ofFunc isa functionId f' = ofFunc isa functionId f := by
  rw [order_ofFunc, order_ofFunc] at h
  rw [ofFunc, ofFunc, foldl_visit_eq, foldl_visit_eq, h]

/-- The substantive instructions have places. -/
theorem mem_order_ofFunc_iff :
    id ∈ (ofFunc isa functionId f).order ↔
      ∃ inst, (id, inst) ∈ f.insts ∧ isa.isSubstantive inst = true := by
  simp [order_ofFunc]

/-- No instruction has two places. -/
theorem nodup_order_ofFunc (hf : (f.insts.map Prod.fst).Nodup) :
    (ofFunc isa functionId f).order.Nodup := by
  rw [order_ofFunc]
  exact hf.sublist (List.filter_sublist.map Prod.fst)

theorem size_ofFunc_le : (ofFunc isa functionId f).size ≤ f.insts.length := by
  rw [size, order_ofFunc, List.length_map]
  exact List.length_filter_le _ _

/-- Exactly the substantive instructions have numbers. -/
theorem exists_number?_iff (hf : f.Consistent) :
    (∃ n, (ofFunc isa functionId f).number? id = some n) ↔
      ∃ inst, f.inst? id = some inst ∧ isa.isSubstantive inst = true := by
  rw [← Option.isSome_iff_exists, (agrees_ofFunc isa functionId f).isSome_number?_iff,
    mem_order_ofFunc_iff]
  simp only [Func.inst?_eq_some_iff hf]

end Func

end Numbering

end Rejoin
