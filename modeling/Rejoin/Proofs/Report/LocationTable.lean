import Rejoin.Proofs.Dependence.Numbering
import Rejoin.Report.LocationTable

/-!
# Location tables

The table of a function has one entry for each number, in order. In a program of which functions and
instructions can be counted in 32 bits no two entries have the same location, and every location is
marked as one by its function.
-/

namespace Rejoin

/-! ## Identifiers of functions -/

/-- Identifiers are counted on from the first one as long as 32 bits are enough. -/
theorem toNat_functionId {ordinal : Nat} (h : ordinal < UInt32.size - 10000) :
    (functionId ordinal).toNat = 10000 + ordinal := by
  rw [UInt32.size] at h
  rw [functionId, functionIdBase, UInt32.toNat_add, UInt32.toNat_ofNat']
  simp only [UInt32.reduceToNat]
  omega

theorem functionIdBase_le_functionId {ordinal : Nat} (h : ordinal < UInt32.size - 10000) :
    functionIdBase ≤ functionId ordinal := by
  rw [UInt32.le_iff_toNat_le, toNat_functionId h]
  exact Nat.le_add_right 10000 ordinal

/-- Read in the order of their places, the instructions have the numbers from 0 up. -/
theorem Numbering.Agrees.filterMap_number? {numbering : Numbering} (h : numbering.Agrees)
    (hnodup : numbering.order.Nodup) :
    numbering.order.filterMap numbering.number? = List.range numbering.size := by
  have hmap : numbering.order.map numbering.number? = (List.range numbering.size).map some := by
    refine List.ext_getElem (by simp [Numbering.size]) fun n hn _ => ?_
    rw [List.length_map] at hn
    simpa using (h.number?_eq_some_iff hnodup).mpr (List.getElem?_eq_getElem hn)
  calc numbering.order.filterMap numbering.number?
    _ = (numbering.order.map numbering.number?).filterMap id := by simp [List.filterMap_map]
    _ = ((List.range numbering.size).map some).filterMap id := by rw [hmap]
    _ = List.range numbering.size := by simp [List.filterMap_map]

namespace Func

variable {f : Func} {isa : Isa} {functionId : UInt32} {entry : LocationEntry}

/-- A location is listed under the name of its function. -/
theorem function_of_mem_locations (h : entry ∈ f.locations isa functionId) :
    entry.function = f.name := by
  obtain ⟨id, -, hentry⟩ := List.mem_filterMap.mp h
  obtain ⟨location, -, hentry⟩ := Option.bind_eq_some_iff.mp hentry
  rw [← Option.some.inj hentry]

/-- The entries of a function have its numbers, in order. -/
theorem map_location_locations (hf : (f.insts.map Prod.fst).Nodup) :
    (f.locations isa functionId).map LocationEntry.location =
      (List.range (Numbering.ofFunc isa functionId f).size).map fun n =>
        ⟨UInt32.ofNat n, functionId⟩ := by
  rw [locations, List.map_filterMap,
    ← (Numbering.agrees_ofFunc isa functionId f).filterMap_number?
      (Numbering.nodup_order_ofFunc hf), List.map_filterMap]
  refine List.filterMap_congr fun id _ => ?_
  rw [Numbering.location?, Numbering.functionId_ofFunc]
  cases (Numbering.ofFunc isa functionId f).number? id <;> rfl

end Func

namespace Program

variable {program : Program} {isa : Isa} {entry : LocationEntry}

/-- The functions of a program, and the instructions of each, can be counted in 32 bits. -/
structure Countable (program : Program) : Prop where
  /-- Every function has an identifier of its own. -/
  functions : program.functions.length < UInt32.size - 10000
  /-- Every instruction has a number of its own. -/
  insts : ∀ f ∈ program.functions, f.insts.length < UInt32.size

/-- The table of a program is made of the tables of its functions. -/
theorem mem_locations_iff :
    entry ∈ program.locations isa ↔ ∃ (f : Func) (i : Nat), program.functions[i]? = some f ∧
      entry ∈ f.locations isa (functionId i) := by
  simp only [locations, List.mem_flatMap, Prod.exists, List.mk_mem_zipIdx_iff_getElem?]

/-- Every number of a function has an entry. -/
theorem exists_mem_locations {f : Func} {i n : Nat} (hi : program.functions[i]? = some f)
    (hids : (f.insts.map Prod.fst).Nodup)
    (hn : n < (Numbering.ofFunc isa (functionId i) f).size) :
    ∃ entry ∈ program.locations isa, entry.function = f.name ∧
      entry.location = ⟨UInt32.ofNat n, functionId i⟩ := by
  have hmem : ⟨UInt32.ofNat n, functionId i⟩ ∈
      (f.locations isa (functionId i)).map LocationEntry.location := by
    rw [Func.map_location_locations hids]
    exact List.mem_map_of_mem (List.mem_range.mpr hn)
  obtain ⟨entry, hentry, hlocation⟩ := List.mem_map.mp hmem
  exact ⟨entry, mem_locations_iff.mpr ⟨f, i, hi, hentry⟩, Func.function_of_mem_locations hentry,
    hlocation⟩

namespace Countable

variable (hcount : program.Countable) {f : Func} {i : Nat}

include hcount

theorem lt_of_getElem? (hf : program.functions[i]? = some f) : i < UInt32.size - 10000 :=
  (List.getElem?_eq_some_iff.mp hf).1.trans hcount.functions

theorem toNat_ofNat (hf : f ∈ program.functions) {functionId : UInt32} {n : Nat}
    (hn : n < (Numbering.ofFunc isa functionId f).size) : (UInt32.ofNat n).toNat = n :=
  UInt32.toNat_ofNat_of_lt' (hn.trans (Numbering.size_ofFunc_le.trans_lt (hcount.insts f hf)))

/-- Every location is marked as one by its function. -/
theorem functionIdBase_le (hids : ∀ f ∈ program.functions, (f.insts.map Prod.fst).Nodup)
    (hentry : entry ∈ program.locations isa) : functionIdBase ≤ entry.location.function := by
  obtain ⟨f, i, hi, hentry⟩ := mem_locations_iff.mp hentry
  have hlocation := List.mem_map_of_mem (f := LocationEntry.location) hentry
  rw [Func.map_location_locations (hids f (List.mem_of_getElem? hi))] at hlocation
  obtain ⟨n, -, hlocation⟩ := List.mem_map.mp hlocation
  rw [← hlocation]
  exact functionIdBase_le_functionId (hcount.lt_of_getElem? hi)

end Countable

/-- No two instructions of a program have the same location. -/
theorem nodup_locations (hcount : program.Countable)
    (hids : ∀ f ∈ program.functions, (f.insts.map Prod.fst).Nodup) (isa : Isa) :
    ((program.locations isa).map LocationEntry.location).Nodup := by
  rw [locations, List.map_flatMap, List.nodup_flatMap]
  constructor
  · -- in one function the numbers differ
    rintro ⟨f, i⟩ hmem
    have hf := List.mem_of_getElem? (List.mk_mem_zipIdx_iff_getElem?.mp hmem)
    rw [Func.map_location_locations (hids f hf)]
    refine List.nodup_range.map_on fun m hm n hn hmn => ?_
    rw [List.mem_range] at hm hn
    rw [← hcount.toNat_ofNat hf hm, ← hcount.toNat_ofNat hf hn, (Location.mk.inj hmn).1]
  · -- in two functions the identifiers do
    have hlt : program.functions.zipIdx.Pairwise fun a b => a.2 < b.2 := by
      rw [← List.pairwise_map, List.zipIdx_map_snd]
      exact List.pairwise_lt_range'
    refine hlt.imp_of_mem ?_
    rintro ⟨f, i⟩ ⟨g, j⟩ hfmem hgmem hij location hlocf hlocg
    have hf := List.mk_mem_zipIdx_iff_getElem?.mp hfmem
    have hg := List.mk_mem_zipIdx_iff_getElem?.mp hgmem
    dsimp only at hij hlocf hlocg
    rw [Func.map_location_locations (hids f (List.mem_of_getElem? hf))] at hlocf
    rw [Func.map_location_locations (hids g (List.mem_of_getElem? hg))] at hlocg
    obtain ⟨m, -, rfl⟩ := List.mem_map.mp hlocf
    obtain ⟨n, -, heq⟩ := List.mem_map.mp hlocg
    have hid := congrArg UInt32.toNat (Location.mk.inj heq).2
    rw [toNat_functionId (hcount.lt_of_getElem? hg),
      toNat_functionId (hcount.lt_of_getElem? hf)] at hid
    omega

end Program

end Rejoin
