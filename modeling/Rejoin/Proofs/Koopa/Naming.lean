import Mathlib.Data.List.ReduceOption
import Rejoin.Koopa.Lowering
import Rejoin.Proofs.Koopa.Check
import Rejoin.Proofs.Text.Numeral

/-!
# Names of Koopa values

An operand of a machine instruction is a name, where a Koopa operand is a value. Names are given in
the text or made up, and if the given ones are distinct and none of them looks made up,
`Function.ClearlyNamed`, no two values share one. So a name stands for one value,
`Function.instName?_inj`, and a machine operand reads the result of an instruction exactly if the
operand it comes from is that result, `Function.value?_operand_iff`.
-/

namespace Rejoin.Koopa

/-- The name that is given to a result. -/
def Result.given? : Result → Option String
  | .named name => some name
  | .unit | .unnamed => none

/-- The name is one that lowering makes up. -/
def IsMadeUp (name : String) : Prop :=
  name = Function.noName ∨ ∃ n, name = freshName n

theorem toList_freshName (n : Nat) :
    (freshName n).toList = '%' :: '.' :: 'v' :: (decimal n).toList := by
  rw [freshName, String.toList_append]
  rfl

/-- Fresh names of different numbers differ. -/
theorem freshName_injective : Function.Injective freshName := by
  intro m n h
  have hdigits : (decimal m).toList = (decimal n).toList := by
    have hlist := congrArg String.toList h
    rw [toList_freshName, toList_freshName] at hlist
    simpa using hlist
  have hm := spells_decimal m
  rw [hdigits] at hm
  exact hm.unique (spells_decimal n)

/-- No fresh name is that of a missing value. -/
theorem freshName_ne_noName (n : Nat) : freshName n ≠ Function.noName := by
  intro h
  have hlist := congrArg String.toList h
  rw [toList_freshName] at hlist
  simp [Function.noName] at hlist

/-- Names that are made up start with a percent sign and a dot. -/
theorem not_isMadeUp {name : String} (h : name.toList[1]? ≠ some '.') : ¬IsMadeUp name := by
  rintro (rfl | ⟨n, rfl⟩)
  · exact h (by decide)
  · exact h (by rw [toList_freshName]; rfl)

/-! ## Names in order -/

section assignNames

variable {fresh : Nat} {results : List Result} {name : String}

/-- Names are given, or made up from the next number on. -/
theorem given_or_fresh_of_mem (h : some name ∈ assignNames fresh results) :
    name ∈ results.filterMap Result.given? ∨ ∃ n, fresh ≤ n ∧ name = freshName n := by
  -- the counter of fresh names only grows
  induction results generalizing fresh with
  | nil => simp [assignNames] at h
  | cons result rest ih =>
    cases result with
    | unit =>
      simp only [assignNames, List.mem_cons, reduceCtorEq, false_or] at h
      exact ih h
    | named given =>
      simp only [assignNames, List.mem_cons, Option.some.injEq] at h
      rcases h with rfl | h
      · exact .inl List.mem_cons_self
      · exact (ih h).imp_left (List.mem_cons_of_mem given)
    | unnamed =>
      simp only [assignNames, List.mem_cons, Option.some.injEq] at h
      rcases h with rfl | h
      · exact .inr ⟨fresh, le_rfl, rfl⟩
      · exact (ih h).imp_right fun ⟨n, hn, heq⟩ => ⟨n, Nat.le_of_succ_le hn, heq⟩

/-- No name is used twice, if the given names are distinct and none of them looks made up. -/
theorem nodup_assignNames (hnodup : (results.filterMap Result.given?).Nodup)
    (hclear : ∀ name ∈ results.filterMap Result.given?, ∀ n, name ≠ freshName n) :
    (assignNames fresh results).reduceOption.Nodup := by
  induction results generalizing fresh with
  | nil => simp [assignNames]
  | cons result rest ih =>
    cases result with
    | unit => exact ih hnodup hclear
    | named given =>
      simp only [List.filterMap_cons, Result.given?, List.nodup_cons, List.forall_mem_cons]
        at hnodup hclear
      rw [assignNames, List.reduceOption_cons_of_some, List.nodup_cons, List.reduceOption_mem_iff]
      refine ⟨fun hmem => ?_, ih hnodup.2 hclear.2⟩
      rcases given_or_fresh_of_mem hmem with hgiven | ⟨n, -, rfl⟩
      · exact hnodup.1 hgiven
      · exact hclear.1 n rfl
    | unnamed =>
      rw [assignNames, List.reduceOption_cons_of_some, List.nodup_cons, List.reduceOption_mem_iff]
      refine ⟨fun hmem => ?_, ih hnodup hclear⟩
      -- later names are given, or have a higher number
      rcases given_or_fresh_of_mem hmem with hgiven | ⟨n, hn, heq⟩
      · exact hclear _ hgiven fresh rfl
      · have := freshName_injective heq
        omega

/-- Everything but the lack of a result gets a name. -/
theorem getElem?_assignNames_isSome_iff {place : Nat} :
    ((assignNames fresh results)[place]?).join.isSome = true ↔
      ∃ result, results[place]? = some result ∧ result ≠ .unit := by
  induction results generalizing fresh place with
  | nil => simp [assignNames]
  | cons result rest ih =>
    cases place with
    | zero => cases result <;> simp [assignNames]
    | succ place => cases result <;> simpa [assignNames] using ih

end assignNames

/-- In a list without repeated names, a name stands at one place. -/
theorem place_unique {names : List (Option String)} (h : names.reduceOption.Nodup) {i j : Nat}
    {name : String} (hi : names[i]? = some (some name)) (hj : names[j]? = some (some name)) :
    i = j := by
  rw [List.reduceOption, List.Nodup, List.pairwise_filterMap, List.pairwise_iff_getElem] at h
  obtain ⟨hilt, hieq⟩ := List.getElem?_eq_some_iff.mp hi
  obtain ⟨hjlt, hjeq⟩ := List.getElem?_eq_some_iff.mp hj
  rcases Nat.lt_trichotomy i j with hij | hij | hij
  · exact absurd rfl (h i j hilt hjlt hij name hieq name hjeq)
  · exact hij
  · exact absurd rfl (h j i hjlt hilt hij name hjeq name hieq)

/-! ## Names in a function -/

namespace Function

/-- The names given in a function: to its parameters, to the results of its instructions, and to the
parameters of its blocks. -/
def givenNames (f : Function) : List String :=
  f.results.filterMap Result.given? ++ f.blocks.flatMap fun b => b.params.reduceOption

/-- Given names can be told apart, from each other and from those made up. -/
structure ClearlyNamed (f : Function) : Prop where
  /-- No name is given twice. -/
  nodup : f.givenNames.Nodup
  /-- None of them looks made up. -/
  not_madeUp : ∀ name ∈ f.givenNames, ¬IsMadeUp name

variable {f : Function} {place : Nat} {name : String}

/-- The names of instructions stand behind those of the parameters. -/
theorem instName?_eq_some_iff :
    f.instName? place = some name ↔ f.valueNames[f.params.length + place]? = some (some name) := by
  rw [instName?, Option.join_eq_some_iff]

/-- Exactly the instructions with a result have a name. -/
theorem isSome_instName?_iff :
    (f.instName? place).isSome = true ↔
      ∃ inst, f.insts[place]? = some inst ∧ inst.result ≠ .unit := by
  rw [instName?, valueNames, getElem?_assignNames_isSome_iff, results,
    List.getElem?_append_right (by simp)]
  simp

/-- The name of an instruction is one of the names of values. -/
theorem mem_valueNames_of_instName? (h : f.instName? place = some name) :
    some name ∈ f.valueNames :=
  List.mem_of_getElem? (instName?_eq_some_iff.mp h)

/-- The names of parameters are the first ones. -/
theorem paramName?_eq_some (h : f.paramName? place = some name) :
    place < f.params.length ∧ f.valueNames[place]? = some (some name) := by
  rw [paramName?, Option.join_eq_some_iff, List.getElem?_take] at h
  split at h
  next hlt => exact ⟨hlt, h⟩
  next => cases h

section ClearlyNamed

variable (hf : f.ClearlyNamed)

include hf

theorem nodup_valueNames : f.valueNames.reduceOption.Nodup :=
  nodup_assignNames hf.nodup.of_append_left fun name hname n heq =>
    hf.not_madeUp name (List.mem_append_left _ hname) (.inr ⟨n, heq⟩)

/-- A name stands for the result of one instruction. -/
theorem instName?_inj {other : Nat} (hplace : f.instName? place = some name)
    (hother : f.instName? other = some name) : place = other := by
  have := place_unique (nodup_valueNames hf) (instName?_eq_some_iff.mp hplace)
    (instName?_eq_some_iff.mp hother)
  omega

/-- No instruction has the name of a missing value. -/
theorem ne_noName_of_instName? (h : f.instName? place = some name) : name ≠ noName := by
  rintro rfl
  rcases given_or_fresh_of_mem (mem_valueNames_of_instName? h) with hgiven | ⟨n, -, heq⟩
  · exact hf.not_madeUp _ (List.mem_append_left _ hgiven) (.inl rfl)
  · exact freshName_ne_noName n heq.symm

/-- A parameter of a block has another name than every result of an instruction. -/
theorem blockParamName?_ne_instName? {block param : Nat} (h : f.instName? place = some name) :
    f.blockParamName? block param ≠ some name := by
  intro hparam
  rw [blockParamName?, Option.join_eq_some_iff, Option.bind_eq_some_iff] at hparam
  obtain ⟨b, hb, hparam⟩ := hparam
  have hmem : name ∈ f.blocks.flatMap fun b => b.params.reduceOption :=
    List.mem_flatMap.mpr ⟨b, List.mem_of_getElem? hb,
      List.reduceOption_mem_iff.mpr (List.mem_of_getElem? hparam)⟩
  rcases given_or_fresh_of_mem (mem_valueNames_of_instName? h) with hgiven | ⟨n, -, rfl⟩
  · exact (List.nodup_append.mp hf.nodup).2.2 name hgiven name hmem rfl
  · exact hf.not_madeUp _ (List.mem_append_right _ hmem) (.inr ⟨n, rfl⟩)

/-- **An operand reads the result of an instruction exactly if it is that result.** -/
theorem value?_operand_iff {value : Value} (h : f.instName? place = some name) :
    (f.operand value).value? = some name ↔ value = .inst place := by
  have hnone {name? : Option String} (hne : name? ≠ some name) :
      (Operand.value (name?.getD noName)).value? ≠ some name := by
    cases name? with
    | none => simpa [Operand.value?] using (ne_noName_of_instName? hf h).symm
    | some other => simpa [Operand.value?] using hne
  cases value with
  | inst other =>
    rw [Value.inst.injEq]
    refine ⟨fun hvalue => ?_, ?_⟩
    · by_contra hne
      exact hnone (fun hother => hne (instName?_inj hf hother h)) hvalue
    · rintro rfl
      simp [operand, h, Operand.value?]
  | param other =>
    refine iff_of_false (hnone fun hother => ?_) nofun
    -- parameters come before instructions
    obtain ⟨hlt, hother⟩ := paramName?_eq_some hother
    have := place_unique (nodup_valueNames hf) hother (instName?_eq_some_iff.mp h)
    omega
  | blockParam block param =>
    exact iff_of_false (hnone (blockParamName?_ne_instName? hf h)) nofun
  | aggregate => exact iff_of_false (@hnone none nofun) nofun
  | global | int | blank => exact iff_of_false nofun nofun

end ClearlyNamed

end Function

end Rejoin.Koopa
