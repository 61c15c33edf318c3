import Mathlib.Data.List.Forall2

/-!
# Outcomes of computations that may fail

How a success of a sequence of steps, or of one step for each element of a list, comes apart into
successes of the steps. A sequence of checks fails with the first fault that any of them finds:
`FailsFirst`. If each fault is that of some member of a list, it is the one of the first member that
has any, `IsFirst`.
-/

namespace Rejoin

variable {ε α β : Type}

/-- Two steps succeed exactly when the first does and the second does with its result. -/
theorem bind_eq_ok_iff {x : Except ε α} {k : α → Except ε β} {b : β} :
    (x >>= k) = .ok b ↔ ∃ a, x = .ok a ∧ k a = .ok b := by
  cases x with
  | error e => simp [bind, Except.bind]
  | ok a => simp [bind, Except.bind]

/-- A step for each element of a list succeeds exactly when every step does. -/
theorem mapM_eq_ok_iff {k : α → Except ε β} {xs : List α} {ys : List β} :
    xs.mapM k = .ok ys ↔ List.Forall₂ (fun x y => k x = .ok y) xs ys := by
  induction xs generalizing ys with
  | nil =>
    rw [List.mapM_nil, List.forall₂_nil_left_iff]
    exact ⟨fun h => (Except.ok.inj h).symm, fun h => congrArg Except.ok h.symm⟩
  | cons x xs ih =>
    rw [List.mapM_cons, bind_eq_ok_iff, List.forall₂_cons_left_iff]
    constructor
    · rintro ⟨y, hy, h⟩
      obtain ⟨rest, hrest, heq⟩ := bind_eq_ok_iff.mp h
      exact ⟨y, rest, hy, ih.mp hrest, (Except.ok.inj heq).symm⟩
    · rintro ⟨y, rest, hy, hrest, rfl⟩
      exact ⟨y, hy, bind_eq_ok_iff.mpr ⟨rest, ih.mpr hrest, rfl⟩⟩

/-- Where every step succeeds, the results are listed in order. -/
theorem mapM_eq_ok_map {k : α → Except ε β} {result : α → β} {xs : List α}
    (h : ∀ x ∈ xs, k x = .ok (result x)) : xs.mapM k = .ok (xs.map result) := by
  rw [mapM_eq_ok_iff, List.forall₂_map_right_iff, List.forall₂_same]
  exact h

/-- Where a step for each element of a list succeeds, every step does. -/
theorem exists_ok_of_mapM {k : α → Except ε β} {xs : List α} {ys : List β}
    (h : xs.mapM k = .ok ys) {x : α} (hx : x ∈ xs) : ∃ y, k x = .ok y := by
  rw [mapM_eq_ok_iff] at h
  induction h with
  | nil => cases hx
  | cons hfirst _ ih =>
    rcases List.mem_cons.mp hx with rfl | hx
    · exact ⟨_, hfirst⟩
    · exact ih hx

/-! ## First faults -/

/-- The first member of a list that has the property. -/
def IsFirst (P : α → Prop) (xs : List α) (x : α) : Prop :=
  ∃ before after, xs = before ++ x :: after ∧ P x ∧ ∀ y ∈ before, ¬P y

/-- The head of what a filter keeps is the first element with the property. -/
theorem head?_filter_eq_some_iff {P : α → Prop} {p : α → Bool}
    (hp : ∀ x, p x = true ↔ P x) {xs : List α} {x : α} :
    (xs.filter p).head? = some x ↔ IsFirst P xs x := by
  have hnot (y : α) : (!p y) = true ↔ ¬P y := by rw [← hp, Bool.not_eq_true', Bool.not_eq_true]
  rw [List.head?_filter, List.find?_eq_some_iff_append, hp, IsFirst]
  simp only [hnot]
  constructor
  · rintro ⟨hx, before, after, heq, hbefore⟩
    exact ⟨before, after, heq, hx, hbefore⟩
  · rintro ⟨before, after, heq, hx, hbefore⟩
    exact ⟨hx, before, after, heq, hbefore⟩

/-- There is a first member with the property if there is one at all. -/
theorem exists_isFirst_iff {P : α → Prop} {xs : List α} :
    (∃ x, IsFirst P xs x) ↔ ∃ x ∈ xs, P x := by
  constructor
  · rintro ⟨x, before, after, rfl, hx, -⟩
    exact ⟨x, by simp, hx⟩
  · classical
    rintro ⟨x, hmem, hx⟩
    have hsome : (xs.find? fun x => decide (P x)).isSome = true :=
      List.find?_isSome.mpr ⟨x, hmem, decide_eq_true hx⟩
    obtain ⟨first, hfirst⟩ := Option.isSome_iff_exists.mp hsome
    rw [← List.head?_filter] at hfirst
    exact ⟨first, (head?_filter_eq_some_iff fun x => decide_eq_true_iff).mp hfirst⟩

/-- The computation fails with the first of the faults, and only if there is one. -/
def FailsFirst (x : Except ε α) (faults : List ε) : Prop :=
  ∀ e, x = .error e ↔ faults.head? = some e

namespace FailsFirst

variable {x : Except ε α} {faults later : List ε} {e : ε} {a : α}

theorem ok : FailsFirst (.ok a : Except ε α) [] :=
  fun _ => iff_of_false nofun nofun

theorem error : FailsFirst (.error e : Except ε α) (e :: faults) := by
  intro e'
  rw [List.head?_cons, Option.some.injEq, Except.error.injEq]

/-- A computation succeeds exactly if it has no faults. -/
theorem exists_ok_iff (h : FailsFirst x faults) : (∃ a, x = .ok a) ↔ faults = [] := by
  cases x with
  | error e =>
    have hhead := (h e).mp rfl
    exact iff_of_false nofun (by rintro rfl; cases hhead)
  | ok a =>
    refine iff_of_true ⟨a, rfl⟩ (List.head?_eq_none_iff.mp ?_)
    cases hhead : faults.head? with
    | none => rfl
    | some e => cases (h e).mpr hhead

/-- Where some members of a list have one fault each, the first of them is named. -/
theorem eq_error_iff {P : β → Prop} {p : β → Bool} (hp : ∀ b, p b = true ↔ P b) {xs : List β}
    {fault : β → ε} (h : FailsFirst x ((xs.filter p).map fault)) :
    x = .error e ↔ ∃ b, IsFirst P xs b ∧ e = fault b := by
  rw [h e, List.head?_map, Option.map_eq_some_iff]
  simp only [head?_filter_eq_some_iff hp, eq_comm]

/-- The faults of a second step come after those of the first. -/
theorem bind {k : α → Except ε β} (h : FailsFirst x faults)
    (hk : ∀ a, x = .ok a → FailsFirst (k a) later) : FailsFirst (x >>= k) (faults ++ later) := by
  cases x with
  | error e =>
    have hhead := (h e).mp rfl
    intro e'
    rw [List.head?_append, hhead, Option.some_or, Option.some.injEq]
    exact ⟨Except.error.inj, congrArg Except.error⟩
  | ok a =>
    rw [h.exists_ok_iff.mp ⟨a, rfl⟩]
    exact hk a rfl

/-- A second step that always succeeds adds no fault. -/
theorem bind_pure (h : FailsFirst x faults) (result : α → β) :
    FailsFirst (x >>= fun a => pure (result a)) faults := by
  rw [← List.append_nil faults]
  exact h.bind fun _ _ => ok

/-- The faults of a step for each element of a list come in the order of the list. -/
theorem mapM {k : α → Except ε β} {faultsOf : α → List ε} {xs : List α}
    (h : ∀ x ∈ xs, FailsFirst (k x) (faultsOf x)) :
    FailsFirst (xs.mapM k) (xs.flatMap faultsOf) := by
  induction xs with
  | nil => exact ok
  | cons x xs ih =>
    obtain ⟨hx, hxs⟩ := List.forall_mem_cons.mp h
    rw [List.mapM_cons, List.flatMap_cons]
    exact hx.bind fun y _ => (ih hxs).bind_pure (y :: ·)

end FailsFirst

end Rejoin
