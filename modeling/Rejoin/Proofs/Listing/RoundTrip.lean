import Rejoin.Listing.Lowering
import Rejoin.Proofs.Listing.Printing

/-!
# Printing and reading listings

Lowering looks at spans only to report them: two listings that say the same are lowered to the same
program, or refused with the same complaint. With `exists_parseTree_render` this gives the round
trip from a listing through its text.
-/

namespace Rejoin.Listing

/-- Errors of one kind, and about one name if they are about a name. -/
def LowerError.Agrees : LowerError → LowerError → Prop
  | .duplicateFunction a, .duplicateFunction b => a.val = b.val
  | .duplicateLabel a, .duplicateLabel b => a.val = b.val
  | .unknownLabel a, .unknownLabel b => a.val = b.val
  | .afterTerminator _, .afterTerminator _ => True
  | _, _ => False

/-- Equal results, or errors that agree. -/
inductive Agree {α : Type} : Except LowerError α → Except LowerError α → Prop
  | ok (a : α) : Agree (.ok a) (.ok a)
  | error {first second : LowerError} : first.Agrees second → Agree (.error first) (.error second)

/-- Outcomes that agree, followed by steps that agree, agree. -/
theorem Agree.bind {α β : Type} {x y : Except LowerError α} {k l : α → Except LowerError β}
    (h : Agree x y) (hk : ∀ a, Agree (k a) (l a)) : Agree (x >>= k) (y >>= l) := by
  cases h with
  | ok a => exact hk a
  | error he => exact .error he

/-- Looking up a target does not depend on where it stands. -/
theorem resolve_agree {labels : List String} {a b : Spanned String} (h : a.val = b.val) :
    Agree (resolve labels a) (resolve labels b) := by
  unfold resolve
  rw [h]
  split
  · exact .ok _
  · exact .error h

/-- Instructions that differ in spans only are lowered alike. -/
theorem buildM_agree {labels : List String} {a b : LabelInst}
    (h : a.mapTargets Spanned.val = b.mapTargets Spanned.val) :
    Agree (a.buildM (resolve labels)) (b.buildM (resolve labels)) := by
  cases a <;> cases b <;> simp only [InstDef.mapTargets, reduceCtorEq,
    InstDef.op.injEq, InstDef.branch.injEq, InstDef.jump.injEq, InstDef.ret.injEq] at h
  case op.op =>
    obtain ⟨rfl, rfl, rfl⟩ := h
    exact .ok _
  case branch.branch =>
    obtain ⟨rfl, htrue, hfalse⟩ := h
    exact (resolve_agree htrue).bind fun t => (resolve_agree hfalse).bind fun e => .ok _
  case jump.jump => exact (resolve_agree h).bind fun t => .ok _
  case ret.ret =>
    subst h
    exact .ok _

theorem lowerInsts_agree {labels : List String} {a b : List (Spanned LabelInst)}
    (h : a.map plainInst = b.map plainInst) :
    Agree (lowerInsts labels a) (lowerInsts labels b) := by
  induction a generalizing b with
  | nil =>
    obtain rfl := List.map_eq_nil_iff.mp h.symm
    exact .ok _
  | cons inst rest ih =>
    cases b with
    | nil => cases h
    | cons other others =>
      obtain ⟨hinst, hrest⟩ := List.cons.inj h
      unfold lowerInsts
      refine (buildM_agree hinst).bind fun lowered => ?_
      -- both sides ask whether something follows a terminator, and where they do the rows are
      -- empty or not together
      generalize lowered.isTerminator = ends
      cases rest with
      | nil =>
        obtain rfl := List.map_eq_nil_iff.mp hrest.symm
        cases ends <;> exact (ih hrest).bind fun _ => .ok _
      | cons next rest =>
        cases others with
        | nil => cases hrest
        | cons _ others =>
          cases ends with
          | true => exact .error trivial
          | false => exact (ih hrest).bind fun _ => .ok _

/-- The first repetition is that of the same name. -/
theorem map_val_firstRepeat? {seen : List String} {a b : List (Spanned String)}
    (h : a.map Spanned.val = b.map Spanned.val) :
    (firstRepeat? seen a).map Spanned.val = (firstRepeat? seen b).map Spanned.val := by
  induction a generalizing b seen with
  | nil =>
    obtain rfl := List.map_eq_nil_iff.mp h.symm
    rfl
  | cons name rest ih =>
    cases b with
    | nil => cases h
    | cons other others =>
      obtain ⟨hname, hrest⟩ := List.cons.inj h
      rw [firstRepeat?, firstRepeat?, hname]
      split
      · simp [hname]
      · exact ih hrest

/-- Blocks that differ in spans only are lowered alike. -/
theorem lowerBlocks_agree {labels : List String} {a b : List BlockDef}
    (h : a.map BlockDef.plain = b.map BlockDef.plain) :
    Agree (lowerBlocks labels a) (lowerBlocks labels b) := by
  induction a generalizing b with
  | nil =>
    obtain rfl := List.map_eq_nil_iff.mp h.symm
    exact .ok _
  | cons block rest ih =>
    cases b with
    | nil => cases h
    | cons other others =>
      obtain ⟨hblock, hrest⟩ := List.cons.inj h
      obtain ⟨hlabel, hinsts⟩ := Prod.mk.inj hblock
      rw [lowerBlocks, lowerBlocks, hlabel]
      exact (lowerInsts_agree hinsts).bind fun _ => (ih hrest).bind fun _ => .ok _

theorem FuncDef.lower_agree {a b : FuncDef} (h : a.plain = b.plain) : Agree a.lower b.lower := by
  obtain ⟨hname, hblocks⟩ := Prod.mk.inj h
  have hlabels : a.blocks.map (fun block => block.label.val) =
      b.blocks.map (fun block => block.label.val) := by
    have hfirst := congrArg (List.map Prod.fst) hblocks
    rwa [List.map_map, List.map_map] at hfirst
  have hrepeat : (firstRepeat? [] (a.blocks.map BlockDef.label)).map Spanned.val =
      (firstRepeat? [] (b.blocks.map BlockDef.label)).map Spanned.val :=
    map_val_firstRepeat? (by rwa [List.map_map, List.map_map])
  -- labels are checked first: both functions repeat the same one, or neither repeats any
  unfold FuncDef.lower
  cases hfirst : firstRepeat? [] (a.blocks.map BlockDef.label) <;>
    cases hsecond : firstRepeat? [] (b.blocks.map BlockDef.label) <;>
    simp only [hfirst, hsecond, Option.map_none, Option.map_some, reduceCtorEq,
      Option.some.injEq] at hrepeat
  · rw [hlabels, hname]
    exact (lowerBlocks_agree hblocks).bind fun _ => .ok _
  · exact .error hrepeat

/-- And so are listings, with the names seen before. -/
theorem lowerFunctions_agree {seen : List String} {a b : List (Spanned FuncDef)}
    (h : a.map (fun func => func.val.plain) = b.map (fun func => func.val.plain)) :
    Agree (lowerFunctions seen a) (lowerFunctions seen b) := by
  -- the two listings are read side by side, with the same names seen before
  induction a generalizing b seen with
  | nil =>
    obtain rfl := List.map_eq_nil_iff.mp h.symm
    exact .ok _
  | cons func rest ih =>
    cases b with
    | nil => cases h
    | cons other others =>
      obtain ⟨hfunc, hrest⟩ := List.cons.inj h
      have hname : func.val.name.val = other.val.name.val := congrArg Prod.fst hfunc
      rw [lowerFunctions, lowerFunctions, hname]
      split
      · exact .error hname
      · exact (FuncDef.lower_agree hfunc).bind fun _ => (ih hrest).bind fun _ => .ok _

/-- Lowering does not depend on spans. -/
theorem Tree.lower_agree {a b : Tree} (h : a.plain = b.plain) : Agree a.lower b.lower :=
  (lowerFunctions_agree h).bind fun _ => .ok _

/-- **Printing and parsing round-trip.** The text of a listing whose names can be read is parsed to
the same listing, spans aside. Parsing it as a program therefore ends as lowering the listing does:
with the same program, or with the same complaint. -/
theorem parse_render (listing : Tree) (h : listing.WellNamed) :
    (∃ tree, parseTree listing.render = .ok tree ∧ tree.plain = listing.plain) ∧
      ((∃ program, parse listing.render = .ok program ∧ listing.lower = .ok program) ∨
        ∃ error expected, parse listing.render = .error (.lower error) ∧
          listing.lower = .error expected ∧ error.Agrees expected) := by
  obtain ⟨tree, htree, hplain⟩ := exists_parseTree_render h
  refine ⟨⟨tree, htree, hplain⟩, ?_⟩
  have hagree := Tree.lower_agree hplain
  simp only [parse, htree]
  generalize tree.lower = lowered at hagree
  generalize listing.lower = expected at hagree
  cases hagree with
  | ok program => exact .inl ⟨program, rfl, rfl⟩
  | error hagrees => exact .inr ⟨_, _, rfl, rfl, hagrees⟩

/-- The least integer, an arrow and a branch without a condition are read back. -/
theorem parse_render_least_integer :
    ∃ listing : Tree, listing.plain = [("@f", [("a", [.op "neg" [.int Int64.minValue] (some "%x"),
      .branch none "a" "a"])])] ∧
      ∃ tree, parseTree listing.render = .ok tree ∧ tree.plain = listing.plain := by
  have hnamed : Tree.WellNamed ⟨[⟨⟨⟨"@f", 0, 0⟩, [⟨⟨"a", 0, 0⟩,
      [⟨.op "neg" [.int Int64.minValue] (some "%x"), 0, 0⟩,
        ⟨.branch none ⟨"a", 0, 0⟩ ⟨"a", 0, 0⟩, 0, 0⟩]⟩]⟩, 0, 0⟩]⟩ := by
    have ha : IsWord "a".toList := ⟨'a', [], rfl, by decide, nofun⟩
    have hneg : IsWord "neg".toList :=
      ⟨'n', ['e', 'g'], rfl, by decide, List.all_eq_true.mp (by decide)⟩
    have hfree : IsFreeWord "a" ∧ IsFreeWord "neg" := ⟨⟨ha, by decide⟩, hneg, by decide⟩
    have hf : IsSigned '@' "@f" := ⟨['f'], rfl, by decide, List.all_eq_true.mp (by decide)⟩
    have hx : IsSigned '%' "%x" := ⟨['x'], rfl, by decide, List.all_eq_true.mp (by decide)⟩
    simpa [Tree.WellNamed, Tree.plain, FuncDef.plain, BlockDef.plain, plainInst, InstDef.mapTargets,
      WellNamedBlock, WellNamedInst, WellNamedOperand, hfree, hf, hx] using ha
  exact ⟨_, rfl, (parse_render _ hnamed).1⟩

end Rejoin.Listing
