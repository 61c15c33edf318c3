import Rejoin.Proofs.Dependence.DefUse
import Rejoin.Proofs.Koopa.Lowering
import Rejoin.Proofs.Koopa.Naming
import Rejoin.Proofs.Koopa.Operands

/-!
# Definitions and uses in lowered Koopa programs

In a Koopa program an operand is a value, in a machine program it is a name. If names can be told
apart, lowering makes edges between values into the same edges between names, whatever the
instructions: `Function.mem_consumers_lower_iff`. Every instruction is lowered once, its place being
the number it gets: `Function.insts_lower`. Both together say how a program is carried over, one
function after the other: `consumers_lower_iff_operand`.
-/

namespace Rejoin.Koopa

namespace Function

variable {f : Function}

/-! ## Instructions -/

/-- A machine instruction reads what the operands of the instruction read; the function it calls is
no value. -/
theorem uses_lowerInst (result : Option String) (operation : Operation) :
    (f.lowerInst id result operation).uses =
      (operation.operands.map f.operand).filterMap Operand.value? := by
  cases operation with
  | ret value => cases value <;> rfl
  | call callee args =>
    show ((Operand.symbol callee :: args.map f.operand) ++ []).filterMap Operand.value? = _
    rw [List.append_nil]
    rfl
  | _ => rfl

/-- Ends of blocks define nothing. -/
theorem result_lowerInst (result : Option String) (operation : Operation) :
    (f.lowerInst id result operation).result = if operation.isEnd then none else result := by
  cases operation <;> rfl

/-! ## Layout -/

/-- Rows are lowered one after the other, the second behind the places of the first. -/
theorem lowerInsts_append (place : Nat) (first second : List Inst) :
    f.lowerInsts id place (first ++ second) =
      f.lowerInsts id place first ++ f.lowerInsts id (place + first.length) second := by
  induction first generalizing place with
  | nil => rfl
  | cons inst rest ih =>
    rw [List.cons_append, lowerInsts, ih, lowerInsts, List.cons_append, List.length_cons,
      Nat.add_assoc, Nat.add_comm 1]

/-- Each instruction is lowered on its own, with the name of the value at its place. -/
theorem lowerInsts_eq_mapIdx (place : Nat) (insts : List Inst) :
    f.lowerInsts id place insts = insts.mapIdx fun i inst =>
      f.lowerInst id (f.instName? (place + i)) inst.operation := by
  induction insts generalizing place with
  | nil => rfl
  | cons inst rest ih =>
    rw [lowerInsts, List.mapIdx_cons, ih]
    simp [Nat.add_assoc, Nat.add_comm 1]

/-- The rows of machine instructions, one after the other, are the instructions in layout order. -/
theorem flatMap_lowerBlocks (place inst : Nat) (blocks : List Block) :
    (f.lowerBlocks place inst blocks).flatMap Prod.snd =
      f.lowerInsts id inst (blocks.flatMap Block.insts) := by
  induction blocks generalizing place inst with
  | nil => rfl
  | cons b rest ih =>
    rw [lowerBlocks, List.flatMap_cons, ih, List.flatMap_cons, lowerInsts_append]

/-- Every instruction is lowered once, and its place is the number it gets. -/
theorem insts_lower (f : Function) :
    f.lower.insts = f.insts.mapIdx fun place inst =>
      (place, f.lowerInst id (f.instName? place) inst.operation) := by
  rw [lower_eq, Func.insts_ofBlocks, flatMap_lowerBlocks, lowerInsts_eq_mapIdx,
    numberFrom_eq_mapIdx, List.mapIdx_mapIdx]
  simp [insts, Function.comp_def]

/-- The parts of the machine function agree, since it is made by adding blocks and pushing
instructions. -/
theorem consistent_lower (f : Function) : f.lower.Consistent :=
  f.lower_eq ▸ (Func.built_ofBlocks _ _).consistent

/-- The lowered function has the instruction of each place under that number. -/
theorem inst?_lower (f : Function) (place : Nat) :
    f.lower.inst? place = (f.insts[place]?).map fun inst =>
      f.lowerInst id (f.instName? place) inst.operation := by
  ext lowered
  rw [Func.inst?_eq_some_iff f.consistent_lower, insts_lower, List.mem_iff_getElem?]
  simp only [List.getElem?_mapIdx, Option.map_eq_some_iff, Prod.mk.injEq]
  constructor
  · rintro ⟨_, inst, hinst, rfl, hlowered⟩
    exact ⟨inst, hinst, hlowered⟩
  · rintro ⟨inst, hinst, hlowered⟩
    exact ⟨place, inst, hinst, rfl, hlowered⟩

/-- No block gains or loses instructions. -/
theorem map_length_lowerBlocks (place inst : Nat) (blocks : List Block) :
    (f.lowerBlocks place inst blocks).map (fun row => row.2.length) =
      blocks.map fun b => b.insts.length := by
  induction blocks generalizing place inst with
  | nil => rfl
  | cons b rest ih =>
    rw [lowerBlocks, List.map_cons, ih, lowerInsts_eq_mapIdx, List.length_mapIdx, List.map_cons]

/-- Instructions stay in the block they are in. -/
theorem map_length_blocks_lower (f : Function) :
    f.lower.blocks.map (fun b => b.insts.length) = f.blocks.map fun b => b.insts.length := by
  have hrows := congrArg (List.map fun row => row.2.length)
    (Func.rows_ofBlocks f.name (f.lowerBlocks 0 0 f.blocks))
  rw [map_length_lowerBlocks, Func.rows, List.map_map] at hrows
  simpa [lower_eq, Function.comp_def] using hrows

/-! ## Edges -/

variable {f : Function} {i j : Nat}

/-- The instruction at `j` has the value of the one at `i` as an operand. -/
def Feeds (f : Function) (i j : Nat) : Prop :=
  ∃ giver reader, f.insts[i]? = some giver ∧ giver.GivesValue ∧ f.insts[j]? = some reader ∧
    .inst i ∈ reader.operation.operands

/-- A machine instruction reads the result of another exactly if the instruction it comes from has
that result as an operand. -/
theorem mem_uses_lowerInst_iff (hf : f.ClearlyNamed) {name : String}
    (hname : f.instName? i = some name) {result : Option String} {operation : Operation} :
    name ∈ (f.lowerInst id result operation).uses ↔ .inst i ∈ operation.operands := by
  simp only [uses_lowerInst, List.mem_filterMap, List.mem_map, exists_exists_and_eq_and,
    value?_operand_iff hf hname, exists_eq_right]

/-- The consumers of a machine instruction are those that have its value as an operand. -/
theorem mem_consumers_lower_iff (hf : f.ClearlyNamed) :
    j ∈ (DefUse.ofFunc f.lower).consumers i ↔ f.Feeds i j := by
  rw [DefUse.mem_consumers_iff f.consistent_lower]
  simp only [inst?_lower, Option.map_eq_some_iff]
  constructor
  -- a name that is read is that of one value only, since names are clear
  · rintro ⟨_, name, _, ⟨giver, hgiver, rfl⟩, hname, ⟨reader, hreader, rfl⟩, huse⟩
    rw [result_lowerInst] at hname
    split at hname
    · cases hname
    next hend =>
      obtain ⟨_, hinst, hunit⟩ := isSome_instName?_iff.mp (Option.isSome_of_eq_some hname)
      cases hgiver.symm.trans hinst
      exact ⟨_, reader, hgiver, ⟨hunit, by simpa using hend⟩, hreader,
        (mem_uses_lowerInst_iff hf hname).mp huse⟩
  · rintro ⟨giver, reader, hgiver, ⟨hunit, hend⟩, hreader, hmem⟩
    obtain ⟨name, hname⟩ :=
      Option.isSome_iff_exists.mp (isSome_instName?_iff.mpr ⟨giver, hgiver, hunit⟩)
    refine ⟨_, name, _, ⟨giver, hgiver, rfl⟩, ?_, ⟨reader, hreader, rfl⟩,
      (mem_uses_lowerInst_iff hf hname).mpr hmem⟩
    rw [result_lowerInst, hend, hname]
    rfl

/-- If the results that are read are given, it is enough to look at the operands. -/
theorem feeds_iff (hf : f.OperandsGiven) {reader : Inst} (hj : f.insts[j]? = some reader) :
    f.Feeds i j ↔ .inst i ∈ reader.operation.operands := by
  constructor
  · rintro ⟨_, _, -, -, hreader, hmem⟩
    cases hj.symm.trans hreader
    exact hmem
  · intro hmem
    obtain ⟨giver, hgiver, hgives⟩ := hf reader (List.mem_of_getElem? hj) _ hmem i rfl
    exact ⟨giver, reader, hgiver, hgives, hj, hmem⟩

/-- The machine function carries what the function does, instruction by instruction. -/
structure CarriedBy (f : Function) (func : Func) : Prop where
  /-- The name is kept. -/
  name : func.name = f.name
  /-- Every instruction becomes one, in layout order, and its place is the number it gets. -/
  insts : func.insts = f.insts.mapIdx fun place inst =>
    (place, f.lowerInst id (f.instName? place) inst.operation)
  /-- Every instruction stays in its block. -/
  sizes : func.blocks.map (fun b => b.insts.length) = f.blocks.map fun b => b.insts.length
  /-- A function that is only declared becomes one without blocks. -/
  declared : f.blocks = [] → func = { name := f.name }
  /-- Instructions consume the values that they have as operands. -/
  consumers : ∀ i j, j ∈ (DefUse.ofFunc func).consumers i ↔ f.Feeds i j

/-- Lowering carries the operands of a function whose names are clear. -/
theorem carriedBy_lower (hf : f.ClearlyNamed) : f.CarriedBy f.lower where
  name := f.lower_eq ▸ Func.name_ofBlocks _ _
  insts := f.insts_lower
  sizes := f.map_length_blocks_lower
  declared h := by rw [lower, h]; rfl
  consumers _ _ := mem_consumers_lower_iff hf

end Function

/-- **Lowering keeps the edges from values to their uses.** If names can be told apart, the
functions of a program are carried over one by one, in order. In a program that has been read,
consumers are the instructions that have the value as an operand: there is no operand whose value
nothing gives. -/
theorem consumers_lower_iff_operand {program : Program}
    (hnames : ∀ f ∈ program.functions, f.ClearlyNamed) :
    List.Forall₂ Function.CarriedBy program.functions program.lower.functions ∧
      ∀ readings, checkProgram readings = .ok program →
        ∀ f ∈ program.functions, ∀ i j reader, f.insts[j]? = some reader →
          (j ∈ (DefUse.ofFunc f.lower).consumers i ↔ .inst i ∈ reader.operation.operands) := by
  constructor
  · rw [Program.lower, List.forall₂_map_right_iff, List.forall₂_same]
    exact fun f hf => Function.carriedBy_lower (hnames f hf)
  · intro readings hprogram f hf i j reader hreader
    rw [Function.mem_consumers_lower_iff (hnames f hf)]
    exact Function.feeds_iff (operandsGiven_of_checkProgram hprogram f hf) hreader

/-- A text with a declaration, values with and without names, and a call without a result. -/
def countingText : String :=
  "decl @put(i32)\nfun @count(@n: i32): i32 \x7b\n%entry:\n" ++
    "%0 = alloc i32\nstore @n, %0\n%1 = load %0\n%twice = add %1, %1\n" ++
    "call @put(%twice)\nbr %twice, %more, %done\n%more:\njump %done\n" ++
    "%done:\nret %twice\n\x7d\n"

/-- What is read from it. -/
def countingProgram : Program where
  functions :=
    [{ name := "@put", params := [none], blocks := [] },
      { name := "@count"
        params := [some "@n"]
        blocks :=
          [{ name := some "%entry"
             params := []
             insts :=
              [⟨.unnamed, .alloc⟩, ⟨.unit, .store (.param 0) (.inst 0)⟩,
                ⟨.unnamed, .load (.inst 0)⟩, ⟨.named "%twice", .binary .add (.inst 2) (.inst 2)⟩,
                ⟨.unit, .call "@put" [.inst 3]⟩, ⟨.unit, .branch (.inst 3) 1 [] 2 []⟩] },
            { name := some "%more", params := [], insts := [⟨.unit, .jump 2 []⟩] },
            { name := some "%done"
              params := []
              insts := [⟨.unit, .ret (some (.inst 3))⟩] }] }]

/-- The text is checked to `countingProgram`. -/
theorem checkProgram_countingText :
    checkProgram (parseItems countingText) = .ok countingProgram := by
  decide +kernel

theorem clearlyNamed_countingProgram : ∀ f ∈ countingProgram.functions, f.ClearlyNamed := by
  have hdistinct : ∀ f ∈ countingProgram.functions,
      f.givenNames.Nodup ∧ ∀ name ∈ f.givenNames, name.toList[1]? ≠ some '.' := by decide +kernel
  intro f hf
  obtain ⟨hnodup, hnames⟩ := hdistinct f hf
  exact ⟨hnodup, fun name hname => not_isMadeUp (hnames name hname)⟩

/-- The sum is printed, decides the branch and is returned. -/
theorem consumers_lower_iff_operand_counting :
    (checkProgram (parseItems countingText) = .ok countingProgram ∧
      ∀ f ∈ countingProgram.functions, f.ClearlyNamed) ∧
    List.Forall₂ Function.CarriedBy countingProgram.functions countingProgram.lower.functions ∧
    ∃ count ∈ countingProgram.functions,
      4 ∈ (DefUse.ofFunc count.lower).consumers 3 ∧ 5 ∈ (DefUse.ofFunc count.lower).consumers 3 ∧
        7 ∈ (DefUse.ofFunc count.lower).consumers 3 := by
  obtain ⟨hcarried, hread⟩ := consumers_lower_iff_operand clearlyNamed_countingProgram
  refine ⟨⟨checkProgram_countingText, clearlyNamed_countingProgram⟩, hcarried, _,
    List.mem_cons_of_mem _ List.mem_cons_self, ?_⟩
  have hedge := hread (parseItems countingText) checkProgram_countingText _
    (List.mem_cons_of_mem _ List.mem_cons_self) 3
  exact ⟨(hedge 4 _ rfl).mpr (by decide), (hedge 5 _ rfl).mpr (by decide),
    (hedge 7 _ rfl).mpr (by decide)⟩

end Rejoin.Koopa
