import Mathlib.Logic.Relation
import Rejoin.Proofs.Dependence.Seeds
import Rejoin.Proofs.Koopa.DefUse

/-!
# Data dependence in lowered Koopa programs

Every instruction of a lowered Koopa function is code, so it is numbered by its place, and the code
after it is the next instruction of its block. If names can be told apart, what is found from an
instruction is therefore what chains of operands lead to, with the branches that compares are fused
with: `Function.mem_found_iff_operand_chain`.

What is passed to the parameters of blocks is not carried over. So a chain ends where a value is
passed on, although an instruction that reads the parameter depends on the value:
`not_carriesArguments_passingText`.
-/

namespace Rejoin.Koopa

/-- The operation is a two-way branch. -/
def Operation.isBranch : Operation → Bool
  | branch .. => true
  | _ => false

theorem Operation.isEnd_of_isBranch {operation : Operation} (h : operation.isBranch = true) :
    operation.isEnd = true := by
  cases operation <;> first | rfl | cases h

namespace Function

variable {f : Function} {isa : Isa} {functionId : UInt32} {i j k : Nat}

/-! ## Numbers -/

/-- Branches are lowered to branches, and nothing else is. -/
theorem isBranch_lowerInst (result : Option String) (operation : Operation) :
    (f.lowerInst id result operation).isBranch = operation.isBranch := by
  cases operation <;> rfl

/-- The opcode of no operation is an annotation. -/
theorem isMeta_opcode_lowerInst (result : Option String) (operation : Operation) :
    isa.isMeta (f.lowerInst id result operation).opcode = false := by
  cases operation with
  | binary op =>
    show isa.isMeta op.opcode = false
    cases isa <;> cases op <;> decide
  | _ =>
    cases isa <;> simp [lowerInst, Rejoin.Inst.op, Rejoin.Inst.branch, Rejoin.Inst.jump,
      Rejoin.Inst.ret, Isa.isMeta, Isa.startsWith, List.isPrefixOf]

/-- Lowering makes no annotations: no opcode of an operation is one. -/
theorem isSubstantive_lowerInst (result : Option String) (operation : Operation) :
    isa.isSubstantive (f.lowerInst id result operation) = true := by
  rw [Isa.isSubstantive, isMeta_opcode_lowerInst, Bool.not_false, Bool.or_true]

/-- Every instruction is numbered, by its place. -/
theorem order_lower (f : Function) (isa : Isa) (functionId : UInt32) :
    (Numbering.ofFunc isa functionId f.lower).order = List.range f.insts.length := by
  have hall : f.lower.insts.filter (fun entry => isa.isSubstantive entry.2) = f.lower.insts := by
    rw [List.filter_eq_self, insts_lower]
    intro entry hentry
    obtain ⟨place, hlt, rfl⟩ := List.mem_mapIdx.mp hentry
    exact isSubstantive_lowerInst _ _
  rw [Numbering.order_ofFunc, hall, insts_lower]
  apply List.ext_getElem <;> simp

/-- So every instruction is numbered by its place. -/
theorem number?_lower (hlt : i < f.insts.length) :
    (Numbering.ofFunc isa functionId f.lower).number? i = some i := by
  rw [(Numbering.agrees_ofFunc isa functionId f.lower).number?_eq_some_iff
    (Numbering.nodup_order_ofFunc f.consistent_lower.nodup_ids), order_lower,
    List.getElem?_range hlt]

/-- Collecting numbers is keeping the places that exist. -/
theorem mem_collect_lower_iff {ids : List InstId} :
    i ∈ (Numbering.ofFunc isa functionId f.lower).collect ids ↔ i ∈ ids ∧ i < f.insts.length := by
  rw [Numbering.mem_collect_iff_getElem?, order_lower]
  simp only [List.getElem?_eq_some_iff, List.length_range, List.getElem_range]
  constructor
  · rintro ⟨_, hmem, hlt, rfl⟩
    exact ⟨hmem, hlt⟩
  · rintro ⟨hmem, hlt⟩
    exact ⟨i, hmem, hlt, rfl⟩

/-! ## Instructions in a row -/

/-- The instruction at a place is not the last of its block. -/
def HasNext (f : Function) (place : Nat) : Prop :=
  ∃ before b after, f.blocks = before ++ b :: after ∧
    (before.flatMap Block.insts).length ≤ place ∧
    place + 1 < (before.flatMap Block.insts).length + b.insts.length

/-- The numbered machine instructions of a block that starts at a place. -/
def rowFrom (f : Function) (place : Nat) (insts : List Inst) :
    List (InstId × Rejoin.Inst BlockId) :=
  insts.mapIdx fun k inst =>
    (place + k, f.lowerInst id (f.instName? (place + k)) inst.operation)

/-- The instructions of a block are numbered by their places in the function. -/
theorem numberFrom_lowerInsts (place : Nat) (insts : List Inst) :
    numberFrom place (f.lowerInsts id place insts) = f.rowFrom place insts := by
  rw [lowerInsts_eq_mapIdx, numberFrom_eq_mapIdx, List.mapIdx_mapIdx]
  rfl

/-- The rows of a lowered function are those of its blocks. -/
theorem exists_mem_layFrom_iff {label place : Nat} {blocks : List Block}
    {row : List (InstId × Rejoin.Inst BlockId)} :
    (∃ lowered ∈ Func.layFrom place (f.lowerBlocks label place blocks), lowered.insts = row) ↔
      ∃ before b after, blocks = before ++ b :: after ∧
        row = f.rowFrom (place + (before.flatMap Block.insts).length) b.insts := by
  -- the place of a block is the number of instructions before it
  induction blocks generalizing label place with
  | nil => simp [lowerBlocks, Func.layFrom]
  | cons first rest ih =>
    have hlength : (f.lowerInsts id place first.insts).length = first.insts.length := by
      rw [lowerInsts_eq_mapIdx, List.length_mapIdx]
    rw [lowerBlocks, Func.layFrom, hlength]
    simp only [List.mem_cons, exists_eq_or_imp, ih, numberFrom_lowerInsts]
    constructor
    · rintro (rfl | ⟨before, b, after, rfl, rfl⟩)
      · exact ⟨[], first, rest, rfl, rfl⟩
      · refine ⟨first :: before, b, after, rfl, ?_⟩
        rw [List.flatMap_cons, List.length_append, Nat.add_assoc]
    · rintro ⟨before, b, after, heq, rfl⟩
      cases before with
      | nil =>
        obtain ⟨rfl, rfl⟩ := List.cons.inj heq
        exact .inl rfl
      | cons _ before =>
        obtain ⟨rfl, rfl⟩ := List.cons.inj heq
        refine .inr ⟨before, b, after, rfl, ?_⟩
        rw [List.flatMap_cons, List.length_append, Nat.add_assoc]

/-- Behind the first `m` instructions of a block comes the one with number `place + m`. -/
theorem exists_drop_rowFrom (f : Function) (place : Nat) {insts : List Inst} {m : Nat}
    (hm : m < insts.length) :
    ∃ lowered, (f.rowFrom place insts).drop m =
      (place + m, lowered) :: (f.rowFrom place insts).drop (m + 1) := by
  have hlength : m < (f.rowFrom place insts).length := by rwa [rowFrom, List.length_mapIdx]
  refine ⟨((f.rowFrom place insts)[m]).2, ?_⟩
  rw [List.drop_eq_getElem_cons hlength]
  simp [rowFrom]

/-- As every machine instruction is code, the next code of a block is the next instruction. -/
theorem adjacentIn_rowFrom_iff {place : Nat} {insts : List Inst} :
    AdjacentIn isa.isSubstantive (f.rowFrom place insts) j k ↔
      place ≤ j ∧ j + 1 < place + insts.length ∧ k = j + 1 := by
  have hget : ∀ n, (f.rowFrom place insts)[n]? = (insts[n]?).map fun inst =>
      (place + n, f.lowerInst id (f.instName? (place + n)) inst.operation) :=
    fun n => List.getElem?_mapIdx
  constructor
  · rintro ⟨before, between, after, first, second, heq, hbetween⟩
    -- every instruction is code, so nothing stands between two neighbours
    have hnil : between = [] := by
      refine List.eq_nil_iff_forall_not_mem.mpr fun entry hentry => ?_
      have hmem : entry ∈ f.rowFrom place insts := by rw [heq]; simp [hentry]
      obtain ⟨n, hn, rfl⟩ := List.mem_mapIdx.mp hmem
      have hmeta := hbetween _ hentry
      rw [isSubstantive_lowerInst] at hmeta
      cases hmeta
    subst hnil
    have hj : (f.rowFrom place insts)[before.length]? = some (j, first) := by
      rw [heq]
      simp
    have hk : (f.rowFrom place insts)[before.length + 1]? = some (k, second) := by
      rw [heq]
      simp
    rw [hget, Option.map_eq_some_iff] at hj hk
    obtain ⟨_, -, hj⟩ := hj
    obtain ⟨_, hlast, hk⟩ := hk
    obtain ⟨hlt, -⟩ := List.getElem?_eq_some_iff.mp hlast
    simp only [Prod.mk.injEq] at hj hk
    omega
  · rintro ⟨hle, hlt, rfl⟩
    obtain ⟨n, rfl⟩ := Nat.exists_eq_add_of_le hle
    obtain ⟨first, hfirst⟩ := f.exists_drop_rowFrom place (show n < insts.length by omega)
    obtain ⟨second, hsecond⟩ := f.exists_drop_rowFrom place (show n + 1 < insts.length by omega)
    refine ⟨(f.rowFrom place insts).take n, [], (f.rowFrom place insts).drop (n + 2), first, second,
      ?_, by simp⟩
    calc f.rowFrom place insts
      _ = (f.rowFrom place insts).take n ++ (f.rowFrom place insts).drop n :=
        (List.take_append_drop n _).symm
      _ = _ := by rw [hfirst, hsecond]; simp [Nat.add_assoc]

/-- The instruction after another in its block has the next place. -/
theorem adjacent_lower_iff :
    f.lower.Adjacent isa.isSubstantive j k ↔ f.HasNext j ∧ k = j + 1 := by
  have hrows : ∀ row, (∃ lowered ∈ f.lower.blocks, lowered.insts = row) ↔
      ∃ before b after, f.blocks = before ++ b :: after ∧
        row = f.rowFrom (before.flatMap Block.insts).length b.insts := by
    intro row
    rw [lower_eq, Func.blocks_ofBlocks, exists_mem_layFrom_iff]
    simp only [Nat.zero_add]
  constructor
  · rintro ⟨lowered, hlowered, hadj⟩
    obtain ⟨before, b, after, heq, hrow⟩ := (hrows _).mp ⟨lowered, hlowered, rfl⟩
    rw [hrow, adjacentIn_rowFrom_iff] at hadj
    exact ⟨⟨before, b, after, heq, hadj.1, hadj.2.1⟩, hadj.2.2⟩
  · rintro ⟨⟨before, b, after, heq, hle, hlt⟩, hk⟩
    obtain ⟨lowered, hlowered, hrow⟩ := (hrows _).mpr ⟨before, b, after, heq, rfl⟩
    exact ⟨lowered, hlowered, by rw [hrow, adjacentIn_rowFrom_iff]; exact ⟨hle, hlt, hk⟩⟩

/-- The branch after an instruction, as compares are fused with it. -/
theorem next?_lower_iff :
    f.lower.IsCondBranch k ∧ f.lower.next? j isa.isSubstantive = some k ↔
      f.HasNext j ∧ k = j + 1 ∧
        ∃ inst, f.insts[k]? = some inst ∧ inst.operation.isBranch = true := by
  have hbranch : f.lower.IsCondBranch k ↔
      ∃ inst, f.insts[k]? = some inst ∧ inst.operation.isBranch = true := by
    simp only [Func.IsCondBranch, inst?_lower, Option.map_eq_some_iff]
    constructor
    · rintro ⟨_, ⟨inst, hinst, rfl⟩, h⟩
      exact ⟨inst, hinst, by rwa [isBranch_lowerInst] at h⟩
    · rintro ⟨inst, hinst, h⟩
      exact ⟨_, ⟨inst, hinst, rfl⟩, by rwa [isBranch_lowerInst]⟩
  rw [Func.next?_eq_some_iff f.consistent_lower, adjacent_lower_iff, hbranch]
  constructor
  · rintro ⟨h, ⟨hnext, hk⟩, -⟩
    exact ⟨hnext, hk, h⟩
  · rintro ⟨hnext, hk, h⟩
    refine ⟨h, ⟨hnext, hk⟩, ?_⟩
    obtain ⟨inst, hinst, -⟩ := h
    rw [inst?_lower, hinst]
    exact ⟨_, rfl, isSubstantive_lowerInst _ _⟩

/-! ## What depends on an instruction -/

/-- The closure of data dependence is computed from this. -/
def flow (f : Function) (isa : Isa) (functionId : UInt32) : DataFlow where
  func := f.lower
  isa := isa
  numbering := .ofFunc isa functionId f.lower
  consumers := (DefUse.ofFunc f.lower).consumers

/-- One step of data dependence: the instruction at `j` has the value of the one at `i` as an
operand, or is the branch after such an instruction, where compares are fused with branches. -/
inductive Step (f : Function) (isa : Isa) : Nat → Nat → Prop
  | operand {i j : Nat} (h : f.Feeds i j) : Step f isa i j
  | fused {i j : Nat} {branch : Inst} (h : f.Feeds i j) (hfuses : isa.fuses = true)
      (hnext : f.HasNext j) (hinst : f.insts[j + 1]? = some branch)
      (hbranch : branch.operation.isBranch = true) : Step f isa i (j + 1)

/-- What is fed is an instruction of the function. -/
theorem Feeds.lt_length (h : f.Feeds i j) : j < f.insts.length := by
  obtain ⟨_, _, -, -, hreader, -⟩ := h
  exact (List.getElem?_eq_some_iff.mp hreader).1

theorem Step.lt_length (h : f.Step isa i j) : j < f.insts.length := by
  cases h with
  | operand h => exact h.lt_length
  | fused h hfuses hnext hinst hbranch => exact (List.getElem?_eq_some_iff.mp hinst).1

/-- Nothing depends on an instruction that gives no value. -/
theorem Step.givesValue (h : f.Step isa i j) :
    ∃ giver, f.insts[i]? = some giver ∧ giver.GivesValue := by
  cases h with
  | operand h | fused h =>
    obtain ⟨giver, _, hgiver, hgives, -⟩ := h
    exact ⟨giver, hgiver, hgives⟩

section ClearlyNamed

variable (hf : f.ClearlyNamed)

include hf

/-- What the analysis finds fed is fed by operands of the function. -/
theorem fedBy_flow_iff {C : Set InstId} :
    (f.flow isa functionId).FedBy C j ↔ ∃ i ∈ C, f.Feeds i j := by
  have hnumbered {i : Nat} (h : f.Feeds i j) : (f.flow isa functionId).isNumbered j = true := by
    rw [DataFlow.isNumbered, flow, number?_lower h.lt_length]
    rfl
  constructor
  · rintro ⟨-, i, hi, hj⟩
    exact ⟨i, hi, (mem_consumers_lower_iff hf).mp hj⟩
  · rintro ⟨i, hi, h⟩
    exact ⟨hnumbered h, i, hi, (mem_consumers_lower_iff hf).mpr h⟩

/-- A branch is fused with the instruction before it, when that is fed. -/
theorem fusedWith_flow_iff {C : Set InstId} :
    (f.flow isa functionId).FusedWith C k ↔ isa.fuses = true ∧ ∃ j, (∃ i ∈ C, f.Feeds i j) ∧
      f.HasNext j ∧ k = j + 1 ∧
      ∃ branch, f.insts[k]? = some branch ∧ branch.operation.isBranch = true := by
  refine and_congr_right fun _ => ?_
  simp only [fedBy_flow_iff hf]
  constructor
  · rintro ⟨hk, j, hfed, hnext⟩
    exact ⟨j, hfed, next?_lower_iff.mp ⟨hk, hnext⟩⟩
  · rintro ⟨j, hfed, hnext⟩
    obtain ⟨hk, hnext⟩ := next?_lower_iff.mpr hnext
    exact ⟨hk, j, hfed, hnext⟩

/-- The rules of data dependence are one step from a member. -/
theorem fedBy_or_fusedWith_flow_iff {C : Set InstId} :
    (f.flow isa functionId).FedBy C j ∨ (f.flow isa functionId).FusedWith C j ↔
      ∃ i ∈ C, f.Step isa i j := by
  rw [fedBy_flow_iff hf, fusedWith_flow_iff hf]
  constructor
  · rintro (⟨i, hi, h⟩ | ⟨hfuses, j, ⟨i, hi, h⟩, hnext, rfl, branch, hinst, hbranch⟩)
    · exact ⟨i, hi, .operand h⟩
    · exact ⟨i, hi, .fused h hfuses hnext hinst hbranch⟩
  · rintro ⟨i, hi, h⟩
    cases h with
    | operand h => exact .inl ⟨i, hi, h⟩
    | fused h hfuses hnext hinst hbranch =>
      exact .inr ⟨hfuses, _, ⟨i, hi, h⟩, hnext, rfl, _, hinst, hbranch⟩

/-- The instruction and what chains of steps lead to from it are the least closed set. -/
theorem reached_flow :
    (f.flow isa functionId).reached [i] = {x | Relation.ReflTransGen (f.Step isa) i x} := by
  have hbranch : ∀ k, (f.flow isa functionId).func.IsCondBranch k →
      (f.flow isa functionId).isNumbered k = true :=
    fun _ hk => Func.IsCondBranch.isSome_number? hk
  have hrules {C : Set InstId} {x : Nat} := @fedBy_or_fusedWith_flow_iff f isa functionId x hf C
  refine (DataFlow.isLeast_reached hbranch).unique ⟨⟨?_, ?_, ?_⟩, fun C hC x hx => ?_⟩
  · intro x hx
    obtain rfl := List.mem_singleton.mp hx
    exact .refl
  · intro x hx
    obtain ⟨y, hy, hstep⟩ := hrules.mp (.inl hx)
    exact .tail hy hstep
  · intro x hx
    obtain ⟨y, hy, hstep⟩ := hrules.mp (.inr hx)
    exact .tail hy hstep
  · -- a closed set is not left by a step
    induction hx with
    | refl => exact hC.seed i List.mem_cons_self
    | tail _ hstep ih => exact (hrules.mpr ⟨_, ih, hstep⟩).elim (hC.fed _) (hC.fused _)

/-- From one instruction, what is found is what a chain of steps leads to. -/
theorem mem_closure_flow_iff :
    j ∈ (f.flow isa functionId).closure [i] ↔ Relation.TransGen (f.Step isa) i j := by
  have hbranch : ∀ k, (f.flow isa functionId).func.IsCondBranch k →
      (f.flow isa functionId).isNumbered k = true :=
    fun _ hk => Func.IsCondBranch.isSome_number? hk
  have hreached : (f.flow isa functionId).reached [i] = _ := reached_flow hf
  constructor
  · intro h
    have hrules := DataFlow.fedBy_or_fusedWith_of_mem_closure hbranch h
    rw [fedBy_or_fusedWith_flow_iff hf, hreached] at hrules
    obtain ⟨x, hx, hstep⟩ := hrules
    exact .tail' hx hstep
  · intro h
    have hmem : j ∈ (f.flow isa functionId).reached [i] := by
      rw [hreached]
      exact h.to_reflTransGen
    refine hmem.elim (fun hseed => ?_) id
    -- a seed is found if something feeds it; it is not a branch, as something depends on it
    obtain rfl := List.mem_singleton.mp hseed
    obtain ⟨x, hx, hstep⟩ := Relation.TransGen.tail'_iff.mp h
    obtain ⟨_, hfirst, -⟩ := Relation.TransGen.head'_iff.mp h
    cases hstep with
    | operand hfeeds =>
      refine DataFlow.mem_closure_of_fedBy ((fedBy_flow_iff hf).mpr ⟨x, ?_, hfeeds⟩)
      rw [hreached]
      exact hx
    | fused _ _ _ hinst hisBranch =>
      obtain ⟨giver, hgiver, -, hend⟩ := hfirst.givesValue
      cases hgiver.symm.trans hinst
      rw [Operation.isEnd_of_isBranch hisBranch] at hend
      cases hend

/-- **What is found from an instruction is what a chain of operands leads to from it**, by whichever
instruction set, and every instruction is numbered by its place. Arguments of blocks are no links of
such a chain: an instruction that is no branch and reads no results, but at most parameters, is
never found. -/
theorem mem_found_iff_operand_chain (isa : Isa) (functionId : UInt32) (i : Nat) :
    let flow := f.flow isa functionId
    let numbers := flow.numbering.collect (flow.closure [i])
    (∀ j < f.insts.length, flow.numbering.number? j = some j) ∧
      (∀ j, j ∈ numbers ↔ Relation.TransGen (f.Step isa) i j) ∧
      ∀ j reader, f.insts[j]? = some reader → reader.operation.isBranch = false →
        (∀ place, .inst place ∉ reader.operation.operands) → j ∉ numbers := by
  intro flow numbers
  have hnumbers : ∀ j, j ∈ numbers ↔ Relation.TransGen (f.Step isa) i j := by
    intro j
    refine mem_collect_lower_iff.trans ?_
    rw [mem_closure_flow_iff hf]
    refine and_iff_left_of_imp fun h => ?_
    obtain ⟨x, -, hstep⟩ := Relation.TransGen.tail'_iff.mp h
    exact hstep.lt_length
  refine ⟨fun j hj => number?_lower hj, hnumbers, ?_⟩
  intro j reader hreader hnot hoperands hj
  -- the last step of a chain reads an operand, or leads to a branch
  obtain ⟨x, -, hstep⟩ := Relation.TransGen.tail'_iff.mp ((hnumbers j).mp hj)
  cases hstep with
  | operand h =>
    obtain ⟨_, _, -, -, hreader', hmem⟩ := h
    cases hreader.symm.trans hreader'
    exact hoperands x hmem
  | fused _ _ _ hinst hbranch =>
    cases hreader.symm.trans hinst
    rw [hnot] at hbranch
    cases hbranch

end ClearlyNamed

end Function

/-! ## Arguments of blocks -/

/-- What an operation passes on, with the places of the blocks it goes to. -/
def Operation.passes : Operation → List (Nat × List Value)
  | branch _ onTrue trueArgs onFalse falseArgs => [(onTrue, trueArgs), (onFalse, falseArgs)]
  | jump target args => [(target, args)]
  | _ => []

namespace Function

/-- The value of the instruction at `i` is passed to a parameter of a block, and the instruction at
`j` has this parameter as an operand. -/
def PassedTo (f : Function) (i j : Nat) : Prop :=
  ∃ last ∈ f.insts, ∃ target args place reader, (target, args) ∈ last.operation.passes ∧
    args[place]? = some (.inst i) ∧ f.insts[j]? = some reader ∧
    .blockParam target place ∈ reader.operation.operands

/-- Instructions that read a parameter of a block are found from those whose value is passed to
it. -/
def CarriesArguments (f : Function) (isa : Isa) : Prop :=
  ∀ functionId i j, f.PassedTo i j →
    ∃ n ∈ (f.flow isa functionId).numbering.collect ((f.flow isa functionId).closure [i]),
      (f.flow isa functionId).numbering.number? j = some n

end Function

/-- A text in which a block has a parameter. -/
def passingText : String :=
  "fun @f(@p: i32): i32 \x7b\n%entry:\n%x = add @p, 1\n%z = mul %x, 2\n" ++
    "jump %next(%z)\n%next(%y: i32):\nret %y\n\x7d\n"

/-- The function that is read from it. -/
def passingFunction : Function where
  name := "@f"
  params := [some "@p"]
  blocks :=
    [{ name := some "%entry"
       params := []
       insts :=
        [⟨.named "%x", .binary .add (.param 0) (.int 1)⟩,
          ⟨.named "%z", .binary .mul (.inst 0) (.int 2)⟩, ⟨.unit, .jump 1 [.inst 1]⟩] },
      { name := some "%next"
        params := [some "%y"]
        insts := [⟨.unit, .ret (some (.blockParam 1 0))⟩] }]

theorem clearlyNamed_passingFunction : passingFunction.ClearlyNamed := by
  have hnames : ∀ name ∈ passingFunction.givenNames, name.toList[1]? ≠ some '.' := by decide +kernel
  exact ⟨by decide +kernel, fun name hname => not_isMadeUp (hnames name hname)⟩

/-- Of the four instructions of `passingFunction`, only the product is found from the sum. -/
theorem mem_found_iff_operand_chain_passingFunction :
    let flow := passingFunction.flow .generic (functionId 0)
    let numbers := flow.numbering.collect (flow.closure [0])
    passingFunction.ClearlyNamed ∧ 1 ∈ numbers ∧ 3 ∉ numbers := by
  intro flow numbers
  obtain ⟨-, hchain, hparams⟩ :=
    Function.mem_found_iff_operand_chain clearlyNamed_passingFunction .generic (functionId 0) 0
  refine ⟨clearlyNamed_passingFunction, (hchain 1).mpr (.single (.operand ?_)), ?_⟩
  · exact ⟨_, _, rfl, ⟨nofun, rfl⟩, rfl, by decide⟩
  · exact hparams 3 _ rfl rfl (by simp [Operation.operands])

/-- **Arguments of blocks are lost in lowering**, whichever the instruction set. In `passingText`,
the product is passed to the parameter that is returned, and yet nothing is found from it. -/
theorem not_carriesArguments_passingText :
    checkProgram (parseItems passingText) = .ok { functions := [passingFunction] } ∧
      passingFunction.ClearlyNamed ∧ passingFunction.PassedTo 1 3 ∧
      ∀ isa, ¬passingFunction.CarriesArguments isa := by
  have hpassed : passingFunction.PassedTo 1 3 :=
    ⟨⟨.unit, .jump 1 [.inst 1]⟩, by decide, 1, [.inst 1], 0, _, by decide, rfl, rfl, by decide⟩
  refine ⟨by decide +kernel, clearlyNamed_passingFunction, hpassed, fun isa hcarries => ?_⟩
  obtain ⟨n, hn, -⟩ := hcarries (functionId 0) 1 3 hpassed
  have hnone : (passingFunction.flow isa (functionId 0)).numbering.collect
      ((passingFunction.flow isa (functionId 0)).closure [1]) = [] := by
    cases isa <;> decide +kernel
  rw [hnone] at hn
  cases hn

end Rejoin.Koopa
