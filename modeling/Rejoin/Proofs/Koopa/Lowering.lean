import Rejoin.Koopa.Lowering
import Rejoin.Proofs.Koopa.Check
import Rejoin.Proofs.Machine.WellFormed

/-!
# Lowered Koopa programs

Blocks are created before any instruction is pushed, and the machine block of each is noted. Since a
new block gets the next number, the table of notes has the places of the layout and maps each to
itself: `Function.lookup_createBlocks`. So the machine function is the one made of the lowered rows,
with places for targets: `Function.lower_eq`.

Lowering turns every instruction into one that ends its block if and only if the instruction does,
and leads to the same places. So a function whose targets are in its layout is linked,
`Function.TargetsListed.lower`, and the functions of a program read from a Koopa text are well
formed, `wellFormed_of_parse`.
-/

namespace Rejoin.Koopa

namespace Function

variable {f : Function}

/-! ## The table of machine blocks -/

/-- Creating blocks notes for each place of the layout the machine block of that place, provided
the function has as many blocks as there are places before. -/
theorem lookup_createBlocks {func : Func} {place : Nat} (h : func.nextBlock = place)
    (numbers : List (Nat × BlockId)) (blocks : List Block) (target : Nat) :
    (createBlocks func numbers place blocks).2.lookup target =
      if place ≤ target ∧ target < place + blocks.length then some target
      else numbers.lookup target := by
  induction blocks generalizing func numbers place with
  | nil =>
    rw [if_neg (by simp)]
    rfl
  | cons b rest ih =>
    -- the new block has the number of the place, and the next one that of the next place
    have hnext : (func.newBlock (blockLabel place b)).2.nextBlock = place + 1 := by rw [← h]; rfl
    have hid : (func.newBlock (blockLabel place b)).1 = place := h
    rw [createBlocks, ih hnext, hid, List.lookup_cons]
    by_cases heq : target = place
    · subst heq
      simp
    · rw [beq_false_of_ne heq]
      refine if_congr ?_ rfl rfl
      rw [List.length_cons]
      omega

/-- So every place is found to be the number of its machine block. -/
theorem blockAt_createBlocks (name : String) (blocks : List Block) :
    blockAt (createBlocks { name } [] 0 blocks).2 = id := by
  funext target
  rw [blockAt, lookup_createBlocks rfl]
  split <;> rfl

/-! ## Rows -/

/-- The labelled rows of machine instructions of a row of blocks, the first of which is at a place
and starts with the instruction at `inst`. Targets are places. -/
def lowerBlocks (f : Function) (place inst : Nat) :
    List Block → List (String × List (Rejoin.Inst BlockId))
  | [] => []
  | b :: rest =>
    (blockLabel place b, f.lowerInsts id inst b.insts) ::
      f.lowerBlocks (place + 1) (inst + b.insts.length) rest

/-- The machine blocks are created with the labels of the rows. -/
theorem createBlocks_eq (f : Function) (func : Func) (numbers : List (Nat × BlockId))
    (place inst : Nat) (blocks : List Block) :
    (createBlocks func numbers place blocks).1 =
      (f.lowerBlocks place inst blocks).foldl (fun func row => func.addBlock row.1) func := by
  induction blocks generalizing func numbers place inst with
  | nil => rfl
  | cons b rest ih =>
    rw [createBlocks, lowerBlocks, List.foldl_cons]
    exact ih _ _ _ _

/-- They are filled with the instructions of the rows. -/
theorem fillBlocks_eq (f : Function) (func : Func) (place inst : Nat) (blocks : List Block) :
    f.fillBlocks id func place inst blocks =
      ((f.lowerBlocks place inst blocks).zipIdx place).foldl
        (fun func (row, b) => func.pushAll b row.2) func := by
  induction blocks generalizing func place inst with
  | nil => rfl
  | cons b rest ih =>
    rw [fillBlocks, lowerBlocks, List.zipIdx_cons, List.foldl_cons]
    exact ih _ _ _

/-- The machine function is the one made of the rows. -/
theorem lower_eq (f : Function) : f.lower = Func.ofBlocks f.name (f.lowerBlocks 0 0 f.blocks) := by
  have hcreated := createBlocks_eq f { name := f.name } [] 0 0 f.blocks
  rw [lower]
  dsimp only
  rw [blockAt_createBlocks, hcreated, fillBlocks_eq]
  rfl

/-! ## Instructions -/

/-- Lowering keeps which instructions end their block. -/
theorem isTerminator_lowerInst (number : Nat → BlockId) (result : Option String)
    (operation : Operation) :
    (f.lowerInst number result operation).isTerminator = operation.isEnd := by
  cases operation <;> rfl

/-- The targets are the machine blocks of the targets. -/
theorem targets_lowerInst (number : Nat → BlockId) (result : Option String)
    (operation : Operation) :
    (f.lowerInst number result operation).targets = operation.targets.map number := by
  cases operation <;> rfl

/-- Every machine instruction comes from an instruction of the row. -/
theorem exists_of_mem_lowerInsts {place : Nat} {insts : List Inst} {lowered : Rejoin.Inst BlockId}
    (h : lowered ∈ f.lowerInsts id place insts) :
    ∃ inst ∈ insts, ∃ result, lowered = f.lowerInst id result inst.operation := by
  induction insts generalizing place with
  | nil => simp [lowerInsts] at h
  | cons inst rest ih =>
    rw [lowerInsts, List.mem_cons] at h
    rcases h with rfl | h
    · exact ⟨inst, List.mem_cons_self, _, rfl⟩
    · obtain ⟨other, hother, result, heq⟩ := ih h
      exact ⟨other, List.mem_cons_of_mem inst hother, result, heq⟩

/-- The last instruction of a row becomes the last one. -/
theorem dropLast_lowerInsts (place : Nat) (insts : List Inst) :
    (f.lowerInsts id place insts).dropLast = f.lowerInsts id place insts.dropLast := by
  induction insts generalizing place with
  | nil => rfl
  | cons inst rest ih =>
    cases rest with
    | nil => rfl
    | cons second rest =>
      exact congrArg (f.lowerInst id (f.instName? place) inst.operation :: ·) (ih (place + 1))

/-- Every row comes from a block. -/
theorem exists_of_mem_lowerBlocks {place inst : Nat} {blocks : List Block}
    {row : String × List (Rejoin.Inst BlockId)} (h : row ∈ f.lowerBlocks place inst blocks) :
    ∃ b ∈ blocks, ∃ inst, row.2 = f.lowerInsts id inst b.insts := by
  induction blocks generalizing place inst with
  | nil => simp [lowerBlocks] at h
  | cons b rest ih =>
    rw [lowerBlocks, List.mem_cons] at h
    rcases h with rfl | h
    · exact ⟨b, List.mem_cons_self, inst, rfl⟩
    · obtain ⟨other, hother, inst', heq⟩ := ih h
      exact ⟨other, List.mem_cons_of_mem b hother, inst', heq⟩

theorem length_lowerBlocks (place inst : Nat) (blocks : List Block) :
    (f.lowerBlocks place inst blocks).length = blocks.length := by
  induction blocks generalizing place inst with
  | nil => rfl
  | cons b rest ih => rw [lowerBlocks, List.length_cons, List.length_cons, ih]

/-! ## Machine functions -/

/-- The targets of a function are places of its layout. -/
def TargetsListed (f : Function) : Prop :=
  ∀ b ∈ f.blocks, ∀ inst ∈ b.insts, ∀ target ∈ inst.operation.targets, target < f.blocks.length

/-- The rows of such a function lead to rows. -/
theorem TargetsListed.targets_lt (hf : f.TargetsListed) :
    ∀ row ∈ f.lowerBlocks 0 0 f.blocks, ∀ inst ∈ row.2, ∀ target ∈ inst.targets,
      target < (f.lowerBlocks 0 0 f.blocks).length := by
  intro row hrow lowered hlowered
  obtain ⟨b, hb, inst, heq⟩ := exists_of_mem_lowerBlocks hrow
  rw [heq] at hlowered
  obtain ⟨inst, hinst, result, rfl⟩ := exists_of_mem_lowerInsts hlowered
  rw [targets_lowerInst, List.map_id, length_lowerBlocks]
  exact hf b hb inst hinst

/-- The machine function of a function whose targets are in its layout is linked. -/
theorem TargetsListed.lower (hf : f.TargetsListed) : f.lower.Linked := by
  rw [lower_eq]
  exact Func.linked_ofBlocks hf.targets_lt f.name

/-- In a well-formed function all targets are listed. -/
theorem WellFormed.targetsListed (hf : f.WellFormed) : f.TargetsListed :=
  fun b hb => (hf b hb).targets_lt

/-- The machine function of a well-formed function is well formed. -/
theorem WellFormed.lower (hf : f.WellFormed) : f.lower.WellFormed := by
  rw [lower_eq]
  refine Func.wellFormed_ofBlocks ⟨fun row hrow => ?_, hf.targetsListed.targets_lt⟩ f.name
  obtain ⟨b, hb, inst, heq⟩ := exists_of_mem_lowerBlocks hrow
  rw [heq, dropLast_lowerInsts]
  intro lowered hlowered
  obtain ⟨inst, hinst, result, rfl⟩ := exists_of_mem_lowerInsts hlowered
  rw [isTerminator_lowerInst]
  exact (hf b hb).end_last inst hinst

end Function

/-- The targets of every function of a program are places of its layout. -/
def Program.TargetsListed (program : Program) : Prop :=
  ∀ f ∈ program.functions, f.TargetsListed

/-- Whatever program of this kind is lowered, the machine functions are linked. -/
theorem Program.TargetsListed.lower {program : Program} (h : program.TargetsListed) :
    ∀ f ∈ program.lower.functions, f.Linked := by
  intro f hf
  obtain ⟨func, hfunc, rfl⟩ := List.mem_map.mp hf
  exact (h func hfunc).lower

/-- A front end: it reads texts as Koopa programs whose targets are in their layout. -/
structure FrontEnd where
  /-- Why a text gives no program. -/
  Error : Type
  /-- Read a text. -/
  read : String → Except Error Program
  /-- The targets of what is read are in the layout. -/
  targetsListed : ∀ text program, read text = .ok program → program.TargetsListed

/-- Read a text as a machine program. -/
def FrontEnd.parse (front : FrontEnd) (text : String) : Except front.Error Rejoin.Program :=
  (front.read text).map Program.lower

/-- The functions of a program that is read by any front end are linked. -/
theorem FrontEnd.linked_of_parse (front : FrontEnd) {text : String} {program : Rejoin.Program}
    (h : front.parse text = .ok program) : ∀ f ∈ program.functions, f.Linked := by
  rw [parse] at h
  cases hread : front.read text with
  | error error =>
    rw [hread] at h
    cases h
  | ok source =>
    rw [hread] at h
    obtain rfl := Except.ok.inj h
    exact (front.targetsListed text source hread).lower

/-- The front end of this library. -/
def frontEnd : FrontEnd where
  Error := Error
  read text := checkProgram (parseItems text)
  targetsListed _ _ h f hf := (wellFormed_of_checkProgram h f hf).targetsListed

/-- Every function of a program read from a Koopa text is well formed. -/
theorem wellFormed_of_parse {text : String} {program : Rejoin.Program}
    (h : parse text = .ok program) : ∀ f ∈ program.functions, f.WellFormed := by
  rw [parse] at h
  cases hchecked : checkProgram (parseItems text) with
  | error error =>
    rw [hchecked] at h
    cases h
  | ok checked =>
    rw [hchecked] at h
    obtain rfl := Except.ok.inj h
    intro f hf
    obtain ⟨func, hfunc, rfl⟩ := List.mem_map.mp hf
    exact (wellFormed_of_checkProgram hchecked func hfunc).lower

end Rejoin.Koopa
