import Mathlib.Data.List.Perm.Basic
import Rejoin.Proofs.Machine.Lookup

/-!
# The calls that build a function

A function is built by calls. One kind of call appends an empty block and answers with its number.
The other pushes an instruction to a block and answers with the number of the instruction, or with
nothing if the block is missing. What was called and what was answered is the trace of a run.

The function that a run leaves behind knows its trace: every question about blocks and instructions
is answered as the trace says, `Func.remembers_trace`. The induction over the calls carries two
invariants. `Func.Consistent` says that the layout, the blocks, the table of owners and the two
counters agree with each other. `Func.Holds` says that they agree with the pushes that were
answered: every block holds what was pushed to it, in the order of the pushes, and the table of
owners has one entry for each of them.
-/

namespace Rejoin.Func

/-! ## Calls and answers -/

/-- A call that makes a function grow. -/
inductive Call where
  /-- Append an empty block. -/
  | newBlock (label : String)
  /-- Push an instruction to the block numbered `b`, which may be missing. -/
  | pushInst (b : BlockId) (inst : Inst BlockId)
deriving DecidableEq, Repr

/-- Whether the call pushes an instruction. -/
def Call.isPush : Call → Bool
  | newBlock _ => false
  | pushInst .. => true

/-- The answer to a call, which is the number of the new block or of the pushed instruction, and the
function after the call. A push to a missing block is not answered. -/
def call (f : Func) : Call → Option Nat × Func
  | .newBlock label => ((f.newBlock label).1, (f.newBlock label).2)
  | .pushInst b inst => f.pushInst b inst

/-- The function after a run of calls. -/
def run (f : Func) : List Call → Func
  | [] => f
  | call :: calls => (f.call call).2.run calls

/-- The calls of a run, each with its answer. -/
def trace (f : Func) : List Call → List (Call × Option Nat)
  | [] => []
  | call :: calls => (call, (f.call call).1) :: (f.call call).2.trace calls

/-- A push that was answered. -/
structure Pushed where
  /-- The number in the answer. -/
  id : InstId
  /-- The block the instruction was pushed to. -/
  block : BlockId
  /-- The instruction. -/
  inst : Inst BlockId
deriving DecidableEq, Repr

/-- The instruction with its number, as a block holds it. -/
def Pushed.entry (p : Pushed) : InstId × Inst BlockId :=
  (p.id, p.inst)

/-- The number with its block, as the table of owners holds it. -/
def Pushed.owner (p : Pushed) : InstId × BlockId :=
  (p.id, p.block)

/-- The answered pushes of a trace. -/
def pushes (trace : List (Call × Option Nat)) : List Pushed :=
  trace.filterMap fun
    | (.pushInst b inst, some id) => some ⟨id, b, inst⟩
    | _ => none

/-- The blocks that were appended in a trace, each with the number in the answer and its label. -/
def newBlocks (trace : List (Call × Option Nat)) : List (BlockId × String) :=
  trace.filterMap fun
    | (.newBlock label, some b) => some (b, label)
    | _ => none

variable {f : Func} {log : List Pushed}

/-- The answered pushes of two traces, one after the other. -/
theorem pushes_append (first second : List (Call × Option Nat)) :
    pushes (first ++ second) = pushes first ++ pushes second :=
  List.filterMap_append

/-- One call keeps the parts of a function in agreement. -/
theorem Consistent.call (hf : f.Consistent) (c : Call) : (f.call c).2.Consistent := by
  cases c with
  | newBlock label => exact hf.addBlock label
  | pushInst b inst => exact hf.push b inst

/-- So does a run of calls. -/
theorem Consistent.run (hf : f.Consistent) (calls : List Call) : (f.run calls).Consistent := by
  induction calls generalizing f with
  | nil => exact hf
  | cons c calls ih => exact ih (hf.call c)

/-! ## Blocks and counters -/

/-- The blocks of a function, each with its number and its label. -/
def labels (f : Func) : List (BlockId × String) :=
  f.layout.map fun entry => (entry.1, entry.2.label)

/-- A new block is the last one, under the number that is answered. -/
theorem Consistent.labels_newBlock (hf : f.Consistent) (label : String) :
    (f.newBlock label).2.labels = f.labels ++ [((f.newBlock label).1, label)] := by
  rw [hf.newBlock_eq, labels, List.map_append]
  rfl

/-- A push leaves the blocks where they are. -/
theorem Consistent.labels_pushInst (hf : f.Consistent) (b : BlockId) (inst : Inst BlockId) :
    (f.pushInst b inst).2.labels = f.labels := by
  rcases hf.pushInst_cases b inst with ⟨-, hpush⟩ | ⟨before, block, after, hlayout, hpush⟩
  · rw [hpush]
    rfl
  · rw [hpush, labels, labels, hlayout]
    simp

/-- After a run the layout has been extended by the blocks of the trace. -/
theorem Consistent.labels_run (hf : f.Consistent) (calls : List Call) :
    (f.run calls).labels = f.labels ++ newBlocks (f.trace calls) := by
  -- only a new block adds a label, a push keeps all of them
  induction calls generalizing f with
  | nil => exact (List.append_nil _).symm
  | cons c calls ih =>
    rw [Func.run, ih (hf.call c)]
    cases c with
    | newBlock label =>
      rw [Func.call, hf.labels_newBlock, List.append_assoc]
      rfl
    | pushInst b inst =>
      rw [Func.call, hf.labels_pushInst]
      rfl

/-- Every push uses up one number, whether it is answered or not. -/
theorem Consistent.nextInst_pushInst (hf : f.Consistent) (b : BlockId) (inst : Inst BlockId) :
    (f.pushInst b inst).2.nextInst = f.nextInst + 1 ∧
      (f.pushInst b inst).2.nextBlock = f.nextBlock := by
  rcases hf.pushInst_cases b inst with ⟨-, hpush⟩ | ⟨before, block, after, -, hpush⟩
  · rw [hpush]
    exact ⟨rfl, rfl⟩
  · rw [hpush]
    exact ⟨rfl, rfl⟩

/-- The two counters count the calls of each kind. -/
theorem Consistent.counters_run (hf : f.Consistent) (calls : List Call) :
    (f.run calls).nextInst = f.nextInst + (f.trace calls).countP (fun step => step.1.isPush) ∧
      (f.run calls).nextBlock =
        f.nextBlock + (f.trace calls).countP (fun step => !step.1.isPush) := by
  -- each call advances one of the two counters by one
  induction calls generalizing f with
  | nil => exact ⟨rfl, rfl⟩
  | cons c calls ih =>
    obtain ⟨hinst, hblock⟩ := ih (hf.call c)
    rw [Func.run, hinst, hblock, trace, List.countP_cons, List.countP_cons]
    cases c with
    | newBlock label =>
      rw [Func.call, hf.newBlock_eq]
      exact ⟨rfl, Nat.add_right_comm _ _ _⟩
    | pushInst b inst =>
      obtain ⟨hnext, hsame⟩ := hf.nextInst_pushInst b inst
      rw [Func.call, hnext, hsame]
      exact ⟨Nat.add_right_comm _ _ _, rfl⟩

/-! ## What a run keeps -/

/-- The blocks of a function and its table of owners hold what was pushed. -/
structure Holds (f : Func) (log : List Pushed) : Prop where
  /-- Later pushes were answered with greater numbers. -/
  increasing : log.Pairwise fun p q => p.id < q.id
  /-- The next number has not been given out. -/
  fresh : ∀ p ∈ log, p.id < f.nextInst
  /-- Every push went to a block of the function. -/
  placed : ∀ p ∈ log, p.block ∈ f.layout.map Prod.fst
  /-- A block holds what was pushed to it, in order. -/
  contents : ∀ entry ∈ f.layout,
    entry.2.insts = (log.filter (·.block = entry.1)).map Pushed.entry
  /-- The table of owners has an entry for each push, the latest first. -/
  parents : f.parents = (log.map Pushed.owner).reverse

/-- Nothing has been pushed to an empty function. -/
theorem holds_empty (name : String) : Holds { name } [] :=
  ⟨.nil, by simp, by simp, by simp, rfl⟩

/-- A new block is empty, and nothing has been pushed to it yet. -/
theorem Holds.newBlock (h : f.Holds log) (hf : f.Consistent) (label : String) :
    (f.newBlock label).2.Holds log := by
  rw [hf.newBlock_eq]
  refine ⟨h.increasing, h.fresh, fun p hp => ?_, fun entry hentry => ?_, h.parents⟩
  · rw [List.map_append]
    exact List.mem_append_left _ (h.placed p hp)
  · rcases List.mem_append.mp hentry with hold | hnew
    · exact h.contents entry hold
    · obtain rfl := List.mem_singleton.mp hnew
      -- its number has not been given out before, so no push has gone to it
      have hnone : log.filter (·.block = f.nextBlock) = [] := by
        rw [List.filter_eq_nil_iff]
        intro p hp
        have hlt : p.block < f.nextBlock := by
          have hplaced := h.placed p hp
          rwa [hf.block_ids, List.mem_range] at hplaced
        simpa using hlt.ne
      rw [hnone]
      rfl

/-- A push to a missing block leaves no trace in the blocks or the table. -/
theorem Holds.skip (h : f.Holds log) : Holds { f with nextInst := f.nextInst + 1 } log :=
  ⟨h.increasing, fun p hp => Nat.lt_succ_of_lt (h.fresh p hp), h.placed, h.contents, h.parents⟩

/-- One more push is seen in the block it goes to, at the end, and in no other block. -/
theorem map_entry_filter_append (log : List Pushed) (p : Pushed) (b : BlockId) :
    ((log ++ [p]).filter (·.block = b)).map Pushed.entry =
      (log.filter (·.block = b)).map Pushed.entry ++ if p.block = b then [p.entry] else [] := by
  rw [List.filter_append, List.map_append]
  by_cases hb : p.block = b
  · simp [hb]
  · simp [hb]

/-- An answered push is the last one in the log, and its number is the greatest so far. -/
theorem Holds.push (h : f.Holds log) (hf : f.Consistent) {b : BlockId} {block : Block}
    {before after : List (BlockId × Block)} (hlayout : f.layout = before ++ (b, block) :: after)
    (inst : Inst BlockId) :
    Holds { f with
      layout := before ++ (b, { block with insts := block.insts ++ [(f.nextInst, inst)] }) :: after
      parents := (f.nextInst, b) :: f.parents
      nextInst := f.nextInst + 1 } (log ++ [⟨f.nextInst, b, inst⟩]) := by
  have hb : b ∈ f.layout.map Prod.fst := by simp [hlayout]
  refine ⟨?increasing, ?fresh, ?placed, ?contents, ?parents⟩
  case increasing =>
    rw [List.pairwise_append]
    refine ⟨h.increasing, List.pairwise_singleton _ _, fun p hp q hq => ?_⟩
    obtain rfl := List.mem_singleton.mp hq
    exact h.fresh p hp
  case fresh =>
    rw [List.forall_mem_append]
    exact ⟨fun p hp => Nat.lt_succ_of_lt (h.fresh p hp),
      List.forall_mem_singleton.mpr (Nat.lt_succ_self f.nextInst)⟩
  case placed =>
    have hsame : (before ++ (b, { block with insts := block.insts ++ [(f.nextInst, inst)] }) ::
        after).map Prod.fst = f.layout.map Prod.fst := by
      rw [hlayout, List.map_append, List.map_append, List.map_cons, List.map_cons]
    rw [hsame, List.forall_mem_append]
    exact ⟨h.placed, List.forall_mem_singleton.mpr hb⟩
  case contents =>
    intro entry hentry
    rw [map_entry_filter_append]
    -- the block of the push has one instruction more, and the others have other numbers
    rcases List.mem_cons.mp (List.perm_middle.mem_iff.mp hentry) with rfl | hentry
    · have hblock : (b, block) ∈ f.layout := hlayout ▸ List.mem_append_right _ List.mem_cons_self
      rw [if_pos rfl, ← h.contents (b, block) hblock]
      rfl
    · obtain ⟨hmem, hne⟩ := hf.forall_mem_others hlayout entry hentry
      rw [if_neg hne, List.append_nil, h.contents entry hmem]
  case parents =>
    rw [List.map_append, List.reverse_append, ← h.parents]
    rfl

/-- One call keeps blocks and table in step with the log. -/
theorem Holds.call (h : f.Holds log) (hf : f.Consistent) (c : Call) :
    (f.call c).2.Holds (log ++ pushes [(c, (f.call c).1)]) := by
  cases c with
  | newBlock label =>
    have hkept := h.newBlock hf label
    rwa [← List.append_nil log] at hkept
  | pushInst b inst =>
    rcases hf.pushInst_cases b inst with ⟨-, hpush⟩ | ⟨before, block, after, hlayout, hpush⟩
    · rw [Func.call, hpush]
      have hkept := h.skip
      rwa [← List.append_nil log] at hkept
    · rw [Func.call, hpush]
      exact h.push hf hlayout inst

/-- A run of calls keeps blocks and table in step with the log. -/
theorem Holds.run (h : f.Holds log) (hf : f.Consistent) (calls : List Call) :
    (f.run calls).Holds (log ++ pushes (f.trace calls)) := by
  -- the log grows with the answered pushes, so it is general too
  induction calls generalizing f log with
  | nil =>
    rw [trace, pushes, List.filterMap_nil, List.append_nil]
    exact h
  | cons c calls ih =>
    have hrest := ih (h.call hf c) (hf.call c)
    rwa [List.append_assoc, ← pushes_append] at hrest

/-! ## What the blocks tell -/

section Told

variable (h : f.Holds log)

include h

/-- No two pushes were answered with one number. -/
theorem Holds.nodup_ids : (log.map Pushed.id).Nodup := by
  rw [List.Nodup, List.pairwise_map]
  exact h.increasing.imp Nat.ne_of_lt

/-- Blocks hold what was pushed to them and nothing else. -/
theorem Holds.mem_insts_iff {b : BlockId} {block : Block} (hb : (b, block) ∈ f.layout)
    {entry : InstId × Inst BlockId} :
    entry ∈ block.insts ↔ ∃ p ∈ log, p.block = b ∧ p.entry = entry := by
  rw [h.contents (b, block) hb]
  simp [and_assoc]

/-- Numbers increase inside a block, since later pushes were answered with greater ones. -/
theorem Holds.pairwise_ids {block : Block} (hblock : block ∈ f.blocks) :
    (block.insts.map Prod.fst).Pairwise (· < ·) := by
  obtain ⟨b, hb⟩ := mem_blocks_iff.mp hblock
  rw [h.contents (b, block) hb, List.pairwise_map, List.pairwise_map]
  exact h.increasing.filter _

/-- What was pushed is in the block it was pushed to. -/
theorem Holds.exists_block {p : Pushed} (hp : p ∈ log) :
    ∃ block, (p.block, block) ∈ f.layout ∧ p.entry ∈ block.insts := by
  obtain ⟨⟨_, block⟩, hentry, rfl⟩ := List.mem_map.mp (h.placed p hp)
  exact ⟨block, hentry, (h.mem_insts_iff hentry).mpr ⟨p, hp, rfl, rfl⟩⟩

/-- The layout lists what was pushed, each push once. -/
theorem Holds.insts_perm (hf : f.Consistent) : f.insts.Perm (log.map Pushed.entry) := by
  have hlog : (log.map Pushed.entry).Nodup := by
    refine List.Nodup.of_map Prod.fst ?_
    rw [List.map_map]
    exact h.nodup_ids
  -- neither list repeats a number, so it is enough to compare their members
  rw [List.perm_ext_iff_of_nodup (List.Nodup.of_map Prod.fst hf.nodup_ids) hlog]
  intro entry
  rw [Func.mem_insts_iff, List.mem_map]
  constructor
  · rintro ⟨block, hblock, hentry⟩
    obtain ⟨b, hb⟩ := mem_blocks_iff.mp hblock
    obtain ⟨p, hp, -, rfl⟩ := (h.mem_insts_iff hb).mp hentry
    exact ⟨p, hp, rfl⟩
  · rintro ⟨p, hp, rfl⟩
    obtain ⟨block, hblock, hentry⟩ := h.exists_block hp
    exact ⟨block, mem_blocks_iff.mpr ⟨p.block, hblock⟩, hentry⟩

/-- The table of owners leads from the number of a push to the block it went to. -/
theorem Holds.parent?_eq {p : Pushed} (hp : p ∈ log) : f.parent? p.id = some p.block := by
  have hkeys : ((log.map Pushed.owner).reverse.map Prod.fst).Nodup := by
    rw [List.map_reverse, List.nodup_reverse, List.map_map]
    exact h.nodup_ids
  rw [parent?, h.parents, lookup_eq_some_iff_of_nodup hkeys, List.mem_reverse]
  exact List.mem_map_of_mem hp

/-- It has no entry for any other number. -/
theorem Holds.parent?_eq_none {id : InstId} (hid : id ∉ log.map Pushed.id) :
    f.parent? id = none := by
  rw [parent?, h.parents, ← Option.not_isSome_iff_eq_none, isSome_lookup_iff, List.map_reverse,
    List.mem_reverse, List.map_map]
  exact hid

end Told

/-- Everything a function tells about its blocks and instructions is what a trace says. -/
structure Remembers (f : Func) (trace : List (Call × Option Nat)) : Prop where
  /-- Blocks are numbered from zero in layout order, up to the block counter. -/
  block_ids : f.layout.map Prod.fst = List.range f.nextBlock
  /-- In layout order they are the blocks that were appended, with the numbers that were
  answered. -/
  labels : f.labels = newBlocks trace
  /-- The list of a block has the pushes to it, in order. -/
  contents : ∀ entry ∈ f.layout,
    entry.2.insts = ((pushes trace).filter (·.block = entry.1)).map Pushed.entry
  /-- The table of owners has an entry for each answered push, the latest first. -/
  parents : f.parents = ((pushes trace).map Pushed.owner).reverse
  /-- An instruction is in the block it was pushed to, once. -/
  once : ∀ p ∈ pushes trace, ∃ block, f.block? p.block = some block ∧
    (block.insts.map Prod.fst).count p.id = 1
  /-- It is in no other block. -/
  elsewhere : ∀ p ∈ pushes trace, ∀ b block, f.block? b = some block →
    p.id ∈ block.insts.map Prod.fst → b = p.block
  /-- Its owner is the block it was pushed to. -/
  parent : ∀ p ∈ pushes trace, f.parent? p.id = some p.block
  /-- Its number gives it back, by way of its owner. -/
  inst : ∀ p ∈ pushes trace, f.inst? p.id = some p.inst
  /-- A number that answered no push has neither an owner nor an instruction. -/
  unknown : ∀ id, id ∉ (pushes trace).map Pushed.id → f.parent? id = none ∧ f.inst? id = none
  /-- Numbers increase inside a block. -/
  increasing : ∀ block ∈ f.blocks, (block.insts.map Prod.fst).Pairwise (· < ·)
  /-- The layout lists the answered pushes, each once. -/
  insts : f.insts.Perm ((pushes trace).map Pushed.entry)
  /-- No two pushes were answered with one number. -/
  distinct : ((pushes trace).map Pushed.id).Nodup
  /-- A push to a block of the function is answered with the next number. -/
  answered : ∀ b inst, (f.block? b).isSome = true → (f.pushInst b inst).1 = some f.nextInst
  /-- A push to a missing block is not answered and changes nothing but the next number. -/
  missing : ∀ b inst, f.block? b = none →
    f.pushInst b inst = (none, { f with nextInst := f.nextInst + 1 })
  /-- The next number is above all answers to pushes. -/
  fresh : ∀ p ∈ pushes trace, p.id < f.nextInst
  /-- The next number of an instruction counts the pushes, answered or not. -/
  nextInst : f.nextInst = trace.countP fun step => step.1.isPush
  /-- The next number of a block counts the blocks that were appended. -/
  nextBlock : f.nextBlock = trace.countP fun step => !step.1.isPush

/-- **A function remembers the calls that built it.** After any run of calls that starts with an
empty function, blocks are numbered in the order in which they were appended. The lists of the
blocks and the table of owners, which every push changes separately, both have exactly the pushes
that were answered. So every number that answered a push is found once in one block, the one it was
pushed to, and leads to this block and to the instruction. No other number leads anywhere. The two
counters count calls, so that with fewer than 2³² calls of each kind all numbers fit into 32
bits. -/
theorem remembers_trace (name : String) (calls : List Call) :
    (run { name } calls).Remembers (trace { name } calls) := by
  have hf : (run { name } calls).Consistent := (consistent_empty name).run calls
  have hholds : (run { name } calls).Holds (pushes (trace { name } calls)) :=
    (holds_empty name).run (consistent_empty name) calls
  have hperm := hholds.insts_perm hf
  have hcounters := (consistent_empty name).counters_run calls
  constructor
  case block_ids => exact hf.block_ids
  case labels => exact (consistent_empty name).labels_run calls
  case contents => exact hholds.contents
  case parents => exact hholds.parents
  case once =>
    intro p hp
    obtain ⟨block, hblock, hentry⟩ := hholds.exists_block hp
    have hnodup := nodup_ids_of_mem hf (mem_blocks_iff.mpr ⟨p.block, hblock⟩)
    exact ⟨block, hf.block?_eq_some_iff.mpr hblock,
      List.count_eq_one_of_mem hnodup (List.mem_map.mpr ⟨_, hentry, rfl⟩)⟩
  case elsewhere =>
    intro p hp b block hblock hmem
    have howner := (parent?_eq_some_iff hf).mpr ⟨block, hblock, hmem⟩
    exact Option.some.inj (howner.symm.trans (hholds.parent?_eq hp))
  case parent => exact fun p hp => hholds.parent?_eq hp
  case inst =>
    intro p hp
    exact (inst?_eq_some_iff hf).mpr (hperm.mem_iff.mpr (List.mem_map_of_mem hp))
  case unknown =>
    intro id hid
    have hnone := hholds.parent?_eq_none hid
    refine ⟨hnone, ?_⟩
    -- without an owner there is no block to look into
    rw [inst?, owner?, hnone]
    rfl
  case increasing => exact fun block hblock => hholds.pairwise_ids hblock
  case insts => exact hperm
  case distinct => exact hholds.nodup_ids
  case answered =>
    intro b inst hb
    rcases hf.pushInst_cases b inst with ⟨hnone, -⟩ | ⟨before, block, after, -, hpush⟩
    · rw [hnone] at hb
      cases hb
    · rw [hpush]
  case missing => exact fun b inst hb => pushInst_of_block?_eq_none hb inst
  case fresh => exact hholds.fresh
  case nextInst => simpa using hcounters.1
  case nextBlock => simpa using hcounters.2

/-- Two blocks that are filled in turns. The first push comes before any block, and another goes to
a block that is never appended. -/
def interleavedCalls : List Call :=
  [.pushInst 0 (.op "nop" [] none), .newBlock "head",
    .pushInst 0 (.op "mov" [.int 1] (some "%a")), .newBlock "tail",
    .pushInst 1 (.op "cmp" [.value "%a", .int 0] none), .pushInst 7 (.jump 0),
    .pushInst 0 (.jump 1), .pushInst 1 (.ret none)]

/-- The two lost pushes of `interleavedCalls` use up the numbers 0 and 3, and the jump is number 4,
the second instruction of its block. -/
theorem remembers_trace_interleavedCalls :
    (trace { name := "@f" } interleavedCalls).map Prod.snd =
        [none, some 0, some 1, some 1, some 2, none, some 4, some 5] ∧
      (run { name := "@f" } interleavedCalls).labels = [(0, "head"), (1, "tail")] ∧
      (run { name := "@f" } interleavedCalls).parents = [(5, 1), (4, 0), (2, 1), (1, 0)] ∧
      (run { name := "@f" } interleavedCalls).parent? 4 = some 0 ∧
      (run { name := "@f" } interleavedCalls).inst? 4 = some (.jump 1) ∧
      (run { name := "@f" } interleavedCalls).parent? 3 = none ∧
      (run { name := "@f" } interleavedCalls).insts.map Prod.fst = [1, 4, 2, 5] ∧
      (run { name := "@f" } interleavedCalls).nextInst = 6 ∧
      (run { name := "@f" } interleavedCalls).nextBlock = 2 := by
  have h := remembers_trace "@f" interleavedCalls
  have hjump : (⟨4, 0, .jump 1⟩ : Pushed) ∈ pushes (trace { name := "@f" } interleavedCalls) := by
    decide +kernel
  exact ⟨by decide +kernel, h.labels, h.parents, h.parent _ hjump, h.inst _ hjump,
    (h.unknown 3 (by decide +kernel)).1, by decide +kernel, h.nextInst, h.nextBlock⟩

end Rejoin.Func
