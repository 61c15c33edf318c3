import Mathlib.Data.List.Nodup
import Mathlib.Data.List.TakeWhile
import Mathlib.Tactic.Common
import Rejoin.Machine.Func

/-!
# Consistent functions

A function keeps its blocks by number, the instructions of each block by number, the block of every
instruction in a table of its own, and two counters. `Func.Consistent` says that these agree: the
block counter tells how many blocks there are and how they are numbered, the instruction counter is
above all numbers in use, and the table names a block for an instruction exactly if the instruction
is in that block.

* `Func.Consistent.newBlock_eq` and `Func.Consistent.pushInst_cases` — what the two steps do to a
  consistent function;
* `Func.Consistent.addBlock` and `Func.Consistent.push` — the steps keep a function consistent;
* `Func.Consistent.block?_eq_getElem?` and `Func.Consistent.layoutNext?_eq` — looking up a block by
  its number is looking up a place in the layout.
-/

namespace Rejoin

/-! ## Lists of entries with keys -/

/-- Looking up a key that occurs once finds its entry. -/
theorem lookup_eq_some_iff_of_nodup {α β : Type} [BEq α] [LawfulBEq α] {entries : List (α × β)}
    (h : (entries.map Prod.fst).Nodup) {key : α} {value : β} :
    entries.lookup key = some value ↔ (key, value) ∈ entries := by
  induction entries with
  | nil => simp
  | cons entry rest ih =>
    obtain ⟨k, v⟩ := entry
    rw [List.map_cons, List.nodup_cons] at h
    rw [List.lookup_cons, List.mem_cons, Prod.mk.injEq]
    by_cases hk : key = k
    · subst hk
      have hnot : (key, value) ∉ rest := by
        intro hmem
        exact h.1 (List.mem_map.mpr ⟨_, hmem, rfl⟩)
      simp [hnot, eq_comm]
    · have hbeq : (key == k) = false := by simpa using hk
      rw [hbeq, ih h.2]
      simp [hk]

/-- Looking up a key finds something exactly when the key occurs. -/
theorem isSome_lookup_iff {β : Type} {entries : List (Nat × β)} {key : Nat} :
    (entries.lookup key).isSome = true ↔ key ∈ entries.map Prod.fst := by
  induction entries with
  | nil => simp
  | cons entry rest ih =>
    obtain ⟨k, v⟩ := entry
    rw [List.lookup_cons, List.map_cons, List.mem_cons]
    by_cases hk : key = k
    · simp [hk]
    · have hbeq : (key == k) = false := by simpa using hk
      rw [hbeq, ih]
      simp [hk]

/-- What a lookup finds is an entry. -/
theorem mem_of_lookup_eq_some {β : Type} {entries : List (Nat × β)} {key : Nat} {value : β}
    (h : entries.lookup key = some value) : (key, value) ∈ entries := by
  obtain ⟨before, after, rfl, -⟩ := List.lookup_eq_some_iff.mp h
  exact List.mem_append_right before List.mem_cons_self

/-- A key that does not occur may be appended. -/
theorem pushBack?_of_not_mem {α : Type} {entries : List (Nat × α)} {key : Nat}
    (h : key ∉ entries.map Prod.fst) (value : α) :
    pushBack? entries key value = some (entries ++ [(key, value)]) := by
  rw [pushBack?, if_neg (mt isSome_lookup_iff.mp h)]

/-- Where keys occur once, only the entry with the key is replaced. -/
theorem map_set_key {α : Type} {before after : List (Nat × α)} {key : Nat} {old : α}
    (h : ((before ++ (key, old) :: after).map Prod.fst).Nodup) (new : α) :
    ((before ++ (key, old) :: after).map fun entry => if entry.1 = key then (key, new) else entry) =
      before ++ (key, new) :: after := by
  rw [List.map_append, List.map_cons, List.nodup_append, List.nodup_cons] at h
  have hkeep : ∀ entries : List (Nat × α), (∀ entry ∈ entries, entry.1 ≠ key) →
      (entries.map fun entry => if entry.1 = key then (key, new) else entry) = entries := by
    intro entries hne
    conv_rhs => rw [← List.map_id entries]
    exact List.map_congr_left fun entry hentry => if_neg (hne entry hentry)
  rw [List.map_append, List.map_cons, if_pos rfl, hkeep before, hkeep after]
  · exact fun entry hentry heq => h.2.1.1 (List.mem_map.mpr ⟨entry, hentry, heq⟩)
  · exact fun entry hentry => h.2.2 _ (List.mem_map_of_mem hentry) key List.mem_cons_self

/-- Where keys are places, looking up a key is looking up a place. -/
theorem lookup_eq_getElem? {α : Type} {entries : List (Nat × α)} {n : Nat}
    (h : entries.map Prod.fst = List.range n) (key : Nat) :
    entries.lookup key = (entries.map Prod.snd)[key]? := by
  have hnodup : (entries.map Prod.fst).Nodup := h ▸ List.nodup_range
  -- the keys are counted from zero, so each entry stands at its key
  have hplace : ∀ (i k : Nat) (value : α), entries[i]? = some (k, value) → k = i := by
    intro i k value hi
    have hkey : (List.range n)[i]? = some k := by
      rw [← h, List.getElem?_map, hi, Option.map_some]
    obtain ⟨hlt, heq⟩ := List.getElem?_eq_some_iff.mp hkey
    rw [← heq, List.getElem_range]
  refine Option.ext fun value => ?_
  rw [lookup_eq_some_iff_of_nodup hnodup, List.getElem?_map, Option.map_eq_some_iff]
  constructor
  · intro hmem
    obtain ⟨i, hi⟩ := List.getElem?_of_mem hmem
    obtain rfl := hplace i key value hi
    exact ⟨_, hi, rfl⟩
  · rintro ⟨⟨k, v⟩, hentry, rfl⟩
    obtain rfl := hplace key k v hentry
    exact List.mem_of_getElem? hentry

/-- Behind a number in a row of numbers stands the next one, if the row goes on. -/
theorem head?_behind_range (b n : Nat) :
    (match (List.range n).dropWhile (· != b) with
      | [] => none
      | _ :: later => later.head?) = if b + 1 < n then some (b + 1) else none := by
  -- a number of the row splits it; of any other number nothing is left
  rcases Nat.lt_or_ge b n with hlt | hge
  · obtain ⟨k, rfl⟩ := Nat.exists_eq_add_of_lt hlt
    have hsplit : List.range (b + k + 1) = List.range b ++ b :: List.range' (b + 1) k := by
      have happend := @List.range'_append_1 0 b (k + 1)
      rw [Nat.zero_add, List.range'_succ] at happend
      rw [List.range_eq_range', List.range_eq_range', happend, Nat.add_assoc]
    have hdrop : (List.range (b + k + 1)).dropWhile (· != b) = b :: List.range' (b + 1) k := by
      rw [hsplit, List.dropWhile_append_of_pos fun c hc => by
        simpa using (List.mem_range.mp hc).ne]
      simp
    rw [hdrop]
    cases k with
    | zero => simp
    | succ k => simp [List.range'_succ]
  · have hall : ∀ c ∈ List.range n, (c != b) = true := fun c hc => by
      simpa using ((List.mem_range.mp hc).trans_le hge).ne
    rw [List.dropWhile_eq_nil_iff.mpr hall, if_neg (by omega)]

namespace Func

/-- The parts of a function agree. -/
structure Consistent (f : Func) : Prop where
  /-- Blocks are numbered from zero in layout order, up to the block counter. -/
  block_ids : f.layout.map Prod.fst = List.range f.nextBlock
  /-- Instructions have different numbers. -/
  nodup_ids : (f.insts.map Prod.fst).Nodup
  /-- The instruction counter is above all of them. -/
  ids_lt : ∀ id ∈ f.insts.map Prod.fst, id < f.nextInst
  /-- The block kept for an instruction is the block that has it. -/
  parents_iff : ∀ id b, f.parents.lookup id = some b ↔
    ∃ block, (b, block) ∈ f.layout ∧ id ∈ block.insts.map Prod.fst

/-- A function without blocks is consistent. -/
theorem consistent_empty (name : String) : Consistent { name } where
  block_ids := rfl
  nodup_ids := List.nodup_nil
  ids_lt := nofun
  parents_iff := by simp

/-- An instruction of a function is one of its blocks. -/
theorem mem_insts_iff {f : Func} {entry : InstId × Inst BlockId} :
    entry ∈ f.insts ↔ ∃ block ∈ f.blocks, entry ∈ block.insts := by
  rw [insts, List.mem_flatMap]

/-- The instructions of a function are those of the blocks in its layout. -/
theorem insts_eq_flatMap_layout (f : Func) :
    f.insts = f.layout.flatMap fun entry => entry.2.insts := by
  rw [insts, blocks, List.flatMap_map]

theorem mem_blocks_iff {f : Func} {block : Block} :
    block ∈ f.blocks ↔ ∃ b, (b, block) ∈ f.layout := by
  simp [blocks]

/-- A block that is found by number is one of the blocks. -/
theorem mem_blocks_of_block? {f : Func} {b : BlockId} {block : Block}
    (h : f.block? b = some block) : block ∈ f.blocks :=
  mem_blocks_iff.mpr ⟨b, mem_of_lookup_eq_some h⟩

/-- An instruction that is found by way of the block kept for it is one of the instructions. -/
theorem mem_insts_of_inst? {f : Func} {id : InstId} {inst : Inst BlockId}
    (h : f.inst? id = some inst) : (id, inst) ∈ f.insts := by
  obtain ⟨block, howner, hlook⟩ := Option.bind_eq_some_iff.mp h
  obtain ⟨b, -, hblock⟩ := Option.bind_eq_some_iff.mp howner
  exact mem_insts_iff.mpr ⟨block, mem_blocks_of_block? hblock, mem_of_lookup_eq_some hlook⟩

/-- A block of the layout has only instructions of the function. -/
theorem mem_ids_of_mem_layout {f : Func} {b : BlockId} {block : Block} {id : InstId}
    (hblock : (b, block) ∈ f.layout) (hid : id ∈ block.insts.map Prod.fst) :
    id ∈ f.insts.map Prod.fst := by
  obtain ⟨entry, hentry, rfl⟩ := List.mem_map.mp hid
  exact List.mem_map_of_mem
    (mem_insts_iff.mpr ⟨block, mem_blocks_iff.mpr ⟨b, hblock⟩, hentry⟩)

/-- Without the block a push only uses up a number. -/
theorem pushInst_of_block?_eq_none {f : Func} {b : BlockId} (h : f.block? b = none)
    (inst : Inst BlockId) : f.pushInst b inst = (none, { f with nextInst := f.nextInst + 1 }) := by
  have hlook : ({ f with nextInst := f.nextInst + 1 } : Func).block? b = none := h
  rw [pushInst, hlook]
  rfl

namespace Consistent

variable {f : Func} (hf : f.Consistent)

include hf

theorem nodup_block_ids : (f.layout.map Prod.fst).Nodup :=
  hf.block_ids ▸ List.nodup_range

/-- The block counter tells how many blocks there are. -/
theorem length_blocks : f.blocks.length = f.nextBlock := by
  have hlength := congrArg List.length hf.block_ids
  rwa [List.length_map, List.length_range, ← List.length_map Prod.snd] at hlength

/-- The numbers of the blocks, by how many there are. -/
theorem map_fst_layout : f.layout.map Prod.fst = List.range f.blocks.length := by
  rw [hf.length_blocks, hf.block_ids]

/-- The layout is given by the blocks: their numbers are their places. -/
theorem layout_eq_mapIdx : f.layout = f.blocks.mapIdx Prod.mk := by
  refine List.ext_getElem (by simp [blocks]) fun b hlt _ => ?_
  have hid : f.layout[b].1 = b := by
    have hget := List.getElem_of_eq hf.block_ids (i := b) (by simpa using hlt)
    rwa [List.getElem_map, List.getElem_range] at hget
  rw [List.getElem_mapIdx]
  exact Prod.ext hid (by simp [blocks])

/-- The block with a number. -/
theorem block?_eq_some_iff {b : BlockId} {block : Block} :
    f.block? b = some block ↔ (b, block) ∈ f.layout :=
  lookup_eq_some_iff_of_nodup hf.nodup_block_ids

/-- The number of a block is its place. -/
theorem block?_eq_getElem? (b : BlockId) : f.block? b = f.blocks[b]? :=
  lookup_eq_getElem? hf.block_ids b

/-- Every block can be looked up. -/
theorem exists_block?_of_mem {block : Block} (h : block ∈ f.blocks) :
    ∃ b, f.block? b = some block := by
  obtain ⟨b, hb⟩ := mem_blocks_iff.mp h
  exact ⟨b, hf.block?_eq_some_iff.mpr hb⟩

/-- Only the numbers below the block counter are numbers of blocks. -/
theorem isSome_block?_iff {b : BlockId} : (f.block? b).isSome = true ↔ b < f.blocks.length := by
  rw [block?, isSome_lookup_iff, hf.map_fst_layout, List.mem_range]

/-- A block is missing if its number has not been given out. -/
theorem block?_eq_none_iff {b : BlockId} : f.block? b = none ↔ f.blocks.length ≤ b := by
  rw [← Option.not_isSome_iff_eq_none, hf.isSome_block?_iff, Nat.not_lt]

/-- The block laid out next has the next number. -/
theorem layoutNext?_eq (b : BlockId) :
    f.layoutNext? b = if b + 1 < f.blocks.length then some (b + 1) else none := by
  have hkeys : f.layoutNext? b =
      match (f.layout.map Prod.fst).dropWhile (· != b) with
      | [] => none
      | _ :: later => later.head? := by
    have hcomp : ((· != b) ∘ Prod.fst : BlockId × Block → Bool) = fun entry => entry.1 != b := rfl
    rw [layoutNext?, List.dropWhile_map, hcomp]
    cases f.layout.dropWhile fun entry => entry.1 != b with
    | nil => rfl
    | cons entry later => simp
  rw [hkeys, hf.map_fst_layout]
  exact head?_behind_range b f.blocks.length

/-- The first block is numbered zero. -/
theorem entry?_eq : f.entry? = if f.blocks.isEmpty then none else some 0 := by
  have hkeys : f.entry? = (List.range f.blocks.length).head? := by
    rw [← hf.map_fst_layout, List.head?_map]
    rfl
  rw [hkeys]
  cases f.blocks with
  | nil => rfl
  | cons block rest => rw [List.length_cons, List.range_succ_eq_map]; rfl

/-! ## Steps -/

/-- A new block gets the number after the last one and stands at the end of the layout. -/
theorem newBlock_eq (label : String) :
    f.newBlock label = (f.nextBlock, { f with
      layout := f.layout ++ [(f.nextBlock, { label })]
      nextBlock := f.nextBlock + 1 }) := by
  have hfresh : f.nextBlock ∉ f.layout.map Prod.fst := by
    rw [hf.block_ids, List.mem_range]
    exact Nat.lt_irrefl _
  rw [newBlock, pushBack?_of_not_mem hfresh, Option.getD_some]

/-- A new block is empty and comes last, under the next number. -/
theorem addBlock_eq (label : String) :
    f.addBlock label = { f with
      layout := f.layout ++ [(f.nextBlock, { label })]
      nextBlock := f.nextBlock + 1 } := by
  rw [Func.addBlock, hf.newBlock_eq]

/-- A push to a block appends the instruction to it under the next number, and notes the block for
this number. -/
theorem pushInst_of_layout_eq {b : BlockId} {before after : List (BlockId × Block)} {block : Block}
    (hlayout : f.layout = before ++ (b, block) :: after) (inst : Inst BlockId) :
    f.pushInst b inst = (some f.nextInst, { f with
      layout := before ++ (b, { block with insts := block.insts ++ [(f.nextInst, inst)] }) :: after
      parents := (f.nextInst, b) :: f.parents
      nextInst := f.nextInst + 1 }) := by
  have hmem : (b, block) ∈ f.layout := hlayout ▸ List.mem_append_right before List.mem_cons_self
  -- the counter is above the numbers in the block, so the block takes the instruction
  have hfresh : f.nextInst ∉ block.insts.map Prod.fst := fun hid =>
    Nat.lt_irrefl _ (hf.ids_lt _ (mem_ids_of_mem_layout hmem hid))
  have hpush : block.push? f.nextInst inst =
      some { block with insts := block.insts ++ [(f.nextInst, inst)] } := by
    rw [Block.push?, pushBack?_of_not_mem hfresh, Option.map_some]
  have hlook : ({ f with nextInst := f.nextInst + 1 } : Func).block? b = some block :=
    hf.block?_eq_some_iff.mpr hmem
  have hset : ∀ new : Block,
      (f.layout.map fun entry => if entry.1 = b then (b, new) else entry) =
        before ++ (b, new) :: after := by
    intro new
    have hkeys := hf.nodup_block_ids
    rw [hlayout] at hkeys ⊢
    exact map_set_key hkeys new
  simp only [pushInst, hlook, Option.bind_some, hpush, setBlock, hset]

/-- A push goes to a block of the function, or only uses up a number. -/
theorem pushInst_cases (b : BlockId) (inst : Inst BlockId) :
    (f.block? b = none ∧ f.pushInst b inst = (none, { f with nextInst := f.nextInst + 1 })) ∨
      ∃ before block after, f.layout = before ++ (b, block) :: after ∧
        f.pushInst b inst = (some f.nextInst, { f with
          layout := before ++
            (b, { block with insts := block.insts ++ [(f.nextInst, inst)] }) :: after
          parents := (f.nextInst, b) :: f.parents
          nextInst := f.nextInst + 1 }) := by
  cases hb : f.block? b with
  | none => exact Or.inl ⟨rfl, pushInst_of_block?_eq_none hb inst⟩
  | some block =>
    obtain ⟨before, after, hlayout⟩ := List.append_of_mem (hf.block?_eq_some_iff.mp hb)
    exact Or.inr ⟨before, block, after, hlayout, hf.pushInst_of_layout_eq hlayout inst⟩

/-- The blocks beside a given one have other numbers. -/
theorem forall_mem_others {b : BlockId} {before after : List (BlockId × Block)} {block : Block}
    (hlayout : f.layout = before ++ (b, block) :: after) :
    ∀ entry ∈ before ++ after, entry ∈ f.layout ∧ b ≠ entry.1 := by
  have hkeys := hf.nodup_block_ids
  rw [hlayout, List.map_append, List.map_cons, List.nodup_middle, List.nodup_cons,
    ← List.map_append] at hkeys
  intro entry hentry
  refine ⟨?_, fun heq => hkeys.1 (List.mem_map.mpr ⟨entry, hentry, heq.symm⟩)⟩
  rw [hlayout, List.perm_middle.mem_iff]
  exact List.mem_cons_of_mem _ hentry

/-- Appending a block keeps the parts of a function in agreement. -/
theorem addBlock (label : String) : (f.addBlock label).Consistent := by
  rw [hf.addBlock_eq]
  have hinsts : ({ f with
      layout := f.layout ++ [(f.nextBlock, { label })]
      nextBlock := f.nextBlock + 1 } : Func).insts = f.insts := by
    simp [insts_eq_flatMap_layout]
  -- the new block is empty, so it owns nothing
  refine ⟨?_, hinsts ▸ hf.nodup_ids, hinsts ▸ hf.ids_lt, fun id b => ?_⟩
  · rw [List.map_append, hf.block_ids, List.range_succ]
    rfl
  · rw [hf.parents_iff]
    simp only [List.mem_append, List.mem_singleton, Prod.mk.injEq]
    constructor
    · rintro ⟨block, hblock, hid⟩
      exact ⟨block, Or.inl hblock, hid⟩
    · rintro ⟨block, hblock | ⟨-, rfl⟩, hid⟩
      · exact ⟨block, hblock, hid⟩
      · cases hid

/-- A push to a block puts the instruction, with the next number, somewhere between the others. -/
theorem insts_push {b : BlockId} {block : Block} (hb : f.block? b = some block)
    (inst : Inst BlockId) :
    ∃ before after, f.insts = before ++ after ∧
      (f.push b inst).insts = before ++ (f.nextInst, inst) :: after := by
  rcases hf.pushInst_cases b inst with ⟨hnone, -⟩ | ⟨before, owner, after, hlayout, hpush⟩
  · rw [hnone] at hb
    cases hb
  · refine ⟨(before.flatMap fun entry => entry.2.insts) ++ owner.insts,
      after.flatMap fun entry => entry.2.insts, ?_, ?_⟩
    · rw [insts_eq_flatMap_layout, hlayout]
      simp
    · rw [Func.push, hpush, insts_eq_flatMap_layout]
      simp

/-- The numbers in use after a push to a block are the next one and those before it. -/
theorem ids_push_perm {b : BlockId} {block : Block} (hb : f.block? b = some block)
    (inst : Inst BlockId) :
    ((f.push b inst).insts.map Prod.fst).Perm (f.nextInst :: f.insts.map Prod.fst) := by
  obtain ⟨before, after, hinsts, hinsts'⟩ := hf.insts_push hb inst
  rw [hinsts', hinsts, List.map_append, List.map_append, List.map_cons]
  exact List.perm_middle

omit hf in
/-- After a push the blocks own what they owned before it, and its block the new number. -/
private theorem exists_owner_push_iff {before after : List (BlockId × Block)} {b c : BlockId}
    {block : Block} {id n : InstId} {inst : Inst BlockId} :
    (∃ owner, (c, owner) ∈
        before ++ (b, { block with insts := block.insts ++ [(n, inst)] }) :: after ∧
        id ∈ owner.insts.map Prod.fst) ↔
      (∃ owner, (c, owner) ∈ before ++ (b, block) :: after ∧ id ∈ owner.insts.map Prod.fst) ∨
        c = b ∧ id = n := by
  simp only [List.mem_append, List.mem_cons, Prod.mk.injEq, or_and_right, exists_or, and_assoc,
    exists_and_left, exists_eq_left, List.map_append, List.map_singleton, List.not_mem_nil,
    or_false, and_or_left, or_assoc]
  rw [or_comm (b := c = b ∧ id = n)]

/-- The number and the block of a push are noted together, so the notes still say which block owns
which instruction. -/
theorem lookup_parents_push_iff {before after : List (BlockId × Block)} {b c : BlockId}
    {block : Block} (hlayout : f.layout = before ++ (b, block) :: after) {id : InstId}
    {inst : Inst BlockId} :
    ((f.nextInst, b) :: f.parents).lookup id = some c ↔
      ∃ owner, (c, owner) ∈
        before ++ (b, { block with insts := block.insts ++ [(f.nextInst, inst)] }) :: after ∧
        id ∈ owner.insts.map Prod.fst := by
  have hold := hf.parents_iff id c
  rw [hlayout] at hold
  rw [exists_owner_push_iff, ← hold, List.lookup_cons]
  by_cases hid : id = f.nextInst
  · -- no block has had the new number, so nothing has been noted for it
    have hnone : f.parents.lookup id ≠ some c := by
      intro hsome
      obtain ⟨owner, howner, hin⟩ := (hf.parents_iff id c).mp hsome
      exact absurd (hf.ids_lt id (mem_ids_of_mem_layout howner hin)) (hid ▸ Nat.lt_irrefl _)
    simp [hid, hid ▸ hnone, eq_comm]
  · have hbeq : (id == f.nextInst) = false := by simpa using hid
    simp [hbeq, hid]

/-- A push keeps the parts of a function in agreement, whether the block exists or not. -/
theorem push (b : BlockId) (inst : Inst BlockId) : (f.push b inst).Consistent := by
  have hlt : ∀ id ∈ f.insts.map Prod.fst, id < f.nextInst + 1 := fun id hid =>
    Nat.lt_succ_of_lt (hf.ids_lt id hid)
  rcases hf.pushInst_cases b inst with ⟨-, hpush⟩ | ⟨before, block, after, hlayout, hpush⟩
  · -- a push to no block uses up a number and does nothing else
    rw [Func.push, hpush]
    exact ⟨hf.block_ids, hf.nodup_ids, hlt, hf.parents_iff⟩
  · have hb : f.block? b = some block :=
      hf.block?_eq_some_iff.mpr (hlayout ▸ List.mem_append_right before List.mem_cons_self)
    have hids := hf.ids_push_perm hb inst
    have hfresh : f.nextInst ∉ f.insts.map Prod.fst := fun h => Nat.lt_irrefl _ (hf.ids_lt _ h)
    refine ⟨?block_ids, ?nodup_ids, fun id hid => ?ids_lt, fun id c => ?parents_iff⟩
    case block_ids =>
      rw [Func.push, hpush]
      simpa [hlayout] using hf.block_ids
    case nodup_ids => exact hids.nodup_iff.mpr (List.nodup_cons.mpr ⟨hfresh, hf.nodup_ids⟩)
    case ids_lt =>
      rw [Func.push, hpush]
      rcases List.mem_cons.mp (hids.mem_iff.mp hid) with rfl | hid
      · exact Nat.lt_succ_self _
      · exact hlt id hid
    case parents_iff =>
      rw [Func.push, hpush]
      exact hf.lookup_parents_push_iff hlayout

end Consistent

end Func

end Rejoin
