import Rejoin.Proofs.Machine.Consistent

/-!
# Finding instructions

How the lookups of a consistent function relate to its blocks:

* `Func.inst?_eq_some_iff` — the instruction with a number;
* `Func.parent?_eq_some_iff` — the block that owns an instruction;
* `Func.next?_eq_some_iff` and `Func.prev?_eq_some_iff` — the nearest instruction after or before
  another that satisfies a predicate, in terms of `Func.Adjacent`.
-/

namespace Rejoin

/-! ## The nearest entry after another -/

/-- In a row of numbered instructions, `y` stands after `x`, and nothing between them satisfies
`p`. -/
def AdjacentIn (p : Inst BlockId → Bool) (insts : List (InstId × Inst BlockId)) (x y : InstId) :
    Prop :=
  ∃ before between after instX instY,
    insts = before ++ (x, instX) :: between ++ (y, instY) :: after ∧
      ∀ entry ∈ between, p entry.2 = false

/-- Read backwards, a row has the same neighbours the other way round. -/
theorem adjacentIn_reverse {p : Inst BlockId → Bool} {insts : List (InstId × Inst BlockId)}
    {x y : InstId} : AdjacentIn p insts.reverse x y ↔ AdjacentIn p insts y x := by
  constructor
  · rintro ⟨before, between, after, instX, instY, h, hnone⟩
    refine ⟨after.reverse, between.reverse, before.reverse, instY, instX, ?_, ?_⟩
    · simpa using congrArg List.reverse h
    · simpa using hnone
  · rintro ⟨before, between, after, instY, instX, rfl, hnone⟩
    refine ⟨after.reverse, between.reverse, before.reverse, instX, instY, ?_, ?_⟩
    · simp
    · simpa using hnone

/-- Adjacency looks only at numbers and at where the predicate holds. -/
theorem AdjacentIn.of_map_eq {p : Inst BlockId → Bool} {insts insts' : List (InstId × Inst BlockId)}
    {x y : InstId} (h : AdjacentIn p insts x y)
    (heq : (insts'.map fun entry => (entry.1, p entry.2)) =
      insts.map fun entry => (entry.1, p entry.2)) : AdjacentIn p insts' x y := by
  obtain ⟨before, between, after, instX, instY, rfl, hnone⟩ := h
  rw [List.append_assoc, List.cons_append, List.map_append, List.map_cons, List.map_append,
    List.map_cons, List.map_eq_append_iff] at heq
  -- the other row is cut at the same places
  obtain ⟨before', rest, rfl, -, hrest⟩ := heq
  obtain ⟨⟨x', instX'⟩, rest', rfl, hx, hrest⟩ := List.map_eq_cons_iff.mp hrest
  obtain ⟨between', last, rfl, hbetween, hlast⟩ := List.map_eq_append_iff.mp hrest
  obtain ⟨⟨y', instY'⟩, after', rfl, hy, -⟩ := List.map_eq_cons_iff.mp hlast
  obtain rfl : x' = x := congrArg Prod.fst hx
  obtain rfl : y' = y := congrArg Prod.fst hy
  refine ⟨before', between', after', instX', instY', by simp, fun entry hentry => ?_⟩
  have hmem : (entry.1, p entry.2) ∈ between.map fun entry => (entry.1, p entry.2) := by
    rw [← hbetween]
    exact List.mem_map_of_mem hentry
  obtain ⟨other, hother, hsame⟩ := List.mem_map.mp hmem
  rw [← hnone other hother]
  exact (congrArg Prod.snd hsame).symm

/-- After an entry whose number does not occur before it, the search starts with the next one. -/
theorem findAfter_append_cons {p : Inst BlockId → Bool} {x : InstId} {instX : Inst BlockId}
    {before after : List (InstId × Inst BlockId)} (hx : x ∉ before.map Prod.fst) :
    findAfter x p (before ++ (x, instX) :: after) =
      (after.find? fun entry => p entry.2).map Prod.fst := by
  have hdrop : (before ++ (x, instX) :: after).dropWhile (·.1 != x) = (x, instX) :: after := by
    rw [List.dropWhile_append_of_pos]
    · simp
    · intro entry hentry
      have hne : entry.1 ≠ x := fun heq => hx (heq ▸ List.mem_map_of_mem hentry)
      simpa using hne
  rw [findAfter, hdrop]

/-- Behind an instruction that is not there nothing is found. -/
theorem findAfter_of_not_mem {p : Inst BlockId → Bool} {x : InstId}
    {insts : List (InstId × Inst BlockId)} (hx : x ∉ insts.map Prod.fst) :
    findAfter x p insts = none := by
  have hdrop : insts.dropWhile (·.1 != x) = [] := by
    rw [List.dropWhile_eq_nil_iff]
    intro entry hentry
    have hne : entry.1 ≠ x := fun heq => hx (heq ▸ List.mem_map_of_mem hentry)
    simpa using hne
  rw [findAfter, hdrop]

/-- Where numbers differ, an instruction does not stand before itself. -/
theorem not_mem_of_nodup_append {x : InstId} {instX : Inst BlockId}
    {before after : List (InstId × Inst BlockId)}
    (h : ((before ++ (x, instX) :: after).map Prod.fst).Nodup) : x ∉ before.map Prod.fst := by
  rw [List.map_append, List.nodup_append] at h
  exact fun hx => h.2.2 x hx x (by simp) rfl

/-- The first entry after another that satisfies a predicate, where numbers occur once. -/
theorem findAfter_eq_some_iff {p : Inst BlockId → Bool} {insts : List (InstId × Inst BlockId)}
    (hnodup : (insts.map Prod.fst).Nodup) {x y : InstId} :
    findAfter x p insts = some y ↔
      AdjacentIn p insts x y ∧ ∃ instY, (y, instY) ∈ insts ∧ p instY = true := by
  constructor
  · intro h
    have hx : x ∈ insts.map Prod.fst := by
      by_contra hx
      rw [findAfter_of_not_mem hx] at h
      cases h
    obtain ⟨⟨z, instX⟩, hmem, hz⟩ := List.mem_map.mp hx
    obtain rfl : z = x := hz
    obtain ⟨before, after, rfl⟩ := List.append_of_mem hmem
    have hbefore := not_mem_of_nodup_append hnodup
    rw [findAfter_append_cons hbefore, Option.map_eq_some_iff] at h
    obtain ⟨⟨_, instY⟩, hfind, rfl⟩ := h
    obtain ⟨hp, between, rest, rfl, hnone⟩ := List.find?_eq_some_iff_append.mp hfind
    exact ⟨⟨before, between, rest, instX, instY, by simp, by simpa using hnone⟩,
      instY, by simp, hp⟩
  · rintro ⟨⟨before, between, after, instX, instY, rfl, hnone⟩, inst, hmem, hp⟩
    -- numbers occur once, so the entry of `y` that satisfies `p` is the one that stands there
    obtain rfl : instY = inst := by
      have hy := (lookup_eq_some_iff_of_nodup hnodup).mpr hmem
      have hy' := (lookup_eq_some_iff_of_nodup hnodup).mpr
        (show (y, instY) ∈ before ++ (x, instX) :: between ++ (y, instY) :: after by simp)
      rw [hy] at hy'
      exact (Option.some.inj hy').symm
    rw [List.append_assoc, List.cons_append] at hnodup ⊢
    have hbefore := not_mem_of_nodup_append hnodup
    have hfind : ((between ++ (y, instY) :: after).find? fun entry => p entry.2) =
        some (y, instY) := by
      rw [List.find?_eq_some_iff_append]
      exact ⟨hp, between, after, rfl, by simpa using hnone⟩
    rw [findAfter_append_cons hbefore, hfind, Option.map_some]

namespace Func

variable {f : Func} {p : Inst BlockId → Bool} {x y : InstId} {b : BlockId}

/-- In one block of the function, `y` stands after `x`, and nothing between them satisfies `p`. -/
def Adjacent (f : Func) (p : Inst BlockId → Bool) (x y : InstId) : Prop :=
  ∃ block ∈ f.blocks, AdjacentIn p block.insts x y

section Consistent

variable (hf : f.Consistent)

include hf

/-- The block that an instruction was pushed to is the block that has it. -/
theorem parent?_eq_some_iff :
    f.parent? x = some b ↔ ∃ block, f.block? b = some block ∧ x ∈ block.insts.map Prod.fst := by
  simp only [hf.block?_eq_some_iff]
  exact hf.parents_iff x b

/-- The numbers listed for a block, if it exists, are those of the instructions it owns. -/
theorem mem_ids_of_block?_iff :
    x ∈ ((f.block? b).map fun block => block.insts.map Prod.fst).getD [] ↔
      f.parent? x = some b := by
  rw [parent?_eq_some_iff hf]
  cases f.block? b with
  | none => simp
  | some block => simp

/-- A number that no instruction has belongs to no block. -/
theorem parent?_eq_none_iff : f.parent? x = none ↔ x ∉ f.insts.map Prod.fst := by
  rw [Option.eq_none_iff_forall_not_mem]
  constructor
  · intro hnone hx
    obtain ⟨⟨_, inst⟩, hmem, rfl⟩ := List.mem_map.mp hx
    obtain ⟨block, hblock, hentry⟩ := mem_insts_iff.mp hmem
    obtain ⟨b, hb⟩ := hf.exists_block?_of_mem hblock
    exact hnone b ((parent?_eq_some_iff hf).mpr ⟨block, hb, List.mem_map_of_mem hentry⟩)
  · intro hx b hparent
    obtain ⟨block, hblock, hid⟩ := (parent?_eq_some_iff hf).mp hparent
    exact hx (mem_ids_of_mem_layout (hf.block?_eq_some_iff.mp hblock) hid)

/-- A block numbers no two of its instructions alike. -/
theorem nodup_ids_of_mem {block : Block} (hblock : block ∈ f.blocks) :
    (block.insts.map Prod.fst).Nodup := by
  have hnodup := hf.nodup_ids
  rw [insts, List.map_flatMap] at hnodup
  exact (List.nodup_flatMap.mp hnodup).1 block hblock

/-- The block that owns an instruction. -/
theorem owner?_eq_some_iff {block : Block} :
    f.owner? x = some block ↔ block ∈ f.blocks ∧ x ∈ block.insts.map Prod.fst := by
  rw [owner?, Option.bind_eq_some_iff]
  constructor
  · rintro ⟨b, hparent, hblock⟩
    obtain ⟨owner, howner, hx⟩ := (parent?_eq_some_iff hf).mp hparent
    obtain rfl : owner = block := Option.some.inj (howner.symm.trans hblock)
    exact ⟨mem_blocks_of_block? hblock, hx⟩
  · rintro ⟨hblock, hx⟩
    obtain ⟨b, hb⟩ := hf.exists_block?_of_mem hblock
    exact ⟨b, (parent?_eq_some_iff hf).mpr ⟨_, hb, hx⟩, hb⟩

/-- The instruction with a number. The block kept for the number has it. -/
theorem inst?_eq_some_iff {inst : Inst BlockId} : f.inst? x = some inst ↔ (x, inst) ∈ f.insts := by
  rw [inst?, Option.bind_eq_some_iff, mem_insts_iff]
  refine exists_congr fun block => ?_
  rw [owner?_eq_some_iff hf, and_assoc]
  refine and_congr_right fun hblock => ?_
  rw [Block.inst?, lookup_eq_some_iff_of_nodup (nodup_ids_of_mem hf hblock)]
  exact ⟨And.right, fun hmem => ⟨List.mem_map_of_mem hmem, hmem⟩⟩

/-- Exactly the unknown instructions are not found. -/
theorem inst?_eq_none_iff : f.inst? x = none ↔ x ∉ f.insts.map Prod.fst := by
  rw [Option.eq_none_iff_forall_not_mem, List.mem_map]
  constructor
  · rintro hnone ⟨⟨_, inst⟩, hmem, rfl⟩
    exact hnone inst ((inst?_eq_some_iff hf).mpr hmem)
  · exact fun hx inst hinst => hx ⟨_, (inst?_eq_some_iff hf).mp hinst, rfl⟩

/-- Looking an instruction up by way of its block finds what a search of all instructions finds. -/
theorem inst?_eq_lookup (x : InstId) : f.inst? x = f.insts.lookup x := by
  refine Option.ext fun inst => ?_
  rw [inst?_eq_some_iff hf, lookup_eq_some_iff_of_nodup hf.nodup_ids]

/-- Whether an instruction has a property may be asked of its block or of the function. -/
private theorem exists_inst_iff {block : Block} (hblock : block ∈ f.blocks)
    (hy : y ∈ block.insts.map Prod.fst) :
    (∃ inst, (y, inst) ∈ block.insts ∧ p inst = true) ↔
      ∃ inst, f.inst? y = some inst ∧ p inst = true := by
  simp only [inst?_eq_some_iff hf]
  constructor
  · rintro ⟨inst, hmem, hp⟩
    exact ⟨inst, mem_insts_iff.mpr ⟨block, hblock, hmem⟩, hp⟩
  · rintro ⟨inst, hmem, hp⟩
    obtain ⟨⟨z, other⟩, hother, hz⟩ := List.mem_map.mp hy
    obtain rfl : z = y := hz
    have hlook := (inst?_eq_some_iff hf).mpr hmem
    rw [(inst?_eq_some_iff hf).mpr (mem_insts_iff.mpr ⟨block, hblock, hother⟩)] at hlook
    obtain rfl := Option.some.inj hlook
    exact ⟨other, hother, hp⟩

/-- The first instruction after `x` in its block that satisfies `p`. -/
theorem next?_eq_some_iff :
    f.next? x p = some y ↔ f.Adjacent p x y ∧ ∃ inst, f.inst? y = some inst ∧ p inst = true := by
  rw [next?, Option.bind_eq_some_iff]
  constructor
  · rintro ⟨block, howner, hnext⟩
    obtain ⟨hblock, hx⟩ := (owner?_eq_some_iff hf).mp howner
    obtain ⟨hadj, inst, hmem, hp⟩ := (findAfter_eq_some_iff (nodup_ids_of_mem hf hblock)).mp hnext
    have hy : y ∈ block.insts.map Prod.fst := List.mem_map.mpr ⟨_, hmem, rfl⟩
    exact ⟨⟨block, hblock, hadj⟩, (exists_inst_iff hf hblock hy).mp ⟨inst, hmem, hp⟩⟩
  · rintro ⟨⟨block, hblock, hadj⟩, hinst⟩
    have hmem : x ∈ block.insts.map Prod.fst ∧ y ∈ block.insts.map Prod.fst := by
      obtain ⟨before, between, after, instX, instY, heq, -⟩ := hadj
      simp [heq]
    refine ⟨block, (owner?_eq_some_iff hf).mpr ⟨hblock, hmem.1⟩, ?_⟩
    exact (findAfter_eq_some_iff (nodup_ids_of_mem hf hblock)).mpr
      ⟨hadj, (exists_inst_iff hf hblock hmem.2).mpr hinst⟩

/-- The last instruction before `y` in its block that satisfies `p`. -/
theorem prev?_eq_some_iff :
    f.prev? y p = some x ↔ f.Adjacent p x y ∧ ∃ inst, f.inst? x = some inst ∧ p inst = true := by
  rw [prev?, Option.bind_eq_some_iff]
  -- looking back is looking forward in the reversed block
  have hreverse : ∀ block ∈ f.blocks, (block.insts.reverse.map Prod.fst).Nodup := by
    intro block hblock
    rw [List.map_reverse, List.nodup_reverse]
    exact nodup_ids_of_mem hf hblock
  constructor
  · rintro ⟨block, howner, hprev⟩
    obtain ⟨hblock, -⟩ := (owner?_eq_some_iff hf).mp howner
    obtain ⟨hadj, inst, hmem, hp⟩ := (findAfter_eq_some_iff (hreverse block hblock)).mp hprev
    rw [List.mem_reverse] at hmem
    have hx : x ∈ block.insts.map Prod.fst := List.mem_map.mpr ⟨_, hmem, rfl⟩
    exact ⟨⟨block, hblock, adjacentIn_reverse.mp hadj⟩,
      (exists_inst_iff hf hblock hx).mp ⟨inst, hmem, hp⟩⟩
  · rintro ⟨⟨block, hblock, hadj⟩, hinst⟩
    have hmem : x ∈ block.insts.map Prod.fst ∧ y ∈ block.insts.map Prod.fst := by
      obtain ⟨before, between, after, instX, instY, heq, -⟩ := hadj
      simp [heq]
    obtain ⟨inst, hinst, hp⟩ := (exists_inst_iff hf hblock hmem.1).mpr hinst
    refine ⟨block, (owner?_eq_some_iff hf).mpr ⟨hblock, hmem.2⟩, ?_⟩
    exact (findAfter_eq_some_iff (hreverse block hblock)).mpr
      ⟨adjacentIn_reverse.mpr hadj, inst, List.mem_reverse.mpr hinst, hp⟩

end Consistent

end Func

end Rejoin
