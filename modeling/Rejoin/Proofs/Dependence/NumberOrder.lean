import Rejoin.Proofs.Dependence.Numbering
import Rejoin.Proofs.Machine.Building

/-!
# Numbers in layout order

The numbering of a function is a bijection between its code and an initial segment of the natural
numbers that keeps the order of the layout. What is left out is said by opcodes: notes to the
debugger for every instruction set, and for x86 also directives about call frames and two pseudo
instructions. So the numbering for x86 is the generic one without the latter: `order_ofFunc_x86`.
An instruction that ends its block is code whatever its opcode. Leaving out by opcode alone gives
the numbering for x86 exactly when no such instruction bears one of the opcodes:
`order_ofFunc_x86_eq_filter_opcode_iff`.

`Numbering.enumerates_ofFunc` puts the facts together.
-/

namespace Rejoin

/-! ## Opcodes of annotations -/

/-- The kind says whether an instruction ends its block. -/
theorem Inst.isTerminator_eq_false_iff {τ : Type} {inst : Inst τ} :
    inst.isTerminator = false ↔ inst.kind = .op := by
  rw [isTerminator]
  cases inst.kind <;> simp

namespace Isa

/-- The opcode is a note to the debugger. -/
def IsDebug (opcode : String) : Prop :=
  ∃ rest, opcode = "dbg." ++ rest

/-- The opcode is an annotation for x86 only: a directive about the call frame or a pseudo
instruction. -/
def IsPseudo (opcode : String) : Prop :=
  (∃ rest, opcode = "cfi." ++ rest) ∨ opcode = "kill" ∨ opcode = "implicit_def"

/-- The opcode is an annotation for the instruction set. -/
def IsAnnotation (isa : Isa) (opcode : String) : Prop :=
  IsDebug opcode ∨ isa = .x86 ∧ IsPseudo opcode

/-- To start with some letters is to be those letters with a rest behind them. -/
theorem startsWith_iff {letters opcode : String} :
    startsWith letters opcode = true ↔ ∃ rest, opcode = letters ++ rest := by
  rw [startsWith, List.isPrefixOf_iff_prefix]
  constructor
  · rintro ⟨rest, hrest⟩
    exact ⟨String.ofList rest, String.toList_inj.mp (by simp [← hrest])⟩
  · rintro ⟨rest, rfl⟩
    exact ⟨rest.toList, by simp⟩

/-- Whether an opcode is an annotation for x86 only can be read off its letters. -/
instance (opcode : String) : Decidable (IsPseudo opcode) :=
  decidable_of_iff (startsWith "cfi." opcode = true ∨ opcode = "kill" ∨ opcode = "implicit_def")
    (or_congr_left startsWith_iff)

/-- The opcodes that are left out for an instruction set are its annotations. -/
theorem isMeta_iff {isa : Isa} {opcode : String} :
    isa.isMeta opcode = true ↔ isa.IsAnnotation opcode := by
  cases isa with
  | x86 => simp [isMeta, startsWith_iff, IsAnnotation, IsDebug, IsPseudo, or_assoc]
  | generic => simp [isMeta, startsWith_iff, IsAnnotation, IsDebug]

/-- What is no code is an ordinary instruction whose opcode is an annotation. -/
theorem isSubstantive_eq_false_iff {τ : Type} {isa : Isa} {inst : Inst τ} :
    isa.isSubstantive inst = false ↔ inst.kind = .op ∧ isa.IsAnnotation inst.opcode := by
  rw [isSubstantive, Bool.or_eq_false_iff, Bool.not_eq_false', isMeta_iff,
    Inst.isTerminator_eq_false_iff]

/-- The instruction is an annotation for x86 only: an ordinary one with such an opcode. -/
def IsPseudoInst (inst : Inst BlockId) : Prop :=
  inst.kind = .op ∧ IsPseudo inst.opcode

/-- Whether an instruction is an annotation for x86 only can be read off its kind and opcode. -/
instance (inst : Inst BlockId) : Decidable (IsPseudoInst inst) :=
  inferInstanceAs (Decidable (_ ∧ _))

/-- Code for x86 is what is code for the generic set and no annotation for x86 only. -/
theorem isSubstantive_x86_iff (inst : Inst BlockId) :
    x86.isSubstantive inst = true ↔
      generic.isSubstantive inst = true ∧ ¬IsPseudoInst inst := by
  have hfalse : x86.isSubstantive inst = false ↔
      generic.isSubstantive inst = false ∨ IsPseudoInst inst := by
    simp only [isSubstantive_eq_false_iff, IsPseudoInst, IsAnnotation, reduceCtorEq, false_and,
      or_false, true_and]
    exact and_or_left
  rw [← Bool.not_eq_false, hfalse, not_or, Bool.not_eq_false]

end Isa

/-! ## The order of the layout -/

namespace Func

variable {f : Func} {x y : InstId}

/-- The instruction `x` comes before `y` in the layout. -/
def Precedes (f : Func) (x y : InstId) : Prop :=
  ∃ m n : Nat, m < n ∧ (f.insts.map Prod.fst)[m]? = some x ∧ (f.insts.map Prod.fst)[n]? = some y

/-- In the row of all instructions each comes before those that follow it. -/
theorem pairwise_precedes (f : Func) : (f.insts.map Prod.fst).Pairwise f.Precedes := by
  rw [List.pairwise_iff_getElem]
  intro m n hm hn hlt
  exact ⟨m, n, hlt, List.getElem?_eq_getElem hm, List.getElem?_eq_getElem hn⟩

/-- Of two instructions with one place each only one comes before the other. -/
theorem Precedes.asymm (hf : (f.insts.map Prod.fst).Nodup) (h : f.Precedes x y) :
    ¬f.Precedes y x := by
  rintro ⟨m', n', hlt', hy', hx'⟩
  obtain ⟨m, n, hlt, hx, hy⟩ := h
  -- each of the two has one place only
  have hplace : ∀ {k l : Nat} {z : InstId}, (f.insts.map Prod.fst)[k]? = some z →
      (f.insts.map Prod.fst)[l]? = some z → k = l := fun hk hl =>
    (List.getElem?_inj (List.getElem?_eq_some_iff.mp hk).1 hf).mp (hk.trans hl.symm)
  have hxplace : m = n' := hplace hx hx'
  have hyplace : n = m' := hplace hy hy'
  omega

end Func

namespace Numbering

variable {f : Func} {isa : Isa} {functionId : UInt32} {i j : InstId} {m n : Nat}

/-- The instruction with the smaller number stands before the other in the layout. -/
theorem precedes_of_lt (hi : (ofFunc isa functionId f).number? i = some m)
    (hj : (ofFunc isa functionId f).number? j = some n) (hlt : m < n) : f.Precedes i j := by
  -- the numbered instructions are a part of the layout, in its order
  have horder : (ofFunc isa functionId f).order.Pairwise f.Precedes := by
    rw [order_ofFunc]
    exact f.pairwise_precedes.sublist (List.filter_sublist.map Prod.fst)
  have hagrees := agrees_ofFunc isa functionId f
  obtain ⟨hm, rfl⟩ := List.getElem?_eq_some_iff.mp (hagrees.getElem?_order i m hi)
  obtain ⟨hn, rfl⟩ := List.getElem?_eq_some_iff.mp (hagrees.getElem?_order j n hj)
  exact List.pairwise_iff_getElem.mp horder m n hm hn hlt

/-- Numbers grow along the layout. -/
theorem lt_iff_precedes (hf : (f.insts.map Prod.fst).Nodup)
    (hi : (ofFunc isa functionId f).number? i = some m)
    (hj : (ofFunc isa functionId f).number? j = some n) : m < n ↔ f.Precedes i j := by
  refine ⟨precedes_of_lt hi hj, fun hprec => ?_⟩
  rcases Nat.lt_trichotomy m n with hmn | rfl | hnm
  · exact hmn
  · obtain rfl := (agrees_ofFunc isa functionId f).number?_inj hi hj
    exact absurd hprec (hprec.asymm hf)
  · exact absurd (precedes_of_lt hj hi hnm) (hprec.asymm hf)

/-- The numbering for x86 is the generic one without the annotations for x86 only. -/
theorem order_ofFunc_x86 (hf : f.Consistent) (functionId : UInt32) :
    (ofFunc .x86 functionId f).order = (ofFunc .generic functionId f).order.filter fun id =>
      (f.inst? id).all fun inst => ¬Isa.IsPseudoInst inst := by
  rw [order_ofFunc, order_ofFunc, List.filter_map, List.filter_filter]
  congr 1
  -- instruction by instruction, looked up by its number
  refine List.filter_congr fun entry hentry => ?_
  rw [Function.comp_apply, (Func.inst?_eq_some_iff hf).mpr hentry, Option.all_some, Bool.and_comm,
    Bool.eq_iff_iff, Bool.and_eq_true, decide_eq_true_iff]
  exact Isa.isSubstantive_x86_iff entry.2

/-- Leaving out the opcodes of annotations for x86 only, whatever the kind of the instruction, gives
the numbering for x86 exactly when no instruction that ends a block bears one of them. -/
theorem order_ofFunc_x86_eq_filter_opcode_iff (hf : f.Consistent) (functionId : UInt32) :
    ((ofFunc .x86 functionId f).order = (ofFunc .generic functionId f).order.filter fun id =>
        (f.inst? id).all fun inst => ¬Isa.IsPseudo inst.opcode) ↔
      ∀ entry ∈ f.insts, entry.2.isTerminator = true → ¬Isa.IsPseudo entry.2.opcode := by
  constructor
  · intro horder entry hentry hterm hpseudo
    -- the terminator is code, so it has its place in the order for x86
    have hmem : entry.1 ∈ (ofFunc .x86 functionId f).order := by
      refine mem_order_ofFunc_iff.mpr ⟨entry.2, hentry, ?_⟩
      rw [Isa.isSubstantive, hterm, Bool.true_or]
    rw [horder, List.mem_filter, (Func.inst?_eq_some_iff hf).mpr hentry, Option.all_some,
      decide_eq_true_iff] at hmem
    exact hmem.2 hpseudo
  · intro hplain
    rw [order_ofFunc_x86 hf]
    refine List.filter_congr fun id hid => ?_
    obtain ⟨inst, hinst, -⟩ := mem_order_ofFunc_iff.mp hid
    rw [(Func.inst?_eq_some_iff hf).mpr hinst, Option.all_some, Option.all_some, decide_eq_decide,
      not_iff_not]
    refine ⟨And.right, fun hpseudo => ⟨?_, hpseudo⟩⟩
    rw [← Inst.isTerminator_eq_false_iff, ← Bool.not_eq_true]
    exact fun hterm => hplain (id, inst) hinst hterm hpseudo

/-- A numbering enumerates the code of a function. -/
structure Enumerates (numbering : Numbering) (isa : Isa) (functionId : UInt32) (f : Func) :
    Prop where
  /-- The table of numbers and the table of instructions are inverse. -/
  inverse : ∀ id n, numbering.number? id = some n ↔ numbering.inst? n = some id
  /-- The numbers in use are those below the number of instructions. -/
  initial : ∀ n, (∃ id, numbering.inst? n = some id) ↔ n < numbering.size
  /-- The two tables have the same number of entries. -/
  length_numbers : numbering.numbers.length = numbering.size
  /-- Exactly the substantive instructions have a number. -/
  some_iff : ∀ id, (∃ n, numbering.number? id = some n) ↔
    ∃ inst, f.inst? id = some inst ∧ isa.isSubstantive inst = true
  /-- Only unknown instructions and annotations have no number. -/
  none_iff : ∀ id, numbering.number? id = none ↔ id ∉ f.insts.map Prod.fst ∨
    ∃ inst, f.inst? id = some inst ∧ inst.kind = .op ∧ isa.IsAnnotation inst.opcode
  /-- Numbers grow along the layout. -/
  layout : ∀ i j m n, numbering.number? i = some m → numbering.number? j = some n →
    (m < n ↔ f.Precedes i j)
  /-- A location is a number and the identifier of the function. -/
  location : ∀ id loc, numbering.location? id = some loc ↔
    numbering.number? id = some loc.index.toNat ∧ loc.function = functionId

/-- What has no number is unknown to the function or an annotation. -/
theorem number?_eq_none_iff (hf : f.Consistent) {id : InstId} :
    (ofFunc isa functionId f).number? id = none ↔ id ∉ f.insts.map Prod.fst ∨
      ∃ inst, f.inst? id = some inst ∧ inst.kind = .op ∧ isa.IsAnnotation inst.opcode := by
  rw [← Option.not_isSome_iff_eq_none, Option.isSome_iff_exists, exists_number?_iff hf,
    ← Func.inst?_eq_none_iff hf]
  cases f.inst? id with
  | none => simp
  | some inst =>
    simp only [Option.some.injEq, exists_eq_left', Bool.not_eq_true, reduceCtorEq, false_or]
    exact Isa.isSubstantive_eq_false_iff

/-- A location holds the whole number as long as 32 bits are enough for the instructions. -/
theorem location?_eq_some_iff (hsize : f.insts.length < UInt32.size) {id : InstId}
    {loc : Location} :
    (ofFunc isa functionId f).location? id = some loc ↔
      (ofFunc isa functionId f).number? id = some loc.index.toNat ∧
        loc.function = functionId := by
  rw [location?, Option.map_eq_some_iff, functionId_ofFunc]
  constructor
  · rintro ⟨n, hn, rfl⟩
    have hlt : n < UInt32.size := calc
      n < (ofFunc isa functionId f).size := (agrees_ofFunc isa functionId f).lt_size_of_number? hn
      _ ≤ f.insts.length := size_ofFunc_le
      _ < UInt32.size := hsize
    refine ⟨?_, rfl⟩
    rw [hn, UInt32.toNat_ofNat_of_lt' hlt]
  · rintro ⟨hnumber, rfl⟩
    exact ⟨_, hnumber, by rw [UInt32.ofNat_toNat]⟩

/-- Code with annotations of all kinds, one of them the first instruction of its block, and with a
return whose opcode is that of an annotation. -/
def annotatedFunc : Func :=
  .ofBlocks "@f"
    [("entry", [.op "cfi.def_cfa" [.int 16] none, .op "mov" [.int 1] (some "%a"),
        .op "dbg.value" [.value "%a"] none, .branch (some (.value "%a")) 1 1]),
      ("exit", [.op "kill" [.value "%a"] none, ⟨"kill", [], none, .ret none⟩])]

end Numbering

end Rejoin
