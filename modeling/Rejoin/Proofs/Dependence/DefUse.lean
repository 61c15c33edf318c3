import Mathlib.Data.List.Induction
import Rejoin.Dependence.DefUse
import Rejoin.Proofs.Machine.Building
import Rejoin.Proofs.Machine.Lookup

/-!
# The consumers of an instruction

The consumers of all instructions are gathered in one pass, which compares an instruction with the
latest consumer only. That is enough: the pass goes through the instructions one by one, so a row
meets an instruction again only while it is the latest. After a part of the layout the row of an
instruction has the readers in that part, each once, `Row.noteAll_concat_eq_readersIn`, and after
all of it

* `DefUse.consumers_ofFunc` — the consumers of an instruction are the readers of its result;
* `DefUse.consumers_exact` — the same in terms of the instructions of a function.
-/

namespace Rejoin.DefUse

/-- The instructions that read the named value, in the order of the list. -/
def readersIn (insts : List (InstId × Inst BlockId)) (name : String) : List InstId :=
  (insts.filter fun entry => entry.2.uses.contains name).map (·.1)

/-- The instructions of a function that read the named value, in layout order. -/
def readers (f : Func) (name : String) : List InstId :=
  readersIn f.insts name

variable {insts : List (InstId × Inst BlockId)} {entry : InstId × Inst BlockId} {name : String}

/-- The readers of a name are the instructions that use it. -/
theorem mem_readersIn_iff {id : InstId} :
    id ∈ readersIn insts name ↔ ∃ reader, (id, reader) ∈ insts ∧ name ∈ reader.uses := by
  simp [readersIn]

/-- One more instruction is one more reader, if it uses the name. -/
theorem readersIn_concat : readersIn (insts ++ [entry]) name =
    readersIn insts name ++ if name ∈ entry.2.uses then [entry.1] else [] := by
  rw [readersIn, List.filter_append, List.map_append, ← readersIn]
  split_ifs with hname
  · simp [hname]
  · simp [hname]

/-- Readers are listed in the order of the instructions, each once. -/
theorem readersIn_sublist : (readersIn insts name).Sublist (insts.map Prod.fst) :=
  List.filter_sublist.map Prod.fst

/-! ## One row -/

namespace Row

variable {row : Row} {reader : InstId} {names : List String}

/-- Note what a row of instructions reads, one instruction after the other. -/
def noteAll (row : Row) (insts : List (InstId × Inst BlockId)) : Row :=
  insts.foldl (fun row entry => entry.2.uses.foldl (note entry.1) row) row

/-- Noting goes instruction by instruction. -/
@[simp]
theorem noteAll_concat (row : Row) (insts : List (InstId × Inst BlockId))
    (entry : InstId × Inst BlockId) :
    row.noteAll (insts ++ [entry]) = entry.2.uses.foldl (note entry.1) (row.noteAll insts) := by
  simp [noteAll]

@[simp]
theorem id_noteAll (row : Row) (insts : List (InstId × Inst BlockId)) :
    (row.noteAll insts).id = row.id := by
  have hnames (row : Row) (reader : InstId) (names : List String) :
      (names.foldl (note reader) row).id = row.id := by
    induction names generalizing row with
    | nil => rfl
    | cons name names ih =>
      rw [List.foldl_cons, ih, note]
      split <;> rfl
  induction insts using List.reverseRecOn with
  | nil => rfl
  | append_singleton insts entry ih => rw [noteAll_concat, hnames, ih]

/-- A use changes a row only if it is of the row's result, and by a new reader. -/
theorem note_eq_self (h : row.result ≠ some name ∨ row.readers.head? = some reader) :
    row.note reader name = row := by
  rw [note, if_neg]
  rintro ⟨hresult, hhead⟩
  exact h.elim (absurd hresult) hhead

/-- An instruction that is the latest reader is not noted again, whatever it reads. -/
theorem foldl_note_of_latest (h : row.readers.head? = some reader) :
    names.foldl (note reader) row = row := by
  induction names with
  | nil => rfl
  | cons name names ih => rw [List.foldl_cons, note_eq_self (.inr h), ih]

/-- Any other instruction is noted once if it reads the value of the row, however often. -/
theorem foldl_note_of_not_latest (h : row.readers.head? ≠ some reader) :
    names.foldl (note reader) row =
      if ∃ name ∈ names, row.result = some name then { row with readers := reader :: row.readers }
      else row := by
  induction names with
  | nil => simp
  | cons name names ih =>
    rw [List.foldl_cons]
    by_cases hresult : row.result = some name
    · -- from here on the instruction is the latest reader
      have hnoted : row.note reader name = { row with readers := reader :: row.readers } :=
        if_pos ⟨hresult, h⟩
      rw [hnoted, foldl_note_of_latest rfl, if_pos ⟨name, List.mem_cons_self, hresult⟩]
    · rw [note_eq_self (.inl hresult), ih]
      simp [hresult]

/-- **One step of the pass.** A row that has the readers of a part of the layout has the readers of
the part with the next instruction, whose number is new. -/
theorem noteAll_concat_eq_readersIn (hresult : row.result = some name)
    (hnew : entry.1 ∉ insts.map Prod.fst)
    (hinsts : row.noteAll insts = { row with readers := (readersIn insts name).reverse }) :
    row.noteAll (insts ++ [entry]) =
      { row with readers := (readersIn (insts ++ [entry]) name).reverse } := by
  have hlatest : (readersIn insts name).reverse.head? ≠ some entry.1 := by
    intro hhead
    rw [List.head?_reverse] at hhead
    exact hnew (readersIn_sublist.subset (List.mem_of_getLast? hhead))
  rw [noteAll_concat, hinsts, foldl_note_of_not_latest hlatest, readersIn_concat]
  by_cases hname : name ∈ entry.2.uses
  · simp [hresult, hname]
  · have hnone : ¬∃ used ∈ entry.2.uses, some name = some used := by
      rintro ⟨used, hused, heq⟩
      exact hname (Option.some.inj heq ▸ hused)
    rw [hresult, if_neg hnone, if_neg hname, List.append_nil]

/-- **The whole pass.** The row of a definition ends with the readers of its value. -/
theorem noteAll_eq_readersIn (hresult : row.result = some name) (hrow : row.readers = [])
    (hnodup : (insts.map Prod.fst).Nodup) :
    row.noteAll insts = { row with readers := (readersIn insts name).reverse } := by
  induction insts using List.reverseRecOn with
  | nil =>
    rw [noteAll, List.foldl_nil]
    cases row
    simp_all [readersIn]
  | append_singleton insts entry ih =>
    rw [List.map_append, List.nodup_append] at hnodup
    refine noteAll_concat_eq_readersIn hresult (fun hmem => ?_) (ih hnodup.1)
    exact hnodup.2.2 _ hmem _ (by simp) rfl

/-- The row of an instruction that defines nothing stays as it is. -/
theorem noteAll_of_result_eq_none (hresult : row.result = none) : row.noteAll insts = row := by
  have hnames (reader : InstId) (names : List String) : names.foldl (note reader) row = row := by
    induction names with
    | nil => rfl
    | cons name names ih => rw [List.foldl_cons, note_eq_self (.inl (by simp [hresult])), ih]
  induction insts with
  | nil => rfl
  | cons entry insts ih => rw [noteAll, List.foldl_cons, hnames, ← noteAll, ih]

end Row

/-! ## All rows -/

/-- The pass treats every row as if there were no other. -/
theorem foldl_addReader (rows : List Row) :
    insts.foldl addReader rows = rows.map fun row => row.noteAll insts := by
  have hreader (entry : InstId × Inst BlockId) (rows : List Row) :
      addReader rows entry = rows.map fun row => entry.2.uses.foldl (Row.note entry.1) row := by
    rw [addReader]
    induction entry.2.uses generalizing rows with
    | nil => simp
    | cons name names ih => rw [List.foldl_cons, ih, List.map_map]; rfl
  induction insts generalizing rows with
  | nil => simp [Row.noteAll]
  | cons entry insts ih => rw [List.foldl_cons, ih, hreader, List.map_map]; rfl

variable {f : Func}

/-- Each instruction stands with the readers of the value it defines. -/
theorem edges_ofFunc (hf : (f.insts.map Prod.fst).Nodup) :
    (ofFunc f).edges = f.insts.map fun entry =>
      (entry.1, match entry.2.result with
        | none => []
        | some name => readers f name) := by
  simp only [ofFunc, foldl_addReader, List.map_map]
  refine List.map_congr_left fun entry _ => ?_
  rw [Function.comp_apply, Function.comp_apply, Row.id_noteAll]
  cases hresult : entry.2.result with
  | none => rw [Row.noteAll_of_result_eq_none rfl]; rfl
  | some name => rw [Row.noteAll_eq_readersIn rfl rfl hf, List.reverse_reverse]; rfl

/-- The consumers of an instruction are the readers of the value it defines. -/
theorem consumers_ofFunc (hf : f.Consistent) (x : InstId) :
    (ofFunc f).consumers x =
      match (f.inst? x).bind Inst.result with
      | none => []
      | some name => readers f name := by
  rw [consumers, edges_ofFunc hf.nodup_ids, Func.inst?_eq_lookup hf]
  generalize readers f = readersOf
  -- the table of uses and the instructions are searched side by side
  induction f.insts with
  | nil => rfl
  | cons entry rest ih =>
    obtain ⟨id, inst⟩ := entry
    rw [List.map_cons, List.lookup_cons, List.lookup_cons]
    cases x == id with
    | true =>
      cases hresult : inst.result with
      | none => simp [hresult]
      | some name => simp [hresult]
    | false => exact ih

/-- A consumer of an instruction reads the name that the instruction defines. -/
theorem mem_consumers_iff (hf : f.Consistent) {x y : InstId} :
    y ∈ (ofFunc f).consumers x ↔ ∃ inst name reader, f.inst? x = some inst ∧
      inst.result = some name ∧ f.inst? y = some reader ∧ name ∈ reader.uses := by
  have hreaders : ∀ name, y ∈ readers f name ↔
      ∃ reader, f.inst? y = some reader ∧ name ∈ reader.uses := by
    intro name
    simp only [readers, mem_readersIn_iff, Func.inst?_eq_some_iff hf]
  rw [consumers_ofFunc hf]
  constructor
  · intro h
    cases hresult : (f.inst? x).bind Inst.result with
    | none => simp [hresult] at h
    | some name =>
      rw [hresult] at h
      obtain ⟨inst, hinst, hname⟩ := Option.bind_eq_some_iff.mp hresult
      obtain ⟨reader, hreader, huse⟩ := (hreaders name).mp h
      exact ⟨inst, name, reader, hinst, hname, hreader, huse⟩
  · rintro ⟨inst, name, reader, hinst, hname, hreader, huse⟩
    rw [hinst, Option.bind_some, hname]
    exact (hreaders name).mpr ⟨reader, hreader, huse⟩

/-- **Consumers are exact.** In a function that is built step by step the consumers of an
instruction come in layout order, each once. For an instruction that defines a value they are the
instructions that read a value of its name, itself included. An instruction that defines nothing has
none, and neither has a number that no instruction has. -/
theorem consumers_exact (hf : f.Built) (d : InstId) :
    ((ofFunc f).consumers d).Sublist (f.insts.map Prod.fst) ∧ ((ofFunc f).consumers d).Nodup ∧
      (∀ inst name, (d, inst) ∈ f.insts → inst.result = some name → ∀ id,
        id ∈ (ofFunc f).consumers d ↔ ∃ reader, (id, reader) ∈ f.insts ∧ name ∈ reader.uses) ∧
      (∀ inst, (d, inst) ∈ f.insts → inst.result = none → (ofFunc f).consumers d = []) ∧
      (d ∉ f.insts.map Prod.fst → (ofFunc f).consumers d = []) := by
  have hids := hf.consistent
  have hsublist : ((ofFunc f).consumers d).Sublist (f.insts.map Prod.fst) := by
    rw [consumers_ofFunc hids]
    split
    · exact List.nil_sublist _
    · exact readersIn_sublist
  refine ⟨hsublist, hids.nodup_ids.sublist hsublist, fun inst name hinst hname id => ?_,
    fun inst hinst hnone => ?_, fun hd => ?_⟩
  · rw [consumers_ofFunc hids, (Func.inst?_eq_some_iff hids).mpr hinst, Option.bind_some, hname]
    exact mem_readersIn_iff
  · rw [consumers_ofFunc hids, (Func.inst?_eq_some_iff hids).mpr hinst, Option.bind_some, hnone]
  · rw [consumers_ofFunc hids, (Func.inst?_eq_none_iff hids).mpr hd, Option.bind_none]

/-- A function that defines two values twice, the second time from the value itself, and reads one
of them twice in one instruction. -/
def redefiningFunc : Func :=
  .ofBlocks "@f" [("entry", [.op "mov" [.int 1] (some "%a"),
    .op "add" [.value "%a", .value "%a"] (some "%b"), .op "mov" [.int 2] (some "%a"),
    .op "add" [.value "%b", .value "%a"] (some "%b"), .ret (some (.value "%b"))])]

/-- The second definition of `%b` in `redefiningFunc` consumes itself, and the instruction that
reads `%a` twice is one consumer of both definitions of `%a`. -/
theorem consumers_exact_redefiningFunc :
    redefiningFunc.Built ∧ (ofFunc redefiningFunc).edges =
        [(0, [1, 3]), (1, [3, 4]), (2, [1, 3]), (3, [3, 4]), (4, [])] ∧
      ∀ id, id ∈ (ofFunc redefiningFunc).consumers 3 ↔
        ∃ reader, (id, reader) ∈ redefiningFunc.insts ∧ "%b" ∈ reader.uses := by
  have hbuilt : redefiningFunc.Built := Func.built_ofBlocks _ _
  have hmem : (3, .op "add" [.value "%b", .value "%a"] (some "%b")) ∈ redefiningFunc.insts := by
    decide +kernel
  obtain ⟨-, -, hreaders, -⟩ := consumers_exact hbuilt 3
  exact ⟨hbuilt, by decide +kernel, hreaders _ "%b" hmem rfl⟩

end Rejoin.DefUse
