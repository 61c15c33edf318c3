import Rejoin.Proofs.Dependence.Dependents
import Rejoin.Proofs.Dump
import Rejoin.Proofs.Listing.Lowering
import Rejoin.Proofs.Report.LocationTable
import Rejoin.Proofs.Report.Reader

/-!
# Addresses of branches and dependents

A dump that has one row for each entry of the location table of a program, among other lines, is
read as the addresses of just these entries. Every branch and every dependent of a report has an
entry, so resolving a report loses nothing, and finds the addresses in the function the branch
belongs to.
-/

namespace Rejoin

/-! ## Dumps -/

/-- A line that gives no location an address: it does not start with `0x`, or it is a row with the
column of ordinary debug information. -/
def IsOtherLine (line : String) : Prop :=
  (∀ row, line.toList ≠ '0' :: 'x' :: row) ∨
    ∃ pc location, IsRow line pc location ∧ location.function.toNat < 10000

/-- The line is the row of an entry, or another line. -/
def IsLineOf (address : LocationEntry → UInt64) (line : String) : Option LocationEntry → Prop
  | some entry => IsRow line (address entry) entry.location
  | none => IsOtherLine line

/-- The lines of a dump with exactly one row for each entry of a table, in any order. -/
def IsDump (address : LocationEntry → UInt64) (table : List LocationEntry)
    (dump : List String) : Prop :=
  (∀ line ∈ dump, '\n' ∉ line.toList) ∧
    ∃ marks : List (Option LocationEntry), (marks.filterMap id).Perm table ∧
      List.Forall₂ (IsLineOf address) dump marks

/-! ## The addresses read -/

/-- What is read of an entry. -/
def LocationEntry.row (address : LocationEntry → UInt64) (entry : LocationEntry) :
    Location × UInt64 :=
  (entry.location, address entry)

/-- A line that is no row is not malformed either. -/
theorem IsOtherLine.not_isMalformedRow {line : String} (h : IsOtherLine line) :
    ¬IsMalformedRow line := by
  rintro ⟨⟨row, hline⟩, hnot⟩
  rcases h with hother | ⟨pc, location, hrow, -⟩
  · exact hother row hline.symm
  · exact hnot pc location hrow

theorem IsOtherLine.givenBy_eq_none {line : String} (h : IsOtherLine line) :
    givenBy line.toList = none := by
  apply Option.eq_none_iff_forall_ne_some.mpr
  rintro ⟨location, pc⟩ hgiven
  obtain ⟨hle, hrow⟩ := givenBy_eq_some_iff.mp hgiven
  rcases h with hother | ⟨pc', location', hrow', hlt⟩
  · obtain ⟨row, hline, -⟩ := isRow_iff_readRow?.mp hrow
    exact hother row hline
  · obtain ⟨-, rfl⟩ := hrow.unique hrow'
    omega

/-- The line of an entry gives its row, and other lines give nothing. -/
theorem IsLineOf.givenBy_eq {address : LocationEntry → UInt64} {line : String}
    {mark : Option LocationEntry} (h : IsLineOf address line mark)
    (hbase : ∀ entry, mark = some entry → functionIdBase ≤ entry.location.function) :
    ¬IsMalformedRow line ∧
      givenBy line.toList = mark.map (LocationEntry.row address) := by
  cases mark with
  | none => exact ⟨IsOtherLine.not_isMalformedRow h, IsOtherLine.givenBy_eq_none h⟩
  | some entry =>
    refine ⟨fun hmalformed => hmalformed.2 _ _ h, givenBy_eq_some_iff.mpr ⟨?_, h⟩⟩
    exact UInt32.le_iff_toNat_le.mp (hbase entry rfl)

/-- The lines of a dump give the rows of its entries. -/
theorem filterMap_givenBy_of_isLineOf {address : LocationEntry → UInt64} {dump : List String}
    {marks : List (Option LocationEntry)} (h : List.Forall₂ (IsLineOf address) dump marks)
    (hbase : ∀ entry, some entry ∈ marks → functionIdBase ≤ entry.location.function) :
    (∀ line ∈ dump, ¬IsMalformedRow line) ∧
      (dump.filterMap fun line => givenBy line.toList) =
        (marks.filterMap id).map (LocationEntry.row address) := by
  induction h with
  | nil => exact ⟨List.forall_mem_nil _, rfl⟩
  | @cons line mark dump marks hfirst _ ih =>
    obtain ⟨hline, hgiven⟩ := hfirst.givenBy_eq fun entry hentry =>
      hbase entry (hentry ▸ List.mem_cons_self)
    obtain ⟨hdump, hothers⟩ := ih fun entry hmem => hbase entry (List.mem_cons_of_mem _ hmem)
    refine ⟨List.forall_mem_cons.mpr ⟨hline, hdump⟩, ?_⟩
    cases mark with
    | none => simpa [List.filterMap_cons, hgiven] using hothers
    | some entry => simpa [List.filterMap_cons, hgiven] using hothers

/-- A dump of a table without repetitions is read as the addresses of its entries. -/
theorem exists_read_of_isDump {address : LocationEntry → UInt64} {table : List LocationEntry}
    {dump : List String} (hdump : IsDump address table dump)
    (hnodup : (table.map LocationEntry.location).Nodup)
    (hbase : ∀ entry ∈ table, functionIdBase ≤ entry.location.function) :
    ∃ map, AddressMap.read ("\n".intercalate dump) = .ok map ∧ map.size = table.length ∧
      ∀ location pc, map.get? location = some pc ↔
        ∃ entry ∈ table, entry.location = location ∧ address entry = pc := by
  obtain ⟨hlines, marks, hperm, hmarks⟩ := hdump
  obtain ⟨hwell, hgiven⟩ := filterMap_givenBy_of_isLineOf hmarks fun entry hmem =>
    hbase entry (hperm.subset (List.mem_filterMap.mpr ⟨_, hmem, rfl⟩))
  -- the rows read are those of the entries, the latest first
  let rows := ((marks.filterMap id).map (LocationEntry.row address)).reverse
  have hread : AddressMap.read ("\n".intercalate dump) = .ok ⟨rows⟩ := by
    by_cases hempty : dump = []
    · subst hempty
      cases hmarks
      rfl
    · rw [AddressMap.read_eq_ok_iff_textLines, textLines_intercalate hempty hlines, hgiven]
      exact ⟨hwell, rfl⟩
  have hperm : rows.Perm (table.map (LocationEntry.row address)) :=
    (List.reverse_perm _).trans (hperm.map _)
  -- so each location is given one address, whatever the order
  have hkeys : (rows.map Prod.fst).Nodup := by
    rw [(hperm.map Prod.fst).nodup_iff, List.map_map]
    exact hnodup
  refine ⟨⟨rows⟩, hread, ?_, fun location pc => ?_⟩
  · rw [AddressMap.size, eraseDups_of_nodup hkeys, List.length_map, hperm.length_eq,
      List.length_map]
  · rw [AddressMap.get?, lookup_eq_some_iff_of_nodup hkeys, hperm.mem_iff, List.mem_map]
    simp only [LocationEntry.row, Prod.mk.injEq]

/-! ## Numbers in a report -/

/-- The numbers that are reported for a function are numbers of its instructions, and those of
dependents are ascending. -/
theorem Func.numbers_of_mem_branches {f : Func} (hf : f.WellFormed) {isa : Isa}
    {functionId : UInt32} {b : BranchDependents} (hb : b ∈ (f.findings isa functionId).branches) :
    b.branch < (Numbering.ofFunc isa functionId f).size ∧
      (∀ n ∈ b.dependents, n < (Numbering.ofFunc isa functionId f).size) ∧
      b.dependents.Pairwise (· < ·) := by
  obtain ⟨hbranch, -, -, heq⟩ := (mem_branches_findings_iff hf.toLinked).mp hb
  refine ⟨?_, fun n hn => lt_size_of_mem_dependents hf.toLinked hb hn, ?_⟩
  · obtain ⟨n, hn⟩ : ∃ n, (Numbering.ofFunc isa functionId f).number? b.inst = some n :=
      (Numbering.exists_number?_iff hf.consistent).mpr hbranch.isCode
    have hnumber : b.branch = ((Numbering.ofFunc isa functionId f).number? b.inst).getD 0 :=
      congrArg BranchDependents.branch heq
    rw [hnumber, hn, Option.getD_some]
    exact (Numbering.agrees_ofFunc isa functionId f).lt_size_of_number? hn
  · rw [heq]
    exact Numbering.pairwise_collect

/-! ## Resolving a report -/

/-- The address is that of the instruction with a number in the function that was analysed. -/
def Program.Located (program : Program) (isa : Isa) (address : LocationEntry → UInt64)
    (deps : Dependencies) (n : Nat) (pc : UInt64) : Prop :=
  ∃ entry ∈ program.locations isa, entry.function = deps.name ∧
    entry.location.function = deps.functionId ∧ entry.location.index.toNat = n ∧ address entry = pc

/-- A resolved record has the addresses of a branch and of all its dependents, in ascending order of
their numbers. -/
structure Program.Resolves (program : Program) (isa : Isa) (address : LocationEntry → UInt64)
    (analysed : Dependencies × BranchDependents) (resolved : ResolvedBranch) : Prop where
  /-- The address of the branch. -/
  pc : program.Located isa address analysed.1 analysed.2.branch resolved.pc
  /-- The dependents are in the order of their numbers, each once. -/
  ascending : analysed.2.dependents.Pairwise (· < ·)
  /-- The addresses of the dependents. -/
  dependents : List.Forall₂ (program.Located isa address analysed.1) analysed.2.dependents
    resolved.dependents

/-- The branches of all functions, each with what was found in its function. -/
def analysedBranches (results : List Dependencies) : List (Dependencies × BranchDependents) :=
  results.flatMap fun deps => deps.branches.map fun b => (deps, b)

/-- The record of one branch. -/
def BranchDependents.record (b : BranchDependents) (functionId : UInt32) : Record :=
  ⟨UInt32.ofNat b.branch, functionId, b.dependents.map UInt32.ofNat⟩

/-- The records of a report are those of the analysed branches. -/
theorem flatMap_records (results : List Dependencies) :
    results.flatMap Dependencies.records =
      (analysedBranches results).map fun (deps, b) => b.record deps.functionId := by
  rw [analysedBranches, List.map_flatMap]
  simp only [List.map_map]
  rfl

/-- Where nothing is dropped, results are related to their sources one by one. -/
theorem forall₂_filterMap {α β : Type} {R : α → β → Prop} {g : α → Option β} {all : List α}
    (h : ∀ a ∈ all, ∃ b, g a = some b ∧ R a b) : List.Forall₂ R all (all.filterMap g) := by
  induction all with
  | nil => exact .nil
  | cons a all ih =>
    obtain ⟨⟨b, hb, hab⟩, hall⟩ := List.forall_mem_cons.mp h
    rw [List.filterMap_cons_some hb]
    exact .cons hab (ih hall)

/-- With an address for every entry of the location table, the record of every branch that was
analysed is resolved. -/
theorem Program.exists_resolve? {program : Program} (hwf : ∀ f ∈ program.functions, f.WellFormed)
    (hcount : program.Countable) {isa : Isa} {address : LocationEntry → UInt64} {map : AddressMap}
    (hget : ∀ entry ∈ program.locations isa, map.get? entry.location = some (address entry))
    {f : Func} {i : Nat} (hi : program.functions[i]? = some f) {b : BranchDependents}
    (hb : b ∈ (f.findings isa (functionId i)).branches) :
    ∃ resolved, (b.record (functionId i)).resolve? map = some resolved ∧
      program.Resolves isa address (f.findings isa (functionId i), b) resolved := by
  have hf := List.mem_of_getElem? hi
  -- every number of the function has an entry, and so an address
  have hlocated : ∀ n < (Numbering.ofFunc isa (functionId i) f).size,
      ∃ pc, map.get? ⟨UInt32.ofNat n, functionId i⟩ = some pc ∧
        program.Located isa address (f.findings isa (functionId i)) n pc := by
    intro n hn
    obtain ⟨entry, hentry, hname, hlocation⟩ :=
      exists_mem_locations hi (hwf f hf).nodup_ids hn
    have hindex : entry.location.index.toNat = n := by
      rw [hlocation]
      exact hcount.toNat_ofNat hf hn
    have hfunction : entry.location.function = (f.findings isa (functionId i)).functionId := by
      rw [hlocation, Func.functionId_findings]
    exact ⟨address entry, hlocation ▸ hget entry hentry, entry, hentry, hname, hfunction, hindex,
      rfl⟩
  obtain ⟨hbranch, hdependents, hascending⟩ := Func.numbers_of_mem_branches (hwf f hf) hb
  obtain ⟨pc, hpc, hat⟩ := hlocated b.branch hbranch
  refine ⟨⟨pc, b.dependents.filterMap fun n => map.get? ⟨UInt32.ofNat n, functionId i⟩⟩, ?_, hat,
    hascending, forall₂_filterMap fun n hn => hlocated n (hdependents n hn)⟩
  simp [Record.resolve?, BranchDependents.record, hpc, List.filterMap_map]

/-- **Resolving addresses loses nothing.** Whatever addresses a dump gives to the entries of the
location table of a listing, it is read as these, and the report of the listing is read back and
resolved to one record for each analysed branch. The record has the address of the branch and those
of all its dependents, ascending by number, each from the function of the branch. -/
theorem resolve_analysed {text : String} {program : Program}
    (hparse : Listing.parse text = .ok program) (hcount : program.Countable) (isa : Isa)
    (address : LocationEntry → UInt64) {dump : List String}
    (hdump : IsDump address (program.locations isa) dump) :
    ∃ map results records, AddressMap.read ("\n".intercalate dump) = .ok map ∧
      map.size = (program.locations isa).length ∧
      (∀ location pc, map.get? location = some pc ↔
        ∃ entry ∈ program.locations isa, entry.location = location ∧ address entry = pc) ∧
      program.analyse isa = .ok results ∧
      (results.map fun deps => (deps.name, deps.functionId)) =
        (program.functions.mapIdx fun i f => (f.name, functionId i)) ∧
      readReport (renderReport (results.flatMap Dependencies.records)) = .ok records ∧
      List.Forall₂ (program.Resolves isa address) (analysedBranches results)
        (resolve map records) := by
  have hwf := Listing.wellFormed_of_parse hparse
  have hids : ∀ f ∈ program.functions, (f.insts.map Prod.fst).Nodup :=
    fun f hf => (hwf f hf).nodup_ids
  obtain ⟨map, hread, hsize, hget⟩ := exists_read_of_isDump hdump
    (Program.nodup_locations hcount hids isa) fun _ => hcount.functionIdBase_le hids
  refine ⟨map, _, _, hread, hsize, hget, Program.analyse_eq_ok hwf isa, ?_,
    readReport_renderReport _, ?_⟩
  · rw [List.mapIdx_eq_zipIdx_map, List.mapIdx_eq_zipIdx_map, List.map_map]
    refine List.map_congr_left fun entry _ => ?_
    exact Prod.ext rfl Func.functionId_findings
  · rw [flatMap_records, resolve, List.filterMap_map]
    refine forall₂_filterMap ?_
    rintro ⟨deps, b⟩ hmem
    -- an analysed branch is one of a function at some place of the program
    obtain ⟨_, hdeps, hmem⟩ := List.mem_flatMap.mp hmem
    obtain ⟨_, hb, hpair⟩ := List.mem_map.mp hmem
    obtain ⟨rfl, rfl⟩ := Prod.mk.inj hpair
    obtain ⟨i, hi, rfl⟩ := List.mem_mapIdx.mp hdeps
    simp only [Function.comp_apply, Func.functionId_findings]
    exact Program.exists_resolve? hwf hcount
      (fun entry hentry => (hget _ _).mpr ⟨entry, hentry, rfl, rfl⟩)
      (List.getElem?_eq_getElem hi) hb

/-- A function with a loop of one block. -/
def loopFunc (name : String) : Func :=
  .ofBlocks name [("a", [.branch (some (.value "%c")) 0 1]), ("b", [.ret none])]

/-- The listing of two functions that differ in name only. -/
def loopsListing : String :=
  "func @f \x7b\na:\n  br %c, a, b\nb:\n  ret\n\x7d\n" ++
    "func @g \x7b\na:\n  br %c, a, b\nb:\n  ret\n\x7d\n"

/-- The addresses of `loopsListing`, eight bytes for each instruction. -/
def loopsAddress (entry : LocationEntry) : UInt64 :=
  (16 * (entry.location.function - 9999) + 8 * entry.location.index).toUInt64

/-- A dump for `loopsListing`, out of order and with other lines. -/
def loopsDump : List String :=
  ["Address Line Column", "0x20 0 10001", "0x28 1 10001", "0x8 7 3", "0x10 0 10000",
    "0x18 1 10000", ""]

/-- The dump has a row for every location, mixed with other lines. -/
theorem isDump_loopsDump :
    IsDump loopsAddress ((Program.mk [loopFunc "@f", loopFunc "@g"]).locations .x86) loopsDump := by
  have hrow (line : String) (pc : UInt64) (location : Location)
      (h : line = "0x" ++ hexadecimal pc.toNat ++ " " ++ decimal location.index.toNat ++ " " ++
        decimal location.function.toNat) : IsRow line pc location :=
    h ▸ isRow_plain pc location
  refine ⟨by decide, [none, some ⟨"@g", "a", ⟨0, 10001⟩⟩, some ⟨"@g", "b", ⟨1, 10001⟩⟩, none,
    some ⟨"@f", "a", ⟨0, 10000⟩⟩, some ⟨"@f", "b", ⟨1, 10000⟩⟩, none], by decide +kernel, ?_⟩
  refine .cons (.inl ?_) (.cons (hrow _ _ _ ?_) (.cons (hrow _ _ _ ?_)
    (.cons (.inr ⟨8, ⟨7, 3⟩, hrow _ _ _ ?_, by decide⟩) (.cons (hrow _ _ _ ?_)
    (.cons (hrow _ _ _ ?_) (.cons (.inl ?_) .nil))))))
  all_goals first | decide +kernel | simp

/-- The functions have the same numbers, and their branches keep their own addresses. -/
theorem resolve_analysed_loopsListing :
    Listing.parse loopsListing = .ok ⟨[loopFunc "@f", loopFunc "@g"]⟩ ∧
      IsDump loopsAddress ((Program.mk [loopFunc "@f", loopFunc "@g"]).locations .x86) loopsDump ∧
      ∃ map results records, AddressMap.read ("\n".intercalate loopsDump) = .ok map ∧
        map.size = 4 ∧ (Program.mk [loopFunc "@f", loopFunc "@g"]).analyse .x86 = .ok results ∧
        readReport (renderReport (results.flatMap Dependencies.records)) = .ok records ∧
        resolve map records = [⟨16, [16]⟩, ⟨32, [32]⟩] := by
  have hparse : Listing.parse loopsListing = .ok ⟨[loopFunc "@f", loopFunc "@g"]⟩ := by
    decide +kernel
  have hrun : (Program.mk [loopFunc "@f", loopFunc "@g"]).analyse .x86 = .ok
      [⟨10000, "@f", [⟨0, 0, 0, 1, [0], [], [0]⟩], [], ⟨2, 1, 0, 1, 1⟩⟩,
        ⟨10001, "@g", [⟨0, 0, 0, 1, [0], [], [0]⟩], [], ⟨2, 1, 0, 1, 1⟩⟩] := by
    decide +kernel
  have hcount : (Program.mk [loopFunc "@f", loopFunc "@g"]).Countable := by
    constructor <;> decide
  obtain ⟨map, results, records, hread, hsize, -, hanalyse, -, hreport, hresolved⟩ :=
    resolve_analysed hparse hcount .x86 loopsAddress isDump_loopsDump
  refine ⟨hparse, isDump_loopsDump, map, results, records, hread,
    hsize.trans (by decide +kernel), hanalyse, hreport, ?_⟩
  obtain rfl := Except.ok.inj (hanalyse.symm.trans hrun)
  have hpc : ∀ deps n pc,
      (Program.mk [loopFunc "@f", loopFunc "@g"]).Located .x86 loopsAddress deps n pc →
        pc = (16 * (deps.functionId - 9999) + 8 * UInt32.ofNat n).toUInt64 := by
    rintro deps _ _ ⟨entry, -, -, hid, rfl, rfl⟩
    rw [loopsAddress, hid, UInt32.ofNat_toNat]
  obtain ⟨⟨pc, pcs⟩, _, ⟨hf, -, hfdeps⟩, hresolved, heq⟩ :=
    List.forall₂_cons_left_iff.mp hresolved
  obtain ⟨⟨pc', pcs'⟩, _, ⟨hg, -, hgdeps⟩, ⟨⟩, rfl⟩ := List.forall₂_cons_left_iff.mp hresolved
  obtain _ | ⟨hfdep, _ | _⟩ := hfdeps
  obtain _ | ⟨hgdep, _ | _⟩ := hgdeps
  obtain rfl : pc = 16 := hpc _ _ _ hf
  obtain rfl : pc' = 32 := hpc _ _ _ hg
  rw [heq, hpc _ _ _ hfdep, hpc _ _ _ hgdep]
  rfl

end Rejoin
