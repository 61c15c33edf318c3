import Rejoin.Proofs.Dependence.Accounting
import Rejoin.Proofs.Dependence.Dependents
import Rejoin.Proofs.Koopa.Lowering
import Rejoin.Proofs.Report.LocationTable

/-!
# The analysis of every program that can be read

Listings are read as programs whose functions are well formed, and so are Koopa texts. A program of
Koopa functions may also come from another front end. All that is needed of it is that targets are
in the layout of their function: then the machine functions are linked, and the analysis succeeds
with one result for each function, `analyse_total_of_parse`. Its totals are true to the text of the
result, since every dependent is the number of some instruction, `Func.lt_size_of_mem_dependents`,
and the instructions that depend on no branch are what is left of all others.
-/

namespace Rejoin

/-- The functions of a program that a front end produces are linked. -/
theorem Program.linked_of_parse (front : Koopa.FrontEnd) {text : String} {program : Program}
    (h : Listing.parse text = .ok program ∨ Koopa.parse text = .ok program ∨
      front.parse text = .ok program) : ∀ f ∈ program.functions, f.Linked := by
  rcases h with h | h | h
  · exact fun f hf => (Listing.wellFormed_of_parse h f hf).toLinked
  · exact fun f hf => (Koopa.wellFormed_of_parse h f hf).toLinked
  · exact front.linked_of_parse h

/-- The analysis succeeds for both instruction sets on every program that is read from a listing,
from a Koopa text, or from a text by any other front end whose Koopa programs have their targets in
their layout. It gives one result for each function, in order, under the identifier that the place
of the function gives it. Control flow leads only to blocks of the function, so there is a graph of
them. All dependents are below the number of instructions; the different ones among them are
counted, and what is left is exactly the rest of the instructions. -/
theorem analyse_total_of_parse (front : Koopa.FrontEnd) {text : String} {program : Program}
    (h : Listing.parse text = .ok program ∨ Koopa.parse text = .ok program ∨
      front.parse text = .ok program) (isa : Isa) :
    ∃ results, program.analyse isa = .ok results ∧
      results.length = program.functions.length ∧
      ∀ (i : Nat) (f : Func) (deps : Dependencies), program.functions[i]? = some f →
        results[i]? = some deps →
        f.dependencies isa (functionId i) = .ok deps ∧ deps.name = f.name ∧
        (program.functions.length < UInt32.size - 10000 → deps.functionId.toNat = 10000 + i) ∧
        (∀ block ∈ f.transfers, ∀ target ∈ block.2.targets,
          target ∈ f.transfers.map Prod.fst) ∧
        (Graph.ofBlocks? f.transfers).isSome = true ∧
        deps.summary.instructions =
          (f.insts.filter fun entry => isa.isSubstantive entry.2).length ∧
        (∀ b ∈ deps.branches, ∀ n ∈ b.dependents, n < deps.summary.instructions) ∧
        deps.summary.dependent =
          (deps.branches.flatMap BranchDependents.dependents).toFinset.card ∧
        deps.summary.dependent + deps.summary.independent = deps.summary.instructions := by
  have hlinked := Program.linked_of_parse front h
  refine ⟨_, Program.analyse_eq_ok_of_linked hlinked isa, by simp, fun i f deps hi hdeps => ?_⟩
  have hf : f.Linked := hlinked f (List.mem_of_getElem? hi)
  rw [List.getElem?_mapIdx, hi, Option.map_some] at hdeps
  obtain rfl := Option.some.inj hdeps
  have hlt : i < program.functions.length := (List.getElem?_eq_some_iff.mp hi).1
  refine ⟨Func.dependencies_eq_ok hf, rfl, fun hcount => ?_, hf.wellListed.listed, ?_, ?_,
    fun b hb n hn => Func.lt_size_of_mem_dependents hf hb hn, ?_, ?_⟩
  · rw [Func.functionId_findings]
    exact toNat_functionId (by omega)
  · rw [hf.wellListed.ofBlocks?]
    rfl
  · show (Numbering.ofFunc isa (functionId i) f).order.length = _
    rw [Numbering.order_ofFunc, List.length_map]
  · exact Setting.countDependent_eq_card fun b hb n hn => Func.lt_size_of_mem_dependents hf hb hn
  · exact Nat.add_sub_cancel' (Setting.countDependent_le _ _)

/-- A Koopa text with a declared function, and a function one of whose blocks is not reached. -/
def idleText : String :=
  "decl @getint(): i32\n\nfun @f(%x: i32): i32 \x7b\n%entry:\n  br %x, %then, %done\n%then:\n" ++
    "  %0 = call @getint()\n  %1 = add %0, %x\n  jump %done\n%idle:\n  jump %then\n%done:\n" ++
    "  ret %x\n\x7d\n"

/-- The program of `idleText`. -/
def idleProgram : Program where
  functions :=
    [{ name := "@getint" },
     .ofBlocks "@f"
       [("entry", [.branch (some (.value "%x")) 1 2]),
        ("then", [.op "call" [.symbol "@getint"] (some "%.v0"),
          .op "add" [.value "%.v0", .value "%x"] (some "%.v1"), .jump 2]),
        ("done", [.ret (some (.value "%x"))])]]

/-- A Koopa program in which an instruction stands behind the end of its block. -/
def strayProgram : Koopa.Program where
  functions := [{
    name := "@f"
    params := []
    blocks :=
      [{ name := none
         params := []
         insts := [⟨.unit, .jump 0 []⟩, ⟨.named "%x", .binary .add (.int 1) (.int 2)⟩] }] }]

/-- A front end that gives `strayProgram` whatever it reads. -/
def strayFrontEnd : Koopa.FrontEnd where
  Error := Empty
  read _ := .ok strayProgram
  targetsListed := by
    rintro _ _ ⟨⟩
    simp [Koopa.Program.TargetsListed, Koopa.Function.TargetsListed, strayProgram,
      Koopa.Operation.targets]

/-- The declared function of `idleText` has a result too, so the other one is the second. And
`strayProgram`, which neither reader of this library gives, is analysed as well. -/
theorem analyse_total_of_parse_idleText :
    (Koopa.parse idleText = .ok idleProgram ∧
      ∃ results, idleProgram.analyse .x86 = .ok results ∧ results.length = 2 ∧
        ∃ deps, results[1]? = some deps ∧ deps.name = "@f" ∧ deps.functionId.toNat = 10001 ∧
          (∀ b ∈ deps.branches, ∀ n ∈ b.dependents, n < 5) ∧
          deps.summary.dependent =
            (deps.branches.flatMap BranchDependents.dependents).toFinset.card ∧
          deps.summary.dependent + deps.summary.independent = 5) ∧
      strayFrontEnd.parse "" = .ok strayProgram.lower ∧
        ∃ results, strayProgram.lower.analyse .generic = .ok results ∧ results.length = 1 := by
  have hparse : Koopa.parse idleText = .ok idleProgram := by decide +kernel
  obtain ⟨results, hresults, hlength, hall⟩ :=
    analyse_total_of_parse Koopa.frontEnd (.inr (.inl hparse)) .x86
  have hlength : results.length = 2 := hlength
  obtain ⟨deps, hdeps⟩ : ∃ deps, results[1]? = some deps :=
    ⟨results[1], List.getElem?_eq_getElem (by omega)⟩
  obtain ⟨-, hname, hid, -, -, hinstructions, hlt, hdependent, hsum⟩ := hall 1 _ deps rfl hdeps
  have hinstructions : deps.summary.instructions = 5 := hinstructions.trans (by decide +kernel)
  rw [hinstructions] at hlt hsum
  have hread : strayFrontEnd.parse "" = .ok strayProgram.lower := rfl
  obtain ⟨strayResults, hstray, hcount, -⟩ :=
    analyse_total_of_parse strayFrontEnd (.inr (.inr hread)) .generic
  exact ⟨⟨hparse, results, hresults, hlength, deps, hdeps, hname, hid (by decide), hlt, hdependent,
    hsum⟩, hread, strayResults, hstray, hcount⟩

end Rejoin
