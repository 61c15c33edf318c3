import Rejoin.Proofs.Dependence.Analysis
import Rejoin.Proofs.Listing.Concatenation
import Rejoin.Report.LocationTable

/-!
# Programs one after the other

Functions are analysed and numbered each on its own, and the place of a function in its program is
seen only in its identifier. So what is found in two listings together, `analyse_of_parse_append`,
is what is found in each of them, with the identifiers of the second moved up.
-/

namespace Rejoin

/-- What an analysis finds, in a function that comes `n` places later. -/
def Dependencies.shift (n : Nat) (deps : Dependencies) : Dependencies :=
  { deps with functionId := deps.functionId + UInt32.ofNat n }

/-- The entry of an instruction, in a function that comes `n` places later. -/
def LocationEntry.shift (n : Nat) (entry : LocationEntry) : LocationEntry :=
  { entry with
    location := { entry.location with function := entry.location.function + UInt32.ofNat n } }

/-- Identifiers are consecutive, in 32-bit arithmetic. -/
theorem functionId_add (ordinal n : Nat) :
    functionId (ordinal + n) = functionId ordinal + UInt32.ofNat n := by
  rw [functionId, functionId, UInt32.ofNat_add, UInt32.add_assoc]

namespace Func

variable {isa : Isa}

/-- Another identifier changes the setting of a function in the identifier only. -/
theorem ownSetting_eq_with (f : Func) (id id' : UInt32) :
    f.ownSetting isa id' = { f.ownSetting isa id with
      numbering := { (f.ownSetting isa id).numbering with functionId := id' } } := by
  simp only [ownSetting, setting, ← Numbering.ofFunc_eq_with]

/-- What becomes of a branch does not depend on the identifier of its function. -/
theorem outcome_ownSetting (f : Func) (id id' : UInt32) (site : BranchSite) :
    (f.ownSetting isa id').outcome site = (f.ownSetting isa id).outcome site := by
  rw [ownSetting_eq_with f id id', Setting.outcome, Setting.outcome]
  have hclosure (seeds : List InstId) :
      DataFlow.closure { (f.ownSetting isa id).toDataFlow with
        numbering := { (f.ownSetting isa id).numbering with functionId := id' } } seeds =
      (f.ownSetting isa id).closure seeds := by
    apply DataFlow.closure_congr
    · rfl
    · rfl
  cases site.point with
  | none => rfl
  | some point =>
    simp only [Setting.findingsOf, hclosure]
    rfl

/-- Of the place of a function, only its identifier is seen in what is found. -/
theorem findings_functionId_add (f : Func) (ordinal n : Nat) :
    f.findings isa (functionId (ordinal + n)) =
      (f.findings isa (functionId ordinal)).shift n := by
  have houtcome : (f.ownSetting isa (functionId ordinal + UInt32.ofNat n)).outcome =
      (f.ownSetting isa (functionId ordinal)).outcome :=
    funext (f.outcome_ownSetting _ _)
  rw [functionId_add, findings, findings, houtcome, ownSetting_eq_with f (functionId ordinal)]
  simp only [Dependencies.shift, Dependencies.ofOutcomes]
  rw [show (f.ownSetting isa (functionId ordinal)).numbering.functionId = functionId ordinal from
    Numbering.functionId_ofFunc _ _ _]
  rfl

/-- Under a later identifier the locations of a function are moved by as much. -/
theorem locations_functionId_add (f : Func) (ordinal n : Nat) :
    f.locations isa (functionId (ordinal + n)) =
      (f.locations isa (functionId ordinal)).map (LocationEntry.shift n) := by
  rw [functionId_add, locations, locations, List.map_filterMap,
    Numbering.ofFunc_eq_with isa (functionId ordinal)]
  refine List.filterMap_congr fun id _ => ?_
  rw [Numbering.location?, Numbering.location?, Numbering.functionId_ofFunc, Numbering.number?,
    Numbering.number?]
  cases (Numbering.ofFunc isa (functionId ordinal) f).numbers.lookup id with
  | none => rfl
  | some number => rfl

end Func

namespace Program

variable (fs gs : List Func) (isa : Isa)

/-- The table of a longer program is that of its first part and the moved one of the second. -/
theorem locations_append :
    (Program.mk (fs ++ gs)).locations isa = (Program.mk fs).locations isa ++
      ((Program.mk gs).locations isa).map (LocationEntry.shift fs.length) := by
  simp only [locations, List.zipIdx_append, List.flatMap_append, List.map_flatMap]
  congr 1
  rw [Nat.zero_add, List.zipIdx_eq_map_add, List.flatMap_map]
  refine List.flatMap_congr fun entry _ => ?_
  simp only [Nat.add_comm _ entry.2]
  exact entry.1.locations_functionId_add entry.2 fs.length

theorem findings_append :
    (fs ++ gs).mapIdx (fun i f => f.findings isa (functionId i)) =
      fs.mapIdx (fun i f => f.findings isa (functionId i)) ++
        (gs.mapIdx fun i f => f.findings isa (functionId i)).map
          (Dependencies.shift fs.length) := by
  rw [List.mapIdx_append]
  congr 1
  simp only [Func.findings_functionId_add, List.mapIdx_eq_zipIdx_map, List.map_map]
  rfl

end Program

/-- Listings that define different functions can be put one after the other. The functions are then
those of the first listing followed by those of the second. For either instruction set, what is
found and the location table are those of the first listing followed by those of the second, with
the identifiers of functions moved up by the number of functions in the first. -/
theorem analyse_of_parse_append {s t : String} {first second : Program}
    (hs : Listing.parse s = .ok first) (ht : Listing.parse t = .ok second)
    (hnames : ∀ f ∈ first.functions, ∀ g ∈ second.functions, f.name ≠ g.name) :
    ∃ whole, Listing.parse (s ++ "\n" ++ t) = .ok whole ∧
      whole.functions = first.functions ++ second.functions ∧
      ∀ isa, (∃ results results', first.analyse isa = .ok results ∧
          second.analyse isa = .ok results' ∧
          whole.analyse isa =
            .ok (results ++ results'.map (Dependencies.shift first.functions.length))) ∧
        whole.locations isa = first.locations isa ++
          (second.locations isa).map (LocationEntry.shift first.functions.length) := by
  have hwhole := Listing.parse_append hs ht hnames
  refine ⟨_, hwhole, rfl, fun isa => ⟨?_, Program.locations_append _ _ isa⟩⟩
  have hresults := Program.analyse_eq_ok (Listing.wellFormed_of_parse hwhole) isa
  rw [Program.findings_append] at hresults
  exact ⟨_, _, Program.analyse_eq_ok (Listing.wellFormed_of_parse hs) isa,
    Program.analyse_eq_ok (Listing.wellFormed_of_parse ht) isa, hresults⟩

/-- A function, and a comment with which the text ends. -/
def remarkedListing : String := "func @f \x7b a: ret \x7d // end"

/-- A function with a loop. -/
def loopListing : String := "func @g \x7b a: br a, b b: ret \x7d"

/-- The comment ends before the second listing, and the loop is found in the second function. -/
theorem analyse_of_parse_append_remarkedListing :
    ∃ whole, Listing.parse (remarkedListing ++ "\n" ++ loopListing) = .ok whole ∧
      whole.functions.map Func.name = ["@f", "@g"] ∧
      whole.analyse .x86 = .ok [⟨10000, "@f", [], [], ⟨1, 0, 0, 0, 1⟩⟩,
        ⟨10001, "@g", [⟨0, 0, 0, 1, [0], [], [0]⟩], [], ⟨2, 1, 0, 1, 1⟩⟩] ∧
      whole.locations .x86 = [⟨"@f", "a", 0, 10000⟩, ⟨"@g", "a", 0, 10001⟩,
        ⟨"@g", "b", 1, 10001⟩] := by
  have hs : Listing.parse remarkedListing =
      .ok ⟨[.ofBlocks "@f" [("a", [.ret none])]]⟩ := by decide +kernel
  have ht : Listing.parse loopListing =
      .ok ⟨[.ofBlocks "@g" [("a", [.branch none 0 1]), ("b", [.ret none])]]⟩ := by
    decide +kernel
  obtain ⟨whole, hwhole, hfunctions, hall⟩ := analyse_of_parse_append hs ht (by decide +kernel)
  obtain ⟨⟨results, results', hfirst, hsecond, hresults⟩, hlocations⟩ := hall .x86
  have hone : (Program.mk [.ofBlocks "@f" [("a", [.ret none])]]).analyse .x86 =
      .ok [⟨10000, "@f", [], [], ⟨1, 0, 0, 0, 1⟩⟩] := by decide +kernel
  have htwo : (Program.mk [.ofBlocks "@g" [("a", [.branch none 0 1]),
      ("b", [.ret none])]]).analyse .x86 =
        .ok [⟨10000, "@g", [⟨0, 0, 0, 1, [0], [], [0]⟩], [], ⟨2, 1, 0, 1, 1⟩⟩] := by
    decide +kernel
  obtain rfl := Except.ok.inj (hfirst.symm.trans hone)
  obtain rfl := Except.ok.inj (hsecond.symm.trans htwo)
  refine ⟨whole, hwhole, ?_, hresults, ?_⟩
  · rw [hfunctions]
    rfl
  · rw [hlocations]
    decide +kernel

end Rejoin
