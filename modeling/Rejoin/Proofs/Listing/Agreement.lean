import Rejoin.Proofs.Listing.ParseErrors
import Rejoin.Proofs.Listing.RoundTrip

/-!
# Texts with the same tokens

The parser looks at spans only to report them. Two of its states are alike if the same rows of
tokens complete them to the same listing, `State.Alike`. They go on, or stop, at the same tokens and
expect the same, so two texts with the same tokens are read alike, `parse_agree`: as the same
program, or with errors of one kind that are shown in the same words.
-/

namespace Rejoin

/-- The diagnostics have the same words; what they point at may differ. -/
structure Diagnostic.SameWords (first second : Diagnostic) : Prop where
  /-- They have the same message. -/
  message : first.message = second.message
  /-- They have the same code. -/
  code : first.code = second.code
  /-- They give the same hint, or none. -/
  help : first.help = second.help

namespace Listing

/-! ## Errors that say the same -/

/-- Errors of one kind, with the same expectations. -/
inductive ParseError.Agrees : ParseError → ParseError → Prop
  | invalidToken (first second : Nat) : Agrees (.invalidToken first) (.invalidToken second)
  | unexpectedEnd (first second : Nat) (expected : List Terminal) :
      Agrees (.unexpectedEnd first expected) (.unexpectedEnd second expected)
  | unexpectedToken (first second : Span) (expected : List Terminal) :
      Agrees (.unexpectedToken first expected) (.unexpectedToken second expected)
  | literalOutOfRange : Agrees .literalOutOfRange .literalOutOfRange

/-- Errors of one kind that differ at most in the bytes they point at. -/
inductive Error.Agrees : Error → Error → Prop
  | parse {first second : ParseError} (h : first.Agrees second) :
      Agrees (.parse first) (.parse second)
  | lower {first second : LowerError} (h : first.Agrees second) :
      Agrees (.lower first) (.lower second)

/-- Parse errors that agree are reported in the same words. -/
theorem ParseError.Agrees.sameWords {first second : ParseError} (h : first.Agrees second) :
    first.diagnostic.SameWords second.diagnostic := by
  cases h <;> exact ⟨rfl, rfl, rfl⟩

theorem LowerError.Agrees.sameWords {first second : LowerError} (h : first.Agrees second) :
    first.diagnostic.SameWords second.diagnostic := by
  cases first <;> cases second
  case duplicateFunction.duplicateFunction | duplicateLabel.duplicateLabel |
      unknownLabel.unknownLabel =>
    rename_i first second
    obtain ⟨first, _⟩ := first
    obtain ⟨second, _⟩ := second
    obtain rfl : first = second := h
    exact ⟨rfl, rfl, rfl⟩
  case afterTerminator.afterTerminator => exact ⟨rfl, rfl, rfl⟩
  all_goals exact h.elim

theorem Error.Agrees.sameWords {first second : Error} (h : first.Agrees second) :
    first.diagnostic.SameWords second.diagnostic := by
  cases h with
  | parse h => exact h.sameWords
  | lower h => exact h.sameWords

/-! ## States that are alike -/

namespace State

/-- The same rows of tokens complete both states to the same listing. -/
def Alike (s t : State) : Prop :=
  ∀ tokens listing, s.Completes tokens listing ↔ t.Completes tokens listing

variable {s t : State} {a b : Spanned Token}

theorem Alike.symm (h : s.Alike t) : t.Alike s :=
  fun tokens listing => (h tokens listing).symm

/-- What one state goes on with, the other goes on with, and to a state that is alike. -/
theorem Alike.step (h : s.Alike t) (hval : a.val = b.val) {next : State}
    (hnext : s.step a = some next) : ∃ later, t.step b = some later ∧ next.Alike later := by
  obtain ⟨tokens, listing, hcompletes, -⟩ := next.exists_completes
  have hs : s.Completes (a.val :: tokens) listing :=
    (completes_cons_iff s a).mpr ⟨_, hnext, hcompletes⟩
  rw [hval] at hs
  obtain ⟨later, hlater, -⟩ := (completes_cons_iff t b).mp ((h _ _).mp hs)
  refine ⟨later, hlater, fun rest listing => ?_⟩
  calc next.Completes rest listing
    _ ↔ s.Completes (a.val :: rest) listing := by rw [completes_cons_iff]; simp [hnext]
    _ ↔ t.Completes (b.val :: rest) listing := by rw [hval, h]
    _ ↔ later.Completes rest listing := by rw [completes_cons_iff]; simp [hlater]

/-- A token that cannot follow in one state cannot follow in a state that is alike. -/
theorem Alike.step_eq_none (h : s.Alike t) (hval : a.val = b.val) (hnone : s.step a = none) :
    t.step b = none := by
  rw [Option.eq_none_iff_forall_ne_some]
  intro later hlater
  obtain ⟨next, hnext, -⟩ := h.symm.step hval.symm hlater
  rw [hnone] at hnext
  cases hnext

/-- States that are alike expect the same tokens. -/
theorem Alike.expected_eq (h : s.Alike t) : s.expected = t.expected := by
  refine List.filter_congr fun terminal _ => ?_
  rw [Bool.eq_iff_iff, Option.isSome_iff_exists, Option.isSome_iff_exists]
  constructor
  · rintro ⟨next, hnext⟩
    obtain ⟨later, hlater, -⟩ := h.step rfl hnext
    exact ⟨later, hlater⟩
  · rintro ⟨later, hlater⟩
    obtain ⟨next, hnext, -⟩ := h.symm.step rfl hlater
    exact ⟨next, hnext⟩

/-- Listings that say the same, or errors that do. -/
inductive ReadAlike : Except ParseError Tree → Except ParseError Tree → Prop
  | ok {first second : Tree} (h : first.plain = second.plain) : ReadAlike (.ok first) (.ok second)
  | error {first second : ParseError} (h : first.Agrees second) :
      ReadAlike (.error first) (.error second)

variable {lastA lastB : Nat}

/-- States that are alike end alike. -/
theorem Alike.finish (h : s.Alike t) :
    ReadAlike (s.finish lastA .complete) (t.finish lastB .complete) := by
  by_cases hends : ∃ listing, s.Completes [] listing
  · obtain ⟨listing, hs⟩ := hends
    obtain ⟨first, hfirst, hplain⟩ := exists_finish_eq_ok_iff.mpr ⟨rfl, hs⟩
    obtain ⟨second, hsecond, hsame⟩ := exists_finish_eq_ok_iff.mpr ⟨rfl, (h _ _).mp hs⟩
    rw [hfirst, hsecond]
    exact .ok (hplain.trans hsame.symm)
  · have hends' : ¬∃ listing, t.Completes [] listing := by
      rintro ⟨listing, ht⟩
      exact hends ⟨listing, (h _ _).mpr ht⟩
    rw [finish_eq_error fun hcomplete => hends hcomplete.2,
      finish_eq_error fun hcomplete => hends' hcomplete.2]
    simp only [endError, h.expected_eq]
    exact .error (.unexpectedEnd _ _ _)

/-- A literal that does not fit is reported alike: what counts is the tokens behind it. -/
theorem Alike.literalError (h : s.Alike t) {as bs : List (Spanned Token)}
    (hvals : as.map Spanned.val = bs.map Spanned.val) :
    (s.literalError lastA .complete as).Agrees (t.literalError lastB .complete bs) := by
  cases as with
  | nil =>
    obtain rfl := List.map_eq_nil_iff.mp hvals.symm
    simp only [State.literalError, endError, h.expected_eq]
    exact .unexpectedEnd _ _ _
  | cons a as =>
    cases bs with
    | nil => cases hvals
    | cons b bs =>
      obtain ⟨hval, -⟩ := List.cons.inj hvals
      simp only [State.literalError, hval, h.expected_eq]
      split
      · exact .literalOutOfRange
      · exact .unexpectedToken _ _ _

/-- **From states that are alike, the same tokens are read alike.** -/
theorem Alike.run (h : s.Alike t) {as bs : List (Spanned Token)}
    (hvals : as.map Spanned.val = bs.map Spanned.val) :
    ReadAlike (s.run lastA .complete as) (t.run lastB .complete bs) := by
  -- one token at a time, on both sides
  induction as generalizing s t lastA lastB bs with
  | nil =>
    obtain rfl := List.map_eq_nil_iff.mp hvals.symm
    exact h.finish
  | cons a as ih =>
    cases bs with
    | nil => cases hvals
    | cons b bs =>
      obtain ⟨hval, hrest⟩ := List.cons.inj hvals
      cases hstep : s.step a with
      | none =>
        rw [run_cons_of_step_eq_none hstep, run_cons_of_step_eq_none (h.step_eq_none hval hstep),
          h.expected_eq]
        exact .error (.unexpectedToken _ _ _)
      | some next =>
        obtain ⟨later, hlater, halike⟩ := h.step hval hstep
        by_cases hfits : LiteralsFit [a.val]
        · rw [run_cons_of_literalsFit hstep hfits, run_cons_of_literalsFit hlater (hval ▸ hfits)]
          exact ih halike hrest
        · rw [run_cons_of_not_literalsFit hstep hfits,
            run_cons_of_not_literalsFit hlater (hval ▸ hfits)]
          exact .error (halike.literalError hrest)

end State

/-- Two texts with the same tokens are read as the same program, or with errors that agree. -/
theorem parse_agree {s t : String} {as bs : List (Spanned Token)}
    (hs : lex s.toList = ⟨as, .complete⟩) (ht : lex t.toList = ⟨bs, .complete⟩)
    (hvals : as.map Spanned.val = bs.map Spanned.val) :
    (∃ program, parse s = .ok program ∧ parse t = .ok program) ∨
      ∃ first second, parse s = .error first ∧ parse t = .error second ∧ first.Agrees second := by
  have hread : State.ReadAlike (parseTree s) (parseTree t) := by
    rw [parseTree, hs, parseTree, ht]
    exact State.Alike.run (fun _ _ => Iff.rfl) hvals
  rw [parse, parse]
  generalize parseTree s = first at hread
  generalize parseTree t = second at hread
  cases hread with
  | error h => exact .inr ⟨_, _, rfl, rfl, .parse h⟩
  | ok h =>
    have hlower := Tree.lower_agree h
    dsimp only
    generalize Tree.lower _ = first at hlower
    generalize Tree.lower _ = second at hlower
    cases hlower with
    | ok program => exact .inl ⟨program, rfl, rfl⟩
    | error h => exact .inr ⟨_, _, rfl, rfl, .lower h⟩

end Listing

end Rejoin
