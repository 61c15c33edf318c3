import Rejoin.Listing.Lowering
import Rejoin.Proofs.Listing.Parsing

/-!
# Parse errors

A run of tokens is viable if some listing starts with it. Every state of the parser can be completed
to a listing, so the parser gets through a run of tokens exactly if the run is viable. It therefore
stops at the first token after the longest viable run, and the classes of tokens on which it does
not stop are those that keep the run viable.
-/

namespace Rejoin.Listing

/-! ## Specification -/

/-- Some listing starts with these tokens. -/
def Viable (tokens : List Token) : Prop :=
  ∃ rest listing, Derives (tokens ++ rest) listing ∧ LiteralsFit (tokens ++ rest)

/-- The longest run of initial tokens with which some listing starts. -/
structure IsLongestViable (tokens run : List (Spanned Token)) : Prop where
  /-- The tokens start with it. -/
  starts : run <+: tokens
  /-- Some listing starts with it. -/
  viable : Viable (run.map Spanned.val)
  /-- No longer run will do. -/
  longest : ∀ other, other <+: tokens → Viable (other.map Spanned.val) → other.length ≤ run.length

/-- The classes of tokens with which a run can go on. -/
structure IsExpectation (run : List Token) (expected : List Terminal) : Prop where
  /-- They are listed in the fixed order. -/
  sublist : expected.Sublist Terminal.all
  /-- None is listed twice. -/
  nodup : expected.Nodup
  /-- They are the classes of the tokens that keep the run viable. -/
  mem_iff : ∀ terminal,
    terminal ∈ expected ↔ ∃ token : Token, token.terminal = terminal ∧ Viable (run ++ [token])
  /-- There always is one. -/
  ne_nil : expected ≠ []

/-- What is shown of an error: one place of the text, and perhaps a hint. -/
def Error.Shows (error : Error) (offset length : Nat) (help : Option String) : Prop :=
  error.diagnostic.help = help ∧ ∃ remark, error.diagnostic.labels = [⟨offset, length, remark⟩]

/-! ## Every state can be completed -/

/-- From every phase the instruction can be finished, with literals that fit. -/
theorem Phase.exists_finishes (phase : Phase) :
    ∃ tokens insts, phase.Finishes tokens insts ∧ LiteralsFit tokens := by
  cases phase with
  | idle => exact ⟨[], _, ⟨rfl, rfl⟩, nofun⟩
  | operation span opcode operands listEnd =>
    exact ⟨[], _, ⟨_, _, ListEnd.finishes_nil_iff.mpr ⟨rfl, rfl⟩, rfl⟩, nofun⟩
  | arrow start opcode operands => exact ⟨_, _, ⟨"%x", rfl, rfl⟩, by simp [LiteralsFit]⟩
  | branch start => exact ⟨_, _, ⟨_, .branch "x" "x", rfl⟩, by simp [LiteralsFit]⟩
  | cond start operand => exact ⟨_, _, ⟨"x", "x", rfl, rfl⟩, by simp [LiteralsFit]⟩
  | condComma start operand => exact ⟨_, _, ⟨"x", "x", rfl, rfl⟩, by simp [LiteralsFit]⟩
  | onTrue start operand target => exact ⟨_, _, ⟨"x", rfl, rfl⟩, by simp [LiteralsFit]⟩
  | onTrueComma start operand target => exact ⟨_, _, ⟨"x", rfl, rfl⟩, by simp [LiteralsFit]⟩
  | jump start => exact ⟨_, _, ⟨"x", rfl, rfl⟩, by simp [LiteralsFit]⟩
  | ret span => exact ⟨[], _, ⟨_, .ret, rfl⟩, nofun⟩

theorem restOfFunc_closing (func : FuncPart) : RestOfFunc func [.closing] func.close :=
  restOfFunc_cons_iff.mpr (.inl ⟨rfl, restOfListing_nil_iff.mpr rfl⟩)

theorem restOfBlock_closing (block : BlockPart) : RestOfBlock block [.closing] block.close.close :=
  restOfBlock_cons_iff.mpr (.inr (restOfFunc_closing block.close))

/-- A listing can be completed from everywhere, even without literals. -/
theorem State.exists_completes (state : State) :
    ∃ tokens listing, state.Completes tokens listing ∧ LiteralsFit tokens := by
  cases state with
  | outside done => exact ⟨[], _, restOfListing_nil_iff.mpr rfl, nofun⟩
  | header done start =>
    exact ⟨_, _, ⟨"@x", _, rfl, restOfFunc_closing _⟩, by simp [LiteralsFit]⟩
  | named done start name => exact ⟨_, _, ⟨_, rfl, restOfFunc_closing _⟩, by simp [LiteralsFit]⟩
  | body func => exact ⟨_, _, restOfFunc_closing _, by simp [LiteralsFit]⟩
  | block b phase =>
    obtain ⟨tokens, insts, hfinishes, hfits⟩ := phase.exists_finishes
    exact ⟨_, _, ⟨tokens, _, insts, rfl, hfinishes, restOfBlock_closing _⟩,
      by simpa [LiteralsFit] using hfits⟩

/-! ## Viable runs -/

namespace State

variable {state next : State} {last : Nat} {ending : Ending} {run rest : List (Spanned Token)}
  {tokens : List Token} {listing : List PlainFunc}

/-- A run of tokens is taken off the rows that complete a state, as one token is. -/
theorem completes_append_iff :
    state.Completes (run.map Spanned.val ++ tokens) listing ↔
      ∃ next, run.foldlM step state = some next ∧ next.Completes tokens listing := by
  induction run generalizing state with
  | nil => simp
  | cons token run ih =>
    rw [List.map_cons, List.cons_append, completes_cons_iff]
    simp only [ih, List.foldlM_cons, Option.bind_eq_bind, Option.bind_eq_some_iff]
    grind

/-- A run of tokens without a fault brings the parser to the state it leads to. -/
theorem run_append (hrun : run.foldlM step state = some next)
    (hfits : LiteralsFit (run.map Spanned.val)) :
    state.run last ending (run ++ rest) =
      next.run ((run.getLast?.map fun token => token.span.stop).getD last) ending rest := by
  -- token by token; the end of the last token is carried along for the error at the end
  induction run generalizing state last with
  | nil =>
    obtain rfl := Option.some.inj hrun
    rfl
  | cons token run ih =>
    rw [List.foldlM_cons, Option.bind_eq_bind, Option.bind_eq_some_iff] at hrun
    obtain ⟨middle, hstep, hrun⟩ := hrun
    rw [List.map_cons, literalsFit_cons_iff] at hfits
    rw [List.cons_append, run_cons_of_literalsFit hstep hfits.1, ih hrun hfits.2]
    cases run <;> simp [List.getLast?_cons]

/-- The parser reads a run of tokens, and stops after it at a token or at the end of the text. -/
theorem exists_stop (state : State) (tokens : List (Spanned Token)) :
    ∃ run rest next, tokens = run ++ rest ∧ run.foldlM step state = some next ∧
      ∀ token, rest.head? = some token → next.step token = none := by
  induction tokens generalizing state with
  | nil => exact ⟨[], [], state, rfl, rfl, nofun⟩
  | cons token tokens ih =>
    cases hstep : state.step token with
    | none => exact ⟨[], token :: tokens, state, rfl, rfl, by simpa using hstep⟩
    | some middle =>
      obtain ⟨run, rest, next, rfl, hrun, hstop⟩ := ih middle
      exact ⟨token :: run, rest, next, rfl, by simp [hstep, hrun], hstop⟩

/-- Whether a token can follow depends on its class alone. -/
theorem isSome_step_sample (state : State) (token : Spanned Token) :
    (state.step ⟨token.val.terminal.sample, ⟨0, 0⟩⟩).isSome = (state.step token).isSome := by
  obtain ⟨token, span⟩ := token
  cases state with
  | block b phase =>
    cases phase with
    | operation start opcode operands listEnd => cases listEnd <;> cases token <;> rfl
    | _ => cases token <;> rfl
  | _ => cases token <;> rfl

/-- The classes on which the parser does not stop, as classes of tokens whose literals fit. -/
theorem mem_expected_iff {terminal : Terminal} :
    terminal ∈ state.expected ↔ ∃ token : Token, token.terminal = terminal ∧ LiteralsFit [token] ∧
      ∃ next, state.step ⟨token, ⟨0, 0⟩⟩ = some next := by
  have hall : terminal ∈ Terminal.all := by cases terminal <;> decide
  simp only [expected, List.mem_filter, hall, true_and, ← Option.isSome_iff_exists]
  constructor
  · intro h
    have hsample : terminal.sample.terminal = terminal := by cases terminal <;> rfl
    have hfits : LiteralsFit [terminal.sample] := by
      cases terminal <;> simp [LiteralsFit, Terminal.sample]
    exact ⟨terminal.sample, hsample, hfits, h⟩
  · rintro ⟨token, rfl, -, h⟩
    rwa [isSome_step_sample state ⟨token, ⟨0, 0⟩⟩]

/-- Something is expected in every state. -/
theorem expected_ne_nil (state : State) : state.expected ≠ [] := by
  obtain ⟨tokens, listing, hcompletes, hfits⟩ := state.exists_completes
  cases tokens with
  | nil =>
    obtain ⟨done, rfl, -⟩ := completes_nil_iff.mp hcompletes
    exact List.ne_nil_of_mem
      (mem_expected_iff.mpr ⟨.func, rfl, by simp [LiteralsFit], _, rfl⟩)
  | cons token tokens =>
    obtain ⟨next, hnext, -⟩ := (completes_cons_iff state ⟨token, ⟨0, 0⟩⟩).mp hcompletes
    exact List.ne_nil_of_mem
      (mem_expected_iff.mpr ⟨token, rfl, (literalsFit_cons_iff.mp hfits).1, next, hnext⟩)

/-- A text that does not stop at the end of a listing is at fault. -/
theorem finish_eq_error (h : ¬(ending = .complete ∧ ∃ listing, state.Completes [] listing)) :
    state.finish last ending = .error (state.endError last ending) := by
  cases state with
  | outside done =>
    cases ending with
    | complete => exact absurd ⟨rfl, _, completes_nil_iff.mpr ⟨done, rfl, rfl⟩⟩ h
    | invalid position => rfl
  | _ => rfl

end State

theorem literalsFit_append_iff {first second : List Token} :
    LiteralsFit (first ++ second) ↔ LiteralsFit first ∧ LiteralsFit second := by
  simp only [LiteralsFit, List.mem_append]
  grind

/-- A run of tokens is viable exactly if the parser gets through it. -/
theorem viable_iff (run : List (Spanned Token)) :
    Viable (run.map Spanned.val) ↔ LiteralsFit (run.map Spanned.val) ∧
      ∃ state, run.foldlM State.step (.outside []) = some state := by
  unfold Viable
  simp only [← completes_outside_nil_iff, State.completes_append_iff, literalsFit_append_iff]
  constructor
  · rintro ⟨rest, listing, ⟨state, hrun, -⟩, hfits, -⟩
    exact ⟨hfits, state, hrun⟩
  · rintro ⟨hfits, state, hrun⟩
    obtain ⟨rest, listing, hcompletes, hrest⟩ := state.exists_completes
    exact ⟨rest, listing, ⟨state, hrun, hcompletes⟩, hfits, hrest⟩

/-- After a viable run, the parser expects the classes with which the run can go on. -/
theorem isExpectation_expected {run : List (Spanned Token)} {state : State}
    (hrun : run.foldlM State.step (.outside []) = some state)
    (hfits : LiteralsFit (run.map Spanned.val)) :
    IsExpectation (run.map Spanned.val) state.expected where
  sublist := List.filter_sublist
  nodup := List.Pairwise.filter _ (by decide)
  mem_iff terminal := by
    have hgoes (token : Token) : Viable (run.map Spanned.val ++ [token]) ↔
        LiteralsFit [token] ∧ ∃ next, state.step ⟨token, ⟨0, 0⟩⟩ = some next := by
      have h := viable_iff (run ++ [⟨token, ⟨0, 0⟩⟩])
      simpa [literalsFit_append_iff, hfits, hrun] using h
    simp only [hgoes, State.mem_expected_iff]
  ne_nil := state.expected_ne_nil

/-- The run at which the parser stops is the longest viable one. -/
theorem isLongestViable_of_stop {run rest : List (Spanned Token)} {state : State}
    (hrun : run.foldlM State.step (.outside []) = some state)
    (hfits : LiteralsFit (run.map Spanned.val))
    (hstop : ∀ token, rest.head? = some token → state.step token = none) :
    IsLongestViable (run ++ rest) run where
  starts := List.prefix_append run rest
  viable := (viable_iff run).mpr ⟨hfits, state, hrun⟩
  longest other hother hviable := by
    by_contra! hlonger
    -- a longer run has the token at which the parser stops
    obtain ⟨more, rfl⟩ :=
      List.prefix_of_prefix_length_le (List.prefix_append run rest) hother hlonger.le
    cases more with
    | nil => simp at hlonger
    | cons token more =>
      obtain ⟨others, rfl⟩ := (List.prefix_append_right_inj run).mp hother
      obtain ⟨-, later, hlater⟩ := (viable_iff _).mp hviable
      simp [hrun, hstop token rfl] at hlater

/-- **Parse errors are exact.** A text that is rejected although its literals fit is at fault right
after the longest run of tokens with which a listing can start: with the token that follows, with
the byte at which no token starts, or with the end of the text. What is expected there are the
classes of tokens with which the run can go on. -/
theorem parse_error_exact {text : String} {tokens : List (Spanned Token)} {ending : Ending}
    (hscan : Scans 0 text.toList tokens ending) (hfits : LiteralsFit (tokens.map Spanned.val))
    (hrejected : ¬(ending = .complete ∧ ∃ listing, Derives (tokens.map Spanned.val) listing)) :
    ∃ run expected error, IsLongestViable tokens run ∧
      IsExpectation (run.map Spanned.val) expected ∧ parse text = .error error ∧
      ((∃ token, run ++ [token] <+: tokens ∧
          error = .parse (.unexpectedToken token.span expected) ∧
          error.Shows token.span.start (token.span.stop - token.span.start)
            (some (expectation expected))) ∨
        (∃ position, run = tokens ∧ ending = .invalid position ∧
          error = .parse (.invalidToken position) ∧ error.Shows position 1 none) ∨
        (∃ last, run = tokens ∧ ending = .complete ∧ tokens.getLast? = some last ∧
          error = .parse (.unexpectedEnd last.span.stop expected) ∧
          error.Shows last.span.stop 1 (some (expectation expected)))) := by
  -- the run that the parser reads is the longest viable one; what stops it is the fault
  obtain ⟨run, rest, state, rfl, hrun, hstop⟩ := State.exists_stop (.outside []) tokens
  obtain ⟨hfitsRun, -⟩ := literalsFit_append_iff.mp (List.map_append ▸ hfits)
  have hparse := (parseTree_eq_run hscan).trans (State.run_append hrun hfitsRun)
  refine ⟨run, state.expected, ?_⟩
  cases rest with
  | cons token rest =>
    rw [State.run_cons_of_step_eq_none (hstop token rfl)] at hparse
    refine ⟨_, isLongestViable_of_stop hrun hfitsRun hstop,
      isExpectation_expected hrun hfitsRun, by rw [parse, hparse], .inl ⟨token, ?_, rfl, ?_⟩⟩
    · exact ⟨rest, by simp⟩
    · exact ⟨rfl, _, rfl⟩
  | nil =>
    -- all tokens are read, so the text is at fault for how it ends
    have hlongest := isLongestViable_of_stop hrun hfitsRun hstop
    rw [List.append_nil] at hrejected hlongest ⊢
    have hincomplete : ¬(ending = .complete ∧ ∃ listing, state.Completes [] listing) := by
      rintro ⟨hending, listing, hcompletes⟩
      refine hrejected ⟨hending, listing, completes_outside_nil_iff.mp ?_⟩
      rw [← List.append_nil (run.map _)]
      exact State.completes_append_iff.mpr ⟨state, hrun, hcompletes⟩
    rw [State.run, State.finish_eq_error hincomplete] at hparse
    refine ⟨_, hlongest, isExpectation_expected hrun hfitsRun, by rw [parse, hparse], .inr ?_⟩
    cases ending with
    | invalid position => exact .inl ⟨position, rfl, rfl, rfl, rfl, _, rfl⟩
    | complete =>
      cases hlast : run.getLast? with
      | some last => exact .inr ⟨last, rfl, rfl, rfl, rfl, rfl, _, rfl⟩
      | none =>
        -- the empty listing is no fault
        obtain rfl := List.getLast?_eq_none_iff.mp hlast
        exact absurd ⟨rfl, [], Phrases.nil⟩ hrejected

/-- After the name of a function an opening brace is expected, and nothing else. -/
theorem isExpectation_opening : IsExpectation [.func, .symbol "@f"] [.opening] := by
  have hscan : Scans 0 "func @f".toList [⟨.func, 0, 4⟩, ⟨.symbol "@f", 5, 7⟩] .complete :=
    scans_iff.mpr (by decide +kernel)
  have hrejected (listing : List PlainFunc) : ¬Derives [.func, .symbol "@f"] listing := by
    rw [← completes_outside_nil_iff, State.completes_outside, restOfListing_cons_iff]
    simp
  have hparse : parse "func @f" = .error (.parse (.unexpectedEnd 7 [.opening])) := by
    decide +kernel
  obtain ⟨run, expected, error, -, hexpected, herror, hcases⟩ :=
    parse_error_exact hscan (by simp [LiteralsFit]) (by simpa using hrejected)
  obtain rfl := Except.error.inj (herror.symm.trans hparse)
  rcases hcases with ⟨_, -, h, -⟩ | ⟨_, -, -, h, -⟩ | ⟨last, rfl, -, -, h, -⟩
  · cases h
  · cases h
  · obtain ⟨-, rfl⟩ := ParseError.unexpectedEnd.inj (Error.parse.inj h)
    exact hexpected

end Rejoin.Listing
