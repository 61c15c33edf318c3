import Rejoin.Proofs.Listing.Parsing

/-!
# Where the parts of a listing stand

The grammar of listings once more, now with the bytes of each token and of each part of the tree.
`InstAt`, `BlockAt` and `FuncAt` say which tokens a part is made of and which bytes it is given. A
name has the bytes of its token, a label those of its token without the colon. An instruction
extends from its first token to its last, with one exception: an opcode that stands alone extends to
the next token, whatever lies between.

Every state of the parser keeps account of the tokens read so far, `State.StandsIn`. One step
prolongs the account by the token it reads (`State.StandsIn.step`), so a tree that is read from a
text stands in the tokens of the text: `standsIn_of_parseTree`.
-/

namespace Rejoin.Listing

/-! ## Parts and their tokens -/

/-- Where some tokens start, `next` being where the token behind them starts. -/
def startOf (tokens : List (Spanned Token)) (next : Nat) : Nat :=
  (tokens.head?.map fun token => token.span.start).getD next

/-- The token of a target. -/
def targetToken (target : Spanned String) : Spanned Token :=
  ⟨.ident target.val, target.span⟩

/-- Whether an instruction is an opcode that stands alone. -/
def loneOpcode {τ : Type} : InstDef τ → Bool
  | .op _ [] none => true
  | .op .. | .branch .. | .jump _ | .ret _ => false

/-- The tokens of an instruction, in front of a token that starts at `next`. -/
structure InstAt (tokens : List (Spanned Token)) (next : Nat) (inst : Spanned LabelInst) :
    Prop where
  /-- The instruction is made of them. -/
  phrase : InstPhrase (tokens.map Spanned.val) (plainInst inst)
  /-- Its targets stand among them, in order. -/
  targets : (inst.val.targets.map targetToken).Sublist tokens
  /-- It starts where the first of them does. -/
  start : tokens.head?.map (fun token => token.span.start) = some inst.span.start
  /-- It ends where the last of them does, or at the next token. -/
  stop : if loneOpcode inst.val then inst.span.stop = next
    else tokens.getLast?.map (fun token => token.span.stop) = some inst.span.stop

/-- Parts of one kind, one after the other, in front of a token that starts at `next`. -/
inductive RowAt {α : Type} (part : List (Spanned Token) → Nat → α → Prop) :
    List (Spanned Token) → Nat → List α → Prop
  | nil (next : Nat) : RowAt part [] next []
  | cons {own rest : List (Spanned Token)} {next : Nat} {first : α} {others : List α} :
      part own (startOf rest next) first → RowAt part rest next others →
      RowAt part (own ++ rest) next (first :: others)

/-- The tokens of a block. Its label has the bytes of the first one without the colon. -/
inductive BlockAt : List (Spanned Token) → Nat → BlockDef → Prop
  | intro {tokens : List (Spanned Token)} {next : Nat} {insts : List (Spanned LabelInst)}
      (name : String) (span : Span) : RowAt InstAt tokens next insts →
      BlockAt (⟨.label name, span⟩ :: tokens) next
        ⟨⟨name, ⟨span.start, span.stop - 1⟩⟩, insts⟩

/-- The tokens of a function. -/
inductive FuncAt : List (Spanned Token) → Nat → Spanned FuncDef → Prop
  | intro {tokens : List (Spanned Token)} {next : Nat} {blocks : List BlockDef}
      (first opening last : Span) (name : Spanned String) :
      RowAt BlockAt tokens last.start blocks →
      FuncAt (⟨.func, first⟩ :: ⟨.symbol name.val, name.span⟩ :: ⟨.opening, opening⟩ ::
        (tokens ++ [⟨.closing, last⟩])) next ⟨⟨name, blocks⟩, ⟨first.start, last.stop⟩⟩

/-- The functions stand in these tokens. Where the token behind them starts does not matter. -/
def FuncsAt (tokens : List (Spanned Token)) (functions : List (Spanned FuncDef)) : Prop :=
  ∀ next, RowAt FuncAt tokens next functions

/-- A listing stands in these tokens. -/
def Tree.StandsIn (listing : Tree) (tokens : List (Spanned Token)) : Prop :=
  FuncsAt tokens listing.functions

/-- The start of a row is that of its first token, or of what follows it. -/
theorem startOf_append (tokens others : List (Spanned Token)) (next : Nat) :
    startOf (tokens ++ others) next = startOf tokens (startOf others next) := by
  cases tokens <;> rfl

/-- A part that follows a row prolongs it. -/
theorem RowAt.snoc {α : Type} {part : List (Spanned Token) → Nat → α → Prop}
    {tokens own : List (Spanned Token)} {next : Nat} {all : List α} {last : α}
    (h : RowAt part tokens (startOf own next) all) (hlast : part own next last) :
    RowAt part (tokens ++ own) next (all ++ [last]) := by
  generalize hstart : startOf own next = start at h
  induction h with
  | nil =>
    have hrow := RowAt.cons hlast (RowAt.nil next)
    rwa [List.append_nil] at hrow
  | cons hfirst _ ih =>
    subst hstart
    rw [List.append_assoc, List.cons_append]
    refine .cons ?_ (ih rfl)
    rwa [startOf_append]

/-! ## Instructions of which a part has been read -/

theorem instPhrase_of_phrases {tokens : List Token} {inst : InstDef String}
    (h : Phrases InstPhrase tokens [inst]) : InstPhrase tokens inst := by
  generalize hall : [inst] = all at h
  cases h with
  | nil => cases hall
  | cons hfirst hothers =>
    obtain ⟨rfl, rfl⟩ := List.cons.inj hall
    cases hothers
    rwa [List.append_nil]

namespace Phase

/-- Where the instruction starts. -/
def start? : Phase → Option Nat
  | .idle => none
  | .operation span .. | .ret span => some span.start
  | .arrow start .. | .branch start | .cond start _ | .condComma start _ | .onTrue start ..
  | .onTrueComma start .. | .jump start => some start

/-- Where the instruction ends if it is complete. -/
def stop? : Phase → Option Nat
  | .operation span .. | .ret span => some span.stop
  | _ => none

/-- The targets read so far. -/
def targets : Phase → List (Spanned String)
  | .onTrue _ _ target | .onTrueComma _ _ target => [target]
  | _ => []

/-- The opcode stands last exactly while there are no operands. -/
def CountsOperands : Phase → Prop
  | .operation _ _ operands listEnd => listEnd = .opcode ↔ operands = []
  | _ => True

/-- The tokens of an instruction of which `phase` has been read. -/
structure StandsIn (phase : Phase) (tokens : List (Spanned Token)) : Prop where
  /-- What completes the phase completes them to an instruction. -/
  phrase : ∀ rest insts, phase.Finishes rest insts →
    Phrases InstPhrase (tokens.map Spanned.val ++ rest) insts
  /-- The targets stand among them, in order. -/
  targets : (phase.targets.map targetToken).Sublist tokens
  /-- The instruction starts where the first of them does. -/
  start : tokens.head?.map (fun token => token.span.start) = phase.start?
  /-- If it is complete it ends where the last of them does. -/
  stop : ∀ stop, phase.stop? = some stop →
    tokens.getLast?.map (fun token => token.span.stop) = some stop
  /-- Operands are counted. -/
  counts : phase.CountsOperands

variable {phase later : Phase} {token : Spanned Token} {inst : Spanned LabelInst}
  {tokens : List (Spanned Token)}

/-- What one more token does to an instruction that it does not complete. -/
theorem advance?_eq_inl (hcounts : phase.CountsOperands)
    (h : phase.advance? token = some (.inl later)) :
    later.start? = phase.start? ∧ phase.start? ≠ none ∧
      (∀ stop, later.stop? = some stop → token.span.stop = stop) ∧
      (later.targets.map targetToken).Sublist (phase.targets.map targetToken ++ [token]) ∧
      later.CountsOperands := by
  obtain ⟨token, span⟩ := token
  revert h
  fun_cases advance? phase ⟨token, span⟩ <;> intro h <;>
    simp only [Option.map_eq_some_iff, Option.some.injEq, Sum.inl.injEq, reduceCtorEq, and_false,
      exists_false] at h
  case case1 =>
    subst h
    have hne := mt hcounts.mpr (by simp)
    simp +zetaDelta [start?, stop?, targets, CountsOperands, hne]
  case case4 | case7 =>
    obtain ⟨operand, -, rfl⟩ := h
    simp +zetaDelta [start?, stop?, targets, CountsOperands]
  case case6 htoken | case9 htoken =>
    -- the token is the target
    subst h htoken
    simp [start?, stop?, targets, CountsOperands, targetToken]
  all_goals
    subst h
    simp [start?, stop?, targets, CountsOperands]

/-- What one more token does to an instruction that it completes. -/
theorem advance?_eq_inr (h : phase.advance? token = some (.inr inst)) :
    phase.start? = some inst.span.start ∧ inst.span.stop = token.span.stop ∧
      loneOpcode inst.val = false ∧
      (inst.val.targets.map targetToken).Sublist (phase.targets.map targetToken ++ [token]) := by
  obtain ⟨token, span⟩ := token
  revert h
  fun_cases advance? phase ⟨token, span⟩ <;> intro h <;>
    simp only [Option.map_eq_some_iff, Option.some.injEq, Sum.inr.injEq, reduceCtorEq, and_false,
      exists_false] at h
  case case5 =>
    subst h
    simp +zetaDelta [start?, targets, loneOpcode, InstDef.targets]
  case case11 htoken | case12 htoken =>
    -- the token is the last target
    subst h htoken
    simp +zetaDelta [start?, targets, loneOpcode, InstDef.targets, targetToken]
  case case13 =>
    obtain ⟨operand, -, rfl⟩ := h
    simp +zetaDelta [start?, targets, loneOpcode, InstDef.targets]

/-- What a phase amounts to: nothing, or an instruction without targets. -/
theorem complete?_cases {next : Nat} {insts : List (Spanned LabelInst)}
    (hcounts : phase.CountsOperands) (h : phase.complete? next = some insts) :
    phase.start? = none ∧ insts = [] ∨ ∃ inst, insts = [inst] ∧
      phase.start? = some inst.span.start ∧ inst.val.targets = [] ∧
      if loneOpcode inst.val then inst.span.stop = next else phase.stop? = some inst.span.stop := by
  revert h
  fun_cases complete? next phase <;> rintro ⟨⟩
  case case1 => exact .inl ⟨rfl, rfl⟩
  case case2 =>
    obtain rfl := hcounts.mp rfl
    exact .inr ⟨_, rfl, rfl, rfl, rfl⟩
  case case3 span opcode operands listEnd hlistEnd =>
    refine .inr ⟨_, rfl, rfl, rfl, ?_⟩
    -- there is an operand, so the opcode does not stand alone
    cases operands with
    | nil => exact absurd (hcounts.mpr rfl) hlistEnd
    | cons operand operands => simp [loneOpcode, stop?]
  case case4 => exact .inr ⟨_, rfl, rfl, rfl, rfl⟩

theorem standsIn_idle : StandsIn .idle [] where
  phrase := by
    rintro _ _ ⟨rfl, rfl⟩
    exact .nil
  targets := List.nil_sublist _
  start := rfl
  stop := nofun
  counts := trivial

/-- The first token of an instruction begins its account. -/
theorem standsIn_singleton
    (hphrase : ∀ rest insts, phase.Finishes rest insts →
      ∃ inst, InstPhrase (token.val :: rest) inst ∧ insts = [inst])
    (hstart : phase.start? = some token.span.start)
    (hstop : ∀ stop, phase.stop? = some stop → token.span.stop = stop)
    (htargets : phase.targets = []) (hcounts : phase.CountsOperands) :
    phase.StandsIn [token] where
  phrase := by
    intro rest insts hfinishes
    obtain ⟨inst, hinst, rfl⟩ := hphrase rest insts hfinishes
    have hrow := Phrases.cons hinst .nil
    rwa [List.append_nil] at hrow
  targets := by
    rw [htargets]
    exact List.nil_sublist _
  start := hstart.symm
  stop := fun stop h => congrArg some (hstop stop h)
  counts := hcounts

namespace StandsIn

variable (h : phase.StandsIn tokens)

include h

/-- The account of an instruction is prolonged by a token that belongs to it. -/
theorem advance_inl (hadvance : phase.advance? token = some (.inl later)) :
    later.StandsIn (tokens ++ [token]) := by
  obtain ⟨hstart, hstarted, hstop, htargets, hcounts⟩ := advance?_eq_inl h.counts hadvance
  refine ⟨fun rest insts hfinishes => ?_, ?_, ?_, fun stop hlater => ?_, hcounts⟩
  · -- what completes the later phase completes this one, behind the token
    have hphase : phase.Finishes (token.val :: rest) insts := by
      rw [finishes_cons_iff, hadvance]
      exact hfinishes
    simpa using h.phrase _ _ hphase
  · exact htargets.trans (h.targets.append_right [token])
  · rw [hstart, ← h.start, List.head?_append_of_ne_nil]
    rintro rfl
    exact hstarted h.start.symm
  · rw [List.getLast?_append, ← hstop stop hlater]
    rfl

/-- A token that completes an instruction completes its account. -/
theorem advance_inr (hadvance : phase.advance? token = some (.inr inst)) (next : Nat) :
    InstAt (tokens ++ [token]) next inst := by
  obtain ⟨hstart, hstop, hlone, htargets⟩ := advance?_eq_inr hadvance
  refine ⟨?_, htargets.trans (h.targets.append_right [token]), ?_, ?_⟩
  · have hphase : phase.Finishes [token.val] [plainInst inst] := by
      rw [finishes_cons_iff, hadvance]
      exact ⟨rfl, rfl⟩
    simpa using instPhrase_of_phrases (h.phrase _ _ hphase)
  · rw [← hstart, ← h.start, List.head?_append_of_ne_nil]
    rintro rfl
    rw [← h.start] at hstart
    cases hstart
  · rw [hlone, hstop, List.getLast?_append]
    rfl

/-- What a phase amounts to stands in the tokens read, in front of the next token. -/
theorem complete {next : Nat} {insts : List (Spanned LabelInst)}
    (hcomplete : phase.complete? next = some insts) :
    tokens = [] ∧ insts = [] ∨ ∃ inst, insts = [inst] ∧ InstAt tokens next inst := by
  rcases complete?_cases h.counts hcomplete with ⟨hstart, rfl⟩ |
    ⟨inst, rfl, hstart, htargets, hstop⟩
  · rw [← h.start, Option.map_eq_none_iff, List.head?_eq_none_iff] at hstart
    exact .inl ⟨hstart, rfl⟩
  · refine .inr ⟨inst, rfl, ?_, ?_, by rw [h.start, hstart], ?_⟩
    · have hphase : phase.Finishes [] [plainInst inst] :=
        (finishes_nil_iff next).mpr ⟨_, hcomplete, rfl⟩
      simpa using instPhrase_of_phrases (h.phrase _ _ hphase)
    · rw [htargets]
      exact List.nil_sublist _
    · cases hlone : loneOpcode inst.val with
      | true => simpa [hlone] using hstop
      | false => simpa [hlone] using h.stop _ (by simpa [hlone] using hstop)

end StandsIn

end Phase

/-! ## States -/

/-- The tokens of a function as far as it has been read, in front of a token that starts at
`next`. -/
def OpenFunc.StandsIn (func : OpenFunc) (tokens : List (Spanned Token)) (next : Nat) : Prop :=
  ∃ before first opening body,
    tokens = before ++ (⟨.func, first⟩ :: ⟨.symbol func.name.val, func.name.span⟩ ::
      ⟨.opening, opening⟩ :: body) ∧
    FuncsAt before func.done.reverse ∧ func.start = first.start ∧
    RowAt BlockAt body next func.blocks.reverse

/-- The tokens of a block as far as it has been read, in front of a token that starts at `next`. -/
def OpenBlock.StandsIn (block : OpenBlock) (tokens : List (Spanned Token)) (next : Nat) : Prop :=
  ∃ before span body,
    tokens = before ++ (⟨.label block.label.val, span⟩ :: body) ∧
    block.label.span = ⟨span.start, span.stop - 1⟩ ∧ block.func.StandsIn before span.start ∧
    RowAt InstAt body next block.insts.reverse

/-- The tokens that have been read on the way to a state. -/
def State.StandsIn : State → List (Spanned Token) → Prop
  | .outside done, tokens => FuncsAt tokens done.reverse
  | .header done start, tokens =>
    ∃ before first, tokens = before ++ [⟨.func, first⟩] ∧ FuncsAt before done.reverse ∧
      start = first.start
  | .named done start name, tokens =>
    ∃ before first, tokens = before ++ [⟨.func, first⟩, ⟨.symbol name.val, name.span⟩] ∧
      FuncsAt before done.reverse ∧ start = first.start
  | .body func, tokens => ∀ next, func.StandsIn tokens next
  | .block b phase, tokens =>
    ∃ before own, tokens = before ++ own ∧ phase.StandsIn own ∧
      ∀ next, b.StandsIn before (startOf own next)

/-- The brace ends the function. -/
theorem OpenFunc.StandsIn.close {func : OpenFunc} {tokens : List (Spanned Token)} {span : Span}
    (h : func.StandsIn tokens span.start) :
    FuncsAt (tokens ++ [⟨.closing, span⟩]) (func.close span.stop).reverse := by
  obtain ⟨before, first, opening, body, rfl, hdone, hstart, hblocks⟩ := h
  -- the functions before this one stand in front of any token, so in front of its first
  intro next
  rw [OpenFunc.close, List.reverse_cons, List.append_assoc, hstart]
  exact (hdone _).snoc (.intro first opening span func.name hblocks)

/-- A block ends in front of the next label or the brace. -/
theorem OpenBlock.StandsIn.close {block : OpenBlock} {tokens : List (Spanned Token)} {next : Nat}
    (h : block.StandsIn tokens next) : block.close.StandsIn tokens next := by
  obtain ⟨func, ⟨name, _⟩, insts⟩ := block
  obtain ⟨before, span, body, rfl, rfl, hfunc, hinsts⟩ := h
  obtain ⟨done, first, opening, blocks, rfl, hdone, hstart, hblocks⟩ := hfunc
  refine ⟨done, first, opening, blocks ++ ⟨.label name, span⟩ :: body, by simp [OpenBlock.close],
    hdone, hstart, ?_⟩
  rw [OpenBlock.close, List.reverse_cons]
  exact RowAt.snoc hblocks (.intro name span hinsts)

/-- A complete instruction is added to the block. -/
theorem OpenBlock.StandsIn.add {block : OpenBlock} {tokens own : List (Spanned Token)} {next : Nat}
    {inst : Spanned LabelInst} (h : block.StandsIn tokens (startOf own next))
    (hinst : InstAt own next inst) :
    OpenBlock.StandsIn { block with insts := inst :: block.insts } (tokens ++ own) next := by
  obtain ⟨before, span, body, rfl, hlabel, hfunc, hinsts⟩ := h
  refine ⟨before, span, body ++ own, by simp, hlabel, hfunc, ?_⟩
  rw [List.reverse_cons]
  exact hinsts.snoc hinst

/-- A label opens a block of the function. -/
theorem OpenFunc.StandsIn.label {func : OpenFunc} {tokens : List (Spanned Token)} {span : Span}
    (h : func.StandsIn tokens span.start) (name : String) :
    (State.block ⟨func, ⟨name, ⟨span.start, span.stop - 1⟩⟩, []⟩ .idle).StandsIn
      (tokens ++ [⟨.label name, span⟩]) := by
  refine ⟨_, [], (List.append_nil _).symm, Phase.standsIn_idle, fun next => ?_⟩
  exact ⟨tokens, span, [], rfl, rfl, h, .nil _⟩

/-- Between two instructions, a token starts an instruction or ends the block. -/
theorem OpenBlock.StandsIn.start {block : OpenBlock} {tokens : List (Spanned Token)}
    {token : Spanned Token} {next : State} (h : block.StandsIn tokens token.span.start)
    (hstart : block.start? token = some next) : next.StandsIn (tokens ++ [token]) := by
  obtain ⟨token, span⟩ := token
  -- the first token of an instruction is the whole of its account
  have hfirst {phase : Phase} (hphase : phase.StandsIn [⟨token, span⟩]) :
      (State.block block phase).StandsIn (tokens ++ [⟨token, span⟩]) :=
    ⟨tokens, [⟨token, span⟩], rfl, hphase, fun _ => h⟩
  cases token with
  | label name =>
    obtain rfl := Option.some.inj hstart
    exact h.close.label name
  | closing =>
    obtain rfl := Option.some.inj hstart
    exact h.close.close
  | br =>
    obtain rfl := Option.some.inj hstart
    exact hfirst (Phase.standsIn_singleton (fun _ _ hinst => hinst) rfl nofun rfl trivial)
  | jmp =>
    obtain rfl := Option.some.inj hstart
    refine hfirst (Phase.standsIn_singleton ?_ rfl nofun rfl trivial)
    rintro _ _ ⟨target, rfl, rfl⟩
    exact ⟨_, .jump target, rfl⟩
  | ret =>
    obtain rfl := Option.some.inj hstart
    exact hfirst (Phase.standsIn_singleton (fun _ _ hinst => hinst) rfl
      (fun _ hstop => Option.some.inj hstop) rfl trivial)
  | ident name =>
    obtain rfl := Option.some.inj hstart
    refine hfirst (Phase.standsIn_singleton ?_ rfl (fun _ hstop => Option.some.inj hstop) rfl
      (by simp [Phase.CountsOperands]))
    rintro rest _ ⟨result, operands, hfinishes, rfl⟩
    exact ⟨_, instPhrase_ident_iff.mpr ⟨result, operands, hfinishes, rfl⟩, rfl⟩
  | _ => cases hstart

/-- **One step of the parser** prolongs its account by the token it reads. -/
theorem State.StandsIn.step {state next : State} {tokens : List (Spanned Token)}
    {token : Spanned Token} (h : state.StandsIn tokens) (hstep : state.step token = some next) :
    next.StandsIn (tokens ++ [token]) := by
  cases state with
  | outside done =>
    obtain ⟨token, span⟩ := token
    cases token <;> cases hstep
    exact ⟨tokens, span, rfl, h, rfl⟩
  | header done start =>
    obtain ⟨token, span⟩ := token
    obtain ⟨before, first, rfl, hdone, hstart⟩ := h
    cases token <;> cases hstep
    exact ⟨before, first, by simp, hdone, hstart⟩
  | named done start name =>
    obtain ⟨token, span⟩ := token
    obtain ⟨before, first, rfl, hdone, hstart⟩ := h
    cases token <;> cases hstep
    exact fun next => ⟨before, first, span, [], by simp, hdone, hstart, .nil next⟩
  | body func =>
    obtain ⟨token, span⟩ := token
    cases token with
    | label name =>
      obtain rfl := Option.some.inj hstep
      exact (h span.start).label name
    | closing =>
      obtain rfl := Option.some.inj hstep
      exact (h span.start).close
    | _ => cases hstep
  | block b phase =>
    obtain ⟨before, own, rfl, hphase, hblock⟩ := h
    rw [List.append_assoc]
    rcases hadvance : phase.advance? token with _ | later | inst <;>
      simp only [State.step, hadvance, Option.bind_eq_some_iff, Option.some.injEq] at hstep
    · -- the token does not belong to the instruction, which ends before it
      obtain ⟨insts, hcomplete, hstart⟩ := hstep
      rw [← List.append_assoc]
      refine OpenBlock.StandsIn.start ?_ hstart
      rcases hphase.complete hcomplete with ⟨rfl, rfl⟩ | ⟨inst, rfl, hinst⟩
      · rw [List.append_nil]
        exact hblock token.span.start
      · exact (hblock token.span.start).add hinst
    -- the token carries the instruction on
    · subst hstep
      refine ⟨before, own ++ [token], rfl, hphase.advance_inl hadvance, fun next => ?_⟩
      rw [startOf_append]
      exact hblock _
    · subst hstep
      -- the token completes the instruction, which ends where the next token starts
      refine ⟨_, [], (List.append_nil _).symm, Phase.standsIn_idle, fun next => ?_⟩
      refine OpenBlock.StandsIn.add ?_ (hphase.advance_inr hadvance next)
      rw [startOf_append]
      exact hblock _

/-- A run of the parser that ends in a tree prolongs its account by all tokens. -/
theorem State.StandsIn.run {state : State} {last : Nat} {ending : Ending} {tree : Tree}
    {tokens rest : List (Spanned Token)} (h : state.StandsIn tokens)
    (hrun : state.run last ending rest = .ok tree) : tree.StandsIn (tokens ++ rest) := by
  induction rest generalizing state last tokens with
  | nil =>
    rw [List.append_nil]
    cases state with
    | outside done =>
      -- only between functions, and at the end of the text, a tree comes out
      cases ending with
      | complete =>
        obtain rfl := Except.ok.inj hrun
        exact h
      | invalid position => cases hrun
    | _ => cases hrun
  | cons token rest ih =>
    cases hstep : state.step token with
    | none =>
      rw [run_cons_of_step_eq_none hstep] at hrun
      cases hrun
    | some next =>
      by_cases hfits : LiteralsFit [token.val]
      · rw [run_cons_of_literalsFit hstep hfits] at hrun
        rw [← List.singleton_append, ← List.append_assoc]
        exact ih (h.step hstep) hrun
      · rw [run_cons_of_not_literalsFit hstep hfits] at hrun
        cases hrun

/-- A tree that is read from a text stands in the tokens of the text. -/
theorem standsIn_of_parseTree {text : String} {tokens : List (Spanned Token)} {ending : Ending}
    {tree : Tree} (hscan : Scans 0 text.toList tokens ending) (h : parseTree text = .ok tree) :
    tree.StandsIn tokens := by
  rw [parseTree_eq_run hscan] at h
  have hnil : (State.outside []).StandsIn [] := fun next => .nil next
  exact hnil.run h

end Rejoin.Listing
