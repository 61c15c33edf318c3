import Rejoin.Proofs.Listing.Faults
import Rejoin.Proofs.Listing.Spans
import Rejoin.Proofs.Listing.Spelling
import Rejoin.Proofs.Text.Span

/-!
# The bytes that a lowering error shows

A listing that cannot be lowered is shown with one label. Three of the four errors are about a name:
the label covers the bytes of the name where it offends. The fourth is about the instruction that
stands directly behind the first end of its block: the label covers it from its first token to its
last. Only an opcode that stands alone is shown with what lies between it and the next token.

The fault comes from lowering (`Tree.offends_of_lower`), the place of its parts from the account
that the parser keeps (`Tree.StandsIn`), and the bytes at that place from the scan.
-/

namespace Rejoin.Listing

/-! ## Where faults lie -/

/-- The name of a function that an earlier one has. -/
def Tree.RepeatsFunction (listing : Tree) (name : Spanned String) : Prop :=
  ∃ before func after, listing.functions = before ++ func :: after ∧ name = func.val.name ∧
    name.val ∈ before.map fun func => func.val.name.val

/-- The label of a block that an earlier one of its function has. -/
def Tree.RepeatsLabel (listing : Tree) (label : Spanned String) : Prop :=
  ∃ func ∈ listing.functions, ∃ before block after, func.val.blocks = before ++ block :: after ∧
    label = block.label ∧ label.val ∈ before.map fun block => block.label.val

/-- A target that is the label of no block of its function. -/
def Tree.MissesLabel (listing : Tree) (target : Spanned String) : Prop :=
  ∃ func ∈ listing.functions, ∃ block ∈ func.val.blocks, ∃ inst ∈ block.insts,
    target ∈ inst.val.targets ∧ target.val ∉ func.val.labels

/-- The instruction stands directly behind the first one of its block that ends it. -/
def FollowsEnd (insts : List (Spanned LabelInst)) (inst : Spanned LabelInst) : Prop :=
  ∃ before last after, insts = before ++ last :: inst :: after ∧
    last.val.isTerminator = true ∧ ∀ earlier ∈ before, earlier.val.isTerminator = false

/-- An instruction behind the end of its block. -/
def Tree.Unreachable (listing : Tree) (inst : Spanned LabelInst) : Prop :=
  ∃ func ∈ listing.functions, ∃ block ∈ func.val.blocks, FollowsEnd block.insts inst

/-- What an error complains about is in the listing. -/
def Tree.Offends (listing : Tree) : LowerError → Prop
  | .duplicateFunction name => listing.RepeatsFunction name
  | .duplicateLabel label => listing.RepeatsLabel label
  | .unknownLabel target => listing.MissesLabel target
  | .afterTerminator span => ∃ inst, listing.Unreachable inst ∧ inst.span = span

/-- A repeated name is the fault that it is. -/
theorem head?_repeatFaults {fault : Spanned String → LowerError} {earlier : List String}
    {name : Spanned String} {e : LowerError}
    (h : (repeatFaults fault earlier name).head? = some e) :
    name.val ∈ earlier ∧ e = fault name := by
  rw [repeatFaults] at h
  split at h
  next hmem => exact ⟨hmem, (Option.some.inj h).symm⟩
  next => cases h

/-- The first fault among targets is a target without a label. -/
theorem head?_targetFaults {labels : List String} {targets : List (Spanned String)} {e : LowerError}
    (h : (targets.flatMap (targetFaults labels)).head? = some e) :
    ∃ target ∈ targets, target.val ∉ labels ∧ e = .unknownLabel target := by
  obtain ⟨target, hmem, htarget⟩ := List.mem_flatMap.mp (List.mem_of_head? h)
  rw [targetFaults] at htarget
  split at htarget
  next => cases htarget
  next hlabels => exact ⟨target, hmem, hlabels, List.mem_singleton.mp htarget⟩

/-- The first fault of a block is a target without a block, or what stands behind its end. -/
theorem head?_instFaults {labels : List String} {insts : List (Spanned LabelInst)} {e : LowerError}
    (h : (instFaults labels insts).head? = some e) :
    (∃ inst ∈ insts, ∃ target ∈ inst.val.targets, target.val ∉ labels ∧
        e = .unknownLabel target) ∨
      ∃ inst, FollowsEnd insts inst ∧ e = .afterTerminator inst.span := by
  induction insts with
  | nil => cases h
  | cons inst rest ih =>
    rw [instFaults_cons, List.head?_append, Option.or_eq_some_iff] at h
    rcases h with htargets | ⟨-, hrest⟩
    · exact .inl ⟨inst, List.mem_cons_self, head?_targetFaults htargets⟩
    cases hend : inst.val.isTerminator with
    | true =>
      rw [if_pos hend] at hrest
      -- whatever comes first behind the end is the fault
      cases rest with
      | nil => cases hrest
      | cons next rest =>
        obtain rfl := Option.some.inj hrest
        exact .inr ⟨next, ⟨[], inst, rest, rfl, hend, nofun⟩, rfl⟩
    | false =>
      rw [if_neg (by simp [hend])] at hrest
      rcases ih hrest with ⟨other, hmem, hother⟩ |
        ⟨other, ⟨before, last, after, rfl, hlast, hbefore⟩, rfl⟩
      · exact .inl ⟨other, List.mem_cons_of_mem _ hmem, hother⟩
      · exact .inr ⟨other, ⟨inst :: before, last, after, rfl, hlast,
          List.forall_mem_cons.mpr ⟨hend, hbefore⟩⟩, rfl⟩

/-- A listing is refused for something that is in it. -/
theorem Tree.offends_of_lower {listing : Tree} {error : LowerError}
    (h : listing.lower = .error error) : listing.Offends error := by
  have hfails := (failsFirst_lowerFunctions [] listing.functions).bind_pure Program.mk
  obtain ⟨before, func, after, heq, hfunc⟩ := exists_of_head?_inTurn ((hfails error).mp h)
  have hmem : func ∈ listing.functions := by simp [heq]
  -- of a function the name is looked at first, then the labels, then the instructions
  rw [List.head?_append, Option.or_eq_some_iff] at hfunc
  rcases hfunc with hname | ⟨-, hfaults⟩
  · obtain ⟨hearlier, rfl⟩ := head?_repeatFaults hname
    exact ⟨before, func, after, heq, rfl, hearlier⟩
  rw [FuncDef.faults, List.head?_append, Option.or_eq_some_iff] at hfaults
  rcases hfaults with hlabels | ⟨-, hblocks⟩
  · obtain ⟨before, block, after, heq, hblock⟩ := exists_of_head?_inTurn hlabels
    obtain ⟨hlabel, rfl⟩ := head?_repeatFaults hblock
    exact ⟨func, hmem, before, block, after, heq, rfl, hlabel⟩
  rw [List.head?_flatMap] at hblocks
  obtain ⟨block, hblock, hinsts⟩ := List.exists_of_findSome?_eq_some hblocks
  rcases head?_instFaults hinsts with ⟨inst, hinst, target, htarget, hlabels, rfl⟩ |
    ⟨inst, hinst, rfl⟩
  · exact ⟨func, hmem, block, hblock, inst, hinst, htarget, hlabels⟩
  · exact ⟨inst, ⟨func, hmem, block, hblock, hinst⟩, rfl⟩

/-! ## Parts of a listing among its tokens -/

/-- A part of a row has its own tokens among those of the row. -/
theorem RowAt.exists_part {α : Type} {part : List (Spanned Token) → Nat → α → Prop}
    {tokens : List (Spanned Token)} {next : Nat} {all : List α} (h : RowAt part tokens next all)
    {a : α} (ha : a ∈ all) :
    ∃ earlier own later, tokens = earlier ++ (own ++ later) ∧ part own (startOf later next) a := by
  induction h with
  | nil => cases ha
  | @cons own rest next first others hfirst _ ih =>
    rcases List.mem_cons.mp ha with rfl | ha
    · exact ⟨[], own, rest, rfl, hfirst⟩
    · obtain ⟨earlier, found, later, rfl, hfound⟩ := ih ha
      exact ⟨own ++ earlier, found, later, by simp, hfound⟩

/-- The token behind some tokens of a row is in the row, or is the one behind the row. -/
theorem exists_cons_startOf (tokens later : List (Spanned Token)) (next : Spanned Token) :
    ∃ first others, tokens ++ next :: later = first :: others ∧
      first.span.start = startOf tokens next.span.start := by
  cases tokens with
  | nil => exact ⟨next, later, rfl, rfl⟩
  | cons token tokens => exact ⟨token, tokens ++ next :: later, rfl, rfl⟩

namespace Tree.StandsIn

variable {listing : Tree} {tokens : List (Spanned Token)} {func : Spanned FuncDef}
  {block : BlockDef} {inst : Spanned LabelInst} (h : listing.StandsIn tokens)
  (hfunc : func ∈ listing.functions)

include h hfunc

/-- The tokens of a function, in the tokens of the listing. -/
theorem exists_func :
    ∃ earlier first opening body last later, tokens = earlier ++ (⟨.func, first⟩ ::
        ⟨.symbol func.val.name.val, func.val.name.span⟩ :: ⟨.opening, opening⟩ ::
          (body ++ ⟨.closing, last⟩ :: later)) ∧
      RowAt BlockAt body last.start func.val.blocks := by
  obtain ⟨earlier, own, later, rfl, hown⟩ := (h 0).exists_part hfunc
  cases hown with
  | @intro body _ _ first opening last name hblocks =>
    exact ⟨earlier, first, opening, body, last, later, by simp, hblocks⟩

/-- The tokens of a block. The colon belongs to the token of the label, but not to its span. -/
theorem exists_block (hblock : block ∈ func.val.blocks) :
    ∃ earlier span body next later, tokens = earlier ++ (⟨.label block.label.val, span⟩ ::
        (body ++ next :: later)) ∧
      block.label.span = ⟨span.start, span.stop - 1⟩ ∧
      RowAt InstAt body next.span.start block.insts := by
  obtain ⟨earlier, first, opening, blocks, last, later, rfl, hblocks⟩ := h.exists_func hfunc
  obtain ⟨before, own, after, rfl, hown⟩ := hblocks.exists_part hblock
  -- at least the closing brace follows the block
  obtain ⟨next, others, hnext, hstart⟩ := exists_cons_startOf after later ⟨.closing, last⟩
  rw [← hstart] at hown
  cases hown with
  | @intro body _ _ name span hinsts =>
    refine ⟨earlier ++ ⟨.func, first⟩ :: ⟨.symbol func.val.name.val, func.val.name.span⟩ ::
      ⟨.opening, opening⟩ :: before, span, body, next, others, ?_, rfl, hinsts⟩
    simp [← hnext]

/-- The tokens of an instruction. -/
theorem exists_inst (hblock : block ∈ func.val.blocks) (hinst : inst ∈ block.insts) :
    ∃ earlier own next later, tokens = earlier ++ (own ++ next :: later) ∧
      InstAt own next.span.start inst := by
  obtain ⟨earlier, span, body, last, later, rfl, -, hinsts⟩ := h.exists_block hfunc hblock
  obtain ⟨before, own, after, rfl, hown⟩ := hinsts.exists_part hinst
  obtain ⟨next, others, hnext, hstart⟩ := exists_cons_startOf after later last
  rw [← hstart] at hown
  refine ⟨earlier ++ ⟨.label block.label.val, span⟩ :: before, own, next, others, ?_, hown⟩
  simp [← hnext]

end Tree.StandsIn

/-! ## The bytes of tokens -/

/-- Tokens stand one behind the other. -/
theorem Scans.pairwise {position : Nat} {text : List Char} {tokens : List (Spanned Token)}
    {ending : Ending} (h : Scans position text tokens ending) :
    tokens.Pairwise fun first second => first.span.stop ≤ second.span.start := by
  induction h with
  | done | stuck => exact .nil
  | skip _ _ ih => exact ih
  | token _ hrest ih =>
    refine .cons (fun second hsecond => ?_) ih
    obtain ⟨before, lexeme, after, -, -, hspan⟩ := hrest.exists_lexeme hsecond
    rw [hspan]
    exact Nat.le_add_right _ _

section

variable {text : String} {tokens : List (Spanned Token)} {ending : Ending}
  (h : Scans 0 text.toList tokens ending)

include h

/-- Every token lies inside the text. -/
theorem Scans.inside {token : Spanned Token} (hmem : token ∈ tokens) : token.span.Inside text := by
  obtain ⟨before, lexeme, after, heq, -, hspan⟩ := h.exists_lexeme hmem
  simp only [Span.Inside, utf8ByteSize_eq, heq, hspan, byteLength_append]
  omega

/-- A token that is written as a name, with some characters behind it, shows the name at its bytes
without theirs. -/
theorem Scans.bytes_eq {token : Spanned Token} (hmem : token ∈ tokens) {name : String}
    {behind : List Char}
    (hname : ∀ lexeme, token.val.WrittenAs lexeme → lexeme = name.toList ++ behind) :
    Span.Inside ⟨token.span.start, token.span.stop - byteLength behind⟩ text ∧
      (⟨token.span.start, token.span.stop - byteLength behind⟩ : Span).bytes text =
        name.toByteArray := by
  have hsize := (h.inside hmem).2
  obtain ⟨before, lexeme, after, heq, hwritten, hspan⟩ := h.exists_lexeme hmem
  obtain rfl := hname lexeme hwritten
  rw [List.append_assoc] at heq
  have hbytes := Span.bytes_eq heq
  rw [String.utf8Encode_toList] at hbytes
  rw [hspan] at hsize ⊢
  rw [byteLength_append, Nat.zero_add, ← Nat.add_assoc] at hsize ⊢
  -- the bytes behind the name are taken off again
  rw [Nat.add_sub_cancel]
  exact ⟨⟨Nat.le_add_right _ _, (Nat.le_add_right _ _).trans hsize⟩, hbytes⟩

/-- An instruction lies inside the text. -/
theorem Scans.inside_inst {earlier own later : List (Spanned Token)} {next : Spanned Token}
    {inst : Spanned LabelInst} (heq : tokens = earlier ++ (own ++ next :: later))
    (hinst : InstAt own next.span.start inst) : inst.span.Inside text := by
  subst heq
  have hinside (token : Spanned Token) (hmem : token ∈ own ++ next :: later) :
      token.span.start ≤ token.span.stop ∧ token.span.stop ≤ text.utf8ByteSize :=
    h.inside (List.mem_append_right _ hmem)
  have hpairwise := (List.pairwise_append.mp h.pairwise).2.1
  obtain ⟨first, hfirst, hstart⟩ := Option.map_eq_some_iff.mp hinst.start
  obtain ⟨others, rfl⟩ := List.head?_eq_some_iff.mp hfirst
  rw [List.cons_append, List.pairwise_cons] at hpairwise
  have hfirst := hinside first List.mem_cons_self
  have hstop := hinst.stop
  rw [Span.Inside]
  split at hstop
  · have hbehind := hpairwise.1 next (by simp)
    have hnext := hinside next (by simp)
    omega
  · obtain ⟨last, hlast, hstop⟩ := Option.map_eq_some_iff.mp hstop
    replace hlast := List.mem_of_getLast? hlast
    have hlastle := hinside last (List.mem_append_left _ hlast)
    -- the last token is the first one or behind it
    rcases List.mem_cons.mp hlast with rfl | hlast
    · omega
    · have hbehind := hpairwise.1 last (List.mem_append_left _ hlast)
      omega

end

/-- The span is that of the name, and covers it in the text. -/
def ShowsName (text : String) (span : Span) (name : Spanned String) : Prop :=
  span = name.span ∧ span.bytes text = name.val.toByteArray

section

variable {text : String} {tokens : List (Spanned Token)} {ending : Ending} {listing : Tree}
  {func : Spanned FuncDef} {block : BlockDef} {inst : Spanned LabelInst}
  (hscan : Scans 0 text.toList tokens ending) (h : listing.StandsIn tokens)
  (hfunc : func ∈ listing.functions)

include hscan h hfunc

/-- The span of the name of a function shows the name. -/
theorem showsName_func :
    func.val.name.span.Inside text ∧ ShowsName text func.val.name.span func.val.name := by
  obtain ⟨earlier, first, opening, body, last, later, rfl, -⟩ := h.exists_func hfunc
  have hname (lexeme : List Char) (hwritten : (Token.symbol func.val.name.val).WrittenAs lexeme) :
      lexeme = func.val.name.val.toList ++ [] := by
    rw [hwritten.1, List.append_nil]
  obtain ⟨hinside, hbytes⟩ := hscan.bytes_eq
    (List.mem_append_right _ (List.mem_cons_of_mem _ List.mem_cons_self)) hname
  exact ⟨hinside, rfl, hbytes⟩

/-- The span of a label shows the label. -/
theorem showsName_label (hblock : block ∈ func.val.blocks) :
    block.label.span.Inside text ∧ ShowsName text block.label.span block.label := by
  obtain ⟨earlier, span, body, next, later, rfl, hspan, -⟩ := h.exists_block hfunc hblock
  have hname (lexeme : List Char) (hwritten : (Token.label block.label.val).WrittenAs lexeme) :
      lexeme = block.label.val.toList ++ [':'] := hwritten.1
  -- the colon is one byte, which the label does not count
  obtain ⟨hinside, hbytes⟩ := hscan.bytes_eq (List.mem_append_right _ List.mem_cons_self) hname
  rw [ShowsName, hspan]
  exact ⟨hinside, rfl, hbytes⟩

/-- The span of a target shows the target. -/
theorem showsName_target (hblock : block ∈ func.val.blocks) (hinst : inst ∈ block.insts)
    {target : Spanned String} (htarget : target ∈ inst.val.targets) :
    target.span.Inside text ∧ ShowsName text target.span target := by
  obtain ⟨earlier, own, next, later, rfl, hown⟩ := h.exists_inst hfunc hblock hinst
  have hmem : targetToken target ∈ own := hown.targets.subset (List.mem_map_of_mem htarget)
  have hname (lexeme : List Char) (hwritten : (Token.ident target.val).WrittenAs lexeme) :
      lexeme = target.val.toList ++ [] := by
    rw [hwritten.1, List.append_nil]
  obtain ⟨hinside, hbytes⟩ := hscan.bytes_eq
    (List.mem_append_right _ (List.mem_append_left _ hmem)) hname
  exact ⟨hinside, rfl, hbytes⟩

end

/-! ## Labels -/

/-- The bytes that a label covers. -/
def labelSpan (label : Label) : Span :=
  ⟨label.offset, label.offset + label.length⟩

theorem labelSpan_over {span : Span} (h : span.start ≤ span.stop) (remark : String) :
    labelSpan (.over span remark) = span := by
  rw [labelSpan, Label.over, Span.length, Nat.add_sub_cancel' h]

/-- The span shows what the error complains about: a name where it stands, or an instruction in its
tokens. -/
def Tree.Shows (listing : Tree) (text : String) (tokens : List (Spanned Token)) (span : Span) :
    LowerError → Prop
  | .duplicateFunction name => listing.RepeatsFunction name ∧ ShowsName text span name
  | .duplicateLabel label => listing.RepeatsLabel label ∧ ShowsName text span label
  | .unknownLabel target => listing.MissesLabel target ∧ ShowsName text span target
  | .afterTerminator _ => ∃ inst, listing.Unreachable inst ∧ span = inst.span ∧
    ∃ earlier own next later, tokens = earlier ++ (own ++ next :: later) ∧
      InstAt own next.span.start inst

/-- Lowering fails only after a text has been parsed. -/
theorem parse_eq_lower_error_iff {text : String} {error : LowerError} :
    parse text = .error (.lower error) ↔
      ∃ listing, parseTree text = .ok listing ∧ listing.lower = .error error := by
  unfold parse
  cases parseTree text with
  | error e => simp
  | ok listing => cases hlower : listing.lower <;> simp [hlower]

/-- The label of an error shows what it complains about. -/
theorem Tree.Offends.exists_shown {text : String} {tokens : List (Spanned Token)} {ending : Ending}
    {listing : Tree} {error : LowerError} (h : listing.Offends error)
    (hscan : Scans 0 text.toList tokens ending) (hstands : listing.StandsIn tokens) :
    ∃ span remark, error.diagnostic.labels = [.over span remark] ∧ span.Inside text ∧
      listing.Shows text tokens span error := by
  cases error with
  | duplicateFunction name =>
    obtain ⟨before, func, after, heq, rfl, -⟩ := id h
    have hfunc : func ∈ listing.functions := by simp [heq]
    obtain ⟨hinside, hname⟩ := showsName_func hscan hstands hfunc
    exact ⟨_, _, rfl, hinside, h, hname⟩
  | duplicateLabel label =>
    obtain ⟨func, hfunc, before, block, after, heq, rfl, -⟩ := id h
    have hblock : block ∈ func.val.blocks := by simp [heq]
    obtain ⟨hinside, hname⟩ := showsName_label hscan hstands hfunc hblock
    exact ⟨_, _, rfl, hinside, h, hname⟩
  | unknownLabel target =>
    obtain ⟨func, hfunc, block, hblock, inst, hinst, htarget, -⟩ := id h
    obtain ⟨hinside, hname⟩ := showsName_target hscan hstands hfunc hblock hinst htarget
    exact ⟨_, _, rfl, hinside, h, hname⟩
  | afterTerminator span =>
    obtain ⟨inst, hunreachable, rfl⟩ := h
    obtain ⟨func, hfunc, block, hblock, before, last, after, heq, -⟩ := id hunreachable
    have hinst : inst ∈ block.insts := by simp [heq]
    obtain ⟨earlier, own, next, later, htokens, hown⟩ := hstands.exists_inst hfunc hblock hinst
    exact ⟨_, _, rfl, hscan.inside_inst htokens hown, inst, hunreachable, rfl, earlier, own, next,
      later, htokens, hown⟩

/-- **Lowering errors show what they complain about.** The error of a listing that cannot be lowered
has one label, inside the text. For a second definition of a name and for an unknown label it covers
exactly the name where it stands. For an instruction behind the end of its block it covers the bytes
from the first token to the last one, or to the next token if the instruction is an opcode alone. -/
theorem lowerError_shows {text : String} {error : LowerError}
    (h : parse text = .error (.lower error)) :
    ∃ tokens listing label, Scans 0 text.toList tokens .complete ∧
      parseTree text = .ok listing ∧ listing.StandsIn tokens ∧
      error.diagnostic.labels = [label] ∧ (labelSpan label).Inside text ∧
      listing.Shows text tokens (labelSpan label) error := by
  obtain ⟨listing, hlisting, hlower⟩ := parse_eq_lower_error_iff.mp h
  obtain ⟨tokens, hscan⟩ : ∃ tokens, Scans 0 text.toList tokens .complete := by
    have hscan := scans_lexFrom 0 text.toList
    obtain ⟨hending, -⟩ := (exists_parseTree_eq_ok_iff hscan).mp ⟨listing, hlisting, rfl⟩
    exact ⟨_, hending ▸ hscan⟩
  have hstands := standsIn_of_parseTree hscan hlisting
  obtain ⟨span, remark, hlabels, hinside, hshows⟩ :=
    (Tree.offends_of_lower hlower).exists_shown hscan hstands
  refine ⟨tokens, listing, .over span remark, hscan, hlisting, hstands, hlabels, ?_⟩
  rw [labelSpan_over hinside.1]
  exact ⟨hinside, hshows⟩

/-- A listing with an instruction behind a return, remarks around it and a comma at its end. -/
def strayListing : String :=
  "func @f \x7b // é\n a: ret add %x, // b\n \x7d"

/-- The comma is shown, the remark behind it is not. -/
theorem lowerError_shows_strayListing :
    parse strayListing = .error (.lower (.afterTerminator ⟨24, 31⟩)) ∧
      (⟨24, 31⟩ : Span).bytes strayListing = "add %x,".toByteArray ∧
      ∃ tokens listing label, Scans 0 strayListing.toList tokens .complete ∧
        parseTree strayListing = .ok listing ∧ listing.StandsIn tokens ∧
        (LowerError.afterTerminator ⟨24, 31⟩).diagnostic.labels = [label] ∧
        (labelSpan label).Inside strayListing ∧
        listing.Shows strayListing tokens (labelSpan label) (.afterTerminator ⟨24, 31⟩) := by
  have hparse : parse strayListing = .error (.lower (.afterTerminator ⟨24, 31⟩)) := by
    decide +kernel
  exact ⟨hparse, by decide +kernel, lowerError_shows hparse⟩

/-- A listing with an opcode alone behind a return, and a remark behind it. -/
def loneOpcodeListing : String :=
  "func @f \x7b a: ret nop // x\n\x7d"

/-- The label of an opcode alone does not end with the opcode: it covers the remark behind it. -/
theorem lowerError_shows_remark_loneOpcodeListing :
    ∃ error label, parse loneOpcodeListing = .error (.lower error) ∧
      error.diagnostic.labels = [label] ∧
      ⟨.ident "nop", ⟨label.offset, label.offset + 3⟩⟩ ∈ (lex loneOpcodeListing.toList).tokens ∧
      (labelSpan label).bytes loneOpcodeListing = "nop // x\n".toByteArray :=
  ⟨.afterTerminator ⟨17, 26⟩, ⟨17, 9, "unreachable instruction"⟩, by decide +kernel, rfl,
    by decide +kernel, by decide +kernel⟩

end Rejoin.Listing
