import Rejoin.Proofs.Listing.Agreement
import Rejoin.Proofs.Listing.Concatenation
import Rejoin.Proofs.Listing.LowerErrors

/-!
# Layout of listings

Blanks and comments stand between tokens and mean nothing. Every text that lexes completely is a row
of tokens, each the longest lexeme where it stands, with nothing but layout between them, `Spaced`.
At the start and at the end of a token, and of the text, layout may be put in: the tokens stay as
they are, `Scans.reads_layout`, and so does what the text is read as, `parse_layout`.

A token cannot grow into layout, because blanks and slashes stand in no token. An open comment at
the end of the text does grow: it takes in the rest of its line, which is layout as well.
-/

namespace Rejoin.Listing

variable {text rest lexeme layout : List Char} {position : Nat} {tokens : List (Spanned Token)}

/-! ## Blanks and comments -/

/-- A row of blanks and of comments up to the ends of their lines. -/
inductive IsLayout : List Char → Prop
  | nil : IsLayout []
  | blank {c : Char} {rest : List Char} (hc : isGapChar c = true) (hrest : IsLayout rest) :
      IsLayout (c :: rest)
  | comment {body : List Char} {stop : Char} {rest : List Char}
      (hbody : ∀ c ∈ body, isCommentChar c = true) (hstop : isCommentChar stop = false)
      (hrest : IsLayout rest) : IsLayout ('/' :: '/' :: (body ++ stop :: rest))

/-- A comment up to the end of the text. -/
def IsOpenComment (text : List Char) : Prop :=
  ∃ body, text = '/' :: '/' :: body ∧ ∀ c ∈ body, isCommentChar c = true

/-- Layout behind layout is layout. -/
theorem IsLayout.append (h : IsLayout layout) (hrest : IsLayout rest) :
    IsLayout (layout ++ rest) := by
  induction h with
  | nil => exact hrest
  | blank hc _ ih => exact .blank hc ih
  | comment hbody hstop _ ih =>
    rw [List.cons_append, List.cons_append, List.append_assoc, List.cons_append]
    exact .comment hbody hstop ih

theorem isLayout_of_blanks (h : ∀ c ∈ text, isGapChar c = true) : IsLayout text := by
  induction text with
  | nil => exact .nil
  | cons c rest ih =>
    rw [List.forall_mem_cons] at h
    exact .blank h.1 (ih h.2)

/-- Layout is dropped, whatever follows it. -/
theorem IsLayout.reads (h : IsLayout layout) (rest : List Char) : Reads layout [] rest := by
  induction h with
  | nil => exact reads_nil rest
  | blank hc _ ih => exact (reads_blanks (List.forall_mem_singleton.mpr hc) _).append ih
  | @comment body stop more hbody hstop _ ih =>
    have hcomment : Reads ('/' :: '/' :: body) [] (stop :: more ++ rest) :=
      reads_comment hbody (List.takeWhile_cons_of_neg (by simp [hstop]))
    have hend : Reads [stop] [] (more ++ rest) :=
      reads_blanks (List.forall_mem_singleton.mpr (isGapChar_of_isCommentChar_eq_false hstop)) _
    exact hcomment.append (hend.append ih)

/-- What is left of layout after the first line is layout. -/
theorem IsLayout.dropWhile (h : IsLayout layout) : IsLayout (layout.dropWhile isCommentChar) := by
  induction h with
  | nil => exact .nil
  | @blank c rest hc hrest ih =>
    cases hcomment : isCommentChar c with
    | true => rwa [List.dropWhile_cons_of_pos hcomment]
    | false =>
      rw [List.dropWhile_cons_of_neg (by simp [hcomment])]
      exact .blank hc hrest
  | @comment body stop rest hbody hstop hrest ih =>
    -- all of a comment is dropped, up to the end of its line
    have hslashes : ∀ c ∈ '/' :: '/' :: body, isCommentChar c = true := by
      simpa using ⟨by decide, hbody⟩
    rw [← List.cons_append, ← List.cons_append, List.dropWhile_append_of_pos hslashes,
      List.dropWhile_cons_of_neg (by simp [hstop])]
    exact .blank (isGapChar_of_isCommentChar_eq_false hstop) hrest

/-- An open comment takes in the line behind it. -/
theorem IsOpenComment.reads (h : IsOpenComment text) (hlayout : IsLayout layout) :
    Reads (text ++ layout) [] [] := by
  obtain ⟨body, rfl, hbody⟩ := h
  have hline : ∀ c ∈ body ++ layout.takeWhile isCommentChar, isCommentChar c = true :=
    List.forall_mem_append.mpr ⟨hbody, fun c hc => List.mem_takeWhile_imp hc⟩
  have hstop : (layout.dropWhile isCommentChar ++ []).takeWhile isCommentChar = [] := by
    rw [List.append_nil]
    have hhead := List.head?_dropWhile_not isCommentChar layout
    cases hrest : layout.dropWhile isCommentChar with
    | nil => rfl
    | cons c more =>
      rw [hrest] at hhead
      exact List.takeWhile_cons_of_neg (by simpa using hhead)
  have hreads := (reads_comment hline hstop).append (hlayout.dropWhile.reads [])
  simpa using hreads

/-- What is dropped is layout, or an open comment at the end of the text. -/
theorem IsLongest.isLayout_or_isOpenComment (h : IsLongest (lexeme ++ rest) lexeme none) :
    IsLayout lexeme ∨ IsOpenComment lexeme ∧ rest = [] := by
  obtain ⟨hlexeme, -, hlongest, -⟩ := h
  generalize hwhat : (none : Option Token) = what at hlexeme
  cases hlexeme with
  | fixed | value | symbol | int | negInt | ident | label => cases hwhat
  | blanks _ hall => exact .inl (isLayout_of_blanks hall)
  | @comment body ends hbody hends =>
    cases ends with
    | nil => exact .inr ⟨⟨body, by simp, hbody⟩, eq_nil_of_comment hbody (by simpa using hlongest)⟩
    | cons e ends =>
      rw [List.forall_mem_cons] at hends
      exact .inl (.comment hbody hends.1 (isLayout_of_blanks fun c hc =>
        isGapChar_of_isCommentChar_eq_false (hends.2 c hc)))

/-! ## Between tokens -/

/-- A place where layout may be put: the start or the end of a token, or of the text. -/
def IsSeam (position : Nat) (text : List Char) (tokens : List (Spanned Token)) (p : Nat) : Prop :=
  p = position ∨ p = position + byteLength text ∨
    ∃ token ∈ tokens, p = token.span.start ∨ p = token.span.stop

theorem eq_nil_of_byteLength (h : byteLength text = 0) : text = [] := by
  cases text with
  | nil => rfl
  | cons c rest =>
    have := c.utf8Size_pos
    rw [byteLength_cons] at h
    omega

/-- A beginning that has as many bytes as a lexeme has the lexeme. -/
theorem exists_eq_append_of_byteLength_le {before after : List Char}
    (h : lexeme ++ rest = before ++ after) (hle : byteLength lexeme ≤ byteLength before) :
    ∃ more, before = lexeme ++ more ∧ rest = more ++ after := by
  rcases List.append_eq_append_iff.mp h with hmore | ⟨more, rfl, rfl⟩
  · exact hmore
  · rw [byteLength_append] at hle
    obtain rfl : more = [] := eq_nil_of_byteLength (by omega)
    exact ⟨[], by simp, rfl⟩

/-- A seam is not inside the first lexeme of a text: it is in front of it, or a seam of the rest. -/
theorem IsSeam.nil_or_append {others : List (Spanned Token)} {ending : Ending}
    {before after : List Char}
    (h : IsSeam position (lexeme ++ rest) others (position + byteLength before))
    (htext : lexeme ++ rest = before ++ after)
    (hscan : Scans (position + byteLength lexeme) rest tokens ending)
    (hothers : ∀ token ∈ others, token ∈ tokens ∨
      token.span = ⟨position, position + byteLength lexeme⟩) :
    before = [] ∨ ∃ more, before = lexeme ++ more ∧ rest = more ++ after ∧
      IsSeam (position + byteLength lexeme) rest tokens
        (position + byteLength lexeme + byteLength more) := by
  by_cases hnil : byteLength before = 0
  · exact .inl (eq_nil_of_byteLength hnil)
  -- no seam lies inside the first lexeme
  have htail : byteLength lexeme ≤ byteLength before ∧
      IsSeam (position + byteLength lexeme) rest tokens (position + byteLength before) := by
    rcases h with hstart | hend | ⟨token, hmem, hp⟩
    · omega
    · rw [byteLength_append] at hend
      exact ⟨by omega, .inr (.inl (by omega))⟩
    · rcases hothers token hmem with hmem | hspan
      · refine ⟨?_, .inr (.inr ⟨token, hmem, hp⟩)⟩
        obtain ⟨_, _, _, -, -, hspan⟩ := hscan.exists_lexeme hmem
        rw [hspan] at hp
        dsimp only at hp
        omega
      · rw [hspan] at hp
        dsimp only at hp
        exact ⟨by omega, .inl (by omega)⟩
  obtain ⟨more, rfl, hrest⟩ := exists_eq_append_of_byteLength_le htext htail.1
  refine .inr ⟨more, rfl, hrest, ?_⟩
  rw [Nat.add_assoc, ← byteLength_append]
  exact htail.2

/-- Layout does not continue the token before it. -/
theorem IsLayout.isTailChar_head (h : IsLayout layout) {c : Char} (hc : layout.head? = some c) :
    isTailChar c = false := by
  cases h with
  | nil => cases hc
  | @blank d rest hblank =>
    obtain rfl := Option.some.inj hc
    have hbreaks : Breaks (d :: rest) := breaks_cons.mpr (.inl hblank)
    rw [Bool.eq_false_iff]
    exact fun htail => not_breaks_of_isTailChar htail hbreaks
  | comment =>
    obtain rfl := Option.some.inj hc
    decide

/-- A token in front of something is the same token if layout is put in between. -/
theorem IsLongest.reads_layout {before after : List Char} {token : Token}
    (h : IsLongest (lexeme ++ (before ++ after)) lexeme (some token)) (hlayout : IsLayout layout) :
    Reads lexeme [token] (before ++ (layout ++ after)) := by
  refine reads_of_lexeme? h.isLexeme.ne_nil (h.isLexeme.lexeme?_eq (h.prefers token rfl) ?_)
  intro found kind hfound hstarts
  by_cases hnil : layout = []
  · subst hnil
    exact h.longest found _ hfound hstarts
  -- a token that stands there now ends before the layout
  have hshort : found <+: lexeme ++ before := by
    rw [← List.append_assoc] at hstarts
    refine prefix_of_head?_not_mem hstarts fun c hc hmem => ?_
    rw [List.head?_append_of_ne_nil _ hnil] at hc
    have hpos : 0 < (lexeme ++ before).length := by
      rw [List.length_append]
      have := List.length_pos_iff.mpr h.isLexeme.ne_nil
      omega
    have htail : c ∈ found.tail := by
      rw [← List.drop_one]
      exact (List.drop_subset_drop_left found hpos) hmem
    have hspelled := hfound.spelling.2 c htail
    rw [hlayout.isTailChar_head hc] at hspelled
    cases hspelled
  exact h.longest found _ hfound (hshort.trans (by simp))

/-- **Layout between tokens leaves the tokens as they are.** -/
theorem Scans.reads_layout (h : Scans position text tokens .complete) (hlayout : IsLayout layout)
    {before after : List Char} (htext : text = before ++ after)
    (hseam : IsSeam position text tokens (position + byteLength before)) :
    Reads (before ++ (layout ++ after)) (tokens.map Spanned.val) [] := by
  generalize hending : Ending.complete = ending at h
  -- the layout goes in front of the first lexeme, or somewhere behind it
  induction h generalizing before with
  | done =>
    obtain ⟨rfl, rfl⟩ := List.append_eq_nil_iff.mp htext.symm
    exact (hlayout.reads _).append (reads_nil [])
  | stuck => cases hending
  | skip hlongest hscan ih =>
    rcases hseam.nil_or_append htext hscan fun _ => .inl with rfl | ⟨more, rfl, rfl, hseam⟩
    · subst hending htext
      exact (hlayout.reads _).append ((Scans.skip hlongest hscan).reads startsLine_nil)
    · rw [List.append_assoc]
      rcases hlongest.isLayout_or_isOpenComment with hlexeme | ⟨hcomment, hnil⟩
      · exact (hlexeme.reads _).append (ih rfl hseam hending)
      · -- an open comment is all that is left, and takes in the layout behind it
        obtain ⟨rfl, rfl⟩ := List.append_eq_nil_iff.mp hnil
        obtain ⟨rfl, -⟩ := Lexed.mk.inj hscan.lexFrom_eq
        simpa using hcomment.reads hlayout
  | @token position lexeme rest token tokens ending hlongest hscan ih =>
    have hcases := hseam.nil_or_append htext hscan fun other hother => by
      rcases List.mem_cons.mp hother with rfl | hother
      · exact .inr rfl
      · exact .inl hother
    rcases hcases with rfl | ⟨more, rfl, rfl, hseam⟩
    · subst hending htext
      exact (hlayout.reads _).append ((Scans.token hlongest hscan).reads startsLine_nil)
    · rw [List.append_assoc]
      have hfirst : Reads lexeme [token] ((more ++ (layout ++ after)) ++ []) := by
        rw [List.append_nil]
        exact hlongest.reads_layout hlayout
      exact hfirst.append (ih rfl hseam hending)

/-! ## Texts that are spaced -/

/-- The text is a row of tokens with layout between them. Each token is the longest lexeme where it
stands. Behind the last one there may be an open comment. -/
inductive Spaced : Nat → List Char → List (Spanned Token) → Prop
  | last {position : Nat} {gap comment : List Char} (hgap : IsLayout gap)
      (hcomment : comment = [] ∨ IsOpenComment comment) : Spaced position (gap ++ comment) []
  | token {position : Nat} {gap lexeme rest : List Char} {token : Token}
      {tokens : List (Spanned Token)} (hgap : IsLayout gap)
      (hlongest : IsLongest (lexeme ++ rest) lexeme (some token))
      (hrest : Spaced (position + byteLength gap + byteLength lexeme) rest tokens) :
      Spaced position (gap ++ (lexeme ++ rest))
        (⟨token, ⟨position + byteLength gap, position + byteLength gap + byteLength lexeme⟩⟩ ::
          tokens)

/-- Layout may be put in front of spaced tokens, which then stand later. -/
theorem Spaced.layout_append (hlayout : IsLayout layout)
    (h : Spaced (position + byteLength layout) rest tokens) :
    Spaced position (layout ++ rest) tokens := by
  cases h with
  | last hgap hcomment =>
    rw [← List.append_assoc]
    exact .last (hlayout.append hgap) hcomment
  | @token _ gap _ _ _ _ hgap hlongest hrest =>
    have hposition : position + byteLength layout + byteLength gap =
        position + byteLength (layout ++ gap) := by rw [byteLength_append, Nat.add_assoc]
    rw [hposition] at hrest ⊢
    rw [← List.append_assoc]
    exact .token (hlayout.append hgap) hlongest hrest

/-- The tokens of a text stand spaced in it. -/
theorem Scans.spaced (h : Scans position text tokens .complete) : Spaced position text tokens := by
  generalize hending : Ending.complete = ending at h
  induction h with
  | done position => exact .last .nil (.inl rfl)
  | stuck => cases hending
  | skip hlongest hscan ih =>
    rcases hlongest.isLayout_or_isOpenComment with hlexeme | ⟨hcomment, rfl⟩
    · exact .layout_append hlexeme (ih hending)
    · obtain ⟨rfl, -⟩ := Lexed.mk.inj hscan.lexFrom_eq
      rw [List.append_nil]
      exact .last .nil (.inr hcomment)
  | token hlongest _ ih => exact .token .nil hlongest (ih hending)

/-- **Layout is irrelevant.** The tokens of a text that lexes completely stand in order and apart
from each other, each the longest lexeme where it starts, with nothing but layout between them.
Layout that is put in front of a token or behind it, or at either end of the text, leaves them as
they are. So the text is read as the same program, or with an error of the same kind that says the
same. -/
theorem parse_layout {text : String} {tokens : List (Spanned Token)}
    (hlex : lex text.toList = ⟨tokens, .complete⟩) :
    (Spaced 0 text.toList tokens ∧
        tokens.Pairwise fun first second => first.span.stop ≤ second.span.start) ∧
      ∀ before layout after : String, text = before ++ after → IsLayout layout.toList →
        IsSeam 0 text.toList tokens (byteLength before.toList) →
        (∃ others, lex (before ++ layout ++ after).toList = ⟨others, .complete⟩ ∧
          others.map Spanned.val = tokens.map Spanned.val) ∧
        ((∃ program, parse (before ++ layout ++ after) = .ok program ∧ parse text = .ok program) ∨
          ∃ first second, parse (before ++ layout ++ after) = .error first ∧
            parse text = .error second ∧ first.Agrees second ∧
            first.diagnostic.SameWords second.diagnostic) := by
  have hscan : Scans 0 text.toList tokens .complete := scans_iff.mpr hlex
  refine ⟨⟨hscan.spaced, hscan.pairwise⟩, ?_⟩
  rintro before layout after rfl hlayout hseam
  obtain ⟨others, hvals, hothers⟩ :=
    hscan.reads_layout hlayout String.toList_append (by rwa [Nat.zero_add]) 0
  have hspaced : lex (before ++ layout ++ after).toList = ⟨others, .complete⟩ := by
    rw [lex, String.toList_append, String.toList_append, List.append_assoc]
    simpa [lexFrom] using hothers
  refine ⟨⟨others, hspaced, hvals⟩, (parse_agree hspaced hlex hvals).imp_right ?_⟩
  rintro ⟨first, second, hfirst, hsecond, hagrees⟩
  exact ⟨first, second, hfirst, hsecond, hagrees, hagrees.sameWords⟩

/-- A comment and a blank in front of an arrow that follows a name directly leave the tokens and the
program as they are. -/
theorem parse_layout_arrow :
    let before := "func @f \x7b a: // start\nadd -1,%y"
    let after := "->%x ret\x7d"
    let lexed := lex (before ++ after).toList
    lexed.ending = .complete ∧
      (∃ others, lex (before ++ "// sum\n\t" ++ after).toList = ⟨others, .complete⟩ ∧
        others.map Spanned.val = lexed.tokens.map Spanned.val) ∧
      ∃ program, parse (before ++ "// sum\n\t" ++ after) = .ok program ∧
        parse (before ++ after) = .ok program := by
  intro before after lexed
  have hending : lexed.ending = .complete := by decide +kernel
  have hlayout : IsLayout "// sum\n\t".toList :=
    @IsLayout.comment [' ', 's', 'u', 'm'] '\n' ['\t'] (List.all_eq_true.mp rfl) rfl
      (.blank rfl .nil)
  have hseam : IsSeam 0 (before ++ after).toList lexed.tokens (byteLength before.toList) :=
    .inr (.inr ⟨⟨.arrow, 31, 33⟩, by decide +kernel, .inl (by decide +kernel)⟩)
  have hlex : lex (before ++ after).toList = ⟨lexed.tokens, .complete⟩ := by rw [← hending]
  obtain ⟨htokens, hparse⟩ := (parse_layout hlex).2 before _ after rfl hlayout hseam
  refine ⟨hending, htokens, hparse.resolve_right ?_⟩
  rintro ⟨_, second, -, hsecond, -⟩
  have hok : (parse (before ++ after)).isOk = true := by decide +kernel
  rw [hsecond] at hok
  cases hok

end Rejoin.Listing
