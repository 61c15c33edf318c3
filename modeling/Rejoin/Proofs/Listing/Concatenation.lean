import Rejoin.Proofs.Listing.Lowering
import Rejoin.Proofs.Listing.ParseErrors
import Rejoin.Proofs.Listing.RoundTrip

/-!
# Listings one after the other

No token extends over the end of a line, and a comment stops there. So a text that lexes completely
is read as the same tokens in front of anything that starts on a new line, `Scans.reads`, and two
listings with a line feed between them are read as one, `exists_parseTree_append`. If no name is
defined in both, they are lowered to the functions of the first and then those of the second:
`parse_append`.
-/

namespace Rejoin.Listing

variable {text rest lexeme : List Char} {token : Token}

/-! ## Texts in front of a new line -/

/-- The text is empty or starts with the end of a line. -/
def StartsLine (text : List Char) : Prop :=
  ∀ c, text.head? = some c → c = '\n'

@[simp]
theorem startsLine_nil : StartsLine [] := nofun

@[simp]
theorem startsLine_cons {c : Char} : StartsLine (c :: rest) ↔ c = '\n' := by
  simp [StartsLine]

/-- A text that starts a line is empty or starts with the end of the line before. -/
theorem startsLine_cases (h : StartsLine rest) : rest = [] ∨ ∃ tail, rest = '\n' :: tail := by
  cases rest with
  | nil => exact Or.inl rfl
  | cons c tail =>
    obtain rfl := startsLine_cons.mp h
    exact Or.inr ⟨tail, rfl⟩

/-- A beginning of two texts that goes on into the second has its first character there. -/
theorem prefix_of_head?_not_mem {start : List Char} (h : start <+: text ++ rest)
    (hrest : ∀ c, rest.head? = some c → c ∉ start.drop text.length) : start <+: text := by
  rcases List.prefix_or_prefix_of_prefix h (List.prefix_append text rest) with hshort | ⟨more, rfl⟩
  · exact hshort
  · cases more with
    | nil => simp
    | cons c more =>
      obtain ⟨tail, rfl⟩ := (List.prefix_append_right_inj text).mp h
      exact absurd (by simp) (hrest c rfl)

/-- A beginning without an end of line does not go beyond a line. -/
theorem prefix_of_startsLine {start : List Char} (h : start <+: text ++ rest)
    (hrest : StartsLine rest) (hstart : '\n' ∉ start) : start <+: text := by
  refine prefix_of_head?_not_mem h fun c hc hmem => ?_
  obtain rfl := hrest c hc
  exact hstart (List.mem_of_mem_drop hmem)

/-- A comment gives no tokens where its line ends. -/
theorem reads_comment {body : List Char} (hbody : ∀ c ∈ body, isCommentChar c = true)
    (hrest : rest.takeWhile isCommentChar = []) : Reads ('/' :: '/' :: body) [] rest := by
  have hlexeme : lexeme? (('/' :: '/' :: body) ++ rest) =
      some (.gap ('/' :: '/' :: body).length) := by
    rw [List.cons_append, List.cons_append, lexeme?, List.takeWhile_append_of_pos hbody, hrest,
      List.append_nil]
    rfl
  intro position
  exact ⟨[], rfl, lexFrom_gap (List.cons_ne_nil _ _) hlexeme position⟩

/-- A comment that does not reach the end of its line is all that is left. -/
theorem eq_nil_of_comment {body : List Char} (hbody : ∀ c ∈ body, isCommentChar c = true)
    (hlongest : ∀ other kind, IsLexeme other kind → other <+: '/' :: '/' :: (body ++ text) →
      other.length ≤ body.length + 2) : text = [] := by
  cases text with
  | nil => rfl
  | cons c tail =>
    have hlonger : IsLexeme ('/' :: '/' :: (body ++ [c])) none := by
      cases hc : isCommentChar c with
      | true =>
        have hmore : IsLexeme ('/' :: '/' :: ((body ++ [c]) ++ [])) none :=
          .comment (List.forall_mem_append.mpr ⟨hbody, by simpa using hc⟩) nofun
        rwa [List.append_nil] at hmore
      | false => exact .comment hbody (by simpa using hc)
    have hle := hlongest _ none hlonger ⟨tail, by simp⟩
    simp at hle

/-- What is dropped in front of the end of a text is dropped in front of a new line. -/
theorem IsLongest.reads_gap (h : IsLongest (lexeme ++ text) lexeme none) (hrest : StartsLine rest) :
    Reads lexeme [] (text ++ rest) := by
  obtain ⟨hlexeme, -, hlongest, -⟩ := h
  generalize hwhat : (none : Option Token) = what at hlexeme
  cases hlexeme with
  | fixed | value | symbol | int | negInt | ident | label => cases hwhat
  | blanks _ hall => exact reads_blanks hall _
  | @comment body ends hbody hends =>
    have hgaps : ∀ c ∈ ends, isGapChar c = true := fun c hc =>
      isGapChar_of_isCommentChar_eq_false (hends c hc)
    have hstop : (ends ++ (text ++ rest)).takeWhile isCommentChar = [] := by
      cases ends with
      | cons e ends =>
        rw [List.cons_append, List.takeWhile_cons_of_neg (by simp [hends e])]
      | nil =>
        -- a comment without an end of line goes on to the end of the text
        have htext : text = [] := eq_nil_of_comment hbody (by simpa using hlongest)
        rcases startsLine_cases hrest with rfl | ⟨tail, rfl⟩
        · rw [htext]
          rfl
        · rw [htext]
          rfl
    exact (reads_comment hbody hstop).append (reads_blanks hgaps _)

/-- A token in front of the end of a text is the same token in front of a new line. -/
theorem IsLongest.reads_token (h : IsLongest (lexeme ++ text) lexeme (some token))
    (hrest : StartsLine rest) : Reads lexeme [token] (text ++ rest) := by
  refine reads_of_lexeme? h.isLexeme.ne_nil (h.isLexeme.lexeme?_eq (h.prefers token rfl) ?_)
  intro found kind hfound hstarts
  -- a token that stands there now was there before the new line was put behind it
  rw [← List.append_assoc] at hstarts
  exact h.longest found _ hfound
    (prefix_of_startsLine hstarts hrest fun hmem => hfound.spelling.1 _ hmem rfl)

/-- A text that lexes completely is read as the same tokens in front of a new line. -/
theorem Scans.reads {position : Nat} {tokens : List (Spanned Token)}
    (h : Scans position text tokens .complete) (hrest : StartsLine rest) :
    Reads text (tokens.map Spanned.val) rest := by
  generalize hending : Ending.complete = ending at h
  induction h with
  | done => exact reads_nil rest
  | stuck => cases hending
  | skip hlongest _ ih => exact (hlongest.reads_gap hrest).append (ih hending)
  | token hlongest _ ih => exact (hlongest.reads_token hrest).append (ih hending)

/-! ## Two listings -/

/-- Rows of phrases form a row. -/
theorem Phrases.append {α : Type} {phrase : List Token → α → Prop} {first second : List Token}
    {as bs : List α} (hfirst : Phrases phrase first as) (hsecond : Phrases phrase second bs) :
    Phrases phrase (first ++ second) (as ++ bs) := by
  induction hfirst with
  | nil => exact hsecond
  | cons ha _ ih =>
    rw [List.append_assoc]
    exact .cons ha ih

variable {s t : String}

/-- Two listings with a line feed between them are one listing. -/
theorem exists_parseTree_append {first second : Tree} (hs : parseTree s = .ok first)
    (ht : parseTree t = .ok second) :
    ∃ tree, parseTree (s ++ "\n" ++ t) = .ok tree ∧ tree.plain = first.plain ++ second.plain := by
  have hscanS := scans_lexFrom 0 s.toList
  have hscanT := scans_lexFrom 0 t.toList
  obtain ⟨hendS, hfitsS, hderivesS⟩ := (exists_parseTree_eq_ok_iff hscanS).mp ⟨first, hs, rfl⟩
  obtain ⟨hendT, hfitsT, hderivesT⟩ := (exists_parseTree_eq_ok_iff hscanT).mp ⟨second, ht, rfl⟩
  rw [hendS] at hscanS
  rw [hendT] at hscanT
  have hreadsT := (reads_newline _).append (hscanT.reads startsLine_nil)
  have hreads := (hscanS.reads (startsLine_cons.mpr rfl)).append hreadsT
  refine exists_parseTree_of_reads ?_ (literalsFit_append_iff.mpr ⟨hfitsS, hfitsT⟩)
    (hderivesS.append hderivesT)
  simpa using hreads

/-- Listings whose functions have different names are lowered one after the other. -/
theorem lowerFunctions_append {first second : List (Spanned FuncDef)} {fs gs : List Func}
    (hfirst : lowerFunctions [] first = .ok fs) (hsecond : lowerFunctions [] second = .ok gs)
    (hnames : ∀ f ∈ fs, ∀ g ∈ gs, f.name ≠ g.name) :
    lowerFunctions [] (first ++ second) = .ok (fs ++ gs) := by
  obtain ⟨hfs, hnodupFs, -⟩ := lowerFunctions_eq_ok_iff.mp hfirst
  obtain ⟨hgs, hnodupGs, -⟩ := lowerFunctions_eq_ok_iff.mp hsecond
  refine lowerFunctions_eq_ok_iff.mpr ⟨List.rel_append hfs hgs, ?_, fun f _ => List.not_mem_nil⟩
  rw [List.map_append, List.nodup_append]
  refine ⟨hnodupFs, hnodupGs, fun name hf other hg => ?_⟩
  obtain ⟨f, hmemF, rfl⟩ := List.mem_map.mp hf
  obtain ⟨g, hmemG, rfl⟩ := List.mem_map.mp hg
  exact hnames f hmemF g hmemG

/-- Two texts that define different functions are read together as they are read alone. -/
theorem parse_append {first second : Program} (hs : parse s = .ok first)
    (ht : parse t = .ok second)
    (hnames : ∀ f ∈ first.functions, ∀ g ∈ second.functions, f.name ≠ g.name) :
    parse (s ++ "\n" ++ t) = .ok ⟨first.functions ++ second.functions⟩ := by
  obtain ⟨listing, hlisting, hfirst⟩ := parse_eq_ok_iff.mp hs
  obtain ⟨other, hother, hsecond⟩ := parse_eq_ok_iff.mp ht
  obtain ⟨tree, htree, hplain⟩ := exists_parseTree_append hlisting hother
  rw [Tree.lower_eq_ok_iff] at hfirst hsecond
  have hlower : (Tree.mk (listing.functions ++ other.functions)).lower =
      .ok ⟨first.functions ++ second.functions⟩ :=
    Tree.lower_eq_ok_iff.mpr (lowerFunctions_append hfirst hsecond hnames)
  have hagree : Agree tree.lower (Tree.mk (listing.functions ++ other.functions)).lower := by
    refine Tree.lower_agree (hplain.trans ?_)
    simp [Tree.plain]
  rw [hlower] at hagree
  generalize hlowered : tree.lower = lowered at hagree
  cases hagree with
  | ok => exact parse_eq_ok_iff.mpr ⟨tree, htree, hlowered⟩

end Rejoin.Listing
