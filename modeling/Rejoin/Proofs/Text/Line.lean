import Mathlib.Data.List.DropRight
import Rejoin.Proofs.Text.Numeral
import Rejoin.Proofs.Text.Span
import Rejoin.Text.Line

/-!
# Lines and fields

How a text falls into lines, and a line into fields: a line is what stands before a line feed, the
blanks at its end do not matter, and fields are the runs between blanks.
-/

namespace Rejoin

variable {text line word rest : List Char} {c : Char}

/-! ## Blanks -/

theorem trimEnd_append_blank (h : isBlank c = true) (text : List Char) :
    trimEnd (text ++ [c]) = trimEnd text :=
  List.rdropWhile_concat_pos isBlank text c h

/-- A text that does not end with a blank is left as it is. -/
theorem trimEnd_eq_self (h : ∀ c, text.getLast? = some c → isBlank c = false) :
    trimEnd text = text := by
  refine List.rdropWhile_eq_self_iff.mpr fun hne => ?_
  simp [h _ (List.getLast?_eq_some_getLast hne)]

/-- Nothing is cut off behind a word. -/
theorem trimEnd_append_word (hne : word ≠ []) (h : ∀ c ∈ word, isBlank c = false)
    (text : List Char) : trimEnd (text ++ word) = text ++ word := by
  refine trimEnd_eq_self fun c hc => h c ?_
  rw [List.getLast?_append_of_ne_nil text hne] at hc
  exact List.mem_of_getLast? hc

theorem trimEnd_cons (h : isBlank c = false) (text : List Char) :
    trimEnd (c :: text) = c :: trimEnd text := by
  simp [trimEnd, List.dropWhile_append, h]

/-! ## Lines -/

/-- The end of a line closes a piece. -/
theorem pieces_append_newline (h : '\n' ∉ line) (rest : List Char) :
    pieces (line ++ '\n' :: rest) = (line ++ ['\n']) :: pieces rest := by
  induction line with
  | nil => simp [pieces]
  | cons c line ih =>
    rw [List.mem_cons, not_or] at h
    simp [pieces, Ne.symm h.1, ih h.2]

/-- The last line may lack its line feed. -/
theorem pieces_of_not_mem (h : '\n' ∉ line) (hne : line ≠ []) : pieces line = [line] := by
  induction line with
  | nil => exact absurd rfl hne
  | cons c line ih =>
    rw [List.mem_cons, not_or] at h
    cases line with
    | nil => simp [pieces, Ne.symm h.1]
    | cons d line => rw [pieces, if_neg (Ne.symm h.1), ih h.2 (List.cons_ne_nil d line)]

theorem map_text_linesFrom (number start : Nat) (pieces : List (List Char)) :
    (linesFrom number start pieces).map Line.text = pieces.map trimEnd := by
  induction pieces generalizing number start with
  | nil => rfl
  | cons piece pieces ih => simp [linesFrom, ih]

/-- The texts of the lines are the pieces without the blanks at their ends. -/
theorem map_text_lines (text : List Char) :
    (lines text).map Line.text = (pieces text).map trimEnd :=
  map_text_linesFrom 1 0 _

/-- The lines of a text in which every line has its line feed. -/
theorem map_text_lines_flatMap {texts : List (List Char)} (h : ∀ line ∈ texts, '\n' ∉ line) :
    (lines (texts.flatMap fun line => line ++ ['\n'])).map Line.text = texts.map trimEnd := by
  have hpieces : pieces (texts.flatMap fun line => line ++ ['\n']) =
      texts.map fun line => line ++ ['\n'] := by
    induction texts with
    | nil => rfl
    | cons line texts ih =>
      obtain ⟨hline, htexts⟩ := List.forall_mem_cons.mp h
      rw [List.flatMap_cons, List.append_assoc, List.singleton_append, pieces_append_newline hline,
        ih htexts, List.map_cons]
  rw [map_text_lines, hpieces, List.map_map]
  exact List.map_congr_left fun line _ => trimEnd_append_blank (by decide) line

/-! ## Lines and their places -/

/-- A text is one line, or a line with its line feed before another text. -/
theorem line_induction {P : List Char → Prop} (last : ∀ line, '\n' ∉ line → P line)
    (next : ∀ line rest, '\n' ∉ line → P rest → P (line ++ '\n' :: rest)) (text : List Char) :
    P text := by
  induction hlength : text.length using Nat.strong_induction_on generalizing text with
  | _ n ih =>
    by_cases hmem : '\n' ∈ text
    · obtain ⟨line, rest, rfl, hline⟩ := List.eq_append_cons_of_mem hmem
      refine next line rest hline (ih rest.length ?_ rest rfl)
      rw [← hlength, List.length_append, List.length_cons]
      omega
    · exact last text hmem

/-- A text that other lines may follow: it is empty or ends in a line feed. -/
def EndsLine (text : List Char) : Prop :=
  text = [] ∨ text.getLast? = some '\n'

/-- A text that ends in a line feed is made of lines that have one. -/
theorem EndsLine.induction {P : List Char → Prop} (nil : P [])
    (next : ∀ line rest, '\n' ∉ line → EndsLine rest → P rest → P (line ++ '\n' :: rest))
    (h : EndsLine text) : P text := by
  induction text using line_induction with
  | last line hline =>
    rcases h with rfl | hlast
    · exact nil
    · exact absurd (List.mem_of_getLast? hlast) hline
  | next line rest hline ih =>
    have hrest : EndsLine rest := by
      cases rest with
      | nil => exact .inl rfl
      | cons c rest => exact .inr (by simpa [EndsLine] using h)
    exact next line rest hline hrest (ih hrest)

/-- A text that ends its last line is cut into pieces on its own. -/
theorem pieces_append (h : EndsLine text) (rest : List Char) :
    pieces (text ++ rest) = pieces text ++ pieces rest := by
  refine h.induction (P := fun text => pieces (text ++ rest) = pieces text ++ pieces rest) rfl
    fun line tail hline _ ih => ?_
  rw [List.append_assoc, List.cons_append, pieces_append_newline hline,
    pieces_append_newline hline, ih, List.cons_append]

/-- The pieces have the bytes of the text, the ends of lines included. -/
theorem byteLength_flatten_pieces (text : List Char) :
    byteLength (pieces text).flatten = byteLength text := by
  induction text using line_induction with
  | last line hline =>
    by_cases hne : line = []
    · rw [hne]
      rfl
    · rw [pieces_of_not_mem hline hne, List.flatten_singleton]
  | next line rest hline ih =>
    simp [pieces_append_newline hline, ih]

/-- A text that ends in a line feed has as many lines as line feeds. -/
theorem length_pieces (h : EndsLine text) : (pieces text).length = text.count '\n' := by
  refine h.induction (P := fun text => (pieces text).length = text.count '\n') rfl
    fun line tail hline _ ih => ?_
  rw [pieces_append_newline hline, List.length_cons, ih, List.count_append,
    List.count_eq_zero_of_not_mem hline, List.count_cons_self, Nat.zero_add]

/-- A line that stands behind so many more lines and bytes. -/
def Line.shift (count bytes : Nat) (line : Line) : Line :=
  ⟨line.number + count, line.start + bytes, line.text⟩

/-- Lines behind others are counted on, and their bytes too. -/
theorem linesFrom_append (number start : Nat) (first second : List (List Char)) :
    linesFrom number start (first ++ second) = linesFrom number start first ++
      linesFrom (number + first.length) (start + byteLength first.flatten) second := by
  induction first generalizing number start with
  | nil => rfl
  | cons piece first ih =>
    rw [List.cons_append, linesFrom, ih, linesFrom, List.cons_append, List.length_cons,
      List.flatten_cons, byteLength_append, Nat.add_assoc, Nat.add_assoc, Nat.add_comm 1]

/-- Lines that start later are the same lines moved. -/
theorem linesFrom_add (number start count bytes : Nat) (pieces : List (List Char)) :
    linesFrom (number + count) (start + bytes) pieces =
      (linesFrom number start pieces).map (Line.shift count bytes) := by
  induction pieces generalizing number start with
  | nil => rfl
  | cons piece pieces ih =>
    rw [linesFrom, linesFrom, List.map_cons, ← ih, Nat.add_right_comm, Nat.add_right_comm start]
    rfl

/-- The lines of a text behind another one are numbered and placed on from there. -/
theorem lines_append (h : EndsLine text) (rest : List Char) :
    lines (text ++ rest) =
      lines text ++ (lines rest).map (Line.shift (text.count '\n') (byteLength text)) := by
  rw [lines, pieces_append h, linesFrom_append, byteLength_flatten_pieces, length_pieces h,
    linesFrom_add]
  rfl

/-- The line stands in the text behind the lines of `before`. -/
structure Line.StandsIn (line : Line) (text before : List Char) : Prop where
  /-- It is all that stands up to a line feed or the end of the text, blanks at its end apart. -/
  split : ∃ whole after, text = before ++ (whole ++ after) ∧ '\n' ∉ whole ∧
    (after = [] ∨ after.head? = some '\n') ∧ line.text = trimEnd whole
  /-- It starts on a new line. -/
  endsLine : EndsLine before
  /-- It is numbered behind the lines before it. -/
  number : line.number = before.count '\n' + 1
  /-- It starts at the byte behind them. -/
  start : line.start = byteLength before

theorem lines_newline (h : '\n' ∉ line) : lines (line ++ ['\n']) = [⟨1, 0, trimEnd line⟩] := by
  rw [lines, pieces_append_newline h, linesFrom, trimEnd_append_blank (by decide)]
  rfl

/-- Every line stands somewhere in the text, behind the lines before it. -/
theorem exists_standsIn {earlier later : List Line} {line : Line}
    (h : lines text = earlier ++ line :: later) :
    ∃ before, line.StandsIn text before ∧ earlier = lines before := by
  induction text using line_induction generalizing earlier line later with
  | last whole hwhole =>
    have hne : whole ≠ [] := by
      rintro rfl
      simp [lines, pieces, linesFrom] at h
    rw [lines, pieces_of_not_mem hwhole hne, linesFrom, linesFrom] at h
    cases earlier with
    | nil =>
      obtain ⟨rfl, -⟩ := List.cons.inj h
      exact ⟨[], ⟨⟨whole, [], by simp, hwhole, .inl rfl, rfl⟩, .inl rfl, rfl, rfl⟩, rfl⟩
    | cons first earlier => simp at h
  | next whole rest hwhole ih =>
    have hends : EndsLine (whole ++ ['\n']) := .inr (by simp)
    rw [List.append_cons, lines_append hends, lines_newline hwhole, List.singleton_append] at h
    cases earlier with
    | nil =>
      obtain ⟨rfl, -⟩ := List.cons.inj h
      exact ⟨[], ⟨⟨whole, '\n' :: rest, by simp, hwhole, .inr rfl, rfl⟩, .inl rfl, rfl, rfl⟩, rfl⟩
    | cons first earlier =>
      obtain ⟨rfl, hrest⟩ := List.cons.inj h
      obtain ⟨earlier, tail, heq, rfl, htail⟩ := List.map_eq_append_iff.mp hrest
      obtain ⟨line, later, rfl, rfl, -⟩ := List.map_eq_cons_iff.mp htail
      obtain ⟨before, hstands, rfl⟩ := ih heq
      obtain ⟨⟨part, after, hsplit, hpart, hafter, htext⟩, hbefore, hnumber, hstart⟩ := hstands
      -- the place in the rest moves behind the first line
      refine ⟨whole ++ ['\n'] ++ before, ⟨⟨part, after, ?_, hpart, hafter, htext⟩, ?_, ?_, ?_⟩, ?_⟩
      · simp [hsplit]
      · rcases hbefore with rfl | hlast
        · exact .inr (by simp)
        · exact .inr (by rw [List.getLast?_append, hlast, Option.some_or])
      · simp [Line.shift, hnumber, List.count_eq_zero_of_not_mem hwhole]
      · simp [Line.shift, hstart]
        omega
      · rw [lines_append hends, lines_newline hwhole, List.singleton_append]

/-- A line that is not blank is among the lines of the text. -/
theorem Line.StandsIn.exists_lines {line : Line} {before : List Char}
    (h : line.StandsIn text before) (hne : line.text ≠ []) :
    ∃ later, lines text = lines before ++ line :: later := by
  obtain ⟨⟨whole, after, rfl, hwhole, hafter, htext⟩, hbefore, hnumber, hstart⟩ := h
  have hwhole' : whole ≠ [] := by
    rintro rfl
    exact hne htext
  -- from its start on, the line is the first of the text
  obtain ⟨later, hlater⟩ : ∃ later, lines (whole ++ after) = ⟨1, 0, trimEnd whole⟩ :: later := by
    rcases hafter with rfl | hafter
    · rw [List.append_nil, lines, pieces_of_not_mem hwhole hwhole']
      exact ⟨_, rfl⟩
    · obtain ⟨rest, rfl⟩ := List.head?_eq_some_iff.mp hafter
      rw [List.append_cons, lines_append (.inr (by simp)), lines_newline hwhole]
      exact ⟨_, rfl⟩
  refine ⟨later.map (Line.shift (before.count '\n') (byteLength before)), ?_⟩
  rw [lines_append hbefore, hlater, List.map_cons]
  congr 2
  cases line
  simp_all [Line.shift, Nat.add_comm]

/-- The span of a line covers the bytes of its text. -/
theorem Line.StandsIn.bytes_span {line : Line} {text : String} {before : List Char}
    (h : line.StandsIn text.toList before) : line.span.bytes text = line.text.utf8Encode := by
  obtain ⟨⟨whole, after, hsplit, -, -, htext⟩, -, -, hstart⟩ := h
  -- the blanks at the end belong to what follows the span
  have hblanks : whole = line.text ++ whole.rtakeWhile isBlank := by
    rw [htext]
    exact List.rdropWhile_append_rtakeWhile.symm
  rw [hblanks, List.append_assoc] at hsplit
  rw [Line.span, hstart]
  exact Span.bytes_eq hsplit

/-- The texts of the lines that are not blank, without the blanks at their ends. -/
def rowTexts (text : List Char) : List (List Char) :=
  ((text.splitOn '\n').map trimEnd).filter (· ≠ [])

/-- The texts of those lines of a list that are not blank. -/
def rowsOf (all : List Line) : List (List Char) :=
  (all.map Line.text).filter (· ≠ [])

theorem rowsOf_append (all more : List Line) :
    rowsOf (all ++ more) = rowsOf all ++ rowsOf more := by
  simp [rowsOf]

/-- An empty line is no row. -/
theorem rowsOf_blank {line : Line} (h : line.text = []) : rowsOf [line] = [] := by
  simp [rowsOf, h]

theorem rowsOf_singleton {line : Line} (h : line.text ≠ []) : rowsOf [line] = [line.text] := by
  simp [rowsOf, h]

/-- The rows of a text are those of its lines. -/
theorem rowTexts_eq (text : List Char) : rowTexts text = rowsOf (lines text) := by
  rw [rowsOf, map_text_lines]
  -- line by line
  induction text using line_induction with
  | last line hline =>
    by_cases hne : line = []
    · subst hne
      rfl
    · rw [rowTexts, List.splitOn_eq_singleton hline, pieces_of_not_mem hline hne]
  | next line rest hline ih =>
    have hsplit : (line ++ '\n' :: rest).splitOn '\n' = line :: rest.splitOn '\n' := by
      rw [List.splitOn, List.splitOnP_append_cons line rest (by simp), ← List.splitOn,
        ← List.splitOn, List.splitOn_eq_singleton hline, List.singleton_append]
    rw [rowTexts, hsplit, pieces_append_newline hline, List.map_cons, List.map_cons,
      trimEnd_append_blank (by decide), List.filter_cons, List.filter_cons, ← ih, rowTexts]

/-- What is selected by the texts of lines, and not from blank lines, does not depend on the blanks
at their ends. -/
theorem filterMap_lines {β : Type} {select : List Char → Option β} (hnil : select [] = none)
    (htrim : ∀ line, select (trimEnd line) = select line) (text : List Char) :
    ((lines text).filterMap fun line => select line.text) =
      (text.splitOn '\n').filterMap select := by
  have hrows (all : List (List Char)) :
      (all.filter (· ≠ [])).filterMap select = all.filterMap select := by
    rw [List.filterMap_filter]
    apply List.filterMap_congr
    intro line _
    by_cases hline : line = []
    · simp [hline, hnil]
    · simp [hline]
  calc ((lines text).filterMap fun line => select line.text)
    _ = ((lines text).map Line.text).filterMap select := List.filterMap_map.symm
    _ = (rowTexts text).filterMap select := by rw [rowTexts_eq, rowsOf, hrows]
    _ = (text.splitOn '\n').filterMap fun line => select (trimEnd line) := by
      rw [rowTexts, hrows, List.filterMap_map]
      rfl
    _ = (text.splitOn '\n').filterMap select := by simp only [htrim]

/-- The same holds of what is true of no line. -/
theorem forall_mem_lines_iff {p : List Char → Bool} (hnil : p [] = false)
    (htrim : ∀ line, p (trimEnd line) = p line) (text : List Char) :
    (∀ line ∈ lines text, p line.text = false) ↔ ∀ line ∈ text.splitOn '\n', p line = false := by
  let mark (line : List Char) : Option Unit := if p line then some () else none
  have hmark (line : List Char) : mark line = none ↔ p line = false := by simp [mark]
  have hselect : ((lines text).filterMap fun line => mark line.text) =
      (text.splitOn '\n').filterMap mark := by
    apply filterMap_lines
    · exact (hmark []).mpr hnil
    · exact fun line => by simp only [mark, htrim]
  simp only [← hmark]
  rw [← List.filterMap_eq_nil_iff, ← List.filterMap_eq_nil_iff, hselect]

/-! ## Fields -/

@[simp]
theorem fields_nil : fields [] = [] := rfl

/-- A blank in front of a text separates nothing. -/
theorem fields_cons_blank (h : isBlank c = true) (rest : List Char) :
    fields (c :: rest) = fields rest := by
  rw [fields.eq_def]
  simp [h]

/-- A word that a blank or the end of the line follows is a field. -/
theorem fields_append (hne : word ≠ []) (h : ∀ c ∈ word, isBlank c = false)
    (hrest : ∀ c, rest.head? = some c → isBlank c = true) :
    fields (word ++ rest) = word :: fields rest := by
  -- a field grows at its front, so its last character is the base case
  induction word with
  | nil => exact absurd rfl hne
  | cons c word ih =>
    obtain ⟨hc, hword⟩ := List.forall_mem_cons.mp h
    cases word with
    | nil =>
      cases rest with
      | nil =>
        rw [List.append_nil, fields.eq_def]
        simp [hc]
      | cons d rest =>
        rw [List.cons_append, List.nil_append, fields.eq_def]
        simp [hc, hrest d rfl]
    | cons d word =>
      have hd := hword d List.mem_cons_self
      have hfields : fields (d :: (word ++ rest)) = (d :: word) :: fields rest :=
        ih (List.cons_ne_nil d word) hword
      rw [List.cons_append, List.cons_append, fields.eq_def]
      simp [hc, hd, hfields]

theorem fields_blanks_append {blanks : List Char} (h : ∀ c ∈ blanks, isBlank c = true)
    (text : List Char) : fields (blanks ++ text) = fields text := by
  induction blanks with
  | nil => rfl
  | cons c blanks ih =>
    obtain ⟨hc, hblanks⟩ := List.forall_mem_cons.mp h
    rw [List.cons_append, fields_cons_blank hc, ih hblanks]

/-- Blanks at the end of a line are no part of a field. -/
theorem fields_append_blanks {blanks : List Char} (h : ∀ c ∈ blanks, isBlank c = true)
    (text : List Char) : fields (text ++ blanks) = fields text := by
  induction text with
  | nil => rw [List.nil_append, ← List.append_nil blanks, fields_blanks_append h]
  | cons c text ih =>
    cases hc : isBlank c with
    | true => rw [List.cons_append, fields_cons_blank hc, fields_cons_blank hc, ih]
    | false =>
      -- whether the character opens a field or joins one depends on the next one
      cases text with
      | nil =>
        have hblanks : ∀ d, blanks.head? = some d → isBlank d = true :=
          fun d hd => h d (List.mem_of_mem_head? hd)
        rw [List.nil_append] at ih
        rw [fields_append (List.cons_ne_nil c []) (by simpa using hc) hblanks, ih,
          fields.eq_def [c]]
        simp [hc]
      | cons d text =>
        rw [List.cons_append] at ih
        rw [List.cons_append, List.cons_append, fields.eq_def, fields.eq_def (c :: d :: text)]
        simp [hc, ih]

/-- So cutting them off leaves the fields as they are. -/
theorem fields_trimEnd (text : List Char) : fields (trimEnd text) = fields text := by
  have hsplit : trimEnd text ++ text.rtakeWhile isBlank = text :=
    List.rdropWhile_append_rtakeWhile
  conv_rhs => rw [← hsplit]
  exact (fields_append_blanks (fun c hc => List.mem_rtakeWhile_imp hc) _).symm

/-- Blanks that separate fields. -/
def IsGap (gap : List Char) : Prop :=
  gap ≠ [] ∧ ∀ c ∈ gap, isBlank c = true

/-- A word with a gap behind it is a field of its own. -/
theorem IsGap.fields_append {gap : List Char} (hgap : IsGap gap) (hne : word ≠ [])
    (h : ∀ c ∈ word, isBlank c = false) (rest : List Char) :
    fields (word ++ (gap ++ rest)) = word :: fields rest := by
  rw [Rejoin.fields_append hne h, fields_blanks_append hgap.2]
  intro c hc
  rw [List.head?_append_of_ne_nil gap hgap.1] at hc
  exact hgap.2 c (List.mem_of_mem_head? hc)

/-- Behind a word, blanks before the next one are a gap: without them it would go on with it. -/
theorem isGap_of_head? {gap : List Char} (hgap : ∀ c ∈ gap, isBlank c = true) (hne : word ≠ [])
    (hword : ∀ c ∈ word, isBlank c = false)
    (h : ∀ c, (gap ++ (word ++ rest)).head? = some c → isBlank c = true) : IsGap gap := by
  refine ⟨?_, hgap⟩
  rintro rfl
  obtain ⟨c, tail, rfl⟩ := List.exists_cons_of_ne_nil hne
  have hblank := h c rfl
  rw [hword c List.mem_cons_self] at hblank
  exact absurd hblank Bool.false_ne_true

theorem fields_append_blank (hne : word ≠ []) (h : ∀ c ∈ word, isBlank c = false)
    (rest : List Char) : fields (word ++ ' ' :: rest) = word :: fields rest :=
  have hgap : IsGap [' '] := ⟨List.cons_ne_nil _ _, List.all_eq_true.mp (by decide)⟩
  hgap.fields_append hne h rest

theorem fields_of_word (hne : word ≠ []) (h : ∀ c ∈ word, isBlank c = false) :
    fields word = [word] := by
  have hfields : fields (word ++ []) = word :: fields [] := fields_append hne h nofun
  rwa [List.append_nil] at hfields

/-- A text that is not blank starts with blanks, a word and what does not belong to it. -/
theorem exists_word (text : List Char) :
    (∀ c ∈ text, isBlank c = true) ∨
      ∃ lead word rest, text = lead ++ (word ++ rest) ∧ (∀ c ∈ lead, isBlank c = true) ∧
        word ≠ [] ∧ (∀ c ∈ word, isBlank c = false) ∧
        ∀ c, rest.head? = some c → isBlank c = true := by
  by_cases hall : ∀ c ∈ text, isBlank c = true
  · exact .inl hall
  · -- the word is the longest stretch without blanks behind the first blanks
    let tail := text.dropWhile isBlank
    refine .inr ⟨text.takeWhile isBlank, tail.takeWhile (!isBlank ·), tail.dropWhile (!isBlank ·),
      ?_, ?_, ?_, ?_, ?_⟩
    · rw [List.takeWhile_append_dropWhile, List.takeWhile_append_dropWhile]
    · exact fun c hc => List.mem_takeWhile_imp hc
    · have htail : tail ≠ [] := by simpa [tail, List.dropWhile_eq_nil_iff] using hall
      have hhead : isBlank (tail.head htail) = false := by
        simpa using List.head_dropWhile_not isBlank htail
      rw [← List.cons_head_tail htail, List.takeWhile_cons_of_pos (by simpa using hhead)]
      exact List.cons_ne_nil _ _
    · exact fun c hc => by simpa using List.mem_takeWhile_imp hc
    · intro c hc
      have hnot := List.head?_dropWhile_not (!isBlank ·) tail
      rw [hc] at hnot
      simpa using hnot

/-- Exactly the blank texts have no fields. -/
theorem fields_eq_nil_iff : fields text = [] ↔ ∀ c ∈ text, isBlank c = true := by
  constructor
  · intro h
    rcases exists_word text with hblank | ⟨lead, word, rest, rfl, hlead, hne, hword, hrest⟩
    · exact hblank
    · rw [fields_blanks_append hlead, fields_append hne hword hrest] at h
      exact absurd h (List.cons_ne_nil _ _)
  · intro h
    rw [← List.append_nil text, fields_blanks_append h, fields_nil]

/-- The first field stands behind blanks, and the others in what follows it. -/
theorem fields_eq_cons_iff {words : List (List Char)} :
    fields text = word :: words ↔
      ∃ lead rest, text = lead ++ (word ++ rest) ∧ (∀ c ∈ lead, isBlank c = true) ∧ word ≠ [] ∧
        (∀ c ∈ word, isBlank c = false) ∧ (∀ c, rest.head? = some c → isBlank c = true) ∧
        fields rest = words := by
  constructor
  · intro h
    rcases exists_word text with hblank | ⟨lead, first, rest, rfl, hlead, hne, hfirst, hrest⟩
    · rw [fields_eq_nil_iff.mpr hblank] at h
      exact absurd h.symm (List.cons_ne_nil _ _)
    · rw [fields_blanks_append hlead, fields_append hne hfirst hrest] at h
      obtain ⟨rfl, hwords⟩ := List.cons.inj h
      exact ⟨lead, rest, rfl, hlead, hne, hfirst, hrest, hwords⟩
  · rintro ⟨lead, rest, rfl, hlead, hne, hword, hrest, rfl⟩
    rw [fields_blanks_append hlead, fields_append hne hword hrest]

/-! ## Numerals -/

/-- No digit, of whatever base, is a blank. -/
theorem isBlank_of_digitValue? {v : Nat} (h : digitValue? c = some v) : isBlank c = false := by
  have hrange : 48 ≤ c.toNat ∧ c.toNat ≤ 57 ∨ 97 ≤ c.toNat ∧ c.toNat ≤ 102 ∨
      65 ≤ c.toNat ∧ c.toNat ≤ 70 := by
    unfold digitValue? at h
    split_ifs at h with hdigit hlower hupper
    · exact .inl ⟨hdigit.1, hdigit.2⟩
    · exact .inr (.inl ⟨hlower.1, hlower.2⟩)
    · exact .inr (.inr ⟨hupper.1, hupper.2⟩)
  simp [isBlank]
  omega

/-- A spelled number has no blanks. -/
theorem Spells.isBlank {base n : Nat} {digits : List Char} (h : Spells base digits n) :
    ∀ c ∈ digits, isBlank c = false := by
  obtain ⟨-, values, hvalues, -⟩ := h
  intro c hc
  obtain ⟨v, hv, -⟩ := hvalues.exists_value c hc
  exact isBlank_of_digitValue? hv

theorem SpellsUnsigned.ne_nil {base n : Nat} (h : SpellsUnsigned base word n) : word ≠ [] := by
  rcases h with h | ⟨digits, rfl, -⟩
  · exact h.1
  · exact List.cons_ne_nil _ _

theorem SpellsUnsigned.isBlank {base n : Nat} (h : SpellsUnsigned base word n) :
    ∀ c ∈ word, isBlank c = false := by
  rcases h with h | ⟨digits, rfl, h⟩
  · exact h.isBlank
  · exact List.forall_mem_cons.mpr ⟨by decide, h.isBlank⟩

end Rejoin
