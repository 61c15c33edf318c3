import Rejoin.Proofs.Text.Line
import Rejoin.Report.Reader

/-!
# Written reports are read back

A report is written line by line, and every line is read as what it was written for. A record is a
header, its dependents and an end, so reading a written report gives its records. Functions are
written one after the other, and a report may be continued later: `readReport_written`.
-/

namespace Rejoin

/-! ## Lines of a report -/

/-- Two numbers separated by a blank. -/
def pairText (first second : UInt32) : List Char :=
  (decimal first.toNat).toList ++ ' ' :: (decimal second.toNat).toList

/-- The header line of a record. -/
def headerText (branch function : UInt32) : List Char :=
  '*' :: ' ' :: pairText branch function

/-- The line that ends a record. -/
def closeText : List Char := ['-', '-', '-']

/-- The lines of a record. -/
def Record.texts (record : Record) : List (List Char) :=
  headerText record.branch record.function ::
    (record.dependents.map (pairText · record.function) ++ [closeText])

theorem toList_pairLine (first second : UInt32) :
    (pairLine first second).toList = pairText first second ++ ['\n'] := by
  simp [pairLine, pairText]

/-- A written report is made of lines. -/
theorem toList_renderReport (records : List Record) :
    (renderReport records).toList =
      (records.flatMap Record.texts).flatMap fun line => line ++ ['\n'] := by
  have hrecord (record : Record) :
      record.render.toList = record.texts.flatMap fun line => line ++ ['\n'] := by
    simp [Record.render, Record.texts, toList_pairLine, headerText, closeText, String.toList_join,
      List.flatMap_map]
  simp [renderReport, String.toList_join, List.flatMap_map, hrecord, List.flatMap_assoc]

/-- A written line has no blank at its end, and no line feed inside. -/
theorem plain_of_mem_texts {record : Record} {line : List Char} (h : line ∈ record.texts) :
    trimEnd line = line ∧ '\n' ∉ line := by
  have hnumeral (n : Nat) : '\n' ∉ (decimal n).toList := (spells_decimal n).not_mem (by decide)
  have htrim (lead : List Char) (first second : UInt32) :
      trimEnd (lead ++ pairText first second) = lead ++ pairText first second := by
    have hsecond := spells_decimal second.toNat
    rw [pairText, List.append_cons, ← List.append_assoc]
    exact trimEnd_append_word hsecond.1 hsecond.isBlank _
  simp only [Record.texts, List.mem_cons, List.mem_append, List.mem_map, List.not_mem_nil,
    or_false] at h
  rcases h with rfl | ⟨n, -, rfl⟩ | rfl
  · exact ⟨htrim ['*', ' '] _ _, by simp [headerText, pairText, hnumeral]⟩
  · exact ⟨htrim [] _ _, by simp [pairText, hnumeral]⟩
  · decide

/-- A written pair is read back. -/
theorem readPair?_pairText (first second : UInt32) :
    readPair? (pairText first second) = some (first, second) := by
  have hfirst := spells_decimal first.toNat
  have hsecond := spells_decimal second.toNat
  rw [readPair?, pairText, fields_append_blank hfirst.1 hfirst.isBlank,
    fields_of_word hsecond.1 hsecond.isBlank]
  simp [readUInt32?_decimal]

/-- The line of a dependent starts with a digit. -/
theorem exists_pairText_eq_cons (first second : UInt32) :
    ∃ d tail, pairText first second = d :: tail ∧ d.isDigit = true := by
  have hfirst := spells_decimal first.toNat
  unfold pairText
  cases hdigits : (decimal first.toNat).toList with
  | nil => exact absurd hdigits hfirst.1
  | cons d tail => exact ⟨d, _, rfl, hfirst.isDigit d (hdigits ▸ List.mem_cons_self)⟩

theorem read?_headerText (branch function : UInt32) :
    ReportLine.read? (headerText branch function) = some (.header branch function) := by
  have hpair := readPair?_pairText branch function
  have hblank : readPair? (' ' :: pairText branch function) = some (branch, function) := by
    rwa [readPair?, fields_cons_blank (by decide)]
  simp [ReportLine.read?, headerText, hblank]

/-- A written dependent is read back. It is no header, since it starts with a digit. -/
theorem read?_pairText (number function : UInt32) :
    ReportLine.read? (pairText number function) = some (.dependent number function) := by
  have hpair := readPair?_pairText number function
  obtain ⟨d, tail, heq, hd⟩ := exists_pairText_eq_cons number function
  -- so the line is not taken for an end or a header
  have hdash : d ≠ '-' := by
    rintro rfl
    exact absurd hd (by decide)
  have hstar : d ≠ '*' := by
    rintro rfl
    exact absurd hd (by decide)
  rw [heq] at hpair ⊢
  simp [ReportLine.read?, hdash, hstar, hpair]

theorem read?_closeText : ReportLine.read? closeText = some .close := rfl

/-! ## Records -/

section Reading

variable {total : Nat} {record : Record} {records : List Record} {line : Line}
  {rows rest : List Line}

/-- A header opens a record. -/
theorem readRecords_header {branch function : UInt32} (h : line.text = headerText branch function) :
    readRecords total none (line :: rest) =
      readRecords total (some ⟨branch, function, []⟩) rest := by
  have hne : line.text ≠ [] := by simp [h, headerText]
  rw [readRecords, if_neg hne, h, read?_headerText]

/-- A closing line ends the record. -/
theorem readRecords_close (h : line.text = closeText) :
    readRecords total (some record) (line :: rest) =
      (readRecords total none rest >>= fun others => .ok (record :: others)) := by
  have hne : line.text ≠ [] := by simp [h, closeText]
  rw [readRecords, if_neg hne, h, read?_closeText]
  rfl

/-- Dependents are added to the record in the order of their lines. -/
theorem readRecords_dependents {branch function : UInt32} {before numbers : List UInt32}
    (h : rows.map Line.text = numbers.map (pairText · function)) :
    readRecords total (some ⟨branch, function, before⟩) (rows ++ rest) =
      readRecords total (some ⟨branch, function, before ++ numbers⟩) rest := by
  -- each line adds one dependent behind those before
  induction numbers generalizing rows before with
  | nil =>
    obtain rfl := List.map_eq_nil_iff.mp h
    rw [List.nil_append, List.append_nil]
  | cons number numbers ih =>
    obtain ⟨line, rows, rfl, hline, hrows⟩ := List.map_eq_cons_iff.mp h
    have hne : line.text ≠ [] := by simp [hline, pairText]
    rw [List.cons_append, readRecords, if_neg hne, hline, read?_pairText]
    simp only [if_true]
    rw [ih hrows, List.append_assoc, List.singleton_append]

/-- The lines of one record are read as this record. -/
theorem readRecords_texts (h : rows.map Line.text = record.texts) :
    readRecords total none (rows ++ rest) =
      (readRecords total none rest >>= fun others => .ok (record :: others)) := by
  obtain ⟨header, rows, rfl, hheader, h⟩ := List.map_eq_cons_iff.mp h
  obtain ⟨dependents, ends, rfl, hdependents, hends⟩ := List.map_eq_append_iff.mp h
  obtain ⟨close, rfl, hclose⟩ := List.map_eq_singleton_iff.mp hends
  rw [List.cons_append, readRecords_header hheader, List.append_assoc,
    readRecords_dependents hdependents, List.singleton_append, readRecords_close hclose,
    List.nil_append]

end Reading

/-- **A written report is read back.** -/
theorem readReport_renderReport (records : List Record) :
    readReport (renderReport records) = .ok records := by
  have hread (total : Nat) (rows : List Line)
      (h : rows.map Line.text = records.flatMap Record.texts) :
      readRecords total none rows = .ok records := by
    induction records generalizing rows with
    | nil =>
      obtain rfl := List.map_eq_nil_iff.mp h
      rfl
    | cons record records ih =>
      obtain ⟨first, others, rfl, hfirst, hothers⟩ := List.map_eq_append_iff.mp h
      rw [readRecords_texts hfirst, ih others hothers]
      rfl
  have hplain : ∀ line ∈ records.flatMap Record.texts, trimEnd line = line ∧ '\n' ∉ line := by
    intro line hline
    obtain ⟨record, -, hline⟩ := List.mem_flatMap.mp hline
    exact plain_of_mem_texts hline
  -- blanks at the end of a line are cut off in reading, but none were written
  apply hread
  rw [toList_renderReport, map_text_lines_flatMap fun line hline => (hplain line hline).2,
    List.map_congr_left fun line hline => (hplain line hline).1, List.map_id']

theorem renderReport_append (records others : List Record) :
    renderReport (records ++ others) = renderReport records ++ renderReport others := by
  simp [renderReport]

/-- Writing functions one after the other adds their records to the report, in this order. -/
theorem foldl_writeFunction (records : List Record) (calls : List Dependencies) :
    calls.foldl writeFunction (renderReport records) =
      renderReport (records ++ calls.flatMap Dependencies.records) := by
  induction calls generalizing records with
  | nil => simp
  | cons deps calls ih =>
    rw [List.foldl_cons, writeFunction, ← renderReport_append, ih, List.flatMap_cons,
      List.append_assoc]

/-- The texts of any records, one after the other, are read back as these records. So is what is
written function by function, at the end of nothing or of a report that is there already. -/
theorem readReport_written (records : List Record) (calls : List Dependencies) :
    readReport (String.join (records.map Record.render)) = .ok records ∧
      readReport (calls.foldl writeFunction "") = .ok (calls.flatMap Dependencies.records) ∧
      readReport (calls.foldl writeFunction (String.join (records.map Record.render))) =
        .ok (records ++ calls.flatMap Dependencies.records) := by
  refine ⟨readReport_renderReport records, ?_, ?_⟩
  · have hwritten := foldl_writeFunction [] calls
    rw [List.nil_append] at hwritten
    exact (congrArg readReport hwritten).trans (readReport_renderReport _)
  · exact (congrArg readReport (foldl_writeFunction records calls)).trans
      (readReport_renderReport _)

end Rejoin
