import Rejoin.Proofs.Report.Grammar

/-!
# Reports behind each other

What is appended to a report is read as if it stood alone: its records follow those of the report,
and an error in it is the same error, so many lines and bytes further on: `readReport_append`.
-/

namespace Rejoin

/-- The label so many bytes further on. -/
def Label.shift (bytes : Nat) (label : Label) : Label :=
  { label with offset := label.offset + bytes }

/-- The error that the same text gives behind so many lines and bytes. -/
def ReportError.shift (count bytes : Nat) : ReportError → ReportError
  | malformed line => malformed (line.shift count bytes)
  | unterminated line => unterminated (line.shift count bytes)
  | orphan line => orphan (line.shift count bytes)
  | functionMismatch expected found line =>
    functionMismatch expected found (line.shift count bytes)
  | unexpectedEnd position => unexpectedEnd (position + bytes)

/-- A moved line has its bytes moved. -/
theorem Line.span_shift (count bytes : Nat) (line : Line) :
    (line.shift count bytes).span = ⟨line.span.start + bytes, line.span.stop + bytes⟩ := by
  simp only [span, shift, Nat.add_right_comm]

/-- The labels of a moved error are moved. -/
theorem ReportError.labels_shift (count bytes : Nat) (e : ReportError) :
    (e.shift count bytes).diagnostic.labels = e.diagnostic.labels.map (Label.shift bytes) := by
  have hover (line : Line) (remark : String) :
      [Label.over (line.shift count bytes).span remark] =
        [Label.over line.span remark].map (Label.shift bytes) := by
    simp [Label.over, Label.shift, Line.span_shift, Span.length, Nat.add_sub_add_right]
  cases e with
  | malformed line => exact hover line _
  | unterminated line => exact hover line _
  | orphan line => exact hover line _
  | functionMismatch expected found line => exact hover line _
  | unexpectedEnd position => rfl

/-- Lines are read by their texts: their numbers and places only appear in errors. -/
theorem readRecords_shift (total count bytes : Nat) (current : Option Record) (all : List Line) :
    readRecords (total + bytes) current (all.map (Line.shift count bytes)) =
      (readRecords total current all).mapError (ReportError.shift count bytes) := by
  -- line by line: what a line says does not depend on where it stands, only errors tell
  induction all generalizing current with
  | nil => cases current <;> rfl
  | cons line rest ih =>
    have htext : (line.shift count bytes).text = line.text := rfl
    rw [List.map_cons]
    by_cases hblank : line.text = []
    · rw [readRecords_blank hblank, readRecords_blank (htext.trans hblank), ih]
    · cases current with
      | none =>
        rw [readRecords, readRecords, htext, if_neg hblank, if_neg hblank]
        cases ReportLine.read? line.text with
        | none => rfl
        | some said =>
          cases said with
          | close => rfl
          | header branch function => exact ih _
          | dependent number function => rfl
      | some record =>
        rw [readRecords, readRecords, htext, if_neg hblank, if_neg hblank]
        cases ReportLine.read? line.text with
        | none => rfl
        | some said =>
          cases said with
          | close =>
            dsimp only
            rw [ih]
            cases readRecords total none rest <;> rfl
          | header branch function => rfl
          | dependent number function =>
            dsimp only
            split
            · exact ih _
            · rfl

/-- **Appending reports.** Behind a report that ends its last line, a text is read as alone: its
records follow, or its error does, further on by the lines and bytes of the report. -/
theorem readReport_append {report : String} {records : List Record}
    (h : readReport report = .ok records) (hends : EndsLine report.toList) (text : String) :
    (∀ others, readReport text = .ok others →
        readReport (report ++ text) = .ok (records ++ others)) ∧
      ∀ e, readReport text = .error e →
        let further := e.shift (report.toList.count '\n') report.utf8ByteSize
        readReport (report ++ text) = .error further ∧
          further.diagnostic.labels =
            e.diagnostic.labels.map (Label.shift report.utf8ByteSize) := by
  have hread : readReport (report ++ text) =
      ((readReport text).mapError
        (ReportError.shift (report.toList.count '\n') report.utf8ByteSize)).map (records ++ ·) := by
    -- an accepted report leaves no record open, so reading goes on as at the start of a text
    have htells := tells_none_iff.mpr (readRecords_eq_ok_iff.mp h)
    rw [readReport, String.toList_append, lines_append hends, htells.readRecords_append,
      byteLength_append, Nat.add_comm, ← utf8ByteSize_eq report, readRecords_shift, readReport]
  constructor
  · intro others hothers
    rw [hread, hothers]
    rfl
  · intro e he
    refine ⟨?_, ReportError.labels_shift _ _ e⟩
    rw [hread, he]
    rfl

/-- A report of one record. -/
def oneRecord : String := "* 1 2\n3 2\n---\n"

/-- A record behind a record, and a record with a malformed line some lines behind it. -/
theorem readReport_append_oneRecord :
    (readReport oneRecord = .ok [⟨1, 2, [3]⟩] ∧ EndsLine oneRecord.toList) ∧
      readReport (oneRecord ++ oneRecord) = .ok [⟨1, 2, [3]⟩, ⟨1, 2, [3]⟩] ∧
      readReport (oneRecord ++ "\n* é\n") = .error (.malformed ⟨5, 15, ['*', ' ', 'é']⟩) := by
  have hread : readReport oneRecord = .ok [⟨1, 2, [3]⟩] := by decide +kernel
  have hends : EndsLine oneRecord.toList := .inr (by decide +kernel)
  have hfault : readReport "\n* é\n" = .error (.malformed ⟨2, 1, ['*', ' ', 'é']⟩) := by
    decide +kernel
  refine ⟨⟨hread, hends⟩, (readReport_append hread hends oneRecord).1 _ hread, ?_⟩
  exact ((readReport_append hread hends "\n* é\n").2 _ hfault).1

end Rejoin
