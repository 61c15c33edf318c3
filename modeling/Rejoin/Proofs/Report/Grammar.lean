import Rejoin.Proofs.Report.Reader

/-!
# The grammar of reports

A report is a row of records: a header, any number of dependents of the same function, and an end.
Reading accepts exactly these texts, and otherwise stops at the first line that no report could have
there, or at the end of the text: `readReport_exact`.

`Advances` says what a line may do to the record that is open. Reading follows it line by line, and
so does the start of a report, `Tells`.
-/

namespace Rejoin

variable {text : List Char} {first second : UInt32}

/-! ## What a line says -/

/-- Two unsigned 32-bit decimal numbers with blanks between them, and perhaps around them. -/
def IsPair (text : List Char) (first second : UInt32) : Prop :=
  ∃ lead word gap other trail, text = lead ++ (word ++ (gap ++ (other ++ trail))) ∧
    (∀ c ∈ lead, isBlank c = true) ∧ SpellsUnsigned 10 word first.toNat ∧ IsGap gap ∧
    SpellsUnsigned 10 other second.toNat ∧ ∀ c ∈ trail, isBlank c = true

/-- A pair of numbers is read exactly where one is written. -/
theorem readPair?_eq_some_iff :
    readPair? text = some (first, second) ↔ IsPair text first second := by
  constructor
  · intro h
    obtain ⟨word, other, hfields⟩ : ∃ word other, fields text = [word, other] := by
      unfold readPair? at h
      split at h
      · exact ⟨_, _, ‹_›⟩
      · exact absurd h (by simp)
    simp only [readPair?, hfields, Option.bind_eq_bind, Option.bind_eq_some_iff, Option.pure_def,
      Option.some.injEq, Prod.mk.injEq] at h
    obtain ⟨_, hword, _, hother, rfl, rfl⟩ := h
    -- the blanks before, between and behind the two fields
    obtain ⟨lead, rest, rfl, hlead, -, -, hrest, hothers⟩ := fields_eq_cons_iff.mp hfields
    obtain ⟨gap, trail, rfl, hgap, hne, hplain, -, htrail⟩ := fields_eq_cons_iff.mp hothers
    exact ⟨lead, word, gap, other, trail, rfl, hlead, readUInt32?_eq_some_iff.mp hword,
      isGap_of_head? hgap hne hplain hrest, readUInt32?_eq_some_iff.mp hother,
      fields_eq_nil_iff.mp htrail⟩
  · rintro ⟨lead, word, gap, other, trail, rfl, hlead, hword, hgap, hother, htrail⟩
    have hfields : fields (lead ++ (word ++ (gap ++ (other ++ trail)))) = [word, other] := by
      rw [fields_blanks_append hlead, hgap.fields_append hword.ne_nil hword.isBlank,
        fields_append_blanks htrail, fields_of_word hother.ne_nil hother.isBlank]
    simp [readPair?, hfields, hword.readUInt32?, hother.readUInt32?]

/-- What may be said by a line without blanks at its end. -/
inductive ReportLine.Says : List Char → ReportLine → Prop
  /-- Three dashes, and nothing before them, end a record. -/
  | close : Says ['-', '-', '-'] .close
  /-- A header starts with an asterisk. -/
  | header {pair : List Char} {branch function : UInt32} (h : IsPair pair branch function) :
    Says ('*' :: pair) (.header branch function)
  /-- A dependent is a pair alone. -/
  | dependent {pair : List Char} {number function : UInt32} (h : IsPair pair number function) :
    Says pair (.dependent number function)

/-- A pair starts with a blank, a sign or a digit. -/
theorem IsPair.exists_head (h : IsPair text first second) :
    ∃ c tail, text = c :: tail ∧ c ≠ '-' ∧ c ≠ '*' := by
  obtain ⟨lead, word, gap, other, trail, rfl, hlead, hword, -⟩ := h
  cases lead with
  | cons c lead =>
    -- a pair starts with a blank, a digit or a plus sign
    have hblank := hlead c List.mem_cons_self
    refine ⟨c, _, rfl, ?_, ?_⟩
    · rintro rfl
      exact absurd hblank (by decide)
    · rintro rfl
      exact absurd hblank (by decide)
  | nil =>
    rcases hword with hspells | ⟨digits, rfl, -⟩
    · obtain ⟨c, tail, rfl⟩ := List.exists_cons_of_ne_nil hspells.1
      have hdigit := hspells.isDigit c List.mem_cons_self
      refine ⟨c, _, rfl, ?_, ?_⟩
      · rintro rfl
        exact absurd hdigit (by decide)
      · rintro rfl
        exact absurd hdigit (by decide)
    · exact ⟨'+', _, rfl, by decide, by decide⟩

/-- A line is read as what it says. -/
theorem ReportLine.read?_eq_some_iff {said : ReportLine} :
    ReportLine.read? text = some said ↔ Says text said := by
  constructor
  · intro h
    unfold read? at h
    split at h
    · subst text
      obtain rfl := Option.some.inj h
      exact .close
    · split at h
      · obtain ⟨⟨branch, function⟩, hpair, rfl⟩ := Option.map_eq_some_iff.mp h
        exact .header (readPair?_eq_some_iff.mp hpair)
      · obtain ⟨⟨number, function⟩, hpair, rfl⟩ := Option.map_eq_some_iff.mp h
        exact .dependent (readPair?_eq_some_iff.mp hpair)
  · rintro (_ | h | h)
    · rfl
    · simp [read?, readPair?_eq_some_iff.mpr h]
    · obtain ⟨c, tail, rfl, hdash, hstar⟩ := h.exists_head
      simp [read?, hdash, hstar, readPair?_eq_some_iff.mpr h]

theorem ReportLine.Says.ne_nil {said : ReportLine} (h : Says text said) : text ≠ [] := by
  rcases h with _ | h | h
  · exact List.cons_ne_nil _ _
  · exact List.cons_ne_nil _ _
  · obtain ⟨c, tail, rfl, -⟩ := h.exists_head
    exact List.cons_ne_nil _ _

/-- A line says one thing. -/
theorem ReportLine.Says.unique {said other : ReportLine} (h : Says text said)
    (hother : Says text other) : said = other := by
  rw [← read?_eq_some_iff] at h hother
  exact Option.some.inj (h.symm.trans hother)

/-! ## Rows of records -/

open ReportLine (Says)

/-- What the lines of a record say before its end. -/
def Record.opening (record : Record) : List ReportLine :=
  .header record.branch record.function :: record.dependents.map (.dependent · record.function)

/-- What the lines of a record say. -/
def Record.said (record : Record) : List ReportLine :=
  record.opening ++ [.close]

/-- The rows are those of the records, one record after the other. -/
def IsReport (texts : List (List Char)) (records : List Record) : Prop :=
  List.Forall₂ Says texts (records.flatMap Record.said)

/-- The rows could start a report. -/
def Viable (texts : List (List Char)) : Prop :=
  ∃ more records, IsReport (texts ++ more) records

/-- The rows are those of the records, and then of the start of the one that is open. -/
def Tells (texts : List (List Char)) (records : List Record) (current : Option Record) : Prop :=
  List.Forall₂ Says texts (records.flatMap Record.said ++ (current.map Record.opening).getD [])

/-- What a line may say while `current` is open, the records it closes and what is open then. -/
inductive Advances : Option Record → ReportLine → List Record → Option Record → Prop
  /-- A header opens a record where none is open. -/
  | header (branch function : UInt32) :
    Advances none (.header branch function) [] (some ⟨branch, function, []⟩)
  /-- A dependent joins the record that is open if it names its function. -/
  | dependent (record : Record) (number : UInt32) :
    Advances (some record) (.dependent number record.function) []
      (some { record with dependents := record.dependents ++ [number] })
  /-- An end closes the record that is open. -/
  | close (record : Record) : Advances (some record) .close [record] none

/-- What is wrong with a line behind these rows. -/
inductive Blames (before : List (List Char)) (line : Line) : ReportError → Prop
  /-- It says nothing. -/
  | malformed (h : ∀ said, ¬Says line.text said) : Blames before line (.malformed line)
  /-- It is a header inside a record. -/
  | unterminated {records : List Record} {record : Record} {branch function : UInt32}
    (hinside : Tells before records (some record))
    (h : Says line.text (.header branch function)) : Blames before line (.unterminated line)
  /-- It is an end outside any record. -/
  | orphanClose {records : List Record} (houtside : Tells before records none)
    (h : Says line.text .close) : Blames before line (.orphan line)
  /-- It is a dependent outside any record. -/
  | orphanDependent {records : List Record} {number function : UInt32}
    (houtside : Tells before records none)
    (h : Says line.text (.dependent number function)) : Blames before line (.orphan line)
  /-- It is a dependent of another function than that of the record. -/
  | functionMismatch {records : List Record} {record : Record} {number function : UInt32}
    (hinside : Tells before records (some record))
    (h : Says line.text (.dependent number function)) (hne : record.function ≠ function) :
    Blames before line (.functionMismatch record.function function line)

section Grammar

variable {texts before : List (List Char)} {records closed : List Record}
  {current next : Option Record} {said : ReportLine} {line : Line} {e : ReportError}

/-- Rows that end between two records are a report. -/
theorem tells_none_iff : Tells texts records none ↔ IsReport texts records := by
  simp [Tells, IsReport]

/-- One more line appends what it says to what has been told. -/
theorem Advances.flatMap_said (h : Advances current said closed next) (records : List Record) :
    (records ++ closed).flatMap Record.said ++ (next.map Record.opening).getD [] =
      records.flatMap Record.said ++ (current.map Record.opening).getD [] ++ [said] := by
  cases h <;> simp [Record.said, Record.opening]

/-- A line that may follow the start of a report makes it longer. -/
theorem Advances.tells (h : Advances current said closed next) (htext : Says text said)
    (htells : Tells texts records current) : Tells (texts ++ [text]) (records ++ closed) next := by
  rw [Tells, h.flatMap_said]
  exact List.rel_append htells (.cons htext .nil)

/-- A line carries a record on in one way. -/
theorem Advances.unique {other : List Record} {last : Option Record}
    (h : Advances current said closed next) (hother : Advances current said other last) :
    closed = other ∧ next = last := by
  cases h <;> cases hother <;> exact ⟨rfl, rfl⟩

/-- Whatever has been told, a last line has told it, unless nothing has. -/
theorem exists_advances (records : List Record) (current : Option Record) :
    (records = [] ∧ current = none) ∨ ∃ earlier previous said closed,
      records = earlier ++ closed ∧ Advances previous said closed current := by
  rcases current with _ | ⟨branch, function, dependents⟩
  · rcases List.eq_nil_or_concat' records with rfl | ⟨earlier, record, rfl⟩
    · exact .inl ⟨rfl, rfl⟩
    · exact .inr ⟨earlier, _, _, [record], rfl, .close record⟩
  · refine .inr ⟨records, ?_⟩
    rcases List.eq_nil_or_concat' dependents with rfl | ⟨dependents, number, rfl⟩
    · exact ⟨_, _, [], (List.append_nil _).symm, .header branch function⟩
    · exact ⟨_, _, [], (List.append_nil _).symm, .dependent ⟨branch, function, dependents⟩ number⟩

theorem tells_nil_iff : Tells [] records current ↔ records = [] ∧ current = none := by
  constructor
  · intro h
    rcases exists_advances records current with hnil | ⟨earlier, previous, said, closed, rfl, hadv⟩
    · exact hnil
    · rw [Tells, hadv.flatMap_said, List.forall₂_nil_left_iff] at h
      simp at h
  · rintro ⟨rfl, rfl⟩
    exact .nil

/-- The last line of the start of a report goes on with a shorter start. -/
theorem Tells.concat_cases (h : Tells (texts ++ [text]) records current) :
    ∃ earlier previous said closed, records = earlier ++ closed ∧ Says text said ∧
      Advances previous said closed current ∧ Tells texts earlier previous := by
  rcases exists_advances records current with
    ⟨rfl, rfl⟩ | ⟨earlier, previous, said, closed, rfl, hadv⟩
  · have hnil := List.forall₂_nil_right_iff.mp h
    simp at hnil
  · rw [Tells, hadv.flatMap_said, ← List.forall₂_reverse_iff, List.reverse_concat,
      List.reverse_concat, List.forall₂_cons, List.forall₂_reverse_iff] at h
    exact ⟨earlier, previous, said, closed, rfl, h.1, hadv, h.2⟩

/-- Rows tell of no other records. -/
theorem Tells.unique {others : List Record} {other : Option Record}
    (h : Tells texts records current) (hother : Tells texts others other) :
    records = others ∧ current = other := by
  induction texts using List.reverseRecOn generalizing records current others other with
  | nil =>
    obtain ⟨rfl, rfl⟩ := tells_nil_iff.mp h
    obtain ⟨rfl, rfl⟩ := tells_nil_iff.mp hother
    exact ⟨rfl, rfl⟩
  | append_singleton texts text ih =>
    obtain ⟨earlier, previous, said, closed, rfl, hsaid, hadv, htells⟩ := h.concat_cases
    obtain ⟨_, _, _, _, rfl, hsaid', hadv', htells'⟩ := hother.concat_cases
    -- the rows before the last one settle where it goes on, and its text how
    obtain ⟨rfl, rfl⟩ := ih htells htells'
    obtain rfl := hsaid.unique hsaid'
    obtain ⟨rfl, rfl⟩ := hadv.unique hadv'
    exact ⟨rfl, rfl⟩

/-- What could start a report tells of records and of one that may be open. -/
theorem viable_iff : Viable texts ↔ ∃ records current, Tells texts records current := by
  constructor
  · rintro ⟨more, records, h⟩
    rw [← tells_none_iff] at h
    generalize none = current at h
    -- the rows that follow are taken away from the end
    induction more using List.reverseRecOn generalizing records current with
    | nil => exact ⟨records, current, by rwa [List.append_nil] at h⟩
    | append_singleton more text ih =>
      rw [← List.append_assoc] at h
      obtain ⟨earlier, previous, -, -, -, -, -, htells⟩ := h.concat_cases
      exact ih _ _ htells
  · rintro ⟨records, current, h⟩
    cases current with
    | none => exact ⟨[], records, by rwa [List.append_nil, ← tells_none_iff]⟩
    | some record =>
      -- an end is all that is missing
      have hclosed := (Advances.close record).tells .close h
      exact ⟨[closeText], records ++ [record], tells_none_iff.mp hclosed⟩

/-- Behind the start of a report a line goes on, or something is wrong with it. -/
theorem Tells.advances_or_blames (h : Tells before records current) (line : Line) :
    (∃ said closed next, Says line.text said ∧ Advances current said closed next) ∨
      ∃ e, Blames before line e := by
  -- a line that says nothing is malformed wherever it stands
  by_cases hsaid : ∃ said, Says line.text said
  · obtain ⟨said, hsaid⟩ := hsaid
    cases current with
    | none =>
      cases said with
      | header branch function => exact .inl ⟨_, _, _, hsaid, .header branch function⟩
      | close => exact .inr ⟨_, .orphanClose h hsaid⟩
      | dependent number function => exact .inr ⟨_, .orphanDependent h hsaid⟩
    | some record =>
      cases said with
      | header branch function => exact .inr ⟨_, .unterminated h hsaid⟩
      | close => exact .inl ⟨_, _, _, hsaid, .close record⟩
      | dependent number function =>
        by_cases hfunction : record.function = function
        · subst hfunction
          exact .inl ⟨_, _, _, hsaid, .dependent record number⟩
        · exact .inr ⟨_, .functionMismatch h hsaid hfunction⟩
  · exact .inr ⟨_, .malformed (not_exists.mp hsaid)⟩

/-- No report has a line with which something is wrong. -/
theorem Blames.not_viable (h : Blames before line e) : ¬Viable (before ++ [line.text]) := by
  intro hviable
  obtain ⟨records, next, htells⟩ := viable_iff.mp hviable
  obtain ⟨earlier, current, said, closed, -, hsaid, hadv, hbefore⟩ := htells.concat_cases
  -- what is open before the line and what it says are settled, and nothing goes on from there
  cases h with
  | malformed h => exact h said hsaid
  | unterminated hinside h =>
    obtain ⟨-, rfl⟩ := hbefore.unique hinside
    obtain rfl := hsaid.unique h
    cases hadv
  | orphanClose houtside h =>
    obtain ⟨-, rfl⟩ := hbefore.unique houtside
    obtain rfl := hsaid.unique h
    cases hadv
  | orphanDependent houtside h =>
    obtain ⟨-, rfl⟩ := hbefore.unique houtside
    obtain rfl := hsaid.unique h
    cases hadv
  | functionMismatch hinside h hne =>
    obtain ⟨-, rfl⟩ := hbefore.unique hinside
    obtain rfl := hsaid.unique h
    cases hadv
    exact hne rfl

end Grammar

/-! ## Reading -/

section Reading

variable {total : Nat} {records closed : List Record} {current next : Option Record}
  {said : ReportLine} {line : Line} {earlier rest : List Line} {e : ReportError}

/-- Empty lines are passed over. -/
theorem readRecords_blank (h : line.text = []) :
    readRecords total current (line :: rest) = readRecords total current rest := by
  cases current with
  | none => rw [readRecords, if_pos h]
  | some record => rw [readRecords, if_pos h]

/-- Reading a line that may follow. -/
theorem Advances.readRecords_cons (h : Advances current said closed next)
    (hline : Says line.text said) (total : Nat) (rest : List Line) :
    readRecords total current (line :: rest) = (readRecords total next rest).map (closed ++ ·) := by
  have hread := ReportLine.read?_eq_some_iff.mpr hline
  cases h with
  | header branch function =>
    rw [readRecords, if_neg hline.ne_nil, hread]
    dsimp only
    cases readRecords total _ rest <;> rfl
  | dependent record number =>
    rw [readRecords, if_neg hline.ne_nil, hread]
    simp only [if_true]
    cases readRecords total _ rest <;> rfl
  | close record =>
    rw [readRecords, if_neg hline.ne_nil, hread]
    dsimp only
    cases readRecords total none rest <;> rfl

/-- Reading the start of a report gives its records, and goes on with the one that is open. -/
theorem Tells.readRecords_append (h : Tells (rowsOf earlier) records current) (total : Nat)
    (rest : List Line) :
    readRecords total none (earlier ++ rest) =
      (readRecords total current rest).map (records ++ ·) := by
  -- induction from the end: the last line takes one step from what the others lead to
  induction earlier using List.reverseRecOn generalizing records current rest with
  | nil =>
    obtain ⟨rfl, rfl⟩ := tells_nil_iff.mp h
    cases hread : readRecords total none rest <;> simp [hread, Except.map]
  | append_singleton earlier line ih =>
    rw [rowsOf_append] at h
    rw [List.append_assoc, List.singleton_append]
    by_cases hblank : line.text = []
    · rw [rowsOf_blank hblank, List.append_nil] at h
      rw [ih h, readRecords_blank hblank]
    · rw [rowsOf_singleton hblank] at h
      obtain ⟨first, previous, said, closed, rfl, hsaid, hadv, htells⟩ := h.concat_cases
      rw [ih htells, hadv.readRecords_cons hsaid]
      cases readRecords total current rest <;> simp [Except.map]

/-- Reading fails at the first line with which something is wrong. -/
theorem Blames.readRecords_eq_error (h : Blames (rowsOf earlier) line e)
    (hbefore : Tells (rowsOf earlier) records current) (hne : line.text ≠ []) (total : Nat)
    (later : List Line) : readRecords total none (earlier ++ line :: later) = .error e := by
  have hread {said : ReportLine} (hsaid : Says line.text said) :=
    ReportLine.read?_eq_some_iff.mpr hsaid
  cases h with
  | malformed h =>
    -- a malformed line says nothing, so the record that is open does not matter
    have hnone : ReportLine.read? line.text = none :=
      Option.eq_none_iff_forall_ne_some.mpr fun said hsaid =>
        h said (ReportLine.read?_eq_some_iff.mp hsaid)
    rw [hbefore.readRecords_append]
    cases current <;> rw [readRecords, if_neg hne, hnone] <;> rfl
  | unterminated hinside h =>
    rw [hinside.readRecords_append, readRecords, if_neg hne, hread h]
    rfl
  | orphanClose houtside h =>
    rw [houtside.readRecords_append, readRecords, if_neg hne, hread h]
    rfl
  | orphanDependent houtside h =>
    rw [houtside.readRecords_append, readRecords, if_neg hne, hread h]
    rfl
  | functionMismatch hinside h hfunction =>
    rw [hinside.readRecords_append, readRecords, if_neg hne, hread h]
    simp only [if_neg hfunction]
    rfl

/-- Lines start a report, or there is a first one with which something is wrong. -/
theorem exists_tells_or_blames (all : List Line) :
    (∃ records current, Tells (rowsOf all) records current) ∨
      ∃ earlier line later e, all = earlier ++ line :: later ∧ line.text ≠ [] ∧
        Viable (rowsOf earlier) ∧ Blames (rowsOf earlier) line e := by
  -- a further line counts only as long as nothing was wrong before it
  induction all using List.reverseRecOn with
  | nil => exact .inl ⟨[], none, .nil⟩
  | append_singleton all line ih =>
    rcases ih with ⟨records, current, h⟩ | ⟨earlier, first, later, e, rfl, hfirst⟩
    · rw [rowsOf_append]
      by_cases hblank : line.text = []
      · rw [rowsOf_blank hblank, List.append_nil]
        exact .inl ⟨records, current, h⟩
      · rw [rowsOf_singleton hblank]
        rcases h.advances_or_blames line with ⟨said, closed, next, hsaid, hadv⟩ | ⟨e, hblames⟩
        · exact .inl ⟨_, _, hadv.tells hsaid h⟩
        · exact .inr ⟨all, line, [], e, rfl, hblank, viable_iff.mpr ⟨_, _, h⟩, hblames⟩
    · exact .inr ⟨earlier, first, later ++ [line], e, by simp, hfirst⟩

/-- Reading all of the start of a report ends well if no record is open. -/
theorem Tells.readRecords_eq {all : List Line} (h : Tells (rowsOf all) records current)
    (total : Nat) :
    readRecords total none all =
      current.elim (.ok records) fun _ => .error (.unexpectedEnd total) := by
  have hread := h.readRecords_append total []
  rw [List.append_nil] at hread
  rw [hread]
  cases current with
  | none => exact congrArg Except.ok (List.append_nil records)
  | some record => rfl

/-- Reading succeeds on reports, and with their records. -/
theorem readRecords_eq_ok_iff {all : List Line} :
    readRecords total none all = .ok records ↔ IsReport (rowsOf all) records := by
  constructor
  · intro h
    rcases exists_tells_or_blames all with
      ⟨told, current, htells⟩ | ⟨earlier, line, later, e, rfl, hne, hviable, hblames⟩
    · rw [htells.readRecords_eq] at h
      cases current with
      | none =>
        obtain rfl := Except.ok.inj h
        exact tells_none_iff.mp htells
      | some record => cases h
    · obtain ⟨told, current, htells⟩ := viable_iff.mp hviable
      rw [hblames.readRecords_eq_error htells hne] at h
      cases h
  · intro h
    exact (tells_none_iff.mpr h).readRecords_eq total

/-- Reading fails at the first line that cannot carry the report on, or at the end of a text that
stops in the middle of a record. -/
theorem readRecords_eq_error_iff {all : List Line} :
    readRecords total none all = .error e ↔
      (∃ earlier line later, all = earlier ++ line :: later ∧ line.text ≠ [] ∧
        Viable (rowsOf earlier) ∧ Blames (rowsOf earlier) line e) ∨
      e = .unexpectedEnd total ∧ Viable (rowsOf all) ∧
        ¬∃ records, IsReport (rowsOf all) records := by
  constructor
  · intro h
    -- either all rows tell something, so the text stops too early, or one of them is the first to
    -- blame
    rcases exists_tells_or_blames all with
      ⟨told, current, htells⟩ | ⟨earlier, line, later, e', rfl, hne, hviable, hblames⟩
    · refine .inr ⟨?_, viable_iff.mpr ⟨_, _, htells⟩, ?_⟩
      · rw [htells.readRecords_eq] at h
        cases current with
        | none => cases h
        | some record => exact (Except.error.inj h).symm
      · rintro ⟨records, hreport⟩
        rw [readRecords_eq_ok_iff.mpr hreport] at h
        cases h
    · obtain ⟨told, current, htells⟩ := viable_iff.mp hviable
      rw [hblames.readRecords_eq_error htells hne] at h
      obtain rfl := Except.error.inj h
      exact .inl ⟨earlier, line, later, rfl, hne, hviable, hblames⟩
  · rintro (⟨earlier, line, later, rfl, hne, hviable, hblames⟩ | ⟨rfl, hviable, hnot⟩)
    · obtain ⟨told, current, htells⟩ := viable_iff.mp hviable
      exact hblames.readRecords_eq_error htells hne total later
    · obtain ⟨told, current, htells⟩ := viable_iff.mp hviable
      cases current with
      | none => exact absurd ⟨told, tells_none_iff.mp htells⟩ hnot
      | some record => exact htells.readRecords_eq total

end Reading

/-- The place an error points at. -/
def ReportError.PointsAt (e : ReportError) (span : Span) : Prop :=
  ∃ remark, e.diagnostic.labels = [Label.over span remark]

theorem ReportError.pointsAt_unexpectedEnd (position : Nat) :
    (unexpectedEnd position).PointsAt ⟨position, position⟩ := by
  have hover (remark : String) :
      [⟨position, 0, remark⟩] = [Label.over ⟨position, position⟩ remark] := by
    rw [Label.over, Span.length, Nat.sub_self]
  exact ⟨_, hover _⟩

/-- An error points at the line that is to blame. -/
theorem Blames.pointsAt {before : List (List Char)} {line : Line} {e : ReportError}
    (h : Blames before line e) : e.PointsAt line.span := by
  cases h <;> exact ⟨_, rfl⟩

/-- **Reading accepts the reports and locates what is wrong with other texts.** The line that is
blamed is the first with which the text cannot start a report. It has the number and the bytes that
it has among all lines of the text, blank ones included. Without such a line it is the end of the
text that comes too early. -/
theorem readReport_exact (text : String) :
    (∀ records, readReport text = .ok records ↔ IsReport (rowTexts text.toList) records) ∧
      ∀ e, readReport text = .error e ↔
        (∃ before line, line.StandsIn text.toList before ∧ line.text ≠ [] ∧
          Viable (rowTexts before) ∧ ¬Viable (rowTexts before ++ [line.text]) ∧
          Blames (rowTexts before) line e ∧ e.PointsAt line.span ∧
          line.span.bytes text = line.text.utf8Encode) ∨
        e = .unexpectedEnd text.utf8ByteSize ∧ e.PointsAt ⟨text.utf8ByteSize, text.utf8ByteSize⟩ ∧
          Viable (rowTexts text.toList) ∧ ¬∃ records, IsReport (rowTexts text.toList) records := by
  -- reading goes by lines, and the texts of the lines that are not blank are the rows
  simp only [rowTexts_eq, utf8ByteSize_eq]
  refine ⟨fun records => readRecords_eq_ok_iff, fun e => readRecords_eq_error_iff.trans ?_⟩
  constructor
  · rintro (⟨earlier, line, later, hlines, hne, hviable, hblames⟩ | ⟨rfl, hviable, hnot⟩)
    · obtain ⟨before, hstands, rfl⟩ := exists_standsIn hlines
      exact .inl ⟨before, line, hstands, hne, hviable, hblames.not_viable, hblames,
        hblames.pointsAt, hstands.bytes_span⟩
    · exact .inr ⟨rfl, ReportError.pointsAt_unexpectedEnd _, hviable, hnot⟩
  · rintro (⟨before, line, hstands, hne, hviable, -, hblames, -⟩ | ⟨rfl, -, hviable, hnot⟩)
    · obtain ⟨later, hlines⟩ := hstands.exists_lines hne
      exact .inl ⟨_, line, later, hlines, hne, hviable, hblames⟩
    · exact .inr ⟨rfl, hviable, hnot⟩

/-- Blank lines count, a character may have several bytes, and blanks at the end of a line do not
belong to it. -/
example : readReport "\n* 1 2 \n\t+03 2\n\n4 é \n---\n" =
    .error (.malformed ⟨5, 16, ['4', ' ', 'é']⟩) := by
  decide +kernel

end Rejoin
