import Mathlib.Data.Finset.Card
import Rejoin.Address
import Rejoin.Proofs.Outcome
import Rejoin.Proofs.Text.Line

/-!
# The grammar of dumps

A dump may have lines of any kind, but a line that starts with `0x` has to be a row. Reading accepts
exactly the dumps in which all of these are rows, and otherwise blames the first that is not. What
is read is a map from locations to addresses in which later rows replace earlier ones,
`AddressMap.Holds`. Both are put together in `AddressMap.read_exact`.

* `isRow_iff_readRow?` — rows are read as what they spell, and nothing else is read;
* `AddressMap.readLines_cons_eq` — what one line does;
* `AddressMap.failsFirst_readLines` and `AddressMap.rows_of_readLines` — what all lines do.
-/

namespace Rejoin

/-! ## Rows -/

/-- A row of a line table: the address in hexadecimal after `0x`, the line and the column, with
blanks between them. Other fields may follow. The line is the number of the instruction at a
location, and the column the identifier of its function. -/
def IsRow (line : String) (pc : UInt64) (location : Location) : Prop :=
  ∃ lead address gap index gap' column rest : List Char,
    line.toList =
      '0' :: 'x' :: (lead ++ (address ++ (gap ++ (index ++ (gap' ++ (column ++ rest)))))) ∧
    (∀ c ∈ lead, isBlank c = true) ∧ SpellsUnsigned 16 address pc.toNat ∧
    IsGap gap ∧ SpellsUnsigned 10 index location.index.toNat ∧
    IsGap gap' ∧ SpellsUnsigned 10 column location.function.toNat ∧
    ∀ c, rest.head? = some c → isBlank c = true

/-- The line starts as a row but is none. -/
def IsMalformedRow (line : String) : Prop :=
  ['0', 'x'] <+: line.toList ∧ ∀ pc location, ¬IsRow line pc location

/-- The plain form of a row. -/
theorem isRow_plain (pc : UInt64) (location : Location) :
    IsRow ("0x" ++ hexadecimal pc.toNat ++ " " ++ decimal location.index.toNat ++ " " ++
      decimal location.function.toNat) pc location := by
  have hblank : IsGap [' '] := ⟨List.cons_ne_nil _ _, List.all_eq_true.mp (by decide)⟩
  have hhex : Spells 16 (hexadecimal pc.toNat).toList pc.toNat := by
    rw [hexadecimal, String.toList_ofList]
    exact spells_toDigits (by decide) (by decide) _
  exact ⟨[], _, [' '], _, [' '], _, [], by simp, by simp, .inl hhex, hblank,
    .inl (spells_decimal _), hblank, .inl (spells_decimal _), nofun⟩

/-- A row is what is read as one behind the two characters `0x`. -/
theorem isRow_iff_readRow? {line : String} {pc : UInt64} {location : Location} :
    IsRow line pc location ↔
      ∃ row, line.toList = '0' :: 'x' :: row ∧ readRow? row = some (pc, location) := by
  constructor
  · rintro ⟨lead, address, gap, index, gap', column, rest, hline, hlead, haddress, hgap, hindex,
      hgap', hcolumn, hrest⟩
    refine ⟨_, hline, ?_⟩
    rw [readRow?, fields_blanks_append hlead, hgap.fields_append haddress.ne_nil haddress.isBlank,
      hgap'.fields_append hindex.ne_nil hindex.isBlank,
      fields_append hcolumn.ne_nil hcolumn.isBlank hrest]
    simp [haddress.readHexUInt64?, hindex.readUInt32?, hcolumn.readUInt32?]
  · rintro ⟨row, hline, h⟩
    obtain ⟨address, index, column, words, hfields⟩ :
        ∃ address index column words, fields row = address :: index :: column :: words := by
      unfold readRow? at h
      split at h
      · exact ⟨_, _, _, _, ‹_›⟩
      · exact absurd h (by simp)
    simp only [readRow?, hfields, Option.bind_eq_bind, Option.bind_eq_some_iff, Option.pure_def,
      Option.some.injEq, Prod.mk.injEq] at h
    obtain ⟨_, haddress, _, hindex, _, hcolumn, rfl, rfl⟩ := h
    -- the fields are taken off one by one, each with the blanks before it
    obtain ⟨lead, rest, rfl, hlead, -, -, hrest, hfields⟩ := fields_eq_cons_iff.mp hfields
    obtain ⟨gap, rest, rfl, hgap, hne, hplain, hrest', hfields⟩ := fields_eq_cons_iff.mp hfields
    obtain ⟨gap', rest, rfl, hgap', hne', hplain', htail, -⟩ := fields_eq_cons_iff.mp hfields
    exact ⟨lead, address, gap, index, gap', column, rest, hline, hlead,
      readHexUInt64?_eq_some_iff.mp haddress, isGap_of_head? hgap hne hplain hrest,
      readUInt32?_eq_some_iff.mp hindex, isGap_of_head? hgap' hne' hplain' hrest',
      readUInt32?_eq_some_iff.mp hcolumn, htail⟩

/-- Blanks at the end of a row do not matter. -/
theorem readRow?_trimEnd (row : List Char) : readRow? (trimEnd row) = readRow? row := by
  rw [readRow?, fields_trimEnd, readRow?]

/-- What is read from a line that starts as a row. -/
def readAsRow : List Char → Option (Option (UInt64 × Location))
  | '0' :: 'x' :: row => some (readRow? row)
  | _ => none

/-- Whether a line starts as a row but is not read as one. -/
def isFaulty (text : List Char) : Bool :=
  readAsRow text == some none

/-- What a line adds to the addresses, if it is not faulty. -/
def givenBy (text : List Char) : Option (Location × UInt64) :=
  (readAsRow text).join.bind fun (pc, location) =>
    if functionIdBase ≤ location.function then some (location, pc) else none

/-- Only lines that start with `0x` are read as rows. -/
theorem readAsRow_eq_some_iff {text : List Char} {result : Option (UInt64 × Location)} :
    readAsRow text = some result ↔ ∃ row, text = '0' :: 'x' :: row ∧ readRow? row = result := by
  rw [readAsRow.eq_def]
  split
  · next row => simp
  · next hother =>
    refine iff_of_false nofun ?_
    rintro ⟨row, htext, -⟩
    exact hother row htext

/-- Blanks at the end of a line do not matter. -/
theorem readAsRow_trimEnd (text : List Char) : readAsRow (trimEnd text) = readAsRow text := by
  ext result
  rw [readAsRow_eq_some_iff, readAsRow_eq_some_iff]
  constructor
  · rintro ⟨row, htext, hread⟩
    have hsplit : trimEnd text ++ text.rtakeWhile isBlank = text :=
      List.rdropWhile_append_rtakeWhile
    rw [htext] at hsplit
    refine ⟨row ++ text.rtakeWhile isBlank, hsplit.symm, ?_⟩
    rw [readRow?, fields_append_blanks fun c hc => List.mem_rtakeWhile_imp hc]
    exact hread
  · rintro ⟨row, rfl, hread⟩
    rw [trimEnd_cons (by decide), trimEnd_cons (by decide)]
    exact ⟨trimEnd row, rfl, (readRow?_trimEnd row).trans hread⟩

/-- The rows are the lines that are read as one without a fault. -/
theorem isRow_iff_readAsRow {line : String} {pc : UInt64} {location : Location} :
    IsRow line pc location ↔ readAsRow line.toList = some (some (pc, location)) :=
  isRow_iff_readRow?.trans readAsRow_eq_some_iff.symm

/-- A line is the row of no other location and address. -/
theorem IsRow.unique {line : String} {pc pc' : UInt64} {location location' : Location}
    (h : IsRow line pc location) (h' : IsRow line pc' location') :
    pc = pc' ∧ location = location' := by
  rw [isRow_iff_readAsRow] at h h'
  simpa using h.symm.trans h'

/-- The faulty lines are the malformed rows. -/
theorem isFaulty_iff {line : String} : isFaulty line.toList = true ↔ IsMalformedRow line := by
  rw [isFaulty, beq_iff_eq, IsMalformedRow]
  simp only [isRow_iff_readAsRow]
  constructor
  · intro hfaulty
    obtain ⟨row, hline, -⟩ := readAsRow_eq_some_iff.mp hfaulty
    refine ⟨⟨row, hline.symm⟩, fun pc location hrow => ?_⟩
    rw [hfaulty] at hrow
    cases hrow
  · rintro ⟨⟨row, hline⟩, hnot⟩
    refine readAsRow_eq_some_iff.mpr ⟨row, hline.symm, Option.eq_none_iff_forall_ne_some.mpr ?_⟩
    rintro ⟨pc, location⟩ hread
    exact hnot pc location (readAsRow_eq_some_iff.mpr ⟨row, hline.symm, hread⟩)

/-- A row counts only for columns that are identifiers of functions. -/
theorem givenBy_eq_some_iff {line : String} {pc : UInt64} {location : Location} :
    givenBy line.toList = some (location, pc) ↔
      10000 ≤ location.function.toNat ∧ IsRow line pc location := by
  have hbase : functionIdBase ≤ location.function ↔ 10000 ≤ location.function.toNat :=
    UInt32.le_iff_toNat_le
  rw [isRow_iff_readAsRow, ← hbase, givenBy, Option.bind_eq_some_iff]
  simp only [Option.join_eq_some_iff, Option.ite_none_right_eq_some, Option.some.injEq,
    Prod.mk.injEq]
  constructor
  · rintro ⟨⟨_, _⟩, hread, hle, rfl, rfl⟩
    exact ⟨hle, hread⟩
  · rintro ⟨hle, hread⟩
    exact ⟨(pc, location), hread, hle, rfl, rfl⟩

/-! ## Reading -/

namespace AddressMap

variable {rows : List (Location × UInt64)} {map : AddressMap} {all : List Line}

/-- One line is blamed, or adds what it gives. -/
theorem readLines_cons_eq (rows : List (Location × UInt64)) (line : Line) (rest : List Line) :
    readLines rows (line :: rest) =
      if isFaulty line.text then .error (.malformed line)
      else readLines ((givenBy line.text).toList ++ rows) rest := by
  rw [readLines]
  split
  · next row htext =>
    have hrow : readAsRow line.text = some (readRow? row) :=
      readAsRow_eq_some_iff.mpr ⟨row, htext, rfl⟩
    rw [isFaulty, givenBy, hrow]
    cases readRow? row with
    | none => rfl
    | some read =>
      obtain ⟨pc, location⟩ := read
      by_cases hle : functionIdBase ≤ location.function
      · simp [hle]
      · simp [hle]
  · next hother =>
    have hnone : readAsRow line.text = none := by
      rw [readAsRow.eq_def]
      split
      · next row htext => exact absurd htext (hother row)
      · rfl
    rw [isFaulty, givenBy, hnone]
    rfl

/-- Reading fails with the first faulty line. -/
theorem failsFirst_readLines (rows : List (Location × UInt64)) (all : List Line) :
    FailsFirst (readLines rows all)
      ((all.filter fun line => isFaulty line.text).map .malformed) := by
  -- rows are put in front, so the last row of the dump comes first
  induction all generalizing rows with
  | nil => exact .ok
  | cons line rest ih =>
    rw [readLines_cons_eq]
    cases hline : isFaulty line.text with
    | true =>
      simp only [List.filter_cons, hline, if_true]
      exact .error
    | false =>
      simp only [List.filter_cons, hline, if_false, Bool.false_eq_true]
      exact ih _

/-- What is read is what the lines give, the latest first. -/
theorem rows_of_readLines (h : readLines rows all = .ok map) :
    map.rows = (all.filterMap fun line => givenBy line.text).reverse ++ rows := by
  induction all generalizing rows with
  | nil =>
    obtain rfl := Except.ok.inj h
    rfl
  | cons line rest ih =>
    rw [readLines_cons_eq] at h
    split at h
    · cases h
    · rw [ih h]
      cases hgiven : givenBy line.text with
      | none => simp [hgiven]
      | some given => simp [hgiven]

/-- A text is read if none of its lines is faulty, as what its lines give. -/
theorem read_eq_ok_iff {text : String} :
    read text = .ok map ↔ (∀ line ∈ lines text.toList, isFaulty line.text = false) ∧
      map.rows = ((lines text.toList).filterMap fun line => givenBy line.text).reverse := by
  have hok : (∃ map, read text = .ok map) ↔
      ∀ line ∈ lines text.toList, isFaulty line.text = false := by
    rw [read, (failsFirst_readLines [] _).exists_ok_iff, List.map_eq_nil_iff,
      List.filter_eq_nil_iff]
    simp only [Bool.not_eq_true]
  have hrows {map : AddressMap} (h : read text = .ok map) :
      map.rows = ((lines text.toList).filterMap fun line => givenBy line.text).reverse := by
    rw [rows_of_readLines h, List.append_nil]
  constructor
  · exact fun h => ⟨hok.mp ⟨map, h⟩, hrows h⟩
  · rintro ⟨hlines, hmap⟩
    -- some map is read, and its rows are known
    obtain ⟨other, hother⟩ := hok.mpr hlines
    obtain rfl : other = map := by
      rw [mk.injEq]
      exact (hrows hother).trans hmap.symm
    exact hother

end AddressMap

/-! ## Lines of a text -/

/-- The lines of a text, as they stand between its line feeds. -/
def textLines (text : String) : List String :=
  (text.toList.splitOn '\n').map String.ofList

/-- Lines without line feeds are those of the text they are joined to. -/
theorem textLines_intercalate {dump : List String} (hne : dump ≠ [])
    (h : ∀ line ∈ dump, '\n' ∉ line.toList) : textLines ("\n".intercalate dump) = dump := by
  rw [textLines, String.toList_intercalate]
  have hsplit : (['\n'].intercalate (dump.map String.toList)).splitOn '\n' =
      dump.map String.toList := by
    apply List.splitOn_intercalate
    · exact List.forall_mem_map.mpr h
    · exact fun hnil => hne (List.map_eq_nil_iff.mp hnil)
  calc ((['\n'].intercalate (dump.map String.toList)).splitOn '\n').map String.ofList
    _ = (dump.map String.toList).map String.ofList := by rw [hsplit]
    _ = dump := by simp [List.map_map, Function.comp_def]

/-- Faulty lines are malformed rows. -/
theorem forall_isFaulty_eq_false_iff (text : List Char) :
    (∀ line ∈ lines text, isFaulty line.text = false) ↔
      ∀ line ∈ textLines (String.ofList text), ¬IsMalformedRow line := by
  rw [forall_mem_lines_iff rfl fun line => by rw [isFaulty, readAsRow_trimEnd, isFaulty]]
  simp only [textLines, String.toList_ofList, List.forall_mem_map, ← isFaulty_iff,
    Bool.not_eq_true]

/-- The rows that the lines give, with their numbers and bytes left out. -/
theorem filterMap_givenBy_lines (text : String) :
    ((lines text.toList).filterMap fun line => givenBy line.text) =
      (textLines text).filterMap fun line => givenBy line.toList := by
  rw [textLines, List.filterMap_map]
  simp only [Function.comp_def, String.toList_ofList]
  apply filterMap_lines
  · rfl
  · exact fun line => by rw [givenBy, readAsRow_trimEnd, givenBy]

namespace AddressMap

variable {text : String} {map : AddressMap}

/-- A dump is read if it has no malformed row, and the latest row comes first. -/
theorem read_eq_ok_iff_textLines :
    read text = .ok map ↔ (∀ line ∈ textLines text, ¬IsMalformedRow line) ∧
      map.rows = ((textLines text).filterMap fun line => givenBy line.toList).reverse := by
  rw [read_eq_ok_iff, forall_isFaulty_eq_false_iff, String.ofList_toList, filterMap_givenBy_lines]

/-- A dump is accepted exactly if it has no malformed row. -/
theorem exists_read_eq_ok_iff :
    (∃ map, read text = .ok map) ↔ ∀ line ∈ textLines text, ¬IsMalformedRow line := by
  constructor
  · rintro ⟨map, h⟩
    exact (read_eq_ok_iff_textLines.mp h).1
  · exact fun h => ⟨⟨_⟩, read_eq_ok_iff_textLines.mpr ⟨h, rfl⟩⟩

end AddressMap

/-! ## The last row of a location -/

/-- Looking up a key where the latest entries come first finds the last member that gives it a
value. -/
theorem lookup_reverse_filterMap_eq_some_iff {α κ β : Type} [BEq κ] [LawfulBEq κ]
    {given : α → Option (κ × β)} {xs : List α} {key : κ} {value : β} :
    (xs.filterMap given).reverse.lookup key = some value ↔
      ∃ before x after, xs = before ++ x :: after ∧ given x = some (key, value) ∧
        ∀ y ∈ after, ∀ other, given y ≠ some (key, other) := by
  rw [List.lookup_eq_some_iff]
  constructor
  · rintro ⟨later, earlier, heq, hlater⟩
    have hentries : xs.filterMap given = earlier.reverse ++ (key, value) :: later.reverse := by
      rw [← List.reverse_reverse (xs.filterMap given), heq]
      simp
    -- the entries after the one that is found come from the elements after `x`
    obtain ⟨before, rest, rfl, -, hrest⟩ := List.filterMap_eq_append_iff.mp hentries
    obtain ⟨between, x, after, rfl, -, hx, hafter⟩ := List.filterMap_eq_cons_iff.mp hrest
    refine ⟨before ++ between, x, after, by simp, hx, ?_⟩
    intro y hy other hother
    have hmem : (key, other) ∈ later := by
      rw [← List.mem_reverse, ← hafter]
      exact List.mem_filterMap.mpr ⟨y, hy, hother⟩
    simpa using hlater _ hmem
  · rintro ⟨before, x, after, rfl, hx, hafter⟩
    refine ⟨(after.filterMap given).reverse, (before.filterMap given).reverse, ?_, ?_⟩
    · simp [hx]
    · rintro ⟨other, _⟩ hmem
      rw [List.mem_reverse] at hmem
      obtain ⟨y, hy, hgiven⟩ := List.mem_filterMap.mp hmem
      have hne : key ≠ other := by
        rintro rfl
        exact hafter y hy _ hgiven
      simpa using hne

theorem nodup_eraseDups {α : Type} [DecidableEq α] (xs : List α) : xs.eraseDups.Nodup := by
  induction hlength : xs.length using Nat.strong_induction_on generalizing xs with
  | _ n ih =>
    cases xs with
    | nil => exact List.nodup_nil
    | cons x xs =>
      -- what is left after taking out all that equals the first is shorter
      have hshorter : (xs.filter fun y => !y == x).length < n := by
        rw [← hlength, List.length_cons]
        exact Nat.lt_succ_of_le (List.length_filter_le _ _)
      rw [List.eraseDups_cons, List.nodup_cons]
      refine ⟨?_, ih _ hshorter _ rfl⟩
      simp [List.mem_eraseDups]

namespace AddressMap

/-- The map holds what the lines of a dump give. -/
structure Holds (map : AddressMap) (dump : List String) : Prop where
  /-- An address is that of the last row of its location, and the column of the row identifies a
  function. -/
  get?_eq_some_iff : ∀ location pc, map.get? location = some pc ↔
    10000 ≤ location.function.toNat ∧ ∃ before line after, dump = before ++ line :: after ∧
      IsRow line pc location ∧ ∀ later ∈ after, ∀ other, ¬IsRow later other location
  /-- A location has no address if its column identifies no function, or if it has no row. -/
  get?_eq_none_iff : ∀ location, map.get? location = none ↔
    location.function.toNat < 10000 ∨ ∀ line ∈ dump, ∀ pc, ¬IsRow line pc location
  /-- Each location with an address is counted once. -/
  size_eq_card : ∃ locations : Finset Location,
    (∀ location, location ∈ locations ↔ 10000 ≤ location.function.toNat ∧
      ∃ line ∈ dump, ∃ pc, IsRow line pc location) ∧
    map.size = locations.card

variable {text : String} {map : AddressMap}

/-- The map holds the rows of the dump that count. -/
theorem mem_rows_of_read (h : read text = .ok map) {location : Location} {pc : UInt64} :
    (location, pc) ∈ map.rows ↔
      10000 ≤ location.function.toNat ∧ ∃ line ∈ textLines text, IsRow line pc location := by
  rw [(read_eq_ok_iff_textLines.mp h).2, List.mem_reverse, List.mem_filterMap]
  simp only [givenBy_eq_some_iff]
  constructor
  · rintro ⟨line, hline, hle, hrow⟩
    exact ⟨hle, line, hline, hrow⟩
  · rintro ⟨hle, line, hline, hrow⟩
    exact ⟨line, hline, hle, hrow⟩

/-- A location is missing if no row of the map is about it. -/
theorem get?_eq_none_iff_rows {location : Location} :
    map.get? location = none ↔ ∀ pc, (location, pc) ∉ map.rows := by
  rw [get?, List.lookup_eq_none_iff]
  constructor
  · intro hkeys pc hmem
    simpa using hkeys _ hmem
  · rintro hnot ⟨key, pc⟩ hmem
    have hne : location ≠ key := by
      rintro rfl
      exact hnot pc hmem
    simpa using hne

/-- A map that is read holds the dump: of several rows for one location the last one counts. -/
theorem holds_of_read (h : read text = .ok map) : map.Holds (textLines text) where
  get?_eq_some_iff := by
    intro location pc
    rw [get?, (read_eq_ok_iff_textLines.mp h).2, lookup_reverse_filterMap_eq_some_iff]
    simp only [ne_eq, givenBy_eq_some_iff]
    constructor
    · rintro ⟨before, line, after, heq, ⟨hle, hrow⟩, hlast⟩
      refine ⟨hle, before, line, after, heq, hrow, fun later hlater other hother => ?_⟩
      exact hlast later hlater other ⟨hle, hother⟩
    · rintro ⟨hle, before, line, after, heq, hrow, hlast⟩
      refine ⟨before, line, after, heq, ⟨hle, hrow⟩, fun later hlater other hother => ?_⟩
      exact hlast later hlater other hother.2
  get?_eq_none_iff := by
    intro location
    simp only [get?_eq_none_iff_rows, mem_rows_of_read h, not_and, not_exists]
    -- a location is missing because its column does not count, or because no row names it
    constructor
    · intro hnot
      by_cases hle : 10000 ≤ location.function.toNat
      · exact .inr fun line hline pc => hnot pc hle line hline
      · exact .inl (Nat.not_le.mp hle)
    · rintro (hlt | hnot) pc hle
      · exact absurd hle (Nat.not_le.mpr hlt)
      · exact fun line hline => hnot line hline pc
  size_eq_card := by
    refine ⟨(map.rows.map Prod.fst).eraseDups.toFinset, fun location => ?_, ?_⟩
    · rw [List.mem_toFinset, List.mem_eraseDups, List.mem_map]
      constructor
      · rintro ⟨⟨_, pc⟩, hmem, rfl⟩
        obtain ⟨hle, line, hline, hrow⟩ := (mem_rows_of_read h).mp hmem
        exact ⟨hle, line, hline, pc, hrow⟩
      · rintro ⟨hle, line, hline, pc, hrow⟩
        exact ⟨(location, pc), (mem_rows_of_read h).mpr ⟨hle, line, hline, hrow⟩, rfl⟩
    · rw [List.toFinset_card_of_nodup (nodup_eraseDups _)]
      rfl

/-! ## Faults -/

/-- The error of a dump is its first malformed row, with its number and bytes. -/
theorem read_eq_error_iff {e : DumpError} :
    read text = .error e ↔ ∃ before line, line.StandsIn text.toList before ∧
      IsMalformedRow (String.ofList line.text) ∧
      (∀ earlier ∈ textLines (String.ofList before), ¬IsMalformedRow earlier) ∧
      e = .malformed line := by
  have hfirst : read text = .error e ↔
      ∃ line, IsFirst (fun line => isFaulty line.text = true) (lines text.toList) line ∧
        e = .malformed line :=
    (failsFirst_readLines [] _).eq_error_iff fun _ => Iff.rfl
  have hrow (line : Line) :
      isFaulty line.text = true ↔ IsMalformedRow (String.ofList line.text) := by
    rw [← isFaulty_iff, String.toList_ofList]
  rw [hfirst]
  constructor
  · rintro ⟨line, ⟨earlier, later, hlines, hline, hearlier⟩, rfl⟩
    -- the lines that were read before it are those of the text in front of it
    obtain ⟨before, hstands, rfl⟩ := exists_standsIn hlines
    refine ⟨before, line, hstands, (hrow line).mp hline, ?_, rfl⟩
    rw [← forall_isFaulty_eq_false_iff]
    simpa using hearlier
  · rintro ⟨before, line, hstands, hline, hbefore, rfl⟩
    rw [← forall_isFaulty_eq_false_iff] at hbefore
    rw [← hrow] at hline
    -- a blank line is not faulty, so the line is among those that are read
    have hne : line.text ≠ [] := by
      intro hnil
      rw [hnil] at hline
      cases hline
    obtain ⟨later, hlines⟩ := hstands.exists_lines hne
    exact ⟨line, ⟨lines before, later, hlines, hline, by simpa using hbefore⟩, rfl⟩

/-- Lines are read by their texts, so those of a second dump are read as if it stood alone. -/
theorem read_append {more : String} {map' : AddressMap} (hends : EndsLine text.toList)
    (h : read text = .ok map) (hmore : read more = .ok map') :
    read (text ++ more) = .ok ⟨map'.rows ++ map.rows⟩ := by
  obtain ⟨hlines, hrows⟩ := read_eq_ok_iff.mp h
  obtain ⟨hlines', hrows'⟩ := read_eq_ok_iff.mp hmore
  rw [read_eq_ok_iff, String.toList_append, lines_append hends]
  constructor
  · rw [List.forall_mem_append, List.forall_mem_map]
    exact ⟨hlines, hlines'⟩
  · -- the latest rows come first, so those of the second dump are in front
    rw [List.filterMap_append, List.reverse_append, List.filterMap_map, hrows, hrows']
    rfl

/-- **Reading accepts the dumps whose rows are well formed, and later rows replace earlier ones.**
Otherwise the first line that starts as a row but is none is blamed, with its number and the bytes
it has without the blanks at its end. Behind a dump that ends its last line, the rows of another one
replace those of the first. -/
theorem read_exact (text : String) :
    ((∃ map, read text = .ok map) ↔ ∀ line ∈ textLines text, ¬IsMalformedRow line) ∧
      (∀ map, read text = .ok map → map.Holds (textLines text)) ∧
      (∀ e, read text = .error e ↔
        ∃ before line, line.StandsIn text.toList before ∧
          IsMalformedRow (String.ofList line.text) ∧
          (∀ earlier ∈ textLines (String.ofList before), ¬IsMalformedRow earlier) ∧
          e = .malformed line ∧
          e.diagnostic.message = "malformed address row on line " ++ decimal line.number ∧
          e.diagnostic.labels = [Label.over line.span "here"] ∧
          line.span.bytes text = line.text.utf8Encode) ∧
      (EndsLine text.toList → ∀ more map map', read text = .ok map → read more = .ok map' →
        ∃ all, read (text ++ more) = .ok all ∧
          ∀ location, all.get? location = (map'.get? location).or (map.get? location)) := by
  refine ⟨exists_read_eq_ok_iff, fun map h => holds_of_read h, fun e => ?_, ?_⟩
  · rw [read_eq_error_iff]
    constructor
    · rintro ⟨before, line, hstands, hline, hbefore, rfl⟩
      exact ⟨before, line, hstands, hline, hbefore, rfl, rfl, rfl, hstands.bytes_span⟩
    · rintro ⟨before, line, hstands, hline, hbefore, he, -⟩
      exact ⟨before, line, hstands, hline, hbefore, he⟩
  · intro hends more map map' h hmore
    exact ⟨_, read_append hends h hmore, fun location => List.lookup_append⟩

/-- A dump with two rows for one location and a row with an ordinary column. -/
def repeatedDump : String :=
  "Address Line Column\r\n0x10 0 10000\r\n0xfF 3 7\n\n0x +20\t0 +10000 is_stmt\n"

/-- What is read of `repeatedDump`. -/
def repeatedMap : AddressMap where
  rows := [(⟨0, 10000⟩, 0x20), (⟨0, 10000⟩, 0x10)]

/-- The later row of `repeatedDump` counts, until another dump has a row for the location. -/
theorem read_exact_repeatedDump :
    (read repeatedDump = .ok repeatedMap ∧ EndsLine repeatedDump.toList) ∧
      (∀ line ∈ textLines repeatedDump, ¬IsMalformedRow line) ∧
      repeatedMap.Holds (textLines repeatedDump) ∧ repeatedMap.get? ⟨0, 10000⟩ = some 0x20 ∧
      repeatedMap.size = 1 ∧
      ∃ all, read (repeatedDump ++ "0x30 0 10000") = .ok all ∧
        all.get? ⟨0, 10000⟩ = some 0x30 := by
  have hread : read repeatedDump = .ok repeatedMap := by decide +kernel
  have hends : EndsLine repeatedDump.toList := .inr (by decide +kernel)
  have hmore : read "0x30 0 10000" = .ok ⟨[(⟨0, 10000⟩, 0x30)]⟩ := by decide +kernel
  obtain ⟨haccepts, hholds, -, happend⟩ := read_exact repeatedDump
  obtain ⟨all, hall, hget⟩ := happend hends _ _ _ hread hmore
  refine ⟨⟨hread, hends⟩, haccepts.mp ⟨_, hread⟩, hholds _ hread, by decide, by decide, all, hall,
    ?_⟩
  rw [hget]
  decide

/-- A character may have several bytes, and blanks at the end of a line do not belong to it. -/
example : read "é\n0x1 2 3\n0xé 0 1 \n0x" =
    .error (.malformed ⟨3, 11, ['0', 'x', 'é', ' ', '0', ' ', '1']⟩) := by
  decide +kernel

end AddressMap

end Rejoin
