import Lynox.Bulk.Plan
import Lynox.Text.OwnNames

/-!
# The rows of a CSV source

`parseCsv` reads a source unit by unit : a quote at the start of a field opens it, a doubled one in
it is one, a CR before an LF is left out. `Encoding` are the RFC 4180 texts of some rows : each
field bare or in quotes, each line ended by LF or CRLF, the last one perhaps not at all.

What is read behind a field, a row or a line is a lemma each (`scan_field`, `scan_row`, `scan_lines`), and
`parseCsv` undoes every encoding of a header of two or more columns with its rows (`parseCsv_encoding`).
-/

namespace Lynox.Bulk

open Text

/-- A source that cannot be planned at all. -/
structure BulkSourceError where
  message : String
  deriving DecidableEq, Repr

def tooManyTargets : BulkSourceError where
  message := "The source has more than " ++ toString bulkMaxTargets ++ " targets."

/-- What the loop has read. -/
structure CsvRows where
  rows : List (List JsString) := []
  row : List JsString := []
  field : JsString := []
  quoted : Bool := false

/-- `field += text`. -/
def CsvRows.add (s : CsvRows) (text : JsString) : CsvRows :=
  { s with field := s.field ++ text }

/-- The field is over. -/
def CsvRows.endField (s : CsvRows) : CsvRows :=
  { s with row := s.row ++ [s.field], field := [] }

/-- `quoted = on`. -/
def CsvRows.quote (s : CsvRows) (on : Bool) : CsvRows :=
  { s with quoted := on }

/-- A row is over. A row of nothing is left out. -/
def CsvRows.endRow (s : CsvRows) : Except BulkSourceError CsvRows :=
  if s.row ++ [s.field] = [[]] then .ok { s with row := [], field := [] }
  else if bulkMaxTargets + 1 < s.rows.length + 1 then .error tooManyTargets
  else .ok { s with rows := s.rows ++ [s.row ++ [s.field]], row := [], field := [] }

/-- The loop over the text. -/
def CsvRows.scan : JsString → CsvRows → Except BulkSourceError CsvRows
  | [], s => .ok s
  | c :: rest, s =>
    if s.quoted then
      if c = 0x22 then
        match rest with
        | 0x22 :: rest => scan rest (s.add [0x22])
        | rest => scan rest (s.quote false)
      else scan rest (s.add [c])
    else if c = 0x22 ∧ s.field = [] then scan rest (s.quote true)
    else if c = 0x2C then scan rest s.endField
    else if c = 0x0D ∧ rest.head? = some 0x0A then scan rest s
    else if c = 0x0A then s.endRow.bind (scan rest)
    else scan rest (s.add [c])

/-- A row under the header. -/
def csvRecord (header row : List JsString) : Except BulkSourceError (List (JsString × JsString)) :=
  if row.length ≠ header.length then
    .error ⟨"A CSV row has a different number of fields than the header."⟩
  else .ok (fromEntries (header.zip row))

/-- The rows read, the first one as the header. -/
def csvRecords : List (List JsString) → Except BulkSourceError (List (List (JsString × JsString)))
  | [] => .ok []
  | header :: body =>
    -- `new Set(header).size !== header.length`
    if ¬ header.Nodup then .error ⟨"The CSV header names a column twice."⟩
    else body.mapM (csvRecord header)

/-- The end of the text ends its last row, where one is open. -/
def CsvRows.finish (s : CsvRows) : Except BulkSourceError CsvRows :=
  if s.quoted then .error ⟨"The CSV source ends inside a quoted field."⟩
  else if s.field ≠ [] ∨ s.row ≠ [] then s.endRow
  else .ok s

def parseCsv (text : JsString) : Except BulkSourceError (List (List (JsString × JsString))) := do
  let s ← CsvRows.scan text {}
  let s ← s.finish
  csvRecords s.rows

/-! ## Encodings -/

/-- A field as it is, or in quotes with its quotes doubled. -/
inductive FieldEncoding : JsString → JsString → Prop
  | bare {field} (h : ∀ u ∈ field, u ≠ 0x22 ∧ u ≠ 0x2C ∧ u ≠ 0x0D ∧ u ≠ 0x0A) : FieldEncoding field field
  | quoted (field) : FieldEncoding field
      (0x22 :: (field.flatMap fun u => if u = 0x22 then [0x22, 0x22] else [u]) ++ [0x22])

/-- The fields of a row with commas between them. -/
inductive RowEncoding : List JsString → JsString → Prop
  | last {field text} : FieldEncoding field text → RowEncoding [field] text
  | cons {field row text text'} : FieldEncoding field text → RowEncoding row text' →
      RowEncoding (field :: row) (text ++ 0x2C :: text')

inductive LineEnd : JsString → Prop
  | lf : LineEnd [0x0A]
  | crlf : LineEnd [0x0D, 0x0A]

/-- The rows, each ended by a line end, the last one perhaps not. -/
inductive Encoding : List (List JsString) → JsString → Prop
  | last {row text} : RowEncoding row text → Encoding [row] text
  | ended {row text eol} : RowEncoding row text → LineEnd eol → Encoding [row] (text ++ eol)
  | cons {row rows text eol text'} : RowEncoding row text → LineEnd eol → Encoding rows text' →
      Encoding (row :: rows) (text ++ eol ++ text')

/-! ## What the loop reads -/

namespace CsvRows

variable {s : CsvRows} {field text rest eol : JsString} {row : List JsString}
  {rows before : List (List JsString)}

@[simp] theorem quoted_add : (s.add text).quoted = s.quoted :=
  rfl

@[simp] theorem add_nil : s.add [] = s := by
  simp [add]

@[simp] theorem add_add : (s.add field).add text = s.add (field ++ text) := by
  simp [add]

/-- A unit of a field that is not in quotes. -/
theorem scan_plain {u : UInt16} (h : u ≠ 0x22 ∧ u ≠ 0x2C ∧ u ≠ 0x0D ∧ u ≠ 0x0A) (hq : s.quoted = false) :
    scan (u :: rest) s = scan rest (s.add [u]) := by
  rw [scan.eq_def]
  simp only [hq, Bool.false_eq_true, if_false, h.1, h.2.1, h.2.2.1, h.2.2.2, false_and]

theorem scan_bare (h : ∀ u ∈ field, u ≠ 0x22 ∧ u ≠ 0x2C ∧ u ≠ 0x0D ∧ u ≠ 0x0A) (hq : s.quoted = false) :
    scan (field ++ rest) s = scan rest (s.add field) := by
  induction field generalizing s with
  | nil => rw [List.nil_append, add_nil]
  | cons u field ih =>
    rw [List.cons_append, scan_plain (h u List.mem_cons_self) hq,
      ih (s := s.add [u]) (fun v hv => h v (List.mem_cons_of_mem u hv)) hq, add_add, List.singleton_append]

/-- A quote that no other follows closes the field. -/
theorem scan_closing (hq : s.quoted = true) (hrest : rest.head? ≠ some 0x22) :
    scan (0x22 :: rest) s = scan rest (s.quote false) := by
  rw [scan, if_pos hq, if_pos rfl]
  rintro rest' rfl
  exact hrest rfl

theorem scan_doubled (hq : s.quoted = true) :
    scan (0x22 :: 0x22 :: rest) s = scan rest (s.add [0x22]) := by
  rw [scan, if_pos hq, if_pos rfl]

theorem scan_inside {u : UInt16} (hq : s.quoted = true) (hu : u ≠ 0x22) :
    scan (u :: rest) s = scan rest (s.add [u]) := by
  rw [scan.eq_def]
  simp only [hq, if_true, hu, if_false]

/-- In quotes everything up to the closing one is the field. -/
theorem scan_quoted (hq : s.quoted = true) (hrest : rest.head? ≠ some 0x22) :
    scan ((field.flatMap fun u => if u = 0x22 then [0x22, 0x22] else [u]) ++ 0x22 :: rest) s =
      scan rest ((s.add field).quote false) := by
  induction field generalizing s with
  | nil => rw [List.flatMap_nil, List.nil_append, scan_closing hq hrest, add_nil]
  | cons u field ih =>
    rw [List.flatMap_cons, List.append_assoc]
    split
    · next hu =>
      rw [List.cons_append, List.singleton_append, scan_doubled hq, ih (s := s.add [0x22]) hq, hu, add_add,
        List.singleton_append]
    · next hu => rw [List.singleton_append, scan_inside hq hu, ih (s := s.add [u]) hq, add_add,
        List.singleton_append]

theorem scan_field (h : FieldEncoding field text) (hq : s.quoted = false) (hf : s.field = [])
    (hrest : rest.head? ≠ some 0x22) : scan (text ++ rest) s = scan rest (s.add field) := by
  cases h with
  | bare h => exact scan_bare h hq
  | quoted =>
    have hclosed : ((s.quote true).add field).quote false = s.add field := by
      simp only [quote, add, ← hq]
    rw [List.cons_append, List.cons_append, List.append_assoc, List.singleton_append, scan.eq_def]
    simp only [hq, Bool.false_eq_true, if_false, hf, and_self, if_true]
    rw [scan_quoted rfl hrest, hclosed]

/-- The fields of a row stand in the row but for the last, that is the field. -/
theorem scan_row (s : CsvRows) (rest : JsString) (h : RowEncoding row text) (hq : s.quoted = false)
    (hf : s.field = [])
    (hrest : rest.head? ≠ some 0x22) :
    ∃ front last, row = front ++ [last] ∧
      scan (text ++ rest) s = scan rest { s with row := s.row ++ front, field := last } := by
  induction h generalizing s with
  | last h => exact ⟨[], _, rfl, by rw
      [scan_field h hq hf hrest, add, hf, List.append_nil, List.nil_append]⟩
  | @cons field row text text' h _ ih =>
    obtain ⟨front, last, hrow, hscan⟩ := ih (s.add field).endField hq rfl
    refine ⟨field :: front, last, by rw [hrow, List.cons_append], ?_⟩
    rw [List.append_assoc, List.cons_append, scan_field h hq hf (by simp), scan.eq_def]
    simp only [quoted_add, hq, Bool.false_eq_true, if_false, if_true, hscan]
    simp [endField, add, hf, hq]

theorem scan_lineEnd (h : LineEnd eol) (hq : s.quoted = false) :
    scan (eol ++ rest) s = s.endRow.bind (scan rest) := by
  cases h with
  | lf => simp [scan.eq_def (_ :: _), hq]
  | crlf => simp [scan.eq_def (_ :: _), hq]

/-- A row of two or more fields is kept, up to the limit. -/
theorem endRow_eq (s : CsvRows) (row : List JsString) (hrow : row = s.row ++ [s.field])
    (h2 : 2 ≤ row.length)
    (hmax : s.rows.length ≤ bulkMaxTargets) :
    s.endRow = .ok { s with rows := s.rows ++ [row], row := [], field := [] } := by
  have hne : s.row ++ [s.field] ≠ [[]] := fun heq => by
    rw [hrow, heq] at h2
    exact absurd h2 (by decide)
  rw [endRow, if_neg hne, if_neg (by omega), hrow]

/-- The lines are read row by row. What is left of the last is ended behind the loop. -/
theorem scan_lines (before : List (List JsString)) (h : Encoding rows text)
    (h2 : ∀ row ∈ rows, 2 ≤ row.length)
    (hmax : before.length + rows.length ≤ bulkMaxTargets + 1) :
    ∃ s, scan text { rows := before } = .ok s ∧ s.finish = .ok { rows := before ++ rows } := by
  induction h generalizing before with
  | @last row text h =>
    obtain ⟨front, last, hrow, hscan⟩ := scan_row { rows := before } [] h rfl rfl (by simp)
    rw [List.append_nil] at hscan
    have hlen := h2 row List.mem_cons_self
    refine ⟨_, hscan, ?_⟩
    have hfront : front ≠ [] := fun hnil => by
      rw [hrow, hnil] at hlen
      simp at hlen
    rw [finish, if_neg Bool.false_ne_true, if_pos (.inr (by simpa using hfront))]
    exact endRow_eq _ row (by simpa using hrow) hlen (by simpa using hmax)
  | @ended row text eol h heol =>
    obtain ⟨front, last, hrow, hscan⟩ := scan_row { rows := before } eol h rfl rfl
      (by cases heol <;> simp)
    have hend := endRow_eq { rows := before, row := [] ++ front, field := last } row
      (by simpa using hrow) (h2 row List.mem_cons_self) (by simpa using hmax)
    rw [← List.append_nil eol, scan_lineEnd heol rfl, hend] at hscan
    refine ⟨{ rows := before ++ [row] }, ?_, rfl⟩
    rw [List.append_nil] at hscan
    exact hscan
  | @cons row rows text eol text' h heol _ ih =>
    obtain ⟨front, last, hrow, hscan⟩ := scan_row { rows := before } (eol ++ text') h rfl rfl
      (by cases heol <;> simp)
    rw [List.length_cons] at hmax
    have hend := endRow_eq { rows := before, row := [] ++ front, field := last } row
      (by simpa using hrow) (h2 row List.mem_cons_self) (by simp only; omega)
    rw [scan_lineEnd heol rfl, hend] at hscan
    obtain ⟨s, hread, hdone⟩ := ih (before ++ [row])
      (fun r hr => h2 r (List.mem_cons_of_mem row hr))
        (by rw [List.length_append, List.length_singleton]; omega)
    refine ⟨s, ?_, by simpa using hdone⟩
    rw [List.append_assoc, hscan]
    exact hread

end CsvRows

section Records

variable {header row : List JsString} {rows : List (List JsString)}

/-- What the record of a row is for : each column has the field of its place, and no other name is
there. -/
structure RecordOf (header row : List JsString) (record : List (JsString × JsString)) : Prop where
  column : ∀ j (hj : j < header.length), Assoc.get record header[j] = row[j]?
  none : ∀ name, name ∉ header → Assoc.get record name = none

theorem recordOf_fromEntries (hdistinct : header.Nodup) (hwidth : row.length = header.length) :
    RecordOf header row (fromEntries (header.zip row)) := by
  have hnames : (header.zip row).map Prod.fst = header := List.map_fst_zip hwidth.ge
  have hnodup : ((header.zip row).map Prod.fst).Nodup := hnames.symm ▸ hdistinct
  constructor
  · intro j hj
    have hmem : (header[j], row[j]) ∈ header.zip row :=
      List.mem_iff_getElem.2 ⟨j, by simpa [hwidth] using hj, List.getElem_zip⟩
    rw [get_fromEntries hnodup, Assoc.get_of_mem hnodup hmem, List.getElem?_eq_getElem]
  · intro name hname
    rw [get_fromEntries hnodup, Assoc.get_eq_none, hnames]
    exact hname

theorem mapM_csvRecord (hwidth : ∀ row ∈ rows, row.length = header.length) :
    rows.mapM (csvRecord header) = .ok (rows.map fun row => fromEntries (header.zip row)) := by
  induction rows with
  | nil => rfl
  | cons row rows ih =>
    rw [List.mapM_cons, ih fun r hr => hwidth r (List.mem_cons_of_mem row hr), csvRecord,
      if_neg (not_not.2 (hwidth row List.mem_cons_self))]
    rfl

end Records

/-- A source that encodes a header of two or more columns and rows of its width is read as those rows. -/
theorem parseCsv_encoding {header : List JsString} {rows : List (List JsString)} {text : JsString}
    (h2 : 2 ≤ header.length) (hdistinct : header.Nodup) (hwidth : ∀ row ∈ rows, row.length = header.length)
    (hmax : rows.length ≤ bulkMaxTargets) (h : Encoding (header :: rows) text) :
    ∃ records, parseCsv text = .ok records ∧ List.Forall₂ (RecordOf header) rows records := by
  have hwide : ∀ row ∈ header :: rows, 2 ≤ row.length := by
    intro row hrow
    rcases List.mem_cons.1 hrow with rfl | hrow
    · exact h2
    · exact h2.trans (hwidth row hrow).ge
  obtain ⟨s, hread, hdone⟩ := CsvRows.scan_lines [] h hwide
    (by simpa using Nat.succ_le_succ hmax)
  refine ⟨rows.map fun row => fromEntries (header.zip row), ?_,
    List.forall₂_map_right_iff.2 (List.forall₂_same.2 fun row hrow =>
      recordOf_fromEntries hdistinct (hwidth row hrow))⟩
  calc parseCsv text
      = s.finish.bind fun s => csvRecords s.rows := by rw [parseCsv, hread]; rfl
    _ = csvRecords (header :: rows) := by rw [hdone]; rfl
    _ = rows.mapM (csvRecord header) := if_neg (not_not.2 hdistinct)
    _ = _ := mapM_csvRecord hwidth

/-- The columns `a` and `b`, then a quoted field over two lines and an empty one. -/
theorem parseCsv_encoding_two_lines : 2 ≤ [[0x61], [0x62]].length ∧
    ∃ records, parseCsv [0x61, 0x2C, 0x62, 0x0D, 0x0A, 0x22, 0x22, 0x22, 0x0A, 0x22, 0x2C] = .ok records ∧
      List.Forall₂ (RecordOf [[0x61], [0x62]]) [[[0x22, 0x0A], []]] records :=
  ⟨by decide, parseCsv_encoding (by decide) (by decide) (by decide) (by decide)
    (.cons (.cons (.bare (List.forall_iff_forall_mem.1 (by decide)))
      (.last (.bare (List.forall_iff_forall_mem.1 (by decide))))) .crlf
      (.last (.cons (.quoted [0x22, 0x0A]) (.last (.bare (List.forall_mem_nil _))))))⟩

end Lynox.Bulk
