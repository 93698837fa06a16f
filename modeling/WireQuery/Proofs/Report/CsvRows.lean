import Mathlib
import WireQuery.Report.Layout

namespace WireQuery

namespace Csv

/-- Whether a character ends a field that is not quoted. -/
def isBoundary (c : Char) : Bool := c = ',' || c = '\n'

/-- What stands before the next boundary, and the rest. -/
def readBare : List Char → List Char × List Char
  | [] => ([], [])
  | c :: r => if isBoundary c then ([], c :: r) else (c :: (readBare r).1, (readBare r).2)

/-- What stands before the closing quote, with one quote for two, and what comes after it. -/
def readQuoted : List Char → List Char × List Char
  | [] => ([], [])
  | '"' :: '"' :: r => ('"' :: (readQuoted r).1, (readQuoted r).2)
  | '"' :: r => ([], r)
  | c :: r => (c :: (readQuoted r).1, (readQuoted r).2)

/-- A field that starts with a quote runs to the closing one; whatever still follows before a boundary belongs to it. -/
def readField : List Char → List Char × List Char
  | '"' :: r =>
    let (quoted, r) := readQuoted r
    let (after, r) := readBare r
    (quoted ++ after, r)
  | s => readBare s

theorem readBare_length (s : List Char) : (readBare s).2.length ≤ s.length := by
  induction s with
  | nil => simp [readBare]
  | cons c r ih =>
    rw [readBare]
    split
    · exact Nat.le_refl _
    · exact Nat.le_succ_of_le ih

theorem readQuoted_length (s : List Char) : (readQuoted s).2.length ≤ s.length := by
  fun_induction readQuoted s with
  | case1 => simp
  | case2 r ih => simpa using Nat.le_succ_of_le (Nat.le_succ_of_le ih)
  | case3 r => simp
  | case4 c r _ _ ih => simpa using Nat.le_succ_of_le ih

theorem readField_length (s : List Char) : (readField s).2.length ≤ s.length := by
  unfold readField
  split
  · next r =>
    calc (readBare (readQuoted r).2).2.length
        ≤ (readQuoted r).2.length := readBare_length _
      _ ≤ r.length := readQuoted_length r
      _ ≤ ('"' :: r).length := Nat.le_succ _
  · exact readBare_length _

/-- Fields with commas between them, up to the end of the line, and what comes after it. -/
def readRecord (s : List Char) : List (List Char) × List Char :=
  match h : readField s with
  | (field, ',' :: r) =>
    have : r.length < s.length := by
      have := readField_length s
      simp only [h, List.length_cons] at this
      omega
    (field :: (readRecord r).1, (readRecord r).2)
  | (field, r) => ([field], r.tail)
termination_by s.length

theorem readRecord_length (s : List Char) : (readRecord s).2.length ≤ s.length - 1 := by
  fun_induction readRecord s with
  | case1 s field r h hlt ih =>
    dsimp only
    omega
  | case2 s field r _ h =>
    have := readField_length s
    simp only [h] at this
    simp only [List.length_tail]
    omega

/-- The records of a text; one without a line end may stand last. -/
def readRecords (s : List Char) : List (List (List Char)) :=
  if h : s = [] then []
  else
    have : (readRecord s).2.length < s.length := by
      have := readRecord_length s
      have := List.length_pos_of_ne_nil h
      omega
    (readRecord s).1 :: readRecords (readRecord s).2
termination_by s.length

def read (text : String) : List (List String) := (readRecords text.toList).map (·.map String.ofList)

/-- The rest of a text where a field may end. -/
def Stops (r : List Char) : Prop := ∀ c ∈ r.head?, isBoundary c = true

theorem stops_cons (h : isBoundary c = true) (r : List Char) : Stops (c :: r) := by
  simpa [Stops] using h

theorem readBare_append {s r : List Char} (hs : ∀ c ∈ s, isBoundary c = false) (hr : Stops r) :
    readBare (s ++ r) = (s, r) := by
  induction s with
  | nil =>
    cases r with
    | nil => rfl
    | cons c r => simp [readBare, hr c rfl]
  | cons c s ih =>
    have ih := ih (fun d hd => hs d (List.mem_cons_of_mem _ hd))
    simp [readBare, hs c List.mem_cons_self, ih]

theorem readBare_stops {r : List Char} (hr : Stops r) : readBare r = ([], r) :=
  readBare_append (s := []) (List.forall_mem_nil _) hr

theorem readQuoted_doubleQuotes (s : List Char) {r : List Char} (hr : r.head? ≠ some '"') :
    readQuoted (doubleQuotes s ++ '"' :: r) = (s, r) := by
  induction s with
  | nil =>
    cases r with
    | nil => rfl
    | cons c r =>
      have hc : c ≠ '"' := by simpa using hr
      simp [doubleQuotes, readQuoted, hc]
  | cons c s ih =>
    rw [doubleQuotes, List.flatMap_cons] at *
    by_cases hc : c = '"'
    · subst hc
      simp [readQuoted, ih]
    · simp [readQuoted, hc, ih]

theorem readField_of_head? {s : List Char} (h : s.head? ≠ some '"') : readField s = readBare s := by
  unfold readField
  split
  · contradiction
  · rfl

theorem Stops.head? {r : List Char} (h : Stops r) : r.head? ≠ some '"' := by
  intro hq
  exact absurd (h '"' hq) (by decide)

/-- A cell is read back from the field it is written as. -/
theorem readField_field (s : List Char) {r : List Char} (hr : Stops r) : readField (field s ++ r) = (s, r) := by
  unfold field
  split
  · have hquoted := readQuoted_doubleQuotes s hr.head?
    simp [readField, hquoted, readBare_stops hr]
  · next hs =>
    have hplain : ∀ c ∈ s, isSpecial c = false := by simpa using hs
    have hboundary : ∀ c ∈ s, isBoundary c = false := by
      intro c hc
      have := hplain c hc
      simp only [isSpecial, isBoundary, Bool.or_eq_false_iff] at this ⊢
      exact ⟨this.1.1, this.2⟩
    rw [readField_of_head?, readBare_append hboundary hr]
    cases s with
    | nil => exact hr.head?
    | cons c s =>
      have := hplain c List.mem_cons_self
      simp_all [isSpecial]

theorem readRecord_comma {s field r : List Char} (h : readField s = (field, ',' :: r)) :
    readRecord s = (field :: (readRecord r).1, (readRecord r).2) := by
  rw [readRecord]
  split
  · next h' =>
    obtain ⟨rfl, h'⟩ := Prod.mk.inj (h'.symm.trans h)
    obtain rfl := (List.cons.inj h').2
    rfl
  · next hne h' =>
    obtain ⟨-, rfl⟩ := Prod.mk.inj (h'.symm.trans h)
    exact absurd rfl (hne r)

theorem readRecord_line {s field r : List Char} (h : readField s = (field, '\n' :: r)) :
    readRecord s = ([field], r) := by
  rw [readRecord]
  split
  · next h' =>
    have := h'.symm.trans h
    simp at this
  · next h' =>
    obtain ⟨rfl, rfl⟩ := Prod.mk.inj (h'.symm.trans h)
    rfl

/-- A row is read back as its cells. -/
theorem readRecord_row {cells : List (List Char)} (h : cells ≠ []) (r : List Char) :
    readRecord (row cells ++ r) = (cells, r) := by
  unfold row
  induction cells with
  | nil => contradiction
  | cons c cells ih =>
    cases cells with
    | nil =>
      have hfield := readField_field c (stops_cons (by decide : isBoundary '\n' = true) r)
      simpa using readRecord_line hfield
    | cons d cells =>
      have ih := ih (List.cons_ne_nil d cells)
      have hfield := readField_field c (stops_cons (by decide : isBoundary ',' = true)
        (List.intercalate [','] ((d :: cells).map field) ++ ['\n'] ++ r))
      have hrecord := readRecord_comma hfield
      rw [ih] at hrecord
      rw [List.map_cons, List.map_cons, List.intercalate_cons_cons]
      simpa using hrecord

theorem readRecords_of_readRecord {s : List Char} (hs : s ≠ []) (h : readRecord s = (record, r)) :
    readRecords s = record :: readRecords r := by
  rw [readRecords, dif_neg hs]
  simp only [h]

theorem readRecords_rows {rows : List (List (List Char))} (h : ∀ cells ∈ rows, cells ≠ []) :
    readRecords (rows.flatMap row) = rows := by
  induction rows with
  | nil =>
    rw [List.flatMap_nil, readRecords]
    rfl
  | cons cells rows ih =>
    have hne : row cells ++ rows.flatMap row ≠ [] := by simp [row]
    rw [List.flatMap_cons, readRecords_of_readRecord hne (readRecord_row (h cells List.mem_cons_self) _),
      ih (fun c hc => h c (List.mem_cons_of_mem _ hc))]

end Csv

namespace Report

/-- The header line comes first, and then a line for each row. -/
theorem csv_eq (r : Report) : r.csv = ",".intercalate r.columns ++ "\n" ++
    String.ofList ((r.rows.map (·.map (fun d => d.cell.toList))).flatMap Csv.row) := by
  apply String.toList_inj.mp
  simp [csv, Csv.header, String.toList_intercalate, List.flatMap_map]

theorem read_rows {rows : List (List Datum)} (h : ∀ cells ∈ rows, cells ≠ []) :
    Csv.readRecords ((rows.map (·.map (fun d => d.cell.toList))).flatMap Csv.row) =
      rows.map (·.map (fun d => d.cell.toList)) := by
  apply Csv.readRecords_rows
  intro cells hc
  obtain ⟨row, hrow, rfl⟩ := List.mem_map.mp hc
  simpa using h row hrow

/-- Behind the header line, one record is read for each row, and its fields are the texts of the cells. -/
theorem csv_rows_read_back (r : Report) (h : ∀ cells ∈ r.rows, cells ≠ []) :
    ∃ body, r.csv = ",".intercalate r.columns ++ "\n" ++ body ∧ Csv.read body = r.rows.map (·.map Datum.cell) := by
  refine ⟨_, r.csv_eq, ?_⟩
  rw [Csv.read, String.toList_ofList, read_rows h, List.map_map]
  simp [Function.comp_def]

/-- Cells with all that a reader heeds, and one that is null. -/
def troublesome : Report := ⟨["a", "b"], [[.text "x,\"y\"\n", .null], [.text "\"", .integer 7], [.null, .blob [0x0A]]]⟩

theorem troublesome_rows_read_back :
    (∀ cells ∈ troublesome.rows, cells ≠ []) ∧ ∃ body, troublesome.csv = "a,b\n" ++ body ∧
      Csv.read body = [["x,\"y\"\n", ""], ["\"", "7"], ["", "0a"]] := by
  have h : ∀ cells ∈ troublesome.rows, cells ≠ [] := by decide
  obtain ⟨body, hcsv, hread⟩ := troublesome.csv_rows_read_back h
  have hheader : ",".intercalate troublesome.columns ++ "\n" = "a,b\n" := by decide
  have hcells : troublesome.rows.map (·.map Datum.cell) = [["x,\"y\"\n", ""], ["\"", "7"], ["", "0a"]] := by cbv
  exact ⟨h, body, hheader ▸ hcsv, hcells ▸ hread⟩

end Report

end WireQuery
