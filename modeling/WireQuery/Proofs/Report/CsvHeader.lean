import WireQuery.Proofs.Report.CsvRows

namespace WireQuery

namespace Csv

/-- A text that a field may hold without quotes around it. -/
def IsBare (s : List Char) : Prop := s.head? ≠ some '"' ∧ ',' ∉ s ∧ '\n' ∉ s

instance : DecidablePred IsBare := fun s =>
  inferInstanceAs (Decidable (s.head? ≠ some '"' ∧ ',' ∉ s ∧ '\n' ∉ s))

theorem not_boundary_iff {s : List Char} : (∀ c ∈ s, isBoundary c = false) ↔ ',' ∉ s ∧ '\n' ∉ s := by
  constructor
  · intro h
    constructor
    · intro hc
      exact absurd (h ',' hc) (by decide)
    · intro hc
      exact absurd (h '\n' hc) (by decide)
  · rintro ⟨hcomma, hline⟩ c hc
    have hne : c ≠ ',' := fun he => hcomma (he ▸ hc)
    have hne' : c ≠ '\n' := fun he => hline (he ▸ hc)
    simp [isBoundary, hne, hne']

theorem not_boundary_of_readBare (s : List Char) : ∀ c ∈ (readBare s).1, isBoundary c = false := by
  induction s with
  | nil => simp [readBare]
  | cons c r ih =>
    rw [readBare]
    split
    · simp
    · next hc =>
      intro d hd
      rcases List.mem_cons.mp hd with rfl | hd
      · simpa using hc
      · exact ih d hd

theorem readField_of_isBare {s r : List Char} (h : IsBare s) (hr : Stops r) : readField (s ++ r) = (s, r) := by
  rw [readField_of_head?, readBare_append (not_boundary_iff.mpr h.2) hr]
  cases s with
  | nil => exact hr.head?
  | cons c s => exact h.1

/-- The quotes that a text starts with. -/
def quotes (s : List Char) : Nat := (s.takeWhile (· = '"')).length

theorem quotes_quote (s : List Char) : quotes ('"' :: s) = quotes s + 1 := by
  simp [quotes]

theorem quotes_of_head? {s : List Char} (h : s.head? ≠ some '"') : quotes s = 0 := by
  cases s with
  | nil => rfl
  | cons c s =>
    have hc : c ≠ '"' := by simpa using h
    simp [quotes, hc]

theorem quotes_append (s : List Char) {r : List Char} (hr : r.head? ≠ some '"') : quotes (s ++ r) = quotes s := by
  induction s with
  | nil => exact quotes_of_head? hr
  | cons c s ih =>
    by_cases hc : c = '"'
    · rw [hc, List.cons_append, quotes_quote, quotes_quote, ih]
    · simp [quotes, hc]

theorem head?_readBare {s : List Char} (h : s.head? ≠ some '"') : (readBare s).1.head? ≠ some '"' := by
  cases s with
  | nil => exact h
  | cons c r =>
    rw [readBare]
    split
    · simp
    · exact h

/-- Of the quotes behind an opening one no more than there are come out again. -/
theorem quotes_readQuoted (s : List Char) :
    quotes ((readQuoted s).1 ++ (readBare (readQuoted s).2).1) ≤ quotes s := by
  fun_induction readQuoted s with
  | case1 => simp [readBare]
  | case2 r ih =>
    dsimp only
    rw [List.cons_append, quotes_quote, quotes_quote, quotes_quote]
    omega
  | case3 r hr =>
    have hhead : r.head? ≠ some '"' := by
      intro h
      obtain ⟨t, rfl⟩ := List.head?_eq_some_iff.mp h
      exact hr t rfl
    rw [List.nil_append, quotes_of_head? (head?_readBare hhead)]
    exact Nat.zero_le _
  | case4 c r _ hc ih =>
    have hhead : ((c :: (readQuoted r).1) ++ (readBare (readQuoted r).2).1).head? ≠ some '"' := by simpa using hc
    rw [quotes_of_head? hhead]
    exact Nat.zero_le _

/-- What starts with a quote loses at least that one. -/
theorem readField_ne_of_quote {s r : List Char} (hs : s.head? = some '"') (hr : Stops r) :
    (readField (s ++ r)).1 ≠ s := by
  obtain ⟨t, rfl⟩ := List.head?_eq_some_iff.mp hs
  intro he
  have hle := quotes_readQuoted (t ++ r)
  rw [show (readQuoted (t ++ r)).1 ++ (readBare (readQuoted (t ++ r)).2).1 = '"' :: t from he, quotes_quote,
    quotes_append t hr.head?] at hle
  omega

/-- A text before a boundary is read as one field exactly if it needs no quotes. -/
theorem readField_eq_iff {s r : List Char} (hr : Stops r) : (readField (s ++ r)).1 = s ↔ IsBare s := by
  constructor
  · intro h
    have hhead : s.head? ≠ some '"' := fun hq => readField_ne_of_quote hq hr h
    refine ⟨hhead, not_boundary_iff.mp ?_⟩
    have hbare : readField (s ++ r) = readBare (s ++ r) := by
      apply readField_of_head?
      cases s with
      | nil => exact hr.head?
      | cons c s => exact hhead
    have := not_boundary_of_readBare (s ++ r)
    rwa [← hbare, h] at this
  · intro h
    rw [readField_of_isBare h hr]

theorem header_cons_cons (x y : List Char) (xs : List (List Char)) :
    header (x :: y :: xs) = x ++ ',' :: header (y :: xs) := by
  simp [header]

theorem readRecord_header {columns : List (List Char)} (hne : columns ≠ []) (h : ∀ s ∈ columns, IsBare s)
    (r : List Char) : readRecord (header columns ++ r) = (columns, r) := by
  induction columns with
  | nil => contradiction
  | cons s columns ih =>
    have hs := h s List.mem_cons_self
    cases columns with
    | nil =>
      have hfield := readField_of_isBare hs (stops_cons (by decide : isBoundary '\n' = true) r)
      simpa [header] using readRecord_line hfield
    | cons t columns =>
      have hfield := readField_of_isBare hs (stops_cons (by decide : isBoundary ',' = true) (header (t :: columns) ++ r))
      have hrecord := readRecord_comma hfield
      rw [ih (List.cons_ne_nil t columns) (fun s hs => h s (List.mem_cons_of_mem _ hs))] at hrecord
      rw [header_cons_cons]
      simpa using hrecord

theorem head?_readRecord (s : List Char) : (readRecord s).1.head? = some (readField s).1 := by
  rw [readRecord]
  split
  · next h => simp [h]
  · next h => simp [h]

theorem isBare_of_readRecord {columns : List (List Char)} (h : (readRecord (header columns ++ r)).1 = columns) :
    ∀ s ∈ columns, IsBare s := by
  induction columns with
  | nil => exact List.forall_mem_nil _
  | cons s columns ih =>
    have hfirst := head?_readRecord (header (s :: columns) ++ r)
    rw [h, List.head?_cons, Option.some.injEq] at hfirst
    cases columns with
    | nil =>
      have hline : header [s] ++ r = s ++ '\n' :: r := by simp [header]
      rw [hline] at hfirst
      simpa using (readField_eq_iff (stops_cons (by decide) r)).mp hfirst.symm
    | cons t columns =>
      have hcomma : header (s :: t :: columns) ++ r = s ++ ',' :: (header (t :: columns) ++ r) := by
        simp [header_cons_cons]
      have hstops : Stops (',' :: (header (t :: columns) ++ r)) := stops_cons (by decide) _
      rw [hcomma] at hfirst h
      have hs := (readField_eq_iff hstops).mp hfirst.symm
      rw [readRecord_comma (readField_of_isBare hs hstops)] at h
      exact List.forall_mem_cons.mpr ⟨hs, ih (List.cons.inj h).2⟩

end Csv

namespace Report

/-- The first record of a text that starts with a header line. -/
theorem read_csv (r : Report) : Csv.read r.csv =
    (Csv.readRecords (Csv.header (r.columns.map String.toList) ++
      (r.rows.map (·.map (fun d => d.cell.toList))).flatMap Csv.row)).map (·.map String.ofList) := by
  rw [Csv.read, csv, String.toList_ofList, List.flatMap_map]

/-- The header is read as the names of the columns exactly if each of them needs no quotes. Then every record has one
field for each column. -/
theorem csv_header_reads_iff (r : Report) (hc : r.columns ≠ []) (hw : ∀ cells ∈ r.rows, cells.length = r.columns.length) :
    ((Csv.read r.csv).head? = some r.columns ↔ ∀ name ∈ r.columns, Csv.IsBare name.toList) ∧
    ((∀ name ∈ r.columns, Csv.IsBare name.toList) → Csv.read r.csv = r.columns :: r.rows.map (·.map Datum.cell)) := by
  have hne : r.columns.map String.toList ≠ [] := by simpa using hc
  have hrows : ∀ cells ∈ r.rows, cells ≠ [] := by
    intro cells hm he
    have := hw cells hm
    rw [he, List.length_nil, eq_comm, List.length_eq_zero_iff] at this
    exact hc this
  have htext : ∀ body, Csv.header (r.columns.map String.toList) ++ body ≠ [] := by simp [Csv.header]
  have hall (h : ∀ name ∈ r.columns, Csv.IsBare name.toList) :
      Csv.read r.csv = r.columns :: r.rows.map (·.map Datum.cell) := by
    have hbare : ∀ s ∈ r.columns.map String.toList, Csv.IsBare s := by simpa using h
    rw [read_csv, Csv.readRecords_of_readRecord (htext _) (Csv.readRecord_header hne hbare _), read_rows hrows]
    simp [Function.comp_def]
  refine ⟨⟨?_, fun h => by rw [hall h, List.head?_cons]⟩, hall⟩
  intro h
  rw [read_csv, Csv.readRecords_of_readRecord (htext _) rfl, List.map_cons, List.head?_cons, Option.some.injEq] at h
  have hread := congrArg (List.map String.toList) h
  rw [List.map_map, show String.toList ∘ String.ofList = id from funext (fun _ => String.toList_ofList), List.map_id]
    at hread
  simpa using Csv.isBare_of_readRecord hread

theorem plain_header_read :
    let r : Report := ⟨["id", "full name"], [[.integer 1, .text "Doe, Jane"]]⟩
    r.columns ≠ [] ∧ (∀ cells ∈ r.rows, cells.length = r.columns.length) ∧
      Csv.read r.csv = [["id", "full name"], ["1", "Doe, Jane"]] := by
  intro r
  have hc : r.columns ≠ [] := by decide
  have hw : ∀ cells ∈ r.rows, cells.length = r.columns.length := by decide
  have hbare : ∀ name ∈ r.columns, Csv.IsBare name.toList := by decide
  have hread := (r.csv_header_reads_iff hc hw).2 hbare
  have hcells : r.rows.map (·.map Datum.cell) = [["1", "Doe, Jane"]] := by cbv
  exact ⟨hc, hw, hcells ▸ hread⟩

/-- A column that has the text of a call as its name is read as three. -/
theorem name_of_call_is_split :
    let r : Report := ⟨["protobuf_extract(data, 'Person', '$.name')"], [[.text "John Smith"]]⟩
    (∀ cells ∈ r.rows, cells.length = r.columns.length) ∧
      Csv.read r.csv = [["protobuf_extract(data", " 'Person'", " '$.name')"], ["John Smith"]] ∧
      (Csv.read r.csv).head? ≠ some r.columns := by
  intro r
  have hread : Csv.read r.csv = [["protobuf_extract(data", " 'Person'", " '$.name')"], ["John Smith"]] := by cbv
  refine ⟨by decide, hread, ?_⟩
  rw [hread]
  decide

end Report

end WireQuery
