import WireQuery.Proofs.Report.JsonObjects
import WireQuery.Text.Split

namespace WireQuery

namespace Json

variable {ms : List (String × Datum)}

/-- Members sorted by name, of which none occurs twice. -/
def Ascending (ms : List (String × α)) : Prop := (ms.map (·.1)).Pairwise (· < ·)

theorem ascending_cons {m : String × α} {ms : List (String × α)} :
    Ascending (m :: ms) ↔ (∀ m' ∈ ms, m.1 < m'.1) ∧ Ascending ms := by
  simp [Ascending]

theorem mem_putMember (h : Ascending ms) :
    (n, e) ∈ putMember name d ms ↔ (n = name ∧ e = d) ∨ (n ≠ name ∧ (n, e) ∈ ms) := by
  induction ms with
  | nil => simp [putMember]
  | cons m ms ih =>
    obtain ⟨k, f⟩ := m
    obtain ⟨hfirst, hrest⟩ := ascending_cons.mp h
    have hbehind : (n, e) ∈ ms → k < n := hfirst (n, e)
    rw [putMember]
    split
    · next hk =>
      subst hk
      have hne : (n, e) ∈ ms → n ≠ name := fun hm => (hbehind hm).ne'
      simp only [List.mem_cons, Prod.mk.injEq]
      grind
    · next hk =>
      split
      · next hlt =>
        have hne : (n, e) ∈ ms → n ≠ name := fun hm => (hlt.trans (hbehind hm)).ne'
        have hne' : n = k → n ≠ name := fun hn => hn ▸ Ne.symm hk
        simp only [List.mem_cons, Prod.mk.injEq]
        grind
      · have hne : n = k → n ≠ name := fun hn => hn ▸ Ne.symm hk
        rw [List.mem_cons, ih hrest, List.mem_cons, Prod.mk.injEq]
        grind

theorem ascending_putMember (h : Ascending ms) : Ascending (putMember name d ms) := by
  induction ms with
  | nil => simp [putMember, Ascending]
  | cons m ms ih =>
    obtain ⟨k, f⟩ := m
    obtain ⟨hfirst, hrest⟩ := ascending_cons.mp h
    rw [putMember]
    split
    · next hk => exact hk ▸ ascending_cons.mpr ⟨hfirst, hrest⟩
    · next hk =>
      split
      · next hlt =>
        refine ascending_cons.mpr ⟨?_, h⟩
        intro m hm
        obtain rfl | hm := List.mem_cons.mp hm
        · exact hlt
        · exact hlt.trans (hfirst m hm)
      · next hge =>
        refine ascending_cons.mpr ⟨?_, ih hrest⟩
        rintro ⟨n, e⟩ hm
        obtain ⟨rfl, -⟩ | ⟨-, hm⟩ := (mem_putMember hrest).mp hm
        · exact lt_of_le_of_ne (not_lt.mp hge) (Ne.symm hk)
        · exact hfirst _ hm

/-- The members of a row are sorted, and each has the last cell under its name. -/
theorem members_of_zip (columns : List String) (cells : List Datum) :
    Ascending (members columns cells) ∧
      ∀ name d, (name, d) ∈ members columns cells ↔ (columns.zip cells).reverse.lookup name = some d := by
  unfold members
  induction columns.zip cells using List.reverseRecOn with
  | nil => simp [Ascending]
  | append_singleton ms m ih =>
    obtain ⟨k, f⟩ := m
    obtain ⟨hascending, hmem⟩ := ih
    rw [List.foldl_append, List.foldl_cons, List.foldl_nil, List.reverse_append, List.reverse_singleton,
      List.singleton_append]
    refine ⟨ascending_putMember hascending, fun name d => ?_⟩
    rw [mem_putMember hascending, hmem, List.lookup_cons]
    by_cases hk : name = k
    · simp [hk, eq_comm]
    · simp [hk, beq_eq_false_iff_ne.mpr hk]

theorem Ascending.nodup {ms : List (String × α)} (h : Ascending ms) : (ms.map (·.1)).Nodup :=
  List.nodup_iff_pairwise_ne.mpr (h.imp ne_of_lt)

theorem lookup_iff_mem {ms : List (String × α)} (h : (ms.map (·.1)).Nodup) :
    ms.lookup name = some a ↔ (name, a) ∈ ms := by
  induction ms with
  | nil => simp
  | cons m ms ih =>
    obtain ⟨k, b⟩ := m
    obtain ⟨hk, hrest⟩ := List.nodup_cons.mp h
    rw [List.lookup_cons, List.mem_cons, Prod.mk.injEq]
    by_cases hname : name = k
    · subst hname
      have hmem : (name, a) ∉ ms := fun hm => hk (List.mem_map.mpr ⟨_, hm, rfl⟩)
      simp [hmem, eq_comm]
    · simp [hname, beq_eq_false_iff_ne.mpr hname, ih hrest]

/-- The members that a row of cells has: one for each name, sorted, with the image of the last cell under the name. They are
the cells one for one exactly if no name stands over two of them. -/
structure Represents (columns : List String) (cells : List Datum) (ms : List (String × Tree)) : Prop where
  ascending : Ascending ms
  last : ∀ name t, (name, t) ∈ ms ↔ ∃ d, (columns.zip cells).reverse.lookup name = some d ∧ t = d.image
  complete : ms.Perm ((columns.zip cells).map memberImage) ↔ columns.Nodup

theorem map_memberImage (ms : List (String × Datum)) : (ms.map memberImage).map (·.1) = ms.map (·.1) := by
  simp [memberImage]

theorem members_perm_iff {columns : List String} {cells : List Datum} (h : cells.length = columns.length) :
    ((members columns cells).map memberImage).Perm ((columns.zip cells).map memberImage) ↔ columns.Nodup := by
  obtain ⟨hascending, hmem⟩ := members_of_zip columns cells
  have hnames : (columns.zip cells).map (·.1) = columns := List.map_fst_zip h.ge
  constructor
  · intro hperm
    have hperm := hperm.map (·.1)
    rw [map_memberImage, map_memberImage, hnames] at hperm
    exact hperm.nodup_iff.mp hascending.nodup
  · intro hnodup
    rw [← hnames] at hnodup
    have hreverse : ((columns.zip cells).reverse.map (·.1)).Nodup := by
      rwa [List.map_reverse, List.nodup_reverse]
    apply List.Perm.map
    rw [List.perm_ext_iff_of_nodup (hascending.nodup.of_map _) (hnodup.of_map _)]
    rintro ⟨name, d⟩
    rw [hmem, lookup_iff_mem hreverse, List.mem_reverse]

theorem represents_members {columns : List String} {cells : List Datum} (h : cells.length = columns.length) :
    Represents columns cells ((members columns cells).map memberImage) := by
  obtain ⟨hascending, hmem⟩ := members_of_zip columns cells
  refine ⟨?_, fun name t => ?_, members_perm_iff h⟩
  · rwa [Ascending, map_memberImage]
  · simp [memberImage, hmem, eq_comm]

end Json

namespace Report

theorem split_lines {sep : Char} {lines : List (List Char)} (h : ∀ line ∈ lines, sep ∉ line) :
    split sep (lines.flatMap (· ++ [sep])) = lines ++ [[]] := by
  induction lines with
  | nil => rfl
  | cons line lines ih =>
    rw [List.flatMap_cons, List.append_assoc, List.singleton_append, split_append_cons (h line List.mem_cons_self),
      ih (fun l hl => h l (List.mem_cons_of_mem _ hl)), List.cons_append]

/-- The text of a report is one line for each row. -/
theorem splitText_json (r : Report) : splitText '\n' r.json =
    r.rows.map (fun cells => String.ofList (Json.object (Json.members r.columns cells))) ++ [""] := by
  have honline : ∀ line ∈ r.rows.map (fun cells => Json.object (Json.members r.columns cells)), '\n' ∉ line := by
    intro line hline
    obtain ⟨cells, -, rfl⟩ := List.mem_map.mp hline
    exact Json.object_on_line _
  have hlines := split_lines honline
  rw [List.flatMap_map] at hlines
  simp [splitText, json, hlines]

/-- Each row is written as one line, which is the text of one JSON object; its members represent the cells of the row. -/
theorem json_lines_read_back (r : Report) (h : ∀ cells ∈ r.rows, cells.length = r.columns.length) :
    ∃ lines, splitText '\n' r.json = lines ++ [""] ∧
      List.Forall₂ (fun cells line => ∃ ms, Json.read? line = some (.object ms) ∧ Json.Represents r.columns cells ms)
        r.rows lines := by
  refine ⟨_, r.splitText_json, ?_⟩
  rw [List.forall₂_map_right_iff, List.forall₂_same]
  exact fun cells hc => ⟨_, Json.read?_object _, Json.represents_members (h cells hc)⟩

/-- A row with all that a string escapes, and numbers finite and not. -/
def escaped : Report := ⟨["b", "a\n", "\\", "n"],
  [[.real 0x3FF8000000000000, .text "x\"\n\x01", .real 0x7FF0000000000000, .integer (-7)]]⟩

theorem escaped_row_read_back :
    (∀ cells ∈ escaped.rows, cells.length = escaped.columns.length) ∧
      ∃ line ms, splitText '\n' escaped.json = [line, ""] ∧ Json.read? line = some (.object ms) ∧
        ms.Perm [("b", .real 0x3FF8000000000000), ("a\n", .text "x\"\n\x01"), ("\\", .null), ("n", .integer (-7))] := by
  have h : ∀ cells ∈ escaped.rows, cells.length = escaped.columns.length := by decide
  obtain ⟨lines, hsplit, hlines⟩ := escaped.json_lines_read_back h
  obtain ⟨line, hread, rfl⟩ : ∃ line, (∃ ms, Json.read? line = some (.object ms) ∧
      Json.Represents escaped.columns _ ms) ∧ lines = [line] := by
    cases hlines with
    | cons hrow hrest =>
      cases hrest
      exact ⟨_, hrow, rfl⟩
  obtain ⟨ms, hread, hms⟩ := hread
  exact ⟨h, line, ms, hsplit, hread, hms.complete.mpr (by decide)⟩

/-- What a join of two tables gives under one name. -/
def repeated : Report := ⟨["id", "id"], [[.integer 1, .integer 2]]⟩

/-- Of two cells under one name the first is not in the object. -/
theorem first_of_name_is_lost :
    (∀ cells ∈ repeated.rows, cells.length = repeated.columns.length) ∧
      ∃ line ms, splitText '\n' repeated.json = [line, ""] ∧ Json.read? line = some (.object ms) ∧
        ms = [("id", .integer 2)] ∧ ms.length < repeated.columns.length := by
  refine ⟨by decide, _, _, repeated.splitText_json, Json.read?_object _, by rfl, by decide⟩

end Report

end WireQuery
