import Gatehouse.Proofs.CommandLine.Output

/-!
# Reading the listing of groups

The listing has a line for each group of the catalog, and tabs between the name, the levels and the
description.  The name and the description are those of the documents, as they are.

* `Tabulates` — a text falls at its newlines into lines and each line at its tabs into the fields of
  a row.
* `tabulates_iff` — a text that was put together from rows falls into these rows exactly if no field
  has a tab or a newline.
* `plain_levelsField` — the levels of a group have neither.

`listAcls_tabulates_iff` says when the listing can be read: a tab or a newline in a name or in a
description is taken for the end of a field or of a line.
-/

namespace Gatehouse.CommandLine

open Gatehouse.Access Gatehouse.Acl Gatehouse.Files

/-! ## Tables -/

/-- A text without the characters that divide a table. -/
def Plain (text : String) : Prop :=
  '\t' ∉ text.toList ∧ '\n' ∉ text.toList

instance (text : String) : Decidable (Plain text) :=
  inferInstanceAs (Decidable (_ ∧ _))

/-- The text falls at its newlines into one line for each row, with nothing after the last one, and
each line falls at its tabs into the fields of its row. -/
def Tabulates (text : String) (rows : List (List String)) : Prop :=
  ∃ lines, text.toList.splitOn '\n' = lines ++ [[]] ∧
    lines.map (fun line => (line.splitOn '\t').map String.ofList) = rows

/-- Fields that are read from a line had a tab between each other, and have none in them. -/
theorem map_splitOn_eq_iff {lines : List (List Char)} {rows : List (List String)}
    (hne : ∀ row ∈ rows, row ≠ []) :
    lines.map (fun line => (line.splitOn '\t').map String.ofList) = rows ↔
      lines = rows.map (fun row => ['\t'].intercalate (row.map String.toList)) ∧
        ∀ row ∈ rows, ∀ field ∈ row, '\t' ∉ field.toList := by
  constructor
  · rintro rfl
    constructor
    · rw [List.map_map]
      refine (List.map_id lines).symm.trans (List.map_congr_left fun line _ => ?_)
      simp [Function.comp_def, List.intercalate_splitOn]
    · intro row hrow field hfield
      obtain ⟨line, -, rfl⟩ := List.mem_map.1 hrow
      obtain ⟨cs, hcs, rfl⟩ := List.mem_map.1 hfield
      rw [String.toList_ofList]
      exact notMem_of_mem_splitOn hcs
  · rintro ⟨rfl, htab⟩
    rw [List.map_map]
    refine (List.map_congr_left fun row hrow => ?_).trans (List.map_id rows)
    rw [Function.comp_apply, List.splitOn_intercalate]
    · simp
    · intro cs hcs
      obtain ⟨field, hfield, rfl⟩ := List.mem_map.1 hcs
      exact htab row hrow field hfield
    · simpa using hne row hrow

/-- A text of lines falls into these lines exactly if none of them has a newline. -/
theorem splitOn_ofLines_iff {ls : List (List Char)} :
    (Text.ofLines ls).splitOn '\n' = ls ++ [[]] ↔ ∀ l ∈ ls, '\n' ∉ l := by
  constructor
  · intro h l hl
    exact notMem_of_mem_splitOn (s := Text.ofLines ls) (h ▸ List.mem_append_left _ hl)
  · exact splitOn_ofLines

/-- A text with a line for each row, made of the fields of the row with tabs between them, falls
into these rows exactly if the fields have no tab and no newline. -/
theorem tabulates_iff {rows : List (List String)} (hne : ∀ row ∈ rows, row ≠ []) :
    Tabulates (unlines (rows.map ("\t".intercalate ·))) rows ↔
      ∀ row ∈ rows, ∀ field ∈ row, Plain field := by
  have htext : (unlines (rows.map ("\t".intercalate ·))).toList =
      Text.ofLines (rows.map fun row => ['\t'].intercalate (row.map String.toList)) := by
    rw [toList_unlines, List.map_map]
    simp [Function.comp_def]
  unfold Tabulates
  rw [htext]
  constructor
  · rintro ⟨lines, hsplit, hrows⟩
    obtain ⟨rfl, htab⟩ := (map_splitOn_eq_iff hne).1 hrows
    intro row hrow field hfield
    refine ⟨htab row hrow field hfield, fun hnewline => ?_⟩
    refine splitOn_ofLines_iff.1 hsplit _ (List.mem_map_of_mem hrow) ?_
    exact (mem_intercalate_iff (by decide)).2 ⟨_, List.mem_map_of_mem hfield, hnewline⟩
  · intro hplain
    refine ⟨_, splitOn_ofLines_iff.2 ?_, (map_splitOn_eq_iff hne).2
      ⟨rfl, fun row hrow field hfield => (hplain row hrow field hfield).1⟩⟩
    intro line hline hnewline
    obtain ⟨row, hrow, rfl⟩ := List.mem_map.1 hline
    obtain ⟨cs, hcs, hnewline⟩ := (mem_intercalate_iff (by decide)).1 hnewline
    obtain ⟨field, hfield, rfl⟩ := List.mem_map.1 hcs
    exact (hplain row hrow field hfield).2 hnewline

/-! ## Groups -/

/-- The levels of a group with commas between them, or a dash if it has none. -/
def levelsField (s : Summary) : String :=
  if s.permissions.isEmpty then "-" else ",".intercalate (s.permissions.map (·.name))

/-- What the line of a group tells: its name, its levels, and its description or a dash. -/
def fields (s : Summary) : List String :=
  [s.name, levelsField s, s.description.getD "-"]

theorem summaryLine_eq_intercalate (s : Summary) : summaryLine s = "\t".intercalate (fields s) := by
  rw [← String.toList_inj]
  simp [summaryLine, fields, levelsField]

theorem plain_permissionName (p : Permission) : Plain p.name := by
  cases p <;> decide

theorem plain_levelsField (s : Summary) : Plain (levelsField s) := by
  unfold levelsField
  split
  · decide
  · have hnames : ∀ c, c ≠ ',' → (∀ p : Permission, c ∉ p.name.toList) →
        c ∉ (",".intercalate (s.permissions.map (·.name))).toList := by
      intro c hcomma hname hmem
      rw [String.toList_intercalate] at hmem
      obtain ⟨cs, hcs, hmem⟩ := (mem_intercalate_iff hcomma).1 hmem
      simp only [List.map_map, List.mem_map] at hcs
      obtain ⟨p, -, rfl⟩ := hcs
      exact hname p hmem
    exact ⟨hnames '\t' (by decide) fun p => (plain_permissionName p).1,
      hnames '\n' (by decide) fun p => (plain_permissionName p).2⟩

/-- The fields of a group are plain exactly if its name and its description are. -/
theorem plain_fields_iff {s : Summary} :
    (∀ field ∈ fields s, Plain field) ↔ Plain s.name ∧ ∀ d ∈ s.description, Plain d := by
  have hdash : Plain "-" := by decide
  cases hd : s.description with
  | none => simp [fields, hd, plain_levelsField, hdash]
  | some d => simp [fields, hd, plain_levelsField]

/-- The listing of summaries falls into their fields exactly if names and descriptions are
plain. -/
theorem tabulates_summaries_iff (summaries : List Summary) :
    Tabulates (unlines (summaries.map summaryLine)) (summaries.map fields) ↔
      ∀ s ∈ summaries, Plain s.name ∧ ∀ d ∈ s.description, Plain d := by
  have hlines : summaries.map summaryLine = (summaries.map fields).map ("\t".intercalate ·) := by
    rw [List.map_map]
    exact List.map_congr_left fun s _ => summaryLine_eq_intercalate s
  have hne : ∀ row ∈ summaries.map fields, row ≠ [] := by
    intro row hrow
    obtain ⟨s, -, rfl⟩ := List.mem_map.1 hrow
    exact List.cons_ne_nil _ _
  rw [hlines, tabulates_iff hne, List.forall_mem_map]
  exact forall₂_congr fun s _ => plain_fields_iff

theorem listAcls_of_catalog {c : Config} {tree : Tree} {summaries : List Summary}
    (h : c.login.library.catalog tree = .ok summaries) :
    listAcls c tree = .success (summaries.map summaryLine) := by
  rw [listAcls, h]

/-- **When the listing of groups can be read.**  If the documents of the library can be listed, the
listing succeeds.  What it prints falls at its newlines into one line for each group of the catalog,
in their order, and each line at its tabs into the name, the levels and the description of its
group, exactly if no name and no description of the catalog has a tab or a newline. -/
theorem listAcls_tabulates_iff (c : Config) (tree : Tree) {summaries : List Summary}
    (h : c.login.library.catalog tree = .ok summaries) :
    (listAcls c tree).status = 0 ∧
      (Tabulates (listAcls c tree).stdout (summaries.map fields) ↔
        ∀ s ∈ summaries, Plain s.name ∧ ∀ d ∈ s.description, Plain d) := by
  rw [listAcls_of_catalog h]
  exact ⟨rfl, tabulates_summaries_iff summaries⟩

/-- A library with two groups; the name and the description of the first have blanks, a comma,
quotes and a carriage return. -/
def commaTree : Tree :=
  Tree.empty.write "acl/ops.json" (.file
    ("\x7b\"a, b\":\x7b\"description\":\"\\\"all\\\"\\r\",\"write\":\x7b\x7d,\"read\":\x7b\x7d\x7d," ++
      "\"bare\":\x7b\x7d\x7d").toUTF8.toList)

theorem listAcls_tabulates_comma :
    (listAcls sampleConfig commaTree).status = 0 ∧
      Tabulates (listAcls sampleConfig commaTree).stdout
        [["a, b", "read,write", "\"all\"\r"], ["bare", "-", "-"]] := by
  have hcatalog : sampleConfig.login.library.catalog commaTree = .ok
      [⟨"a, b", some "\"all\"\r", [.read, .write]⟩, ⟨"bare", none, []⟩] := by
    decide +kernel
  obtain ⟨hstatus, htable⟩ := listAcls_tabulates_iff sampleConfig commaTree hcatalog
  exact ⟨hstatus, htable.2 (by decide)⟩

/-- A library with one group, in whose description there is a newline. -/
def foldedTree : Tree :=
  Tree.empty.write "acl/ops.json" (.file
    "\x7b\"ops\":\x7b\"description\":\"Operations\\nadmins\"\x7d\x7d".toUTF8.toList)

/-- The listing cannot always be read: the description of a group may look like another line. -/
theorem not_forall_listAcls_tabulates :
    ¬∀ (c : Config) (tree : Tree) (summaries : List Summary),
      c.login.library.catalog tree = .ok summaries →
        Tabulates (listAcls c tree).stdout (summaries.map fields) := by
  intro hall
  have hcatalog : sampleConfig.login.library.catalog foldedTree = .ok
      [⟨"ops", some "Operations\nadmins", []⟩] := by
    decide +kernel
  have htable := hall sampleConfig foldedTree _ hcatalog
  rw [listAcls_of_catalog hcatalog] at htable
  have hplain := (tabulates_summaries_iff _).1 htable
  exact absurd hplain (by decide)

end Gatehouse.CommandLine
