import Mathlib.Data.List.Dedup
import PropertyCascade.Proofs.Report
import PropertyCascade.Proofs.Text.Utf8Decoding

/-!
# One table for each report

A document of tables has one table for each path as it is displayed, so it keeps the reports apart
exactly if their displayed paths are different. For the names of texts that is no condition, because
a name shows the text that it is written for; names that no text has are shown with replacement
characters and may then be shown alike, and of such reports only the last one has a table.
-/

namespace PropertyCascade

namespace OrderedMap

variable {Key Value : Type} [Ord Key] [Std.TransOrd Key] [Std.LawfulEqOrd Key] [DecidableEq Key]
  {entries : List (Key × Value)}

theorem keys_ofList_perm (entries : List (Key × Value)) :
    ((ofList entries).entries.map Prod.fst).Perm (entries.map Prod.fst).dedup := by
  apply (List.perm_ext_iff_of_nodup (nodup_keys _) (List.nodup_dedup _)).mpr
  intro key
  rw [List.mem_dedup]
  exact mem_keys_ofList

/-- Entries with different keys are the entries of their map. -/
theorem entries_ofList_perm (nodup : (entries.map Prod.fst).Nodup) :
    (ofList entries).entries.Perm entries := by
  apply (List.perm_ext_iff_of_nodup (List.Nodup.of_map _ (nodup_keys _))
    (List.Nodup.of_map _ nodup)).mpr
  intro entry
  exact mem_entries_iff.trans ((get?_ofList entries entry.1).symm ▸ lastUnder_eq_some_iff nodup)

end OrderedMap

namespace Report

open Toml (Node)

/-- The displayed paths of several reports. -/
def displays (reports : List Report) : List Text :=
  reports.map fun report => report.path.display

/-- What a document has for a report. -/
def tableOf (report : Report) : Text × Node :=
  (report.path.display, .table (pairsOf report.properties))

/-- Reports on different paths. -/
def AreApart (reports : List Report) : Prop :=
  reports.Pairwise fun earlier later => earlier.path.parts ≠ later.path.parts

variable {reports : List Report}

theorem nodup_displays_of_areApart (apart : AreApart reports)
    (named : ∀ report ∈ reports, ∃ text, report.path = .ofText text) :
    (displays reports).Nodup := by
  apply List.pairwise_map.mpr
  apply apart.imp_of_mem
  intro earlier later earlierMember laterMember different same
  rcases named earlier earlierMember with ⟨text, itsPath⟩
  rcases named later laterMember with ⟨other, otherPath⟩
  rw [itsPath, otherPath, PathName.display_ofText, PathName.display_ofText] at same
  exact different (by rw [itsPath, otherPath, same])

/-- The document of several reports. -/
def documentOf (reports : List Report) : List (Text × Node) :=
  (tables reports).entries.map fun table => (table.1, .table (pairsOf table.2))

theorem map_fst_documentOf_perm (reports : List Report) :
    ((documentOf reports).map Prod.fst).Perm (displays reports).dedup := by
  simpa [documentOf, tables, displays, Function.comp_def] using
    OrderedMap.keys_ofList_perm
      (reports.map fun report => (report.path.display, report.properties))

theorem documentOf_perm (nodup : (displays reports).Nodup) :
    (documentOf reports).Perm (reports.map tableOf) := by
  have different : ((reports.map fun report =>
      (report.path.display, report.properties)).map Prod.fst).Nodup := by
    simpa [displays, Function.comp_def] using nodup
  have written := (OrderedMap.entries_ofList_perm different).map fun table =>
    (table.1, Node.table (pairsOf table.2))
  rw [List.map_map] at written
  exact written

/-- If there are as many tables as reports, no two reports are shown alike. -/
theorem nodup_displays_of_length (complete : (documentOf reports).length = reports.length) :
    (displays reports).Nodup := by
  have kept : (displays reports).dedup.length = (displays reports).length := by
    rw [← (map_fst_documentOf_perm reports).length_eq, List.length_map, complete, displays,
      List.length_map]
  exact List.dedup_eq_self.mp ((List.dedup_sublist _).eq_of_length kept)

/-- A document has a table for each report if and only if the displayed paths are different, and in
particular if the paths are different names of texts. -/
theorem render_toml_has_table_for_each (palette : Palette) (apart : AreApart reports) :
    ∃ document, Toml.Document.read? (render .toml palette reports) = some document ∧
      (document.map Prod.fst).Perm (displays reports).dedup ∧
      (document.Perm (reports.map tableOf) ↔ (displays reports).Nodup) ∧
      (document.length = reports.length ↔ (displays reports).Nodup) ∧
      ((∀ report ∈ reports, ∃ text, report.path = .ofText text) →
        document.Perm (reports.map tableOf) ∧ document.length = reports.length) := by
  have complete (document : List (Text × Node)) (same : document.Perm (reports.map tableOf)) :
      document.length = reports.length := by
    rw [same.length_eq, List.length_map]
  refine ⟨documentOf reports, read?_renderToml reports, map_fst_documentOf_perm reports, ?_, ?_, ?_⟩
  · constructor
    · intro same
      exact nodup_displays_of_length (complete _ same)
    · exact documentOf_perm
  · constructor
    · exact nodup_displays_of_length
    · intro nodup
      exact complete _ (documentOf_perm nodup)
  · intro named
    have same := documentOf_perm (nodup_displays_of_areApart apart named)
    exact ⟨same, complete _ same⟩

/-- Reports on the names of two texts, of which one has the replacement character in it. -/
def namedReports : List Report :=
  [⟨.ofText "/\uFFFD".toList, OrderedMap.ofList [("k".toList, .flag true)]⟩,
    ⟨.ofText "/a b".toList, OrderedMap.empty⟩]

theorem render_toml_has_table_for_each_namedReports :
    AreApart namedReports ∧
      (∀ report ∈ namedReports, ∃ text, report.path = .ofText text) ∧
      ∃ document, Toml.Document.read? (render .toml ⟨false⟩ namedReports) = some document ∧
        document.Perm [("/\uFFFD".toList, .table [("k".toList, .boolean true)]),
          ("/a b".toList, .table [])] ∧
        document.length = 2 := by
  have apart : AreApart namedReports := by
    rw [AreApart]
    decide
  have named : ∀ report ∈ namedReports, ∃ text, report.path = .ofText text := by
    simp [namedReports]
  rcases render_toml_has_table_for_each ⟨false⟩ apart with ⟨document, reads, -, -, -, complete⟩
  rcases complete named with ⟨same, length⟩
  have shown : namedReports.map tableOf = [("/\uFFFD".toList, .table [("k".toList, .boolean true)]),
      ("/a b".toList, .table [])] := by
    simp only [namedReports, List.map_cons, List.map_nil, tableOf, PathName.display_ofText]
    rfl
  exact ⟨apart, named, document, reads, shown ▸ same, length⟩

/-- Reports on two names that no text has. -/
def unnamedReports : List Report :=
  [⟨⟨[0x2F, 0xFE]⟩, OrderedMap.ofList [("k".toList, .integer 1)]⟩,
    ⟨⟨[0x2F, 0xFF]⟩, OrderedMap.ofList [("k".toList, .integer 2)]⟩]

/-- Both are shown alike, so that the first of them is lost. -/
theorem render_toml_lacks_table_for_first :
    AreApart unnamedReports ∧
      Toml.Document.read? (render .toml ⟨false⟩ unnamedReports) =
        some [("/\uFFFD".toList, .table [("k".toList, .integer 2)])] := by
  constructor
  · rw [AreApart]
    decide
  · exact read?_renderToml unnamedReports

end Report

end PropertyCascade
