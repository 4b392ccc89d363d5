import PropertyCascade.OrderedMap.Lemmas
import PropertyCascade.Proofs.Toml.Document
import PropertyCascade.Report

/-!
# Reports read back

The document that several reports are written as says what they hold: it has a table for each
displayed path, under which the last report with that path stands, and nothing else. Keys, texts and
values come back as they were; a number comes back as the same float, so that its text is the one
that is shown for the value.
-/

namespace PropertyCascade

namespace Report

open Toml (Node)
open Toml.Statement (ReadsAs ofTable)

/-- What a document says about a table of properties. -/
def pairsOf (properties : Properties) : List (Text × Node) :=
  properties.entries.map fun entry => (entry.1, Toml.Scalar.nodeOf entry.2)

theorem readsAs_header (path : Text) :
    ReadsAs ('[' :: Toml.Key.write path ++ [']'] ++ ['\n']) [.header [path]] :=
  ⟨1, by simp, fun count rest => by
    simpa using Toml.Statement.readLines_header path count rest⟩

theorem readsAs_pair (entry : Text × Value) :
    ReadsAs (Toml.Key.write entry.1 ++ [' ', '=', ' '] ++ Toml.Scalar.write entry.2 ++ ['\n'])
      [.pair [entry.1] (Toml.Scalar.nodeOf entry.2)] :=
  ⟨1, by simp only [List.length_append, List.length_singleton]; omega, fun count rest => by
    simpa using Toml.Statement.readLines_pair entry.1 entry.2 count rest⟩

/-- The lines of a table are read as its header and its pairs. -/
theorem readsAs_tomlLines (table : Text × Properties) :
    ReadsAs (endedLines (tomlLines table)) (ofTable table.1 (pairsOf table.2)) := by
  have whole := (readsAs_header table.1).append
    (Toml.Statement.readsAs_lines readsAs_pair table.2.entries)
  rw [endedLines, tomlLines, List.flatMap_cons, List.flatMap_map, ofTable, pairsOf, List.map_map]
  exact whole

theorem readsAs_renderToml (reports : List Report) :
    ReadsAs (renderToml reports)
      ((tables reports).entries.flatMap fun table => ofTable table.1 (pairsOf table.2)) :=
  Toml.Statement.readsAs_intercalate readsAs_tomlLines _

theorem head?_renderToml (reports : List Report) :
    (renderToml reports).head? ≠ some '\uFEFF' := by
  rw [renderToml]
  rcases (tables reports).entries with nil | ⟨table, rest⟩
  · simp [List.intercalate]
  · cases rest <;> simp [List.intercalate, endedLines, tomlLines]

theorem read?_renderToml (reports : List Report) :
    Toml.Document.read? (renderToml reports) =
      some ((tables reports).entries.map fun table => (table.1, .table (pairsOf table.2))) := by
  rw [Toml.Document.read?, (readsAs_renderToml reports).readAll? (head?_renderToml reports),
    Option.bind_some]
  have nodup : (((tables reports).entries.map fun table =>
      (table.1, pairsOf table.2)).map Prod.fst).Nodup := by
    simpa [Function.comp_def] using (tables reports).nodup_keys
  have nodupWithin : ∀ entry ∈ (tables reports).entries.map fun table =>
      (table.1, pairsOf table.2), (entry.2.map Prod.fst).Nodup := by
    intro entry member
    rcases List.mem_map.mp member with ⟨table, -, rfl⟩
    simpa [pairsOf, Function.comp_def] using table.2.nodup_keys
  have made := Toml.Document.ofStatements?_tables nodup nodupWithin
  simpa [List.flatMap_map, Function.comp_def] using made

/-- The document is the map from displayed paths to tables, of several reports on one path the last
one. -/
theorem read?_render_toml (palette : Palette) (reports : List Report) :
    ∃ document, Toml.Document.read? (render .toml palette reports) = some document ∧
      (document.map Prod.fst).Nodup ∧
      ∀ path, document.lookup path =
        (reports.filter fun report => report.path.display = path).getLast?.map fun report =>
          .table (pairsOf report.properties) := by
  refine ⟨_, read?_renderToml reports, ?_, fun path => ?_⟩
  · simpa [Function.comp_def] using (tables reports).nodup_keys
  · rw [OrderedMap.lookup_map_entries (fun properties => Node.table (pairsOf properties)), tables,
      OrderedMap.get?_ofList, OrderedMap.lastUnder, List.filter_map, List.getLast?_map,
      Option.map_map, Option.map_map]
    rfl

end Report

end PropertyCascade
