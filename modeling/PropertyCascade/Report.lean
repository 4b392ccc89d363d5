import PropertyCascade.OutputFormat
import PropertyCascade.Palette
import PropertyCascade.PathName
import PropertyCascade.Properties
import PropertyCascade.Toml.Key
import PropertyCascade.Toml.Scalar

/-!
# Reports

The properties in effect for files, and how they are written. The plain form has a line for each
property, and a header line for each file if there are several. The TOML form is a document with a
table for each path as it is displayed; of several reports on one path the last counts.
-/

namespace PropertyCascade

/-- The properties in effect for a file. -/
structure Report where
  path : PathName
  properties : Properties
  deriving DecidableEq

namespace Report

/-- The line of a property. -/
def plainLine (palette : Palette) (entry : Text × Value) : Text :=
  palette.key entry.1 ++ '=' :: entry.2.display

/-- The lines of a report, with or without a header. -/
def plainLines (palette : Palette) (withHeader : Bool) (report : Report) : List Text :=
  (if withHeader then [palette.header report.path.display] else []) ++
    report.properties.entries.map (plainLine palette)

/-- Lines, each with its line end. -/
def endedLines (lines : List Text) : Text :=
  lines.flatMap fun line => line ++ ['\n']

/-- Several reports as plain lines. -/
def renderPlain (palette : Palette) (reports : List Report) : Text :=
  endedLines (reports.flatMap (plainLines palette (1 < reports.length)))

/-- The tables of several reports by the paths that they are displayed under. -/
def tables (reports : List Report) : OrderedMap Text Properties :=
  OrderedMap.ofList (reports.map fun report => (report.path.display, report.properties))

/-- The lines of a TOML table. -/
def tomlLines (table : Text × Properties) : List Text :=
  ('[' :: Toml.Key.write table.1 ++ [']']) ::
    table.2.entries.map fun entry =>
      Toml.Key.write entry.1 ++ [' ', '=', ' '] ++ Toml.Scalar.write entry.2

/-- Several reports as a TOML document, with an empty line between tables. -/
def renderToml (reports : List Report) : Text :=
  ['\n'].intercalate ((tables reports).entries.map fun table => endedLines (tomlLines table))

/-- Several reports in a given format. Only the plain one has colours. -/
def render (format : OutputFormat) (palette : Palette) (reports : List Report) : Text :=
  match format with
  | .plain => renderPlain palette reports
  | .toml => renderToml reports

end Report

end PropertyCascade
