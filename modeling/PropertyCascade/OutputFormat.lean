import PropertyCascade.Text.Basic

/-!
# Output formats

How reports are written: as plain lines, or as one TOML table for each file.
-/

namespace PropertyCascade

/-- How reports are written. -/
inductive OutputFormat where
  | plain
  | toml
  deriving DecidableEq, Repr

namespace OutputFormat

/-- The name of a format. -/
def name : OutputFormat → Text
  | plain => ['p', 'l', 'a', 'i', 'n']
  | toml => ['t', 'o', 'm', 'l']

/-- The format with a given name. -/
def ofName? (text : Text) : Option OutputFormat :=
  if text = plain.name then some plain
  else if text = toml.name then some toml
  else none

end OutputFormat

end PropertyCascade
