import PropertyCascade.Number.Binary64

/-!
# TOML nodes

What a TOML document says once it has been read: scalars, arrays, and tables as their entries in
the order in which the document first mentions their keys. Dates and times are kept as written.
-/

namespace PropertyCascade

namespace Toml

/-- A value in a document. -/
inductive Node where
  | string (content : Text)
  | integer (number : Int64)
  | float (number : Binary64)
  | infinity (negative : Bool)
  | notANumber
  | boolean (truth : Bool)
  /-- A date, a time of day, or both. -/
  | moment (literal : Text)
  | array (elements : List Node)
  | table (entries : List (Text × Node))

end Toml

end PropertyCascade
