import PropertyCascade.PathName

/-!
# File sources

Where texts are read from, as far as a reader can tell: each path yields a text or a failure.
-/

namespace PropertyCascade

/-- Why a file cannot be read. -/
inductive ReadFailure where
  | notFound
  | permissionDenied
  /-- The content is no text. -/
  | invalidData
  | other
  deriving DecidableEq, Repr

namespace ReadFailure

/-- The wording of a failure. -/
def message : ReadFailure → Text
  | notFound => "No such file or directory (os error 2)".toList
  | permissionDenied => "Permission denied (os error 13)".toList
  | invalidData => "stream did not contain valid UTF-8".toList
  | other => "other error".toList

end ReadFailure

/-- Each path yields a text or fails. -/
abbrev FileSource := PathName → Except ReadFailure Text

end PropertyCascade
